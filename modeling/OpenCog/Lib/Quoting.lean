import Mathlib

/-! A text that is closed by a tag: it is read up to the first place where the tag stands. -/
namespace Quoting

variable {α : Type} [DecidableEq α] {tag t n p r : List α}

/-- What stands before the first `tag`, and what stands behind it. -/
def cutAt (tag : List α) : List α → Option (List α × List α)
  | [] => if tag = [] then some ([], []) else none
  | c :: t =>
    if tag <+: c :: t then some ([], (c :: t).drop tag.length)
    else (cutAt tag t).map fun q => (c :: q.1, q.2)

theorem cutAt_of_isPrefix (h : tag <+: t) : cutAt tag t = some ([], t.drop tag.length) := by
  cases t with
  | nil => rw [cutAt, if_pos (List.prefix_nil.mp h), List.drop_nil]
  | cons c t => rw [cutAt, if_pos h]

theorem cutAt_append (h : cutAt tag t = some (p, r)) : t = p ++ (tag ++ r) := by
  induction t generalizing p r with
  | nil =>
    rw [cutAt] at h
    split at h
    · next e =>
      obtain ⟨rfl, rfl⟩ := Prod.mk.inj (Option.some.inj h)
      simp [e]
    · cases h
  | cons c t ih =>
    rw [cutAt] at h
    split at h
    · next hp =>
      obtain ⟨rfl, rfl⟩ := Prod.mk.inj (Option.some.inj h)
      obtain ⟨q, hq⟩ := hp
      rw [← hq, List.drop_left, List.nil_append]
    · obtain ⟨⟨p', r'⟩, hq, he⟩ := Option.map_eq_some_iff.mp h
      obtain ⟨rfl, rfl⟩ := Prod.mk.inj he
      rw [List.cons_append, ← ih hq]

/-- A tag is found, and not behind one that is known to be there. -/
theorem cutAt_isSome (n r : List α) :
    ∃ p q, cutAt tag (n ++ (tag ++ r)) = some (p, q) ∧ p.length ≤ n.length := by
  induction n with
  | nil => exact ⟨[], _, cutAt_of_isPrefix (List.prefix_append tag r), Nat.le_refl _⟩
  | cons c n ih =>
    rw [List.cons_append, cutAt]
    split
    · exact ⟨[], _, rfl, Nat.zero_le _⟩
    · obtain ⟨p, q, hq, hle⟩ := ih
      exact ⟨c :: p, q, by rw [hq]; rfl, Nat.succ_le_succ hle⟩

omit [DecidableEq α] in
/-- A tag that begins in a text and goes on behind it does not need the end of the closing tag. -/
theorem isPrefix_append_tag (htag : tag ≠ []) (hn : n ≠ []) (r : List α) :
    tag <+: n ++ (tag ++ r) ↔ tag <+: n ++ tag.dropLast := by
  have hsplit : n ++ (tag ++ r) = (n ++ tag.dropLast) ++ ([tag.getLast htag] ++ r) := by
    rw [List.append_assoc, ← List.append_assoc tag.dropLast, List.dropLast_concat_getLast]
  have hlen : tag.length ≤ (n ++ tag.dropLast).length := by
    have := List.length_pos_iff.mpr hn
    rw [List.length_append, List.length_dropLast]
    omega
  rw [hsplit]
  exact ⟨fun h => List.prefix_of_prefix_length_le h (List.prefix_append _ _) hlen,
    fun h => h.trans (List.prefix_append _ _)⟩

/-- A text in its tags is read as it is iff the tag does not stand in it, with as much of the
closing tag behind it as does not close anything. -/
theorem cutAt_quoted_iff (htag : tag ≠ []) (n r : List α) :
    cutAt tag (n ++ (tag ++ r)) = some (n, r) ↔ ¬ tag <:+: n ++ tag.dropLast := by
  induction n with
  | nil =>
    have hshort : ¬ tag <:+: tag.dropLast := fun h => by
      have hle := h.length_le
      have hlen := List.length_pos_iff.mpr htag
      rw [List.length_dropLast] at hle
      omega
    rw [List.nil_append, cutAt_of_isPrefix (List.prefix_append tag r), List.drop_left]
    simp [hshort]
  | cons c n ih =>
    have hiff : tag <+: c :: (n ++ (tag ++ r)) ↔ tag <+: c :: (n ++ tag.dropLast) :=
      isPrefix_append_tag htag (List.cons_ne_nil c n) r
    rw [List.cons_append, List.cons_append, List.infix_cons_iff, not_or, cutAt]
    by_cases hp : tag <+: c :: (n ++ tag.dropLast)
    · rw [if_pos (hiff.mpr hp)]
      simp [hp]
    · rw [if_neg (mt hiff.mp hp), ← ih]
      simp only [hp, not_false_eq_true, true_and, Option.map_eq_some_iff, Prod.mk.injEq,
        List.cons.injEq]
      constructor
      · rintro ⟨⟨p, q⟩, hq, rfl, rfl⟩
        exact hq
      · exact fun h => ⟨(n, r), h, rfl, rfl⟩

end Quoting
