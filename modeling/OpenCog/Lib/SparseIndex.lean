import Mathlib

/-! A sorted list with a sparse index: an ordered table of some of its elements,
possibly with repetitions, that is rebuilt once the updates it has missed
outnumber a fraction of the list. Between rebuilds the table can miss at most as
many elements as there are pending updates, so it never runs empty. -/
namespace SparseIndex

variable {α κ : Type} [LinearOrder κ] [DecidableEq α]

/-- The index without its rate: `pending` bounds what the table misses. -/
structure Core (rank : α → κ) (list table : List α) (pending : Nat) : Prop where
  sorted : list.Pairwise (rank · < rank ·)
  live : ∀ c ∈ table, c ∈ list
  ordered : table.Pairwise (rank · ≤ rank ·)
  missing : (list.filter (· ∉ table)).length ≤ pending

/-- With threshold `k` a pending update stands for at least `k` elements. -/
structure Inv (rank : α → κ) (k : Nat) (list table : List α) (pending : Nat) : Prop extends
    Core rank list table pending where
  rate : k * pending ≤ list.length

variable {rank : α → κ} {k pending : Nat} {list list' table : List α} {c : α}

theorem Core.mono (h : Core rank list table pending) {p : Nat} (hp : pending ≤ p) :
    Core rank list table p :=
  ⟨h.sorted, h.live, h.ordered, Nat.le_trans h.missing hp⟩

omit [DecidableEq α] in
theorem eq_of_rank (sorted : list.Pairwise (rank · < rank ·)) {x y : α} (hx : x ∈ list)
    (hy : y ∈ list) (e : rank x = rank y) : x = y := by
  induction list with
  | nil => cases hx
  | cons z zs ih =>
    obtain ⟨hz, hs⟩ := List.pairwise_cons.mp sorted
    rcases List.mem_cons.mp hx with rfl | hx'
    · rcases List.mem_cons.mp hy with rfl | hy'
      · rfl
      · exact absurd e (ne_of_lt (hz y hy'))
    · rcases List.mem_cons.mp hy with rfl | hy'
      · exact absurd e (ne_of_gt (hz x hx'))
      · exact ih hs hx' hy'

/-- The table of a non-empty list is not empty. -/
theorem Inv.table_ne_nil (h : Inv rank k list table pending) (hk : 2 ≤ k) (hne : list ≠ []) :
    table ≠ [] := by
  rintro rfl
  have hmiss := h.missing
  have hrate := h.rate
  have hpos := List.length_pos_iff.mpr hne
  simp only [List.not_mem_nil, not_false_eq_true, decide_true, List.filter_true] at hmiss
  have : 2 * pending ≤ k * pending := Nat.mul_le_mul_right pending hk
  omega

theorem Inv.rebuilt (k : Nat) (sorted : list.Pairwise (rank · < rank ·)) :
    Inv rank k list list 0 := by
  refine ⟨⟨sorted, fun _ => id, sorted.imp le_of_lt, ?_⟩, by simp⟩
  have : list.filter (· ∉ list) = [] := by simp
  rw [this]
  rfl

/-- Either the rate still holds or the division test asks for a rebuild. -/
theorem Core.settle (h : Core rank list table pending)
    (test : ¬ list.length / pending < k) : Inv rank k list table pending := by
  refine ⟨h, ?_⟩
  have : k ≤ list.length / pending := Nat.le_of_not_lt test
  calc k * pending ≤ (list.length / pending) * pending := Nat.mul_le_mul_right pending this
    _ ≤ list.length := Nat.div_mul_le_self list.length pending

omit [DecidableEq α] in
theorem filter_perm_length {p : α → Bool} (hperm : list'.Perm (c :: list)) :
    (list'.filter p).length = (if p c then 1 else 0) + (list.filter p).length := by
  rw [(hperm.filter p).length_eq]
  by_cases hc : p c
  · simp [hc, Nat.add_comm]
  · simp [hc]

/-! ## A new element -/

/-- A new element not entered in the table is one more update pending. -/
theorem Core.insert (h : Core rank list table pending) (hperm : list'.Perm (c :: list))
    (sorted : list'.Pairwise (rank · < rank ·)) : Core rank list' table (pending + 1) := by
  refine ⟨sorted, ?_, h.ordered, ?_⟩
  · intro x hx
    exact hperm.mem_iff.mpr (List.mem_cons_of_mem c (h.live x hx))
  · have := h.missing
    rw [filter_perm_length hperm]
    split <;> omega

/-- A new element beyond the last entry may be entered at the end. -/
theorem Inv.append (h : Inv rank k list table pending) (hperm : list'.Perm (c :: list))
    (sorted : list'.Pairwise (rank · < rank ·)) (last : ∀ x ∈ table, rank x ≤ rank c) :
    Inv rank k list' (table ++ [c]) pending := by
  have hlen : list'.length = list.length + 1 := by rw [hperm.length_eq, List.length_cons]
  refine ⟨⟨sorted, ?_, ?_, ?_⟩, ?_⟩
  · intro x hx
    rw [hperm.mem_iff]
    rcases List.mem_append.mp hx with hx | hx
    · exact List.mem_cons_of_mem c (h.live x hx)
    · rw [List.mem_singleton.mp hx]; exact List.mem_cons_self
  · refine List.pairwise_append.mpr ⟨h.ordered, List.pairwise_singleton _ _, ?_⟩
    intro x hx y hy
    rw [List.mem_singleton.mp hy]
    exact last x hx
  · have hsub : ∀ x, x ∉ table ++ [c] → x ∉ table := by
      intro x hx hm
      exact hx (List.mem_append_left _ hm)
    rw [filter_perm_length hperm]
    have hmono : (list.filter (· ∉ table ++ [c])).length ≤ (list.filter (· ∉ table)).length :=
      List.Sublist.length_le (List.monotone_filter_right list fun x hx => by
        simpa using hsub x (by simpa using hx))
    have := h.missing
    simp only [List.mem_append, List.mem_singleton, or_true, not_true, decide_false,
      Bool.false_eq_true, if_false]
    simp only [List.mem_append, List.mem_singleton] at hmono
    omega
  · have := h.rate
    omega

/-! ## An element leaves -/

section Remove
variable (h : Core rank list table pending) (hperm : list.Perm (c :: list'))
include h hperm

theorem Core.sorted_of_perm (hsub : list'.Sublist list) :
    list'.Pairwise (rank · < rank ·) ∧ c ∉ list' := by
  have hs := h.sorted.sublist hsub
  refine ⟨hs, fun hc => ?_⟩
  have hnd : list.Nodup := h.sorted.imp (fun hlt e => absurd (congrArg rank e) (ne_of_lt hlt))
  exact (List.nodup_cons.mp (hperm.nodup_iff.mp hnd)).1 hc

/-- The entries of the element may simply be dropped. -/
theorem Core.drop (hsub : list'.Sublist list) :
    Core rank list' (table.filter (· ≠ c)) pending := by
  obtain ⟨hs, hc⟩ := h.sorted_of_perm hperm hsub
  refine ⟨hs, ?_, h.ordered.filter _, ?_⟩
  · intro x hx
    obtain ⟨hx, hne⟩ := List.mem_filter.mp hx
    rcases List.mem_cons.mp (hperm.mem_iff.mp (h.live x hx)) with rfl | hx
    · simp at hne
    · exact hx
  · have heq : list'.filter (· ∉ table.filter (· ≠ c)) = list'.filter (· ∉ table) := by
      apply List.filter_congr
      intro x hx
      have : x ≠ c := fun e => hc (e ▸ hx)
      simp [this]
    have hle := h.missing
    rw [filter_perm_length hperm] at hle
    rw [heq]
    omega

/-- Its entries may be redirected to its successor in the list. -/
theorem Core.redirect (hsub : list'.Sublist list) {next : α} (hnext : next ∈ list')
    (hlt : rank c < rank next) (succ : ∀ x ∈ list, rank c < rank x → rank next ≤ rank x) :
    Core rank list' (table.map fun x => if x = c then next else x) pending := by
  obtain ⟨hs, hc⟩ := h.sorted_of_perm hperm hsub
  refine ⟨hs, ?_, ?_, ?_⟩
  · intro x hx
    obtain ⟨y, hy, rfl⟩ := List.mem_map.mp hx
    split
    · exact hnext
    · rename_i hne
      rcases List.mem_cons.mp (hperm.mem_iff.mp (h.live y hy)) with e | hy
      · exact absurd e hne
      · exact hy
  · refine List.pairwise_map.mpr (h.ordered.imp_of_mem ?_)
    intro x y hx hy hxy
    split
    · split
      · exact le_refl _
      · rename_i e hne
        subst e
        apply succ y (h.live y hy)
        refine lt_of_le_of_ne hxy fun e => hne ?_
        exact (eq_of_rank h.sorted (h.live x hx) (h.live y hy) e).symm
    · split
      · rename_i e
        exact le_trans hxy (e ▸ le_of_lt hlt)
      · exact hxy
  · have hstill : ∀ x ∈ list', x ∉ (table.map fun x => if x = c then next else x) → x ∉ table := by
      intro x hx hn hm
      have hne : x ≠ c := fun e => hc (e ▸ hx)
      exact hn (List.mem_map.mpr ⟨x, hm, by simp [hne]⟩)
    have heq : list'.filter (· ∉ table.map fun x => if x = c then next else x) =
        (list'.filter (· ∉ table)).filter (· ∉ table.map fun x => if x = c then next else x) := by
      rw [List.filter_filter]
      apply List.filter_congr
      intro x hx
      by_cases hn : x ∉ table.map fun x => if x = c then next else x
      · simp only [hn, hstill x hx hn, not_false_eq_true, decide_true, Bool.and_self]
      · simp only [hn, decide_false, Bool.false_and]
    have hle := h.missing
    rw [filter_perm_length hperm] at hle
    rw [heq]
    exact Nat.le_trans (List.length_filter_le _ _) (by omega)

end Remove

/-! ## The entries of one element -/

omit [DecidableEq α] in
/-- In an ordered list of elements not below `c` the copies of `c` come first. -/
theorem run_split {l : List α} (ordered : l.Pairwise (rank · ≤ rank ·))
    (ge : ∀ x ∈ l, rank c ≤ rank x) (eq : ∀ x ∈ l, rank x = rank c → x = c) :
    ∃ k post, l = List.replicate k c ++ post ∧ ∀ x ∈ post, rank c < rank x := by
  induction l with
  | nil => exact ⟨0, [], rfl, by simp⟩
  | cons x xs ih =>
    obtain ⟨hx, hxs⟩ := List.pairwise_cons.mp ordered
    rcases lt_or_eq_of_le (ge x List.mem_cons_self) with hlt | he
    · refine ⟨0, x :: xs, rfl, ?_⟩
      intro y hy
      rcases List.mem_cons.mp hy with rfl | hy
      · exact hlt
      · exact lt_of_lt_of_le hlt (hx y hy)
    · obtain ⟨k, post, rfl, hpost⟩ := ih hxs (fun y hy => ge y (List.mem_cons_of_mem x hy))
        (fun y hy => eq y (List.mem_cons_of_mem x hy))
      obtain rfl := eq x List.mem_cons_self he.symm
      exact ⟨k + 1, post, rfl, hpost⟩

/-- The entries of `c` stand together, after the smaller ones and before the
greater ones. -/
theorem Core.split_at (h : Core rank list table pending) (hc : c ∈ list) {i : Nat}
    (hi : table[i]? = some c) :
    ∃ pre k₁ k₂ post, table.take i = pre ++ List.replicate k₁ c ∧
      table.drop (i + 1) = List.replicate k₂ c ++ post ∧
      (∀ x ∈ pre, rank x < rank c) ∧ ∀ x ∈ post, rank c < rank x := by
  have hsplit : table = table.take i ++ c :: table.drop (i + 1) := by
    obtain ⟨hlt, hget⟩ := List.getElem?_eq_some_iff.mp hi
    rw [← hget, List.getElem_cons_drop, List.take_append_drop]
  have hord := h.ordered
  rw [hsplit] at hord
  obtain ⟨hbefore, hcons, hcross⟩ := List.pairwise_append.mp hord
  obtain ⟨hafter, hrest⟩ := List.pairwise_cons.mp hcons
  have eq : ∀ x ∈ table, rank x = rank c → x = c :=
    fun x hx e => eq_of_rank h.sorted (h.live x hx) hc e
  obtain ⟨k₂, post, hpost, hgt⟩ := run_split hrest hafter
    (fun x hx => eq x (List.mem_of_mem_drop hx))
  -- the part before is the same statement read backwards
  obtain ⟨k₁, pre, hpre, hlt⟩ := @run_split α κᵒᵈ _ (fun x => OrderDual.toDual (rank x)) c
    (table.take i).reverse (List.pairwise_reverse.mpr hbefore)
    (fun x hx => hcross x (List.mem_reverse.mp hx) c List.mem_cons_self)
    (fun x hx e => eq x (List.mem_of_mem_take (List.mem_reverse.mp hx)) e)
  refine ⟨pre.reverse, k₁, k₂, post, ?_, hpost, ?_, hgt⟩
  · rw [← List.reverse_reverse (table.take i), hpre, List.reverse_append, List.reverse_replicate]
  · intro x hx
    exact hlt x (List.mem_reverse.mp hx)

end SparseIndex
