import Mathlib

/-! The common elements of sorted lists, found by moving all cursors up to the largest
element under one of them. Repeated elements are kept as often as every list has them. -/
namespace SortedLists

variable {α : Type} [LinearOrder α]

def common : Nat → List (List α) → List α
  | 0, _ => []
  | fuel + 1, rows =>
    if rows.any List.isEmpty then []
    else
      match rows.filterMap List.head? with
      | [] => []
      | m :: ms =>
        let top := ms.foldl max m
        if ms.all (· == m) then m :: common fuel (rows.map List.tail)
        else common fuel (rows.map (List.dropWhile (· < top)))

theorem common_of_isEmpty (fuel : Nat) {rows : List (List α)} (h : rows.any List.isEmpty = true) :
    common fuel rows = [] := by
  cases fuel with
  | zero => rfl
  | succ fuel => rw [common, if_pos h]

theorem common_succ (fuel : Nat) {rows : List (List α)} (h : ¬ rows.any List.isEmpty = true) {m : α}
    {ms : List α} (hheads : rows.filterMap List.head? = m :: ms) :
    common (fuel + 1) rows =
      if ms.all (· == m) then m :: common fuel (rows.map List.tail)
      else common fuel (rows.map (List.dropWhile (· < ms.foldl max m))) := by
  rw [common, if_neg h, hheads]

theorem foldl_max_spec (ms : List α) (m : α) :
    m ≤ ms.foldl max m ∧ (∀ a ∈ ms, a ≤ ms.foldl max m) ∧ ms.foldl max m ∈ m :: ms := by
  induction ms generalizing m with
  | nil => simp
  | cons b ms ih =>
    obtain ⟨h₁, h₂, h₃⟩ := ih (max m b)
    rw [List.foldl_cons]
    refine ⟨(le_max_left m b).trans h₁, ?_, ?_⟩
    · intro a ha
      rcases List.mem_cons.mp ha with rfl | ha
      · exact (le_max_right m a).trans h₁
      · exact h₂ a ha
    · rcases List.mem_cons.mp h₃ with h₃ | h₃
      · rw [h₃]
        rcases max_choice m b with e | e
        · simp [e]
        · simp [e]
      · simp [h₃]

/-- What is common to the lists stands in each of them in the same order. -/
theorem common_sublist (fuel : Nat) {rows : List (List α)} {r : List α} (hr : r ∈ rows) :
    (common fuel rows).Sublist r := by
  induction fuel generalizing rows r with
  | zero => exact List.nil_sublist r
  | succ fuel ih =>
    unfold common
    split
    · exact List.nil_sublist r
    · next hfull =>
      cases r with
      | nil => exact absurd (List.any_eq_true.mpr ⟨[], hr, rfl⟩) hfull
      | cons a t =>
        have ha : a ∈ rows.filterMap List.head? := List.mem_filterMap.mpr ⟨a :: t, hr, rfl⟩
        split
        · exact List.nil_sublist _
        · next m ms hheads =>
          simp only
          split
          · next hall =>
            have hm : m = a := by
              rw [hheads] at ha
              rcases List.mem_cons.mp ha with e | ha
              · exact e.symm
              · exact (beq_iff_eq.mp (List.all_eq_true.mp hall a ha)).symm
            rw [hm]
            exact (ih (List.mem_map_of_mem (f := List.tail) hr)).cons_cons a
          · exact (ih (List.mem_map_of_mem hr)).trans (List.dropWhile_suffix _).sublist

theorem count_dropWhile_lt {r : List α} {top x : α} (hx : top ≤ x) :
    (r.dropWhile (· < top)).count x = r.count x := by
  induction r with
  | nil => rfl
  | cons a r ih =>
    rw [List.dropWhile_cons]
    split
    · next h =>
      have hne : a ≠ x := fun e => by
        rw [e, decide_eq_true_eq] at h
        exact absurd hx (not_le.mpr h)
      rw [ih, List.count_cons_of_ne hne]
    · rfl

theorem count_of_lt_head {a : α} {r : List α} (hr : (a :: r).Pairwise (· ≤ ·)) {x : α}
    (hx : x < a) : (a :: r).count x = 0 := by
  refine List.count_eq_zero_of_not_mem fun hm => ?_
  rcases List.mem_cons.mp hm with rfl | hm
  · exact lt_irrefl x hx
  · exact absurd (List.rel_of_pairwise_cons hr hm) (not_le.mpr hx)

omit [LinearOrder α] in
theorem sum_length_map_lt (rows : List (List α)) (f : List α → List α)
    (hle : ∀ r ∈ rows, (f r).length ≤ r.length) (hlt : ∃ r ∈ rows, (f r).length < r.length) :
    ((rows.map f).map List.length).sum < (rows.map List.length).sum := by
  rw [List.map_map]
  exact List.sum_lt_sum _ _ hle hlt

/-- Dropping what is below the head of one list changes no common count. -/
theorem le_count_map_dropWhile {rows : List (List α)} (hrows : ∀ r ∈ rows, r.Pairwise (· ≤ ·))
    {top : α} {t : List α} (htop : top :: t ∈ rows) (x : α) (n : Nat) :
    (∀ r ∈ rows.map (List.dropWhile (· < top)), n ≤ r.count x) ↔ ∀ r ∈ rows, n ≤ r.count x := by
  simp only [List.forall_mem_map]
  by_cases hx : top ≤ x
  · exact forall₂_congr fun r _ => by rw [count_dropWhile_lt hx]
  · -- the list that starts with `top` has no `x`
    have hzero := count_of_lt_head (hrows _ htop) (not_le.mp hx)
    have hself : (top :: t).dropWhile (· < top) = top :: t := by
      simp
    constructor
    · intro h
      have := h _ htop
      rw [hself, hzero] at this
      exact fun r _ => this.trans (Nat.zero_le _)
    · intro h
      have := h _ htop
      rw [hzero] at this
      exact fun r _ => this.trans (Nat.zero_le _)

omit [LinearOrder α] in
theorem mem_heads {rows : List (List α)} (hcons : ∀ r ∈ rows, ∃ a t, r = a :: t) (a : α) :
    a ∈ rows.filterMap List.head? ↔ ∃ t, a :: t ∈ rows := by
  rw [List.mem_filterMap]
  constructor
  · rintro ⟨r, hr, ha⟩
    obtain ⟨b, t, rfl⟩ := hcons r hr
    obtain rfl := Option.some.inj ha
    exact ⟨t, hr⟩
  · rintro ⟨t, ht⟩
    exact ⟨_, ht, rfl⟩

/-- Where all lists start with `m`, it is one more in each than in its tail. -/
theorem le_count_tails {rows : List (List α)} {m : α} (hm : ∀ r ∈ rows, r = m :: r.tail)
    (x : α) (n k : Nat) (hk : ∀ n, n ≤ k ↔ ∀ r ∈ rows.map List.tail, n ≤ r.count x) :
    n ≤ k + (if m = x then 1 else 0) ↔ ∀ r ∈ rows, n ≤ r.count x := by
  have hcount : ∀ r ∈ rows, r.count x = r.tail.count x + if m = x then 1 else 0 := by
    intro r hr
    conv_lhs => rw [hm r hr]
    rw [List.count_cons]
    simp
  have hrec := hk (n - if m = x then 1 else 0)
  rw [List.forall_mem_map] at hrec
  constructor
  · intro h r hr
    have := hrec.mp (by omega) r hr
    rw [hcount r hr]
    omega
  · intro h
    have := hrec.mpr fun r hr => by
      have := h r hr
      rw [hcount r hr] at this
      omega
    omega

/-- Some head lies below the largest where they are not all the same. -/
theorem exists_head_lt {m : α} {ms : List α} (h : ¬ ms.all (· == m) = true) :
    ∃ a ∈ m :: ms, a < ms.foldl max m := by
  obtain ⟨hle, hle', -⟩ := foldl_max_spec ms m
  by_cases hmt : m < ms.foldl max m
  · exact ⟨m, List.mem_cons_self, hmt⟩
  · rw [Bool.not_eq_true, List.all_eq_false] at h
    obtain ⟨a, ha, hne⟩ := h
    have hmtop := le_antisymm hle (not_lt.mp hmt)
    refine ⟨a, List.mem_cons_of_mem m ha, lt_of_le_of_ne (hle' a ha) fun e => hne ?_⟩
    rw [e, ← hmtop]
    exact beq_self_eq_true m

/-- With enough fuel the result has an element as often as every list has it. -/
theorem le_count_common (fuel : Nat) (rows : List (List α))
    (hrows : ∀ r ∈ rows, r.Pairwise (· ≤ ·)) (hne : rows ≠ [])
    (hfuel : (rows.map List.length).sum < fuel) (x : α) (n : Nat) :
    n ≤ (common fuel rows).count x ↔ ∀ r ∈ rows, n ≤ r.count x := by
  induction fuel generalizing rows n with
  | zero => omega
  | succ fuel ih =>
    unfold common
    split
    · next hempty =>
      obtain ⟨r, hr, he⟩ := List.any_eq_true.mp hempty
      obtain rfl := List.isEmpty_iff.mp he
      rw [List.count_nil]
      exact ⟨fun h r _ => h.trans (Nat.zero_le _), fun h => h [] hr⟩
    · next hfull =>
      have hcons : ∀ r ∈ rows, ∃ a t, r = a :: t := by
        intro r hr
        cases r with
        | nil => exact absurd (List.any_eq_true.mpr ⟨[], hr, rfl⟩) hfull
        | cons a t => exact ⟨a, t, rfl⟩
      have hheads := mem_heads hcons
      obtain ⟨r, hr⟩ := List.exists_mem_of_ne_nil rows hne
      obtain ⟨b, u, rfl⟩ := hcons r hr
      split
      · next hnil =>
        have := (hheads b).mpr ⟨u, hr⟩
        rw [hnil] at this
        cases this
      · next m ms hms =>
        rw [hms] at hheads
        simp only
        split
        · next hall =>
          -- a match: every list starts with `m`
          have hm : ∀ r ∈ rows, r = m :: r.tail := by
            intro r hr
            obtain ⟨a, t, rfl⟩ := hcons r hr
            have ha : a = m := by
              rcases List.mem_cons.mp ((hheads a).mpr ⟨t, hr⟩) with e | ha
              · exact e
              · simpa using List.all_eq_true.mp hall a ha
            rw [ha, List.tail_cons]
          have hsum := sum_length_map_lt rows List.tail
            (fun r _ => by rw [List.length_tail]; exact Nat.sub_le _ _)
            ⟨_, hr, Nat.lt_succ_self _⟩
          have htails : ∀ r ∈ rows.map List.tail, r.Pairwise (· ≤ ·) := by
            rw [List.forall_mem_map]
            exact fun r hr => (hrows r hr).tail
          rw [List.count_cons]
          simp only [beq_iff_eq]
          exact le_count_tails hm x n _ fun n =>
            ih (rows.map List.tail) htails (by simpa using hne) (by omega) n
        · next hmixed =>
          obtain ⟨t, htop⟩ := (hheads (ms.foldl max m)).mp (foldl_max_spec ms m).2.2
          obtain ⟨a, ha, hlt⟩ := exists_head_lt hmixed
          obtain ⟨v, hav⟩ := (hheads a).mp ha
          have hsum := sum_length_map_lt rows (List.dropWhile (· < ms.foldl max m))
            (fun r _ => (List.dropWhile_suffix _).length_le) ⟨a :: v, hav, by
              rw [List.dropWhile_cons, if_pos (by simpa using hlt)]
              exact Nat.lt_succ_of_le (List.dropWhile_suffix _).length_le⟩
          rw [ih _ ?_ (by simpa using hne) (by omega), le_count_map_dropWhile hrows htop]
          rw [List.forall_mem_map]
          exact fun r hr => (hrows r hr).sublist (List.dropWhile_suffix _).sublist

end SortedLists
