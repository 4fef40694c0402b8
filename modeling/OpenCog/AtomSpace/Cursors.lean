import OpenCog.AtomSpace.HandleEntry

/-! The intersection of handle lists by cursors: they move up to the largest handle under
one of them until all show the same handle. -/
namespace OpenCog.HandleEntry

/-- `sets[j]` with `cursors[j]`; `sizes[j]` is its length. -/
structure Row where
  handles : List Handle
  cursor : Nat

namespace Row

/-- `sets[j][cursors[j]]`; `none` past the end. -/
def get? (r : Row) : Option Handle := r.handles[r.cursor]?

def next (r : Row) : Row := { r with cursor := r.cursor + 1 }

end Row

/-- The largest handle under a cursor, and whether one differs from the first. The result
is `some none` where the code returns -1, and `none` where it reads past an end. -/
def largest (first : Handle) : List Row → Handle → Bool → Option (Option (Handle × Bool))
  | [], max, fail => some (some (max, fail))
  | r :: rows, max, fail =>
    if r.handles.length ≤ r.cursor then some none
    else do
      let h ← r.get?
      largest first rows (if max < h then h else max) (fail || first != h)

/-- The `while` loop on one cursor; also `none` where it has not ended. -/
def advance (max : Handle) : Nat → Row → Option (Option Row)
  | 0, _ => none
  | fuel + 1, r => do
    let h ← r.get?
    if h < max then
      if r.handles.length ≤ r.next.cursor then some none else advance max fuel r.next
    else some (some r)

def advanceAll (max : Handle) : List Row → Option (Option (List Row))
  | [] => some (some [])
  | r :: rows => do
    match ← advance max (r.handles.length + 1) r with
    | none => some none
    | some r =>
      let rest ← advanceAll max rows
      some (rest.map (r :: ·))

/-- The position of the match in the first list, and the cursors behind it. -/
def nextMatch : Nat → List Row → Option (Option (Nat × List Row))
  | 0, _ => none
  | _, [] => none
  | fuel + 1, r :: rows =>
    if r.handles.length ≤ r.cursor then some none
    else do
      let first ← r.get?
      match ← largest first (r :: rows) first false with
      | none => some none
      | some (max, true) =>
        match ← advanceAll max (r :: rows) with
        | none => some none
        | some rows => nextMatch fuel rows
      | some (_, false) => some (some (r.cursor, (r :: rows).map Row.next))

/-- How many entries are not passed yet. -/
def remaining (rows : List Row) : Nat := (rows.map fun r => r.handles.length - r.cursor).sum

/-- The loop of `intersection` over arrays. -/
def collect : Nat → List Row → Option (List Handle)
  | 0, _ => none
  | fuel + 1, rows => do
    match ← nextMatch (remaining rows + 1) rows with
    | none => some []
    | some (pos, rows') =>
      let h ← rows.head?.bind (·.handles[pos]?)
      let answer ← collect fuel rows'
      some (h :: answer)

def rowsOf (sets : List (List Handle)) : List Row := sets.map fun set => ⟨set.mergeSort, 0⟩

def intersection (sets : List (List Handle)) : Option (List Handle) :=
  if sets = [] ∨ [] ∈ sets then some []
  else collect (remaining (rowsOf sets) + 1) (rowsOf sets)

/-! ## The cursors as lists -/

/-- The entries from the cursor on. -/
def Row.rest (r : Row) : List Handle := r.handles.drop r.cursor

def Row.InBounds (r : Row) : Prop := r.cursor ≤ r.handles.length

theorem Row.rest_eq_nil {r : Row} : r.rest = [] ↔ r.handles.length ≤ r.cursor :=
  List.drop_eq_nil_iff

theorem Row.get?_eq {r : Row} : r.get? = r.rest.head? := by
  rw [Row.get?, Row.rest, List.head?_drop]

theorem Row.rest_next (r : Row) : r.next.rest = r.rest.tail := by
  rw [Row.rest, Row.rest, List.tail_drop]
  rfl

theorem remaining_eq (rows : List Row) :
    remaining rows = ((rows.map Row.rest).map List.length).sum := by
  simp only [remaining, List.map_map, Function.comp_def, Row.rest, List.length_drop]

theorem largest_spec {first : Handle} {rows : List Row} (max : Handle) (fail : Bool) :
    largest first rows max fail =
      some (if (rows.map Row.rest).any List.isEmpty then none
        else some (((rows.map Row.rest).filterMap List.head?).foldl Max.max max,
          fail || ((rows.map Row.rest).filterMap List.head?).any (first != ·))) := by
  induction rows generalizing max fail with
  | nil => simp [largest]
  | cons r rows ih =>
    unfold largest
    cases hr : r.rest with
    | nil =>
      rw [if_pos (Row.rest_eq_nil.mp hr)]
      simp [hr]
    | cons h t =>
      have hin : ¬ r.handles.length ≤ r.cursor := fun hle => by
        rw [Row.rest_eq_nil.mpr hle] at hr
        cases hr
      have hmax : (if max < h then h else max) = Max.max max h := by
        rcases lt_or_ge max h with hlt | hge
        · rw [if_pos hlt, max_eq_right hlt.le]
        · rw [if_neg (not_lt.mpr hge), max_eq_left hge]
      rw [if_neg hin, Row.get?_eq, hr]
      simp [ih, hmax, hr, Bool.or_assoc]

/-- One cursor moves past the smaller entries, or its list ends. -/
theorem advance_spec (max : Handle) (fuel : Nat) {r : Row} (hr : r.cursor < r.handles.length)
    (hfuel : r.handles.length < fuel + r.cursor) :
    (advance max fuel r = some none ∧ r.rest.dropWhile (· < max) = []) ∨
      ∃ r', advance max fuel r = some (some r') ∧ r'.handles = r.handles ∧ r'.InBounds ∧
        r'.rest = r.rest.dropWhile (· < max) := by
  induction fuel generalizing r with
  | zero => omega
  | succ fuel ih =>
    have hrest : r.rest = r.handles[r.cursor] :: r.next.rest :=
      List.drop_eq_getElem_cons hr
    unfold advance
    rw [Row.get?_eq, hrest]
    simp only [List.head?_cons, Option.bind_eq_bind, Option.bind_some, List.dropWhile_cons,
      decide_eq_true_eq]
    by_cases hlt : r.handles[r.cursor] < max
    · rw [if_pos hlt, if_pos hlt]
      by_cases hend : r.handles.length ≤ r.next.cursor
      · rw [if_pos hend, Row.rest_eq_nil.mpr hend]
        exact .inl ⟨rfl, rfl⟩
      · rw [if_neg hend]
        have hstep : r.next.cursor = r.cursor + 1 := rfl
        have hsame : r.next.handles = r.handles := rfl
        have := ih (r := r.next) (by rw [hsame]; omega) (by rw [hsame]; omega)
        rwa [hsame] at this
    · rw [if_neg hlt, if_neg hlt]
      exact .inr ⟨r, rfl, rfl, hr.le, hrest⟩

theorem advanceAll_spec (max : Handle) {rows : List Row}
    (hrows : ∀ r ∈ rows, r.cursor < r.handles.length) :
    (advanceAll max rows = some none ∧
        ((rows.map Row.rest).map (List.dropWhile (· < max))).any List.isEmpty = true) ∨
      ∃ rows', advanceAll max rows = some (some rows') ∧
        rows'.map Row.handles = rows.map Row.handles ∧ (∀ r ∈ rows', r.InBounds) ∧
        rows'.map Row.rest = (rows.map Row.rest).map (List.dropWhile (· < max)) := by
  induction rows with
  | nil => exact .inr ⟨[], rfl, rfl, by simp, rfl⟩
  | cons r rows ih =>
    obtain ⟨hr, hrows⟩ := List.forall_mem_cons.mp hrows
    unfold advanceAll
    rcases advance_spec max (r.handles.length + 1) hr (by omega) with
      ⟨hend, hdrop⟩ | ⟨r', hgo, hsame, hin, hdrop⟩
    · rw [hend]
      exact .inl ⟨rfl, by simp [hdrop]⟩
    · rw [hgo]
      rcases ih hrows with ⟨hend, hany⟩ | ⟨rows', hgo', hsame', hin', hdrop'⟩
      · simp only [Option.bind_eq_bind, Option.bind_some, hend, Option.map_none]
        exact .inl ⟨trivial, by simp only [List.map_cons, List.any_cons, hany, Bool.or_true]⟩
      · simp only [Option.bind_eq_bind, Option.bind_some, hgo', Option.map_some]
        refine .inr ⟨r' :: rows', rfl, ?_, List.forall_mem_cons.mpr ⟨hin, hin'⟩, ?_⟩
        · rw [List.map_cons, List.map_cons, hsame, hsame']
        · simp only [List.map_cons, hdrop, hdrop']

/-! ## Matches -/

theorem remaining_lt {rows rows' : List Row} {f : List Handle → List Handle}
    (hmap : rows'.map Row.rest = (rows.map Row.rest).map f) (hle : ∀ l, (f l).length ≤ l.length)
    (hlt : ∃ r ∈ rows, (f r.rest).length < r.rest.length) : remaining rows' < remaining rows := by
  rw [remaining_eq, remaining_eq, hmap]
  refine SortedLists.sum_length_map_lt _ f (fun l _ => hle l) ?_
  obtain ⟨r, hr, hlt⟩ := hlt
  exact ⟨r.rest, List.mem_map_of_mem hr, hlt⟩

/-- A common handle, and the cursors behind it. -/
structure Matched (rows : List Row) (pos : Nat) (rows' : List Row) (h : Handle) : Prop where
  entry : rows.head?.bind (·.handles[pos]?) = some h
  handles : rows'.map Row.handles = rows.map Row.handles
  inBounds : ∀ r ∈ rows', r.InBounds
  fewer : remaining rows' < remaining rows

theorem Matched.ne_nil {rows rows' : List Row} {pos : Nat} {h : Handle}
    (hm : Matched rows pos rows' h) (hne : rows ≠ []) : rows' ≠ [] := by
  rintro rfl
  exact hne (List.map_eq_nil_iff.mp hm.handles.symm)

/-- A match: all cursors move on. -/
theorem matched_next {r : Row} {rows : List Row} {first : Handle} {t : List Handle}
    (hr : r.rest = first :: t) (hbounds : ∀ q ∈ r :: rows, q.cursor < q.handles.length) :
    ((r :: rows).map Row.next).map Row.rest = ((r :: rows).map Row.rest).map List.tail ∧
      Matched (r :: rows) r.cursor ((r :: rows).map Row.next) first := by
  have hrest : ((r :: rows).map Row.next).map Row.rest =
      ((r :: rows).map Row.rest).map List.tail := by
    rw [List.map_map, List.map_map]
    exact List.map_congr_left fun r _ => Row.rest_next r
  refine ⟨hrest, ?_, ?_, ?_, ?_⟩
  · have hget : r.get? = some first := by rw [Row.get?_eq, hr]; rfl
    exact hget
  · rw [List.map_map]
    rfl
  · rw [List.forall_mem_map]
    exact hbounds
  · apply remaining_lt hrest
    · intro l
      rw [List.length_tail]
      exact Nat.sub_le _ _
    · exact ⟨r, List.mem_cons_self, by rw [hr]; exact Nat.lt_succ_self _⟩

/-- No match: the cursor with the smallest handle moves. -/
theorem remaining_advanced {rows rows' : List Row} {top a : Handle}
    (ha : a ∈ (rows.map Row.rest).filterMap List.head?) (hlow : a < top)
    (hdrop : rows'.map Row.rest = (rows.map Row.rest).map (List.dropWhile (· < top))) :
    remaining rows' < remaining rows := by
  obtain ⟨l, hl, hla⟩ := List.mem_filterMap.mp ha
  obtain ⟨q, hq, rfl⟩ := List.mem_map.mp hl
  obtain ⟨v, hv⟩ := List.head?_eq_some_iff.mp hla
  apply remaining_lt hdrop
  · exact fun l => (List.dropWhile_suffix _).length_le
  · refine ⟨q, hq, ?_⟩
    rw [hv, List.dropWhile_cons, if_pos (by simpa using hlow)]
    exact Nat.lt_succ_of_le (List.dropWhile_suffix _).length_le

theorem Matched.of_advanced {rows rows₁ rows₂ : List Row} {pos : Nat} {h : Handle}
    (hm : Matched rows₁ pos rows₂ h) (hsame : rows₁.map Row.handles = rows.map Row.handles)
    (hfewer : remaining rows₁ < remaining rows) : Matched rows pos rows₂ h where
  entry := by
    have hhead : rows₁.head?.map Row.handles = rows.head?.map Row.handles := by
      rw [← List.head?_map, ← List.head?_map, hsame]
    have hentry : (rows₁.head?.map Row.handles).bind (·[pos]?) = some h := by
      rw [Option.bind_map]
      exact hm.entry
    rw [hhead, Option.bind_map] at hentry
    exact hentry
  handles := hm.handles.trans hsame
  inBounds := hm.inBounds
  fewer := hm.fewer.trans hfewer

/-- A call returns the first common handle there is, and moves no cursor past an end. -/
theorem nextMatch_spec (g f : Nat) {rows : List Row} (hne : rows ≠ [])
    (hin : ∀ r ∈ rows, r.InBounds) (hg : remaining rows < g) (hf : remaining rows < f) :
    (nextMatch g rows = some none ∧ SortedLists.common f (rows.map Row.rest) = []) ∨
      ∃ pos rows' h f', nextMatch g rows = some (some (pos, rows')) ∧ Matched rows pos rows' h ∧
        remaining rows' < f' ∧ SortedLists.common f (rows.map Row.rest) =
          h :: SortedLists.common f' (rows'.map Row.rest) := by
  induction g generalizing f rows with
  | zero => omega
  | succ g ih =>
    obtain ⟨r, rows, rfl⟩ := List.exists_cons_of_ne_nil hne
    obtain ⟨f, rfl⟩ : ∃ k, f = k + 1 := ⟨f - 1, by omega⟩
    unfold nextMatch
    by_cases hend : r.handles.length ≤ r.cursor
    · rw [if_pos hend]
      refine .inl ⟨rfl, SortedLists.common_of_isEmpty (f + 1) ?_⟩
      simp [Row.rest_eq_nil.mpr hend]
    · obtain ⟨first, t, hr⟩ := List.exists_cons_of_ne_nil (mt Row.rest_eq_nil.mp hend)
      rw [if_neg hend, Row.get?_eq, hr]
      simp only [List.head?_cons, Option.bind_eq_bind, Option.bind_some, largest_spec]
      by_cases hempty : ((r :: rows).map Row.rest).any List.isEmpty = true
      · rw [if_pos hempty]
        exact .inl ⟨rfl, SortedLists.common_of_isEmpty (f + 1) hempty⟩
      · rw [if_neg hempty]
        have hheads : ((r :: rows).map Row.rest).filterMap List.head? =
            first :: (rows.map Row.rest).filterMap List.head? := by
          simp [hr]
        have hbounds : ∀ q ∈ r :: rows, q.cursor < q.handles.length := by
          intro q hq
          by_contra hge
          refine hempty (List.any_eq_true.mpr ⟨q.rest, List.mem_map_of_mem hq, ?_⟩)
          rw [List.isEmpty_iff]
          exact Row.rest_eq_nil.mpr (not_lt.mp hge)
        set heads := (rows.map Row.rest).filterMap List.head? with hset
        rw [SortedLists.common_succ f hempty hheads, hheads, List.foldl_cons, max_self,
          List.any_cons, bne_self_eq_false, Bool.false_or, Bool.false_or]
        have hfail : heads.any (first != ·) = !heads.all (· == first) := by
          rw [List.not_all_eq_any_not]
          exact congrArg heads.any (funext fun h => by rw [bne, Bool.beq_comm])
        rw [hfail]
        by_cases hall : heads.all (· == first) = true
        · rw [if_pos hall, hall]
          obtain ⟨hrest, hm⟩ := matched_next hr hbounds
          have hfewer := hm.fewer
          exact .inr ⟨r.cursor, _, first, f, rfl, hm, by omega, by rw [hrest]⟩
        · rw [if_neg hall, Bool.eq_false_iff.mpr hall]
          simp only [Bool.not_false]
          set top := heads.foldl Max.max first with htop
          rcases advanceAll_spec top hbounds with
            ⟨hover, hany⟩ | ⟨rows', hgo, hsame, hin', hdrop⟩
          · rw [hover]
            exact .inl ⟨rfl, SortedLists.common_of_isEmpty f hany⟩
          · rw [hgo, ← hdrop]
            simp only [Option.bind_some]
            obtain ⟨a, ha, hlow⟩ := SortedLists.exists_head_lt hall
            have hfewer : remaining rows' < remaining (r :: rows) :=
              remaining_advanced (hheads ▸ ha) hlow hdrop
            have hne' : rows' ≠ [] := by
              rintro rfl
              cases hsame
            rcases ih f hne' hin' (by omega) (by omega) with
              hover | ⟨pos, rows'', h, f', hnext, hm, hf', hcommon⟩
            · exact .inl hover
            · exact .inr ⟨pos, rows'', h, f', hnext, hm.of_advanced hsame hfewer, hf', hcommon⟩

/-- The cursors between the calls of `nextMatch`. -/
inductive Visited (rows : List Row) : List Row → Prop where
  | start : Visited rows rows
  | next {rows₁ rows₂ : List Row} {pos : Nat} : Visited rows rows₁ →
      nextMatch (remaining rows₁ + 1) rows₁ = some (some (pos, rows₂)) → Visited rows rows₂

theorem Visited.inBounds {rows rows' : List Row} (h : Visited rows rows') (hne : rows ≠ [])
    (hin : ∀ r ∈ rows, r.InBounds) : rows' ≠ [] ∧ ∀ r ∈ rows', r.InBounds := by
  induction h with
  | start => exact ⟨hne, hin⟩
  | @next rows₁ rows₂ pos _ hnext ih =>
    rcases nextMatch_spec _ _ ih.1 ih.2 (Nat.lt_succ_self _) (Nat.lt_succ_self _) with
      ⟨hover, -⟩ | ⟨_, rows', _, _, hgo, hm, -⟩
    · rw [hover] at hnext
      cases hnext
    · rw [hgo] at hnext
      obtain ⟨-, rfl⟩ := Prod.mk.inj (Option.some.inj (Option.some.inj hnext))
      exact ⟨hm.ne_nil ih.1, hm.inBounds⟩

theorem collect_spec (g f : Nat) {rows : List Row} (hne : rows ≠ [])
    (hin : ∀ r ∈ rows, r.InBounds) (hg : remaining rows < g) (hf : remaining rows < f) :
    collect g rows = some (SortedLists.common f (rows.map Row.rest)) := by
  induction g generalizing f rows with
  | zero => omega
  | succ g ih =>
    unfold collect
    rcases nextMatch_spec (remaining rows + 1) f hne hin (Nat.lt_succ_self _) hf with
      ⟨hover, hnil⟩ | ⟨pos, rows', h, f', hnext, hm, hf', hcommon⟩
    · rw [hover, hnil]
      rfl
    · have hfewer := hm.fewer
      rw [hnext]
      simp only [Option.bind_eq_bind, Option.bind_some, hm.entry,
        ih f' (hm.ne_nil hne) hm.inBounds (by omega) hf', hcommon]

theorem rest_rowsOf (sets : List (List Handle)) :
    (rowsOf sets).map Row.rest = sets.map fun set => set.mergeSort := by
  rw [rowsOf, List.map_map]
  rfl

/-- The cursors compute the intersection of the lists. -/
theorem intersection_eq (sets : List (List Handle)) :
    intersection sets = some (OpenCog.intersection sets) := by
  unfold intersection
  by_cases hnil : sets = []
  · rw [if_pos (.inl hnil), hnil]
    rfl
  · by_cases hempty : [] ∈ sets
    · rw [if_pos (.inr hempty), OpenCog.intersection, if_neg hnil,
        SortedLists.common_of_isEmpty]
      refine List.any_eq_true.mpr ⟨[], List.mem_map.mpr ⟨[], hempty, ?_⟩, rfl⟩
      exact List.mergeSort_nil
    · have hlength : remaining (rowsOf sets) = (sets.map List.length).sum := by
        rw [remaining_eq, rest_rowsOf, List.map_map]
        simp [Function.comp_def]
      rw [if_neg (by tauto), OpenCog.intersection, if_neg hnil, ← rest_rowsOf]
      refine collect_spec _ _ ?_ ?_ (Nat.lt_succ_self _) (by omega)
      · simpa [rowsOf] using hnil
      · rw [rowsOf, List.forall_mem_map]
        exact fun set _ => Nat.zero_le _

theorem sorted_intersection (sets : List (List Handle)) :
    (OpenCog.intersection sets).Pairwise (· ≤ ·) := by
  unfold OpenCog.intersection
  split
  · exact .nil
  · rename_i hne
    obtain ⟨set, hset⟩ := List.exists_mem_of_ne_nil sets hne
    have hsub := SortedLists.common_sublist ((sets.map List.length).sum + 1)
      (List.mem_map_of_mem (f := fun set => set.mergeSort) hset)
    exact (sorted_mergeSort set).sublist hsub

/-- The intersection of at least one list ends without a read past an end, keeps every
cursor within its list, and returns in order each handle as often as all lists have it. -/
theorem intersection_spec {sets : List (List Handle)} (hne : sets ≠ []) :
    (∀ rows, Visited (rowsOf sets) rows → ∀ r ∈ rows, r.cursor ≤ r.handles.length) ∧
      ∃ answer, intersection sets = some answer ∧ answer.Pairwise (· ≤ ·) ∧
        ∀ h, IsLeast {n | ∃ set ∈ sets, n = set.count h} (answer.count h) := by
  refine ⟨fun rows hv => (hv.inBounds ?_ ?_).2, OpenCog.intersection sets, intersection_eq sets,
    sorted_intersection sets, fun h => ⟨?_, ?_⟩⟩
  · simpa [rowsOf] using hne
  · rw [rowsOf, List.forall_mem_map]
    exact fun set _ => Nat.zero_le _
  · -- one list has it no more often
    by_contra hall
    have hmore : ∀ set ∈ sets, (OpenCog.intersection sets).count h + 1 ≤ set.count h := by
      intro set hset
      have hle := (le_count_intersection hne h _).mp (le_refl _) set hset
      rcases Nat.lt_or_ge ((OpenCog.intersection sets).count h) (set.count h) with hlt | hge
      · exact hlt
      · exact absurd ⟨set, hset, le_antisymm hle hge⟩ hall
    have := (le_count_intersection hne h _).mpr hmore
    omega
  · rintro n ⟨set, hset, rfl⟩
    exact (le_count_intersection hne h _).mp (le_refl _) set hset

theorem intersection_spec_two_lists :
    (∀ rows, Visited (rowsOf [[1, 2, 2, 5], [2, 2, 2, 3]]) rows →
        ∀ r ∈ rows, r.cursor ≤ r.handles.length) ∧
      ∃ answer, intersection [[1, 2, 2, 5], [2, 2, 2, 3]] = some answer ∧
        answer.Pairwise (· ≤ ·) ∧
        ∀ h, IsLeast {n | ∃ set ∈ [[1, 2, 2, 5], [2, 2, 2, 3]], n = set.count h}
          (answer.count h) :=
  intersection_spec (by decide)

end OpenCog.HandleEntry
