import Mathlib.Data.List.Basic

/-! Filtering a linked list in place: first the head is trimmed, then entries are unlinked
behind the current one. A test may have no result, and then the loop has none. -/
namespace Unlinking

variable {α : Type}

/-- Entries leave from the front until one passes. -/
def trim (test : α → Option Bool) : List α → Option (List α)
  | [] => some []
  | a :: l => (test a).bind fun ok => if ok then some (a :: l) else trim test l

/-- What stays behind the current entry; the test sees it and the next one. -/
def unlink (test : α → α → Option Bool) : α → List α → Option (List α)
  | _, [] => some []
  | a, b :: l =>
    (test a b).bind fun ok =>
      if ok then (unlink test b l).map (b :: ·) else unlink test a l

def filter (head : α → Option Bool) (inner : α → α → Option Bool) (l : List α) :
    Option (List α) :=
  (trim head l).bind fun
    | [] => some []
    | a :: l => (unlink inner a l).map (a :: ·)

variable {test : α → Option Bool}

/-! ## The next entry is tested -/

/-- Both loops test the same of every entry, the second loop the entry it may unlink. -/
def filterNext (test : α → Option Bool) : List α → Option (List α) :=
  filter test fun _ b => test b

theorem unlink_next (a : α) (l : List α) : unlink (fun _ b => test b) a l =
    if ∀ b ∈ l, (test b).isSome then some (l.filter fun b => test b == some true) else none := by
  induction l generalizing a with
  | nil => simp [unlink]
  | cons b l ih =>
    cases hb : test b with
    | none => simp [unlink, hb]
    | some ok =>
      cases ok with
      | true =>
        simp only [unlink, hb, Option.bind_some, if_true, ih]
        split <;> simp_all
      | false =>
        simp only [unlink, hb, Option.bind_some, Bool.false_eq_true, if_false, ih]
        split <;> simp_all

theorem filterNext_eq (l : List α) : filterNext test l =
    if ∀ a ∈ l, (test a).isSome then some (l.filter fun a => test a == some true) else none := by
  induction l with
  | nil => simp [filterNext, filter, trim]
  | cons a l ih =>
    cases ha : test a with
    | none => simp [filterNext, filter, trim, ha]
    | some ok =>
      cases ok with
      | true =>
        simp only [filterNext, filter, trim, ha, Option.bind_some, if_true, unlink_next]
        split <;> simp_all
      | false =>
        have hskip : filterNext test (a :: l) = filterNext test l := by
          simp [filterNext, filter, trim, ha]
        rw [hskip, ih]
        split <;> simp_all

/-- The loops keep the entries with a property iff the test decides it for each of them. -/
theorem filterNext_eq_filter_iff {p : α → Bool} (l : List α) :
    filterNext test l = some (l.filter p) ↔ ∀ a ∈ l, test a = some (p a) := by
  rw [filterNext_eq]
  constructor
  · intro h
    split at h
    · rename_i htested
      intro a ha
      have hmem : a ∈ l.filter (fun a => test a == some true) ↔ a ∈ l.filter p := by
        rw [Option.some.inj h]
      rw [List.mem_filter, List.mem_filter, and_iff_right ha, and_iff_right ha, beq_iff_eq] at hmem
      obtain ⟨ok, hok⟩ := Option.isSome_iff_exists.mp (htested a ha)
      rw [hok] at hmem ⊢
      exact congrArg some (Bool.eq_iff_iff.mpr (by simpa using hmem))
    · cases h
  · intro h
    rw [if_pos fun a ha => by rw [h a ha]; rfl]
    refine congrArg some (List.filter_congr fun a ha => ?_)
    rw [h a ha]
    cases p a <;> rfl

/-- One filter after another tests what the first one keeps. -/
theorem filterNext_filterNext (first second : α → Option Bool) (l : List α) :
    (filterNext first l).bind (filterNext second) =
      filterNext (fun a => (first a).bind fun ok => if ok then second a else some false) l := by
  rw [filterNext_eq, filterNext_eq]
  by_cases hfirst : ∀ a ∈ l, (first a).isSome
  · rw [if_pos hfirst, Option.bind_some, filterNext_eq, List.filter_filter]
    refine if_congr ?_ (congrArg some (List.filter_congr fun a ha => ?_)) rfl
    · rw [List.forall_mem_filter]
      refine forall₂_congr fun a ha => ?_
      obtain ⟨ok, hok⟩ := Option.isSome_iff_exists.mp (hfirst a ha)
      rw [hok]
      cases ok <;> simp
    · obtain ⟨ok, hok⟩ := Option.isSome_iff_exists.mp (hfirst a ha)
      rw [hok]
      cases ok <;> simp
  · rw [if_neg hfirst, Option.bind_none, if_neg]
    intro hboth
    refine hfirst fun a ha => ?_
    have h := hboth a ha
    cases hf : first a with
    | none => rw [hf] at h; cases h
    | some => rfl

/-! ## The current entry is tested -/

/-- The second loop tests the entry before the one it may unlink. -/
def filterCurrent (test : α → Option Bool) : List α → Option (List α) :=
  filter test fun a _ => test a

theorem unlink_current_iff {a : α} (ha : test a = some true) (l : List α) :
    unlink (fun a _ => test a) a l = some (l.filter fun b => test b == some true) ↔
      ∀ b ∈ l, test b = some true := by
  induction l generalizing a with
  | nil => simp [unlink]
  | cons b l ih =>
    simp only [unlink, ha, Option.bind_some, if_true]
    by_cases hb : test b = some true
    · rw [List.filter_cons_of_pos (by simpa using hb), List.forall_mem_cons, ← ih hb]
      simp only [hb, true_and]
      cases unlink (fun a _ => test a) b l <;> simp
    · refine iff_of_false (fun h => ?_) fun h => hb (h b List.mem_cons_self)
      obtain ⟨r, -, hr⟩ := Option.map_eq_some_iff.mp h
      have hmem : b ∈ (b :: l).filter fun b => test b == some true := by
        rw [← hr]
        exact List.mem_cons_self
      exact hb (by simpa using (List.mem_filter.mp hmem).2)

/-- These loops keep the entries that pass iff all entries have a result and none fails after one
that passes. -/
theorem filterCurrent_eq_filter_iff (l : List α) :
    filterCurrent test l = some (l.filter fun a => test a == some true) ↔
      (∀ a ∈ l, (test a).isSome) ∧
        l.Pairwise fun a b => test a = some true → test b = some true := by
  induction l with
  | nil => simp [filterCurrent, filter, trim]
  | cons a l ih =>
    rw [List.pairwise_cons, List.forall_mem_cons]
    cases ha : test a with
    | none => simp [filterCurrent, filter, trim, ha]
    | some ok =>
      cases ok with
      | true =>
        have hrest : filterCurrent test (a :: l) =
            (unlink (fun a _ => test a) a l).map (a :: ·) := by
          simp [filterCurrent, filter, trim, ha]
        have hcons : (unlink (fun a _ => test a) a l).map (a :: ·) =
            some (a :: l.filter fun b => test b == some true) ↔
            unlink (fun a _ => test a) a l = some (l.filter fun b => test b == some true) := by
          cases unlink (fun a _ => test a) a l <;> simp
        rw [hrest, List.filter_cons_of_pos (by simp [ha]), hcons, unlink_current_iff ha]
        constructor
        · intro hall
          refine ⟨⟨rfl, fun b hb => by rw [hall b hb]; rfl⟩, fun b hb _ => hall b hb, ?_⟩
          exact List.pairwise_of_forall_mem_list fun b _ c hc _ => hall c hc
        · rintro ⟨-, hpass, -⟩ b hb
          exact hpass b hb rfl
      | false =>
        have hskip : filterCurrent test (a :: l) = filterCurrent test l := by
          simp [filterCurrent, filter, trim, ha]
        rw [hskip, List.filter_cons_of_neg (by simp [ha]), ih]
        simp

/-! ## The first of some that fits -/

/-- A loop that stops at the first one that fits. -/
def anyOf (fits : α → Option Bool) : List α → Option Bool
  | [] => some false
  | a :: l => (fits a).bind fun ok => if ok then some true else anyOf fits l

theorem anyOf_eq (fits : α → Option Bool) (l : List α) : anyOf fits l =
    if ∀ a ∈ l.takeWhile (fun a => fits a != some true), (fits a).isSome then
      some (l.any fun a => fits a == some true)
    else none := by
  induction l with
  | nil => simp [anyOf]
  | cons a l ih =>
    cases ha : fits a with
    | none => simp [anyOf, ha]
    | some ok =>
      cases ok with
      | true => simp [anyOf, ha]
      | false =>
        simp only [anyOf, ha, Option.bind_some, Bool.false_eq_true, if_false, ih]
        simp [ha]

/-- The loop decides whether one fits iff none before the first that fits lacks a result. -/
theorem anyOf_eq_any_iff {fits : α → Option Bool} {p : α → Bool}
    (hp : ∀ a, p a = true ↔ fits a = some true) (l : List α) :
    anyOf fits l = some (l.any p) ↔ ∀ a ∈ l.takeWhile fun a => !p a, (fits a).isSome := by
  have hpass : ∀ a, (fits a == some true) = p a := fun a =>
    Bool.eq_iff_iff.mpr (by rw [beq_iff_eq, hp])
  have hfail : ∀ a, (fits a != some true) = !p a := fun a => by rw [bne, hpass]
  simp only [anyOf_eq, hpass, hfail]
  split
  · rename_i h
    exact iff_of_true rfl h
  · rename_i h
    exact iff_of_false (by simp) h

end Unlinking
