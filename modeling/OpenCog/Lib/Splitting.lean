import Mathlib

/-! Splitting a list at a delimiter that may be longer than one element: its occurrences
are taken from left to right and do not overlap. -/
namespace Splitting

variable {α : Type} [DecidableEq α]

/-- Where the delimiter occurs first. -/
def firstAt (d : List α) : List α → Option Nat
  | [] => if d = [] then some 0 else none
  | a :: s => if d.isPrefixOf (a :: s) then some 0 else (firstAt d s).map (· + 1)

/-- `skip` elements of an occurrence are still to be passed; `cur` is the field so far,
backwards. -/
def cut (d : List α) : Nat → List α → List α → List (List α)
  | _, cur, [] => [cur.reverse]
  | skip + 1, cur, _ :: s => cut d skip cur s
  | 0, cur, a :: s =>
    if d.isPrefixOf (a :: s) then cur.reverse :: cut d (d.length - 1) [] s
    else cut d 0 (a :: cur) s

def fields (d s : List α) : List (List α) := cut d 0 [] s

/-- The fields that hold something. -/
def words (d s : List α) : List (List α) := (fields d s).filter (· ≠ [])

theorem firstAt_spec {d s : List α} {i : Nat} (h : firstAt d s = some i) : d <+: s.drop i := by
  induction s generalizing i with
  | nil =>
    unfold firstAt at h
    split at h
    · next hd =>
      rw [hd]
      exact List.nil_prefix
    · cases h
  | cons a s ih =>
    unfold firstAt at h
    split at h
    · next hd =>
      obtain rfl := Option.some.inj h
      exact List.isPrefixOf_iff_prefix.mp hd
    · obtain ⟨j, hj, rfl⟩ := Option.map_eq_some_iff.mp h
      exact ih hj

theorem firstAt_le {d s : List α} {i : Nat} (hd : d ≠ []) (h : firstAt d s = some i) :
    i + d.length ≤ s.length := by
  have hle := (firstAt_spec h).length_le
  have hpos := List.length_pos_iff.mpr hd
  rw [List.length_drop] at hle
  omega

theorem firstAt_eq_zero_iff {d s : List α} : firstAt d s = some 0 ↔ d <+: s := by
  cases s with
  | nil =>
    rw [List.prefix_nil, firstAt]
    split <;> simp_all
  | cons a s =>
    rw [firstAt, ← List.isPrefixOf_iff_prefix]
    split
    · simp_all
    · simp_all

theorem cut_skip (d : List α) (skip : Nat) (cur s : List α) :
    cut d skip cur s = cut d 0 cur (s.drop skip) := by
  induction skip generalizing s with
  | zero => rfl
  | succ skip ih =>
    cases s with
    | nil => rfl
    | cons a s => exact ih s

theorem cut_of_firstAt_eq_none {d cur s : List α} (h : firstAt d s = none) :
    cut d 0 cur s = [cur.reverse ++ s] := by
  induction s generalizing cur with
  | nil => simp [cut]
  | cons a s ih =>
    unfold firstAt at h
    split at h
    · cases h
    · next hd =>
      rw [cut, if_neg hd, ih (Option.map_eq_none_iff.mp h)]
      simp

theorem cut_of_firstAt {d cur s : List α} (hne : d ≠ []) {i : Nat} (h : firstAt d s = some i) :
    cut d 0 cur s = (cur.reverse ++ s.take i) :: cut d 0 [] (s.drop (i + d.length)) := by
  induction s generalizing cur i with
  | nil =>
    rw [firstAt, if_neg hne] at h
    cases h
  | cons a s ih =>
    unfold firstAt at h
    split at h
    · next hd =>
      obtain rfl := Option.some.inj h
      obtain ⟨b, e, rfl⟩ := List.exists_cons_of_ne_nil hne
      rw [cut, if_pos hd, cut_skip]
      simp
    · next hd =>
      obtain ⟨j, hj, rfl⟩ := Option.map_eq_some_iff.mp h
      rw [cut, if_neg hd, ih hj, Nat.add_right_comm]
      simp

theorem words_of_firstAt_eq_none {d s : List α} (h : firstAt d s = none) (hs : s ≠ []) :
    words d s = [s] := by
  rw [words, fields, cut_of_firstAt_eq_none h]
  simp [hs]

/-- The first field ends where the delimiter first occurs. -/
theorem words_of_firstAt {d s : List α} (hne : d ≠ []) {i : Nat} (h : firstAt d s = some i) :
    words d s =
      if i = 0 then words d (s.drop d.length) else s.take i :: words d (s.drop (i + d.length)) := by
  rw [words, fields, cut_of_firstAt hne h]
  have hle := firstAt_le hne h
  have hpos := List.length_pos_iff.mpr hne
  split
  · next hi =>
    subst hi
    rw [Nat.zero_add]
    rfl
  · next hi =>
    have htake : s.take i ≠ [] := by
      rw [← List.length_pos_iff, List.length_take]
      omega
    simp [words, fields, htake]

theorem words_nil (d : List α) : words d [] = [] := by
  simp [words, fields, cut]

end Splitting
