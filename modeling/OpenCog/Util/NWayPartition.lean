import Mathlib.Data.List.Perm.Basic
import Mathlib.Data.List.Basic

/-! `n_way_partition`: a range rearranged by the values of a function below a bound. The last part
is what is left. -/
namespace OpenCog.Util

/-- `std::partition`, whatever order it leaves in the two parts. -/
structure Partition (α : Type) where
  split : (α → Bool) → List α → List α × List α
  front : ∀ p l, (split p l).1.Perm (l.filter p)
  back : ∀ p l, (split p l).2.Perm (l.filter fun x => !p x)

/-- In the order that they had. -/
def Partition.stable (α : Type) : Partition α where
  split p l := (l.filter p, l.filter fun x => !p x)
  front _ _ := .refl _
  back _ _ := .refl _

variable {α : Type} (P : Partition α) (key : α → Nat)

/-- The parts cut off, for so many values from `i` on, and the rest. -/
def partitionFrom : Nat → Nat → List α → List (List α)
  | 0, _, l => [l]
  | k + 1, i, l =>
    (P.split (fun x => key x == i) l).1 ::
      partitionFrom k (i + 1) (P.split (fun x => key x == i) l).2

/-- The parts between the pivots. -/
def nWayPartition (n : Nat) (l : List α) : List (List α) := partitionFrom P key (n - 1) 0 l

variable {P key}

theorem length_partitionFrom (k i : Nat) (l : List α) :
    (partitionFrom P key k i l).length = k + 1 := by
  induction k generalizing i l with
  | zero => rfl
  | succ k ih => rw [partitionFrom, List.length_cons, ih]

theorem length_nWayPartition {n : Nat} (hn : 0 < n) (l : List α) :
    (nWayPartition P key n l).length = n := by
  rw [nWayPartition, length_partitionFrom]
  omega

theorem flatten_partitionFrom (k i : Nat) (l : List α) :
    (partitionFrom P key k i l).flatten.Perm l := by
  induction k generalizing i l with
  | zero => rw [partitionFrom, List.flatten_singleton]
  | succ k ih =>
    rw [partitionFrom, List.flatten_cons]
    exact ((P.front _ l).append ((ih _ _).trans (P.back _ l))).trans (List.filter_append_perm _ l)

theorem flatten_nWayPartition (n : Nat) (l : List α) :
    (nWayPartition P key n l).flatten.Perm l :=
  flatten_partitionFrom _ _ _

theorem perm_of_partitionFrom {k i j : Nat} {l part : List α} (hl : ∀ x ∈ l, i ≤ key x)
    (h : (partitionFrom P key k i l)[j]? = some part) :
    part.Perm (l.filter fun x => min (key x) (i + k) = i + j) := by
  induction k generalizing i j l with
  | zero =>
    cases j with
    | zero =>
      obtain rfl := Option.some.inj h
      rw [List.filter_eq_self.mpr fun x hx => by have := hl x hx; simp; omega]
    | succ j => cases h
  | succ k ih =>
    cases j with
    | zero =>
      obtain rfl := Option.some.inj h
      refine (P.front _ l).trans (.of_eq (List.filter_congr fun x hx => ?_))
      have := hl x hx
      rw [beq_eq_decide]
      exact decide_eq_decide.mpr (by omega)
    | succ j =>
      have hback := P.back (fun x => key x == i) l
      have hlarge : ∀ x ∈ (P.split (fun x => key x == i) l).2, i + 1 ≤ key x := by
        intro x hx
        obtain ⟨hx, hne⟩ := List.mem_filter.mp (hback.mem_iff.mp hx)
        have := hl x hx
        simp only [Bool.not_eq_eq_eq_not, Bool.not_true, beq_eq_false_iff_ne] at hne
        omega
      refine (ih hlarge h).trans ((hback.filter _).trans (.of_eq ?_))
      rw [List.filter_filter]
      refine List.filter_congr fun x hx => ?_
      have := hl x hx
      by_cases e : key x = i
      · have hne : ¬ min (key x) (i + (k + 1)) = i + (j + 1) := by omega
        simp [e]
      · simp only [e, beq_eq_decide, decide_false, Bool.not_false, Bool.and_true]
        exact decide_eq_decide.mpr (by omega)

/-- Values from the bound on are in the last part. -/
theorem perm_of_nWayPartition {n j : Nat} {l part : List α}
    (h : (nWayPartition P key n l)[j]? = some part) :
    part.Perm (l.filter fun x => min (key x) (n - 1) = j) := by
  have := perm_of_partitionFrom (fun x _ => Nat.zero_le (key x)) h
  simpa only [Nat.zero_add] using this

end OpenCog.Util
