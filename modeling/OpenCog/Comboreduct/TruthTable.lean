import OpenCog.Comboreduct.CleanReduction
import OpenCog.Comboreduct.Combo.Bindings

/-! The truth table of a tree. Its size and its arity are machine numbers, and a row binds the
arguments up to the arity. -/
namespace OpenCog.Comboreduct

open Util

def argumentsIn : Forest (Vertex Marker) → List Argument
  | .nil => []
  | .cons (.argument a) c n => a :: (argumentsIn c ++ argumentsIn n)
  | .cons _ c n => argumentsIn c ++ argumentsIn n

def arity (tr : Forest (Vertex Marker)) : Int :=
  (argumentsIn tr).foldl (fun a arg => max a (Combo.toArity arg.idx.natAbs)) 0

/-- `power` of an `int`, which has no value where it overflows. -/
def power (x n : Nat) : Option Nat := if x ^ n < 2 ^ 31 then some (x ^ n) else none

/-- What the arguments are bound to in the row; those that the table has no column for keep what
they were bound to before. -/
def row (bound : Nat → Bool) (arity i idx : Nat) : Bool :=
  if 0 < idx ∧ idx ≤ arity then i.testBit (idx - 1) else bound idx

/-- A null vertex is neither true nor false. -/
def evalTree (input : Nat → Bool) : Forest (Vertex Marker) → Bool
  | .nil => false
  | .cons v c _ => eval ⟨input, fun _ _ => false⟩ ⟨v, c⟩

structure TruthTable where
  arity : Nat
  rows : List Bool

namespace TruthTable

variable (bound : Nat → Bool)

def populate (arity size : Nat) (tr : Forest (Vertex Marker)) : TruthTable :=
  ⟨arity, (List.range size).map fun i => evalTree (row bound arity i) tr⟩

def ofTree (tr : Forest (Vertex Marker)) : Option TruthTable :=
  (power 2 (Comboreduct.arity tr).toNat).map fun size =>
    populate bound (Comboreduct.arity tr).toNat size tr

def sameTruthTable (tt : TruthTable) (tr : Forest (Vertex Marker)) : Bool :=
  tt.rows.zipIdx.all fun r => r.1 == evalTree (row bound tt.arity r.2) tr

end TruthTable

/-! ## The arity -/

variable {f g tr tr' : Forest (Vertex Marker)} {bound : Nat → Bool} {n : Nat}

theorem toArity_le (n : Nat) : Combo.toArity n ≤ n := by
  rw [Combo.toArity, Int.bmod_def]
  split <;> omega

theorem toArity_of_le (h : n ≤ 127) : Combo.toArity n = n := by
  rw [Combo.toArity]
  exact Int.bmod_eq_of_le (by omega) (by omega)

theorem foldl_max_le {l : List Argument} {g : Argument → Int} {a m : Int} :
    l.foldl (fun a arg => max a (g arg)) a ≤ m ↔ a ≤ m ∧ ∀ arg ∈ l, g arg ≤ m := by
  induction l generalizing a with
  | nil => simp
  | cons arg l ih =>
    rw [List.foldl_cons, ih, Int.max_le, List.forall_mem_cons, and_assoc]

theorem arity_le {m : Int} : arity tr ≤ m ↔
    0 ≤ m ∧ ∀ a ∈ argumentsIn tr, Combo.toArity a.idx.natAbs ≤ m := foldl_max_le

theorem arity_nonneg (tr : Forest (Vertex Marker)) : 0 ≤ arity tr := by
  by_contra h
  have := arity_le.mp (Int.le_refl (arity tr))
  omega

/-- The table has a column for every argument of the tree. -/
def Covered (tr : Forest (Vertex Marker)) : Prop :=
  ∀ a ∈ argumentsIn tr, (a.idx.natAbs : Int) ≤ arity tr

theorem covered_of_le (h : ∀ a ∈ argumentsIn tr, a.idx.natAbs ≤ 127) : Covered tr := by
  intro a ha
  have := (arity_le.mp (Int.le_refl (arity tr))).2 a ha
  rwa [toArity_of_le (h a ha)] at this

theorem arity_le_of_le (h : ∀ a ∈ argumentsIn tr, a.idx.natAbs ≤ n) : arity tr ≤ n := by
  refine arity_le.mpr ⟨by omega, fun a ha => (toArity_le _).trans ?_⟩
  exact_mod_cast h a ha

/-! ## What a table tells -/

theorem values_congr {σ τ : Assignment Marker} (hf : Unmarked f)
    (h : ∀ a ∈ argumentsIn f, σ.argument a = τ.argument a) : values σ f = values τ f := by
  induction f with
  | nil => rfl
  | cons v c n ihc ihn =>
    obtain ⟨hv, hc, hn⟩ := hf
    have hsub : ∀ a, a ∈ argumentsIn c ∨ a ∈ argumentsIn n → a ∈ argumentsIn (.cons v c n) := by
      intro a ha
      cases v <;> simp [argumentsIn, ha]
    rw [values, values, ihc hc fun a ha => h a (hsub a (.inl ha)),
      ihn hn fun a ha => h a (hsub a (.inr ha))]
    cases v with
    | argument a => rw [Vertex.value, Vertex.value, h a (by simp [argumentsIn])]
    | other m => exact absurd rfl hv
    | _ => rfl

theorem evalTree_congr {input input' : Nat → Bool} (hf : Unmarked f)
    (h : ∀ a ∈ argumentsIn f, input a.idx.natAbs = input' a.idx.natAbs) :
    evalTree input f = evalTree input' f := by
  cases f with
  | nil => rfl
  | cons v c n =>
    have hvalues := @values_congr _ ⟨input, fun _ _ => false⟩ ⟨input', fun _ _ => false⟩ hf
      fun a ha => by simp only [Assignment.argument, h a ha]
    exact (List.cons.inj hvalues).1

/-- Every input is one of the rows. -/
theorem exists_row (bound input : Nat → Bool) (n : Nat) :
    ∃ i < 2 ^ n, ∀ idx, 0 < idx → idx ≤ n → row bound n i idx = input idx := by
  refine ⟨Nat.ofBits fun j : Fin n => input (j + 1), Nat.ofBits_lt_two_pow _, fun idx h0 hn => ?_⟩
  rw [row, if_pos ⟨h0, hn⟩, Nat.testBit_ofBits_lt _ _ (by omega)]
  exact congrArg input (Nat.sub_add_cancel h0)

theorem evalTree_of_rows (hf : Unmarked f) (hg : Unmarked g)
    (harity : ∀ a ∈ argumentsIn f ++ argumentsIn g, a.idx.natAbs ≤ n)
    (h : ∀ i < 2 ^ n, evalTree (row bound n i) f = evalTree (row bound n i) g)
    (input : Nat → Bool) : evalTree input f = evalTree input g := by
  obtain ⟨i, hi, hrow⟩ := exists_row bound input n
  have hagree : ∀ a ∈ argumentsIn f ++ argumentsIn g,
      input a.idx.natAbs = row bound n i a.idx.natAbs := fun a ha =>
    (hrow _ (Int.natAbs_pos.mpr a.idx_ne) (harity a ha)).symm
  calc evalTree input f
      = evalTree (row bound n i) f :=
        evalTree_congr hf fun a ha => hagree a (List.mem_append_left _ ha)
    _ = evalTree (row bound n i) g := h i hi
    _ = evalTree input g :=
        (evalTree_congr hg fun a ha => hagree a (List.mem_append_right _ ha)).symm

namespace TruthTable

theorem sameTruthTable_populate {size : Nat} :
    (populate bound n size f).sameTruthTable bound g = true ↔
      ∀ i < size, evalTree (row bound n i) f = evalTree (row bound n i) g := by
  rw [sameTruthTable, List.all_eq_true]
  constructor
  · intro h i hi
    have hmem : (evalTree (row bound n i) f, i) ∈ (populate bound n size f).rows.zipIdx := by
      rw [List.mk_mem_zipIdx_iff_getElem?, populate, List.getElem?_map, List.getElem?_range hi]
      rfl
    exact eq_of_beq (h _ hmem)
  · rintro h ⟨b, i⟩ hmem
    rw [List.mk_mem_zipIdx_iff_getElem?, populate, List.getElem?_map, Option.map_eq_some_iff] at hmem
    obtain ⟨j, hj, rfl⟩ := hmem
    obtain ⟨hlt, hji⟩ := List.getElem?_eq_some_iff.mp hj
    rw [List.length_range] at hlt
    obtain rfl := (List.getElem_range (by simpa using hlt)).symm.trans hji
    exact beq_iff_eq.mpr (h i hlt)

theorem sameTruthTable_self {tt : TruthTable} (h : ofTree bound tr = some tt) :
    tt.sameTruthTable bound tr = true := by
  obtain ⟨size, -, rfl⟩ := Option.map_eq_some_iff.mp h
  exact sameTruthTable_populate.mpr fun i _ => rfl

/-- A table with a column for every argument tells the trees apart that differ for some input. -/
theorem evalTree_of_sameTruthTable {tt : TruthTable} (h : ofTree bound tr = some tt)
    (hcovered : Covered tr) (htr : Unmarked tr) (htr' : Unmarked tr')
    (hsub : ∀ a ∈ argumentsIn tr', a ∈ argumentsIn tr)
    (hsame : tt.sameTruthTable bound tr' = true) (input : Nat → Bool) :
    evalTree input tr' = evalTree input tr := by
  obtain ⟨size, hsize, rfl⟩ := Option.map_eq_some_iff.mp h
  have hle : ∀ a ∈ argumentsIn tr, a.idx.natAbs ≤ (Comboreduct.arity tr).toNat := fun a ha => by
    have := hcovered a ha
    omega
  rw [power] at hsize
  split at hsize
  · obtain rfl := Option.some.inj hsize
    refine (evalTree_of_rows htr htr' ?_ (sameTruthTable_populate.mp hsame) input).symm
    intro a ha
    rcases List.mem_append.mp ha with ha | ha
    · exact hle a ha
    · exact hle a (hsub a ha)
  · cases hsize

/-- The number of rows is an `int`. -/
theorem ofTree_isSome : (ofTree bound tr).isSome ↔ Comboreduct.arity tr ≤ 30 := by
  have hpow : 2 ^ (Comboreduct.arity tr).toNat < 2 ^ 31 ↔ (Comboreduct.arity tr).toNat < 31 :=
    Nat.pow_lt_pow_iff_right (by omega)
  rw [ofTree, Option.isSome_map, power]
  split
  · rename_i h
    rw [hpow] at h
    exact iff_of_true rfl (by omega)
  · rename_i h
    rw [hpow] at h
    exact iff_of_false (by simp) (by omega)

end TruthTable

end OpenCog.Comboreduct
