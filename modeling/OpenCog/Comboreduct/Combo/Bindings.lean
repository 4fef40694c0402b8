import OpenCog.Comboreduct.Combo.Eval

/-! The two ways of binding the inputs of a tree: `set_bindings` writes the values into the
tree, `binding` is looked up while the tree is evaluated. -/
namespace OpenCog.Comboreduct.Combo

open Util

variable {C R : Type}

def getArgument : Vertex C → Option Argument
  | .argument a => some a
  | _ => none

def leaves : Forest (Vertex C) → List (Vertex C)
  | .nil => []
  | .cons v .nil n => v :: leaves n
  | .cons _ c n => leaves c ++ leaves n

def arguments (tr : Forest (Vertex C)) : List Argument := (leaves tr).filterMap getArgument

/-! ## `set_bindings` -/

/-- A conversion to `arity_t`, which is a `char`. -/
def toArity (n : Int) : Int := n.bmod 256

def explicitArity (tr : Forest (Vertex C)) : Int :=
  (arguments tr).foldl (fun res a => max res (toArity a.idx.natAbs)) 0

def absMinArity (a : Int) : Int := if a < 0 then -a - 1 else a

/-- An element of the vector of values; there is none outside of it. -/
def argValue (args : List Bool) (i : Int) : Option (Vertex C) :=
  if 0 ≤ i then args[i.toNat]?.map boolToVertex else none

def bindArgument (args : List Bool) (a : Argument) :
    Option (Vertex C × Forest (Vertex C)) :=
  if a.isNegated then
    -- `*at` becomes the negation while `arg` still refers to the argument in `*at`
    let node : Vertex C := .builtin .logicalNot
    do
      let arg ← getArgument node
      let v ← argValue args (arg.negate.idx - 1)
      pure (.argument arg.negate, .cons v .nil .nil)
  else do
    let v ← argValue args (a.idx - 1)
    pure (v, .nil)

def childless : List (Vertex C) → Forest (Vertex C)
  | [] => .nil
  | v :: vs => .cons v .nil (childless vs)

/-- The values from `implicitIdx` on become the children of an operator that has none. -/
def bindImplicit (args : List Bool) (implicitIdx a : Int) : Option (Int × Forest (Vertex C)) :=
  let apArgs := toArity args.length
  let ama := absMinArity a
  if ama ≤ toArity (apArgs - implicitIdx) then
    let idxBound := if 0 < a then toArity (implicitIdx + ama) else apArgs
    ((List.range (idxBound - implicitIdx).toNat).mapM fun k => argValue args (implicitIdx + k)).map
      fun vs => (max implicitIdx idxBound, childless vs)
  else none

def bindLeaf (args : List Bool) (implicitIdx : Int) (v : Vertex C) :
    Option (Int × Vertex C × Forest (Vertex C)) :=
  match getArgument v with
  | some a => (bindArgument args a).map fun (v, c) => (implicitIdx, v, c)
  | none =>
    if v.arity = 0 then some (implicitIdx, v, .nil)
    else (bindImplicit args implicitIdx v.arity).map fun (i, c) => (i, v, c)

/-- The loop over the nodes. The children that a leaf gets are constants, at which it does
nothing. -/
def bindFrom (args : List Bool) (implicitIdx : Int) :
    Forest (Vertex C) → Option (Int × Forest (Vertex C))
  | .nil => some (implicitIdx, .nil)
  | .cons v .nil n => do
    let (i, v, c) ← bindLeaf args implicitIdx v
    let (i, n) ← bindFrom args i n
    pure (i, .cons v c n)
  | .cons v c n => do
    let (i, c) ← bindFrom args implicitIdx c
    let (i, n) ← bindFrom args i n
    pure (i, .cons v c n)

def setBindings (tr : Forest (Vertex C)) (args : List Bool) : Option (Forest (Vertex C)) :=
  (bindFrom args (explicitArity tr) tr).map Prod.snd

/-! ## Trees whose operators have children -/

/-- Leaves are arguments and constants, and an argument is a leaf. -/
def Complete : Forest (Vertex C) → Prop
  | .nil => True
  | .cons v .nil n => ((getArgument v).isSome ∨ v.arity = 0) ∧ Complete n
  | .cons v c n => getArgument v = none ∧ Complete c ∧ Complete n


variable {tr : Forest (Vertex C)} {args : List Bool} {a : Argument} {binding binding' : Nat → Vertex C}

/-- Every input of the tree has a value. -/
def Covers (args : List Bool) (tr : Forest (Vertex C)) : Prop :=
  ∀ a ∈ arguments tr, a.idx.natAbs ≤ args.length

/-- The values that `set_bindings` gets are the ones that are bound. -/
def Bound (binding : Nat → Vertex C) (args : List Bool) : Prop :=
  ∀ i (h : i < args.length), binding (i + 1) = boolToVertex args[i]

@[simp] theorem arguments_leaf {v : Vertex C} {n : Forest (Vertex C)} :
    arguments (.cons v .nil n) = (getArgument v).toList ++ arguments n := by
  rw [arguments, leaves, List.filterMap_cons]
  cases getArgument v <;> rfl

@[simp] theorem arguments_operator {v w : Vertex C} {c m n : Forest (Vertex C)} :
    arguments (.cons v (.cons w c m) n) = arguments (.cons w c m) ++ arguments n := by
  rw [arguments, leaves, List.filterMap_append]
  · rfl
  · exact nofun

theorem getArgument_eq {v : Vertex C} (h : getArgument v = some a) : v = .argument a := by
  cases v with
  | argument b => exact congrArg Vertex.argument (Option.some.inj h)
  | contin c => cases h
  | builtin b => cases h

theorem bindArgument_negated (h : a.isNegated = true) :
    bindArgument (C := C) args a = none := by
  rw [bindArgument, if_pos h]
  rfl

theorem bindArgument_positive (h : a.isNegated = false) (hle : a.idx.natAbs ≤ args.length)
    (hb : Bound binding args) :
    bindArgument args a = some (binding a.idx.natAbs, .nil) := by
  have hne := a.idx_ne
  have hpos : 0 < a.idx := by
    simp only [Argument.isNegated, decide_eq_false_iff_not] at h
    omega
  have hlt : a.idx.natAbs - 1 < args.length := by omega
  have hval := hb (a.idx.natAbs - 1) hlt
  rw [show a.idx.natAbs - 1 + 1 = a.idx.natAbs by omega] at hval
  have hidx : (a.idx - 1).toNat = a.idx.natAbs - 1 := by omega
  rw [bindArgument, if_neg (by rw [h]; decide), argValue, if_pos (by omega), hidx,
    List.getElem?_eq_getElem hlt, hval]
  rfl

/-! ## Without negated arguments -/

/-- The vertex that `binding` has for an argument. -/
def lookUp (binding : Nat → Vertex C) : Vertex C → Vertex C
  | .argument a => binding a.idx.natAbs
  | v => v

theorem lookUp_other {v : Vertex C} (h : getArgument v = none) : lookUp binding v = v := by
  cases v with
  | argument a => cases h
  | contin c => rfl
  | builtin b => rfl

theorem bindLeaf_positive {v : Vertex C} {i : Int} (hv : (getArgument v).isSome ∨ v.arity = 0)
    (hpos : ∀ a ∈ getArgument v, a.isNegated = false)
    (hcov : ∀ a ∈ getArgument v, a.idx.natAbs ≤ args.length) (hb : Bound binding args) :
    bindLeaf args i v = some (i, lookUp binding v, .nil) := by
  cases hget : getArgument v with
  | some a =>
    obtain rfl := getArgument_eq hget
    rw [bindLeaf, hget]
    simp only [bindArgument_positive (hpos a hget) (hcov a hget) hb, Option.map_some, lookUp]
  | none =>
    have harity : v.arity = 0 := by simpa [hget] using hv
    simp only [bindLeaf, hget, harity, if_true, lookUp_other hget]

theorem bindFrom_positive (hop : Complete tr) (hcov : Covers args tr)
    (hpos : ∀ a ∈ arguments tr, a.isNegated = false) (hb : Bound binding args) (i : Int) :
    bindFrom args i tr = some (i, tr.map (lookUp binding)) := by
  induction tr generalizing i with
  | nil => rfl
  | cons v c n ihc ihn =>
    cases c with
    | nil =>
      rw [Covers, arguments_leaf] at hcov
      rw [arguments_leaf] at hpos
      have hleaf : bindLeaf args i v = some (i, lookUp binding v, .nil) :=
        bindLeaf_positive hop.1
          (fun a ha => hpos a (List.mem_append_left _ (Option.mem_toList.mpr ha)))
          (fun a ha => hcov a (List.mem_append_left _ (Option.mem_toList.mpr ha))) hb
      have hnext := ihn hop.2 (fun a ha => hcov a (List.mem_append_right _ ha))
        (fun a ha => hpos a (List.mem_append_right _ ha)) i
      simp only [bindFrom, hleaf, Option.bind_eq_bind, Option.bind_some, hnext]
      rfl
    | cons w d m =>
      rw [Covers, arguments_operator] at hcov
      rw [arguments_operator] at hpos
      obtain ⟨hv, hc, hn⟩ := hop
      have hbelow := ihc hc (fun a ha => hcov a (List.mem_append_left _ ha))
        (fun a ha => hpos a (List.mem_append_left _ ha)) i
      have hnext := ihn hn (fun a ha => hcov a (List.mem_append_right _ ha))
        (fun a ha => hpos a (List.mem_append_right _ ha)) i
      simp only [bindFrom, hbelow, Option.bind_eq_bind, Option.bind_some, hnext]
      have hmap : ∀ c n, (Forest.cons v c n).map (lookUp binding) =
          .cons v (c.map (lookUp binding)) (n.map (lookUp binding)) := fun c n => by
        rw [Forest.map, lookUp_other hv]
      rw [hmap]
      rfl

theorem evalVertex_bool (ops : Contin C R) (es : List (EvalM C R (Vertex C))) (b : Bool) :
    evalVertex ops binding es (boolToVertex b) = pure (boolToVertex b) := by
  cases b <;> rfl

theorem evalThrows_lookUp (ops : Contin C R) (hop : Complete tr) (hcov : Covers args tr)
    (hpos : ∀ a ∈ arguments tr, a.isNegated = false) (hb : Bound binding args) :
    evalThrows ops binding' (tr.map (lookUp binding)) = evalThrows ops binding tr := by
  induction tr with
  | nil => rfl
  | cons v c n ihc ihn =>
    cases c with
    | nil =>
      rw [Covers, arguments_leaf] at hcov
      rw [arguments_leaf] at hpos
      have hnext := ihn hop.2 (fun a ha => hcov a (List.mem_append_right _ ha))
        (fun a ha => hpos a (List.mem_append_right _ ha))
      rw [Forest.map, evalThrows, evalThrows, hnext]
      congr 1
      cases v with
      | contin c => rfl
      | builtin b => rfl
      | argument a =>
        have hle := hcov a (by simp [getArgument])
        have hneg := hpos a (by simp [getArgument])
        have hne := a.idx_ne
        simp only [Argument.isNegated, decide_eq_false_iff_not] at hneg
        have hval := hb (a.idx.natAbs - 1) (by omega)
        rw [show a.idx.natAbs - 1 + 1 = a.idx.natAbs by omega] at hval
        rw [lookUp, hval, evalVertex_bool, evalVertex, evalArgument, if_pos (by omega), hval]
    | cons w d m =>
      rw [Covers, arguments_operator] at hcov
      rw [arguments_operator] at hpos
      obtain ⟨hv, hc, hn⟩ := hop
      have hbelow := ihc hc (fun a ha => hcov a (List.mem_append_left _ ha))
        (fun a ha => hpos a (List.mem_append_left _ ha))
      have hnext := ihn hn (fun a ha => hcov a (List.mem_append_right _ ha))
        (fun a ha => hpos a (List.mem_append_right _ ha))
      rw [Forest.map, evalThrows, evalThrows, hbelow, hnext, lookUp_other hv]
      congr 1
      cases v with
      | argument a => cases hv
      | contin c => rfl
      | builtin b => rfl

/-! ## With one -/

theorem bindFrom_negated (hop : Complete tr) (hneg : ∃ a ∈ arguments tr, a.isNegated = true)
    (i : Int) : bindFrom args i tr = none := by
  induction tr generalizing i with
  | nil =>
    obtain ⟨a, ha, -⟩ := hneg
    cases ha
  | cons v c n ihc ihn =>
    obtain ⟨a, ha, hneg⟩ := hneg
    cases c with
    | nil =>
      rw [arguments_leaf, List.mem_append, Option.mem_toList] at ha
      rw [bindFrom, Option.bind_eq_bind, Option.bind_eq_none_iff]
      rintro ⟨i', v', c'⟩ hleaf
      rcases ha with hget | ha
      · rw [bindLeaf, hget] at hleaf
        simp only [bindArgument_negated hneg, Option.map_none, reduceCtorEq] at hleaf
      · simp only [ihn hop.2 ⟨a, ha, hneg⟩ i', Option.bind_eq_bind, Option.bind_none]
    | cons w d m =>
      rw [arguments_operator, List.mem_append] at ha
      rw [bindFrom, Option.bind_eq_bind, Option.bind_eq_none_iff]
      · rintro ⟨i', c'⟩ hbelow
        rcases ha with ha | ha
        · rw [ihc hop.2.1 ⟨a, ha, hneg⟩ i] at hbelow
          cases hbelow
        · simp only [ihn hop.2.2 ⟨a, ha, hneg⟩ i', Option.bind_none]
      · exact nofun

/-- The two ways of binding agree on the trees without a negated argument, and on no other. -/
theorem setBindings_agrees_iff (hop : Complete tr) (hcov : Covers args tr)
    (hb : Bound binding args) :
    (∃ tr', setBindings tr args = some tr' ∧ ∀ (R : Type) (ops : Contin C R)
      (binding' : Nat → Vertex C), evalThrows ops binding' tr' = evalThrows ops binding tr) ↔
      ∀ a ∈ arguments tr, a.isNegated = false := by
  constructor
  · rintro ⟨tr', hset, -⟩ a ha
    by_contra hneg
    rw [Bool.not_eq_false] at hneg
    rw [setBindings, bindFrom_negated hop ⟨a, ha, hneg⟩] at hset
    cases hset
  · intro hpos
    refine ⟨tr.map (lookUp binding), ?_, fun R ops binding' => ?_⟩
    · rw [setBindings, bindFrom_positive hop hcov hpos hb, Option.map_some]
    · exact evalThrows_lookUp ops hop hcov hpos hb

/-- `and(or(#2 false) #1)` -/
def twoInputs : Forest (Vertex Int) :=
  .cons (.builtin .logicalAnd)
    (.cons (.builtin .logicalOr)
      (.cons (.argument ⟨2, Argument.two_ne⟩) .nil (.cons (.builtin .logicalFalse) .nil .nil))
      (.cons (.argument ⟨1, Argument.one_ne⟩) .nil .nil)) .nil

theorem setBindings_agrees_two_inputs :
    ∃ tr', setBindings twoInputs [true, false] = some tr' ∧
      ∀ (R : Type) (ops : Contin Int R) (binding' : Nat → Vertex Int),
        evalThrows ops binding' tr' =
          evalThrows ops (fun i => boolToVertex (i = 1)) twoInputs := by
  have hop : Complete twoInputs :=
    ⟨rfl, ⟨rfl, ⟨.inl rfl, .inr rfl, trivial⟩, .inl rfl, trivial⟩, trivial⟩
  have hcov : Covers [true, false] twoInputs := by
    unfold Covers
    decide
  have hb : Bound (C := Int) (fun i => boolToVertex (i = 1)) [true, false] := by
    intro i h
    match i, h with
    | 0, _ => rfl
    | 1, _ => rfl
  exact (setBindings_agrees_iff hop hcov hb).mpr (by decide)

/-- `!#1` -/
def negatedInput : Forest (Vertex Int) := .cons (.argument ⟨-1, Argument.neg_one_ne⟩) .nil .nil

/-- The reference to the argument is read after the vertex has become the negation. -/
theorem negated_argument_not_bound :
    Complete negatedInput ∧ Covers [true] negatedInput ∧
    ¬ ∃ tr', setBindings negatedInput [true] = some tr' ∧
      ∀ (R : Type) (ops : Contin Int R) (binding' : Nat → Vertex Int),
        evalThrows ops binding' tr' = evalThrows ops (fun _ => boolToVertex true) negatedInput := by
  have hcov : Covers [true] negatedInput := by
    unfold Covers
    decide
  refine ⟨⟨.inl rfl, trivial⟩, hcov, ?_⟩
  rintro ⟨tr', hset, -⟩
  have hnone : setBindings negatedInput [true] = none := by decide
  rw [hnone] at hset
  cases hset

end OpenCog.Comboreduct.Combo
