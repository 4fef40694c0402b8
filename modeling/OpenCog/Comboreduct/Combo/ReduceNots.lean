import OpenCog.Comboreduct.Combo.Eval
import OpenCog.Comboreduct.MetaRules

/-! The rule `reduce_nots` and the pass that applies it downwards. -/
namespace OpenCog.Comboreduct.Combo

open Util

variable {C R : Type}

inductive TypeNode where
  | unknownType
  | booleanType
  | continType
  deriving DecidableEq

def builtinOutputType : Builtin → TypeNode
  | .logicalTrue | .logicalFalse | .logicalAnd | .logicalOr | .logicalNot | .booleanIf
  | .greaterThanZero => .booleanType
  | .continIf | .plus | .times | .div | .exp | .log | .sin | .impulse | .rand => .continType

def outputType : Vertex C → TypeNode
  | .contin _ => .continType
  | .builtin b => builtinOutputType b
  | .argument _ => .unknownType

/-- The nodes at which a `downwards` of the type applies its rule. -/
def ofType (t : TypeNode) (v : Vertex C) : Bool := t = .unknownType || outputType v = t

def size : Forest (Vertex C) → Nat
  | .nil => 0
  | .cons _ c n => size c + size n + 1

@[simp] theorem size_append (f g : Forest (Vertex C)) : size (f.append g) = size f + size g := by
  induction f with
  | nil => simp [Forest.append, size]
  | cons v c n _ ihn =>
    simp only [Forest.append, size, ihn]
    omega

/-- `insert_above` at every sibling. -/
def insertNots : Forest (Vertex C) → Forest (Vertex C)
  | .nil => .nil
  | .cons v c n => .cons (.builtin .logicalNot) (.cons v c .nil) (insertNots n)

/-- No result where the code reads the child of a negation that has none. -/
def reduceNots : Rule (Vertex C)
  | .builtin .logicalNot, .cons (.builtin .logicalNot) d n =>
    -- the inner negation is flattened and erased, then the outer one becomes its child
    match _h : d.append n with
    | .nil => none
    | .cons x e m => reduceNots x (e.append m)
  | .builtin .logicalNot, .cons (.builtin .logicalAnd) d n =>
    some (.builtin .logicalOr, insertNots (d.append n))
  | .builtin .logicalNot, .cons (.builtin .logicalOr) d n =>
    some (.builtin .logicalAnd, insertNots (d.append n))
  | .builtin .logicalNot, .cons (.argument a) _ _ => some (.argument a.negate, .nil)
  | .builtin .logicalNot, .nil => none
  | v, c => some (v, c)
termination_by _ c => size c
decreasing_by
  have hsize := congrArg size _h
  simp only [size, size_append] at hsize ⊢
  omega

/-! ## Logical trees -/

/-- Any number of children below `and` and `or`, one below a negation, none elsewhere. -/
def LogicalAt (c : Forest (Vertex C)) : Vertex C → Prop
  | .builtin .logicalAnd | .builtin .logicalOr => True
  | .builtin .logicalNot => ∃ w d, c = .cons w d .nil
  | .builtin .logicalTrue | .builtin .logicalFalse | .argument _ => c = .nil
  | _ => False

/-- A tree of `and`, `or`, `not`, constants and arguments. -/
def Logical : Forest (Vertex C) → Prop
  | .nil => True
  | .cons v c n => LogicalAt c v ∧ Logical c ∧ Logical n

/-- What a negation may stand above in the normal form. -/
def Kept : Vertex C → Prop
  | .builtin .logicalAnd | .builtin .logicalOr | .builtin .logicalNot | .argument _ => False
  | _ => True

def KeptBelow (v : Vertex C) (c : Forest (Vertex C)) : Prop :=
  v = .builtin .logicalNot → ∀ w d m, c = .cons w d m → Kept w

/-- No negation stands above `and`, `or`, another negation or an argument. -/
def NegationNormal : Forest (Vertex C) → Prop
  | .nil => True
  | .cons v c n => KeptBelow v c ∧ NegationNormal c ∧ NegationNormal n

def truthArgument (σ : Nat → Bool) (a : Argument) : Bool :=
  if 0 < a.idx then σ a.idx.natAbs else !σ a.idx.natAbs

def truthVertex (σ : Nat → Bool) (bs : List Bool) : Vertex C → Bool
  | .builtin .logicalTrue => true
  | .builtin .logicalAnd => bs.all id
  | .builtin .logicalOr => bs.any id
  | .builtin .logicalNot => bs.all (!·)
  | .argument a => truthArgument σ a
  | _ => false

@[simp] theorem truthVertex_not (σ : Nat → Bool) (bs : List Bool) :
    truthVertex (C := C) σ bs (.builtin .logicalNot) = bs.all (!·) := rfl

/-- The truth value of each sibling. -/
def truth (σ : Nat → Bool) : Forest (Vertex C) → List Bool
  | .nil => []
  | .cons v c n => truthVertex σ (truth σ c) v :: truth σ n

variable {σ : Nat → Bool} {a : Argument} {v w : Vertex C} {c d n tr : Forest (Vertex C)}

theorem truthArgument_negate : truthArgument σ a.negate = !truthArgument σ a := by
  have ha := a.idx_ne
  simp only [truthArgument, Argument.negate, Int.natAbs_neg]
  by_cases h : 0 < a.idx
  · rw [if_pos h, if_neg (by omega)]
  · rw [if_neg h, if_pos (by omega), Bool.not_not]

theorem truth_insertNots : truth σ (insertNots c) = (truth σ c).map (!·) := by
  induction c with
  | nil => rfl
  | cons v d n _ ihn => simp [insertNots, truth, truthVertex, ihn]

theorem logical_insertNots (h : Logical c) : Logical (insertNots c) := by
  induction c with
  | nil => trivial
  | cons v d n _ ihn => exact ⟨⟨v, d, rfl⟩, ⟨h.1, h.2.1, trivial⟩, ihn h.2.2⟩

/-! ## `eval_throws` of a logical tree -/

variable (ops : Contin C R)

theorem evalAnd_pure (bs : List Bool) :
    evalAnd (C := C) (R := R) (bs.map fun b => pure (boolToVertex b)) =
      pure (boolToVertex (bs.all id)) := by
  induction bs with
  | nil => rfl
  | cons b bs ih =>
    rw [List.map_cons, evalAnd, pure_bind, ih]
    cases b <;> rfl

theorem evalOr_pure (bs : List Bool) :
    evalOr (C := C) (R := R) (bs.map fun b => pure (boolToVertex b)) =
      pure (boolToVertex (bs.any id)) := by
  induction bs with
  | nil => rfl
  | cons b bs ih =>
    rw [List.map_cons, evalOr, pure_bind, ih]
    cases b <;> rfl

theorem negateVertex_bool (b : Bool) :
    negateVertex (C := C) (R := R) (boolToVertex b) = pure (boolToVertex !b) := by
  cases b <;> rfl

theorem evalThrows_logical (h : Logical tr) :
    evalThrows ops (fun i => boolToVertex (σ i)) tr =
      (truth σ tr).map fun b => pure (boolToVertex b) := by
  induction tr with
  | nil => rfl
  | cons v c n ihc ihn =>
    obtain ⟨hv, hc, hn⟩ := h
    rw [evalThrows, ihc hc, ihn hn, truth, List.map_cons]
    congr 1
    cases v with
    | contin x => exact hv.elim
    | argument a =>
      rw [evalVertex, evalArgument, truthVertex, truthArgument]
      split
      · rfl
      · exact negateVertex_bool _
    | builtin b =>
      cases b with
      | logicalTrue | logicalFalse => rfl
      | logicalAnd => exact evalAnd_pure _
      | logicalOr => exact evalOr_pure _
      | logicalNot =>
        obtain ⟨w, d, rfl⟩ := hv
        simp only [truth, List.map_cons, List.map_nil, evalVertex, evalBuiltin, pure_bind,
          negateVertex_bool, truthVertex, List.all_cons, List.all_nil, Bool.and_true]
      | _ => exact hv.elim

/-! ## The pass -/

/-- The nodes other than negations. -/
def terms : Forest (Vertex C) → Nat
  | .nil => 0
  | .cons v c n => (if v.is .logicalNot then 0 else 1) + terms c + terms n

@[simp] theorem terms_insertNots : terms (insertNots c) = terms c := by
  induction c with
  | nil => rfl
  | cons v d n _ ihn => simp [insertNots, terms, Vertex.is, ihn]

/-- Fewer nodes other than negations are left to visit, or as many and fewer nodes. -/
def Shorter (c d : Forest (Vertex C)) : Prop :=
  terms c < terms d ∨ terms c = terms d ∧ size c < size d

/-- What the rule leaves at a node, to be visited below. -/
structure Reduced (v : Vertex C) (c : Forest (Vertex C)) (v' : Vertex C)
    (c' : Forest (Vertex C)) : Prop where
  at_node : LogicalAt c' v'
  below : Logical c'
  kept : KeptBelow v' c'
  value : ∀ σ, truthVertex σ (truth σ c') v' = truthVertex σ (truth σ c) v
  shorter : Shorter c' (.cons v c .nil)

theorem Reduced.refl (hv : LogicalAt c v) (hc : Logical c) (hkept : KeptBelow v c) :
    Reduced v c v c := by
  refine ⟨hv, hc, hkept, fun _ => rfl, ?_⟩
  by_cases h : v.is .logicalNot = true
  · exact .inr ⟨by simp [terms, h], by simp [size]⟩
  · exact .inl (by simp [terms, h])

theorem Reduced.doubled {x v' : Vertex C} {e c' : Forest (Vertex C)} (h : Reduced x e v' c') :
    Reduced (.builtin .logicalNot)
      (.cons (.builtin .logicalNot) (.cons x e .nil) .nil) v' c' := by
  refine ⟨h.at_node, h.below, h.kept, fun σ => ?_, ?_⟩
  · simp [h.value σ, truth]
  · have hs := h.shorter
    simp only [Shorter, terms, size, Vertex.is, decide_true, if_true] at hs ⊢
    omega

theorem reduced_negation {x y : Vertex C} (hx : (x = .builtin .logicalAnd ∧
    y = .builtin .logicalOr) ∨ (x = .builtin .logicalOr ∧ y = .builtin .logicalAnd))
    (hd : Logical d) :
    Reduced (.builtin .logicalNot) (.cons x d .nil) y (insertNots d) := by
  rcases hx with ⟨rfl, rfl⟩ | ⟨rfl, rfl⟩
  · refine ⟨trivial, logical_insertNots hd, nofun, fun σ => ?_, .inl ?_⟩
    · simp [truth_insertNots, truth, truthVertex, List.any_map, List.all_eq_not_any_not]
    · simp [terms, Vertex.is]
  · refine ⟨trivial, logical_insertNots hd, nofun, fun σ => ?_, .inl ?_⟩
    · simp [truth_insertNots, truth, truthVertex, List.all_map, List.any_eq_not_all_not]
    · simp [terms, Vertex.is]

theorem reduced_argument :
    Reduced (C := C) (.builtin .logicalNot) (.cons (.argument a) .nil .nil)
      (.argument a.negate) .nil := by
  refine ⟨rfl, trivial, nofun, fun σ => ?_, .inl ?_⟩
  · simp [truth, truthVertex, truthArgument_negate]
  · simp [terms, Vertex.is]

theorem only_child {b : Vertex C} (h : LogicalAt (.cons b d n) (.builtin .logicalNot)) :
    n = .nil := by
  obtain ⟨w, e, heq⟩ := h
  exact (Forest.cons.inj heq).2.2

theorem reduceNots_spec (hv : LogicalAt c v) (hc : Logical c) :
    ∃ v' c', reduceNots v c = some (v', c') ∧ Reduced v c v' c' := by
  fun_induction reduceNots v c with
  | case1 d n hd =>
    -- the inner negation has a child
    obtain rfl := only_child hv
    obtain ⟨x, e, rfl⟩ := hc.1
    cases hd
  | case2 d n x e m hd ih =>
    obtain rfl := only_child hv
    obtain ⟨w, d, rfl⟩ := hc.1
    rw [Forest.append_nil] at hd
    obtain ⟨rfl, rfl, rfl⟩ := Forest.cons.inj hd
    rw [Forest.append_nil] at ih ⊢
    obtain ⟨v', c', hred, h⟩ := ih hc.2.1.1 hc.2.1.2.1
    exact ⟨v', c', hred, h.doubled⟩
  | case3 d n =>
    obtain rfl := only_child hv
    rw [Forest.append_nil]
    exact ⟨_, _, rfl, reduced_negation (.inl ⟨rfl, rfl⟩) hc.2.1⟩
  | case4 d n =>
    obtain rfl := only_child hv
    rw [Forest.append_nil]
    exact ⟨_, _, rfl, reduced_negation (.inr ⟨rfl, rfl⟩) hc.2.1⟩
  | case5 a d n =>
    obtain rfl := only_child hv
    obtain rfl : d = .nil := hc.1
    exact ⟨_, _, rfl, reduced_argument⟩
  | case6 =>
    obtain ⟨w, e, heq⟩ := hv
    cases heq
  | case7 v c hnot hand hor harg hnil =>
    refine ⟨_, _, rfl, .refl hv hc ?_⟩
    rintro rfl w d m rfl
    cases w with
    | contin x => trivial
    | argument a => exact harg a d m rfl rfl
    | builtin b =>
      cases b with
      | logicalNot => exact hnot d m rfl rfl
      | logicalAnd => exact hand d m rfl rfl
      | logicalOr => exact hor d m rfl rfl
      | _ => trivial

section Pass

variable {visits : Vertex C → Bool} (hvisits : visits (.builtin .logicalNot) = true)
include hvisits

/-- A node that the pass leaves out is not a negation, which the rule leaves as it is. -/
theorem applyAt_reduceNots : applyAt visits reduceNots v c = reduceNots v c := by
  rw [applyAt]
  split
  · rfl
  · next hv =>
    have hne : v ≠ .builtin .logicalNot := fun h => hv (h ▸ hvisits)
    rw [reduceNots.eq_def]
    split
    all_goals first | rfl | exact absurd rfl hne

omit hvisits in
theorem constant_leaf (hw : Kept w) (hd : LogicalAt d w) :
    d = .nil ∧ reduceNots w (.nil : Forest (Vertex C)) = some (w, .nil) := by
  cases w with
  | contin x => exact hd.elim
  | argument a => exact hw.elim
  | builtin b =>
    cases b with
    | logicalTrue | logicalFalse => exact ⟨hd, by rw [reduceNots] <;> exact nofun⟩
    | logicalAnd | logicalOr | logicalNot => exact hw.elim
    | _ => exact hd.elim

theorem downwards_constant {w : Vertex C} (hw : Kept w) (hd : LogicalAt d w) :
    Downwards visits reduceNots (.cons w d .nil) (.cons w d .nil) := by
  obtain ⟨rfl, hstay⟩ := constant_leaf hw hd
  exact .cons (by rw [applyAt_reduceNots hvisits, hstay]) .nil .nil

end Pass

theorem logicalAt_downwards {visits : Vertex C → Bool} {r : Rule (Vertex C)}
    (hv : LogicalAt c v) (hnot : v ≠ .builtin .logicalNot) (h : Downwards visits r c d) :
    LogicalAt d v := by
  have hleaf : c = .nil → d = .nil := by
    rintro rfl
    exact h.of_nil
  cases v with
  | contin x => exact hv.elim
  | argument a => exact hleaf hv
  | builtin b =>
    cases b with
    | logicalTrue | logicalFalse => exact hleaf hv
    | logicalAnd | logicalOr => trivial
    | logicalNot => exact absurd rfl hnot
    | _ => exact hv.elim

/-- What the pass leaves of a logical tree. -/
theorem downwards_reduceNots {visits : Vertex C → Bool} (tr : Forest (Vertex C))
    (hvisits : visits (.builtin .logicalNot) = true) (h : Logical tr) :
    ∃ tr', Downwards visits reduceNots tr tr' ∧ NegationNormal tr' ∧ Logical tr' ∧
      ∀ σ, truth σ tr' = truth σ tr := by
  match tr, h with
  | .nil, _ => exact ⟨.nil, .nil, trivial, trivial, fun _ => rfl⟩
  | .cons v c n, ⟨hv, hc, hn⟩ =>
    obtain ⟨v', c', hred, hspec⟩ := reduceNots_spec hv hc
    have hshorter := hspec.shorter
    have hat := (applyAt_reduceNots hvisits).trans hred
    obtain ⟨n', hnext, hnormal, hlogical, hvalue⟩ := downwards_reduceNots n hvisits hn
    by_cases hnot : v' = .builtin .logicalNot
    · -- a negation that stays stands above a constant
      subst hnot
      obtain ⟨w, d, rfl⟩ := hspec.at_node
      have hw := hspec.kept rfl w d .nil rfl
      have hbelow := downwards_constant hvisits hw hspec.below.1
      refine ⟨_, .cons hat hbelow hnext, ⟨hspec.kept, ⟨?_, ?_, trivial⟩, hnormal⟩,
        ⟨hspec.at_node, hspec.below, hlogical⟩, fun σ => ?_⟩
      · rintro rfl
        exact hw.elim
      · obtain rfl := (constant_leaf hw hspec.below.1).1
        trivial
      · rw [truth, hspec.value σ, hvalue σ, truth]
    · obtain ⟨c'', hbelow, hnormal', hlogical', hvalue'⟩ := downwards_reduceNots c' hvisits hspec.below
      refine ⟨_, .cons hat hbelow hnext, ⟨fun h => absurd h hnot, hnormal', hnormal⟩,
        ⟨logicalAt_downwards hspec.at_node hnot hbelow, hlogical', hlogical⟩, fun σ => ?_⟩
      rw [truth, truth, hvalue' σ, hspec.value σ, hvalue σ]
termination_by (terms tr, size tr)
decreasing_by
  · rw [Prod.lex_def]
    simp only [terms, size]
    omega
  · rw [Prod.lex_def]
    simp only [Shorter, terms, size] at hshorter ⊢
    omega

/-- The pass gives the negation normal form, and each assignment the same value. -/
theorem downwards_reduceNots_normal {t : TypeNode} (ht : t = .unknownType ∨ t = .booleanType)
    (h : Logical tr) :
    ∃ tr', Downwards (ofType t) reduceNots tr tr' ∧ NegationNormal tr' ∧
      ∀ (R : Type) (ops : Contin C R) (σ : Nat → Bool),
        evalThrows ops (fun i => boolToVertex (σ i)) tr' =
          evalThrows ops (fun i => boolToVertex (σ i)) tr := by
  have hvisits : ofType t (.builtin .logicalNot : Vertex C) = true := by
    rcases ht with rfl | rfl <;> rfl
  obtain ⟨tr', hpass, hnormal, hlogical, hvalue⟩ := downwards_reduceNots tr hvisits h
  refine ⟨tr', hpass, hnormal, fun R ops σ => ?_⟩
  rw [evalThrows_logical ops hlogical, evalThrows_logical ops h, hvalue σ]

/-- `not(or(#1 not(not(not(#2)))))` -/
def nestedNots : Forest (Vertex Int) :=
  .cons (.builtin .logicalNot) (.cons (.builtin .logicalOr)
    (.cons (.argument ⟨1, Argument.one_ne⟩) .nil (.cons (.builtin .logicalNot)
      (.cons (.builtin .logicalNot) (.cons (.builtin .logicalNot)
        (.cons (.argument ⟨2, Argument.two_ne⟩) .nil .nil) .nil) .nil) .nil)) .nil) .nil

theorem downwards_reduceNots_nested :
    ∃ tr', Downwards (ofType .booleanType) reduceNots nestedNots tr' ∧ NegationNormal tr' ∧
      ∀ (R : Type) (ops : Contin Int R) (σ : Nat → Bool),
        evalThrows ops (fun i => boolToVertex (σ i)) tr' =
          evalThrows ops (fun i => boolToVertex (σ i)) nestedNots :=
  downwards_reduceNots_normal (.inr rfl) (by simp [nestedNots, Logical, LogicalAt])

end OpenCog.Comboreduct.Combo
