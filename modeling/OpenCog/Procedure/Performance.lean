import OpenCog.Procedure.RunningComboProcedure

/-! What the tree of a procedure says that is done to the world, as long as it has none of the nodes
at which a failure is taken for that of another action. -/
namespace OpenCog.Procedure

open Util Outcomes Comboreduct

variable {A P X W E : Type} {M : World A P X W E} {compound : A → Bool} {loops : Bool}

/-- What a node does, given what its children do and mean. A loop over an action succeeds. -/
def performance (M : World A P X W E) (ps : List (Program W)) (ms : List (Meaning W E)) :
    ActionVertex A P X → Program W
  | .other (.builtinAction a) => M.act a ms
  | .other .sequentialAnd => andSeq ps
  | .other .actionBooleanIf => match ms, ps with
    | [.condition h, _, _], [_, a, b] => test h a b
    | _, _ => never
  | .other .booleanWhile => match ms, ps with
    | [.condition h, _], [_, a] => WhileLoop h a
    | _, _ => never
  | .other .actionWhile => match ps with
    | [a] => branch (Loop a) (done true) (done true)
    | _ => never
  | _ => never

def performances (M : World A P X W E) : Forest (ActionVertex A P X) → List (Program W)
  | .nil => []
  | .cons v c n =>
    performance M (performances M c) ((actionLanguage M).meanings c) v :: performances M n

def performs (M : World A P X W E) (t : Node A P X) : Program W :=
  performance M (performances M t.children) ((actionLanguage M).meanings t.children) t.root

theorem performances_eq (f : Forest (ActionVertex A P X)) :
    performances M f = (siblings f).map (performs M) := by
  induction f with
  | nil => rfl
  | cons v c n _ ihn => rw [performances, siblings, List.map_cons, ihn, performs]

theorem performs_builtin {t : Node A P X} {a : A} (h : t.root = .other (.builtinAction a)) :
    performs M t = t.action M := by
  rcases t with ⟨v, f⟩
  obtain rfl : v = .other (.builtinAction a) := h
  rfl

theorem performs_sequence (c : Forest (ActionVertex A P X)) :
    performs M ⟨.other .sequentialAnd, c⟩ = andSeq ((siblings c).map (performs M)) :=
  congrArg andSeq (performances_eq c)

theorem performs_booleanIf {cond a b : Node A P X} {h : W → Bool}
    (hc : (actionLanguage M).meaning cond.root cond.children = .condition h) :
    performs M ⟨.other .actionBooleanIf, ofSiblings [cond, a, b]⟩ =
      test h (performs M a) (performs M b) := by
  simp only [performs, performances_eq, siblings_ofSiblings, meanings_eq_map, List.map_cons,
    List.map_nil, performance, hc]

theorem performs_booleanWhile {cond a : Node A P X} {h : W → Bool}
    (hc : (actionLanguage M).meaning cond.root cond.children = .condition h) :
    performs M ⟨.other .booleanWhile, ofSiblings [cond, a]⟩ = WhileLoop h (performs M a) := by
  simp only [performs, performances_eq, siblings_ofSiblings, meanings_eq_map, List.map_cons,
    List.map_nil, performance, hc]

theorem performs_actionWhile (a : Node A P X) :
    performs M ⟨.other .actionWhile, ofSiblings [a]⟩ =
      branch (Loop (performs M a)) (done true) (done true) := by
  simp only [performs, performances_eq, siblings_ofSiblings, List.map_cons, List.map_nil,
    performance]

/-- The trees that are gone through in the right way. A loop over an action does not come after
something that may fail, and where there is one no action is a compound one: the loop leaves a
flag behind that hides the failure of those. -/
inductive Supported (M : World A P X W E) (compound : A → Bool) (loops : Bool) : Node A P X → Prop
  | builtin (a : A) (c : Forest (ActionVertex A P X)) (h : compound a = true → loops = false) :
      Supported M compound loops ⟨.other (.builtinAction a), c⟩
  | sequence {c : Forest (ActionVertex A P X)} (h : ∀ t ∈ siblings c, Supported M compound loops t)
      (htail : ∀ t ∈ (siblings c).tail, t.root ≠ .other .actionWhile) :
      Supported M compound loops ⟨.other .sequentialAnd, c⟩
  | booleanIf {cond a b : Node A P X} {h : W → Bool}
      (hc : (actionLanguage M).meaning cond.root cond.children = .condition h)
      (ha : Supported M compound loops a) (hb : Supported M compound loops b) :
      Supported M compound loops ⟨.other .actionBooleanIf, ofSiblings [cond, a, b]⟩
  | booleanWhile {cond a : Node A P X} {h : W → Bool}
      (hc : (actionLanguage M).meaning cond.root cond.children = .condition h)
      (ha : Supported M compound loops a) :
      Supported M compound loops ⟨.other .booleanWhile, ofSiblings [cond, a]⟩
  | actionWhile {a : Node A P X} (hl : loops = true) (ha : Supported M compound loops a) :
      Supported M compound loops ⟨.other .actionWhile, ofSiblings [a]⟩

end OpenCog.Procedure
