import OpenCog.Lib.Outcomes
import OpenCog.Comboreduct.Language
import OpenCog.Comboreduct.Vertex

/-! Action trees: what they do to a world, and whether they succeed. A loop over an action fails
where the action fails, as `get_action_result` takes it. -/
namespace OpenCog.Comboreduct

open Util Outcomes

variable {A P X W E : Type}

/-- The vertices of action trees besides the logical ones. Builtin actions, perceptions and what
the action rules do not look into have types of their own. -/
inductive ActionOp (A P X : Type) where
  | actionSuccess
  | actionFailure
  | sequentialAnd
  | sequentialOr
  | sequentialExec
  | actionNot
  | actionActionIf
  | actionBooleanIf
  | actionWhile
  | booleanWhile
  | logicalNot
  | builtinAction (a : A)
  | perception (p : P)
  | other (x : X)
  deriving DecidableEq

abbrev ActionVertex (A P X : Type) := Vertex (ActionOp A P X)

inductive Meaning (W E : Type) where
  | action (a : Program W)
  | condition (h : W → Bool)
  | value (e : E)

namespace Meaning

def runs : Meaning W E → Program W
  | .action a => a
  | _ => never

def holds : Meaning W E → W → Bool
  | .condition h => h
  | _ => fun _ => false

def IsAction (m : Meaning W E) : Prop := ∃ a, m = .action a

def IsCondition (m : Meaning W E) : Prop := ∃ h, m = .condition h

end Meaning

/-- What builtin actions do and perceptions tell, given what their arguments mean. -/
structure World (A P X W E : Type) where
  act : A → List (Meaning W E) → Program W
  perceive : P → List (Meaning W E) → W → Bool
  argument : Argument → Meaning W E
  other : X → List (Meaning W E) → Meaning W E

variable (M : World A P X W E)

def ActionOp.meaning (ms : List (Meaning W E)) : ActionOp A P X → Meaning W E
  | .actionSuccess => .action (done true)
  | .actionFailure => .action (done false)
  | .sequentialAnd => .action (andSeq (ms.map Meaning.runs))
  | .sequentialOr => .action (orSeq (ms.map Meaning.runs))
  | .sequentialExec => .action (execSeq (ms.map Meaning.runs))
  | .actionNot => .action (match ms with
    | [a] => branch a.runs (done false) (done true)
    | _ => never)
  | .actionActionIf => .action (match ms with
    | [c, a, b] => branch c.runs a.runs b.runs
    | _ => never)
  | .actionBooleanIf => .action (match ms with
    | [c, a, b] => test c.holds a.runs b.runs
    | _ => never)
  | .actionWhile => .action (match ms with
    | [a] => Loop a.runs
    | _ => never)
  | .booleanWhile => .action (match ms with
    | [c, a] => WhileLoop c.holds a.runs
    | _ => never)
  | .logicalNot => .condition (match ms with
    | [c] => fun w => !c.holds w
    | _ => fun _ => false)
  | .builtinAction a => .action (M.act a ms)
  | .perception p => .condition (M.perceive p ms)
  | .other x => M.other x ms

def Vertex.meaning (ms : List (Meaning W E)) : ActionVertex A P X → Meaning W E
  | .logicalAnd => .condition fun w => ms.all fun m => m.holds w
  | .logicalOr => .condition fun w => ms.any fun m => m.holds w
  | .logicalTrue => .condition fun _ => true
  | .logicalFalse => .condition fun _ => false
  | .argument a => M.argument a
  | .other s => s.meaning M ms

/-- The number and the kinds of the arguments. -/
def ActionOp.Takes (ms : List (Meaning W E)) : ActionOp A P X → Prop
  | .sequentialAnd | .sequentialOr | .sequentialExec => ∀ m ∈ ms, m.IsAction
  | .actionNot | .actionWhile => ∃ a, ms = [.action a]
  | .actionActionIf => ∃ c a b, ms = [.action c, .action a, .action b]
  | .actionBooleanIf => ∃ c a b, ms = [.condition c, .action a, .action b]
  | .booleanWhile => ∃ c a, ms = [.condition c, .action a]
  | .logicalNot => ∃ c, ms = [.condition c]
  | _ => True

def Vertex.Takes (ms : List (Meaning W E)) : ActionVertex A P X → Prop
  | .logicalAnd | .logicalOr => ∀ m ∈ ms, m.IsCondition
  | .other s => s.Takes ms
  | _ => True

/-- The language of action trees. -/
def actionLanguage : Language (ActionVertex A P X) (Meaning W E) where
  node v ms := v.meaning M ms
  typed v ms := v.Takes ms

/-- What the rules rely on: builtin actions that are said to succeed do, and associative operators
on values may be flattened. -/
structure World.Lawful (alwaysSucceeds : A → Bool) (associative : X → Bool) : Prop where
  succeeds : ∀ a, alwaysSucceeds a = true → ∀ ms, Always true (M.act a ms)
  flatten : ∀ x, associative x = true → ∀ ls ms ns,
    M.other x (ls ++ M.other x ms :: ns) = M.other x (ls ++ ms ++ ns)

/-! ## A world -/

/-- One action adds one; the other one takes one away, and fails where there is nothing. The
perception tells whether there is something. -/
def counting : World Bool Unit Empty Nat Nat where
  act a _ := match a with
    | true => fun w r w' => r = true ∧ w' = w + 1
    | false => fun w r w' => r = decide (0 < w) ∧ w' = w - 1
  perceive _ _ w := decide (0 < w)
  argument _ := .value 0
  other x _ := x.elim

theorem counting_lawful : counting.Lawful id Empty.elim where
  succeeds a ha _ := by
    cases a with
    | true => exact fun _ _ _ h => h.1
    | false => cases ha
  flatten x := x.elim

def perceived : Forest (ActionVertex Bool Unit Empty) := .cons (.other (.perception ())) .nil .nil

def added : Forest (ActionVertex Bool Unit Empty) := .cons (.other (.builtinAction true)) .nil .nil

def removed : Forest (ActionVertex Bool Unit Empty) := .cons (.other (.builtinAction false)) .nil .nil

theorem typed_perceived : (actionLanguage counting).Typed perceived := ⟨trivial, trivial, trivial⟩

theorem typed_added : (actionLanguage counting).Typed added := ⟨trivial, trivial, trivial⟩

theorem typed_removed : (actionLanguage counting).Typed removed := ⟨trivial, trivial, trivial⟩

end OpenCog.Comboreduct
