import OpenCog.Comboreduct.SimpleReduction
import OpenCog.Comboreduct.Combo.ActionTree

/-! The rules for action trees. A rule without a result is one whose assertion fails. -/
namespace OpenCog.Comboreduct

open Util

variable {A P X : Type}

/-! ## Results -/

/-- `boost::tribool`, where nothing stands for indeterminate. -/
abbrev Tribool := Option Bool

/-- The loop of `get_action_result` over the children of an `and_seq`. -/
def andResult : List (Option Tribool) → Option Tribool
  | [] => some (some true)
  | none :: _ => none
  | some (some true) :: rs => andResult rs
  | some r :: _ => some r

/-- The loop over the children of an `or_seq`; the flag is `exists_indeterminate`. -/
def orResult (existsIndeterminate : Bool) : List (Option Tribool) → Option Tribool
  | [] => some (if existsIndeterminate then none else some false)
  | none :: _ => none
  | some (some true) :: _ => some (some true)
  | some r :: rs => orResult (r.isNone || existsIndeterminate) rs

def opResult (alwaysSucceeds : A → Bool) (rs : List (Option Tribool)) :
    ActionOp A P X → Option Tribool
  | .actionSuccess => some (some true)
  | .actionFailure => some (some false)
  | .sequentialExec => some (some true)
  | .actionWhile => some (some false)
  | .builtinAction a => some (if alwaysSucceeds a then some true else none)
  | .sequentialAnd => andResult rs
  | .sequentialOr => orResult false rs
  | .actionNot => match rs with
    | [r] => r.map (Option.map (!·))
    | _ => none
  | .actionActionIf => match rs with
    | [cond, br1, br2] => cond.bind fun r => match r with
      | some true => br1
      | some false => br2
      | none => some none
    | _ => none
  | _ => some none

def vertexResult (alwaysSucceeds : A → Bool) (rs : List (Option Tribool)) :
    ActionVertex A P X → Option Tribool
  | .other s => opResult alwaysSucceeds rs s
  | _ => some none

def actionResults (alwaysSucceeds : A → Bool) : Forest (ActionVertex A P X) → List (Option Tribool)
  | .nil => []
  | .cons v c n => vertexResult alwaysSucceeds (actionResults alwaysSucceeds c) v ::
      actionResults alwaysSucceeds n

def getActionResult (alwaysSucceeds : A → Bool) (v : ActionVertex A P X)
    (c : Forest (ActionVertex A P X)) : Option Tribool :=
  vertexResult alwaysSucceeds (actionResults alwaysSucceeds c) v

/-! ## General action rules -/

def isAssociativeOp (associative : X → Bool) : ActionOp A P X → Bool
  | .sequentialAnd | .sequentialOr | .sequentialExec => true
  | .other x => associative x
  | _ => false

variable [DecidableEq A] [DecidableEq P] [DecidableEq X]

def reduceActionIf : Rule (ActionVertex A P X)
  | .other .actionBooleanIf, .cons cond cc (.cons b1 c1 (.cons b2 c2 .nil)) =>
    if cond = .logicalTrue then some (b1, c1)
    else if cond = .logicalFalse then some (b2, c2)
    else if b1 = b2 ∧ c1 = c2 then some (b1, c1)
    else some (.other .actionBooleanIf, .cons cond cc (.cons b1 c1 (.cons b2 c2 .nil)))
  | .other .actionBooleanIf, _ => none
  | v, c => some (v, c)

/-- `tr.swap(tr.child(it, 1))` -/
def swapSecond : Forest (ActionVertex A P X) → Forest (ActionVertex A P X)
  | .cons v c (.cons v1 c1 (.cons v2 c2 n)) => .cons v c (.cons v2 c2 (.cons v1 c1 n))
  | f => f

def reduceNotCondActionBooleanIf : Rule (ActionVertex A P X)
  | .other .actionBooleanIf, .cons cond cc (.cons b1 c1 (.cons b2 c2 .nil)) =>
    if cond = .other .logicalNot then
      some (.other .actionBooleanIf, swapSecond (cc.append (.cons b1 c1 (.cons b2 c2 .nil))))
    else some (.other .actionBooleanIf, .cons cond cc (.cons b1 c1 (.cons b2 c2 .nil)))
  | .other .actionBooleanIf, _ => none
  | v, c => some (v, c)

def reduceDoubleActionNot : Rule (ActionVertex A P X)
  | .other .actionNot, .cons (.other .actionNot) (.cons v c n) .nil => some (v, c.append n)
  | .other .actionNot, .cons (.other .actionNot) .nil .nil => none
  | .other .actionNot, .cons v c .nil => some (.other .actionNot, .cons v c .nil)
  | .other .actionNot, _ => none
  | v, c => some (v, c)

/-! ## Loops -/

/-- The siblings before a loop over `body`, the last one first, without what `body` repeats. -/
def dropRepeated (body : Subtree (ActionOp A P X)) (before : List (Subtree (ActionOp A P X))) :
    List (Subtree (ActionOp A P X)) :=
  if body.isChildless then before
  else if body.root = .other .sequentialAnd then
    let inner := (siblings body.children).reverse
    if inner <+: before then before.drop inner.length else before
  else match before with
    | prev :: rest => if prev = body then rest else before
    | [] => []

/-- The loop over the children of an `and_seq`; those already visited are reversed. -/
def repeatOut (before : List (Subtree (ActionOp A P X))) :
    List (Subtree (ActionOp A P X)) → Option (List (Subtree (ActionOp A P X)))
  | [] => some before.reverse
  | t :: rest =>
    if t.root = .other .actionWhile then
      match siblings t.children with
      | [body] => repeatOut (t :: dropRepeated body before) rest
      | _ => none
    else repeatOut (t :: before) rest

def reduceRepeatOutActionWhile : Rule (ActionVertex A P X)
  | .other .sequentialAnd, .cons v c .nil => some (.other .sequentialAnd, .cons v c .nil)
  | .other .sequentialAnd, c =>
    (repeatOut [] (siblings c)).map fun ts => (.other .sequentialAnd, ofSiblings ts)
  | v, c => some (v, c)

/-- The loop of `smallest_divisor` from `i` on. -/
def findDivisor (n : Nat) : Nat → Nat → Nat
  | 0, _ => n
  | fuel + 1, i => if i * i ≤ n then if n % i = 0 then i else findDivisor n fuel (i + 1) else n

def smallestDivisor (n : Nat) : Nat := if n < 3 then n else findDivisor n n 2

/-- Each sibling is the one `sd` before it. -/
def repeats (sd : Nat) (ts : List (Subtree (ActionOp A P X))) : Bool :=
  (ts.zip (ts.drop sd)).all fun p => decide (p.1 = p.2)

def reduceRepeatInActionWhile : Rule (ActionVertex A P X)
  | .other .actionWhile, .cons (.other .sequentialAnd) c .nil =>
    let ts := siblings c
    let sd := smallestDivisor ts.length
    if 1 < ts.length ∧ repeats sd ts = true then
      some (.other .actionWhile, .cons (.other .sequentialAnd) (ofSiblings (ts.take sd)) .nil)
    else some (.other .actionWhile, .cons (.other .sequentialAnd) c .nil)
  | .other .actionWhile, .cons v c .nil => some (.other .actionWhile, .cons v c .nil)
  | .other .actionWhile, _ => none
  | v, c => some (v, c)

/-! ## Conditions at the initial instant -/

/-- `substitute_condition_init_instant` at the first root, or at all of them. -/
def substituteCond (cond : Subtree (ActionOp A P X)) (sub : ActionVertex A P X) :
    Bool → Forest (ActionVertex A P X) → Option (Forest (ActionVertex A P X))
  | _, .nil => some .nil
  | all, .cons v c n =>
    let node : Option (ActionVertex A P X × Forest (ActionVertex A P X)) := match v with
      | .other (.perception _) =>
        if (⟨v, c⟩ : Subtree _) = cond then some (sub, .nil) else some (v, c)
      | .other .sequentialAnd | .other .sequentialOr | .other .sequentialExec =>
        (substituteCond cond sub false c).map (v, ·)
      | .other .actionBooleanIf =>
        if (siblings c).length = 3 then (substituteCond cond sub true c).map (v, ·) else none
      | .other .actionActionIf =>
        if (siblings c).length = 3 then (substituteCond cond sub false c).map (v, ·) else none
      | _ => some (v, c)
    node.bind fun t => (if all then substituteCond cond sub true n else some n).map (.cons t.1 t.2)

def reduceActionBooleanIfSubCond : Rule (ActionVertex A P X)
  | .other .actionBooleanIf, .cons cond cc (.cons b1 c1 (.cons b2 c2 .nil)) => do
    let f1 ← substituteCond ⟨cond, cc⟩ .logicalTrue false (.cons b1 c1 .nil)
    let f2 ← substituteCond ⟨cond, cc⟩ .logicalFalse false (.cons b2 c2 .nil)
    some (.other .actionBooleanIf, .cons cond cc (f1.append f2))
  | .other .actionBooleanIf, _ => none
  | v, c => some (v, c)

def reduceBooleanWhileSubCond : Rule (ActionVertex A P X)
  | .other .booleanWhile, .cons cond cc (.cons b c .nil) => do
    let f ← substituteCond ⟨cond, cc⟩ .logicalTrue false (.cons b c .nil)
    some (.other .booleanWhile, .cons cond cc f)
  | .other .booleanWhile, _ => none
  | v, c => some (v, c)

/-! ## Rules that ask for results -/

section Results
variable (alwaysSucceeds : A → Bool)

def reduceActionActionIfAlwaysSucceeds : Rule (ActionVertex A P X)
  | .other .actionActionIf, .cons cond cc (.cons b1 c1 (.cons b2 c2 .nil)) => do
    if (← getActionResult alwaysSucceeds cond cc) = some true then
      some (.other .sequentialAnd, .cons cond cc (.cons b1 c1 .nil))
    else some (.other .actionActionIf, .cons cond cc (.cons b1 c1 (.cons b2 c2 .nil)))
  | .other .actionActionIf, _ => none
  | v, c => some (v, c)

/-- An indeterminate result is taken for a failure. -/
def reduceActionActionIfAlwaysFails : Rule (ActionVertex A P X)
  | .other .actionActionIf, .cons cond cc (.cons b1 c1 (.cons b2 c2 .nil)) => do
    if (← getActionResult alwaysSucceeds cond cc) ≠ some true then
      some (.other .sequentialExec, .cons cond cc (.cons b2 c2 .nil))
    else some (.other .actionActionIf, .cons cond cc (.cons b1 c1 (.cons b2 c2 .nil)))
  | .other .actionActionIf, _ => none
  | v, c => some (v, c)

def reduceActionWhileAlwaysFails : Rule (ActionVertex A P X)
  | .other .actionWhile, .cons v c .nil => do
    if (← getActionResult alwaysSucceeds v c) = some false then some (v, c)
    else some (.other .actionWhile, .cons v c .nil)
  | .other .actionWhile, _ => none
  | v, c => some (v, c)

/-- A loop whose condition is true is replaced by what it repeats, whatever its result. -/
def reduceBooleanWhileDependCondition : Rule (ActionVertex A P X)
  | .other .booleanWhile, .cons cond cc (.cons b c .nil) =>
    if cond = .logicalTrue then some (b, c)
    else if cond = .logicalFalse then some (.other .actionSuccess, .nil)
    else some (.other .booleanWhile, .cons cond cc (.cons b c .nil))
  | .other .booleanWhile, _ => none
  | v, c => some (v, c)

/-- The loop that erases what comes after the first child with this result. -/
def eraseAfter (last : Bool) : Forest (ActionVertex A P X) → Option (Forest (ActionVertex A P X))
  | .nil => some .nil
  | .cons v c n => do
    if (← getActionResult alwaysSucceeds v c) = some last then some (.cons v c .nil)
    else (eraseAfter last n).map (.cons v c)

def reduceSequentialAndAlwaysFails : Rule (ActionVertex A P X)
  | .other .sequentialAnd, c => (eraseAfter alwaysSucceeds false c).map fun c => (.other .sequentialAnd, c)
  | v, c => some (v, c)

def reduceSequentialOrAlwaysSucceeds : Rule (ActionVertex A P X)
  | .other .sequentialOr, c => (eraseAfter alwaysSucceeds true c).map fun c => (.other .sequentialOr, c)
  | v, c => some (v, c)

end Results

/-! ## Loops of rules -/

/-- The rules of `hillclimbing_action_reduction`. -/
def hillclimbingActionRules (alwaysSucceeds : A → Bool) (associative : X → Bool) :
    List (Rule (ActionVertex A P X)) :=
  [level (isAssociativeOp associative), reduceNotCondActionBooleanIf,
    reduceActionActionIfAlwaysSucceeds alwaysSucceeds, reduceActionIf,
    reduceActionWhileAlwaysFails alwaysSucceeds]

/-- The rules of `hillclimbing_full_reduction` for actions, without those that depend on other
properties of builtin actions. -/
def hillclimbingFullRules (alwaysSucceeds : A → Bool) (associative : X → Bool) :
    List (Rule (ActionVertex A P X)) :=
  [level (isAssociativeOp associative), reduceActionIf, reduceActionBooleanIfSubCond,
    reduceBooleanWhileSubCond, reduceRepeatOutActionWhile, reduceRepeatInActionWhile,
    reduceActionActionIfAlwaysSucceeds alwaysSucceeds, reduceActionWhileAlwaysFails alwaysSucceeds,
    reduceSequentialAndAlwaysFails alwaysSucceeds, reduceNotCondActionBooleanIf]

/-- `iterative(sequential(...))` -/
def reduceWith (rules : List (Rule (ActionVertex A P X))) (fuel : Nat)
    (tr : Forest (ActionVertex A P X)) : Option (Forest (ActionVertex A P X)) :=
  iterative (Language.passes rules fuel) fuel tr

end OpenCog.Comboreduct
