import OpenCog.Lib.Passages
import OpenCog.Comboreduct.LoopSoundness

/-! A combo procedure that runs: an iterator goes through its action tree, and the builtin actions
that it comes to are sent to the world as plans. -/
namespace OpenCog.Procedure

open Util Outcomes Comboreduct

variable {A P X W E : Type}

abbrev Node (A P X : Type) := Subtree (ActionOp A P X)

def arity (t : Node A P X) : Nat := (siblings t.children).length

def childAt (t : Node A P X) (i : Nat) : Option (Node A P X) := (siblings t.children)[i]?

/-- A node above the iterator, and which of its children the iterator is in. -/
structure Frame (A P X : Type) where
  parent : Node A P X
  index : Nat

structure Position (A P X : Type) where
  node : Node A P X
  frames : List (Frame A P X)

/-- The iterator is nothing when it is not valid. -/
structure RunningComboProcedure (A P X : Type) where
  it : Option (Position A P X)
  hasBegun : Bool
  failed : Tribool
  inCompound : Bool

/-- What one round of the loop in `cycle` ends with. -/
inductive Round (A P X : Type) where
  | goesOn (s : RunningComboProcedure A P X)
  | returns (s : RunningComboProcedure A P X)
  | sends (plan : List (Node A P X)) (s : RunningComboProcedure A P X)

namespace RunningComboProcedure

variable (planFailed : Bool) (s : RunningComboProcedure A P X)

def isFailed : Bool := s.failed.getD (s.hasBegun && planFailed)

def goto (parent : Node A P X) (frames : List (Frame A P X)) (i : Nat) :
    Option (RunningComboProcedure A P X) :=
  (childAt parent i).map fun t => { s with it := some ⟨t, ⟨parent, i⟩ :: frames⟩ }

/-- The loop goes on at the parent unless it returns there. -/
def moveOn (s : RunningComboProcedure A P X) :
    List (Frame A P X) → Option (RunningComboProcedure A P X)
  | [] => some { s with it := none }
  | ⟨parent, i⟩ :: fs => match parent.root with
    | .other .sequentialAnd =>
      if i + 1 < arity parent then s.goto parent fs (i + 1) else moveOn s fs
    | .other .actionActionIf =>
      if i = 0 then s.goto parent fs (if s.isFailed planFailed then arity parent - 1 else 1)
      else moveOn s fs
    | .other .actionBooleanIf => if i = 0 then none else moveOn s fs
    | .other .actionWhile => some { s with it := some ⟨parent, fs⟩ }
    | .other .booleanWhile =>
      if i = 0 ∨ i + 1 ≠ arity parent then none else some { s with it := some ⟨parent, fs⟩ }
    | .other .actionNot =>
      if i = 0 then moveOn { s with failed := some (!s.isFailed planFailed) } fs else none
    | _ => none

variable (compound : A → Bool)

def isBuiltinAtomicAction (t : Node A P X) : Bool :=
  match t.root with
  | .other (.builtinAction a) => !compound a
  | _ => false

def isBuiltinCompoundAction (t : Node A P X) : Bool :=
  match t.root with
  | .other (.builtinAction a) => compound a
  | _ => false

/-- The actions at the iterator, with `beginCompound`, `execSeq` and `exec`. A plan that has just
been sent has not failed yet. -/
def act (p : Position A P X) : Option (Round A P X) :=
  if isBuiltinCompoundAction compound p.node then
    some (.sends [p.node] { s with it := some p, hasBegun := true, inCompound := true })
  else match p.frames with
    | ⟨⟨.other .sequentialAnd, c⟩, i⟩ :: fs =>
      let plan := ((siblings c).drop i).takeWhile (isBuiltinAtomicAction compound)
      if plan = [] then some (.goesOn { s with it := some p })
      else (moveOn false { s with hasBegun := true, failed := none }
        (⟨⟨.other .sequentialAnd, c⟩, i + plan.length - 1⟩ :: fs)).map (.sends plan)
    | fs => (moveOn false { s with hasBegun := true, failed := none } fs).map (.sends [p.node])

/-- The value of the first child. -/
def condition (M : World A P X W E) (w : W) (t : Node A P X) : Option Bool :=
  match (childAt t 0).map fun c => (actionLanguage M).meaning c.root c.children with
  | some (.condition h) => some (h w)
  | _ => none

def haltFailed : Option (Round A P X) := some (.returns { s with failed := some true, it := none })

/-- A node that is not left before it is looked at. -/
def visit (M : World A P X W E) (w : W) (p : Position A P X) : Option (Round A P X) :=
  match p.node.root with
  | .other .actionActionIf =>
    if arity p.node = 3 then (s.goto p.node p.frames 0).map .goesOn else none
  | .other .actionBooleanIf => match condition M w p.node with
    | some true => (s.goto p.node p.frames 1).map .goesOn
    | some false => (s.goto p.node p.frames (arity p.node - 1)).map .goesOn
    | none => s.haltFailed
  | .other .booleanWhile =>
    if s.isFailed planFailed then (moveOn planFailed s p.frames).map .goesOn
    else match condition M w p.node with
      | some true => (s.goto p.node p.frames 1).map .goesOn
      | some false => (moveOn planFailed s p.frames).map .returns
      | none => s.haltFailed
  | .other .actionNot => (s.goto p.node p.frames 0).map .goesOn
  | .other .actionSuccess => some (.goesOn { s with it := none })
  | .other .actionFailure => some (.goesOn { s with failed := some true, it := none })
  | .other .sequentialAnd => match childAt p.node 0 with
    | none => (moveOn planFailed s p.frames).map .returns
    | some t => act s compound ⟨t, ⟨p.node, 0⟩ :: p.frames⟩
  | .other (.builtinAction _) => act s compound p
  | _ => none

/-- One round of the loop; a sequence in which something has failed is left at its last child. -/
def round (M : World A P X W E) (w : W) (p : Position A P X) : Option (Round A P X) :=
  match p.node.root with
  | .other .actionWhile =>
    if arity p.node = 1 then
      if s.isFailed planFailed then
        (moveOn planFailed { s with failed := some false } p.frames).map .goesOn
      else (s.goto p.node p.frames 0).map .goesOn
    else none
  | _ => match p.frames with
    | ⟨⟨.other .sequentialAnd, c⟩, _⟩ :: fs =>
      if s.isFailed planFailed then
        (moveOn planFailed s (⟨⟨.other .sequentialAnd, c⟩, (siblings c).length - 1⟩ :: fs)).map
          .goesOn
      else visit planFailed s compound M w p
    | _ => visit planFailed s compound M w p

end RunningComboProcedure

open RunningComboProcedure

/-- The procedure, the world, and how the last plan has ended. -/
structure Config (A P X W : Type) where
  procedure : RunningComboProcedure A P X
  world : W
  planFailed : Bool

namespace Config

variable (M : World A P X W E) (compound : A → Bool)

/-- A cycle begins with the end of a compound action, and goes round the loop then. -/
def round (c : Config A P X W) : Option (Round A P X) :=
  c.procedure.it.bind fun p =>
    if c.procedure.inCompound then
      (moveOn c.planFailed { c.procedure with inCompound := false } p.frames).map .goesOn
    else RunningComboProcedure.round c.planFailed c.procedure compound M c.world p

/-- A round, and what the world does with the plan that is sent in it: nothing else happens before
the plan has ended. -/
inductive Step : Config A P X W → Config A P X W → Prop
  | goesOn {c : Config A P X W} {s : RunningComboProcedure A P X}
      (h : c.round M compound = some (.goesOn s)) : Step c { c with procedure := s }
  | returns {c : Config A P X W} {s : RunningComboProcedure A P X}
      (h : c.round M compound = some (.returns s)) : Step c { c with procedure := s }
  | sends {c : Config A P X W} {plan : List (Node A P X)} {s : RunningComboProcedure A P X}
      {q : Bool} {w : W} (h : c.round M compound = some (.sends plan s))
      (hplan : andSeq (plan.map (Subtree.action M)) c.world q w) : Step c ⟨s, w, !q⟩

def isFailed (c : Config A P X W) : Bool := c.procedure.isFailed c.planFailed

/-- A procedure that has not begun. -/
def start (t : Node A P X) (w : W) : Config A P X W :=
  ⟨⟨some ⟨t, []⟩, false, none, false⟩, w, false⟩

end Config

/-- The procedure with the world; it has finished when the iterator is not valid. Until then a round
has a result unless an assertion fails in it. -/
def interpreter (M : World A P X W E) (compound : A → Bool) : Machine (Config A P X W) W where
  step := Config.Step M compound
  world := Config.world
  final c := c.procedure.it = none
  ok c := c.procedure.it = none ∨ (c.round M compound).isSome = true
  stops c d hc hstep := by
    have hround : c.round M compound = none := by rw [Config.round, hc, Option.bind_none]
    cases hstep with
    | goesOn h => cases hround.symm.trans h
    | returns h => cases hround.symm.trans h
    | sends h _ => cases hround.symm.trans h
  final_ok _ hc := .inl hc

end OpenCog.Procedure
