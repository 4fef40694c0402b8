import OpenCog.Comboreduct.Vertex

/-! Combo trees with their builtins, and `eval_throws` as it runs without wild cards and without
an evaluator of its own. The numbers and their functions are a parameter. -/
namespace OpenCog.Comboreduct.Combo

open Util

inductive Builtin where
  | logicalTrue
  | logicalFalse
  | logicalAnd
  | logicalOr
  | logicalNot
  | continIf
  | booleanIf
  | plus
  | times
  | div
  | exp
  | log
  | sin
  | greaterThanZero
  | impulse
  | rand
  deriving DecidableEq

inductive Vertex (C : Type) where
  | contin (c : C)
  | builtin (b : Builtin)
  | argument (a : Argument)
  deriving DecidableEq

/-- The arities of the type signatures, `-1` where all inputs are one `arg_list`. -/
def Builtin.arity : Builtin → Int
  | logicalTrue | logicalFalse | rand => 0
  | logicalAnd | logicalOr | plus | times => -1
  | logicalNot | exp | log | sin | greaterThanZero | impulse => 1
  | div => 2
  | continIf | booleanIf => 3

variable {C R : Type}

def Vertex.arity : Vertex C → Int
  | contin _ => 0
  | builtin b => b.arity
  | argument _ => 1

def Vertex.is (b : Builtin) : Vertex C → Bool
  | builtin b' => b' = b
  | _ => false

def boolToVertex (b : Bool) : Vertex C := .builtin (if b then .logicalTrue else .logicalFalse)

def isBoolean (v : Vertex C) : Bool := v.is .logicalTrue || v.is .logicalFalse

structure Contin (C R : Type) where
  zero : C
  one : C
  add : C → C → C
  mul : C → C → C
  div : C → C → C
  log : C → C
  exp : C → C
  sin : C → C
  isnan : C → Bool
  isinf : C → Bool
  positive : C → Bool
  randfloat : R → C × R

inductive Stop (C : Type) where
  | evalException (v : Vertex C)
  | assertion

abbrev EvalM (C R : Type) := ExceptT (Stop C) (StateM R)

def negateVertex (v : Vertex C) : EvalM C R (Vertex C) :=
  if isBoolean v then pure (boolToVertex (!v.is .logicalTrue)) else throw .assertion

def getContin : Vertex C → EvalM C R C
  | .contin c => pure c
  | _ => throw .assertion

def evalAnd : List (EvalM C R (Vertex C)) → EvalM C R (Vertex C)
  | [] => pure (boolToVertex true)
  | e :: es => do if (← e).is .logicalFalse then pure (boolToVertex false) else evalAnd es

def evalOr : List (EvalM C R (Vertex C)) → EvalM C R (Vertex C)
  | [] => pure (boolToVertex false)
  | e :: es => do if (← e).is .logicalTrue then pure (boolToVertex true) else evalOr es

def evalIf (cond yes no : EvalM C R (Vertex C)) : EvalM C R (Vertex C) := do
  let vcond ← cond
  if isBoolean vcond then (if vcond.is .logicalTrue then yes else no) else throw .assertion

/-- `plus` and `times`: the accumulator goes through the children. -/
def evalFold (f : C → C → C) (res : C) : List (EvalM C R (Vertex C)) → EvalM C R (Vertex C)
  | [] => pure (.contin res)
  | e :: es => do evalFold f (f res (← getContin (← e))) es

def checked (bad : C → Bool) (res : C) : EvalM C R (Vertex C) :=
  if bad res then throw (.evalException (.contin res)) else pure (.contin res)

variable (ops : Contin C R)

def badContin (c : C) : Bool := ops.isnan c || ops.isinf c

def evalBuiltin : Builtin → List (EvalM C R (Vertex C)) → EvalM C R (Vertex C)
  | .logicalTrue, _ => pure (boolToVertex true)
  | .logicalFalse, _ => pure (boolToVertex false)
  | .logicalAnd, es => evalAnd es
  | .logicalOr, es => evalOr es
  | .logicalNot, [e] => do negateVertex (← e)
  | .booleanIf, [cond, yes, no] => evalIf cond yes no
  | .continIf, [cond, yes, no] => evalIf cond yes no
  | .greaterThanZero, [e] => do pure (boolToVertex (ops.positive (← getContin (← e))))
  | .impulse, [e] => do
    let i ← e
    if isBoolean i then pure (.contin (if i.is .logicalTrue then ops.one else ops.zero))
    else throw .assertion
  | .plus, es => evalFold ops.add ops.zero es
  | .times, es => evalFold ops.mul ops.one es
  | .rand, _ => do pure (.contin (← modifyGet ops.randfloat))
  | .div, [e₁, e₂] => do
    let x ← getContin (← e₁)
    let y ← getContin (← e₂)
    checked (badContin ops) (ops.div x y)
  | .log, [e] => do checked (badContin ops) (ops.log (← getContin (← e)))
  | .exp, [e] => do checked ops.isinf (ops.exp (← getContin (← e)))
  | .sin, [e] => do pure (.contin (ops.sin (← getContin (← e))))
  -- the assertions on the number of children
  | _, _ => throw .assertion

/-- What `binding` has for the index; a negated argument must be bound to a boolean. -/
def evalArgument (binding : Nat → Vertex C) (a : Argument) : EvalM C R (Vertex C) :=
  if 0 < a.idx then pure (binding a.idx.natAbs) else negateVertex (binding a.idx.natAbs)

def evalVertex (binding : Nat → Vertex C) (es : List (EvalM C R (Vertex C))) : Vertex C → EvalM C R (Vertex C)
  | .argument a => evalArgument binding a
  | .builtin b => evalBuiltin ops b es
  | .contin c => checked (badContin ops) c

/-- `eval_throws` at each sibling, to be run when the vertex above asks for it. -/
def evalThrows (binding : Nat → Vertex C) : Forest (Vertex C) → List (EvalM C R (Vertex C))
  | .nil => []
  | .cons v c n => evalVertex ops binding (evalThrows binding c) v :: evalThrows binding n

end OpenCog.Comboreduct.Combo
