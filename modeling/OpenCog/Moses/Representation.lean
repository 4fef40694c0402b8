import OpenCog.Util.Tree
import OpenCog.Moses.FieldSet

/-! Knobs on an exemplar, and the turning of them by an instance. A failed assertion and
a step past the last knob have no result. -/
namespace OpenCog.Moses

open Util

/-- The vertices that are told apart; `C` is the type of continuous values. -/
inductive Vertex (C O : Type) where
  | nullVertex
  | logicalNot
  | logicalAnd
  | logicalOr
  | contin (x : C)
  | other (o : O)
  deriving DecidableEq

/-- The nodes of a tree, and the location of the next one to be allocated. -/
structure ComboTree (C O : Type) where
  nodes : Forest (Node (Vertex C O))
  fresh : Nat

namespace ComboTree

variable {C O : Type}

def setData (t : ComboTree C O) (i : Nat) (x : Vertex C O) : ComboTree C O :=
  { t with nodes := t.nodes.setData i x }

def insertAbove (t : ComboTree C O) (i : Nat) (x : Vertex C O) : ComboTree C O × Nat :=
  ({ nodes := t.nodes.insertAbove i ⟨t.fresh, x⟩, fresh := t.fresh + 1 }, t.fresh)

/-- `erase(flatten(i))`, where a node follows. -/
def eraseFlattened (t : ComboTree C O) (i : Nat) : Option (ComboTree C O × Nat) :=
  match (t.nodes.flatten i).afterSubtree i none with
  | some (some next) => some ({ t with nodes := (t.nodes.flatten i).erase i }, next)
  | _ => none

end ComboTree

/-! ## Knobs -/

inductive Setting where
  | absent
  | present
  | negated
  deriving DecidableEq

def Setting.ofNat? : Nat → Option Setting
  | 0 => some absent
  | 1 => some present
  | 2 => some negated
  | _ => none

def bitCount (b : BitVec 3) : Nat := (List.range 3).countP b.getLsbD

structure LogicalSubtreeKnob where
  loc : Nat
  current : Setting
  default : Nat
  disallowed : BitVec 3

namespace LogicalSubtreeKnob

variable {C O : Type}

def arity (k : LogicalSubtreeKnob) : Nat := 3 - bitCount k.disallowed

def spec (k : LogicalSubtreeKnob) : Spec C := .disc (Fin.ofNat (2 ^ 32) k.arity)

/-- The default and zero change places; then the disallowed settings below are skipped. -/
def mapIdx (k : LogicalSubtreeKnob) (idx : Nat) : Nat :=
  let idx := if idx = k.default then 0 else if idx = 0 then k.default else idx
  idx + bitCount (k.disallowed <<< (3 - idx))

def turn (k : LogicalSubtreeKnob) (t : ComboTree C O) (idx : Nat) :
    Option (LogicalSubtreeKnob × ComboTree C O) :=
  match Setting.ofNat? (k.mapIdx idx) with
  | none => none
  | some s =>
    if s = k.current then some (k, t)
    else match s with
      | .absent =>
        if k.current = .negated then
          some ({ k with current := .absent }, t.setData k.loc .nullVertex)
        else
          some ({ k with loc := (t.insertAbove k.loc .nullVertex).2, current := .absent },
            (t.insertAbove k.loc .nullVertex).1)
      | .present =>
        (t.eraseFlattened k.loc).map fun (t', next) =>
          ({ k with loc := next, current := .present }, t')
      | .negated =>
        if k.current = .present then
          some ({ k with loc := (t.insertAbove k.loc .logicalNot).2, current := .negated },
            (t.insertAbove k.loc .logicalNot).1)
        else
          some ({ k with current := .negated }, t.setData k.loc .logicalNot)

end LogicalSubtreeKnob

structure ContinKnob (C : Type) where
  loc : Nat
  mean : C
  stepSize : C
  expansion : C
  depth : Nat

def ContinKnob.spec {C : Type} (k : ContinKnob C) : Spec C :=
  .contin k.mean k.stepSize k.expansion k.depth

def ContinKnob.turn {C O : Type} (k : ContinKnob C) (t : ComboTree C O) (x : C) : ComboTree C O :=
  t.setData k.loc (.contin x)

/-! ## Values of an instance -/

structure ContinStepper (C : Type) where
  value : C
  allLeft : Bool
  allRight : Bool
  stepSize : C

namespace ContinStepper

variable {C : Type} [Add C] [Sub C] [Mul C] [Div C] [OfNat C 2]

def left (s : ContinStepper C) (expansion : C) : ContinStepper C :=
  if s.allLeft then
    { s with value := s.value - s.stepSize, stepSize := s.stepSize * expansion, allRight := false }
  else
    let step := if s.allRight then s.stepSize / (expansion * 2) else s.stepSize
    { s with value := s.value - step, stepSize := step / 2, allRight := false }

def right (s : ContinStepper C) (expansion : C) : ContinStepper C :=
  if s.allRight then
    { s with value := s.value + s.stepSize, stepSize := s.stepSize * expansion, allLeft := false }
  else
    let step := if s.allLeft then s.stepSize / (expansion * 2) else s.stepSize
    { s with value := s.value + step, stepSize := step / 2, allLeft := false }

end ContinStepper

namespace FieldSet

variable {C : Type}

def contin (fs : FieldSet C) : List (Spec C) :=
  (fs.ofKind 1).flatMap fun g => List.replicate g.2 g.1

def discAndBits (fs : FieldSet C) : List (Spec C) :=
  (fs.ofKind 2).flatMap fun g => List.replicate g.2 g.1

def nOnto (fs : FieldSet C) : Nat := ((fs.ofKind 0).map fun g => g.2 * g.1.depth).sum

/-- `_disc_start` -/
def discStart (fs : FieldSet C) : Nat := fs.nOnto + (fs.contin.map Spec.depth).sum

/-- The number of discrete variables that take one bit. -/
def nbool (fs : FieldSet C) : Nat := fs.discAndBits.countP fun s => s.width = 1

def continToRawIdx (fs : FieldSet C) (idx : Nat) : Nat :=
  fs.nOnto + ((fs.contin.take idx).map Spec.depth).sum

section Contin
variable [Add C] [Sub C] [Mul C] [Div C] [OfNat C 2]

/-- The steps read from so many raw fields, up to the first stop. -/
def walk (fs : FieldSet C) (inst : Instance) (expansion : C) :
    Nat → Nat → ContinStepper C → Option C
  | 0, _, s => some s.value
  | n + 1, raw, s =>
    match fs.getRaw inst raw with
    | some 0 => some s.value
    | some 1 => fs.walk inst expansion n (raw + 1) (s.left expansion)
    | some 2 => fs.walk inst expansion n (raw + 1) (s.right expansion)
    | _ => none

/-- The value of a continuous variable encoded from a raw field on. -/
def decode (fs : FieldSet C) (inst : Instance) (raw : Nat) : Spec C → Option C
  | .contin mean stepSize expansion depth =>
    fs.walk inst expansion depth raw ⟨mean, true, true, stepSize⟩
  | _ => none

def getContin (fs : FieldSet C) (inst : Instance) (idx : Nat) : Option C :=
  fs.contin[idx]?.bind (fs.decode inst (fs.continToRawIdx idx))

def continValues (fs : FieldSet C) (inst : Instance) : Option (List C) :=
  (List.range fs.contin.length).mapM (fs.getContin inst)

end Contin

def discValues (fs : FieldSet C) (inst : Instance) : Option (List Nat) :=
  (List.range' fs.discStart (fs.rawSize - fs.nbool - fs.discStart)).mapM (fs.getRaw inst)

/-- From the first field of one bit up to the bit after the offset of the last one, in
the last word of the instance. -/
def bitValues (fs : FieldSet C) (inst : Instance) : Option (List Nat) :=
  match fs.fields[fs.rawSize - fs.nbool]?, fs.fields.getLast? with
  | some first, some last =>
    let start := first.offset
    let stop := (inst.length - 1) * 32 + last.minorOffset + 1
    if start ≤ stop then
      (List.range' start (stop - start)).mapM fun q =>
        inst[q / 32]?.map fun x => if x.getLsbD (q % 32) then 1 else 0
    else none
  | _, _ => some []

end FieldSet

/-! ## Representations -/

/-- The maps of knobs list them in their order; candidates are simplified by a rule. -/
structure Representation (C O : Type) where
  exemplar : ComboTree C O
  disc : List LogicalSubtreeKnob
  contin : List (ContinKnob C)
  fields : FieldSet C
  simplifyCandidate : Forest (Vertex C O) → Forest (Vertex C O)

/-- Insertion in a multiset, after what is not greater. -/
def insertSpec {C : Type} [LT C] [DecidableLT C] [DecidableEq C] (s : Spec C) :
    List (Spec C) → List (Spec C)
  | [] => [s]
  | t :: ts => if s.less t then s :: t :: ts else t :: insertSpec s ts

/-- The field specification of some knobs. -/
def fieldsOf {C : Type} [LT C] [DecidableLT C] [DecidableEq C]
    (disc : List LogicalSubtreeKnob) (contin : List (ContinKnob C)) : Option (FieldSet C) :=
  FieldSet.ofSpecs ((disc.map LogicalSubtreeKnob.spec ++ contin.map ContinKnob.spec).foldl
    (fun m s => insertSpec s m) [])

namespace Representation

variable {C O : Type}

def turnContins : List (ContinKnob C) → List C → ComboTree C O → Option (ComboTree C O)
  | _, [], t => some t
  | [], _ :: _, _ => none
  | k :: ks, x :: xs, t => turnContins ks xs (k.turn t x)

def turnDiscs : List LogicalSubtreeKnob → List Nat → ComboTree C O →
    Option (List LogicalSubtreeKnob × ComboTree C O)
  | ks, [], t => some (ks, t)
  | [], _ :: _, _ => none
  | k :: ks, v :: vs, t =>
    (k.turn t v).bind fun (k', t') =>
      (turnDiscs ks vs t').map fun (ks', t'') => (k' :: ks', t'')

section Transform
variable [Add C] [Sub C] [Mul C] [Div C] [OfNat C 2]

def transform (r : Representation C O) (inst : FieldSet.Instance) : Option (Representation C O) := do
  let xs ← r.fields.continValues inst
  let t ← turnContins r.contin xs r.exemplar
  let vs ← r.fields.discValues inst
  let bs ← r.fields.bitValues inst
  let (disc, t) ← turnDiscs r.disc (vs ++ bs) t
  some { r with exemplar := t, disc }

def transforms (r : Representation C O) (insts : List FieldSet.Instance) : Option (Representation C O) :=
  insts.foldlM transform r

end Transform

/-! ## Clean exemplars -/

def removeNullVertices : Forest (Vertex C O) → Forest (Vertex C O)
  | .nil => .nil
  | .cons .nullVertex _ n => removeNullVertices n
  | .cons x c n => .cons x (removeNullVertices c) (removeNullVertices n)

/-- A junctor is looked at after its children were. -/
def removeDanglingJunctors : Forest (Vertex C O) → Forest (Vertex C O)
  | .nil => .nil
  | .cons x c n =>
    match x, removeDanglingJunctors c with
    | .logicalAnd, .nil => removeDanglingJunctors n
    | .logicalOr, .nil => removeDanglingJunctors n
    | x, c' => .cons x c' (removeDanglingJunctors n)

/-- The rules remove children of the nodes they are applied to, never the root. -/
def cleanReduce : Forest (Vertex C O) → Forest (Vertex C O)
  | .nil => .nil
  | .cons x c n => .cons x (removeDanglingJunctors (removeNullVertices c)) n

def getCleanExemplar (r : Representation C O) (reduce : Bool) : Forest (Vertex C O) :=
  if reduce then r.simplifyCandidate (cleanReduce r.exemplar.nodes.copy)
  else cleanReduce r.exemplar.nodes.copy

end Representation

end OpenCog.Moses
