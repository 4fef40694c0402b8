import OpenCog.Moses.FieldSet
import OpenCog.Moses.Representation
import OpenCog.Util.Digraph
import OpenCog.Util.NWayPartition
import OpenCog.Util.Selection
import OpenCog.Util.TreeShape

/-! `local_structure_model`: a tree of counts for each raw field, split on the fields before it.
It is built from the instances of a deme, filled with counts of them and sampled from. A failed
assertion, and a tree made past the end of the vector, have no result. -/
namespace OpenCog.Moses.LocalStructure

open Util FieldSet

/-- What `get_raw` reads from an instance at each index. -/
abbrev Row := Nat → Nat

/-- A node is a vector of counts with their sum, or of the index it is split on. -/
abbrev DTree := Forest (List Nat)

/-- `onto_tree`, by what its root holds and the root's children. -/
structure OntoTree (O : Type) where
  root : O
  children : Forest O

/-- What a field set models, in the order of its raw fields. -/
inductive Variable (O : Type) where
  | onto (tr : OntoTree O)
  | contin (depth : Nat)
  | disc (arity : Nat)

variable {O C : Type}

def OntoTree.depth (tr : OntoTree O) : Nat := tr.children.maxDepth

def OntoTree.spec (tr : OntoTree O) : Spec C :=
  .onto tr.depth tr.children.maxBranching

def discArity : Spec C → Nat
  | .disc arity => arity
  | _ => 0

/-- Ontological variables come with their trees. -/
def variablesOf (fs : FieldSet C) (trees : List (OntoTree O)) : List (Variable O) :=
  trees.map .onto ++ fs.contin.map (fun c => .contin c.depth) ++
    fs.discAndBits.map fun d => .disc (discArity d)

def rowOf (fs : FieldSet C) (inst : FieldSet.Instance) : Row := fun i => (fs.getRaw inst i).getD 0

/-- Every raw field of an instance, where all can be read. -/
def readRow (fs : FieldSet C) (inst : FieldSet.Instance) : Option Row :=
  if ∀ i < fs.rawSize, (fs.getRaw inst i).isSome then some (rowOf fs inst) else none

namespace Variable

/-- How many raw fields it has. -/
def size : Variable O → Nat
  | onto tr => tr.depth
  | contin depth => depth
  | disc _ => 1

end Variable

/-! ## Building -/

/-- `adjacent_find` finds no two neighbours that differ. -/
def isUniformOn (l : List Row) (idx : Nat) : Bool :=
  (l.zip l.tail).all fun p => p.1 idx == p.2 idx

/-- `dtree_node(n, 0)` in so many siblings. -/
def leaves (n : Nat) : Nat → DTree
  | 0 => .nil
  | k + 1 => .cons (List.replicate n 0) .nil (leaves n k)

/-- `make_dtree` -/
def makeDTree (arity : Nat) : DTree := leaves (arity + 1) 1

section Build
variable (P : Partition Row)

/-- `rec_split_onto`, at siblings of the ontology with the range of instances of each. The node
split is a vector of one number at the time, as the assertion demands. -/
def recSplitOnto (idx : Nat) : Nat → Forest O → List (List Row) → DTree × List Row
  | _, .nil, _ => (.nil, [])
  | _, .cons _ _ _, [] => (.nil, [])
  | srcIdx, .cons _ c n, l :: ls =>
    let rawArity := c.count + 1
    let here : DTree × List Row :=
      if isUniformOn l idx ∨ rawArity = 1 then (leaves (rawArity + 1) 1, l)
      else if srcIdx + 1 < idx then
        let parts := nWayPartition P (· srcIdx) rawArity l
        -- instances that stop here are not looked at any further
        let r := recSplitOnto idx (srcIdx + 1) c parts.tail
        (.cons [srcIdx] (.cons [0, 0] .nil r.1) .nil, parts.headD [] ++ r.2)
      else (.cons [srcIdx] (.cons [0, 0] .nil (leaves (rawArity + 1) c.count)) .nil, l)
    let next := recSplitOnto idx srcIdx n ls
    (here.1.append next.1, here.2 ++ next.2)

/-- `split`: so many copies of the node as it has counts become its children. -/
def split (srcIdx : Nat) (tgt : List Nat) : DTree :=
  .cons [srcIdx] (leaves tgt.length (tgt.length - 1)) .nil

/-- `rec_split_contin`, from the index `d + 1` before that of the variable on. -/
def recSplitContin (idx d : Nat) (l : List Row) : DTree × List Row :=
  if isUniformOn l idx then (makeDTree 3, l)
  else
    match d with
    | 0 => (split (idx - 1) (List.replicate 4 0), l)
    | d + 1 =>
      let srcIdx := idx - (d + 2)
      let parts := nWayPartition P (· srcIdx) 3 l
      let left := recSplitContin idx d (parts.getD 1 [])
      let right := recSplitContin idx d (parts.getD 2 [])
      (.cons [srcIdx] ((leaves 4 1).append (left.1.append right.1)) .nil,
        parts.getD 0 [] ++ left.2 ++ right.2)

/-- The trees of some levels, one after the other. -/
def makeLevels (level : Nat → List Row → DTree × List Row) :
    List Nat → List Row → List DTree × List Row
  | [], rows => ([], rows)
  | i :: is, rows =>
    let t := level i rows
    let ts := makeLevels level is t.2
    (t.1 :: ts.1, ts.2)

/-- The trees of one variable from an index on. Its first one is made whatever the depth is. -/
def Variable.make (base : Nat) (rows : List Row) : Variable O → List DTree × List Row
  | .onto tr =>
    let ts := makeLevels (fun i rows =>
      recSplitOnto P (base + i) base (.cons tr.root tr.children .nil) [rows])
      (List.range' 1 (tr.depth - 1)) rows
    (makeDTree (tr.children.count + 1) :: ts.1, ts.2)
  | .contin depth =>
    let ts := makeLevels (fun i rows => recSplitContin P (base + i) 0 rows)
      (List.range' 1 (depth - 1)) rows
    (makeDTree 3 :: ts.1, ts.2)
  | .disc arity => ([makeDTree arity], rows)

def makeAll : Nat → List Row → List (Variable O) → List DTree × List Row
  | _, rows, [] => ([], rows)
  | base, rows, v :: vs =>
    let ts := v.make P base rows
    let rest := makeAll (base + ts.1.length) ts.2 vs
    (ts.1 ++ rest.1, rest.2)

end Build

/-- Each level depends on the one before it. -/
def Variable.deps (base : Nat) : Variable O → List (Nat × Nat)
  | .onto tr => (List.range' 1 (tr.depth - 1)).map fun i => (base + i - 1, base + i)
  | .contin depth => (List.range' 1 (depth - 1)).map fun i => (base + i - 1, base + i)
  | .disc _ => []

def deps : Nat → List (Variable O) → List (Nat × Nat)
  | _, [] => []
  | base, v :: vs => v.deps base ++ deps (base + v.size) vs

/-- `_initial_deps`, of as many nodes as there are raw fields. -/
def initialDeps (n : Nat) (edges : List (Nat × Nat)) : Digraph n :=
  edges.foldl (fun g e =>
    if h : e.1 < n ∧ e.2 < n then g.insert ⟨e.1, h.1⟩ ⟨e.2, h.2⟩ else g) (.create n)

structure Model where
  dtrees : List DTree
  ordering : List Nat

/-- The constructor, for a field set of so many raw fields. -/
def build (P : Partition Row) (rawSize : Nat) (shuffle : Equiv.Perm (Fin rawSize))
    (vars : List (Variable O)) (rows : List Row) : Option Model :=
  let dtrees := (makeAll P 0 rows vars).1
  if dtrees.length ≤ rawSize then
    let s := (initialDeps rawSize (deps 0 vars)).randomizedTopologicalSort shuffle
    if s.isDag then some ⟨dtrees, s.out.map Fin.val⟩ else none
  else none

/-! ## Learning -/

/-- A value is counted below the last place. -/
def countAll (idx : Nat) : List Row → List Nat → Option (List Nat)
  | [], d => some d
  | x :: l, d =>
    if x idx + 1 < d.length then countAll idx l (d.modify (x idx) (· + 1)) else none

/-- The last place is for the sum. -/
def learnLeaf (idx : Nat) (l : List Row) (d : List Nat) : Option (List Nat) :=
  (countAll idx l d).map fun d => d.set (d.length - 1) d.dropLast.sum

/-- `rec_learn`, at siblings with the range of instances of each. -/
def recLearn (P : Partition Row) (idx : Nat) : DTree → List (List Row) → Option (DTree × List Row)
  | .nil, _ => some (.nil, [])
  | .cons _ _ _, [] => none
  | .cons d c n, l :: ls =>
    (if c.count = 0 then (learnLeaf idx l d).map fun d => (d, c, l)
      else d.head?.bind fun srcIdx =>
        (recLearn P idx c (nWayPartition P (· srcIdx) c.count l)).map fun r =>
          (d, r.1, r.2)).bind fun here =>
      (recLearn P idx n ls).map fun next => (.cons here.1 here.2.1 next.1, here.2.2 ++ next.2)

/-- `local_structure_probs_learning`; each tree finds the deme as the one before left it. -/
def probsLearning (P : Partition Row) : Nat → List DTree → List Row → Option (List DTree)
  | _, [], _ => some []
  | idx, t :: ts, rows =>
    (recLearn P idx t [rows]).bind fun r =>
      (probsLearning P (idx + 1) ts r.2).map fun ts => r.1 :: ts

/-! ## Sampling -/

/-- With `draw` from the generator. The loop of `roulette_select` does not look at the end of its
range, after which the sum is the next number. -/
def sampleLeaf (draw : Rat) (d : List Nat) : Option Nat :=
  d.getLast?.bind fun back =>
    if 0 < back then rouletteFrom (d.map Int.ofNat) ⌊(back : Rat) * draw⌋ else some 0

/-- `sample`, at one of some siblings. -/
def sample (draw : Rat) (margs : Row) : DTree → Nat → Option Nat
  | .nil, _ => none
  | .cons _ _ n, k + 1 => sample draw margs n k
  | .cons d c _, 0 =>
    if c.count = 0 then sampleLeaf draw d
    else
      match d with
      | [srcIdx] => if margs srcIdx < c.count then sample draw margs c (margs srcIdx) else none
      | _ => none

/-- `operator()`, up to the packing of the values; `draws` has what is drawn for each. -/
def sampleAll (dtrees : List DTree) (draws : Nat → Rat) : List Nat → Row → Option Row
  | [], tmp => some tmp
  | idx :: ordering, tmp =>
    (dtrees[idx]?.bind fun t => sample (draws idx) tmp t 0).bind fun v =>
      sampleAll dtrees draws ordering (Function.update tmp idx v)

end OpenCog.Moses.LocalStructure
