import OpenCog.AtomSpace.TableRuns
import OpenCog.AtomSpace.AtomSpace

/-! Memory dumps: atoms are written with their handles, and read back through a map from
these to the atoms made for them. The file is the sequence of what is written; trails,
composite truth values and the repositories behind the atoms are left out. -/
namespace OpenCog

variable {TV E : Type}

/-- The names of the registered types. -/
structure TypeNames (cs : ClassServer) where
  typeName : TypeCode → String
  getType : String → Option TypeCode
  getType_typeName : ∀ t < cs.nTypes, getType (typeName t) = some t

/-- `writeTruthValue` and `readTruthValue`. -/
structure TruthCodec (TV E : Type) where
  write : TV → E
  read : E → TV

namespace SavingLoading

structure AtomRecord (E : Type) where
  type : TypeCode
  markedForRemoval : Bool
  removedByDecay : Bool
  handle : Handle
  attentionValue : AttentionValue
  truthValue : E

structure NodeRecord (E : Type) extends AtomRecord E where
  name : String

/-- The members a loop over the arity writes. -/
structure LinkRecord (E : Type) extends AtomRecord E where
  outgoing : List Handle

structure Dump (E : Type) where
  classes : List (String × TypeCode)
  nodes : List (NodeRecord E)
  links : List (LinkRecord E)

/-! ## Saving -/

section Save
variable (cs : ClassServer) (names : TypeNames cs) (codec : TruthCodec TV E)

def writeAtom (h : Handle) (a : Atom TV) : AtomRecord E where
  type := a.type
  markedForRemoval := a.markedForRemoval
  removedByDecay := a.removedByDecay
  handle := h
  attentionValue := a.attentionValue
  truthValue := codec.write a.truthValue

/-- The iterator goes through the types in their order; each bin is a hash set, whose
own order is `order`. -/
def handles (order : List Handle → List Handle) (s : AtomTable TV) (type : TypeCode) :
    List Handle :=
  (List.range (cs.nTypes + 1)).flatMap fun t =>
    if t = type || cs.isA t type then order (s.typeIndex t).dedup else []

/-- A handle that is not that of a node is passed over. -/
def saveNodes (order : List Handle → List Handle) (s : AtomTable TV) : List (NodeRecord E) :=
  (handles cs order s NODE).filterMap fun h =>
    match s.handleMap h with
    | some a => match a.body with
      | .node name => some { writeAtom codec h a with name }
      | .link _ => none
    | none => none

/-- All link handles go through an ordered set first; `none` is a null pointer. -/
def saveLinks (order : List Handle → List Handle) (s : AtomTable TV) :
    Option (List (LinkRecord E)) :=
  (handles cs order s LINK).dedup.mergeSort.mapM fun h =>
    match s.handleMap h with
    | some a => match a.body with
      | .node _ => none
      | .link o => some { writeAtom codec h a with outgoing := (Body.link o).targets }
    | none => none

def save (order : List Handle → List Handle) (s : AtomTable TV) : Option (Dump E) :=
  (saveLinks cs codec order s).map fun links =>
    { classes := (List.range cs.nTypes).map fun t => (names.typeName t, t),
      nodes := saveNodes cs codec order s,
      links }

end Save

/-! ## Loading -/

section Load
variable (cs : ClassServer) (names : TypeNames cs) (codec : TruthCodec TV E) (ops : TruthOps TV)

/-- The vector from the types of the dump to those of the core. -/
def loadClassServerInfo (classes : List (String × TypeCode)) : Option (List TypeCode) :=
  classes.foldlM (fun dumpToCore c =>
    if c.2 < dumpToCore.length then
      some (dumpToCore.set c.2 ((names.getType c.1).getD (cs.nTypes + 1)))
    else none) (List.replicate classes.length 0)

/-- The table, and the atoms made for the handles of the dump: the handle an atom has in
the table, or none for an atom that `add` found there already, and deleted. -/
structure Loading (TV : Type) where
  table : AtomTable TV
  atoms : Handle → Option (Option Handle)

/-- The type of an atom of the dump, checked against those of the core. -/
def coreType (dumpToCore : List TypeCode) (oldType : TypeCode) : Option TypeCode :=
  dumpToCore[oldType]?.bind fun t => if t > cs.nTypes then none else some t

def readAtom (r : AtomRecord E) (type : TypeCode) (body : Body) : Atom TV where
  type
  body
  incoming := []
  markedForRemoval := r.markedForRemoval
  removedByDecay := r.removedByDecay
  inTable := false
  attentionValue := r.attentionValue
  truthValue := codec.read r.truthValue

/-- The atom enters the map, which throws on a handle it has already, and the table. -/
def enter (l : Loading TV) (h : Handle) (a : Atom TV) : Option (Loading TV) :=
  if (l.atoms h).isSome then none
  else
    let added := l.table.add ops a true
    added.2.map fun g =>
      { table := added.1,
        atoms := Function.update l.atoms h
          (some (if (l.table.getHandle a).isSome then none else some g)) }

def loadNode (dumpToCore : List TypeCode) (l : Loading TV) (r : NodeRecord E) :
    Option (Loading TV) := do
  let t ← coreType cs dumpToCore r.type
  enter ops l r.handle (readAtom codec r.toAtomRecord t (.node r.name))

/-- The members are pushed as the map gives them. -/
def loadLink (dumpToCore : List TypeCode) (l : Loading TV) (r : LinkRecord E) :
    Option (Loading TV) := do
  let t ← coreType cs dumpToCore r.type
  let outgoing ← r.outgoing.mapM fun h => (l.atoms h).bind id
  enter ops l r.handle (readAtom codec r.toAtomRecord t (.link outgoing))

/-- Into an empty table. -/
def load (d : Dump E) (table : AtomTable TV) : Option (Loading TV) :=
  if table.size > 0 then none
  else do
    let dumpToCore ← loadClassServerInfo cs names d.classes
    let l ← d.nodes.foldlM (loadNode cs codec ops dumpToCore) { table, atoms := fun _ => none }
    d.links.foldlM (loadLink cs codec ops dumpToCore) l

end Load

end SavingLoading

end OpenCog
