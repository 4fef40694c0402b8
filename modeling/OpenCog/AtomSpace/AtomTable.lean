import OpenCog.AtomSpace.Atom
import OpenCog.Lib.Index

/-! The atom table: the handle map of the TLB, the hash set of atoms, a counter
and five indices, with `add`, `extract`, `remove` and the decay sweep as the
code orders their writes. An `Option` result is `none` where the code throws. -/
namespace OpenCog

structure AtomTable (TV : Type) where
  /-- `TLB::handle_map`. -/
  handleMap : Handle → Option (Atom TV)
  /-- `TLB::brk_uuid`, the next handle to be given out. -/
  brkUuid : Handle
  size : Int
  atomSet : List Handle
  /-- Atoms left in the hash set by an `add` that threw before `TLB::addAtom`. -/
  orphans : List (Atom TV)
  nodeIndex : TypeCode → String → Option Handle
  linkIndex : TypeCode → List Handle → Option Handle
  typeIndex : TypeCode → List Handle
  targetTypeIndex : TypeCode → List Handle
  importanceIndex : Nat → List Handle

variable {TV : Type}

namespace AtomTable
open Index

def empty : AtomTable TV where
  handleMap _ := none
  brkUuid := 1
  size := 0
  atomSet := []
  orphans := []
  nodeIndex _ _ := none
  linkIndex _ _ := none
  typeIndex _ := []
  targetTypeIndex _ := []
  importanceIndex _ := []

/-! ## Reading atoms through the TLB -/

def isValidHandle (s : AtomTable TV) (h : Handle) : Bool :=
  decide (h < s.brkUuid) && (s.handleMap h).isSome

def typeOf (s : AtomTable TV) (h : Handle) : Option TypeCode := (s.handleMap h).map Atom.type
def bodyOf (s : AtomTable TV) (h : Handle) : Option Body := (s.handleMap h).map Atom.body
def avOf (s : AtomTable TV) (h : Handle) : Option AttentionValue :=
  (s.handleMap h).map Atom.attentionValue
def decayedFlag (s : AtomTable TV) (h : Handle) : Bool :=
  ((s.handleMap h).map Atom.removedByDecay).getD false
def outgoing (s : AtomTable TV) (h : Handle) : List Handle :=
  ((s.bodyOf h).map Body.outgoing).getD []
def incoming (s : AtomTable TV) (h : Handle) : List Handle :=
  ((s.handleMap h).map Atom.incoming).getD []

/-- Overwrite fields of the atom a handle refers to. -/
def modify (s : AtomTable TV) (h : Handle) (f : Atom TV → Atom TV) : AtomTable TV :=
  { s with handleMap := fun g => if g = h then (s.handleMap h).map f else s.handleMap g }

/-! ## The hash set of atoms -/

/-- Whether the hash set already has an element equal to `a`. -/
def holdsEqual (s : AtomTable TV) (a : Atom TV) : Bool :=
  (s.atomSet.any fun g => ((s.handleMap g).map fun b => b.sameAs a).getD false) ||
    s.orphans.any fun b => b.sameAs a

/-- `atomSet.erase(atom)`: the element equal to `a` leaves. -/
def eraseAtom (s : AtomTable TV) (a : Atom TV) : AtomTable TV :=
  { s with
    atomSet := s.atomSet.filter fun g => !((s.handleMap g).map fun b => b.sameAs a).getD false
    orphans := s.orphans.filter fun b => !b.sameAs a }

/-! ## The indices -/

/-- The types `TargetTypeIndex` files a link under, each once. -/
def targetTypes (s : AtomTable TV) (b : Body) : List TypeCode :=
  (b.targets.filterMap s.typeOf).dedup

/-- `insertHandle` on each index, in the order of `add`; the name and sequence
indices keep an existing entry. -/
def insertHandle (s : AtomTable TV) (h : Handle) (a : Atom TV) : AtomTable TV :=
  { s with
    nodeIndex := match a.body with
      | .node name => Function.update s.nodeIndex a.type
          (mapInsert (s.nodeIndex a.type) (cStr name) h)
      | .link _ => s.nodeIndex
    linkIndex := match a.body with
      | .node _ => s.linkIndex
      | .link o => Function.update s.linkIndex a.type (mapInsert (s.linkIndex a.type) o h)
    typeIndex := insertAt s.typeIndex h a.type
    targetTypeIndex := (s.targetTypes a.body).foldl (insertAt · h ·) s.targetTypeIndex
    importanceIndex := insertAt s.importanceIndex h (importanceBin a.attentionValue.sti) }

/-- `removeHandle` on each index, in the order of `extract`. -/
def removeHandle (s : AtomTable TV) (h : Handle) (a : Atom TV) : AtomTable TV :=
  { s with
    nodeIndex := match a.body with
      | .node name => Function.update s.nodeIndex a.type (mapErase (s.nodeIndex a.type) (cStr name))
      | .link _ => s.nodeIndex
    linkIndex := match a.body with
      | .node _ => s.linkIndex
      | .link o => Function.update s.linkIndex a.type (mapErase (s.linkIndex a.type) o)
    typeIndex := removeAt s.typeIndex h a.type
    targetTypeIndex := (s.targetTypes a.body).foldl (removeAt · h ·) s.targetTypeIndex
    importanceIndex := removeAt s.importanceIndex h (importanceBin a.attentionValue.sti) }

/-- `remove(filter)` on each index. -/
def removeFiltered (s : AtomTable TV) (filter : Handle → Bool) : AtomTable TV :=
  { s with
    nodeIndex := fun t n => (s.nodeIndex t n).filter (!filter ·)
    linkIndex := fun t o => (s.linkIndex t o).filter (!filter ·)
    typeIndex := fun t => (s.typeIndex t).filter (!filter ·)
    targetTypeIndex := fun t => (s.targetTypeIndex t).filter (!filter ·)
    importanceIndex := fun b => (s.importanceIndex b).filter (!filter ·) }

/-! ## Incoming sets -/

/-- The new entry becomes the head of the incoming list. -/
def addIncomingHandle (h : Handle) (s : AtomTable TV) (x : Handle) : AtomTable TV :=
  s.modify x fun a => { a with incoming := h :: a.incoming }

/-- Unlinks the first entry for `h`; throws when there is none. -/
def removeIncomingHandle (h : Handle) (s : AtomTable TV) (x : Handle) : Option (AtomTable TV) :=
  match s.handleMap x with
  | none => none
  | some a =>
    if h ∈ a.incoming then some (s.modify x fun a => { a with incoming := a.incoming.erase h })
    else none

/-! ## Adding and changing atoms -/

def merge (ops : TruthOps TV) (s : AtomTable TV) (h : Handle) (tvn : TV) : AtomTable TV :=
  if s.isValidHandle h && !ops.isNullTv tvn then
    s.modify h fun a =>
      { a with truthValue :=
          if ops.isNullTv a.truthValue then tvn else ops.merge a.truthValue tvn }
  else s

/-- The handle of a stored atom with the key of `a`, if the TLB knows it. -/
def getHandle (s : AtomTable TV) (a : Atom TV) : Option Handle :=
  let found := match a.body with
    | .node name => s.nodeIndex a.type (cStr name)
    | .link o => s.linkIndex a.type o
  found.filter s.isValidHandle

/-- `size++` and `atomSet.insert(atom)`. A rejected atom has no handle. -/
def insertAtom (s : AtomTable TV) (a : Atom TV) (valid : Bool) : AtomTable TV :=
  let s := { s with size := s.size + 1 }
  if s.holdsEqual a then s
  else if valid then { s with atomSet := s.brkUuid :: s.atomSet }
  else { s with orphans := a :: s.orphans }

/-- `AtomTable::add` of an atom not yet in a table; `none` when it throws. -/
def add (ops : TruthOps TV) (s : AtomTable TV) (a : Atom TV) (dontDeferIncomingLinks : Bool) :
    AtomTable TV × Option Handle :=
  match s.getHandle a with
  | some h => (s.merge ops h a.truthValue, some h)
  | none =>
    if a.outgoing.all s.isValidHandle then
      let h := s.brkUuid
      let s := s.insertAtom a true
      -- TLB::addAtom
      let s := { s with
        handleMap := fun g => if g = h then some { a with inTable := true } else s.handleMap g
        brkUuid := h + 1 }
      let s := s.insertHandle h a
      let s := if dontDeferIncomingLinks then a.body.targets.foldl (addIncomingHandle h) s else s
      (s, some h)
    else (s.insertAtom a false, none)

/-- `Atom::setAttentionValue`. The bin moves whenever `atomTable` is set. -/
def setAttentionValue (s : AtomTable TV) (h : Handle) (av : AttentionValue) : AtomTable TV :=
  match s.handleMap h with
  | none => s
  | some a =>
    if av = a.attentionValue then s
    else
      let oldBin := importanceBin a.attentionValue.sti
      let newBin := importanceBin av.sti
      let s := s.modify h fun a => { a with attentionValue := av }
      if a.inTable && oldBin != newBin then
        { s with importanceIndex := insertAt (removeAt s.importanceIndex h oldBin) h newBin }
      else s

/-! ## Extracting and removing atoms -/

/-- The tail of `extract`: the atom leaves the hash set, every index and the
incoming sets of its members. -/
def detach (s : AtomTable TV) (h : Handle) (a : Atom TV) : Option (AtomTable TV) :=
  let s := { s with size := s.size - 1 }
  let s := (s.eraseAtom a).removeHandle h a
  a.body.targets.foldlM (removeIncomingHandle h) s

/-- `AtomTable::extract`. The recursion climbs incoming sets, so it is bounded
by the number of handles given out; `none` is an exception or a spent bound. -/
def extract : Nat → AtomTable TV → Handle → Bool → Option (AtomTable TV × List Handle)
  | 0, _, _, _ => none
  | fuel + 1, s, h, recursive =>
    match s.handleMap h with
    | none => some (s, [])
    | some a =>
      if a.markedForRemoval then some (s, [])
      else do
        let s := s.modify h fun a => { a with markedForRemoval := true }
        -- std::set<Handle>: the incoming links once each, in handle order
        let is := if recursive then a.incoming.dedup.mergeSort else []
        let (s, result) ← is.foldlM (fun (acc : AtomTable TV × List Handle) l => do
          let b ← acc.1.handleMap l
          if b.markedForRemoval then some acc
          else
            let (s, extracted) ← extract fuel acc.1 l true
            some (s, extracted ++ acc.2)) (s, [])
        let a ← s.handleMap h
        if a.incoming ≠ [] then
          some (s.modify h fun a => { a with markedForRemoval := false }, result)
        else
          let s ← s.detach h a
          some (s, h :: result)

/-- `TLB::removeAtom` and `delete atom`; the destructor throws on an atom
whose incoming set is not empty. -/
def deleteAtom (s : AtomTable TV) (h : Handle) : Option (AtomTable TV) :=
  match s.handleMap h with
  | none => none
  | some a =>
    if a.incoming = [] then
      some { s with handleMap := fun g => if g = h then none else s.handleMap g }
    else none

/-- The extracted atoms are deleted from the end of the list to its head. -/
def removeExtractedHandles (s : AtomTable TV) (extracted : List Handle) : Option (AtomTable TV) :=
  extracted.reverse.foldlM deleteAtom s

def remove (s : AtomTable TV) (h : Handle) (recursive : Bool) : Option (AtomTable TV) := do
  let (s, extracted) ← extract (s.brkUuid + 1) s h recursive
  s.removeExtractedHandles extracted

/-! ## The decay sweep -/

/-- A bin is a set: each of its handles is visited once. -/
def decayBand (s : AtomTable TV) (band : List Handle) : AtomTable TV :=
  band.dedup.foldl (fun s h =>
    s.modify h fun a => { a with attentionValue := a.attentionValue.decaySTI }) s

/-- One turn of the loop over the bins: bin `b` takes over bin `b + 1`. -/
def shiftBin (s : AtomTable TV) (bin : Nat) : AtomTable TV :=
  let band := s.importanceIndex (bin + 1)
  decayBand { s with importanceIndex := Function.update s.importanceIndex bin band } band

/-- Before the loop: bin 1 decays and joins bin 0. -/
def mergeFirst (s : AtomTable TV) : AtomTable TV :=
  let band := s.importanceIndex 1
  let s := s.decayBand band
  { s with importanceIndex := Function.update s.importanceIndex 0 (s.importanceIndex 0 ∪ band) }

def IMPORTANCE_INDEX_SIZE : Nat := 65536

/-- Every atom moves one bin down; the atoms of bin 0 stay. -/
def decayBins (s : AtomTable TV) : AtomTable TV :=
  let s := (List.range' 1 (IMPORTANCE_INDEX_SIZE - 2)).foldl shiftBin s.mergeFirst
  { s with importanceIndex := Function.update s.importanceIndex (IMPORTANCE_INDEX_SIZE - 1) [] }

/-- `ImportanceIndex::extractOld`, recursive. -/
def extractOld (minSTI : Int) : Nat → AtomTable TV → Handle → Option (AtomTable TV × List Handle)
  | 0, _, _ => none
  | fuel + 1, s, h => do
    let a ← s.handleMap h
    if a.removedByDecay then some (s, [])
    else
      let s := s.modify h fun a => { a with removedByDecay := true }
      let (s, result) ← a.incoming.foldlM (fun (acc : AtomTable TV × List Handle) l => do
        let b ← acc.1.handleMap l
        if b.isOld minSTI then
          let (s, extracted) ← extractOld minSTI fuel acc.1 l
          some (s, extracted ++ acc.2)
        else some acc) (s, [])
      if a.incoming.any fun l => !s.decayedFlag l then
        some (s.modify h fun a => { a with removedByDecay := false }, result)
      else some (s, h :: result)

/-- The scan of the bins up to the one of `MIN_STI`. -/
def scanOld (minSTI : Int) (s : AtomTable TV) : Option (AtomTable TV × List Handle) :=
  ((List.range (importanceBin minSTI + 1)).flatMap s.importanceIndex).foldlM
    (fun (acc : AtomTable TV × List Handle) h => do
      let a ← acc.1.handleMap h
      if a.isOld minSTI then
        let (s, extracted) ← extractOld minSTI (s.brkUuid + 1) acc.1 h
        some (s, extracted ++ acc.2)
      else some acc) (s, [])

/-- One turn of the loop of `clearIndexesAndRemoveAtoms`. -/
def forget (s : AtomTable TV) (h : Handle) : Option (AtomTable TV) := do
  let a ← s.handleMap h
  let s := { s.eraseAtom a with size := s.size - 1 }
  (a.body.targets.filter fun x => (s.handleMap x).isSome).foldlM (removeIncomingHandle h) s

def clearIndexesAndRemoveAtoms (s : AtomTable TV) (extracted : List Handle) :
    Option (AtomTable TV) := do
  let s ← extracted.foldlM forget (s.removeFiltered s.decayedFlag)
  s.removeExtractedHandles extracted

def decayShortTermImportance (s : AtomTable TV) (minSTI : Int) : Option (AtomTable TV) := do
  let (s, oldAtoms) ← scanOld minSTI s.decayBins
  if oldAtoms = [] then some s else s.clearIndexesAndRemoveAtoms oldAtoms

/-! ## Lookups -/

def getHandleByName (s : AtomTable TV) (name : String) (t : TypeCode) : Option Handle :=
  s.nodeIndex t (cStr name)

def getHandleBySeq (s : AtomTable TV) (t : TypeCode) (seq : List Handle) : Option Handle :=
  s.linkIndex t seq

/-- `TypeIndex::getHandleSet`: the bins of the type and, optionally, of the
types that inherit from it. -/
def handlesOfType (cs : ClassServer) (idx : TypeCode → List Handle) (t : TypeCode)
    (subclass : Bool) : List Handle :=
  (List.range (cs.nTypes + 1)).flatMap fun c =>
    if c = t || (subclass && cs.isA c t) then idx c else []

/-- `HandleEntry::filterSet` by type. -/
def filterByType (cs : ClassServer) (s : AtomTable TV) (set : List Handle) (t : TypeCode)
    (subclass : Bool) : List Handle :=
  if t = ATOM && subclass then set
  else set.filter fun h => ((s.typeOf h).map fun c => if subclass then cs.isA c t else c == t).getD false

def getHandleSet (cs : ClassServer) (s : AtomTable TV) (t : TypeCode) (subclass : Bool) :
    List Handle :=
  handlesOfType cs s.typeIndex t subclass

def getHandleSetByTarget (cs : ClassServer) (s : AtomTable TV) (t target : TypeCode)
    (subclass targetSubclass : Bool) : List Handle :=
  filterByType cs s (handlesOfType cs s.targetTypeIndex target targetSubclass) t subclass

def filterBySTI (s : AtomTable TV) (set : List Handle) (lower upper : Int) : List Handle :=
  set.filter fun h =>
    ((s.avOf h).map fun av => decide (lower ≤ av.sti) && decide (av.sti ≤ upper)).getD false

/-- `ImportanceIndex::getHandleSet`: the end bins filtered, the bins strictly
between them whole. -/
def getHandleSetBySTI (s : AtomTable TV) (lower upper : Int) : List Handle :=
  let lowerBin := importanceBin lower
  let upperBin := importanceBin upper
  let low := filterBySTI s (s.importanceIndex lowerBin) lower upper
  if lowerBin = upperBin then low
  else
    let inner := (List.range' (lowerBin + 1) (upperBin - (lowerBin + 1))).flatMap s.importanceIndex
    filterBySTI s (s.importanceIndex upperBin) lower upper ++ (inner ++ low)

end AtomTable

end OpenCog
