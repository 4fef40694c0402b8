import OpenCog.AtomSpace.Linkage

/-! The atom space: an atom table, the funds attention is paid from, and the slots
connected to the signals of the table. No backing store is registered. -/
namespace OpenCog

variable {TV σ : Type}

/-- `sti_t` and `lti_t`. -/
abbrev Short := { n : Int // -32768 ≤ n ∧ n ≤ 32767 }

namespace AttentionValue

def withSTI (av : AttentionValue) (sti : Short) : AttentionValue :=
  { av with sti := sti.val, sti_ge := sti.property.1, sti_le := sti.property.2 }

def withLTI (av : AttentionValue) (lti : Short) : AttentionValue :=
  { av with lti := lti.val, lti_ge := lti.property.1, lti_le := lti.property.2 }

def withVLTI (av : AttentionValue) (vlti : Fin 65536) : AttentionValue :=
  { av with vlti := vlti.val, vlti_lt := vlti.isLt }

def DEFAULTATOMSTI : Int := 0
def DEFAULTATOMLTI : Int := 0

end AttentionValue

/-- What the slots of the add and the remove signal do to the servers behind them. They
read the table; the flag is false when a slot throws. -/
structure Slots (TV σ : Type) where
  atomAdded : AtomTable TV → σ → Handle → σ × Bool
  atomRemoved : AtomTable TV → σ → Handle → σ × Bool

structure AtomSpace (TV σ : Type) where
  atomTable : AtomTable TV
  servers : σ
  fundsSTI : Int
  fundsLTI : Int

namespace AtomSpace

variable (cs : ClassServer) (ops : TruthOps TV) (slots : Slots TV σ)

/-! ## Adding -/

/-- The default values leave the funds before the atom is made. -/
def payDefault (s : AtomSpace TV σ) : AtomSpace TV σ :=
  { s with
    fundsSTI := s.fundsSTI - AttentionValue.DEFAULTATOMSTI
    fundsLTI := s.fundsLTI - AttentionValue.DEFAULTATOMLTI }

/-- `atomTable.add(new ..)`; the signal is emitted for a new atom only. `none` where
something throws. -/
def addAtom (s : AtomSpace TV σ) : Option (Atom TV) → AtomSpace TV σ × Option Handle
  | none => (s, none)
  | some a =>
    let added := s.atomTable.add ops a true
    match s.atomTable.getHandle a, added.2 with
    | none, some h =>
      let slot := slots.atomAdded added.1 s.servers h
      ({ s with atomTable := added.1, servers := slot.1 }, if slot.2 then some h else none)
    | _, result => ({ s with atomTable := added.1 }, result)

def addNode (s : AtomSpace TV σ) (t : TypeCode) (name : String) (tvn : TV) :
    AtomSpace TV σ × Option Handle :=
  match (s.atomTable.getHandleByName name t).filter s.atomTable.isValidHandle with
  | some h => ({ s with atomTable := s.atomTable.merge ops h tvn }, some h)
  | none => s.payDefault.addAtom ops slots (Atom.newNode cs ops t name tvn)

/-- The sequence is looked up as it is given; the constructor sorts the members of an
unordered link. -/
def addLink (s : AtomSpace TV σ) (t : TypeCode) (outgoing : List Handle) (tvn : TV) :
    AtomSpace TV σ × Option Handle :=
  match (s.atomTable.getHandleBySeq t outgoing).filter s.atomTable.isValidHandle with
  | some h => ({ s with atomTable := s.atomTable.merge ops h tvn }, some h)
  | none => s.payDefault.addAtom ops slots (Atom.newLink cs ops t outgoing tvn)

/-! ## Attention values -/

/-- `none` for a handle without an atom, a null pointer. -/
def setAV (s : AtomSpace TV σ) (h : Handle) (av : AttentionValue) : Option (AtomSpace TV σ) := do
  let oldAV ← s.atomTable.avOf h
  some { s with
    fundsSTI := s.fundsSTI + (oldAV.sti - av.sti)
    fundsLTI := s.fundsLTI + (oldAV.lti - av.lti)
    atomTable := s.atomTable.setAttentionValue h av }

def setSTI (s : AtomSpace TV σ) (h : Handle) (stiValue : Short) : Option (AtomSpace TV σ) := do
  let currentAv ← s.atomTable.avOf h
  s.setAV h (currentAv.withSTI stiValue)

def setLTI (s : AtomSpace TV σ) (h : Handle) (ltiValue : Short) : Option (AtomSpace TV σ) := do
  let currentAv ← s.atomTable.avOf h
  s.setAV h (currentAv.withLTI ltiValue)

def setVLTI (s : AtomSpace TV σ) (h : Handle) (vltiValue : Fin 65536) :
    Option (AtomSpace TV σ) := do
  let currentAv ← s.atomTable.avOf h
  s.setAV h (currentAv.withVLTI vltiValue)

/-! ## Removing -/

/-- `getSTI(h)` and `getLTI(h)` back to the funds. -/
def refund (s : AtomSpace TV σ) (h : Handle) : Option (AtomSpace TV σ) := do
  let av ← s.atomTable.avOf h
  some { s with fundsSTI := s.fundsSTI + av.sti, fundsLTI := s.fundsLTI + av.lti }

/-- `AtomTable::removeExtractedHandles`: the signal goes out before each deletion, and a
slot that throws leaves the rest of the records behind. The flag is false then. -/
def removeExtractedHandles : List Handle → AtomSpace TV σ → Option (AtomSpace TV σ × Bool)
  | [], s => some (s, true)
  | h :: hs, s =>
    let slot := slots.atomRemoved s.atomTable s.servers h
    if slot.2 then do
      let table ← s.atomTable.deleteAtom h
      removeExtractedHandles hs { s with atomTable := table, servers := slot.1 }
    else some ({ s with servers := slot.1 }, false)

/-- The result is absent when a slot throws; `none` is a call that follows a null
pointer or throws inside the table. -/
def removeAtom (s : AtomSpace TV σ) (h : Handle) (recursive : Bool) :
    Option (AtomSpace TV σ × Option Bool) := do
  let (table, extracted) ← AtomTable.extract (s.atomTable.brkUuid + 1) s.atomTable h recursive
  if extracted = [] then some ({ s with atomTable := table }, some false)
  else
    let s ← extracted.foldlM refund { s with atomTable := table }
    let (s, returned) ← removeExtractedHandles slots extracted.reverse s
    some (s, if returned then some true else none)

/-- `minSTI` is `MIN_STI` of the configuration. The flag is false when a slot throws. -/
def decayShortTermImportance (s : AtomSpace TV σ) (minSTI : Int) :
    Option (AtomSpace TV σ × Bool) := do
  let (table, oldAtoms) ← AtomTable.scanOld minSTI s.atomTable.decayBins
  if oldAtoms = [] then some ({ s with atomTable := table }, true)
  else
    -- AtomTable::clearIndexesAndRemoveAtoms
    let table ← oldAtoms.foldlM AtomTable.forget (table.removeFiltered table.decayedFlag)
    removeExtractedHandles slots oldAtoms.reverse { s with atomTable := table }

/-- The flag is false when a call of `removeAtom` throws. -/
def removeAll : List Handle → AtomSpace TV σ → Option (AtomSpace TV σ × Bool)
  | [], s => some (s, true)
  | h :: hs, s => do
    let (s, result) ← s.removeAtom slots h true
    if result.isSome then removeAll hs s else some (s, false)

/-- The flag is false when something throws or the assertion at the end fails. -/
def clear (s : AtomSpace TV σ) : Option (AtomSpace TV σ × Bool) := do
  let (s, returned) ← removeAll slots (AtomTable.getHandleSet cs s.atomTable ATOM true) s
  some (s, returned && (AtomTable.getHandleSet cs s.atomTable ATOM true).isEmpty)

end AtomSpace

end OpenCog
