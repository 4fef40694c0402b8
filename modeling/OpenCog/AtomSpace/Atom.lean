import OpenCog.AtomSpace.ClassServer

/-! Atoms as the constructors of `Node` and `Link` build them. -/
namespace OpenCog

/-- `sti_t` and `lti_t` are 16-bit shorts, `vlti_t` an unsigned short. -/
structure AttentionValue where
  sti : Int
  lti : Int
  vlti : Nat
  sti_ge : -32768 ≤ sti := by decide
  sti_le : sti ≤ 32767 := by decide
  lti_ge : -32768 ≤ lti := by decide
  lti_le : lti ≤ 32767 := by decide
  vlti_lt : vlti < 65536 := by decide
  deriving DecidableEq

namespace AttentionValue

def default : AttentionValue := { sti := 0, lti := 0, vlti := 0 }

/-- Decrement, saturating at the least short. -/
def decaySTI (av : AttentionValue) : AttentionValue :=
  if h : av.sti = -32768 then av
  else { av with
    sti := av.sti - 1
    sti_ge := by have := av.sti_ge; omega
    sti_le := by have := av.sti_le; omega }

end AttentionValue

/-- The importance bin of a short: STI + 32768, in `0..65535`. -/
def importanceBin (sti : Int) : Nat := (sti + 32768).toNat

/-- Truth values enter the table only through `isNullTv`, `merge` and the
default that `Atom::init` puts in the place of a null value. -/
structure TruthOps (TV : Type) where
  isNullTv : TV → Bool
  merge : TV → TV → TV
  defaultTv : TV

inductive Body where
  | node (name : String)
  | link (outgoing : List Handle)
  deriving DecidableEq

structure Atom (TV : Type) where
  type : TypeCode
  body : Body
  incoming : List Handle
  markedForRemoval : Bool
  removedByDecay : Bool
  /-- Whether `atomTable` is set: `add` sets it and nothing clears it. -/
  inTable : Bool
  attentionValue : AttentionValue
  truthValue : TV

namespace Body

def outgoing : Body → List Handle
  | node _ => []
  | link o => o

/-- `getArity` returns the size of the vector as an unsigned short. -/
def arity (b : Body) : Nat := b.outgoing.length % 65536

/-- The members a loop `for (i = 0; i < getArity(); i++)` visits. -/
def targets (b : Body) : List Handle := b.outgoing.take b.arity

theorem targets_of_lt {b : Body} (h : b.outgoing.length < 65536) : b.targets = b.outgoing := by
  simp [targets, arity, Nat.mod_eq_of_lt h]

/-- `Node::operator==` and `Link::operator==` after the type test. -/
def sameAs : Body → Body → Bool
  | node n, node m => n == m
  | link o, link p => (link o).arity == (link p).arity && (link o).targets == (link p).targets
  | _, _ => false

end Body

variable {TV : Type}

namespace Atom

def outgoing (a : Atom TV) : List Handle := a.body.outgoing

/-- Structural equality as `atom_ptr_equal_to` decides it. -/
def sameAs (a b : Atom TV) : Bool := a.type == b.type && a.body.sameAs b.body

def isOld (a : Atom TV) (threshold : Int) : Bool :=
  decide (a.attentionValue.sti < threshold) && decide (a.attentionValue.lti < 1)

/-- `Atom::init`. -/
def init (ops : TruthOps TV) (t : TypeCode) (b : Body) (tv : TV) : Atom TV where
  type := t
  body := b
  incoming := []
  markedForRemoval := false
  removedByDecay := false
  inTable := false
  attentionValue := .default
  truthValue := if ops.isNullTv tv then ops.defaultTv else tv

/-- The `Node` constructor; it throws on a type that is not a node type. -/
def newNode (cs : ClassServer) (ops : TruthOps TV) (t : TypeCode) (name : String) (tv : TV) :
    Option (Atom TV) :=
  if cs.isA t NODE then some (init ops t (.node name) tv) else none

/-- Unordered links keep their members sorted by handle. -/
def setOutgoingSet (cs : ClassServer) (t : TypeCode) (outgoing : List Handle) : List Handle :=
  if cs.isA t UNORDERED_LINK then outgoing.mergeSort else outgoing

/-- The `Link` constructor; it throws on a type that is not a link type. -/
def newLink (cs : ClassServer) (ops : TruthOps TV) (t : TypeCode) (outgoing : List Handle)
    (tv : TV) : Option (Atom TV) :=
  if cs.isA t LINK then some (init ops t (.link (setOutgoingSet cs t outgoing)) tv) else none

theorem mem_setOutgoingSet {cs : ClassServer} {t : TypeCode} {o : List Handle} {x : Handle} :
    x ∈ setOutgoingSet cs t o ↔ x ∈ o := by
  unfold setOutgoingSet
  split
  · exact List.mem_mergeSort
  · exact Iff.rfl

theorem length_setOutgoingSet (cs : ClassServer) (t : TypeCode) (o : List Handle) :
    (setOutgoingSet cs t o).length = o.length := by
  unfold setOutgoingSet
  split
  · exact List.length_mergeSort o
  · rfl

end Atom

theorem eq_of_perm_sorted {o o' : List Handle} (hp : o.Perm o') (ho : o.Pairwise (· ≤ ·))
    (ho' : o'.Pairwise (· ≤ ·)) : o = o' :=
  hp.eq_of_pairwise (fun _ _ _ _ h h' => Nat.le_antisymm h h') ho ho'

theorem sorted_mergeSort (o : List Handle) : o.mergeSort.Pairwise (· ≤ ·) :=
  List.pairwise_mergeSort' (· ≤ ·) o

/-- The C string of a name ends at its first NUL. -/
def cStr (name : String) : String := String.ofList (name.toList.takeWhile (· ≠ '\x00'))

def NoNul (name : String) : Prop := '\x00' ∉ name.toList

instance (name : String) : Decidable (NoNul name) := inferInstanceAs (Decidable (¬ _))

theorem cStr_of_noNul {name : String} (h : NoNul name) : cStr name = name := by
  have hall : name.toList.takeWhile (· ≠ '\x00') = name.toList := by
    apply List.takeWhile_eq_self_iff.mpr
    intro c hc
    have : c ≠ '\x00' := fun e => h (e ▸ hc)
    simpa using this
  unfold cStr
  rw [hall, String.ofList_toList]

end OpenCog
