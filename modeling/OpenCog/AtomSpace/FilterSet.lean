import OpenCog.AtomSpace.Cursors
import OpenCog.AtomSpace.MultiTarget
import OpenCog.AtomSpace.NormalForm
import OpenCog.AtomSpace.TruthValue
import OpenCog.Lib.Unlinking

/-! The overloads of `filterSet`. All but two are the same two loops over the list, with a test of
their own. A null pointer that is read, a cast to the wrong class and an exception have no
result. -/
namespace OpenCog

open Unlinking

/-- The class that a type is of. -/
def Body.kind : Body → TypeCode
  | node _ => NODE
  | link _ => LINK

/-- The records that handles stand for. Their constructors accept types of their own class only,
and the root of the hierarchy is in neither class. -/
structure Tlb (cs : ClassServer) (TV : Type) where
  table : AtomTable TV
  typed : ∀ h a, table.handleMap h = some a → cs.isA a.type a.body.kind = true
  concrete : ∀ h a, table.handleMap h = some a → a.type ≠ ATOM

namespace Tlb

variable {cs : ClassServer} {TV : Type} (s : Tlb cs TV)

def getAtom (h : Handle) : Option (Atom TV) := s.table.handleMap h

/-- `dynamic_cast` to a link, as its outgoing set. -/
def toLink (h : Handle) : Option (List Handle) :=
  match (s.getAtom h).map Atom.body with
  | some (.link o) => some o
  | _ => none

/-- It throws outside the arity; a member may have no record. -/
def getOutgoingAtom (o : List Handle) (pos : Nat) : Option (Option (Atom TV)) :=
  if pos < (Body.link o).arity then some (o[pos]?.bind s.getAtom) else none

def isNullVersionHandle (vh : VersionHandle) : Bool := !s.table.isValidHandle vh.substantive

end Tlb

/-! ## The records of a run -/

namespace AtomTable

variable {TV : Type} {cs : ClassServer} {ops : TruthOps TV} {s s' : AtomTable TV}

def Typed (cs : ClassServer) (s : AtomTable TV) : Prop :=
  ∀ h t b, s.key h = some (t, b) → cs.isA t b.kind = true

theorem Typed.thinned (hs : Typed cs s) (e : Thinned s s') : Typed cs s' := by
  intro h t b hk
  rw [e.key] at hk
  exact hs h t b hk

theorem Typed.deleteAtom (hs : Typed cs s) {h : Handle} (he : s.deleteAtom h = some s') :
    Typed cs s' := by
  unfold AtomTable.deleteAtom at he
  cases ha : s.handleMap h with
  | none => simp [ha] at he
  | some a =>
    simp only [ha] at he
    split at he
    · obtain rfl := Option.some.inj he
      intro g t b hg
      have e : g ≠ h := fun e => by simp [key, e] at hg
      exact hs g t b (by simpa [key, e] using hg)
    · cases he

theorem Typed.deleteAll (hs : Typed cs s) (hs' : List Handle)
    (he : hs'.foldlM AtomTable.deleteAtom s = some s') : Typed cs s' :=
  Fold.foldlM_keeps (Typed cs) (fun _ _ _ ht hstep => ht.deleteAtom hstep) hs' hs he

theorem Typed.addNew (hs : Typed cs s) {a : Option (Atom TV)}
    (ha : ∀ x, a = some x → cs.isA x.type x.body.kind = true)
    (he : s.addNew ops a = some s') : Typed cs s' := by
  obtain ⟨x, hx, he⟩ := Option.bind_eq_some_iff.mp he
  simp only at he
  split at he
  · obtain rfl := Option.some.inj he
    obtain ⟨-, -, -, hthin, -⟩ | ⟨-, -, hthin⟩ | ⟨-, -, -, hkey, -⟩ := add_cases ops s x
    · exact hs.thinned hthin
    · exact hs.thinned hthin
    · intro h t b hk
      rw [hkey] at hk
      split at hk
      · obtain ⟨rfl, rfl⟩ := Prod.mk.inj (Option.some.inj hk)
        exact ha x hx
      · exact hs h t b hk
  · cases he

/-- The constructors throw on a type of another class. -/
theorem typed_apply {op : TableOp TV} (hf : Filed cs s) (hs : Typed cs s)
    (he : s.apply cs ops op = some s') : Typed cs s' := by
  cases op with
  | addNode t name tv =>
    refine hs.addNew (fun x hx => ?_) he
    unfold Atom.newNode at hx
    split at hx
    · next ht =>
      obtain rfl := Option.some.inj hx
      exact ht
    · cases hx
  | addLink t outgoing tv =>
    refine hs.addNew (fun x hx => ?_) he
    unfold Atom.newLink at hx
    split at hx
    · next ht =>
      obtain rfl := Option.some.inj hx
      exact ht
    · cases hx
  | setAttentionValue h av =>
    exact Option.some.inj he ▸ hs.thinned (thinned_setAttentionValue s h av)
  | extract h recursive =>
    obtain ⟨⟨t, res⟩, hx, rfl⟩ := Option.map_eq_some_iff.mp he
    exact hs.thinned (thinned_extract _ hf hx).1
  | remove h recursive =>
    obtain ⟨⟨t, res⟩, hx, he⟩ := Option.bind_eq_some_iff.mp he
    exact (hs.thinned (thinned_extract _ hf hx).1).deleteAll _ he
  | decay minSTI =>
    obtain ⟨⟨t, old⟩, hscan, he⟩ := Option.bind_eq_some_iff.mp he
    have hflag := flagging_scanOld minSTI hscan
    have ht := hs.thinned ((thinned_decayBins s).trans hflag.thinned)
    simp only at he
    split at he
    · exact Option.some.inj he ▸ ht
    · obtain ⟨u, hforget, he⟩ := Option.bind_eq_some_iff.mp he
      have hthin := (thinned_forgetAll (fun g hg => (hflag.flagged g hg).1) hforget).1
      exact (ht.thinned hthin).deleteAll _ he

theorem Reachable.typed {ok : AtomTable TV → TableOp TV → Prop} (r : Reachable cs ops ok s) :
    Typed cs s := by
  induction r with
  | empty => intro h t b hk; cases hk
  | step op r _ e ih => exact typed_apply r.filed ih e

end AtomTable

/-- Every run of the table gives records that lookups can filter. -/
def Tlb.ofReachable {TV : Type} {cs : ClassServer} {ops : TruthOps TV}
    {ok : AtomTable TV → TableOp TV → Prop} {s : AtomTable TV}
    (r : AtomTable.Reachable cs ops ok s)
    (hroot : cs.isA ATOM NODE = false ∧ cs.isA ATOM LINK = false) : Tlb cs TV where
  table := s
  typed _ a ha := r.typed _ a.type a.body (AtomTable.key_of_some ha)
  concrete h a ha := by
    have hkind := r.typed h a.type a.body (AtomTable.key_of_some ha)
    intro htype
    rw [htype] at hkind
    cases hb : a.body with
    | node name =>
      rw [hb] at hkind
      exact Bool.eq_false_iff.mp hroot.1 hkind
    | link o =>
      rw [hb] at hkind
      exact Bool.eq_false_iff.mp hroot.2 hkind

namespace HandleEntry

variable {cs : ClassServer}

section Criteria
variable {TV : Type}

/-- `getName` after a cast to a node. -/
def nodeName (a : Atom TV) : Option String :=
  match a.body with
  | .node name => some name
  | .link _ => none

/-- A name may be a null pointer. -/
def noName (name : Option String) : Bool := cStr (name.getD "") == ""

/-- The criteria of the filters by name are checked one after the other. -/
def nameTest (cs : ClassServer) (name : Option String) (a : Atom TV) : Option Bool :=
  if !noName name && cs.isA a.type LINK then some false
  else if noName name && cs.isA a.type NODE then (nodeName a).map (· == "")
  else if noName name then some true
  else (nodeName a).map fun itsName => cStr itsName == cStr (name.getD "")

/-- The same type or, optionally, a subclass. -/
def ofType (cs : ClassServer) (type : TypeCode) (subclass : Bool) (a : Atom TV) : Bool :=
  if subclass then cs.isA a.type type else a.type == type

def hasVersion {R : Type} [Scalar R] (vh : VersionHandle) (a : Atom (Option (TruthValue R))) :
    Bool :=
  (a.truthValue.bind fun tv => tv.findVersion vh).isSome

end Criteria

/-! ## The overloads -/

section Overloads
variable {TV : Type} (s : Tlb cs TV)

/-- The second loop tests the entry before the one that it unlinks. -/
def filterSetByDeleted (set : List Handle) (deleted : Bool) : Option (List Handle) :=
  filterCurrent (fun h => (s.getAtom h).map fun a => a.markedForRemoval == deleted) set

/-- What is no link has arity 0. -/
def arityOf (h : Handle) : Nat := ((s.toLink h).map fun o => (Body.link o).arity).getD 0

def filterSetByArity (set : List Handle) (arity : Nat) : Option (List Handle) :=
  filterNext (fun h => some (arityOf s h == arity)) set

def filterSetByName (set : List Handle) (name : Option String) : Option (List Handle) :=
  filterNext (fun h => (s.getAtom h).bind (nameTest cs name)) set

def filterSetByType (set : List Handle) (type : TypeCode) (subclass : Bool) :
    Option (List Handle) :=
  if type = ATOM ∧ subclass = true then some set
  else filterNext (fun h => (s.getAtom h).map (ofType cs type subclass)) set

def filterSetByNameType (set : List Handle) (name : Option String) (type : TypeCode)
    (subclass : Bool) : Option (List Handle) :=
  (filterSetByType s set type subclass).bind fun set => filterSetByName s set name

/-- The intersection with a clone of the incoming set. The arity is not used. -/
def filterSetByIncoming (set : List Handle) (handle : Handle) (_arity : Nat) :
    Option (List Handle) :=
  (s.getAtom handle).bind fun a => intersection [set, a.incoming]

/-- What is no link stays. -/
def filterSetByHandleAt (set : List Handle) (handle : Handle) (position arity : Nat) :
    Option (List Handle) :=
  filterNext (fun h =>
    match s.toLink h with
    | none => some true
    | some o => some ((Body.link o).arity == arity && decide (position < arity) &&
        o[position]? == some handle)) set

/-- The members are looked at up to the first that fits; a type with code 0 does not. -/
def filterSetByTypeIn (set : List Handle) (type : TypeCode) (subclass : Bool) (arity : Nat) :
    Option (List Handle) :=
  filterNext (fun h => (s.toLink h).bind fun o =>
    if (Body.link o).arity ≠ arity then some false
    else anyOf (fun x => (s.getAtom x).map fun target =>
      target.type != 0 && ofType cs type subclass target) (Body.link o).targets) set

def filterSetByTypeAt (set : List Handle) (type : TypeCode) (subclass : Bool)
    (position arity : Nat) : Option (List Handle) :=
  filterNext (fun h => (s.toLink h).bind fun o =>
    if (Body.link o).arity ≠ arity then some false
    else (s.getOutgoingAtom o position).bind fun target => target.map (ofType cs type subclass)) set

/-- A member without a record does not fit. -/
def filterSetByNameAt (set : List Handle) (name : Option String) (position arity : Nat) :
    Option (List Handle) :=
  filterNext (fun h => (s.toLink h).bind fun o =>
    if (Body.link o).arity ≠ arity then some false
    else (s.getOutgoingAtom o position).bind fun
      | none => some false
      | some itAtom => nameTest cs name itAtom) set

def filterSetByNameTypeAt (set : List Handle) (name : Option String) (type : TypeCode)
    (subclass : Bool) (position arity : Nat) : Option (List Handle) :=
  (filterSetByTypeAt s set type subclass position arity).bind fun set =>
    filterSetByNameAt s set name position arity

def filterSetBySTI (set : List Handle) (lowerBound upperBound : Int) : Option (List Handle) :=
  filterNext (fun h => (s.getAtom h).map fun a =>
    !(decide (a.attentionValue.sti < lowerBound) ||
      decide (a.attentionValue.sti > upperBound))) set

end Overloads

section Versions
variable {R : Type} [Scalar R] (s : Tlb cs (Option (TruthValue R)))

/-- A null version handle filters nothing. -/
def filterSetByVersion (set : List Handle) (vh : VersionHandle) : Option (List Handle) :=
  if s.isNullVersionHandle vh then some set
  else filterNext (fun h => (s.getAtom h).map (hasVersion vh)) set

/-- `matchesFilterCriteria`: the targets up to the first that has the version and fits. -/
def matchesFilterCriteria (vh : VersionHandle) (fits : Atom (Option (TruthValue R)) → Option Bool)
    (h : Handle) : Option Bool :=
  anyOf (fun x => (s.getAtom x).bind fun target =>
    if hasVersion vh target then fits target else some false)
    (((s.toLink h).map fun o => (Body.link o).targets).getD [])

def filterSetByTargetType (set : List Handle) (targetType : TypeCode) (targetSubclasses : Bool)
    (vh : VersionHandle) : Option (List Handle) :=
  if s.isNullVersionHandle vh then some set
  else filterNext (matchesFilterCriteria s vh fun target =>
    some (ofType cs targetType targetSubclasses target)) set

/-- A target of the type is cast to a node, whatever it is. -/
def filterSetByTargetName (set : List Handle) (targetName : Option String)
    (targetType : TypeCode) (vh : VersionHandle) : Option (List Handle) :=
  if s.isNullVersionHandle vh then some set
  else filterNext (matchesFilterCriteria s vh fun target =>
    if targetType = target.type then
      targetName.bind fun name => (nodeName target).map fun n => cStr name == cStr n
    else some false) set

end Versions

/-! ## What the overloads are to keep -/

/-- The arguments besides the list. -/
inductive Filter where
  | deleted (deleted : Bool)
  | arity (arity : Nat)
  | name (name : Option String)
  | type (type : TypeCode) (subclass : Bool)
  | nameType (name : Option String) (type : TypeCode) (subclass : Bool)
  | incoming (handle : Handle) (arity : Nat)
  | handleAt (handle : Handle) (position arity : Nat)
  | typeIn (type : TypeCode) (subclass : Bool) (arity : Nat)
  | typeAt (type : TypeCode) (subclass : Bool) (position arity : Nat)
  | nameTypeAt (name : Option String) (type : TypeCode) (subclass : Bool) (position arity : Nat)
  | nameAt (name : Option String) (position arity : Nat)
  | sti (lowerBound upperBound : Int)
  | version (vh : VersionHandle)
  | targetType (type : TypeCode) (subclass : Bool) (vh : VersionHandle)
  | targetName (name : Option String) (type : TypeCode) (vh : VersionHandle)

/-- An empty name is that of links as well. -/
def named {TV : Type} (name : Option String) (a : Atom TV) : Bool :=
  match a.body with
  | .node itsName =>
    if noName name then itsName == "" else cStr itsName == cStr (name.getD "")
  | .link _ => noName name

/-- The name of a node, as a C string. -/
def sameName {TV : Type} (name : Option String) (a : Atom TV) : Bool :=
  name.any fun name => (nodeName a).any fun n => cStr name == cStr n

section Criteria
variable {TV : Type} (s : Tlb cs TV)

/-- The atom has a property. -/
def atomIs (p : Atom TV → Bool) (h : Handle) : Bool := (s.getAtom h).any p

/-- It is a link of this arity with a property. -/
def linkIs (arity : Nat) (p : List Handle → Bool) (h : Handle) : Bool :=
  (s.toLink h).any fun o => (Body.link o).arity == arity && p o

/-- The member at a position has a property. -/
def memberIs (position : Nat) (p : Atom TV → Bool) (o : List Handle) : Bool :=
  o[position]?.any (atomIs s p)

/-- One of the members has a property. -/
def someMemberIs (p : Atom TV → Bool) (o : List Handle) : Bool :=
  (Body.link o).targets.any (atomIs s p)

end Criteria

namespace Filter

variable {R : Type} [Scalar R] (s : Tlb cs (Option (TruthValue R)))

def run (set : List Handle) : Filter → Option (List Handle)
  | .deleted flag => filterSetByDeleted s set flag
  | .arity n => filterSetByArity s set n
  | .name n => filterSetByName s set n
  | .type t subclass => filterSetByType s set t subclass
  | .nameType n t subclass => filterSetByNameType s set n t subclass
  | .incoming handle n => filterSetByIncoming s set handle n
  | .handleAt handle position n => filterSetByHandleAt s set handle position n
  | .typeIn t subclass n => filterSetByTypeIn s set t subclass n
  | .typeAt t subclass position n => filterSetByTypeAt s set t subclass position n
  | .nameTypeAt m t subclass position n => filterSetByNameTypeAt s set m t subclass position n
  | .nameAt m position n => filterSetByNameAt s set m position n
  | .sti lowerBound upperBound => filterSetBySTI s set lowerBound upperBound
  | .version vh => filterSetByVersion s set vh
  | .targetType t subclass vh => filterSetByTargetType s set t subclass vh
  | .targetName n t vh => filterSetByTargetName s set n t vh

/-- The criteria as they are documented. -/
def satisfies : Filter → Handle → Bool
  | .deleted flag => atomIs s fun a => a.markedForRemoval == flag
  | .arity n => fun h => arityOf s h == n
  | .name n => atomIs s (named n)
  | .type t subclass => atomIs s (ofType cs t subclass)
  | .nameType n t subclass => atomIs s fun a => ofType cs t subclass a && named n a
  | .incoming handle _ => fun h => decide (h ∈ s.table.incoming handle)
  | .handleAt handle position n =>
    linkIs s n fun o => decide (position < n) && o[position]? == some handle
  | .typeIn t subclass n => linkIs s n (someMemberIs s (ofType cs t subclass))
  | .typeAt t subclass position n => linkIs s n (memberIs s position (ofType cs t subclass))
  | .nameTypeAt m t subclass position n =>
    linkIs s n (memberIs s position fun a => ofType cs t subclass a && named m a)
  | .nameAt m position n => linkIs s n (memberIs s position (named m))
  | .sti lowerBound upperBound =>
    atomIs s fun a => decide (lowerBound ≤ a.attentionValue.sti) &&
      decide (a.attentionValue.sti ≤ upperBound)
  | .version vh => fun h => s.isNullVersionHandle vh || atomIs s (hasVersion vh) h
  | .targetType t subclass vh => fun h => s.isNullVersionHandle vh ||
      (s.toLink h).any (someMemberIs s fun a => hasVersion vh a && ofType cs t subclass a)
  | .targetName n t vh => fun h => s.isNullVersionHandle vh ||
      (s.toLink h).any (someMemberIs s fun a => hasVersion vh a && (a.type == t && sameName n a))

/-! ## When they keep it -/

/-- What the test of an entry reads is there. -/
def Readable (h : Handle) : Filter → Prop
  | .arity _ | .incoming .. => True
  | .deleted _ | .name _ | .type .. | .nameType .. | .sti .. => (s.getAtom h).isSome
  | .handleAt .. => (s.toLink h).isSome
  | .typeIn t subclass n => ∃ o, s.toLink h = some o ∧ ((Body.link o).arity = n →
      ∀ x ∈ (Body.link o).targets.takeWhile fun x => !atomIs s (ofType cs t subclass) x,
        (s.getAtom x).isSome)
  | .typeAt _ _ position n | .nameTypeAt _ _ _ position n =>
    ∃ o, s.toLink h = some o ∧ ((Body.link o).arity = n →
      position < n ∧ (o[position]?.bind s.getAtom).isSome)
  | .nameAt _ position n => ∃ o, s.toLink h = some o ∧ ((Body.link o).arity = n → position < n)
  | .version vh => s.isNullVersionHandle vh ∨ (s.getAtom h).isSome
  | .targetType t subclass vh => s.isNullVersionHandle vh ∨ ∀ o, s.toLink h = some o →
      ∀ x ∈ (Body.link o).targets.takeWhile fun x =>
        !atomIs s (fun a => hasVersion vh a && ofType cs t subclass a) x, (s.getAtom x).isSome
  | .targetName n t vh => s.isNullVersionHandle vh ∨ ∀ o, s.toLink h = some o →
      ∀ x ∈ (Body.link o).targets.takeWhile fun x =>
        !atomIs s (fun a => hasVersion vh a && (a.type == t && sameName n a)) x,
        ∃ a, s.getAtom x = some a ∧
          (hasVersion vh a = true → a.type = t → n.isSome ∧ (nodeName a).isSome)

/-- The lists that an overload filters exactly. By the deleted flag, no entry fails after one that
passes. By an incoming set, what passes is in the order of handles, and no more often in the list
than in that set. -/
def Meets (set : List Handle) (f : Filter) : Prop :=
  match f with
  | .deleted _ => (∀ h ∈ set, f.Readable s h) ∧
      set.Pairwise fun h g => f.satisfies s h = true → f.satisfies s g = true
  | .incoming handle _ => (s.getAtom handle).isSome ∧
      (set.filter (f.satisfies s)).Pairwise (· ≤ ·) ∧
      ∀ h ∈ s.table.incoming handle, set.count h ≤ (s.table.incoming handle).count h
  | _ => ∀ h ∈ set, f.Readable s h

end Filter

/-! ## Tests of an entry -/

section Tests
variable {TV : Type} {s : Tlb cs TV}

theorem toLink_eq_some {h : Handle} {o : List Handle} :
    s.toLink h = some o ↔ ∃ a, s.getAtom h = some a ∧ a.body = .link o := by
  unfold Tlb.toLink
  cases s.getAtom h with
  | none => simp
  | some a => cases hb : a.body <;> simp [hb]

theorem atomIs_eq (p : Atom TV → Bool) (h : Handle) :
    atomIs s p h = ((s.getAtom h).map p == some true) := by
  unfold atomIs
  cases s.getAtom h with
  | none => rfl
  | some a => cases hp : p a <;> simp [hp]

theorem atom_test_iff (p : Atom TV → Bool) (h : Handle) :
    (s.getAtom h).map p = some (atomIs s p h) ↔ (s.getAtom h).isSome := by
  unfold atomIs
  cases s.getAtom h <;> simp

/-- For a record, the checks amount to the name being the one asked for. -/
theorem nameTest_eq {h : Handle} {a : Atom TV} (ha : s.getAtom h = some a)
    (name : Option String) : nameTest cs name a = some (named name a) := by
  have htyped := s.typed h a ha
  unfold nameTest named nodeName
  cases hb : a.body with
  | node n =>
    rw [hb] at htyped
    have hlink : cs.isA a.type LINK = false := cs.node_not_link _ htyped
    have hnode : cs.isA a.type NODE = true := htyped
    cases hno : noName name <;> simp [hlink, hnode]
  | link o =>
    rw [hb] at htyped
    have hlink : cs.isA a.type LINK = true := htyped
    have hnode : cs.isA a.type NODE = false := cs.link_not_node htyped
    cases hno : noName name <;> simp [hlink, hnode]

theorem name_test_iff (name : Option String) (h : Handle) :
    (s.getAtom h).bind (nameTest cs name) = some (atomIs s (named name) h) ↔
      (s.getAtom h).isSome := by
  unfold atomIs
  cases ha : s.getAtom h with
  | none => simp
  | some a => simp [nameTest_eq ha]

/-- Every record is of the root of the hierarchy or of a subclass. -/
theorem ofType_root {h : Handle} {a : Atom TV} (ha : s.getAtom h = some a) {t : TypeCode}
    {subclass : Bool} (hroot : t = ATOM ∧ subclass = true) : ofType cs t subclass a = true := by
  obtain ⟨rfl, rfl⟩ := hroot
  have htyped := s.typed h a ha
  cases hb : a.body with
  | node n =>
    rw [hb] at htyped
    exact cs.node_isA_atom _ htyped
  | link o =>
    rw [hb] at htyped
    exact cs.link_isA_atom _ htyped

/-- The overload by type with its shortcut as a test. -/
def typeTest (s : Tlb cs TV) (t : TypeCode) (subclass : Bool) (h : Handle) : Option Bool :=
  if t = ATOM ∧ subclass = true then some true else (s.getAtom h).map (ofType cs t subclass)

theorem filterSetByType_eq (set : List Handle) (t : TypeCode) (subclass : Bool) :
    filterSetByType s set t subclass = filterNext (typeTest s t subclass) set := by
  unfold filterSetByType
  split
  · rename_i hroot
    have hall : filterNext (typeTest s t subclass) set = some (set.filter fun _ => true) := by
      rw [filterNext_eq_filter_iff]
      exact fun h _ => if_pos hroot
    rw [hall, List.filter_true]
  · rename_i hroot
    refine congrArg (fun test => filterNext test set) (funext fun h => ?_)
    rw [typeTest, if_neg hroot]

theorem type_test_iff (t : TypeCode) (subclass : Bool) (h : Handle) :
    typeTest s t subclass h = some (atomIs s (ofType cs t subclass) h) ↔
      (s.getAtom h).isSome := by
  unfold typeTest
  split
  · rename_i hroot
    unfold atomIs
    cases ha : s.getAtom h with
    | none => simp
    | some a => simp [ofType_root ha hroot]
  · exact atom_test_iff _ h

theorem nameType_test_iff (name : Option String) (t : TypeCode) (subclass : Bool) (h : Handle) :
    ((typeTest s t subclass h).bind fun ok =>
        if ok then (s.getAtom h).bind (nameTest cs name) else some false) =
      some (atomIs s (fun a => ofType cs t subclass a && named name a) h) ↔
      (s.getAtom h).isSome := by
  unfold typeTest atomIs
  cases ha : s.getAtom h with
  | none => split <;> simp
  | some a =>
    split
    · rename_i hroot
      simp [nameTest_eq ha, ofType_root ha hroot]
    · cases hok : ofType cs t subclass a <;> simp [nameTest_eq ha, hok]

theorem handleAt_test_iff (handle : Handle) (position n : Nat) (h : Handle) :
    (match s.toLink h with
      | none => some true
      | some o => some ((Body.link o).arity == n && decide (position < n) &&
          o[position]? == some handle)) =
      some (linkIs s n (fun o => decide (position < n) && o[position]? == some handle) h) ↔
      (s.toLink h).isSome := by
  unfold linkIs
  cases s.toLink h with
  | none => simp
  | some o => simp [Bool.and_assoc]

/-- A test of links of one arity needs a link, and a result for one of that arity. -/
theorem link_test_iff {p : List Handle → Bool} {test : List Handle → Option Bool} (n : Nat)
    (h : Handle) :
    ((s.toLink h).bind fun o => if (Body.link o).arity ≠ n then some false else test o) =
      some (linkIs s n p h) ↔
    ∃ o, s.toLink h = some o ∧ ((Body.link o).arity = n → test o = some (p o)) := by
  unfold linkIs
  cases s.toLink h with
  | none => simp
  | some o =>
    by_cases hn : (Body.link o).arity = n
    · simp [hn]
    · simp [hn]

/-- Of two tests of links of one arity, the second need not check the arity again. -/
theorem link_tests (first second : List Handle → Option Bool) (n : Nat) (h : Handle) :
    (((s.toLink h).bind fun o => if (Body.link o).arity ≠ n then some false else first o).bind
      fun ok => if ok then
        (s.toLink h).bind fun o => if (Body.link o).arity ≠ n then some false else second o
      else some false) =
    (s.toLink h).bind fun o => if (Body.link o).arity ≠ n then some false
      else (first o).bind fun ok => if ok then second o else some false := by
  cases s.toLink h with
  | none => rfl
  | some o =>
    simp only [Option.bind_some]
    split
    · rfl
    · rfl

theorem typeIn_test_iff (t : TypeCode) (subclass : Bool) (o : List Handle) :
    anyOf (fun x => (s.getAtom x).map fun target =>
        target.type != 0 && ofType cs t subclass target) (Body.link o).targets =
      some (someMemberIs s (ofType cs t subclass) o) ↔
    ∀ x ∈ (Body.link o).targets.takeWhile fun x => !atomIs s (ofType cs t subclass) x,
      (s.getAtom x).isSome := by
  have hfits : ∀ x, atomIs s (ofType cs t subclass) x = true ↔
      ((s.getAtom x).map fun target => target.type != 0 && ofType cs t subclass target) =
        some true := by
    intro x
    unfold atomIs
    cases hx : s.getAtom x with
    | none => simp
    | some a =>
      have hne : (a.type != 0) = true := bne_iff_ne.mpr (s.concrete x a hx)
      simp [hne]
  have hany := anyOf_eq_any_iff hfits (Body.link o).targets
  simpa only [Option.isSome_map, someMemberIs] using hany

theorem memberIs_eq (position : Nat) (p : Atom TV → Bool) (o : List Handle) :
    memberIs s position p o = (o[position]?.bind s.getAtom).any p := by
  unfold memberIs atomIs
  cases o[position]? <;> rfl

theorem typeAt_test_iff (t : TypeCode) (subclass : Bool) (position : Nat) (o : List Handle) :
    ((s.getOutgoingAtom o position).bind fun target => target.map (ofType cs t subclass)) =
      some (memberIs s position (ofType cs t subclass) o) ↔
    position < (Body.link o).arity ∧ (o[position]?.bind s.getAtom).isSome := by
  rw [memberIs_eq, Tlb.getOutgoingAtom]
  split
  · rename_i hpos
    cases o[position]?.bind s.getAtom <;> simp [hpos]
  · rename_i hpos
    simp [hpos]

theorem nameAt_test_iff (name : Option String) (position : Nat) (o : List Handle) :
    ((s.getOutgoingAtom o position).bind fun
      | none => some false
      | some itAtom => nameTest cs name itAtom) = some (memberIs s position (named name) o) ↔
    position < (Body.link o).arity := by
  rw [memberIs_eq, Tlb.getOutgoingAtom]
  split
  · rename_i hpos
    cases hx : o[position]?.bind s.getAtom with
    | none => simp [hpos]
    | some a =>
      obtain ⟨x, -, ha⟩ := Option.bind_eq_some_iff.mp hx
      simp [hpos, nameTest_eq ha]
  · rename_i hpos
    simp [hpos]

theorem nameTypeAt_test_iff (name : Option String) (t : TypeCode) (subclass : Bool)
    (position : Nat) (o : List Handle) :
    ((s.getOutgoingAtom o position).bind fun target => target.map (ofType cs t subclass)).bind
        (fun ok => if ok then
          (s.getOutgoingAtom o position).bind fun
            | none => some false
            | some itAtom => nameTest cs name itAtom
        else some false) =
      some (memberIs s position (fun a => ofType cs t subclass a && named name a) o) ↔
    position < (Body.link o).arity ∧ (o[position]?.bind s.getAtom).isSome := by
  rw [memberIs_eq, Tlb.getOutgoingAtom]
  split
  · rename_i hpos
    cases hx : o[position]?.bind s.getAtom with
    | none => simp
    | some a =>
      obtain ⟨x, -, ha⟩ := Option.bind_eq_some_iff.mp hx
      cases hok : ofType cs t subclass a <;> simp [hpos, hok, nameTest_eq ha]
  · rename_i hpos
    simp [hpos]

theorem nameTypeAt_both_iff (name : Option String) (t : TypeCode) (subclass : Bool)
    (position n : Nat) (h : Handle) :
    (((s.toLink h).bind fun o =>
        if (Body.link o).arity ≠ n then some false
        else (s.getOutgoingAtom o position).bind fun target =>
          target.map (ofType cs t subclass)).bind fun ok =>
      if ok then
        (s.toLink h).bind fun o =>
          if (Body.link o).arity ≠ n then some false
          else (s.getOutgoingAtom o position).bind fun
            | none => some false
            | some itAtom => nameTest cs name itAtom
      else some false) =
      some (linkIs s n (memberIs s position fun a => ofType cs t subclass a && named name a) h) ↔
    ∃ o, s.toLink h = some o ∧ ((Body.link o).arity = n →
      position < n ∧ (o[position]?.bind s.getAtom).isSome) := by
  rw [link_tests, link_test_iff]
  refine exists_congr fun o => and_congr_right fun _ => forall_congr' fun hn => ?_
  rw [← hn]
  exact nameTypeAt_test_iff name t subclass position o

end Tests

section VersionTests
variable {R : Type} [Scalar R] {s : Tlb cs (Option (TruthValue R))}

/-- The targets up to the first that has the version and fits need a result. -/
theorem criteria_test_iff {vh : VersionHandle}
    {fits : Atom (Option (TruthValue R)) → Option Bool} {p : Atom (Option (TruthValue R)) → Bool}
    (hp : ∀ a, (hasVersion vh a && p a) = true ↔
      (if hasVersion vh a then fits a else some false) = some true) (h : Handle) :
    matchesFilterCriteria s vh fits h =
      some ((s.toLink h).any (someMemberIs s fun a => hasVersion vh a && p a)) ↔
    ∀ o, s.toLink h = some o →
      ∀ x ∈ (Body.link o).targets.takeWhile fun x => !atomIs s (fun a => hasVersion vh a && p a) x,
        ∃ a, s.getAtom x = some a ∧ (hasVersion vh a = true → (fits a).isSome) := by
  unfold matchesFilterCriteria
  cases s.toLink h with
  | none => simp [anyOf]
  | some o =>
    have hfits : ∀ x, atomIs s (fun a => hasVersion vh a && p a) x = true ↔
        ((s.getAtom x).bind fun target => if hasVersion vh target then fits target else some false) =
          some true := by
      intro x
      unfold atomIs
      cases s.getAtom x with
      | none => simp
      | some a => simpa using hp a
    have hread : ∀ x, ((s.getAtom x).bind fun target =>
        if hasVersion vh target then fits target else some false).isSome ↔
        ∃ a, s.getAtom x = some a ∧ (hasVersion vh a = true → (fits a).isSome) := by
      intro x
      cases s.getAtom x with
      | none => simp
      | some a => cases hv : hasVersion vh a <;> simp [hv]
    have hany := anyOf_eq_any_iff hfits (Body.link o).targets
    simp only [hread] at hany
    simpa [someMemberIs] using hany

end VersionTests

/-! ## The overloads filter exactly -/

theorem intersection_eq_filter_iff (set other : List Handle) :
    intersection [set, other] = some (set.filter fun h => decide (h ∈ other)) ↔
      (set.filter fun h => decide (h ∈ other)).Pairwise (· ≤ ·) ∧
        ∀ h ∈ other, set.count h ≤ other.count h := by
  have hne : [set, other] ≠ [] := by simp
  have hcount : ∀ h n, n ≤ (OpenCog.intersection [set, other]).count h ↔
      n ≤ set.count h ∧ n ≤ other.count h := by
    intro h n
    rw [le_count_intersection hne]
    simp
  have hfilter : ∀ h, (set.filter fun h => decide (h ∈ other)).count h =
      if h ∈ other then set.count h else 0 := by
    intro h
    by_cases hh : h ∈ other
    · rw [if_pos hh, List.count_filter (by simpa using hh)]
    · rw [if_neg hh, List.count_eq_zero]
      exact fun hmem => hh (by simpa using (List.mem_filter.mp hmem).2)
  rw [intersection_eq, Option.some.injEq]
  constructor
  · intro h
    refine ⟨h ▸ sorted_intersection _, fun x hx => ?_⟩
    have hx' := (hcount x (set.count x)).mp (by rw [h, hfilter, if_pos hx])
    exact hx'.2
  · rintro ⟨hsorted, hle⟩
    refine eq_of_perm_sorted (List.perm_iff_count.mpr fun x => ?_) (sorted_intersection _) hsorted
    obtain ⟨hset, hother⟩ := (hcount x _).mp (Nat.le_refl _)
    rw [hfilter]
    by_cases hx : x ∈ other
    · rw [if_pos hx]
      exact Nat.le_antisymm hset ((hcount x _).mpr ⟨Nat.le_refl _, hle x hx⟩)
    · rw [if_neg hx]
      exact Nat.le_zero.mp (List.count_eq_zero.mpr hx ▸ hother)

section Skipped
variable {TV : Type} (s : Tlb cs TV)

theorem incoming_iff (set : List Handle) (handle : Handle) (n : Nat) :
    filterSetByIncoming s set handle n =
      some (set.filter fun h => decide (h ∈ s.table.incoming handle)) ↔
    (s.getAtom handle).isSome ∧
      (set.filter fun h => decide (h ∈ s.table.incoming handle)).Pairwise (· ≤ ·) ∧
      ∀ h ∈ s.table.incoming handle, set.count h ≤ (s.table.incoming handle).count h := by
  rw [← intersection_eq_filter_iff]
  have hincoming : s.table.incoming handle = ((s.getAtom handle).map Atom.incoming).getD [] := rfl
  unfold filterSetByIncoming
  cases ha : s.getAtom handle with
  | none => simp
  | some a =>
    rw [hincoming, ha]
    exact (and_iff_right rfl).symm

/-- Loops that a null version handle skips. -/
theorem versioned_iff {vh : VersionHandle} {test : Handle → Option Bool} {p : Handle → Bool}
    {ready : Handle → Prop} (hready : ∀ h, test h = some (p h) ↔ ready h) (set : List Handle) :
    (if s.isNullVersionHandle vh then some set else filterNext test set) =
      some (set.filter fun h => s.isNullVersionHandle vh || p h) ↔
    ∀ h ∈ set, s.isNullVersionHandle vh = true ∨ ready h := by
  cases hnull : s.isNullVersionHandle vh with
  | true => simp
  | false =>
    simp only [Bool.false_eq_true, if_false, Bool.false_or, false_or]
    rw [filterNext_eq_filter_iff]
    exact forall₂_congr fun h _ => hready h

end Skipped

section Exact
variable {R : Type} [Scalar R] (s : Tlb cs (Option (TruthValue R)))

theorem deleted_iff (set : List Handle) (flag : Bool) :
    filterSetByDeleted s set flag = some (set.filter (Filter.satisfies s (.deleted flag))) ↔
      Filter.Meets s set (.deleted flag) := by
  have hpass : ∀ h, Filter.satisfies s (.deleted flag) h =
      ((s.getAtom h).map (fun a => a.markedForRemoval == flag) == some true) := fun h =>
    atomIs_eq _ h
  have hfilter : set.filter (Filter.satisfies s (.deleted flag)) = set.filter fun h =>
      (s.getAtom h).map (fun a => a.markedForRemoval == flag) == some true :=
    List.filter_congr fun h _ => hpass h
  rw [hfilter, filterSetByDeleted, filterCurrent_eq_filter_iff]
  simp only [Filter.Meets, Filter.Readable, hpass, beq_iff_eq, Option.isSome_map]

theorem targetType_test_iff (t : TypeCode) (subclass : Bool) (vh : VersionHandle) (h : Handle) :
    matchesFilterCriteria s vh (fun target => some (ofType cs t subclass target)) h =
      some ((s.toLink h).any (someMemberIs s fun a => hasVersion vh a && ofType cs t subclass a)) ↔
    ∀ o, s.toLink h = some o →
      ∀ x ∈ (Body.link o).targets.takeWhile fun x =>
        !atomIs s (fun a => hasVersion vh a && ofType cs t subclass a) x, (s.getAtom x).isSome := by
  have hp : ∀ a : Atom (Option (TruthValue R)), (hasVersion vh a && ofType cs t subclass a) = true ↔
      (if hasVersion vh a then some (ofType cs t subclass a) else some false) = some true := by
    intro a
    cases hasVersion vh a <;> simp
  rw [criteria_test_iff hp]
  refine forall₂_congr fun o _ => forall₂_congr fun x _ => ?_
  rw [Option.isSome_iff_exists]
  exact exists_congr fun a => and_iff_left fun _ => rfl

theorem targetName_test_iff (n : Option String) (t : TypeCode) (vh : VersionHandle) (h : Handle) :
    matchesFilterCriteria s vh (fun target =>
        if t = target.type then
          n.bind fun name => (nodeName target).map fun n => cStr name == cStr n
        else some false) h =
      some ((s.toLink h).any
        (someMemberIs s fun a => hasVersion vh a && (a.type == t && sameName n a))) ↔
    ∀ o, s.toLink h = some o →
      ∀ x ∈ (Body.link o).targets.takeWhile fun x =>
        !atomIs s (fun a => hasVersion vh a && (a.type == t && sameName n a)) x,
        ∃ a, s.getAtom x = some a ∧
          (hasVersion vh a = true → a.type = t → n.isSome ∧ (nodeName a).isSome) := by
  have hp : ∀ a : Atom (Option (TruthValue R)),
      (hasVersion vh a && (a.type == t && sameName n a)) = true ↔
      (if hasVersion vh a then
        (if t = a.type then n.bind fun name => (nodeName a).map fun n => cStr name == cStr n
          else some false)
        else some false) = some true := by
    intro a
    by_cases ht : t = a.type
    · subst ht
      unfold sameName
      cases hasVersion vh a <;> cases n <;> cases nodeName a <;> simp
    · simp [ht, Ne.symm ht]
  rw [criteria_test_iff hp]
  refine forall₂_congr fun o _ => forall₂_congr fun x _ => ?_
  refine exists_congr fun a => and_congr_right fun _ => imp_congr_right fun _ => ?_
  by_cases ht : t = a.type
  · cases n <;> cases nodeName a <;> simp [ht]
  · simp [ht, Ne.symm ht]

/-- Each overload returns the entries that satisfy its criterion, in their order, iff the list is
one of those it filters exactly. -/
theorem filterSet_exact_iff (set : List Handle) (f : Filter) :
    f.run s set = some (set.filter (f.satisfies s)) ↔ f.Meets s set := by
  cases f with
  | deleted flag => exact deleted_iff s set flag
  | arity n =>
    rw [Filter.run, filterSetByArity, filterNext_eq_filter_iff]
    exact forall₂_congr fun h _ => iff_of_true rfl trivial
  | name n =>
    rw [Filter.run, filterSetByName, filterNext_eq_filter_iff]
    exact forall₂_congr fun h _ => name_test_iff n h
  | type t subclass =>
    rw [Filter.run, filterSetByType_eq, filterNext_eq_filter_iff]
    exact forall₂_congr fun h _ => type_test_iff t subclass h
  | nameType n t subclass =>
    rw [Filter.run, filterSetByNameType, filterSetByType_eq]
    simp only [filterSetByName]
    rw [filterNext_filterNext, filterNext_eq_filter_iff]
    exact forall₂_congr fun h _ => nameType_test_iff n t subclass h
  | incoming handle n => exact incoming_iff s set handle n
  | handleAt handle position n =>
    rw [Filter.run, filterSetByHandleAt, filterNext_eq_filter_iff]
    exact forall₂_congr fun h _ => handleAt_test_iff handle position n h
  | typeIn t subclass n =>
    rw [Filter.run, filterSetByTypeIn, filterNext_eq_filter_iff]
    refine forall₂_congr fun h _ => (link_test_iff n h).trans ?_
    exact exists_congr fun o => and_congr_right fun _ => imp_congr_right fun _ =>
      typeIn_test_iff t subclass o
  | typeAt t subclass position n =>
    rw [Filter.run, filterSetByTypeAt, filterNext_eq_filter_iff]
    refine forall₂_congr fun h _ => (link_test_iff n h).trans ?_
    refine exists_congr fun o => and_congr_right fun _ => forall_congr' fun hn => ?_
    rw [← hn]
    exact typeAt_test_iff t subclass position o
  | nameTypeAt m t subclass position n =>
    rw [Filter.run, filterSetByNameTypeAt, filterSetByTypeAt]
    simp only [filterSetByNameAt]
    rw [filterNext_filterNext, filterNext_eq_filter_iff]
    exact forall₂_congr fun h _ => nameTypeAt_both_iff m t subclass position n h
  | nameAt m position n =>
    rw [Filter.run, filterSetByNameAt, filterNext_eq_filter_iff]
    refine forall₂_congr fun h _ => (link_test_iff n h).trans ?_
    refine exists_congr fun o => and_congr_right fun _ => forall_congr' fun hn => ?_
    rw [← hn]
    exact nameAt_test_iff m position o
  | sti lowerBound upperBound =>
    have hcriterion : (fun a : Atom (Option (TruthValue R)) =>
        !(decide (a.attentionValue.sti < lowerBound) ||
          decide (a.attentionValue.sti > upperBound))) = fun a =>
        decide (lowerBound ≤ a.attentionValue.sti) && decide (a.attentionValue.sti ≤ upperBound) :=
      funext fun a => by simp only [Bool.not_or, gt_iff_lt, ← decide_not, not_lt]
    rw [Filter.run, filterSetBySTI, hcriterion, filterNext_eq_filter_iff]
    exact forall₂_congr fun h _ => atom_test_iff _ h
  | version vh => exact versioned_iff s (fun h => atom_test_iff (hasVersion vh) h) set
  | targetType t subclass vh => exact versioned_iff s (targetType_test_iff s t subclass vh) set
  | targetName n t vh => exact versioned_iff s (targetName_test_iff s n t vh) set

end Exact

/-! ## The filters of the lookups -/

section Lookups
variable {TV : Type} (s : Tlb cs TV)

theorem toLink_eq_bodyOf (h : Handle) : s.toLink h = match s.table.bodyOf h with
    | some (.link o) => some o
    | _ => none := rfl

theorem filterSetByArity_eq (set : List Handle) (arity : Nat) :
    filterSetByArity s set arity = some (s.table.filterByArity set arity) := by
  refine (filterNext_eq_filter_iff set).mpr fun h _ => ?_
  rw [arityOf, toLink_eq_bodyOf]
  cases s.table.bodyOf h with
  | none => rfl
  | some b => cases b with
    | node name => rfl
    | link o => rfl

theorem filterSetByHandleAt_eq (set : List Handle) (handle : Handle) (position arity : Nat) :
    filterSetByHandleAt s set handle position arity =
      some (s.table.filterByHandleAt set handle position arity) := by
  refine (filterNext_eq_filter_iff set).mpr fun h _ => ?_
  rw [toLink_eq_bodyOf]
  unfold AtomTable.handleFits
  cases s.table.bodyOf h with
  | none => rfl
  | some b => cases b with
    | node name => rfl
    | link o => rfl

theorem filterSetByType_eq_filterByType {set : List Handle}
    (hlive : ∀ h ∈ set, (s.getAtom h).isSome) (t : TypeCode) (subclass : Bool) :
    filterSetByType s set t subclass = some (s.table.filterByType cs set t subclass) := by
  unfold filterSetByType AtomTable.filterByType
  by_cases hroot : t = ATOM ∧ subclass = true
  · rw [if_pos hroot, if_pos (by simpa using hroot)]
  · rw [if_neg hroot, if_neg (by simpa using hroot)]
    refine (filterNext_eq_filter_iff set).mpr fun h hh => ?_
    obtain ⟨a, ha⟩ := Option.isSome_iff_exists.mp (hlive h hh)
    have ha' : s.table.handleMap h = some a := ha
    simp [ha, AtomTable.typeOf, ha', ofType]

/-- The test of the type at a position, on a link that has a member with a record there. -/
theorem filterSetByTypeAt_eq {set : List Handle} (t : TypeCode) (subclass : Bool)
    {position arity : Nat}
    (hread : ∀ h ∈ set, ∃ o, s.toLink h = some o ∧ ((Body.link o).arity = arity →
      position < arity ∧ (o[position]?.bind s.getAtom).isSome)) :
    filterSetByTypeAt s set t subclass position arity =
      some (s.table.filterByTypeAt cs set t subclass position arity) := by
  refine (filterNext_eq_filter_iff set).mpr fun h hh => ?_
  obtain ⟨o, ho, hmember⟩ := hread h hh
  have hbody : s.table.bodyOf h = some (.link o) := by
    obtain ⟨a, ha, hb⟩ := toLink_eq_some.mp ho
    rw [← hb]
    exact congrArg (Option.map Atom.body) ha
  unfold AtomTable.typeFits AtomTable.memberAt
  rw [ho, hbody]
  by_cases harity : (Body.link o).arity = arity
  · obtain ⟨hpos, hsome⟩ := hmember harity
    obtain ⟨a, ha⟩ := Option.isSome_iff_exists.mp hsome
    obtain ⟨x, hx, ha'⟩ := Option.bind_eq_some_iff.mp ha
    have hrecord : s.table.handleMap x = some a := ha'
    simp [harity, Tlb.getOutgoingAtom, hpos, hx, ha', AtomTable.typeOf, hrecord, ofType]
  · simp [harity]

theorem filterSetBySTI_eq {set : List Handle} (hlive : ∀ h ∈ set, (s.getAtom h).isSome)
    (lowerBound upperBound : Int) : filterSetBySTI s set lowerBound upperBound =
      some (s.table.filterBySTI set lowerBound upperBound) := by
  refine (filterNext_eq_filter_iff set).mpr fun h hh => ?_
  obtain ⟨a, ha⟩ := Option.isSome_iff_exists.mp (hlive h hh)
  have ha' : s.table.handleMap h = some a := ha
  simp [ha, AtomTable.avOf, ha', ← decide_not]

end Lookups

/-- In every run, the list that a lookup makes for a handle at a position is what the loops leave
of the incoming set. -/
theorem handleSetAt_eq_filterSet {TV : Type} {ops : TruthOps TV}
    {ok : AtomTable TV → TableOp TV → Prop} {s : AtomTable TV}
    (r : AtomTable.Reachable cs ops ok s)
    (hroot : cs.isA ATOM NODE = false ∧ cs.isA ATOM LINK = false) {q : HandleQuery}
    {i : Fin q.arity} {handle : Handle} (hq : s.handleAt q i = some handle) :
    filterSetByHandleAt (.ofReachable r hroot) (s.incoming handle) handle i q.arity =
      AtomTable.handleSetAt cs s q i := by
  rw [filterSetByHandleAt_eq, AtomTable.handleSetAt, hq]
  rfl

open scoped TruthValue

/-- Three nodes; the second one is marked. -/
def markedSecond (h : Handle) : Option (Atom (Option (TruthValue ℚ))) :=
  if h ∈ [1, 2, 3] then
    some ⟨CONCEPT_NODE, .node "n", [], h == 2, false, true, .default, none⟩
  else none

theorem type_markedSecond {h : Handle} {a : Atom (Option (TruthValue ℚ))}
    (ha : markedSecond h = some a) : a.type = CONCEPT_NODE ∧ a.body = .node "n" := by
  unfold markedSecond at ha
  split at ha
  · obtain rfl := Option.some.inj ha
    exact ⟨rfl, rfl⟩
  · cases ha

def threeNodes : Tlb ClassServer.script (Option (TruthValue ℚ)) where
  table := { AtomTable.empty with handleMap := markedSecond }
  typed h a ha := by
    obtain ⟨ht, hb⟩ := type_markedSecond ha
    rw [ht, hb]
    decide +kernel
  concrete h a ha := by
    rw [(type_markedSecond ha).1]
    decide

/-- The marked entry stays, and the unmarked one behind it leaves. -/
theorem not_exact :
    (Filter.deleted false).run threeNodes [1, 2, 3] = some [1, 2] ∧
      ¬ ∀ set (f : Filter), f.run threeNodes set = some (set.filter (f.satisfies threeNodes)) := by
  have hrun : (Filter.deleted false).run threeNodes [1, 2, 3] = some [1, 2] := by decide
  have hfilter : [1, 2, 3].filter ((Filter.deleted false).satisfies threeNodes) = [1, 3] := by
    decide
  refine ⟨hrun, fun h => ?_⟩
  have hexact := h [1, 2, 3] (.deleted false)
  rw [hrun, hfilter] at hexact
  cases hexact

end HandleEntry

end OpenCog
