import OpenCog.AtomSpace.Decay

/-! Runs of the table from empty. In every run whose links have fewer than 65536
members and whose attention updates go to stored atoms, the indices answer as a
scan of the atom set would, and incoming lists mirror outgoing sequences. -/
namespace OpenCog

variable {TV : Type}

inductive TableOp (TV : Type) where
  | addNode (t : TypeCode) (name : String) (tv : TV)
  | addLink (t : TypeCode) (outgoing : List Handle) (tv : TV)
  | setAttentionValue (h : Handle) (av : AttentionValue)
  | extract (h : Handle) (recursive : Bool)
  | remove (h : Handle) (recursive : Bool)
  | decay (minSTI : Int)

namespace AtomTable

def addNew (ops : TruthOps TV) (s : AtomTable TV) (a : Option (Atom TV)) : Option (AtomTable TV) := do
  let a ← a
  let (s, h) := s.add ops a true
  if h.isSome then some s else none

/-- One call on the table; `none` when something throws. -/
def apply (cs : ClassServer) (ops : TruthOps TV) (s : AtomTable TV) :
    TableOp TV → Option (AtomTable TV)
  | .addNode t name tv => s.addNew ops (Atom.newNode cs ops t name tv)
  | .addLink t outgoing tv => s.addNew ops (Atom.newLink cs ops t outgoing tv)
  | .setAttentionValue h av => some (s.setAttentionValue h av)
  | .extract h recursive => (extract (s.brkUuid + 1) s h recursive).map Prod.fst
  | .remove h recursive => s.remove h recursive
  | .decay minSTI => s.decayShortTermImportance minSTI

/-- The calls a client may make: the constructors accept the atom, names have no
NUL, the members of a link are stored, and the atom given a value exists. -/
def Allowed (cs : ClassServer) (s : AtomTable TV) : TableOp TV → Prop
  | .addNode t name _ => cs.isA t NODE = true ∧ NoNul name
  | .addLink t outgoing _ => cs.isA t LINK = true ∧ ∀ x ∈ outgoing, x ∈ s.atomSet
  | .setAttentionValue h _ => s.handleMap h ≠ none
  | _ => True

def ShortLink : TableOp TV → Prop
  | .addLink _ outgoing _ => outgoing.length < 65536
  | _ => True

def ToStored (s : AtomTable TV) : TableOp TV → Prop
  | .setAttentionValue h _ => h ∈ s.atomSet
  | _ => True

/-- The tables reached from the empty one by calls that `ok` admits. -/
inductive Reachable (cs : ClassServer) (ops : TruthOps TV)
    (ok : AtomTable TV → TableOp TV → Prop) : AtomTable TV → Prop
  | empty : Reachable cs ops ok empty
  | step {s s' : AtomTable TV} (op : TableOp TV) (r : Reachable cs ops ok s) (h : ok s op)
      (e : s.apply cs ops op = some s') : Reachable cs ops ok s'

theorem inv_empty (cs : ClassServer) : Inv cs (empty : AtomTable TV) := by
  refine ⟨List.nodup_nil, rfl, rfl, ?_, fun _ _ => rfl, ?_, ?_, ?_, ?_, ?_, ?_, ?_, ?_, ?_, ?_⟩ <;>
    simp [empty, Has]

section Step
variable {cs : ClassServer} (ops : TruthOps TV) {s : AtomTable TV}

theorem Inv.addNew (hs : Inv cs s) (hp : Pending s) {a : Atom TV} (ha : Addable cs s a) :
    ∃ s', s.addNew ops (some a) = some s' ∧ Inv cs s' ∧ Pending s' := by
  have hinv := hs.add ops ha
  cases hg : s.getHandle a with
  | some h =>
    have hadd : s.add ops a true = (s.merge ops h a.truthValue, some h) := by
      unfold AtomTable.add; rw [hg]
    rw [hadd] at hinv
    refine ⟨s.merge ops h a.truthValue, by simp [AtomTable.addNew, hadd], hinv, ?_⟩
    unfold AtomTable.merge
    split
    · exact hp.modify h (fun _ => rfl) (fun _ => rfl)
    · exact hp
  | none =>
    have hadd := add_eq_stored ops hs ha hg
    have r := added_of_none ops hs ha hg
    refine ⟨(s.add ops a true).1, by simp [AtomTable.addNew, hadd], hinv, ?_⟩
    intro g hg hsome
    rw [r.atomSet, List.mem_cons, not_or] at hg
    have hrec : (s.add ops a true).1.handleMap g = s.handleMap g := by
      rw [hadd, handleMap_foldl_addIncomingHandle]
      · simp [stored, insertHandle, hg.1]
      · rw [Body.targets_of_lt ha.typed.length_lt]
        exact fun hx => hg.2 (ha.members g hx)
    rw [hrec] at hsome
    simpa only [marked, incoming, hrec] using hp g hg.2 hsome

theorem Pending.setAttentionValue (hp : Pending s) (h : Handle) (av : AttentionValue) :
    Pending (s.setAttentionValue h av) := by
  have hmod : Pending (s.modify h fun a => { a with attentionValue := av }) :=
    hp.modify h (fun _ => rfl) (fun _ => rfl)
  unfold AtomTable.setAttentionValue
  cases s.handleMap h with
  | none => exact hp
  | some a =>
    simp only
    split
    · exact hp
    · split
      · exact hmod
      · exact hmod

theorem addable_newNode {t : TypeCode} {name : String} (tv : TV) (ht : cs.isA t NODE = true)
    (hn : NoNul name) : ∃ a, Atom.newNode cs ops t name tv = some a ∧ Addable cs s a := by
  refine ⟨Atom.init ops t (.node name) tv, by simp [Atom.newNode, ht], ⟨ht, hn⟩, ?_, rfl, rfl⟩
  intro x hx
  cases hx

theorem addable_newLink {t : TypeCode} {outgoing : List Handle} (tv : TV)
    (ht : cs.isA t LINK = true) (hm : ∀ x ∈ outgoing, x ∈ s.atomSet)
    (hlen : outgoing.length < 65536) :
    ∃ a, Atom.newLink cs ops t outgoing tv = some a ∧ Addable cs s a := by
  refine ⟨Atom.init ops t (.link (Atom.setOutgoingSet cs t outgoing)) tv,
    by simp [Atom.newLink, ht], ⟨ht, ?_⟩, ?_, rfl, rfl⟩
  · rw [Atom.length_setOutgoingSet]; exact hlen
  · intro x hx
    exact hm x (Atom.mem_setOutgoingSet.mp hx)

/-- Every admitted call returns, and keeps both invariants. -/
theorem apply_spec (hs : Inv cs s) (hp : Pending s) {op : TableOp TV} (ha : Allowed cs s op)
    (hshort : ShortLink op) (hstored : ToStored s op) :
    ∃ s', s.apply cs ops op = some s' ∧ Inv cs s' ∧ Pending s' := by
  cases op with
  | addNode t name tv =>
    obtain ⟨a, hnew, hadd⟩ := addable_newNode ops tv ha.1 ha.2
    simp only [apply, hnew]
    exact hs.addNew ops hp hadd
  | addLink t outgoing tv =>
    obtain ⟨a, hnew, hadd⟩ := addable_newLink ops tv ha.1 ha.2 hshort
    simp only [apply, hnew]
    exact hs.addNew ops hp hadd
  | setAttentionValue h av =>
    exact ⟨_, rfl, hs.setAttentionValue hstored av, hp.setAttentionValue h av⟩
  | extract h recursive =>
    obtain ⟨s', res, he, hx⟩ := extract_spec (s.brkUuid + 1) s h recursive hs hp
      ⟨Nat.succ_pos _, by lia⟩
    exact ⟨s', by simp [apply, he], hx.inv, hx.pending⟩
  | remove h recursive => exact remove_spec hs hp h recursive
  | decay minSTI =>
    obtain ⟨s', old, he, hi, hpend, -⟩ := decayShortTermImportance_spec hs hp minSTI
    exact ⟨s', he, hi, hpend⟩

variable {ops} in
theorem Reachable.inv {ok : AtomTable TV → TableOp TV → Prop}
    (hok : ∀ s op, ok s op → Allowed cs s op ∧ ShortLink op ∧ ToStored s op)
    (r : Reachable cs ops ok s) : Inv cs s ∧ Pending s := by
  induction r with
  | empty => exact ⟨inv_empty cs, fun _ _ h => absurd rfl h⟩
  | step op _ h e ih =>
    obtain ⟨ha, hshort, hstored⟩ := hok _ _ h
    obtain ⟨s', e', hi, hp⟩ := apply_spec ops ih.1 ih.2 ha hshort hstored
    rw [e, Option.some.injEq] at e'
    exact e' ▸ ⟨hi, hp⟩

end Step

/-! ## Lookups against a scan of the atom set -/

/-- The naive answer: the stored atoms whose type and body satisfy `p`. -/
def scan (s : AtomTable TV) (p : TypeCode → Body → Bool) : List Handle :=
  s.atomSet.filter fun h => ((s.key h).map fun k => p k.1 k.2).getD false

def typeMatches (cs : ClassServer) (t : TypeCode) (subclass : Bool) (c : TypeCode) : Bool :=
  c == t || (subclass && cs.isA c t)

def scanTarget (cs : ClassServer) (s : AtomTable TV) (t target : TypeCode)
    (subclass targetSubclass : Bool) : List Handle :=
  s.scan fun c b => typeMatches cs t subclass c &&
    b.outgoing.any fun x => ((s.typeOf x).map (typeMatches cs target targetSubclass)).getD false

def scanSTI (s : AtomTable TV) (lower upper : Int) : List Handle :=
  s.atomSet.filter fun h =>
    ((s.avOf h).map fun av => decide (lower ≤ av.sti) && decide (av.sti ≤ upper)).getD false

/-- The indices say what a scan of the set of atoms says. -/
structure IndexesExact (cs : ClassServer) (s : AtomTable TV) : Prop where
  byName : ∀ name t h, NoNul name →
    (s.getHandleByName name t = some h ↔ h ∈ s.scan fun c b => c == t && b == .node name)
  bySeq : ∀ t seq h,
    (s.getHandleBySeq t seq = some h ↔ h ∈ s.scan fun c b => c == t && b == .link seq)
  byType : ∀ t subclass h,
    (h ∈ getHandleSet cs s t subclass ↔ h ∈ s.scan fun c _ => typeMatches cs t subclass c)
  byTarget : ∀ t target subclass targetSubclass h,
    (h ∈ getHandleSetByTarget cs s t target subclass targetSubclass ↔
      h ∈ s.scanTarget cs t target subclass targetSubclass)
  bySTI : ∀ lower upper h,
    (h ∈ s.getHandleSetBySTI lower upper ↔ h ∈ s.scanSTI lower upper)
  bins : ∀ i h, h ∈ s.importanceIndex i ↔
    h ∈ s.atomSet ∧ (s.avOf h).map (fun av => importanceBin av.sti) = some i
  size : s.size = (s.atomSet.length + s.orphans.length : Nat)
  nodup : s.atomSet.Nodup
  distinct : ∀ g ∈ s.atomSet, ∀ h ∈ s.atomSet, s.key g = s.key h → g = h

section Lookup
variable {cs : ClassServer} {s : AtomTable TV}

theorem mem_scan {p : TypeCode → Body → Bool} {h : Handle} :
    h ∈ s.scan p ↔ ∃ t b, s.Has h t b ∧ p t b = true := by
  simp only [scan, List.mem_filter, Has]
  constructor
  · rintro ⟨hm, hp⟩
    cases hk : s.key h with
    | none => simp [hk] at hp
    | some k =>
      rw [hk] at hp
      exact ⟨k.1, k.2, ⟨hm, rfl⟩, hp⟩
  · rintro ⟨t, b, ⟨hm, hk⟩, hp⟩
    rw [hk]
    exact ⟨hm, hp⟩

theorem WellTyped.lt_nTypes {t : TypeCode} {b : Body} (h : WellTyped cs t b) : t < cs.nTypes := by
  cases b with
  | node n => exact cs.isA_lt t NODE h.1
  | link o => exact cs.isA_lt t LINK h.1

theorem WellTyped.isA_atom {t : TypeCode} {b : Body} (h : WellTyped cs t b) :
    cs.isA t ATOM = true := by
  cases b with
  | node n => exact cs.node_isA_atom t h.1
  | link o => exact cs.link_isA_atom t h.1

theorem mem_handlesOfType {idx : TypeCode → List Handle} {t : TypeCode} {subclass : Bool}
    {h : Handle} : h ∈ handlesOfType cs idx t subclass ↔
      ∃ c ≤ cs.nTypes, typeMatches cs t subclass c = true ∧ h ∈ idx c := by
  simp only [handlesOfType, List.mem_flatMap, List.mem_range, Nat.lt_succ_iff]
  refine exists_congr fun c => and_congr_right fun _ => ?_
  simp only [typeMatches, beq_eq_decide]
  split
  · rename_i hc; simp [hc]
  · rename_i hc; simp [hc]

/-- On a stored type both ways the code tests for a match agree. -/
theorem typeMatches_eq {c : TypeCode} (hc : c < cs.nTypes) (t : TypeCode) (subclass : Bool) :
    typeMatches cs t subclass c = if subclass then cs.isA c t else c == t := by
  unfold typeMatches
  cases subclass with
  | false => simp
  | true =>
    by_cases e : c = t
    · subst e; simp [cs.isA_refl c hc]
    · simp [e]

theorem byTarget_iff (hs : Inv cs s) (t target : TypeCode) (subclass targetSubclass : Bool)
    (h : Handle) : h ∈ getHandleSetByTarget cs s t target subclass targetSubclass ↔
      h ∈ s.scanTarget cs t target subclass targetSubclass := by
  have hsource : h ∈ handlesOfType cs s.targetTypeIndex target targetSubclass ↔
      ∃ u b, s.Has h u b ∧ (b.outgoing.any fun x =>
        ((s.typeOf x).map (typeMatches cs target targetSubclass)).getD false) = true := by
    simp only [mem_handlesOfType, hs.targets, List.any_eq_true]
    constructor
    · rintro ⟨c, -, hc, u, b, hb, x, hx, ht⟩
      exact ⟨u, b, hb, x, hx, by rw [ht]; exact hc⟩
    · rintro ⟨u, b, hb, x, hx, ht⟩
      obtain ⟨v, d, hd⟩ := hs.has_of_mem (hs.members hb x hx).1
      have hv : s.typeOf x = some v := by rw [typeOf_eq, hd.2]; rfl
      rw [hv] at ht
      exact ⟨v, Nat.le_of_lt (hs.typed hd).lt_nTypes, ht, u, b, hb, x, hx, hv⟩
  have htype : ∀ {u b}, s.Has h u b → s.typeOf h = some u := by
    intro u b hb; rw [typeOf_eq, hb.2]; rfl
  simp only [getHandleSetByTarget, filterByType, scanTarget, mem_scan, Bool.and_eq_true]
  split
  · rename_i hall
    simp only [decide_eq_true_eq] at hall
    obtain ⟨rfl, rfl⟩ := hall
    rw [hsource]
    constructor
    · rintro ⟨u, b, hb, ho⟩
      exact ⟨u, b, hb, by simp [typeMatches, (hs.typed hb).isA_atom], ho⟩
    · rintro ⟨u, b, hb, -, ho⟩
      exact ⟨u, b, hb, ho⟩
  · rw [List.mem_filter, hsource]
    constructor
    · rintro ⟨⟨u, b, hb, ho⟩, hm⟩
      rw [htype hb] at hm
      exact ⟨u, b, hb, by rw [typeMatches_eq (hs.typed hb).lt_nTypes]; exact hm, ho⟩
    · rintro ⟨u, b, hb, hm, ho⟩
      refine ⟨⟨u, b, hb, ho⟩, ?_⟩
      rw [typeMatches_eq (hs.typed hb).lt_nTypes] at hm
      rw [htype hb]
      exact hm

/-- The end bins are filtered and the bins between lie strictly inside. -/
theorem bySTI_iff (hs : Inv cs s) (lower upper : Int) (h : Handle) :
    h ∈ s.getHandleSetBySTI lower upper ↔ h ∈ s.scanSTI lower upper := by
  by_cases hm : h ∈ s.atomSet
  · obtain ⟨t, b, hk⟩ := hs.live h hm
    obtain ⟨a, ha, -, -⟩ := exists_of_key hk
    have hav : s.avOf h = some a.attentionValue := by simp [avOf, ha]
    have hbin : ∀ i, h ∈ s.importanceIndex i ↔ importanceBin a.attentionValue.sti = i := by
      intro i; rw [hs.bins]; simp [hm, hav]
    have hge := a.attentionValue.sti_ge
    have hle := a.attentionValue.sti_le
    have hfilter : ∀ i, h ∈ filterBySTI s (s.importanceIndex i) lower upper ↔
        importanceBin a.attentionValue.sti = i ∧ lower ≤ a.attentionValue.sti ∧
          a.attentionValue.sti ≤ upper := by
      intro i
      simp [filterBySTI, List.mem_filter, hbin, hav]
    have hscan : h ∈ s.scanSTI lower upper ↔
        lower ≤ a.attentionValue.sti ∧ a.attentionValue.sti ≤ upper := by
      simp [scanSTI, hm, hav]
    rw [hscan]
    simp only [getHandleSetBySTI]
    split
    · rename_i e
      rw [hfilter]
      simp only [importanceBin] at *
      omega
    · rename_i e
      simp only [List.mem_append, hfilter, List.mem_flatMap, List.mem_range'_1, hbin]
      simp only [importanceBin] at *
      constructor
      · rintro (hu | ⟨i, hi, rfl⟩ | hl)
        · exact hu.2
        · omega
        · exact hl.2
      · rintro ⟨h1, h2⟩
        by_cases el : (a.attentionValue.sti + 32768).toNat = (lower + 32768).toNat
        · exact .inr (.inr ⟨el, h1, h2⟩)
        · by_cases eu : (a.attentionValue.sti + 32768).toNat = (upper + 32768).toNat
          · exact .inl ⟨eu, h1, h2⟩
          · exact .inr (.inl ⟨_, by omega, rfl⟩)
  · have hbin : ∀ i, h ∉ s.importanceIndex i := fun i hi => hm (hs.bins.mp hi).1
    have hscan : h ∉ s.scanSTI lower upper := by simp [scanSTI, hm]
    simp only [hscan, iff_false]
    simp only [getHandleSetBySTI]
    split
    · simp [filterBySTI, hbin]
    · simp [filterBySTI, hbin]

theorem Inv.indexesExact (hs : Inv cs s) : IndexesExact cs s where
  byName name t h hn := by
    rw [getHandleByName, cStr_of_noNul hn, hs.nodes, mem_scan]
    constructor
    · exact fun hh => ⟨_, _, hh, by simp⟩
    · rintro ⟨u, b, hb, hp⟩
      simp only [Bool.and_eq_true, beq_iff_eq] at hp
      exact hp.1 ▸ hp.2 ▸ hb
  bySeq t seq h := by
    rw [getHandleBySeq, hs.links, mem_scan]
    constructor
    · exact fun hh => ⟨_, _, hh, by simp⟩
    · rintro ⟨u, b, hb, hp⟩
      simp only [Bool.and_eq_true, beq_iff_eq] at hp
      exact hp.1 ▸ hp.2 ▸ hb
  byType t subclass h := by
    simp only [getHandleSet, mem_handlesOfType, hs.types, mem_scan]
    constructor
    · rintro ⟨c, -, hc, b, hb⟩; exact ⟨c, b, hb, hc⟩
    · rintro ⟨c, b, hb, hc⟩; exact ⟨c, Nat.le_of_lt (hs.typed hb).lt_nTypes, hc, b, hb⟩
  byTarget := byTarget_iff hs
  bySTI := bySTI_iff hs
  bins i h := by rw [hs.bins, Option.map_eq_some_iff]
  size := by rw [hs.size, hs.orphans]; simp
  nodup := hs.nodup
  distinct g hg h hh he := by
    obtain ⟨t, b, hb⟩ := hs.has_of_mem hg
    exact hs.unique hb ⟨hh, he ▸ hb.2⟩

end Lookup

/-! ## Concrete tables -/

def unitOps : TruthOps Unit := ⟨fun _ => false, fun _ _ => (), ()⟩

def oneNode : AtomTable Unit :=
  (empty.add unitOps (.init unitOps CONCEPT_NODE (.node "n") ()) true).1

/-- `s` after the addition of a list link with these members. -/
def withList (s : AtomTable Unit) (members : List Handle) : AtomTable Unit :=
  (s.add unitOps (.init unitOps LIST_LINK (.link members) ()) true).1

theorem apply_oneNode :
    empty.apply ClassServer.script unitOps (.addNode CONCEPT_NODE "n" ()) = some oneNode := rfl

theorem newLink_list (o : List Handle) : Atom.newLink ClassServer.script unitOps LIST_LINK o () =
    some (.init unitOps LIST_LINK (.link o) ()) := by
  have hlink : ClassServer.script.isA LIST_LINK LINK = true := by decide +kernel
  have hord : ClassServer.script.isA LIST_LINK UNORDERED_LINK = false := by decide +kernel
  simp [Atom.newLink, Atom.setOutgoingSet, hlink, hord]

/-- A link whose arity wraps to zero has no targets and equals the empty link. -/
theorem targets_of_wrap {o : List Handle} (ho : o.length % 65536 = 0) :
    (Body.link o).arity = 0 ∧ (Body.link o).targets = [] := by
  have : (Body.link o).arity = 0 := ho
  exact ⟨this, by simp [Body.targets, this]⟩

section Wrapped
variable {s : AtomTable Unit} {o : List Handle} (hidx : s.linkIndex LIST_LINK o = none)
  (hvalid : ∀ x ∈ o, s.isValidHandle x = true)
include hidx hvalid

theorem getHandle_list : s.getHandle (.init unitOps LIST_LINK (.link o) ()) = none ∧
    (Atom.init unitOps LIST_LINK (.link o) ()).outgoing.all s.isValidHandle = true := by
  refine ⟨?_, List.all_eq_true.mpr hvalid⟩
  simp [getHandle, Atom.init, hidx]

theorem apply_addLink :
    s.apply ClassServer.script unitOps (.addLink LIST_LINK o ()) = some (s.withList o) := by
  obtain ⟨hget, hall⟩ := getHandle_list hidx hvalid
  simp only [apply, newLink_list, addNew, Option.bind_eq_bind, Option.bind_some, withList, add, hget,
    hall, if_true, Option.isSome_some]

/-- Adding a wrapped link the sequence index does not know: the counter goes up
in any case, the set grows only without an equal atom, and no incoming list of
another atom changes. -/
theorem withList_wrapped (ho : o.length % 65536 = 0) :
    (s.withList o).size = s.size + 1 ∧ (s.withList o).orphans = s.orphans ∧
      (s.withList o).atomSet = (if s.holdsEqual (.init unitOps LIST_LINK (.link o) ()) then s.atomSet
        else s.brkUuid :: s.atomSet) ∧
      (s.withList o).outgoing s.brkUuid = o ∧
      ∀ x, x ≠ s.brkUuid → (s.withList o).incoming x = s.incoming x := by
  obtain ⟨hget, hall⟩ := getHandle_list hidx hvalid
  have htargets : (Atom.init unitOps LIST_LINK (.link o) ()).body.targets = [] :=
    (targets_of_wrap ho).2
  have hequal : holdsEqual { s with size := s.size + 1 } (.init unitOps LIST_LINK (.link o) ()) =
      s.holdsEqual (.init unitOps LIST_LINK (.link o) ()) := rfl
  simp only [withList, add, hget, hall, if_true, htargets, List.foldl_nil, insertHandle, insertAtom,
    hequal]
  cases s.holdsEqual (.init unitOps LIST_LINK (.link o) ()) with
  | true => exact ⟨rfl, rfl, rfl, by simp [outgoing, bodyOf, Atom.init, Body.outgoing],
      fun x hx => by simp [incoming, hx]⟩
  | false => exact ⟨rfl, rfl, rfl, by simp [outgoing, bodyOf, Atom.init, Body.outgoing],
      fun x hx => by simp [incoming, hx]⟩

end Wrapped

theorem long_members (h : Handle) : ∃ o : List Handle, o.length = 65536 ∧ ∀ x ∈ o, x = h :=
  ⟨List.replicate 65536 h, List.length_replicate, fun _ hx => List.eq_of_mem_replicate hx⟩

/-- Calls on atoms that exist, with links short enough for their arity. -/
def Careful (cs : ClassServer) (s : AtomTable TV) (op : TableOp TV) : Prop :=
  Allowed cs s op ∧ ShortLink op ∧ ToStored s op

/-- Along every careful run each index agrees with a scan, every atom sits in
exactly its bin, the counter counts, and no two stored atoms are equal. -/
theorem indexes_exact_along_runs (cs : ClassServer) (ops : TruthOps TV) (s : AtomTable TV)
    (r : Reachable cs ops (Careful cs) s) : IndexesExact cs s :=
  (r.inv fun _ _ h => h).1.indexesExact

theorem indexes_exact_of_two_atoms :
    Reachable ClassServer.script unitOps (Careful ClassServer.script) (oneNode.withList [1, 1]) ∧
      IndexesExact ClassServer.script (oneNode.withList [1, 1]) := by
  have r : Reachable ClassServer.script unitOps (Careful ClassServer.script)
      (oneNode.withList [1, 1]) :=
    .step (.addLink LIST_LINK [1, 1] ())
      (.step (.addNode CONCEPT_NODE "n" ()) .empty ⟨⟨by decide +kernel, by decide⟩, trivial, trivial⟩
        apply_oneNode)
      ⟨⟨by decide +kernel, by decide⟩, by simp [ShortLink], trivial⟩ rfl
  exact ⟨r, indexes_exact_along_runs _ _ _ r⟩

/-- The arity of 65536 members is zero, so the new link equals the empty one:
the counter goes up and the set of atoms does not. -/
theorem size_wrong_after_wrapped_link :
    ¬ ∀ s : AtomTable Unit, Reachable ClassServer.script unitOps (Allowed ClassServer.script) s →
      IndexesExact ClassServer.script s := by
  intro h
  obtain ⟨o, hlen, hmem⟩ := long_members 1
  have ho : o.length % 65536 = 0 := by rw [hlen]
  have hne : o ≠ [] := by
    rintro rfl
    cases hlen
  have hidx : (oneNode.withList []).linkIndex LIST_LINK o = none := by
    change (Function.update (fun _ => none) [] (some 2) : List Handle → Option Handle) o = none
    rw [Function.update_of_ne hne]
  have hvalid : ∀ x ∈ o, (oneNode.withList []).isValidHandle x = true :=
    fun x hx => hmem x hx ▸ rfl
  have r₂ : Reachable ClassServer.script unitOps (Allowed ClassServer.script)
      (oneNode.withList []) :=
    .step (.addLink LIST_LINK [] ())
      (.step (.addNode CONCEPT_NODE "n" ()) .empty ⟨by decide +kernel, by decide⟩ apply_oneNode)
      ⟨by decide +kernel, by decide⟩ rfl
  have hstored : 1 ∈ (oneNode.withList []).atomSet := by decide
  have r : Reachable ClassServer.script unitOps (Allowed ClassServer.script)
      ((oneNode.withList []).withList o) :=
    .step (.addLink LIST_LINK o ()) r₂
      ⟨by decide +kernel, fun x hx => (hmem x hx).symm ▸ hstored⟩ (apply_addLink hidx hvalid)
  have hequal : (oneNode.withList []).holdsEqual (.init unitOps LIST_LINK (.link o) ()) = true := by
    obtain ⟨harity, htargets⟩ := targets_of_wrap ho
    have hsame : (Body.link []).sameAs (Body.link o) = true := by
      simp only [Body.sameAs, harity, htargets]
      rfl
    have htwo : ((oneNode.withList []).handleMap 2).map (fun b => (b.type, b.body)) =
        some (LIST_LINK, .link []) := rfl
    obtain ⟨b, hb, hkey⟩ := Option.map_eq_some_iff.mp htwo
    rw [Prod.mk.injEq] at hkey
    simp only [holdsEqual, Bool.or_eq_true, List.any_eq_true]
    refine .inl ⟨2, by decide, ?_⟩
    simp only [hb, Option.map_some, Option.getD_some, Atom.sameAs, hkey.1, hkey.2, Atom.init, hsame,
      beq_self_eq_true, Bool.and_self]
  obtain ⟨hsize, horphans, hatoms, -, -⟩ := withList_wrapped hidx hvalid ho
  have hcount := (h _ r).size
  rw [hsize, horphans, hatoms, hequal] at hcount
  cases hcount

/-! ## Incoming lists -/

end AtomTable

end OpenCog
