import OpenCog.AtomSpace.AtomTable

/-! What a table keeps true between operations: every index and the incoming
lists are determined by the stored atoms alone. `Inv` carries this; `Removed`
says once what taking a set of atoms out does, for both removal paths. -/
namespace OpenCog

variable {TV : Type}

namespace AtomTable

/-- The part of an atom that never changes. -/
def key (s : AtomTable TV) (h : Handle) : Option (TypeCode × Body) :=
  (s.handleMap h).map fun a => (a.type, a.body)

def linked (s : AtomTable TV) (h : Handle) : Bool := ((s.handleMap h).map Atom.inTable).getD false

/-- `h` is stored and is an atom of this type and body. -/
def Has (s : AtomTable TV) (h : Handle) (t : TypeCode) (b : Body) : Prop :=
  h ∈ s.atomSet ∧ s.key h = some (t, b)

/-- What the constructors check, and the sizes the code's types can hold. -/
def WellTyped (cs : ClassServer) (t : TypeCode) : Body → Prop
  | .node name => cs.isA t NODE = true ∧ NoNul name
  | .link o => cs.isA t LINK = true ∧ o.length < 65536

structure Inv (cs : ClassServer) (s : AtomTable TV) : Prop where
  nodup : s.atomSet.Nodup
  orphans : s.orphans = []
  size : s.size = s.atomSet.length
  live : ∀ h ∈ s.atomSet, ∃ t b, s.key h = some (t, b)
  fresh : ∀ h, s.brkUuid ≤ h → s.handleMap h = none
  typed : ∀ {h t b}, s.Has h t b → WellTyped cs t b
  members : ∀ {h t b}, s.Has h t b → ∀ x ∈ b.outgoing, x ∈ s.atomSet ∧ x < h
  nodes : ∀ {t n h}, s.nodeIndex t n = some h ↔ s.Has h t (.node n)
  links : ∀ {t o h}, s.linkIndex t o = some h ↔ s.Has h t (.link o)
  types : ∀ {t h}, h ∈ s.typeIndex t ↔ ∃ b, s.Has h t b
  targets : ∀ {t h}, h ∈ s.targetTypeIndex t ↔
    ∃ u b, s.Has h u b ∧ ∃ x ∈ b.outgoing, s.typeOf x = some t
  bins : ∀ {i h}, h ∈ s.importanceIndex i ↔
    h ∈ s.atomSet ∧ ∃ av, s.avOf h = some av ∧ importanceBin av.sti = i
  dual : ∀ x ∈ s.atomSet, ∀ l,
    (s.incoming x).count l = if l ∈ s.atomSet then (s.outgoing l).count x else 0
  clean : ∀ h ∈ s.atomSet, s.decayedFlag h = false
  inTable : ∀ h ∈ s.atomSet, s.linked h = true

/-! ## Reading the fields of an atom -/

theorem typeOf_eq (s : AtomTable TV) (h : Handle) : s.typeOf h = (s.key h).map Prod.fst := by
  simp only [typeOf, key, Option.map_map]; rfl

theorem bodyOf_eq (s : AtomTable TV) (h : Handle) : s.bodyOf h = (s.key h).map Prod.snd := by
  simp only [bodyOf, key, Option.map_map]; rfl

theorem outgoing_eq (s : AtomTable TV) (h : Handle) :
    s.outgoing h = ((s.key h).map fun k => k.2.outgoing).getD [] := by
  simp only [outgoing, bodyOf_eq, Option.map_map]; rfl

theorem outgoing_of_key {s : AtomTable TV} {h : Handle} {t : TypeCode} {b : Body}
    (hk : s.key h = some (t, b)) : s.outgoing h = b.outgoing := by
  simp [outgoing_eq, hk]

theorem key_of_some {s : AtomTable TV} {h : Handle} {a : Atom TV} (ha : s.handleMap h = some a) :
    s.key h = some (a.type, a.body) := by
  simp [key, ha]

theorem exists_of_key {s : AtomTable TV} {h : Handle} {t : TypeCode} {b : Body}
    (hk : s.key h = some (t, b)) : ∃ a, s.handleMap h = some a ∧ a.type = t ∧ a.body = b := by
  simp only [key, Option.map_eq_some_iff] at hk
  obtain ⟨a, ha, he⟩ := hk
  exact ⟨a, ha, congrArg Prod.fst he, congrArg Prod.snd he⟩

theorem incoming_of_some {s : AtomTable TV} {h : Handle} {a : Atom TV}
    (ha : s.handleMap h = some a) : s.incoming h = a.incoming := by
  simp [incoming, ha]

/-! ## Overwriting fields -/

section Modify
variable (s : AtomTable TV) (h : Handle) {f : Atom TV → Atom TV}

theorem map_modify {β : Type} (p : Atom TV → β) (hf : ∀ a, p (f a) = p a) (g : Handle) :
    ((s.modify h f).handleMap g).map p = (s.handleMap g).map p := by
  by_cases e : g = h
  · subst e
    simp only [modify, if_true, Option.map_map]
    congr 1
    funext a
    exact hf a
  · simp only [modify, if_neg e]

theorem key_modify (ht : ∀ a, (f a).type = a.type) (hb : ∀ a, (f a).body = a.body) :
    (s.modify h f).key = s.key := by
  funext g
  exact map_modify s h (fun a => (a.type, a.body)) (fun a => by rw [ht, hb]) g

theorem avOf_modify (ha : ∀ a, (f a).attentionValue = a.attentionValue) :
    (s.modify h f).avOf = s.avOf := by
  funext g
  exact map_modify s h Atom.attentionValue ha g

theorem decayedFlag_modify (ha : ∀ a, (f a).removedByDecay = a.removedByDecay) :
    (s.modify h f).decayedFlag = s.decayedFlag := by
  funext g
  exact congrArg (·.getD false) (map_modify s h Atom.removedByDecay ha g)

theorem incoming_modify (ha : ∀ a, (f a).incoming = a.incoming) :
    (s.modify h f).incoming = s.incoming := by
  funext g
  exact congrArg (·.getD []) (map_modify s h Atom.incoming ha g)

theorem linked_modify (ha : ∀ a, (f a).inTable = a.inTable) :
    (s.modify h f).linked = s.linked := by
  funext g
  exact congrArg (·.getD false) (map_modify s h Atom.inTable ha g)

theorem isNone_modify (g : Handle) :
    (s.modify h f).handleMap g = none ↔ s.handleMap g = none := by
  by_cases e : g = h
  · subst e; simp [modify]
  · simp [modify, e]

end Modify

/-! ## The invariant reads only some fields -/

/-- Two tables with the same keys, indices and counters. -/
structure SameKeys (s s' : AtomTable TV) : Prop where
  key : s'.key = s.key
  absent : ∀ g, s'.handleMap g = none ↔ s.handleMap g = none
  atomSet : s'.atomSet = s.atomSet
  orphans : s'.orphans = s.orphans
  size : s'.size = s.size
  brkUuid : s'.brkUuid = s.brkUuid
  nodeIndex : s'.nodeIndex = s.nodeIndex
  linkIndex : s'.linkIndex = s.linkIndex
  typeIndex : s'.typeIndex = s.typeIndex
  targetTypeIndex : s'.targetTypeIndex = s.targetTypeIndex

theorem SameKeys.refl (s : AtomTable TV) : SameKeys s s :=
  ⟨rfl, fun _ => Iff.rfl, rfl, rfl, rfl, rfl, rfl, rfl, rfl, rfl⟩

theorem SameKeys.trans {a b c : AtomTable TV} (h : SameKeys a b) (k : SameKeys b c) :
    SameKeys a c where
  key := k.key.trans h.key
  absent g := (k.absent g).trans (h.absent g)
  atomSet := k.atomSet.trans h.atomSet
  orphans := k.orphans.trans h.orphans
  size := k.size.trans h.size
  brkUuid := k.brkUuid.trans h.brkUuid
  nodeIndex := k.nodeIndex.trans h.nodeIndex
  linkIndex := k.linkIndex.trans h.linkIndex
  typeIndex := k.typeIndex.trans h.typeIndex
  targetTypeIndex := k.targetTypeIndex.trans h.targetTypeIndex

theorem SameKeys.has {s s' : AtomTable TV} (e : SameKeys s s') {h : Handle} {t : TypeCode}
    {b : Body} : s'.Has h t b ↔ s.Has h t b := by
  simp only [Has, e.key, e.atomSet]

theorem SameKeys.typeOf {s s' : AtomTable TV} (e : SameKeys s s') (h : Handle) :
    s'.typeOf h = s.typeOf h := by
  rw [typeOf_eq, typeOf_eq, e.key]

theorem SameKeys.outgoing {s s' : AtomTable TV} (e : SameKeys s s') (h : Handle) :
    s'.outgoing h = s.outgoing h := by
  rw [outgoing_eq, outgoing_eq, e.key]

theorem sameKeys_modify (s : AtomTable TV) (h : Handle) {f : Atom TV → Atom TV}
    (ht : ∀ a, (f a).type = a.type) (hb : ∀ a, (f a).body = a.body) :
    SameKeys s (s.modify h f) where
  key := key_modify s h ht hb
  absent := isNone_modify s h
  atomSet := rfl
  orphans := rfl
  size := rfl
  brkUuid := rfl
  nodeIndex := rfl
  linkIndex := rfl
  typeIndex := rfl
  targetTypeIndex := rfl

/-- To keep the invariant over unchanged keys, four facts are left to check. -/
theorem Inv.of_sameKeys {cs : ClassServer} {s s' : AtomTable TV} (hs : Inv cs s)
    (e : SameKeys s s')
    (bins : ∀ {i h}, h ∈ s'.importanceIndex i ↔
      h ∈ s.atomSet ∧ ∃ av, s'.avOf h = some av ∧ importanceBin av.sti = i)
    (dual : ∀ x ∈ s.atomSet, ∀ l,
      (s'.incoming x).count l = if l ∈ s.atomSet then (s.outgoing l).count x else 0)
    (clean : ∀ h ∈ s.atomSet, s'.decayedFlag h = false)
    (inTable : ∀ h ∈ s.atomSet, s'.linked h = true) : Inv cs s' where
  nodup := by rw [e.atomSet]; exact hs.nodup
  orphans := by rw [e.orphans]; exact hs.orphans
  size := by rw [e.size, e.atomSet]; exact hs.size
  live := by rw [e.atomSet, e.key]; exact hs.live
  fresh h hh := (e.absent h).mpr (hs.fresh h (e.brkUuid ▸ hh))
  typed hh := hs.typed (e.has.mp hh)
  members hh x hx := by rw [e.atomSet]; exact hs.members (e.has.mp hh) x hx
  nodes := by simp only [e.nodeIndex, e.has]; exact hs.nodes
  links := by simp only [e.linkIndex, e.has]; exact hs.links
  types := by simp only [e.typeIndex, e.has]; exact hs.types
  targets := by simp only [e.targetTypeIndex, e.has, e.typeOf]; exact hs.targets
  bins := by rw [e.atomSet]; exact bins
  dual x hx l := by
    rw [e.atomSet] at hx ⊢
    rw [e.outgoing]
    exact dual x hx l
  clean h hh := clean h (e.atomSet ▸ hh)
  inTable h hh := inTable h (e.atomSet ▸ hh)

/-- Overwriting a field the invariant does not read keeps it. -/
theorem Inv.modify_other {cs : ClassServer} {s : AtomTable TV} (hs : Inv cs s) (h : Handle)
    {f : Atom TV → Atom TV} (ht : ∀ a, (f a).type = a.type) (hb : ∀ a, (f a).body = a.body)
    (hav : ∀ a, (f a).attentionValue = a.attentionValue)
    (hd : ∀ a, (f a).removedByDecay = a.removedByDecay)
    (hi : ∀ a, (f a).incoming = a.incoming) (hl : ∀ a, (f a).inTable = a.inTable) :
    Inv cs (s.modify h f) := by
  apply hs.of_sameKeys (sameKeys_modify s h ht hb)
  · rw [avOf_modify s h hav]; exact hs.bins
  · rw [incoming_modify s h hi]; exact hs.dual
  · rw [decayedFlag_modify s h hd]; exact hs.clean
  · rw [linked_modify s h hl]; exact hs.inTable

/-! ## Consequences -/

theorem Inv.has_of_mem {cs : ClassServer} {s : AtomTable TV} (hs : Inv cs s) {h : Handle}
    (hm : h ∈ s.atomSet) : ∃ t b, s.Has h t b := by
  obtain ⟨t, b, hk⟩ := hs.live h hm
  exact ⟨t, b, hm, hk⟩

theorem Inv.record {cs : ClassServer} {s : AtomTable TV} (hs : Inv cs s) {h : Handle}
    (hm : h ∈ s.atomSet) : s.handleMap h ≠ none := by
  obtain ⟨t, b, hk⟩ := hs.live h hm
  obtain ⟨a, ha, -, -⟩ := exists_of_key hk
  rw [ha]
  exact Option.some_ne_none a

theorem Inv.lt_brk {cs : ClassServer} {s : AtomTable TV} (hs : Inv cs s) {h : Handle}
    (hm : h ∈ s.atomSet) : h < s.brkUuid := by
  by_contra hn
  obtain ⟨t, b, hk⟩ := hs.live h hm
  obtain ⟨a, ha, -, -⟩ := exists_of_key hk
  rw [hs.fresh h (Nat.le_of_not_lt hn)] at ha
  cases ha

theorem Inv.isValidHandle {cs : ClassServer} {s : AtomTable TV} (hs : Inv cs s) {h : Handle}
    (hm : h ∈ s.atomSet) : s.isValidHandle h = true := by
  obtain ⟨t, b, hk⟩ := hs.live h hm
  obtain ⟨a, ha, -, -⟩ := exists_of_key hk
  simp [AtomTable.isValidHandle, ha, hs.lt_brk hm]

/-- Two stored atoms of the same type and body are the same atom. -/
theorem Inv.unique {cs : ClassServer} {s : AtomTable TV} (hs : Inv cs s) {g h : Handle}
    {t : TypeCode} {b : Body} (hg : s.Has g t b) (hh : s.Has h t b) : g = h := by
  cases b with
  | node n => exact Option.some.inj ((hs.nodes.mpr hg).symm.trans (hs.nodes.mpr hh))
  | link o => exact Option.some.inj ((hs.links.mpr hg).symm.trans (hs.links.mpr hh))

theorem WellTyped.length_lt {cs : ClassServer} {t : TypeCode} {b : Body}
    (h : WellTyped cs t b) : b.outgoing.length < 65536 := by
  cases b with
  | node n => simp [Body.outgoing]
  | link o => exact h.2

/-- Below 65536 members the code's equality is equality of bodies. -/
theorem sameAs_iff {b c : Body} (hb : b.outgoing.length < 65536) (hc : c.outgoing.length < 65536) :
    b.sameAs c = true ↔ b = c := by
  cases b with
  | node n =>
    cases c with
    | node m => simp [Body.sameAs]
    | link p => simp [Body.sameAs]
  | link o =>
    cases c with
    | node m => simp [Body.sameAs]
    | link p =>
      simp only [Body.sameAs, Body.targets_of_lt hb, Body.targets_of_lt hc, Bool.and_eq_true,
        beq_iff_eq, Body.outgoing, Body.link.injEq]
      constructor
      · exact fun h => h.2
      · rintro rfl; exact ⟨rfl, rfl⟩

theorem atom_sameAs_iff {a b : Atom TV} (ha : a.outgoing.length < 65536)
    (hb : b.outgoing.length < 65536) :
    a.sameAs b = true ↔ a.type = b.type ∧ a.body = b.body := by
  simp only [Atom.sameAs, Bool.and_eq_true, beq_iff_eq, sameAs_iff ha hb]

/-- Who refers to a stored atom: the links of its incoming list. -/
theorem Inv.mem_incoming {cs : ClassServer} {s : AtomTable TV} (hs : Inv cs s) {x : Handle}
    (hx : x ∈ s.atomSet) (l : Handle) :
    l ∈ s.incoming x ↔ l ∈ s.atomSet ∧ x ∈ s.outgoing l := by
  rw [← List.count_pos_iff, hs.dual x hx l]
  by_cases hl : l ∈ s.atomSet
  · simp [hl, List.count_pos_iff]
  · simp [hl]

theorem Inv.lt_of_incoming {cs : ClassServer} {s : AtomTable TV} (hs : Inv cs s) {x l : Handle}
    (hx : x ∈ s.atomSet) (hl : l ∈ s.incoming x) : l ∈ s.atomSet ∧ x < l := by
  obtain ⟨hm, ho⟩ := (hs.mem_incoming hx l).mp hl
  obtain ⟨t, b, hb⟩ := hs.has_of_mem hm
  rw [outgoing_of_key hb.2] at ho
  exact ⟨hm, (hs.members hb x ho).2⟩

/-! ## Taking a set of atoms out -/

/-- `s'` is `s` without the atoms of `D`: they are in no index any more and no
incoming list mentions them. Their records may still be in the TLB. -/
structure Removed (s s' : AtomTable TV) (D : Handle → Prop) : Prop where
  key : s'.key = s.key
  avOf : s'.avOf = s.avOf
  decayedFlag : ∀ h, ¬ D h → s'.decayedFlag h = s.decayedFlag h
  linked : s'.linked = s.linked
  fresh : ∀ h, s.handleMap h = none → s'.handleMap h = none
  brkUuid : s'.brkUuid = s.brkUuid
  orphans : s'.orphans = s.orphans
  nodup : s'.atomSet.Nodup
  atomSet : ∀ h, h ∈ s'.atomSet ↔ h ∈ s.atomSet ∧ ¬ D h
  size : s'.size = s'.atomSet.length
  nodes : ∀ t n h, s'.nodeIndex t n = some h ↔ s.nodeIndex t n = some h ∧ ¬ D h
  links : ∀ t o h, s'.linkIndex t o = some h ↔ s.linkIndex t o = some h ∧ ¬ D h
  types : ∀ t h, h ∈ s'.typeIndex t ↔ h ∈ s.typeIndex t ∧ ¬ D h
  targets : ∀ t h, h ∈ s'.targetTypeIndex t ↔ h ∈ s.targetTypeIndex t ∧ ¬ D h
  bins : ∀ i h, h ∈ s'.importanceIndex i ↔ h ∈ s.importanceIndex i ∧ ¬ D h
  kept : ∀ x ∈ s'.atomSet, ∀ l, ¬ D l → (s'.incoming x).count l = (s.incoming x).count l
  gone : ∀ x ∈ s'.atomSet, ∀ l, D l → l ∉ s'.incoming x

theorem Removed.has {s s' : AtomTable TV} {D : Handle → Prop} (r : Removed s s' D) {h : Handle}
    {t : TypeCode} {b : Body} : s'.Has h t b ↔ s.Has h t b ∧ ¬ D h := by
  simp only [Has, r.key, r.atomSet]
  tauto

/-- Removing a set closed under incoming links keeps the invariant. -/
theorem Inv.removed {cs : ClassServer} {s s' : AtomTable TV} {D : Handle → Prop} (hs : Inv cs s)
    (r : Removed s s' D) (closed : ∀ x ∈ s.atomSet, D x → ∀ l ∈ s.incoming x, D l) :
    Inv cs s' where
  nodup := r.nodup
  orphans := by rw [r.orphans]; exact hs.orphans
  size := r.size
  live h hh := by rw [r.key]; exact hs.live h ((r.atomSet h).mp hh).1
  fresh h hh := r.fresh h (hs.fresh h (r.brkUuid ▸ hh))
  typed hh := hs.typed (r.has.mp hh).1
  members := by
    intro h t b hh x hx
    obtain ⟨hb, hd⟩ := r.has.mp hh
    obtain ⟨hm, hlt⟩ := hs.members hb x hx
    refine ⟨(r.atomSet x).mpr ⟨hm, fun hD => hd ?_⟩, hlt⟩
    -- a member of D that h refers to would put h into D
    apply closed x hm hD h
    rw [hs.mem_incoming hm, outgoing_of_key hb.2]
    exact ⟨hb.1, hx⟩
  nodes := by intro t n h; rw [r.nodes, hs.nodes, r.has]
  links := by intro t o h; rw [r.links, hs.links, r.has]
  types := by intro t h; simp only [r.types, hs.types, r.has, exists_and_right]
  targets := by
    simp only [r.targets, hs.targets, r.has, typeOf_eq, r.key]
    tauto
  bins := by
    simp only [r.bins, hs.bins, r.atomSet, r.avOf]
    tauto
  dual := by
    intro x hx l
    obtain ⟨hxs, _⟩ := (r.atomSet x).mp hx
    by_cases hl : D l
    · rw [List.count_eq_zero_of_not_mem (r.gone x hx l hl), if_neg]
      exact fun hm => ((r.atomSet l).mp hm).2 hl
    · rw [r.kept x hx l hl, hs.dual x hxs l, outgoing_eq, outgoing_eq, r.key]
      by_cases hm : l ∈ s.atomSet
      · rw [if_pos hm, if_pos ((r.atomSet l).mpr ⟨hm, hl⟩)]
      · rw [if_neg hm, if_neg (fun h => hm ((r.atomSet l).mp h).1)]
  clean h hh := by
    obtain ⟨hm, hd⟩ := (r.atomSet h).mp hh
    rw [r.decayedFlag h hd]
    exact hs.clean h hm
  inTable h hh := by rw [r.linked]; exact hs.inTable h ((r.atomSet h).mp hh).1

/-- Forgetting the record of an atom that is not stored keeps the invariant. -/
theorem Inv.deleteAtom {cs : ClassServer} {s : AtomTable TV} (hs : Inv cs s) {h : Handle}
    (hn : h ∉ s.atomSet) :
    Inv cs { s with handleMap := fun g => if g = h then none else s.handleMap g } := by
  have ne : ∀ {g}, g ∈ s.atomSet → g ≠ h := fun hg e => hn (e ▸ hg)
  have hhas : ∀ {g t b},
      Has { s with handleMap := fun g => if g = h then none else s.handleMap g } g t b ↔
        s.Has g t b := by
    intro g t b
    constructor
    · rintro ⟨hm, hk⟩; exact ⟨hm, by simpa [key, ne hm] using hk⟩
    · rintro ⟨hm, hk⟩; exact ⟨hm, by simpa [key, ne hm] using hk⟩
  refine ⟨hs.nodup, hs.orphans, hs.size, ?_, ?_, ?_, ?_, ?_, ?_, ?_, ?_, ?_, ?_, ?_, ?_⟩
  · intro g hg; simpa [key, ne hg] using hs.live g hg
  · intro g hg
    by_cases e : g = h
    · simp [e]
    · simpa [e] using hs.fresh g hg
  · exact fun hh => hs.typed (hhas.mp hh)
  · exact fun hh => hs.members (hhas.mp hh)
  · simp only [hhas]; exact hs.nodes
  · simp only [hhas]; exact hs.links
  · simp only [hhas]; exact hs.types
  · intro t g
    rw [hs.targets]
    simp only [hhas]
    constructor
    · rintro ⟨u, b, hb, x, hx, ht⟩
      refine ⟨u, b, hb, x, hx, ?_⟩
      simpa [typeOf, ne (hs.members hb x hx).1] using ht
    · rintro ⟨u, b, hb, x, hx, ht⟩
      refine ⟨u, b, hb, x, hx, ?_⟩
      simpa [typeOf, ne (hs.members hb x hx).1] using ht
  · intro i g
    rw [hs.bins]
    constructor
    · rintro ⟨hm, av, hav, hb⟩; exact ⟨hm, av, by simpa [avOf, ne hm] using hav, hb⟩
    · rintro ⟨hm, av, hav, hb⟩; exact ⟨hm, av, by simpa [avOf, ne hm] using hav, hb⟩
  · intro x hx l
    have hd := hs.dual x hx l
    by_cases hl : l ∈ s.atomSet
    · simpa [incoming, outgoing, bodyOf, ne hx, ne hl, hl] using hd
    · simpa [incoming, ne hx, hl] using hd
  · intro g hg; simpa [decayedFlag, ne hg] using hs.clean g hg
  · intro g hg; simpa [linked, ne hg] using hs.inTable g hg

end AtomTable

end OpenCog
