import OpenCog.AtomSpace.TableInvariant

/-! Adding an atom, merging into a stored one, and moving an atom between
importance bins keep the invariant. -/
namespace OpenCog

variable {TV : Type}

namespace AtomTable
open Index

/-! ## Writes to incoming lists only -/

structure OnlyIncoming (s s' : AtomTable TV) : Prop extends SameKeys s s' where
  avOf : s'.avOf = s.avOf
  decayedFlag : s'.decayedFlag = s.decayedFlag
  linked : s'.linked = s.linked
  importanceIndex : s'.importanceIndex = s.importanceIndex

theorem OnlyIncoming.refl (s : AtomTable TV) : OnlyIncoming s s :=
  ⟨SameKeys.refl s, rfl, rfl, rfl, rfl⟩

theorem OnlyIncoming.trans {a b c : AtomTable TV} (h : OnlyIncoming a b) (k : OnlyIncoming b c) :
    OnlyIncoming a c :=
  ⟨h.toSameKeys.trans k.toSameKeys, k.avOf.trans h.avOf, k.decayedFlag.trans h.decayedFlag,
    k.linked.trans h.linked, k.importanceIndex.trans h.importanceIndex⟩

theorem onlyIncoming_modify (s : AtomTable TV) (x : Handle) (f : List Handle → List Handle) :
    OnlyIncoming s (s.modify x fun a => { a with incoming := f a.incoming }) :=
  ⟨sameKeys_modify s x (fun _ => rfl) (fun _ => rfl), avOf_modify s x fun _ => rfl,
    decayedFlag_modify s x fun _ => rfl, linked_modify s x fun _ => rfl, rfl⟩

theorem incoming_modify_incoming (s : AtomTable TV) (x : Handle) (f : List Handle → List Handle)
    (g : Handle) (hg : s.handleMap g ≠ none) :
    (s.modify x fun a => { a with incoming := f a.incoming }).incoming g =
      if g = x then f (s.incoming x) else s.incoming g := by
  by_cases e : g = x
  · subst e
    obtain ⟨a, ha⟩ := Option.ne_none_iff_exists'.mp hg
    simp [modify, incoming, ha]
  · simp [modify, incoming, e]

/-- One entry for `h` per occurrence: the loop at the end of `add`. -/
theorem foldl_addIncomingHandle (h : Handle) (xs : List Handle) (s : AtomTable TV) :
    OnlyIncoming s (xs.foldl (addIncomingHandle h) s) ∧
      ∀ g, s.handleMap g ≠ none → ∀ l, ((xs.foldl (addIncomingHandle h) s).incoming g).count l =
        (s.incoming g).count l + if l = h then xs.count g else 0 := by
  induction xs generalizing s with
  | nil => exact ⟨OnlyIncoming.refl s, by simp⟩
  | cons x xs ih =>
    have hx : OnlyIncoming s (addIncomingHandle h s x) := onlyIncoming_modify s x (h :: ·)
    obtain ⟨rest, hcount⟩ := ih (addIncomingHandle h s x)
    refine ⟨hx.trans rest, ?_⟩
    intro g hg l
    rw [List.foldl_cons, hcount g (mt (hx.absent g).mp hg) l, addIncomingHandle,
      incoming_modify_incoming s x (h :: ·) g hg]
    by_cases e : g = x
    · subst e
      by_cases el : l = h
      · subst el; simp; omega
      · simp [el, List.count_cons_of_ne (Ne.symm el)]
    · simp [e, List.count_cons_of_ne (Ne.symm e)]

theorem handleMap_foldl_addIncomingHandle (h : Handle) {g : Handle} (xs : List Handle)
    (hg : g ∉ xs) (s : AtomTable TV) :
    (xs.foldl (addIncomingHandle h) s).handleMap g = s.handleMap g := by
  induction xs generalizing s with
  | nil => rfl
  | cons x xs ih =>
    rw [List.mem_cons, not_or] at hg
    rw [List.foldl_cons, ih hg.2]
    simp [addIncomingHandle, AtomTable.modify, hg.1]

/-! ## A new atom -/

/-- `s'` is `s` with the atom `a` stored under `h`. -/
structure Added (s s' : AtomTable TV) (h : Handle) (a : Atom TV) : Prop where
  key : ∀ g, s'.key g = if g = h then some (a.type, a.body) else s.key g
  avOf : ∀ g, s'.avOf g = if g = h then some a.attentionValue else s.avOf g
  decayedFlag : ∀ g, s'.decayedFlag g = if g = h then a.removedByDecay else s.decayedFlag g
  linked : ∀ g, s'.linked g = if g = h then true else s.linked g
  absent : ∀ g, g ≠ h → (s'.handleMap g = none ↔ s.handleMap g = none)
  brkUuid : s'.brkUuid = h + 1
  orphans : s'.orphans = s.orphans
  atomSet : s'.atomSet = h :: s.atomSet
  size : s'.size = s.size + 1
  nodes : ∀ t n g, s'.nodeIndex t n = some g ↔
    s.nodeIndex t n = some g ∨ g = h ∧ t = a.type ∧ .node n = a.body
  links : ∀ t o g, s'.linkIndex t o = some g ↔
    s.linkIndex t o = some g ∨ g = h ∧ t = a.type ∧ .link o = a.body
  types : ∀ t g, g ∈ s'.typeIndex t ↔ g ∈ s.typeIndex t ∨ t = a.type ∧ g = h
  targets : ∀ t g, g ∈ s'.targetTypeIndex t ↔
    g ∈ s.targetTypeIndex t ∨ (∃ x ∈ a.outgoing, s.typeOf x = some t) ∧ g = h
  bins : ∀ i g, g ∈ s'.importanceIndex i ↔
    g ∈ s.importanceIndex i ∨ i = importanceBin a.attentionValue.sti ∧ g = h
  incoming : ∀ x ∈ s.atomSet, ∀ l, (s'.incoming x).count l =
    (s.incoming x).count l + if l = h then a.outgoing.count x else 0
  unreferenced : s'.incoming h = []

theorem Added.has {s s' : AtomTable TV} {h : Handle} {a : Atom TV} (r : Added s s' h a)
    (hn : h ∉ s.atomSet) {g : Handle} {t : TypeCode} {b : Body} :
    s'.Has g t b ↔ s.Has g t b ∨ g = h ∧ t = a.type ∧ b = a.body := by
  simp only [Has, r.atomSet, List.mem_cons, r.key]
  by_cases e : g = h
  · subst e
    simp only [true_or, if_true, true_and, Option.some.injEq, Prod.mk.injEq, hn, false_and,
      false_or]
    exact and_congr eq_comm eq_comm
  · simp [e]

theorem Inv.added {cs : ClassServer} {s s' : AtomTable TV} {a : Atom TV} (hs : Inv cs s)
    (r : Added s s' s.brkUuid a) (typed : WellTyped cs a.type a.body)
    (members : ∀ x ∈ a.outgoing, x ∈ s.atomSet) (clean : a.removedByDecay = false) :
    Inv cs s' := by
  have hn : s.brkUuid ∉ s.atomSet := fun hm => Nat.lt_irrefl _ (hs.lt_brk hm)
  have ne : ∀ {g}, g ∈ s.atomSet → g ≠ s.brkUuid := fun hg e => hn (e ▸ hg)
  have hmem : ∀ {g}, g ∈ s'.atomSet ↔ g = s.brkUuid ∨ g ∈ s.atomSet := by
    intro g; rw [r.atomSet, List.mem_cons]
  have hout : ∀ {l}, l ∈ s.atomSet → s'.outgoing l = s.outgoing l := by
    intro l hl; rw [outgoing_eq, outgoing_eq, r.key, if_neg (ne hl)]
  have houtNew : s'.outgoing s.brkUuid = a.outgoing := by
    rw [outgoing_eq, r.key, if_pos rfl]; rfl
  refine ⟨?_, ?_, ?_, ?_, ?_, ?_, ?_, ?_, ?_, ?_, ?_, ?_, ?_, ?_, ?_⟩
  · rw [r.atomSet]; exact List.nodup_cons.mpr ⟨hn, hs.nodup⟩
  · rw [r.orphans]; exact hs.orphans
  · rw [r.size, r.atomSet, hs.size]; simp
  · intro h hh
    rcases hmem.mp hh with rfl | hm
    · exact ⟨_, _, by rw [r.key, if_pos rfl]⟩
    · rw [r.key, if_neg (ne hm)]; exact hs.live h hm
  · intro h hh
    rw [r.brkUuid] at hh
    have hlt : s.brkUuid < h := hh
    exact (r.absent h (Nat.ne_of_gt hlt)).mpr (hs.fresh h (Nat.le_of_lt hlt))
  · intro h t b hh
    rcases (r.has hn).mp hh with hb | ⟨-, rfl, rfl⟩
    · exact hs.typed hb
    · exact typed
  · intro h t b hh x hx
    rw [hmem]
    rcases (r.has hn).mp hh with hb | ⟨rfl, rfl, rfl⟩
    · exact ⟨.inr (hs.members hb x hx).1, (hs.members hb x hx).2⟩
    · exact ⟨.inr (members x hx), hs.lt_brk (members x hx)⟩
  · intro t n h; rw [r.nodes, hs.nodes, r.has hn]
  · intro t o h; rw [r.links, hs.links, r.has hn]
  · intro t h
    simp only [r.types, hs.types, r.has hn, exists_or]
    grind
  · intro t h
    rw [r.targets, hs.targets]
    simp only [r.has hn]
    constructor
    · rintro (⟨u, b, hb, x, hx, ht⟩ | ⟨⟨x, hx, ht⟩, rfl⟩)
      · exact ⟨u, b, .inl hb, x, hx, by
          rwa [typeOf_eq, r.key, if_neg (ne (hs.members hb x hx).1), ← typeOf_eq]⟩
      · exact ⟨_, _, .inr ⟨rfl, rfl, rfl⟩, x, hx, by
          rwa [typeOf_eq, r.key, if_neg (ne (members x hx)), ← typeOf_eq]⟩
    · rintro ⟨u, b, hb | ⟨rfl, rfl, rfl⟩, x, hx, ht⟩
      · rw [typeOf_eq, r.key, if_neg (ne (hs.members hb x hx).1), ← typeOf_eq] at ht
        exact .inl ⟨u, b, hb, x, hx, ht⟩
      · rw [typeOf_eq, r.key, if_neg (ne (members x hx)), ← typeOf_eq] at ht
        exact .inr ⟨⟨x, hx, ht⟩, rfl⟩
  · intro i h
    rw [r.bins, hs.bins, hmem, r.avOf]
    by_cases e : h = s.brkUuid
    · subst e; simp [hn, eq_comm]
    · simp [e]
  · intro x hx l
    rcases hmem.mp hx with rfl | hm
    · -- nothing refers to the new atom, and it does not refer to itself
      rw [r.unreferenced]
      symm
      simp only [List.count_nil, ite_eq_right_iff, List.count_eq_zero]
      intro hl hin
      rcases hmem.mp hl with rfl | hl
      · rw [houtNew] at hin; exact hn (members _ hin)
      · rw [hout hl] at hin
        obtain ⟨t, b, hb⟩ := hs.has_of_mem hl
        rw [outgoing_of_key hb.2] at hin
        exact hn (hs.members hb _ hin).1
    · rw [r.incoming x hm l, hs.dual x hm l]
      by_cases e : l = s.brkUuid
      · subst e; simp [hn, hmem, houtNew]
      · by_cases hl : l ∈ s.atomSet
        · simp [e, hl, hmem, hout hl]
        · simp [e, hl, hmem]
  · intro h hh
    rw [r.decayedFlag]
    rcases hmem.mp hh with rfl | hm
    · simpa using clean
    · rw [if_neg (ne hm)]; exact hs.clean h hm
  · intro h hh
    rw [r.linked]
    rcases hmem.mp hh with rfl | hm
    · simp
    · rw [if_neg (ne hm)]; exact hs.inTable h hm

/-! ## Adding -/

/-- What the constructors and the callers of `add` establish. -/
structure Addable (cs : ClassServer) (s : AtomTable TV) (a : Atom TV) : Prop where
  typed : WellTyped cs a.type a.body
  members : ∀ x ∈ a.outgoing, x ∈ s.atomSet
  incoming : a.incoming = []
  clean : a.removedByDecay = false

section Add
variable {cs : ClassServer} {s : AtomTable TV} {a : Atom TV}

/-- The handle `add` finds is the stored atom of this type and body. -/
theorem getHandle_iff (hs : Inv cs s) (typed : WellTyped cs a.type a.body) {h : Handle} :
    s.getHandle a = some h ↔ s.Has h a.type a.body := by
  have valid : s.Has h a.type a.body → s.isValidHandle h = true := fun hh => hs.isValidHandle hh.1
  unfold getHandle
  cases hb : a.body with
  | node n =>
    rw [hb] at typed valid
    simp only [cStr_of_noNul typed.2, Option.filter_eq_some_iff, hs.nodes]
    exact ⟨And.left, fun hh => ⟨hh, valid hh⟩⟩
  | link o =>
    rw [hb] at valid
    simp only [Option.filter_eq_some_iff, hs.links]
    exact ⟨And.left, fun hh => ⟨hh, valid hh⟩⟩

theorem holdsEqual_eq_false (hs : Inv cs s) (typed : WellTyped cs a.type a.body)
    (hnone : s.getHandle a = none) : s.holdsEqual a = false := by
  simp only [holdsEqual, hs.orphans, List.any_nil, Bool.or_false, List.any_eq_false]
  intro g hg
  obtain ⟨t, b, hb⟩ := hs.has_of_mem hg
  obtain ⟨c, hc, rfl, rfl⟩ := exists_of_key hb.2
  simp only [hc, Option.map_some, Option.getD_some]
  intro same
  obtain ⟨ht, hbody⟩ := (atom_sameAs_iff (hs.typed hb).length_lt typed.length_lt).mp same
  rw [ht, hbody, ← getHandle_iff hs typed, hnone] at hb
  cases hb

theorem mem_targetTypes (s : AtomTable TV) (b : Body) (t : TypeCode) :
    t ∈ s.targetTypes b ↔ ∃ x ∈ b.targets, s.typeOf x = some t := by
  simp [targetTypes]

/-- The state of `add` before the incoming lists are written. -/
def stored (s : AtomTable TV) (a : Atom TV) : AtomTable TV :=
  insertHandle
    { s with
      size := s.size + 1
      atomSet := s.brkUuid :: s.atomSet
      handleMap := fun g => if g = s.brkUuid then some { a with inTable := true } else s.handleMap g
      brkUuid := s.brkUuid + 1 } s.brkUuid a

theorem add_eq_stored (ops : TruthOps TV) (hs : Inv cs s) (ha : Addable cs s a)
    (hnone : s.getHandle a = none) :
    s.add ops a true =
      (a.body.targets.foldl (addIncomingHandle s.brkUuid) (s.stored a), some s.brkUuid) := by
  have hvalid : a.outgoing.all s.isValidHandle = true :=
    List.all_eq_true.mpr fun x hx => hs.isValidHandle (ha.members x hx)
  have hequal : holdsEqual { s with size := s.size + 1 } a = false :=
    (holdsEqual_eq_false hs ha.typed hnone : s.holdsEqual a = false)
  unfold add
  rw [hnone]
  simp only [hvalid, insertAtom, hequal, if_true, Bool.false_eq_true, if_false]
  rfl

theorem nodeIndex_stored (hs : Inv cs s) (ha : Addable cs s a) (hnone : s.getHandle a = none)
    (t : TypeCode) (n : String) (g : Handle) :
    (s.stored a).nodeIndex t n = some g ↔
      s.nodeIndex t n = some g ∨ g = s.brkUuid ∧ t = a.type ∧ .node n = a.body := by
  have typed := ha.typed
  simp only [stored, insertHandle]
  cases hb : a.body with
  | link o => simp
  | node m =>
    rw [hb] at typed
    have absent : s.nodeIndex a.type m = none := by
      cases hm : s.nodeIndex a.type m with
      | none => rfl
      | some h =>
        have := (getHandle_iff hs ha.typed).mpr (hb ▸ hs.nodes.mp hm)
        rw [hnone] at this; cases this
    simp only [cStr_of_noNul typed.2, mapInsert, absent, Option.getD_none]
    by_cases ht : t = a.type
    · subst ht
      by_cases hn : n = m
      · subst hn; simp [absent, eq_comm]
      · simp [hn]
    · simp [ht]

theorem linkIndex_stored (hs : Inv cs s) (ha : Addable cs s a) (hnone : s.getHandle a = none)
    (t : TypeCode) (o : List Handle) (g : Handle) :
    (s.stored a).linkIndex t o = some g ↔
      s.linkIndex t o = some g ∨ g = s.brkUuid ∧ t = a.type ∧ .link o = a.body := by
  simp only [stored, insertHandle]
  cases hb : a.body with
  | node m => simp
  | link p =>
    have absent : s.linkIndex a.type p = none := by
      cases hm : s.linkIndex a.type p with
      | none => rfl
      | some h =>
        have := (getHandle_iff hs ha.typed).mpr (hb ▸ hs.links.mp hm)
        rw [hnone] at this; cases this
    simp only [mapInsert, absent, Option.getD_none]
    by_cases ht : t = a.type
    · subst ht
      by_cases hn : o = p
      · subst hn; simp [absent, eq_comm]
      · simp [hn]
    · simp [ht]

theorem added_of_none (ops : TruthOps TV) (hs : Inv cs s) (ha : Addable cs s a)
    (hnone : s.getHandle a = none) : Added s (s.add ops a true).1 s.brkUuid a := by
  rw [add_eq_stored ops hs ha hnone]
  obtain ⟨same, hcount⟩ :=
    foldl_addIncomingHandle s.brkUuid a.body.targets (s.stored a)
  have htargets : a.body.targets = a.outgoing := Body.targets_of_lt ha.typed.length_lt
  have hn : s.brkUuid ∉ s.atomSet := fun hm => Nat.lt_irrefl _ (hs.lt_brk hm)
  have ne : ∀ {g}, g ∈ s.atomSet → g ≠ s.brkUuid := fun hg e => hn (e ▸ hg)
  refine ⟨?_, ?_, ?_, ?_, ?_, same.brkUuid, same.orphans, same.atomSet, same.size, ?_, ?_, ?_, ?_,
    ?_, ?_, ?_⟩
  · intro g
    rw [same.key]
    by_cases e : g = s.brkUuid
    · simp [e, stored, insertHandle, key]
    · simp [e, stored, insertHandle, key]
  · intro g
    rw [same.avOf]
    by_cases e : g = s.brkUuid
    · simp [e, stored, insertHandle, avOf]
    · simp [e, stored, insertHandle, avOf]
  · intro g
    rw [same.decayedFlag]
    by_cases e : g = s.brkUuid
    · simp [e, stored, insertHandle, decayedFlag]
    · simp [e, stored, insertHandle, decayedFlag]
  · intro g
    rw [same.linked]
    by_cases e : g = s.brkUuid
    · simp [e, stored, insertHandle, linked]
    · simp [e, stored, insertHandle, linked]
  · intro g hg
    rw [same.absent]
    simp [stored, insertHandle, hg]
  · intro t n g
    rw [same.nodeIndex]
    exact nodeIndex_stored hs ha hnone t n g
  · intro t o g
    rw [same.linkIndex]
    exact linkIndex_stored hs ha hnone t o g
  · intro t g
    rw [same.typeIndex]
    exact mem_insertAt
  · intro t g
    rw [same.targetTypeIndex]
    simp only [stored, insertHandle, mem_foldl_insertAt, mem_targetTypes, htargets]
    refine or_congr Iff.rfl (and_congr (exists_congr fun x => and_congr_right fun hx => ?_) Iff.rfl)
    simp [typeOf, ne (ha.members x hx)]
  · intro i g
    rw [same.importanceIndex]
    exact mem_insertAt
  · intro x hx l
    have hsome : (s.stored a).handleMap x ≠ none := by
      obtain ⟨t, b, hk⟩ := hs.live x hx
      obtain ⟨c, hc, -, -⟩ := exists_of_key hk
      simp [stored, insertHandle, ne hx, hc]
    rw [hcount x hsome l, htargets]
    simp [stored, insertHandle, incoming, ne hx]
  · have hzero : ∀ l, ((a.body.targets.foldl (addIncomingHandle s.brkUuid)
        (s.stored a)).incoming s.brkUuid).count l = 0 := by
      intro l
      rw [hcount s.brkUuid (by simp [stored, insertHandle]) l, htargets,
        List.count_eq_zero_of_not_mem (fun hx => hn (ha.members _ hx))]
      simp [stored, insertHandle, incoming, ha.incoming]
    exact List.eq_nil_iff_forall_not_mem.mpr fun l => List.count_eq_zero.mp (hzero l)

theorem atomSet_merge (ops : TruthOps TV) (s : AtomTable TV) (h : Handle) (tv : TV) :
    (s.merge ops h tv).atomSet = s.atomSet := by
  unfold AtomTable.merge
  split
  · rfl
  · rfl

theorem Inv.merge (ops : TruthOps TV) (hs : Inv cs s) (h : Handle) (tv : TV) :
    Inv cs (s.merge ops h tv) := by
  unfold AtomTable.merge
  split
  · exact hs.modify_other h (fun _ => rfl) (fun _ => rfl) (fun _ => rfl) (fun _ => rfl)
      (fun _ => rfl) (fun _ => rfl)
  · exact hs

theorem Inv.add (ops : TruthOps TV) (hs : Inv cs s) (ha : Addable cs s a) :
    Inv cs (s.add ops a true).1 := by
  cases hg : s.getHandle a with
  | some h =>
    have : s.add ops a true = (s.merge ops h a.truthValue, some h) := by
      unfold AtomTable.add; rw [hg]
    rw [this]
    exact hs.merge ops h a.truthValue
  | none => exact hs.added (added_of_none ops hs ha hg) ha.typed ha.members ha.clean

end Add

/-! ## Attention values -/

/-- Setting the attention value of a stored atom moves it to its new bin. -/
theorem Inv.setAttentionValue {cs : ClassServer} {s : AtomTable TV} (hs : Inv cs s) {h : Handle}
    (hm : h ∈ s.atomSet) (av : AttentionValue) : Inv cs (s.setAttentionValue h av) := by
  obtain ⟨t, b, hk⟩ := hs.live h hm
  obtain ⟨a, ha, -, -⟩ := exists_of_key hk
  have hlinked : a.inTable = true := by
    have := hs.inTable h hm
    simpa [linked, ha] using this
  unfold AtomTable.setAttentionValue
  simp only [ha]
  split
  · exact hs
  set s' := s.modify h fun a => { a with attentionValue := av } with hs'
  have same : SameKeys s s' := sameKeys_modify s h (fun _ => rfl) (fun _ => rfl)
  have hav : ∀ g, s'.avOf g = if g = h then some av else s.avOf g := by
    intro g
    by_cases e : g = h
    · subst e; simp [hs', modify, avOf, ha]
    · simp [hs', modify, avOf, e]
  have hold : ∀ i, h ∈ s.importanceIndex i ↔ importanceBin a.attentionValue.sti = i := by
    intro i
    rw [hs.bins]
    simp [hm, avOf, ha]
  have dual : ∀ x ∈ s.atomSet, ∀ l, (s'.incoming x).count l =
      if l ∈ s.atomSet then (s.outgoing l).count x else 0 := by
    have : s'.incoming = s.incoming := incoming_modify s h fun _ => rfl
    rw [this]; exact hs.dual
  have clean : ∀ g ∈ s.atomSet, s'.decayedFlag g = false := by
    have : s'.decayedFlag = s.decayedFlag := decayedFlag_modify s h fun _ => rfl
    rw [this]; exact hs.clean
  have inTable : ∀ g ∈ s.atomSet, s'.linked g = true := by
    have : s'.linked = s.linked := linked_modify s h fun _ => rfl
    rw [this]; exact hs.inTable
  have bins : ∀ {i g}, g ≠ h → (g ∈ s.importanceIndex i ↔
      g ∈ s.atomSet ∧ ∃ av, s'.avOf g = some av ∧ importanceBin av.sti = i) := by
    intro i g e
    rw [hav, if_neg e]; exact hs.bins
  split
  case isTrue hmoved =>
    refine hs.of_sameKeys ⟨same.key, same.absent, rfl, rfl, rfl, rfl, rfl, rfl, rfl, rfl⟩
      ?_ dual clean inTable
    intro i g
    change g ∈ insertAt (removeAt s.importanceIndex h _) h _ i ↔
      g ∈ s.atomSet ∧ ∃ v, s'.avOf g = some v ∧ importanceBin v.sti = i
    rw [mem_insertAt, mem_removeAt]
    by_cases e : g = h
    · subst e
      rw [hold, hav, if_pos rfl]
      simp only [and_true, Option.some.injEq, exists_eq_left', hm, true_and]
      grind
    · simp only [e, and_false, not_false_eq_true, and_true, or_false]
      exact bins e
  case isFalse hstay =>
    have hbin : importanceBin a.attentionValue.sti = importanceBin av.sti := by
      simpa [hlinked] using hstay
    refine hs.of_sameKeys same ?_ dual clean inTable
    intro i g
    change g ∈ s.importanceIndex i ↔ _
    by_cases e : g = h
    · subst e
      rw [hold, hav, if_pos rfl, hbin]
      simp [hm]
    · exact bins e

end AtomTable

end OpenCog
