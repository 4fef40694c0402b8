import OpenCog.AtomSpace.Removal

/-! Loading atoms that the TLB already knows: `add` with the incoming lists written at once
or left to `scrubIncoming`, and what an `add` that throws leaves behind. -/
namespace OpenCog

variable {TV : Type}

namespace AtomTable
open Index

/-! ## Atoms with a handle -/

/-- `TLB::addAtom`. -/
def register (s : AtomTable TV) (a : Atom TV) : AtomTable TV :=
  { s with
    handleMap := fun g => if g = s.brkUuid then some a else s.handleMap g
    brkUuid := s.brkUuid + 1 }

def registerAll (s : AtomTable TV) (atoms : List (Atom TV)) : AtomTable TV := atoms.foldl register s

/-- `AtomTable::add` of an atom that has a handle; `none` when it throws. -/
def addKnown (ops : TruthOps TV) (s : AtomTable TV) (h : Handle) (dontDeferIncomingLinks : Bool) :
    AtomTable TV × Option Handle :=
  match s.handleMap h with
  | none => (s, none)
  | some a =>
    if a.inTable then (s, some h)
    else
      match s.getHandle a with
      | some g =>
        -- `delete atom` leaves the TLB a handle without an atom
        let s := s.merge ops g a.truthValue
        ({ s with handleMap := fun x => if x = h then none else s.handleMap x }, some g)
      | none =>
        let s := { s with
          size := s.size + 1
          atomSet := if s.holdsEqual a then s.atomSet else h :: s.atomSet }
        if a.outgoing.all s.isValidHandle then
          let s := s.insertHandle h a
          let s := if dontDeferIncomingLinks then a.body.targets.foldl (addIncomingHandle h) s else s
          (s.modify h fun a => { a with inTable := true }, some h)
        else (s, none)

/-- One `add` after the other. -/
def load (ops : TruthOps TV) (s : AtomTable TV) (hs : List Handle) (dontDeferIncomingLinks : Bool) :
    Option (AtomTable TV) :=
  hs.foldlM (fun s h =>
    let (s, g) := s.addKnown ops h dontDeferIncomingLinks
    if g.isSome then some s else none) s

/-- One turn of the inner loop of `scrubIncoming`; a target without an atom crashes. -/
def scrubTarget (l : Handle) (s : AtomTable TV) (x : Handle) : Option (AtomTable TV) :=
  match s.handleMap x with
  | none => none
  | some a => some (if l ∈ a.incoming then s else addIncomingHandle l s x)

def scrubIncoming (s : AtomTable TV) : Option (AtomTable TV) :=
  s.atomSet.foldlM (fun t l => (t.targetsOf l).foldlM (scrubTarget l) t) s

/-! ## Lookups by key -/

/-- The key an atom is filed under in the name or the sequence index. -/
def fileKey (k : TypeCode × Body) : TypeCode × Body :=
  (k.1, match k.2 with
    | .node name => .node (cStr name)
    | .link o => .link o)

def lookup (s : AtomTable TV) : TypeCode × Body → Option Handle
  | (t, .node name) => s.nodeIndex t name
  | (t, .link o) => s.linkIndex t o

/-- The equality of the hash set, on the records of two handles. -/
def alike (s : AtomTable TV) (g h : Handle) : Bool :=
  match s.key g, s.key h with
  | some k, some l => k.1 == l.1 && k.2.sameAs l.2
  | _, _ => false

theorem getHandle_eq (s : AtomTable TV) (a : Atom TV) :
    s.getHandle a = (s.lookup (fileKey (a.type, a.body))).filter s.isValidHandle := by
  unfold getHandle
  cases hb : a.body with
  | node name => rfl
  | link o => rfl

theorem lookup_insertHandle (s : AtomTable TV) (h : Handle) (a : Atom TV) {k : TypeCode × Body}
    (hk : k ≠ fileKey (a.type, a.body)) : (s.insertHandle h a).lookup k = s.lookup k := by
  obtain ⟨t, b⟩ := k
  unfold insertHandle
  cases hb : a.body with
  | node name =>
    cases b with
    | link o => rfl
    | node m =>
      simp only [lookup]
      by_cases ht : t = a.type
      · subst ht
        have hm : m ≠ cStr name := by
          rintro rfl
          exact hk (by simp [fileKey, hb])
        simp [mapInsert, hm]
      · simp [ht]
  | link p =>
    cases b with
    | node m => rfl
    | link o =>
      simp only [lookup]
      by_cases ht : t = a.type
      · subst ht
        have ho : o ≠ p := by
          rintro rfl
          exact hk (by simp [fileKey, hb])
        simp [mapInsert, ho]
      · simp [ht]

theorem sameAs_trans {a b c : Body} (h : a.sameAs b = true) (k : b.sameAs c = true) :
    a.sameAs c = true := by
  cases a with
  | node n =>
    cases b with
    | link p => simp [Body.sameAs] at h
    | node m =>
      simp only [Body.sameAs, beq_iff_eq] at h
      exact h ▸ k
  | link o =>
    cases b with
    | node m => simp [Body.sameAs] at h
    | link p =>
      cases c with
      | node m => simp [Body.sameAs] at k
      | link q =>
        simp only [Body.sameAs, Bool.and_eq_true, beq_iff_eq] at h k ⊢
        exact ⟨h.1.trans k.1, h.2.trans k.2⟩

theorem alike_iff {s : AtomTable TV} {g h : Handle} : s.alike g h = true ↔
    ∃ t b c, s.key g = some (t, b) ∧ s.key h = some (t, c) ∧ b.sameAs c = true := by
  unfold alike
  cases hg : s.key g with
  | none => simp
  | some k =>
    cases hh : s.key h with
    | none => simp
    | some l =>
      obtain ⟨t, b⟩ := k
      obtain ⟨u, c⟩ := l
      simp only [Bool.and_eq_true, beq_iff_eq, Option.some.injEq, Prod.mk.injEq]
      constructor
      · rintro ⟨rfl, hs⟩
        exact ⟨t, b, c, ⟨rfl, rfl⟩, ⟨rfl, rfl⟩, hs⟩
      · rintro ⟨_, _, _, ⟨rfl, rfl⟩, ⟨rfl, rfl⟩, hs⟩
        exact ⟨rfl, hs⟩

theorem alike_trans {s : AtomTable TV} {f g h : Handle} (hf : s.alike f g = true)
    (hg : s.alike g h = true) : s.alike f h = true := by
  obtain ⟨t, b, c, hb, hc, hbc⟩ := alike_iff.mp hf
  obtain ⟨u, d, e, hd, he, hde⟩ := alike_iff.mp hg
  obtain ⟨rfl, rfl⟩ := Prod.mk.inj (Option.some.inj (hc.symm.trans hd))
  exact alike_iff.mpr ⟨t, b, e, hb, he, sameAs_trans hbc hde⟩

theorem holdsEqual_eq_any {s : AtomTable TV} (ho : s.orphans = []) {h : Handle} {a : Atom TV}
    (ha : s.handleMap h = some a) : s.holdsEqual a = s.atomSet.any (s.alike · h) := by
  unfold holdsEqual
  rw [ho, List.any_nil, Bool.or_false]
  congr 1
  funext g
  simp only [alike, key, ha]
  cases s.handleMap g with
  | none => rfl
  | some b => rfl

/-- An index entry is that of a stored atom, so a lookup that fails finds no entry. -/
theorem Inv.lookup_eq_none {cs : ClassServer} {s : AtomTable TV} (hs : Inv cs s) {a : Atom TV}
    (hnone : s.getHandle a = none) : s.lookup (fileKey (a.type, a.body)) = none := by
  rw [getHandle_eq] at hnone
  cases hfound : s.lookup (fileKey (a.type, a.body)) with
  | none => rfl
  | some g =>
    have hg : g ∈ s.atomSet := by
      cases hb : a.body with
      | node name =>
        rw [hb] at hfound
        exact (hs.nodes.mp hfound).1
      | link o =>
        rw [hb] at hfound
        exact (hs.links.mp hfound).1
    rw [hfound, Option.filter_some, if_pos (hs.isValidHandle hg)] at hnone
    cases hnone

/-! ## `add` of an atom without a handle -/

theorem modify_comm (s : AtomTable TV) {h x : Handle} (e : x ≠ h) (f g : Atom TV → Atom TV) :
    (s.modify h f).modify x g = (s.modify x g).modify h f := by
  simp only [AtomTable.modify]
  congr 1
  funext y
  by_cases ex : y = x
  · subst ex
    simp [e]
  · by_cases eh : y = h
    · subst eh
      simp [ex]
    · simp [ex, eh]

theorem foldl_addIncomingHandle_modify (l : Handle) {h : Handle} (f : Atom TV → Atom TV)
    (xs : List Handle) (hn : h ∉ xs) (s : AtomTable TV) :
    xs.foldl (addIncomingHandle l) (s.modify h f) =
      (xs.foldl (addIncomingHandle l) s).modify h f := by
  induction xs generalizing s with
  | nil => rfl
  | cons x xs ih =>
    rw [List.mem_cons, not_or] at hn
    simp only [List.foldl_cons, addIncomingHandle]
    rw [modify_comm s (Ne.symm hn.1)]
    exact ih hn.2 _

/-- `add` of a new atom is `TLB::addAtom` followed by `add` of the atom under its handle. -/
theorem add_eq_addKnown {cs : ClassServer} (ops : TruthOps TV) {s : AtomTable TV} (hs : Inv cs s)
    {a : Atom TV} (ha : Addable cs s a) (hin : a.inTable = false) (hnone : s.getHandle a = none)
    (direct : Bool) : s.add ops a direct = (s.register a).addKnown ops s.brkUuid direct := by
  have hself : (s.register a).handleMap s.brkUuid = some a := by simp [register]
  have hother : ∀ g ∈ s.atomSet, (s.register a).handleMap g = s.handleMap g := fun g hg => by
    simp [register, Nat.ne_of_lt (hs.lt_brk hg)]
  have hvalid : a.outgoing.all s.isValidHandle = true :=
    List.all_eq_true.mpr fun x hx => hs.isValidHandle (ha.members x hx)
  have hvalid' : a.outgoing.all (s.register a).isValidHandle = true := by
    refine List.all_eq_true.mpr fun x hx => ?_
    have := hs.isValidHandle (ha.members x hx)
    simp only [isValidHandle, hother x (ha.members x hx), Bool.and_eq_true, decide_eq_true_eq] at this ⊢
    exact ⟨Nat.lt_succ_of_lt this.1, this.2⟩
  have hnew : s.holdsEqual a = false := holdsEqual_eq_false hs ha.typed hnone
  have hnew' : (s.register a).holdsEqual a = false := by
    rw [← hnew]
    unfold holdsEqual
    congr 1
    rw [Bool.eq_iff_iff, List.any_eq_true, List.any_eq_true]
    refine exists_congr fun g => and_congr_right fun hg => ?_
    rw [hother g hg]
  have hnone' : (s.register a).getHandle a = none := by
    have hlook : (s.register a).lookup = s.lookup := rfl
    rw [getHandle_eq, hlook, hs.lookup_eq_none hnone]
    rfl
  have hn : s.brkUuid ∉ a.body.targets := fun hm =>
    Nat.lt_irrefl _ (hs.lt_brk (ha.members _ (List.mem_of_mem_take hm)))
  -- the state before the incoming lists are written, without `atomTable`
  set t : AtomTable TV := insertHandle { s.register a with
    size := s.size + 1
    atomSet := s.brkUuid :: s.atomSet } s.brkUuid a with ht
  have hset : (t.modify s.brkUuid fun a => { a with inTable := true }) = insertHandle { s with
      size := s.size + 1
      atomSet := s.brkUuid :: s.atomSet
      handleMap := fun g => if g = s.brkUuid then some { a with inTable := true } else s.handleMap g
      brkUuid := s.brkUuid + 1 } s.brkUuid a := by
    simp only [ht, insertHandle, AtomTable.modify, register, if_true, Option.map_some]
    congr 1
    · funext g
      by_cases e : g = s.brkUuid
      · simp [e]
      · simp [e]
    · congr 1
      simp only [targetTypes]
      congr 2
      funext g
      by_cases e : g = s.brkUuid
      · simp [typeOf, e]
      · simp [typeOf, e]
  have hadd : s.add ops a direct = (if direct then a.body.targets.foldl (addIncomingHandle s.brkUuid)
      (t.modify s.brkUuid fun a => { a with inTable := true })
      else t.modify s.brkUuid fun a => { a with inTable := true }, some s.brkUuid) := by
    have hnew₁ : holdsEqual { s with size := s.size + 1 } a = false := hnew
    rw [hset]
    simp only [AtomTable.add, hnone, hvalid, insertAtom, hnew₁, if_true, Bool.false_eq_true,
      if_false]
  have hknown : (s.register a).addKnown ops s.brkUuid direct = ((if direct then
      a.body.targets.foldl (addIncomingHandle s.brkUuid) t else t).modify s.brkUuid fun a =>
        { a with inTable := true }, some s.brkUuid) := by
    simp only [addKnown, hself, hin, hnone', hnew', Bool.false_eq_true, if_false]
    exact if_pos hvalid'
  rw [hadd, hknown]
  cases direct with
  | false => rfl
  | true => simp only [if_true, foldl_addIncomingHandle_modify s.brkUuid _ a.body.targets hn]

/-! ## What an `add` of a registered atom does -/

/-- The handles `rest` belong to atoms that no index knows yet. -/
structure Waiting (s : AtomTable TV) (rest : List Handle) : Prop where
  nodup : rest.Nodup
  orphans : s.orphans = []
  fresh : ∀ h, s.brkUuid ≤ h → s.handleMap h = none
  filed : ∀ h ∈ s.atomSet, s.isStored h = true
  unmarked : ∀ h, s.handleMap h ≠ none → s.marked h = false → s.isStored h = true ∨ h ∈ rest
  below : ∀ l, s.isStored l = true ∨ l ∈ rest → ∀ x ∈ s.targetsOf l, x < l ∧ s.handleMap x ≠ none
  record : ∀ h ∈ rest, s.handleMap h ≠ none ∧ s.linked h = false ∧ s.isStored h = false
  valid : ∀ l ∈ rest, ∀ x ∈ s.outgoing l, s.isValidHandle x = true
  unknown : ∀ h ∈ rest, ∀ k, s.key h = some k → s.lookup (fileKey k) = none
  distinct : rest.Pairwise fun g h => (s.key g).map fileKey ≠ (s.key h).map fileKey

/-- The atoms `hs` entered, one after the other. -/
structure Loaded (s s' : AtomTable TV) (hs : List Handle) (direct : Bool) : Prop where
  key : s'.key = s.key
  brkUuid : s'.brkUuid = s.brkUuid
  marked : s'.marked = s.marked
  stored : ∀ g, s'.isStored g = (s.isStored g || decide (g ∈ hs))
  atomSet : ∀ g, g ∈ s'.atomSet ↔
    g ∈ s.atomSet ∨ g ∈ hs ∧ ∀ k ∈ s.atomSet ++ hs.takeWhile (· ≠ g), s.alike k g = false
  incoming : ∀ x, s.handleMap x ≠ none → ∀ l, (s'.incoming x).count l =
    (s.incoming x).count l + if direct = true ∧ l ∈ hs then (s.targetsOf l).count x else 0

/-- The step: one atom entered, and no other key was filed. -/
structure Entered (s s' : AtomTable TV) (h : Handle) (direct : Bool) : Prop
    extends Loaded s s' [h] direct where
  orphans : s'.orphans = s.orphans
  linked : ∀ g, g ≠ h → s'.linked g = s.linked g
  lookup : ∀ k, some k ≠ (s.key h).map fileKey → s'.lookup k = s.lookup k

theorem Loaded.targetsOf {s s' : AtomTable TV} {hs : List Handle} {direct : Bool}
    (e : Loaded s s' hs direct) (g : Handle) : s'.targetsOf g = s.targetsOf g := by
  rw [targetsOf_eq, targetsOf_eq, e.key]

theorem Loaded.record {s s' : AtomTable TV} {hs : List Handle} {direct : Bool}
    (e : Loaded s s' hs direct) {g : Handle} : s'.handleMap g ≠ none ↔ s.handleMap g ≠ none := by
  rw [handleMap_ne_none, handleMap_ne_none, e.key]

theorem Loaded.alike {s s' : AtomTable TV} {hs : List Handle} {direct : Bool}
    (e : Loaded s s' hs direct) (g h : Handle) : s'.alike g h = s.alike g h := by
  unfold AtomTable.alike
  rw [e.key]

theorem Loaded.refl (s : AtomTable TV) (direct : Bool) : Loaded s s [] direct :=
  ⟨rfl, rfl, rfl, by simp, by simp, by simp⟩

theorem Loaded.cons {a b c : AtomTable TV} {h : Handle} {hs : List Handle} {direct : Bool}
    (p : Loaded a b [h] direct) (q : Loaded b c hs direct) (hn : h ∉ hs) :
    Loaded a c (h :: hs) direct where
  key := q.key.trans p.key
  brkUuid := q.brkUuid.trans p.brkUuid
  marked := q.marked.trans p.marked
  stored g := by
    rw [q.stored, p.stored]
    simp only [List.mem_cons, List.not_mem_nil, or_false, Bool.or_assoc, Bool.decide_or]
  atomSet g := by
    rw [q.atomSet, p.atomSet]
    simp only [p.alike, List.mem_cons, List.not_mem_nil, or_false]
    by_cases e : g = h
    · subst e
      simp [hn]
    · have hne : h ≠ g := Ne.symm e
      simp only [e, false_and, or_false, false_or]
      refine or_congr Iff.rfl (and_congr_right fun _ => ?_)
      simp only [List.mem_append, p.atomSet, List.takeWhile_cons, ne_eq, hne, not_false_eq_true,
        decide_true, if_true, List.mem_cons, List.not_mem_nil, or_false]
      constructor
      · intro hall k hk
        by_cases ek : k = h
        · subst ek
          -- an atom that did not enter equals one that is there
          by_contra hkg
          rw [Bool.not_eq_false] at hkg
          by_cases hin : ∀ f ∈ a.atomSet, a.alike f k = false
          · have hk' := hall k (.inl (.inr ⟨rfl, by simpa using hin⟩))
            rw [hkg] at hk'
            cases hk'
          · push Not at hin
            obtain ⟨f, hf, hfk⟩ := hin
            have hfg := hall f (.inl (.inl hf))
            rw [alike_trans (by simpa using hfk) hkg] at hfg
            cases hfg
        · rcases hk with hk | rfl | hk
          · exact hall k (.inl (.inl hk))
          · exact absurd rfl ek
          · exact hall k (.inr hk)
      · rintro hall k ((hk | ⟨rfl, -⟩) | hk)
        · exact hall k (.inl hk)
        · exact hall k (.inr (.inl rfl))
        · exact hall k (.inr (.inr hk))
  incoming x hx l := by
    rw [q.incoming x (p.record.mpr hx) l, p.incoming x hx l, p.targetsOf]
    by_cases e : l = h
    · subst e
      simp [hn]
    · simp [e]

theorem Waiting.perm {s : AtomTable TV} {p q : List Handle} (hw : Waiting s p) (hp : p.Perm q) :
    Waiting s q where
  nodup := hp.nodup_iff.mp hw.nodup
  orphans := hw.orphans
  fresh := hw.fresh
  filed := hw.filed
  unmarked h hsome hm := (hw.unmarked h hsome hm).imp_right hp.mem_iff.mp
  below l hl := hw.below l (hl.imp_right hp.mem_iff.mpr)
  record h hh := hw.record h (hp.mem_iff.mpr hh)
  valid l hl := hw.valid l (hp.mem_iff.mpr hl)
  unknown h hh := hw.unknown h (hp.mem_iff.mpr hh)
  distinct := (hp.pairwise_iff fun hne e => hne e.symm).mp hw.distinct

theorem Waiting.enter {s s' : AtomTable TV} {h : Handle} {rest : List Handle} {direct : Bool}
    (hw : Waiting s (h :: rest)) (e : Entered s s' h direct) : Waiting s' rest := by
  obtain ⟨hn, hnd⟩ := List.nodup_cons.mp hw.nodup
  obtain ⟨hdist, hpair⟩ := List.pairwise_cons.mp hw.distinct
  have hne : ∀ g ∈ rest, g ≠ h := fun g hg eg => hn (eg ▸ hg)
  have hstored : ∀ g, s'.isStored g = true ↔ s.isStored g = true ∨ g = h := by
    intro g
    rw [e.stored]
    simp
  refine ⟨hnd, e.orphans.trans hw.orphans, ?_, ?_, ?_, ?_, ?_, ?_, ?_, ?_⟩
  · intro g hg
    rw [e.brkUuid] at hg
    by_contra hsome
    exact e.record.mp hsome (hw.fresh g hg)
  · intro g hg
    rw [hstored]
    rcases (e.atomSet g).mp hg with hg | ⟨hg, -⟩
    · exact .inl (hw.filed g hg)
    · exact .inr (List.mem_singleton.mp hg)
  · intro g hsome hm
    rw [e.marked] at hm
    rw [hstored]
    rcases hw.unmarked g (e.record.mp hsome) hm with hst | hg
    · exact .inl (.inl hst)
    · exact (List.mem_cons.mp hg).imp_left .inr
  · intro l hl x hx
    rw [e.targetsOf] at hx
    have hl' : s.isStored l = true ∨ l ∈ h :: rest := by
      rw [hstored] at hl
      rcases hl with (hl | rfl) | hl
      · exact .inl hl
      · exact .inr List.mem_cons_self
      · exact .inr (List.mem_cons_of_mem h hl)
    obtain ⟨hlt, hsome⟩ := hw.below l hl' x hx
    exact ⟨hlt, e.record.mpr hsome⟩
  · intro g hg
    obtain ⟨hsome, hlinked, hst⟩ := hw.record g (List.mem_cons_of_mem h hg)
    refine ⟨e.record.mpr hsome, (e.linked g (hne g hg)).trans hlinked, ?_⟩
    rw [e.stored, hst]
    simp [hne g hg]
  · intro l hl x hx
    rw [outgoing_eq, e.key, ← outgoing_eq] at hx
    have hv := hw.valid l (List.mem_cons_of_mem h hl) x hx
    simp only [isValidHandle, Bool.and_eq_true, Option.isSome_iff_ne_none, e.brkUuid] at hv ⊢
    exact ⟨hv.1, e.record.mpr hv.2⟩
  · intro g hg k hk
    rw [e.key] at hk
    rw [e.lookup]
    · exact hw.unknown g (List.mem_cons_of_mem h hg) k hk
    · have := hdist g hg
      rw [hk] at this
      exact fun eq => this eq.symm
  · simpa only [e.key] using hpair

theorem isStored_insertHandle (s : AtomTable TV) {h : Handle} {a : Atom TV}
    (ha : s.handleMap h = some a) (g : Handle) :
    (s.insertHandle h a).isStored g = (s.isStored g || decide (g = h)) := by
  rw [isStored_eq, isStored_eq]
  have hkey : (s.insertHandle h a).key g = s.key g := rfl
  rw [hkey]
  cases hk : s.key g with
  | none =>
    have e : g ≠ h := by
      rintro rfl
      rw [key_of_some ha] at hk
      cases hk
    simp [e]
  | some k =>
    have hmem : g ∈ (s.insertHandle h a).typeIndex k.1 ↔
      g ∈ s.typeIndex k.1 ∨ k.1 = a.type ∧ g = h := mem_insertAt
    simp only [Option.map_some, Option.getD_some, hmem]
    by_cases e : g = h
    · subst e
      rw [key_of_some ha, Option.some.injEq] at hk
      simp [← hk]
    · simp [e]

/-- The hash set takes the atom unless it holds an equal one. -/
theorem mem_atomSet_entered {s : AtomTable TV} {h : Handle} {a : Atom TV} (hs : s.orphans = [])
    (ha : s.handleMap h = some a) (g : Handle) :
    g ∈ (if s.holdsEqual a then s.atomSet else h :: s.atomSet) ↔
      g ∈ s.atomSet ∨ g = h ∧ ∀ k ∈ s.atomSet, s.alike k h = false := by
  rw [holdsEqual_eq_any hs ha]
  cases hany : s.atomSet.any (s.alike · h) with
  | true =>
    obtain ⟨k, hk, hkh⟩ := List.any_eq_true.mp hany
    simp only [if_true]
    refine ⟨.inl, fun hg => hg.resolve_right ?_⟩
    rintro ⟨-, hall⟩
    rw [hall k hk] at hkh
    cases hkh
  | false =>
    simp only [Bool.false_eq_true, if_false, List.mem_cons]
    rw [or_comm]
    refine or_congr Iff.rfl ⟨fun hg => ⟨hg, ?_⟩, And.left⟩
    simpa using hany

/-- The incoming sets of the targets are extended at once, or by `scrubIncoming` later. -/
theorem enter_incoming (s : AtomTable TV) (h : Handle) (xs : List Handle) (direct : Bool) :
    OnlyIncoming s (if direct then xs.foldl (addIncomingHandle h) s else s) ∧
      (if direct then xs.foldl (addIncomingHandle h) s else s).marked = s.marked ∧
      ∀ x, s.handleMap x ≠ none → ∀ l,
        ((if direct then xs.foldl (addIncomingHandle h) s else s).incoming x).count l =
          (s.incoming x).count l + if direct = true ∧ l = h then xs.count x else 0 := by
  cases direct with
  | true =>
    obtain ⟨same, hcount⟩ := foldl_addIncomingHandle h xs s
    refine ⟨same, marked_foldl_addIncomingHandle h xs s, fun x hx l => ?_⟩
    rw [if_pos rfl, hcount x hx l]
    simp
  | false => exact ⟨.refl s, rfl, fun x hx l => by simp⟩

/-- `add` of a waiting atom files it; nothing throws. -/
theorem Waiting.addKnown (ops : TruthOps TV) {s : AtomTable TV} {h : Handle} {rest : List Handle}
    (hw : Waiting s (h :: rest)) (direct : Bool) :
    ∃ s', s.addKnown ops h direct = (s', some h) ∧ Entered s s' h direct := by
  obtain ⟨hsome, hlinked, hst⟩ := hw.record h List.mem_cons_self
  obtain ⟨a, ha⟩ := Option.ne_none_iff_exists'.mp hsome
  have hin : a.inTable = false := by simpa [linked, ha] using hlinked
  have hnone : s.getHandle a = none := by
    rw [getHandle_eq, hw.unknown h List.mem_cons_self _ (key_of_some ha)]
    rfl
  have hvalid : a.outgoing.all s.isValidHandle = true := by
    refine List.all_eq_true.mpr fun x hx => hw.valid h List.mem_cons_self x ?_
    rwa [outgoing_of_key (key_of_some ha)]
  have htargets : s.targetsOf h = a.body.targets := by simp [AtomTable.targetsOf, ha]
  set s₁ : AtomTable TV := { s with
    size := s.size + 1
    atomSet := if s.holdsEqual a then s.atomSet else h :: s.atomSet } with hs₁
  set s₂ := s₁.insertHandle h a with hs₂
  set s₃ := if direct then a.body.targets.foldl (addIncomingHandle h) s₂ else s₂ with hs₃
  obtain ⟨same, hmark, hcount⟩ := enter_incoming s₂ h a.body.targets direct
  rw [← hs₃] at same hmark hcount
  have same' : SameKeys s₃ (s₃.modify h fun a => { a with inTable := true }) :=
    sameKeys_modify s₃ h (fun _ => rfl) (fun _ => rfl)
  have hmark' : (s₃.modify h fun a => { a with inTable := true }).marked = s₃.marked :=
    marked_modify s₃ h fun _ => rfl
  have hin' : (s₃.modify h fun a => { a with inTable := true }).incoming = s₃.incoming :=
    incoming_modify s₃ h fun _ => rfl
  refine ⟨s₃.modify h fun a => { a with inTable := true }, ?_, ⟨⟨?_, ?_, ?_, ?_, ?_, ?_⟩, ?_, ?_, ?_⟩⟩
  · simp only [AtomTable.addKnown, ha, hin, hnone, Bool.false_eq_true, if_false]
    exact if_pos (hvalid : a.outgoing.all s₁.isValidHandle = true)
  · exact same'.key.trans same.key
  · exact same'.brkUuid.trans same.brkUuid
  · exact hmark'.trans hmark
  · intro g
    simp only [same'.isStored, same.isStored, List.mem_singleton]
    exact isStored_insertHandle s₁ ha g
  · intro g
    rw [same'.atomSet, same.atomSet]
    refine (mem_atomSet_entered hw.orphans ha g).trans (or_congr_right ?_)
    rw [List.mem_singleton]
    refine and_congr_right fun hg => ?_
    simp [hg]
  · intro x hx l
    have hentered : (s₃.incoming x).count l = (s.incoming x).count l +
        if direct = true ∧ l = h then a.body.targets.count x else 0 := hcount x hx l
    rw [hin', hentered]
    by_cases e : l = h
    · subst e
      simp [htargets]
    · simp [e]
  · exact same'.orphans.trans same.orphans
  · intro g e
    have : (s₃.modify h fun a => { a with inTable := true }).linked g = s₃.linked g := by
      simp [linked, AtomTable.modify, e]
    rw [this, same.linked]
    rfl
  · intro k hk
    have hsame : (s₃.modify h fun a => { a with inTable := true }).lookup k = s₂.lookup k := by
      obtain ⟨t, b⟩ := k
      cases b with
      | node n => exact congrFun (congrFun (same'.nodeIndex.trans same.nodeIndex) t) n
      | link o => exact congrFun (congrFun (same'.linkIndex.trans same.linkIndex) t) o
    rw [key_of_some ha, Option.map_some, ne_eq, Option.some.injEq] at hk
    rw [hsame]
    exact lookup_insertHandle s₁ h a hk

theorem load_spec (ops : TruthOps TV) (direct : Bool) (hs : List Handle) {s : AtomTable TV}
    (hw : Waiting s hs) :
    ∃ s', s.load ops hs direct = some s' ∧ Loaded s s' hs direct ∧ Waiting s' [] := by
  induction hs generalizing s with
  | nil => exact ⟨s, rfl, .refl s direct, hw⟩
  | cons h hs ih =>
    obtain ⟨s₁, he, hent⟩ := hw.addKnown ops direct
    obtain ⟨s', hl, hloaded, hdone⟩ := ih (hw.enter hent)
    refine ⟨s', ?_, hent.toLoaded.cons hloaded (List.nodup_cons.mp hw.nodup).1, hdone⟩
    unfold load at hl ⊢
    simp only [List.foldlM_cons, he, Option.isSome_some, if_true, Option.bind_eq_bind,
      Option.bind_some]
    exact hl

/-! ## The sweep -/

/-- `s'` is `s` with incoming entries added; a pair for which `p` holds has at least one. -/
structure Scrubbed (s s' : AtomTable TV) (p : Handle → Handle → Prop) : Prop
    extends OnlyIncoming s s' where
  marked : s'.marked = s.marked
  sparse : ∀ x, s.handleMap x ≠ none → ∀ l,
    (p l x → (s'.incoming x).count l = max ((s.incoming x).count l) 1) ∧
    (¬ p l x → (s'.incoming x).count l = (s.incoming x).count l)

theorem Scrubbed.trans {a b c : AtomTable TV} {p q : Handle → Handle → Prop}
    (h : Scrubbed a b p) (k : Scrubbed b c q) : Scrubbed a c fun l x => p l x ∨ q l x where
  toOnlyIncoming := h.toOnlyIncoming.trans k.toOnlyIncoming
  marked := k.marked.trans h.marked
  sparse x hx l := by
    obtain ⟨hp, hnp⟩ := h.sparse x hx l
    obtain ⟨hq, hnq⟩ := k.sparse x (mt (h.absent x).mp hx) l
    by_cases ep : p l x
    · by_cases eq : q l x
      · simp [ep, hq eq, hp ep]
      · simp [ep, hnq eq, hp ep]
    · by_cases eq : q l x
      · simp [eq, hq eq, hnp ep]
      · simp [ep, eq, hnq eq, hnp ep]

theorem Scrubbed.congr {s s' : AtomTable TV} {p q : Handle → Handle → Prop} (h : Scrubbed s s' p)
    (e : ∀ l x, q l x ↔ p l x) : Scrubbed s s' q :=
  ⟨h.toOnlyIncoming, h.marked, fun x hx l => by rw [e]; exact h.sparse x hx l⟩

theorem scrubTarget_spec {s : AtomTable TV} (l : Handle) {x : Handle} (hx : s.handleMap x ≠ none) :
    ∃ s', scrubTarget l s x = some s' ∧ Scrubbed s s' fun k y => k = l ∧ y = x := by
  obtain ⟨a, ha⟩ := Option.ne_none_iff_exists'.mp hx
  have hin := incoming_of_some ha
  by_cases hl : l ∈ a.incoming
  · refine ⟨s, by simp [scrubTarget, ha, hl], .refl s, rfl, fun y _ k => ⟨?_, fun _ => rfl⟩⟩
    rintro ⟨rfl, rfl⟩
    rw [hin]
    have := List.count_pos_iff.mpr hl
    omega
  · refine ⟨addIncomingHandle l s x, by simp [scrubTarget, ha, hl],
      onlyIncoming_modify s x (l :: ·), marked_modify s x fun _ => rfl, fun y hy k => ?_⟩
    rw [addIncomingHandle, incoming_modify_incoming s x (l :: ·) y hy]
    constructor
    · rintro ⟨rfl, rfl⟩
      simp [hin, List.count_eq_zero_of_not_mem hl]
    · intro hn
      by_cases e : y = x
      · have ek : l ≠ k := fun ek => hn ⟨ek.symm, e⟩
        simp [e, List.count_cons_of_ne ek]
      · simp [e]

theorem scrubTargets_spec (l : Handle) (xs : List Handle) {s : AtomTable TV}
    (hxs : ∀ x ∈ xs, s.handleMap x ≠ none) :
    ∃ s', xs.foldlM (scrubTarget l) s = some s' ∧ Scrubbed s s' fun k y => k = l ∧ y ∈ xs := by
  induction xs generalizing s with
  | nil => exact ⟨s, rfl, .refl s, rfl, fun _ _ _ => ⟨fun h => absurd h.2 List.not_mem_nil, fun _ => rfl⟩⟩
  | cons x xs ih =>
    obtain ⟨s₁, h₁, p₁⟩ := scrubTarget_spec l (hxs x List.mem_cons_self)
    obtain ⟨s₂, h₂, p₂⟩ := ih (s := s₁) fun y hy =>
      mt (p₁.absent y).mp (hxs y (List.mem_cons_of_mem x hy))
    refine ⟨s₂, by rw [List.foldlM_cons, h₁]; exact h₂, (p₁.trans p₂).congr fun k y => ?_⟩
    rw [List.mem_cons]
    tauto

theorem scrubIncoming_spec {s : AtomTable TV}
    (hs : ∀ l ∈ s.atomSet, ∀ x ∈ s.targetsOf l, s.handleMap x ≠ none) :
    ∃ s', s.scrubIncoming = some s' ∧
      Scrubbed s s' fun l x => l ∈ s.atomSet ∧ x ∈ s.targetsOf l := by
  have hrun : ∀ (ls : List Handle) (t : AtomTable TV), SameKeys s t →
      (∀ l ∈ ls, ∀ x ∈ s.targetsOf l, s.handleMap x ≠ none) →
      ∃ s', ls.foldlM (fun t l => (t.targetsOf l).foldlM (scrubTarget l) t) t = some s' ∧
        Scrubbed t s' fun l x => l ∈ ls ∧ x ∈ s.targetsOf l := by
    intro ls
    induction ls with
    | nil =>
      exact fun t _ _ => ⟨t, rfl, .refl t, rfl,
        fun _ _ _ => ⟨fun h => absurd h.1 List.not_mem_nil, fun _ => rfl⟩⟩
    | cons l ls ih =>
      intro t same hall
      obtain ⟨t₁, h₁, p₁⟩ := scrubTargets_spec l (t.targetsOf l) (s := t) fun x hx =>
        mt (same.absent x).mp (hall l List.mem_cons_self x (same.targetsOf l ▸ hx))
      obtain ⟨t₂, h₂, p₂⟩ := ih t₁ (same.trans p₁.toSameKeys) fun k hk =>
        hall k (List.mem_cons_of_mem l hk)
      refine ⟨t₂, by rw [List.foldlM_cons, h₁]; exact h₂, (p₁.trans p₂).congr fun k x => ?_⟩
      rw [List.mem_cons, same.targetsOf]
      constructor
      · rintro ⟨rfl | hk, hx⟩
        · exact .inl ⟨rfl, hx⟩
        · exact .inr ⟨hk, hx⟩
      · rintro (⟨rfl, hx⟩ | ⟨hk, hx⟩)
        · exact ⟨.inl rfl, hx⟩
        · exact ⟨.inr hk, hx⟩
  exact hrun s.atomSet s (.refl s) hs

/-! ## A batch of new atoms -/

theorem handleMap_registerAll (atoms : List (Atom TV)) (s : AtomTable TV) (g : Handle) :
    (s.registerAll atoms).handleMap g =
      if s.brkUuid ≤ g ∧ g < s.brkUuid + atoms.length then atoms[g - s.brkUuid]?
      else s.handleMap g := by
  induction atoms generalizing s with
  | nil =>
    rw [if_neg fun h => Nat.not_lt.mpr h.1 h.2]
    rfl
  | cons a atoms ih =>
    have hrec : (s.registerAll (a :: atoms)).handleMap g =
        if s.brkUuid + 1 ≤ g ∧ g < s.brkUuid + 1 + atoms.length then atoms[g - (s.brkUuid + 1)]?
        else if g = s.brkUuid then some a else s.handleMap g := ih (s.register a)
    rw [hrec, List.length_cons]
    rcases Nat.lt_trichotomy g s.brkUuid with h | rfl | h
    · rw [if_neg fun k => Nat.not_le.mpr h (Nat.le_of_succ_le k.1),
        if_neg (Nat.ne_of_lt h), if_neg fun k => Nat.not_le.mpr h k.1]
    · rw [if_neg fun k => Nat.not_succ_le_self _ k.1, if_pos rfl,
        if_pos ⟨Nat.le_refl _, Nat.lt_add_of_pos_right (Nat.succ_pos _)⟩, Nat.sub_self]
      rfl
    · have hsucc : g - s.brkUuid = g - (s.brkUuid + 1) + 1 := by lia
      rw [if_neg (Nat.ne_of_gt h), hsucc, List.getElem?_cons_succ]
      by_cases hlt : g < s.brkUuid + 1 + atoms.length
      · rw [if_pos ⟨h, hlt⟩, if_pos ⟨Nat.le_of_lt h, by lia⟩]
      · rw [if_neg fun k => hlt k.2, if_neg fun k => hlt (by lia)]

theorem registerAll_frame (atoms : List (Atom TV)) (s : AtomTable TV) :
    s.registerAll atoms = { s with
      handleMap := (s.registerAll atoms).handleMap
      brkUuid := s.brkUuid + atoms.length } := by
  induction atoms generalizing s with
  | nil => rfl
  | cons a atoms ih =>
    have hrec : s.registerAll (a :: atoms) = (s.register a).registerAll atoms := rfl
    rw [hrec, ih (s.register a)]
    simp only [register, List.length_cons, Nat.add_assoc, Nat.add_comm 1]

/-- The handles the atoms of a batch are given. -/
def batch (s : AtomTable TV) (atoms : List (Atom TV)) : List Handle :=
  List.range' s.brkUuid atoms.length

/-- A batch that can be loaded: new atoms with distinct keys, whose links name stored atoms or
earlier ones of the batch. -/
structure Loadable (s : AtomTable TV) (atoms : List (Atom TV)) : Prop where
  built : ∀ a ∈ atoms, a.incoming = [] ∧ a.inTable = false
  members : ∀ i a, atoms[i]? = some a → ∀ x ∈ a.outgoing,
    x ∈ s.atomSet ∨ s.brkUuid ≤ x ∧ x < s.brkUuid + i
  new : ∀ a ∈ atoms, s.getHandle a = none
  distinct : atoms.Pairwise fun a b => fileKey (a.type, a.body) ≠ fileKey (b.type, b.body)

section Batch
variable {cs : ClassServer} {s : AtomTable TV} {atoms : List (Atom TV)}

theorem mem_batch {h : Handle} :
    h ∈ s.batch atoms ↔ s.brkUuid ≤ h ∧ h < s.brkUuid + atoms.length :=
  List.mem_range'_1

theorem registered_old {h : Handle} (hn : h ∉ s.batch atoms) :
    (s.registerAll atoms).handleMap h = s.handleMap h := by
  rw [handleMap_registerAll, if_neg (mt mem_batch.mpr hn)]

theorem registered_new {h : Handle} (hm : h ∈ s.batch atoms) :
    ∃ a, atoms[h - s.brkUuid]? = some a ∧ (s.registerAll atoms).handleMap h = some a := by
  have hin := mem_batch.mp hm
  have hlt : h - s.brkUuid < atoms.length := by lia
  rw [handleMap_registerAll, if_pos hin]
  exact ⟨atoms[h - s.brkUuid], List.getElem?_eq_getElem hlt, List.getElem?_eq_getElem hlt⟩

theorem not_mem_batch (hs : Standing cs s) {h : Handle} (hsome : s.handleMap h ≠ none) :
    h ∉ s.batch atoms :=
  fun hm => hsome (hs.inv.fresh h (mem_batch.mp hm).1)

theorem isStored_registerAll (hs : Standing cs s) (h : Handle) :
    (s.registerAll atoms).isStored h = s.isStored h := by
  have htype : (s.registerAll atoms).typeIndex = s.typeIndex := by rw [registerAll_frame]
  by_cases hm : h ∈ s.batch atoms
  · obtain ⟨a, -, ha⟩ := registered_new hm
    have hnone : s.handleMap h = none := hs.inv.fresh h (mem_batch.mp hm).1
    have hn : h ∉ s.typeIndex a.type := by
      intro ht
      obtain ⟨b, hb⟩ := hs.inv.types.mp ht
      exact hs.inv.record hb.1 hnone
    simp [isStored, ha, hnone, htype, hn]
  · simp only [isStored, registered_old hm, htype]

/-- A registered batch waits to be added. -/
theorem Loadable.waiting (hs : Standing cs s) (hl : Loadable s atoms) :
    Waiting (s.registerAll atoms) (s.batch atoms) := by
  have hbrk : (s.registerAll atoms).brkUuid = s.brkUuid + atoms.length := by rw [registerAll_frame]
  have hset : (s.registerAll atoms).atomSet = s.atomSet := by rw [registerAll_frame]
  have hold : ∀ x, s.handleMap x ≠ none → (s.registerAll atoms).handleMap x = s.handleMap x :=
    fun x hx => registered_old (not_mem_batch hs hx)
  have hmembers : ∀ l ∈ s.batch atoms, ∀ a, (s.registerAll atoms).handleMap l = some a →
      ∀ x ∈ a.outgoing, x < l ∧ x < s.brkUuid + atoms.length ∧
        (s.registerAll atoms).handleMap x ≠ none := by
    intro l hm a ha x hx
    obtain ⟨b, hb, hb'⟩ := registered_new hm
    obtain rfl := Option.some.inj (ha.symm.trans hb')
    obtain ⟨hle, hlt⟩ := mem_batch.mp hm
    rcases hl.members _ _ hb x hx with hxm | ⟨hxle, hxlt⟩
    · have := hs.inv.lt_brk hxm
      exact ⟨by lia, by lia, by rw [hold x (hs.inv.record hxm)]; exact hs.inv.record hxm⟩
    · have hxb : x ∈ s.batch atoms := mem_batch.mpr ⟨hxle, by lia⟩
      obtain ⟨c, -, hc⟩ := registered_new hxb
      exact ⟨by lia, by lia, by rw [hc]; exact Option.some_ne_none c⟩
  refine ⟨List.nodup_range', ?_, ?_, ?_, ?_, ?_, ?_, ?_, ?_, ?_⟩
  · rw [registerAll_frame]
    exact hs.inv.orphans
  · intro h hh
    rw [hbrk] at hh
    rw [registered_old fun hm => Nat.not_lt.mpr hh (mem_batch.mp hm).2]
    exact hs.inv.fresh h (by lia)
  · intro h hm
    rw [hset] at hm
    rw [isStored_registerAll hs]
    exact hs.inv.isStored_iff.mpr hm
  · intro h hsome hm
    by_cases hb : h ∈ s.batch atoms
    · exact .inr hb
    · rw [registered_old hb] at hsome
      rw [isStored_registerAll hs]
      exact .inl (hs.linkage.unmarked h hsome (by simpa only [marked, registered_old hb] using hm))
  · intro l hl' x hx
    by_cases hb : l ∈ s.batch atoms
    · obtain ⟨a, -, ha⟩ := registered_new hb
      have hx' : x ∈ a.outgoing := by
        simp only [targetsOf, ha, Option.map_some, Option.getD_some] at hx
        exact List.mem_of_mem_take hx
      obtain ⟨hlt, -, hsome⟩ := hmembers l hb a ha x hx'
      exact ⟨hlt, hsome⟩
    · have hst := hl'.resolve_right hb
      rw [isStored_registerAll hs] at hst
      obtain ⟨hlt, hsome⟩ := hs.linkage.below l hst x (by
        simpa only [targetsOf, registered_old hb] using hx)
      exact ⟨hlt, by rwa [hold x hsome]⟩
  · intro h hm
    obtain ⟨a, hget, ha⟩ := registered_new hm
    refine ⟨by rw [ha]; exact Option.some_ne_none a, ?_, ?_⟩
    · simpa [linked, ha] using (hl.built a (List.mem_of_getElem? hget)).2
    · rw [isStored_registerAll hs]
      simp [isStored, hs.inv.fresh h (mem_batch.mp hm).1]
  · intro l hm x hx
    obtain ⟨a, -, ha⟩ := registered_new hm
    rw [outgoing_of_key (key_of_some ha)] at hx
    obtain ⟨-, hlt, hsome⟩ := hmembers l hm a ha x hx
    simp only [isValidHandle, Bool.and_eq_true, decide_eq_true_eq, Option.isSome_iff_ne_none, hbrk]
    exact ⟨hlt, hsome⟩
  · intro h hm k hk
    obtain ⟨a, hget, ha⟩ := registered_new hm
    obtain rfl := Option.some.inj ((key_of_some ha).symm.trans hk)
    have hlook : (s.registerAll atoms).lookup = s.lookup := by
      rw [registerAll_frame]
      rfl
    rw [hlook]
    exact hs.inv.lookup_eq_none (hl.new a (List.mem_of_getElem? hget))
  · refine List.pairwise_iff_getElem.mpr fun i j hi hj hij => ?_
    have hi' : i < atoms.length := by simpa [batch] using hi
    have hj' : j < atoms.length := by simpa [batch] using hj
    have hkey : ∀ n (hn : n < atoms.length), (s.registerAll atoms).key (s.brkUuid + n) =
        some (atoms[n].type, atoms[n].body) := by
      intro n hn
      refine key_of_some ?_
      rw [handleMap_registerAll, if_pos ⟨Nat.le_add_right _ _, Nat.add_lt_add_left hn _⟩,
        Nat.add_sub_cancel_left, List.getElem?_eq_getElem hn]
    have hne := List.pairwise_iff_getElem.mp hl.distinct i j hi' hj' hij
    simp only [batch, List.getElem_range', Nat.one_mul, hkey i hi', hkey j hj', Option.map_some, ne_eq,
      Option.some.injEq]
    exact hne

/-- Before the batch is added no incoming list mentions it. -/
theorem dual_registerAll (hs : Standing cs s) (hl : Loadable s atoms) {x : Handle}
    (hx : (s.registerAll atoms).handleMap x ≠ none) (l : Handle) :
    ((s.registerAll atoms).incoming x).count l = if (s.registerAll atoms).isStored l then
      ((s.registerAll atoms).targetsOf l).count x else 0 := by
  rw [isStored_registerAll hs]
  have htargets : s.isStored l = true → (s.registerAll atoms).targetsOf l = s.targetsOf l := by
    intro hst
    obtain ⟨a, ha, -⟩ := exists_of_isStored hst
    simp only [targetsOf, registered_old (not_mem_batch hs (by rw [ha]; exact Option.some_ne_none a))]
  by_cases hb : x ∈ s.batch atoms
  · obtain ⟨a, hget, ha⟩ := registered_new hb
    have hbare : (s.registerAll atoms).incoming x = [] := by
      rw [incoming_of_some ha]
      exact (hl.built a (List.mem_of_getElem? hget)).1
    rw [hbare, List.count_nil]
    split
    · next hst =>
      rw [htargets hst]
      refine (List.count_eq_zero_of_not_mem fun hm => ?_).symm
      exact (hs.linkage.below l hst x hm).2 (hs.inv.fresh x (mem_batch.mp hb).1)
    · rfl
  · rw [registered_old hb] at hx
    have hin : (s.registerAll atoms).incoming x = s.incoming x := by
      simp only [incoming, registered_old hb]
    rw [hin, hs.linkage.dual x hx l]
    split
    · next hst => rw [htargets hst]
    · rfl

end Batch

/-! ## The two ways of loading -/

/-- Every atom has the same incoming links, each as often, and can be extracted. -/
structure LoadsAlike (deferred direct : AtomTable TV) : Prop where
  incoming : ∀ x, (deferred.incoming x).Perm (direct.incoming x)
  extracts : ∀ h, (extract (deferred.brkUuid + 1) deferred h true).isSome = true

/-- The link names no atom twice, and the hash set takes it if it names any: nothing that is
there or is loaded before equals it. -/
def Plain (s : AtomTable TV) (hs : List Handle) (l : Handle) : Prop :=
  (s.targetsOf l).Nodup ∧ (s.targetsOf l = [] ∨
    ∀ k ∈ s.atomSet ++ hs.takeWhile (· ≠ l), s.alike k l = false)

section Loading
variable {s loaded deferred : AtomTable TV} {hs : List Handle}

theorem Loaded.plain_iff {direct : Bool} (e : Loaded s loaded hs direct) (hw : Waiting s hs)
    {l : Handle} (hl : l ∈ hs) : Plain s hs l ↔ ∀ x, s.handleMap x ≠ none →
      (s.targetsOf l).count x = if l ∈ loaded.atomSet ∧ x ∈ s.targetsOf l then 1 else 0 := by
  have hset : l ∈ loaded.atomSet ↔
      ∀ k ∈ s.atomSet ++ hs.takeWhile (· ≠ l), s.alike k l = false := by
    rw [e.atomSet]
    have hn : l ∉ s.atomSet := fun hm => by
      have := hw.filed l hm
      rw [(hw.record l hl).2.2] at this
      cases this
    simp only [hn, hl, true_and, false_or]
  unfold Plain
  rw [← hset]
  constructor
  · rintro ⟨hnd, hin⟩ x -
    by_cases hx : x ∈ s.targetsOf l
    · have hm := hin.resolve_left (List.ne_nil_of_mem hx)
      rw [if_pos ⟨hm, hx⟩]
      exact List.count_eq_one_of_mem hnd hx
    · rw [if_neg fun h => hx h.2]
      exact List.count_eq_zero_of_not_mem hx
  · intro hall
    have hone : ∀ x ∈ s.targetsOf l, l ∈ loaded.atomSet ∧ (s.targetsOf l).count x = 1 := by
      intro x hx
      have hcount := hall x (hw.below l (.inr hl) x hx).2
      have hpos := List.count_pos_iff.mpr hx
      split at hcount
      · next h => exact ⟨h.1, hcount⟩
      · omega
    refine ⟨List.nodup_iff_count_eq_one.mpr fun x hx => (hone x hx).2, ?_⟩
    by_cases hnil : s.targetsOf l = []
    · exact .inl hnil
    · obtain ⟨x, hx⟩ := List.exists_mem_of_ne_nil _ hnil
      exact .inr (hone x hx).1

/-- The entries for `l` after the sweep, and the entries a direct `add` would have written. -/
theorem Scrubbed.count_eq_iff (e : Loaded s loaded hs false) (hw : Waiting s hs)
    (dual : ∀ x, s.handleMap x ≠ none → ∀ l, (s.incoming x).count l =
      if s.isStored l then (s.targetsOf l).count x else 0)
    (hscrub : Scrubbed loaded deferred fun l x => l ∈ loaded.atomSet ∧ x ∈ loaded.targetsOf l)
    {x : Handle} (hx : s.handleMap x ≠ none) (l : Handle) :
    (deferred.incoming x).count l =
        (s.incoming x).count l + (if l ∈ hs then (s.targetsOf l).count x else 0) ↔
      (l ∈ hs → (s.targetsOf l).count x =
        if l ∈ loaded.atomSet ∧ x ∈ s.targetsOf l then 1 else 0) := by
  obtain ⟨hyes, hno⟩ := hscrub.sparse x (e.record.mpr hx) l
  have hloaded : (loaded.incoming x).count l = (s.incoming x).count l := by
    rw [e.incoming x hx l]
    simp
  rw [hloaded] at hyes hno
  simp only [e.targetsOf] at hyes hno
  by_cases hl : l ∈ hs
  · have hzero : (s.incoming x).count l = 0 := by
      rw [dual x hx l, (hw.record l hl).2.2]
      rfl
    simp only [hl, if_true, true_implies]
    split
    · next h =>
      rw [hyes h, hzero]
      omega
    · next h =>
      rw [hno h, hzero]
      omega
  · simp only [hl, if_false, false_implies, iff_true, Nat.add_zero]
    by_cases h : l ∈ loaded.atomSet ∧ x ∈ s.targetsOf l
    · -- a link stored before already has its entries
      have hm : l ∈ s.atomSet := ((e.atomSet l).mp h.1).resolve_right fun h => hl h.1
      have hpos : 0 < (s.incoming x).count l := by
        rw [dual x hx l, if_pos (hw.filed l hm)]
        exact List.count_pos_iff.mpr h.2
      rw [hyes h]
      omega
    · exact hno h

theorem Scrubbed.linkage (e : Loaded s loaded hs false) (hw : Waiting s hs)
    (hdone : Waiting loaded [])
    (dual : ∀ x, s.handleMap x ≠ none → ∀ l, (s.incoming x).count l =
      if s.isStored l then (s.targetsOf l).count x else 0)
    (hscrub : Scrubbed loaded deferred fun l x => l ∈ loaded.atomSet ∧ x ∈ loaded.targetsOf l)
    (hplain : ∀ l ∈ hs, Plain s hs l) : Linked deferred where
  fresh h hh := (hscrub.absent h).mpr (hdone.fresh h (hscrub.brkUuid ▸ hh))
  unmarked h hsome hm := by
    rw [hscrub.isStored]
    rw [hscrub.marked] at hm
    exact (hdone.unmarked h (mt (hscrub.absent h).mpr hsome) hm).resolve_right List.not_mem_nil
  below l hl x hx := by
    rw [hscrub.isStored] at hl
    rw [hscrub.targetsOf] at hx
    obtain ⟨hlt, hsome⟩ := hdone.below l (.inl hl) x hx
    exact ⟨hlt, mt (hscrub.absent x).mp hsome⟩
  dual x hx l := by
    have hx' : s.handleMap x ≠ none := e.record.mp (mt (hscrub.absent x).mpr hx)
    have hcount := (hscrub.count_eq_iff e hw dual hx' l).mpr fun hl =>
      (e.plain_iff hw hl).mp (hplain l hl) x hx'
    rw [hcount, dual x hx' l, hscrub.isStored, e.stored, hscrub.targetsOf, e.targetsOf]
    by_cases hl : l ∈ hs
    · simp [hl, (hw.record l hl).2.2]
    · simp [hl]

end Loading

/-- Deferred and direct loading agree exactly on batches whose links name no atom twice and are
equal, as the hash set decides it, to no atom before them. -/
theorem loads_alike_iff (cs : ClassServer) (ops : TruthOps TV) (s : AtomTable TV)
    (r : Reachable cs ops (Careful cs) s) (atoms : List (Atom TV)) (hl : Loadable s atoms)
    (hs hs' : List Handle) (hp : hs.Perm (s.batch atoms)) (hp' : hs'.Perm (s.batch atoms)) :
    ∃ loaded deferred direct, (s.registerAll atoms).load ops hs false = some loaded ∧
      loaded.scrubIncoming = some deferred ∧
      (s.registerAll atoms).load ops hs' true = some direct ∧
      (LoadsAlike deferred direct ↔ ∀ l ∈ hs, Plain (s.registerAll atoms) hs l) := by
  set s₁ := s.registerAll atoms with hs₁
  have hw : Waiting s₁ hs := (hl.waiting r.standing).perm hp.symm
  have hw' : Waiting s₁ hs' := (hl.waiting r.standing).perm hp'.symm
  have dual : ∀ x, s₁.handleMap x ≠ none → ∀ l, (s₁.incoming x).count l =
      if s₁.isStored l then (s₁.targetsOf l).count x else 0 :=
    fun x hx l => dual_registerAll r.standing hl hx l
  obtain ⟨loaded, hload, e, hdone⟩ := load_spec ops false hs hw
  obtain ⟨direct, hdirect, e', -⟩ := load_spec ops true hs' hw'
  obtain ⟨deferred, hsweep, hscrub⟩ := scrubIncoming_spec (s := loaded) fun l hm x hx =>
    (hdone.below l (.inl (hdone.filed l hm)) x hx).2
  refine ⟨loaded, deferred, direct, hload, hsweep, hdirect, ?_⟩
  have hmem : ∀ l, l ∈ hs' ↔ l ∈ hs := fun l => (hp'.trans hp.symm).mem_iff
  have hcount : ∀ x, s₁.handleMap x ≠ none → ∀ l, (direct.incoming x).count l =
      (s₁.incoming x).count l + if l ∈ hs then (s₁.targetsOf l).count x else 0 := by
    intro x hx l
    rw [e'.incoming x hx l]
    simp [hmem]
  constructor
  · intro hall l hm
    refine (e.plain_iff hw hm).mpr fun x hx => ?_
    refine (hscrub.count_eq_iff e hw dual hx l).mp ?_ hm
    rw [← hcount x hx l]
    exact (hall.incoming x).count_eq l
  · intro hplain
    refine ⟨fun x => ?_, fun h => ?_⟩
    · by_cases hx : s₁.handleMap x = none
      · have hd : deferred.handleMap x = none :=
          (hscrub.absent x).mpr (not_not.mp (mt e.record.mp (not_not.mpr hx)))
        have hd' : direct.handleMap x = none := not_not.mp (mt e'.record.mp (not_not.mpr hx))
        simp [incoming, hd, hd']
      · refine List.perm_iff_count.mpr fun l => ?_
        rw [hcount x hx l]
        exact (hscrub.count_eq_iff e hw dual hx l).mpr fun hm =>
          (e.plain_iff hw hm).mp (hplain l hm) x hx
    · obtain ⟨t, res, hx, -⟩ := extract_takes (deferred.brkUuid + 1) deferred h true
        (hscrub.linkage e hw hdone dual hplain) ⟨Nat.succ_pos _, by lia⟩
      rw [hx]
      rfl

/-- A node and a list link with this many times the node in it. -/
def nodeAndList (members : List Handle) : List (Atom Unit) :=
  [.init unitOps CONCEPT_NODE (.node "n") (), .init unitOps LIST_LINK (.link members) ()]

theorem loadable_nodeAndList {members : List Handle} (h : ∀ x ∈ members, x = 1) :
    Loadable empty (nodeAndList members) where
  built a ha := by
    rcases List.mem_pair.mp ha with rfl | rfl
    · exact ⟨rfl, rfl⟩
    · exact ⟨rfl, rfl⟩
  members i a ha x hx := by
    have hi : i < (nodeAndList members).length := List.getElem?_eq_some_iff.mp ha |>.1
    change i < 2 at hi
    interval_cases i
    · obtain rfl := Option.some.inj ha
      cases hx
    · obtain rfl := Option.some.inj ha
      rw [h x hx]
      exact .inr ⟨Nat.le_refl 1, Nat.lt_succ_self 1⟩
  new a ha := by
    rcases List.mem_pair.mp ha with rfl | rfl
    · rfl
    · rfl
  distinct := by
    refine List.pairwise_pair.mpr fun h => ?_
    cases congrArg Prod.fst h

theorem loads_alike_of_two_atoms :
    ∃ loaded deferred direct, (empty.registerAll (nodeAndList [1])).load unitOps [1, 2] false =
        some loaded ∧ loaded.scrubIncoming = some deferred ∧
      (empty.registerAll (nodeAndList [1])).load unitOps [2, 1] true = some direct ∧
      (LoadsAlike deferred direct ↔
        ∀ l ∈ [1, 2], Plain (empty.registerAll (nodeAndList [1])) [1, 2] l) :=
  loads_alike_iff ClassServer.script unitOps empty .empty (nodeAndList [1])
    (loadable_nodeAndList (by simp)) [1, 2] [2, 1] (by decide) (by decide)

/-- The sweep writes one entry for a link that names the node twice. -/
theorem entry_lost_by_sweep :
    ¬ ∀ (atoms : List (Atom Unit)), Loadable empty atoms → ∀ hs hs' : List Handle,
      hs.Perm (batch empty atoms) → hs'.Perm (batch empty atoms) →
      (hs'.Pairwise fun l x => x ∉ (empty.registerAll atoms).targetsOf l) →
      ∀ loaded deferred direct, (empty.registerAll atoms).load unitOps hs false = some loaded →
        loaded.scrubIncoming = some deferred →
        (empty.registerAll atoms).load unitOps hs' true = some direct →
        LoadsAlike deferred direct := by
  intro hall
  obtain ⟨loaded, hload⟩ : ∃ loaded,
      (empty.registerAll (nodeAndList [1, 1])).load unitOps [1, 2] false = some loaded := ⟨_, rfl⟩
  obtain ⟨deferred, hsweep⟩ : ∃ deferred, loaded.scrubIncoming = some deferred := by
    obtain rfl := Option.some.inj hload
    exact ⟨_, rfl⟩
  obtain ⟨direct, hdirect⟩ : ∃ direct,
      (empty.registerAll (nodeAndList [1, 1])).load unitOps [1, 2] true = some direct := ⟨_, rfl⟩
  have h := (hall (nodeAndList [1, 1]) (loadable_nodeAndList (by simp)) [1, 2] [1, 2] (by decide)
    (by decide) (by decide) loaded deferred direct hload hsweep hdirect).incoming 1
  obtain rfl := Option.some.inj hload
  obtain rfl := Option.some.inj hsweep
  obtain rfl := Option.some.inj hdirect
  have := h.length_eq
  revert this
  decide

/-! ## An `add` that throws -/

/-- Counter, hash set, indices and incoming sets are as before. -/
structure Untouched (s s' : AtomTable TV) : Prop where
  size : s'.size = s.size
  atomSet : s'.atomSet = s.atomSet ∧ s'.orphans = s.orphans
  nodeIndex : s'.nodeIndex = s.nodeIndex
  linkIndex : s'.linkIndex = s.linkIndex
  typeIndex : s'.typeIndex = s.typeIndex
  targetTypeIndex : s'.targetTypeIndex = s.targetTypeIndex
  importanceIndex : s'.importanceIndex = s.importanceIndex
  incoming : s'.incoming = s.incoming

section Rejected
variable {ops : TruthOps TV} {s : AtomTable TV} {direct : Bool}

theorem add_rejected {a : Atom TV} (h : (s.add ops a direct).2 = none) :
    s.add ops a direct = (s.insertAtom a false, none) := by
  unfold AtomTable.add at h ⊢
  cases hg : s.getHandle a with
  | some g =>
    rw [hg] at h
    cases h
  | none =>
    rw [hg] at h
    simp only at h ⊢
    split at h
    · cases h
    · next hinvalid => rw [if_neg hinvalid]

theorem size_insertAtom (a : Atom TV) (valid : Bool) : (s.insertAtom a valid).size = s.size + 1 := by
  unfold insertAtom
  simp only
  split
  · rfl
  · split
    · rfl
    · rfl

theorem size_addKnown_rejected {h : Handle} (hsome : s.handleMap h ≠ none)
    (hnone : (s.addKnown ops h direct).2 = none) : (s.addKnown ops h direct).1.size = s.size + 1 := by
  obtain ⟨a, ha⟩ := Option.ne_none_iff_exists'.mp hsome
  unfold addKnown at hnone ⊢
  simp only [ha] at hnone ⊢
  split at hnone
  · cases hnone
  · next hin =>
    rw [if_neg hin]
    cases hg : s.getHandle a with
    | some g =>
      rw [hg] at hnone
      cases hnone
    | none =>
      rw [hg] at hnone
      simp only at hnone ⊢
      generalize (if s.holdsEqual a = true then s.atomSet else h :: s.atomSet) = set at hnone ⊢
      split at hnone
      · cases hnone
      · next hinvalid => rw [if_neg hinvalid]

end Rejected

/-- An `add` that throws has counted the atom already. -/
theorem add_throws_touched (ops : TruthOps TV) (s : AtomTable TV) (direct : Bool) :
    (∀ a, (s.add ops a direct).2 = none → ¬ Untouched s (s.add ops a direct).1) ∧
      ∀ h, s.handleMap h ≠ none → (s.addKnown ops h direct).2 = none →
        ¬ Untouched s (s.addKnown ops h direct).1 := by
  refine ⟨fun a hnone same => ?_, fun h hsome hnone same => ?_⟩
  · have hsize := same.size
    rw [add_rejected hnone, size_insertAtom] at hsize
    omega
  · have hsize := same.size
    rw [size_addKnown_rejected hsome hnone] at hsize
    omega

theorem add_throws_touched_of_one_node :
    (oneNode.add unitOps (.init unitOps LIST_LINK (.link [1, 7]) ()) true).2 = none ∧
      ¬ Untouched oneNode (oneNode.add unitOps (.init unitOps LIST_LINK (.link [1, 7]) ()) true).1 :=
  ⟨rfl, (add_throws_touched unitOps oneNode true).1 _ rfl⟩

/-- A link with a member that does not exist is counted and stays in the hash set. -/
theorem counted_though_rejected :
    ¬ ∀ s : AtomTable Unit, Reachable ClassServer.script unitOps (Careful ClassServer.script) s →
      ∀ a direct, (s.add unitOps a direct).2 = none → Untouched s (s.add unitOps a direct).1 := by
  intro hall
  have r : Reachable ClassServer.script unitOps (Careful ClassServer.script) oneNode :=
    .step (.addNode CONCEPT_NODE "n" ()) .empty ⟨⟨by decide +kernel, by decide⟩, trivial, trivial⟩
      apply_oneNode
  have hset := (hall oneNode r (.init unitOps LIST_LINK (.link [1, 7]) ()) true rfl).atomSet.2
  have hlength := congrArg List.length hset
  revert hlength
  decide

end AtomTable

end OpenCog
