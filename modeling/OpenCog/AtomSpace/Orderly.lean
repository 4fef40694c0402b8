import OpenCog.AtomSpace.Funds
import OpenCog.AtomSpace.Removal

/-! What a space keeps of its table whatever its slots do: a handle is filed under the type
of its record, no stored atom is marked, and the members of a link are older than it. -/
namespace OpenCog

variable {TV σ : Type}

namespace AtomTable
open Index

structure Orderly (s : AtomTable TV) : Prop where
  linked : Linked s
  filed : ∀ t, ∀ h ∈ s.typeIndex t, s.typeOf h = some t
  clean : ∀ h, s.isStored h = true → s.marked h = false
  earlier : ∀ h, s.isStored h = true → ∀ x ∈ s.outgoing h, x < h

theorem isStored_of_filed {s : AtomTable TV} {t : TypeCode} {h : Handle} (hm : h ∈ s.typeIndex t)
    (ht : s.typeOf h = some t) : s.isStored h = true := by
  obtain ⟨a, ha, rfl⟩ := Option.map_eq_some_iff.mp ht
  simp [isStored, ha, hm]

theorem Orderly.isStored {s : AtomTable TV} (hs : Orderly s) {t : TypeCode} {h : Handle}
    (hm : h ∈ s.typeIndex t) : s.isStored h = true :=
  isStored_of_filed hm (hs.filed t h hm)

theorem orderly_empty : Orderly (empty : AtomTable TV) :=
  ⟨linked_empty, fun _ _ h => absurd h List.not_mem_nil,
    fun _ h => by simp [isStored, empty] at h, fun _ h => by simp [isStored, empty] at h⟩

/-! ## Indices that only lose entries -/

structure Shrunk (s s' : AtomTable TV) : Prop where
  types : ∀ t, ∀ h ∈ s'.typeIndex t, h ∈ s.typeIndex t
  links : ∀ t o h, s'.linkIndex t o = some h → s.linkIndex t o = some h

namespace Shrunk

theorem refl (s : AtomTable TV) : Shrunk s s := ⟨fun _ _ h => h, fun _ _ _ h => h⟩

theorem trans {a b c : AtomTable TV} (h : Shrunk a b) (k : Shrunk b c) : Shrunk a c :=
  ⟨fun t g hg => h.types t g (k.types t g hg), fun t o g hg => h.links t o g (k.links t o g hg)⟩

theorem of_same {s s' : AtomTable TV} (ht : s'.typeIndex = s.typeIndex)
    (hl : s'.linkIndex = s.linkIndex) : Shrunk s s' :=
  ⟨fun _ _ h => ht ▸ h, fun _ _ _ h => hl ▸ h⟩

theorem removeHandle (s : AtomTable TV) (h : Handle) (a : Atom TV) :
    Shrunk s (s.removeHandle h a) := by
  refine ⟨fun t g hg => (mem_removeAt.mp hg).1, fun t o g hg => ?_⟩
  simp only [AtomTable.removeHandle] at hg
  cases hb : a.body with
  | node n => simpa [hb] using hg
  | link p =>
    simp only [hb] at hg
    by_cases e : t = a.type
    · subst e
      rw [Function.update_self] at hg
      unfold mapErase at hg
      by_cases eo : o = p
      · rw [eo, Function.update_self] at hg
        cases hg
      · rwa [Function.update_of_ne eo] at hg
    · rwa [Function.update_of_ne e] at hg

theorem removeIncomingHandle {h x : Handle} {s s' : AtomTable TV}
    (he : s.removeIncomingHandle h x = some s') : Shrunk s s' := by
  unfold AtomTable.removeIncomingHandle at he
  cases hx : s.handleMap x with
  | none =>
    rw [hx] at he
    cases he
  | some a =>
    simp only [hx] at he
    split at he
    · obtain rfl := Option.some.inj he
      exact of_same rfl rfl
    · cases he

theorem detach {s s' : AtomTable TV} {h : Handle} {a : Atom TV}
    (he : s.detach h a = some s') : Shrunk s s' := by
  set s₁ : AtomTable TV := { s with size := s.size - 1 } with hs₁
  have hrest : Shrunk ((s₁.eraseAtom a).removeHandle h a) s' :=
    Fold.foldlM_keeps (Shrunk ((s₁.eraseAtom a).removeHandle h a))
      (fun _ _ _ hp hstep => hp.trans (removeIncomingHandle hstep)) a.body.targets (refl _) he
  have herase : Shrunk s (s₁.eraseAtom a) := of_same rfl rfl
  exact (herase.trans (removeHandle _ h a)).trans hrest

/-- By recursion on the fuel; the loop over the incoming links carries the relation to the
table that the call started from. -/
theorem extract (fuel : Nat) {s s' : AtomTable TV} {h : Handle} {recursive : Bool}
    {res : List Handle} (he : AtomTable.extract fuel s h recursive = some (s', res)) :
    Shrunk s s' := by
  induction fuel generalizing s s' h recursive res with
  | zero => cases he
  | succ fuel ih =>
    unfold AtomTable.extract at he
    cases ha : s.handleMap h with
    | none =>
      rw [ha] at he
      obtain ⟨rfl, -⟩ := Prod.mk.inj (Option.some.inj he)
      exact refl s
    | some a =>
      simp only [ha] at he
      split at he
      · obtain ⟨rfl, -⟩ := Prod.mk.inj (Option.some.inj he)
        exact refl s
      · obtain ⟨⟨s₁, found⟩, hloop, he⟩ := Option.bind_eq_some_iff.mp he
        have hup : Shrunk s s₁ := by
          refine Fold.foldlM_keeps (fun acc : AtomTable TV × List Handle => Shrunk s acc.1)
            (fun acc l acc' hp hstep => ?_) _ (of_same rfl rfl) hloop
          obtain ⟨b, -, hstep⟩ := Option.bind_eq_some_iff.mp hstep
          split at hstep
          · obtain rfl := Option.some.inj hstep
            exact hp
          · obtain ⟨⟨s₂, r⟩, hcall, hstep⟩ := Option.bind_eq_some_iff.mp hstep
            obtain rfl := Option.some.inj hstep
            exact hp.trans (ih hcall)
        obtain ⟨b, -, he⟩ := Option.bind_eq_some_iff.mp he
        split at he
        · obtain ⟨rfl, -⟩ := Prod.mk.inj (Option.some.inj he)
          exact hup.trans (of_same rfl rfl)
        · obtain ⟨s₂, hd, he⟩ := Option.bind_eq_some_iff.mp he
          obtain ⟨rfl, -⟩ := Prod.mk.inj (Option.some.inj he)
          exact hup.trans (detach hd)

end Shrunk

/-! ## Single calls -/

section Calls
variable {s s' : AtomTable TV}

/-- A call that keeps the keys, files nothing new and marks nothing that stays stored. -/
theorem Orderly.of_keys (hs : Orderly s) (hl : Linked s') (hkey : s'.key = s.key)
    (htypes : ∀ t, ∀ h ∈ s'.typeIndex t, h ∈ s.typeIndex t)
    (hmark : ∀ h, s'.isStored h = true → s'.marked h = true → s.marked h = true) :
    Orderly s' := by
  have hfiled : ∀ t, ∀ h ∈ s'.typeIndex t, s'.typeOf h = some t := by
    intro t h hm
    rw [typeOf_eq, hkey, ← typeOf_eq]
    exact hs.filed t h (htypes t h hm)
  have hback : ∀ h, s'.isStored h = true → s.isStored h = true := by
    intro h hst
    obtain ⟨a, ha, hm⟩ := exists_of_isStored hst
    exact hs.isStored (htypes a.type h hm)
  refine ⟨hl, hfiled, fun h hst => ?_, fun h hst x hx => ?_⟩
  · rw [← Bool.not_eq_true]
    intro hm
    have hold := hmark h hst hm
    rw [hs.clean h (hback h hst)] at hold
    cases hold
  · rw [outgoing_eq, hkey, ← outgoing_eq] at hx
    exact hs.earlier h (hback h hst) x hx

/-- Overwriting a field that is neither a key, a mark nor an incoming list. -/
theorem Orderly.modify (hs : Orderly s) (h : Handle) {f : Atom TV → Atom TV}
    (ht : ∀ a, (f a).type = a.type) (hb : ∀ a, (f a).body = a.body)
    (hm : ∀ a, (f a).markedForRemoval = a.markedForRemoval)
    (hi : ∀ a, (f a).incoming = a.incoming) : Orderly (s.modify h f) :=
  hs.of_keys (hs.linked.modify h ht hb hm hi) (key_modify s h ht hb) (fun _ _ hg => hg)
    fun g _ hg => by rwa [marked_modify s h hm] at hg

theorem Orderly.merge (hs : Orderly s) (ops : TruthOps TV) (h : Handle) (tv : TV) :
    Orderly (s.merge ops h tv) := by
  unfold AtomTable.merge
  split
  · exact hs.modify h (fun _ => rfl) (fun _ => rfl) (fun _ => rfl) (fun _ => rfl)
  · exact hs

theorem typeIndex_setAttentionValue (s : AtomTable TV) (h : Handle) (av : AttentionValue) :
    (s.setAttentionValue h av).typeIndex = s.typeIndex := by
  unfold AtomTable.setAttentionValue
  cases s.handleMap h with
  | none => rfl
  | some a =>
    simp only
    split
    · rfl
    · split
      · rfl
      · rfl

theorem Orderly.setAttentionValue (hs : Orderly s) {h : Handle} (hsome : s.handleMap h ≠ none)
    (av : AttentionValue) : Orderly (s.setAttentionValue h av) := by
  obtain ⟨hl, hkey, -, -, -⟩ := hs.linked.setAttentionValue hsome av
  refine hs.of_keys hl hkey (fun t g hg => ?_) fun g _ hg => ?_
  · rwa [typeIndex_setAttentionValue] at hg
  · rwa [marked_setAttentionValue] at hg

theorem Orderly.extract (hs : Orderly s) {h : Handle} {recursive : Bool} {res : List Handle}
    (he : AtomTable.extract (s.brkUuid + 1) s h recursive = some (s', res))
    (ht : Taken s s' h recursive res) : Orderly s' :=
  hs.of_keys ht.linked ht.key (Shrunk.extract _ he).types ht.unmarked

/-- What `add` files: nothing, or the new atom. -/
theorem mem_typeIndex_add (ops : TruthOps TV) {a : Atom TV} {t : TypeCode} {h : Handle}
    (hm : h ∈ (s.add ops a true).1.typeIndex t) :
    h ∈ s.typeIndex t ∨ h = s.brkUuid ∧ t = a.type ∧ s.getHandle a = none ∧
      (s.add ops a true).2 = some s.brkUuid := by
  unfold AtomTable.add at hm ⊢
  cases hg : s.getHandle a with
  | some g =>
    simp only [hg] at hm
    refine .inl ?_
    unfold AtomTable.merge at hm
    split at hm
    · exact hm
    · exact hm
  | none =>
    simp only [hg] at hm ⊢
    split at hm
    · simp only [if_true] at hm
      rw [(foldl_addIncomingHandle s.brkUuid a.body.targets _).1.typeIndex] at hm
      rcases mem_insertAt.mp hm with hold | ⟨rfl, rfl⟩
      · rw [(insertAtom_frame s a true).2.2] at hold
        exact .inl hold
      · next hall => exact .inr ⟨rfl, rfl, trivial, by rw [if_pos hall]⟩
    · rw [(insertAtom_frame s a false).2.2] at hm
      exact .inl hm

theorem Orderly.grown (hs : Orderly s) {a : Atom TV} (hl : Linked s') (hg : Grown s s' a)
    (hm : a.markedForRemoval = false) (hvalid : ∀ x ∈ a.outgoing, s.handleMap x ≠ none)
    (htypes : ∀ t, ∀ h ∈ s'.typeIndex t, h ∈ s.typeIndex t ∨ h = s.brkUuid ∧ t = a.type) :
    Orderly s' := by
  have hnew : s.handleMap s.brkUuid = none := hs.linked.fresh _ (Nat.le_refl _)
  refine ⟨hl, fun t h hmem => ?_, fun h hst => ?_, fun h hst x hx => ?_⟩
  · rw [typeOf_eq, hg.key]
    rcases htypes t h hmem with hold | ⟨rfl, rfl⟩
    · have ht := hs.filed t h hold
      have hne : h ≠ s.brkUuid := by
        rintro rfl
        rw [typeOf, hnew] at ht
        cases ht
      rw [if_neg hne, ← typeOf_eq]
      exact ht
    · rw [if_pos rfl]
      rfl
  · exact hg.clean hs.clean hm hst
  · rw [hg.stored_iff] at hst
    rw [outgoing_eq, hg.key] at hx
    by_cases e : h = s.brkUuid
    · rw [if_pos e] at hx
      exact e ▸ hs.linked.lt_brk (hvalid x hx)
    · rw [if_neg e, ← outgoing_eq] at hx
      exact hs.earlier h (hst.resolve_right e) x hx

theorem Orderly.add (hs : Orderly s) (ops : TruthOps TV) {a : Atom TV} (hin : a.incoming = [])
    (hm : a.markedForRemoval = false) : Orderly (s.add ops a true).1 := by
  obtain ⟨hl, ⟨h, -, hfound, hu⟩ | ⟨hres, hu⟩ | ⟨-, -, hvalid, hg⟩⟩ := hs.linked.add ops hin
  · refine hs.of_keys hl hu.key (fun t g hmem => ?_) fun g _ hmk => by rwa [hu.marked] at hmk
    rcases mem_typeIndex_add ops hmem with hold | ⟨-, -, hnone, -⟩
    · exact hold
    · rw [hfound] at hnone
      cases hnone
  · refine hs.of_keys hl hu.key (fun t g hmem => ?_) fun g _ hmk => by rwa [hu.marked] at hmk
    rcases mem_typeIndex_add ops hmem with hold | ⟨-, -, -, hsome⟩
    · exact hold
    · rw [hres] at hsome
      cases hsome
  · refine hs.grown hl hg hm hvalid fun t h hmem => ?_
    rcases mem_typeIndex_add ops hmem with hold | ⟨hh, ht, -, -⟩
    · exact .inl hold
    · exact .inr ⟨hh, ht⟩

end Calls

/-- Forgetting the record of an atom that is not stored. -/
theorem Orderly.forget {s s' : AtomTable TV} (hs : Orderly s) {h : Handle} (hl : Linked s')
    (hst : s.isStored h = false) (htypes : s'.typeIndex = s.typeIndex)
    (hgone : s'.handleMap h = none) (hother : ∀ g, g ≠ h → s'.handleMap g = s.handleMap g) :
    Orderly s' := by
  have hne : ∀ g, s'.isStored g = true → g ≠ h := by
    rintro g hg rfl
    simp [AtomTable.isStored, hgone] at hg
  have hback : ∀ g, s'.isStored g = true → s.isStored g = true := by
    intro g hg
    have e := hne g hg
    simpa only [AtomTable.isStored, hother g e, htypes] using hg
  refine ⟨hl, fun t g hm => ?_, fun g hg => ?_, fun g hg x hx => ?_⟩
  · rw [htypes] at hm
    have e : g ≠ h := by
      rintro rfl
      rw [hs.isStored hm] at hst
      cases hst
    rw [typeOf, hother g e]
    exact hs.filed t g hm
  · rw [marked, hother g (hne g hg)]
    exact hs.clean g (hback g hg)
  · refine hs.earlier g (hback g hg) x ?_
    simpa only [outgoing, bodyOf, hother g (hne g hg)] using hx

/-- A record that was deleted had nothing in its incoming list. -/
theorem Orderly.deleteAtom {s s' : AtomTable TV} (hs : Orderly s) {h : Handle}
    (hst : s.isStored h = false) (he : s.deleteAtom h = some s') :
    Orderly s' ∧ s'.isStored = s.isStored := by
  obtain ⟨a, ha, hin⟩ : ∃ a, s.handleMap h = some a ∧ a.incoming = [] := by
    unfold AtomTable.deleteAtom at he
    cases ha : s.handleMap h with
    | none => simp [ha] at he
    | some a =>
      refine ⟨a, rfl, ?_⟩
      by_contra hn
      simp [ha, hn] at he
  obtain ⟨t, ht, hl, -, hother, htypes, hnone⟩ := hs.linked.deleteAtom
    (by rw [ha]; exact Option.some_ne_none a) hst (by rw [incoming_of_some ha]; exact hin)
  obtain rfl := Option.some.inj (he.symm.trans ht)
  refine ⟨hs.forget hl hst htypes hnone hother, ?_⟩
  funext g
  by_cases e : g = h
  · rw [e, hst]
    simp [AtomTable.isStored, hnone]
  · simp only [AtomTable.isStored, hother g e, htypes]

theorem TakenOut.avOf_ne_none {s s' : AtomTable TV} {res : List Handle} (h : TakenOut s s' res)
    {g : Handle} (hg : g ∈ res) : s'.avOf g ≠ none := by
  obtain ⟨a, ha⟩ := Option.ne_none_iff_exists'.mp (h.record hg)
  simp [AtomTable.avOf, ha]

end AtomTable

namespace AtomSpace
open AtomTable

/-! ## Calls of a space -/

section Space
variable {cs : ClassServer} {ops : TruthOps TV} {slots : Slots TV σ} {s : AtomSpace TV σ}

theorem addAtom_orderly (hs : s.atomTable.Orderly) (a : Option (Atom TV))
    (ha : ∀ x, a = some x → x.incoming = [] ∧ x.markedForRemoval = false) :
    AtomTable.Orderly (s.payDefault.addAtom ops slots a).1.atomTable := by
  cases a with
  | none => exact hs
  | some a =>
    obtain ⟨hin, hm⟩ := ha a rfl
    have hadd : AtomTable.Orderly (s.atomTable.add ops a true).1 := hs.add ops hin hm
    unfold addAtom
    simp only
    split
    · exact hadd
    · exact hadd

theorem addNode_orderly (hs : s.atomTable.Orderly) (t : TypeCode) (name : String) (tvn : TV) :
    AtomTable.Orderly (s.addNode cs ops slots t name tvn).1.atomTable := by
  unfold addNode
  split
  · exact hs.merge ops _ tvn
  · refine addAtom_orderly hs _ fun x hx => ?_
    unfold Atom.newNode at hx
    split at hx
    · obtain rfl := Option.some.inj hx
      exact ⟨rfl, rfl⟩
    · cases hx

theorem addLink_orderly (hs : s.atomTable.Orderly) (t : TypeCode) (outgoing : List Handle)
    (tvn : TV) : AtomTable.Orderly (s.addLink cs ops slots t outgoing tvn).1.atomTable := by
  unfold addLink
  split
  · exact hs.merge ops _ tvn
  · refine addAtom_orderly hs _ fun x hx => ?_
    unfold Atom.newLink at hx
    split at hx
    · obtain rfl := Option.some.inj hx
      exact ⟨rfl, rfl⟩
    · cases hx

theorem setAV_orderly (hs : s.atomTable.Orderly) {h : Handle} {av : AttentionValue}
    {s' : AtomSpace TV σ} (he : s.setAV h av = some s') : s'.atomTable.Orderly := by
  obtain ⟨old, hold, he⟩ := Option.bind_eq_some_iff.mp he
  obtain rfl := Option.some.inj he
  obtain ⟨a, ha, -⟩ := Option.map_eq_some_iff.mp hold
  exact hs.setAttentionValue (by rw [ha]; exact Option.some_ne_none a) av

theorem removeExtractedHandles_orderly (hs : List Handle) {s s' : AtomSpace TV σ}
    (ho : s.atomTable.Orderly) (hst : ∀ g ∈ hs, s.atomTable.isStored g = false)
    {returned : Bool} (he : removeExtractedHandles slots hs s = some (s', returned)) :
    s'.atomTable.Orderly := by
  induction hs generalizing s with
  | nil =>
    obtain ⟨rfl, -⟩ := Prod.mk.inj (Option.some.inj he)
    exact ho
  | cons h hs ih =>
    simp only [removeExtractedHandles] at he
    split at he
    · obtain ⟨table, hdel, he⟩ := Option.bind_eq_some_iff.mp he
      have hgone := hst h List.mem_cons_self
      obtain ⟨htable, hstored⟩ := ho.deleteAtom hgone hdel
      refine ih (s := { s with
        atomTable := table, servers := (slots.atomRemoved s.atomTable s.servers h).1 }) htable ?_ he
      intro g hg
      rw [hstored]
      exact hst g (List.mem_cons_of_mem h hg)
    · obtain ⟨rfl, -⟩ := Prod.mk.inj (Option.some.inj he)
      exact ho

theorem removeAtom_orderly (hs : s.atomTable.Orderly) {h : Handle} {recursive : Bool}
    {s' : AtomSpace TV σ} {result : Option Bool}
    (he : s.removeAtom slots h recursive = some (s', result)) : s'.atomTable.Orderly := by
  obtain ⟨table, res, hx, ht⟩ := extract_takes (s.atomTable.brkUuid + 1) s.atomTable h recursive
    hs.linked ⟨Nat.succ_pos _, by lia⟩
  have htable := hs.extract hx ht
  simp only [removeAtom, hx, Option.bind_eq_bind, Option.bind_some] at he
  split at he
  · obtain ⟨rfl, -⟩ := Prod.mk.inj (Option.some.inj he)
    exact htable
  · rw [refund_all fun g hg => ht.avOf_ne_none hg, Option.bind_some] at he
    obtain ⟨⟨s₁, returned⟩, hrem, he⟩ := Option.bind_eq_some_iff.mp he
    obtain ⟨rfl, -⟩ := Prod.mk.inj (Option.some.inj he)
    refine removeExtractedHandles_orderly res.reverse ?_ (fun g hg => ?_) hrem
    · exact htable
    · rw [List.mem_reverse] at hg
      have hstored := ht.stored g
      simpa [hg] using hstored

theorem removeAll_orderly (hs : List Handle) {s s' : AtomSpace TV σ} (ho : s.atomTable.Orderly)
    {returned : Bool} (he : removeAll slots hs s = some (s', returned)) : s'.atomTable.Orderly := by
  induction hs generalizing s with
  | nil =>
    obtain ⟨rfl, -⟩ := Prod.mk.inj (Option.some.inj he)
    exact ho
  | cons h hs ih =>
    obtain ⟨⟨s₁, result⟩, hrem, he⟩ := Option.bind_eq_some_iff.mp he
    have h₁ := removeAtom_orderly ho hrem
    simp only at he
    split at he
    · exact ih h₁ he
    · obtain ⟨rfl, -⟩ := Prod.mk.inj (Option.some.inj he)
      exact h₁

theorem apply_orderly (hs : s.atomTable.Orderly) (op : SpaceOp TV) {s' : AtomSpace TV σ}
    (he : s.apply cs ops slots op = some s') : s'.atomTable.Orderly := by
  cases op with
  | addNode t name tvn => exact Option.some.inj he ▸ addNode_orderly hs t name tvn
  | addLink t outgoing tvn => exact Option.some.inj he ▸ addLink_orderly hs t outgoing tvn
  | setAV h av => exact setAV_orderly hs he
  | setSTI h v =>
    obtain ⟨av, -, he⟩ := Option.bind_eq_some_iff.mp he
    exact setAV_orderly hs he
  | setLTI h v =>
    obtain ⟨av, -, he⟩ := Option.bind_eq_some_iff.mp he
    exact setAV_orderly hs he
  | setVLTI h v =>
    obtain ⟨av, -, he⟩ := Option.bind_eq_some_iff.mp he
    exact setAV_orderly hs he
  | removeAtom h recursive =>
    obtain ⟨⟨s₁, result⟩, hrem, rfl⟩ := Option.map_eq_some_iff.mp he
    exact removeAtom_orderly hs hrem
  | clear =>
    obtain ⟨⟨s₁, returned⟩, hclear, rfl⟩ := Option.map_eq_some_iff.mp he
    obtain ⟨⟨s₂, done⟩, hall, hclear⟩ := Option.bind_eq_some_iff.mp hclear
    obtain ⟨rfl, -⟩ := Prod.mk.inj (Option.some.inj hclear)
    exact removeAll_orderly _ hs hall

theorem Reachable.orderly {servers : σ} {fundsSTI fundsLTI : Int}
    (r : Reachable cs ops slots (opened servers fundsSTI fundsLTI) s) : s.atomTable.Orderly := by
  induction r with
  | start => exact orderly_empty
  | step op _ _ he ih => exact apply_orderly ih op he

end Space

/-! ## Lists of calls -/

section Calls
variable (cs : ClassServer) (ops : TruthOps TV) (slots : Slots TV σ)

instance (s : AtomSpace TV σ) (op : SpaceOp TV) : Decidable (GivesToStored s op) :=
  match op with
  | .setAV h _ | .setSTI h _ | .setLTI h _ | .setVLTI h _ =>
    inferInstanceAs (Decidable (s.atomTable.isStored h = true))
  | .addNode .. | .addLink .. | .removeAtom .. | .clear => inferInstanceAs (Decidable True)

/-- Calls one after the other, as long as values are given to atoms of the space. -/
def applyAll : List (SpaceOp TV) → AtomSpace TV σ → Option (AtomSpace TV σ)
  | [], s => some s
  | op :: calls, s =>
    if GivesToStored s op then (s.apply cs ops slots op).bind (applyAll calls) else none

variable {cs ops slots}

theorem Reachable.calls {start s s' : AtomSpace TV σ} (r : Reachable cs ops slots start s)
    {calls : List (SpaceOp TV)} (he : s.applyAll cs ops slots calls = some s') :
    Reachable cs ops slots start s' := by
  induction calls generalizing s with
  | nil => exact Option.some.inj he ▸ r
  | cons op calls ih =>
    simp only [AtomSpace.applyAll] at he
    split at he
    · next hgives =>
      obtain ⟨s₁, hstep, he⟩ := Option.bind_eq_some_iff.mp he
      exact ih (r.step op hgives hstep) he
    · cases he

end Calls

end AtomSpace

end OpenCog
