import OpenCog.AtomSpace.Funds
import OpenCog.AtomSpace.DecayFunds

/-! The keys of the sequence index along any run: they are outgoing sequences in normal form,
and every entry is that of a record of the TLB. -/
namespace OpenCog

variable {TV σ : Type}

theorem Atom.setOutgoingSet_idem (cs : ClassServer) (t : TypeCode) (o : List Handle) :
    Atom.setOutgoingSet cs t (Atom.setOutgoingSet cs t o) = Atom.setOutgoingSet cs t o := by
  unfold Atom.setOutgoingSet
  split
  · exact eq_of_perm_sorted (List.mergeSort_perm _ _) (sorted_mergeSort _) (sorted_mergeSort _)
  · rfl

/-- Sequences a link type does not tell apart. -/
def SameMembers (cs : ClassServer) (t : TypeCode) (o p : List Handle) : Prop :=
  if cs.isA t UNORDERED_LINK then o.Perm p else o = p

theorem setOutgoingSet_eq_iff {cs : ClassServer} {t : TypeCode} {o p : List Handle} :
    Atom.setOutgoingSet cs t o = Atom.setOutgoingSet cs t p ↔ SameMembers cs t o p := by
  unfold Atom.setOutgoingSet SameMembers
  split
  · constructor
    · intro h
      exact (List.mergeSort_perm o _).symm.trans (h ▸ List.mergeSort_perm p _)
    · intro h
      exact eq_of_perm_sorted (((List.mergeSort_perm o _).trans h).trans
        (List.mergeSort_perm p _).symm) (sorted_mergeSort o) (sorted_mergeSort p)
  · rfl

theorem setOutgoingSet_eq_self_iff {cs : ClassServer} {t : TypeCode} {o : List Handle} :
    Atom.setOutgoingSet cs t o = o ↔ (cs.isA t UNORDERED_LINK = true → o.Pairwise (· ≤ ·)) := by
  unfold Atom.setOutgoingSet
  split
  · next hu =>
    constructor
    · intro h _
      exact h ▸ sorted_mergeSort o
    · intro h
      exact eq_of_perm_sorted (List.mergeSort_perm o _) (sorted_mergeSort o) (h hu)
  · next hu => exact ⟨fun _ h => absurd h hu, fun _ => rfl⟩

namespace AtomTable
open Index

/-- An entry of the sequence index is in normal form, and is that of a record with this key. -/
def Filed (cs : ClassServer) (s : AtomTable TV) : Prop :=
  ∀ t o h, s.linkIndex t o = some h →
    s.key h = some (t, .link o) ∧ h < s.brkUuid ∧ Atom.setOutgoingSet cs t o = o

/-- Nothing but entries of the sequence index has gone, as far as keys tell. -/
structure Thinned (s s' : AtomTable TV) : Prop where
  key : s'.key = s.key
  brkUuid : s'.brkUuid = s.brkUuid
  links : ∀ t o h, s'.linkIndex t o = some h → s.linkIndex t o = some h

/-- No entry of the sequence index leads to `h`. -/
def Unfiled (s : AtomTable TV) (h : Handle) : Prop := ∀ t o, s.linkIndex t o ≠ some h

theorem Thinned.refl (s : AtomTable TV) : Thinned s s := ⟨rfl, rfl, fun _ _ _ h => h⟩

theorem Thinned.trans {a b c : AtomTable TV} (h : Thinned a b) (k : Thinned b c) : Thinned a c :=
  ⟨k.key.trans h.key, k.brkUuid.trans h.brkUuid, fun t o g hg => h.links t o g (k.links t o g hg)⟩

theorem SameKeys.thinned {s s' : AtomTable TV} (e : SameKeys s s') : Thinned s s' :=
  ⟨e.key, e.brkUuid, fun t o h hh => by rwa [e.linkIndex] at hh⟩

theorem thinned_modify (s : AtomTable TV) (h : Handle) {f : Atom TV → Atom TV}
    (ht : ∀ a, (f a).type = a.type) (hb : ∀ a, (f a).body = a.body) : Thinned s (s.modify h f) :=
  (sameKeys_modify s h ht hb).thinned

theorem Unfiled.thinned {s s' : AtomTable TV} {h : Handle} (hu : Unfiled s h)
    (e : Thinned s s') : Unfiled s' h :=
  fun t o hh => hu t o (e.links t o h hh)

section Steps
variable {cs : ClassServer} {s s' : AtomTable TV}

theorem Filed.thinned (hs : Filed cs s) (e : Thinned s s') : Filed cs s' := by
  intro t o h hh
  rw [e.key, e.brkUuid]
  exact hs t o h (e.links t o h hh)

theorem filed_empty (cs : ClassServer) : Filed cs (empty : AtomTable TV) := by
  intro t o h hh
  cases hh

theorem Filed.isValidHandle (hs : Filed cs s) {t : TypeCode} {o : List Handle} {h : Handle}
    (hh : s.linkIndex t o = some h) : s.isValidHandle h = true := by
  obtain ⟨hk, hlt, -⟩ := hs t o h hh
  obtain ⟨a, ha, -, -⟩ := exists_of_key hk
  simp [AtomTable.isValidHandle, ha, hlt]

/-! ## Adding and changing -/

theorem thinned_merge (ops : TruthOps TV) (s : AtomTable TV) (h : Handle) (tv : TV) :
    Thinned s (s.merge ops h tv) := by
  unfold AtomTable.merge
  split
  · exact thinned_modify s h (fun _ => rfl) (fun _ => rfl)
  · exact .refl s

theorem thinned_setAttentionValue (s : AtomTable TV) (h : Handle) (av : AttentionValue) :
    Thinned s (s.setAttentionValue h av) := by
  have hmod : Thinned s (s.modify h fun a => { a with attentionValue := av }) :=
    thinned_modify s h (fun _ => rfl) (fun _ => rfl)
  unfold AtomTable.setAttentionValue
  cases s.handleMap h with
  | none => exact .refl s
  | some a =>
    simp only
    split
    · exact .refl s
    · split
      · exact ⟨hmod.key, hmod.brkUuid, hmod.links⟩
      · exact hmod

theorem getHandle_link (s : AtomTable TV) {a : Atom TV} {o : List Handle} (hb : a.body = .link o) :
    s.getHandle a = (s.linkIndex a.type o).filter s.isValidHandle := by
  unfold getHandle
  rw [hb]

theorem Filed.lookup_eq (hs : Filed cs s) (t : TypeCode) (o : List Handle) :
    (s.linkIndex t o).filter s.isValidHandle = s.linkIndex t o := by
  cases hh : s.linkIndex t o with
  | none => rfl
  | some h => exact Option.filter_some_pos (hs.isValidHandle hh)

/-- `add` merges, rejects, or files the new atom under the next handle. -/
theorem add_cases (ops : TruthOps TV) (s : AtomTable TV) (a : Atom TV) :
    (∃ h, s.getHandle a = some h ∧ (s.add ops a true).2 = some h ∧
        Thinned s (s.add ops a true).1 ∧ (s.add ops a true).1.linkIndex = s.linkIndex) ∨
      s.getHandle a = none ∧ (s.add ops a true).2 = none ∧ Thinned s (s.add ops a true).1 ∨
      s.getHandle a = none ∧ (s.add ops a true).2 = some s.brkUuid ∧
        (s.add ops a true).1.brkUuid = s.brkUuid + 1 ∧
        (∀ g, (s.add ops a true).1.key g =
          if g = s.brkUuid then some (a.type, a.body) else s.key g) ∧
        (s.add ops a true).1.linkIndex = match a.body with
          | .node _ => s.linkIndex
          | .link o => Function.update s.linkIndex a.type
              (mapInsert (s.linkIndex a.type) o s.brkUuid) := by
  have hins : ∀ valid, (s.insertAtom a valid).linkIndex = s.linkIndex := by
    intro valid
    unfold insertAtom
    simp only
    split
    · rfl
    · split
      · rfl
      · rfl
  cases hg : s.getHandle a with
  | some h =>
    have hadd : s.add ops a true = (s.merge ops h a.truthValue, some h) := by
      rw [AtomTable.add, hg]
    rw [hadd]
    refine .inl ⟨h, rfl, rfl, thinned_merge ops s h a.truthValue, ?_⟩
    simp only [AtomTable.merge]
    split
    · rfl
    · rfl
  | none =>
    unfold AtomTable.add
    rw [hg]
    simp only
    split
    · refine .inr (.inr ⟨trivial, rfl, ?_, ?_, ?_⟩)
      · simp only [if_true]
        rw [(foldl_addIncomingHandle s.brkUuid a.body.targets _).1.brkUuid]
        rfl
      · intro g
        simp only [if_true]
        rw [(foldl_addIncomingHandle s.brkUuid a.body.targets _).1.key]
        by_cases e : g = s.brkUuid
        · simp [key, insertHandle, e]
        · simp [key, insertHandle, e, (insertAtom_frame s a true).1]
      · simp only [if_true]
        rw [(foldl_addIncomingHandle s.brkUuid a.body.targets _).1.linkIndex]
        cases hb : a.body with
        | node name => simp only [insertHandle, hb, hins true]
        | link o => simp only [insertHandle, hb, hins true]
    · refine .inr (.inl ⟨trivial, rfl, ?_, (insertAtom_frame s a false).2.1, fun t o h hh => ?_⟩)
      · funext g
        simp only [key, (insertAtom_frame s a false).1]
      · rwa [hins false] at hh

theorem Filed.add (ops : TruthOps TV) (hs : Filed cs s) {a : Atom TV}
    (hn : ∀ o, a.body = .link o → Atom.setOutgoingSet cs a.type o = o) :
    Filed cs (s.add ops a true).1 := by
  obtain ⟨h, -, -, hthin, -⟩ | ⟨-, -, hthin⟩ | ⟨hnone, -, hbrk, hkey, hidx⟩ := add_cases ops s a
  · exact hs.thinned hthin
  · exact hs.thinned hthin
  · have hold : ∀ t o g, s.linkIndex t o = some g →
        (s.add ops a true).1.key g = some (t, .link o) ∧ g < (s.add ops a true).1.brkUuid ∧
          Atom.setOutgoingSet cs t o = o := by
      intro t o g hg
      obtain ⟨hk, hlt, hnf⟩ := hs t o g hg
      refine ⟨?_, by rw [hbrk]; exact Nat.lt_succ_of_lt hlt, hnf⟩
      rw [hkey, if_neg (Nat.ne_of_lt hlt), hk]
    intro t o g hg
    rw [hidx] at hg
    cases hb : a.body with
    | node n =>
      rw [hb] at hg
      exact hold t o g hg
    | link p =>
      rw [hb] at hg
      rw [getHandle_link s hb, hs.lookup_eq] at hnone
      by_cases ht : t = a.type
      · subst ht
        by_cases ho : o = p
        · subst ho
          simp only [Function.update_self, mapInsert, hnone, Option.getD_none,
            Option.some.injEq] at hg
          subst hg
          refine ⟨by rw [hkey, if_pos rfl, hb], ?_, hn o hb⟩
          rw [hbrk]
          exact Nat.lt_succ_self _
        · simp only [Function.update_self, mapInsert, ne_eq, ho, not_false_eq_true,
            Function.update_of_ne] at hg
          exact hold _ o g hg
      · simp only [ne_eq, ht, not_false_eq_true, Function.update_of_ne] at hg
        exact hold t o g hg

/-- After an `add` of a link that returns, its own key leads to its handle; no other entry
changes. -/
theorem Filed.linkIndex_add (ops : TruthOps TV) (hs : Filed cs s) {a : Atom TV} {o : List Handle}
    (hb : a.body = .link o) {h : Handle} (hh : (s.add ops a true).2 = some h) (t : TypeCode)
    (p : List Handle) : (s.add ops a true).1.linkIndex t p =
      if t = a.type ∧ p = o then some h else s.linkIndex t p := by
  obtain ⟨g, hg, hres, -, hidx⟩ | ⟨-, hres, -⟩ | ⟨hnone, hres, -, -, hidx⟩ := add_cases ops s a
  · obtain rfl := Option.some.inj (hres.symm.trans hh)
    rw [getHandle_link s hb, hs.lookup_eq] at hg
    rw [hidx]
    split
    · next e => rw [e.1, e.2, hg]
    · rfl
  · rw [hres] at hh
    cases hh
  · obtain rfl := Option.some.inj (hres.symm.trans hh)
    rw [getHandle_link s hb, hs.lookup_eq] at hnone
    rw [hidx, hb]
    by_cases ht : t = a.type
    · subst ht
      by_cases ho : p = o
      · simp [ho, mapInsert, hnone]
      · simp [ho, mapInsert]
    · simp [ht]

/-! ## Extraction and deletion -/

theorem thinned_removeIncoming {h : Handle} {xs : List Handle}
    (he : xs.foldlM (removeIncomingHandle h) s = some s') : Thinned s s' := by
  refine Fold.foldlM_keeps (Thinned s) (fun t x t' ht hx => ?_) xs (.refl s) he
  unfold removeIncomingHandle at hx
  cases ha : t.handleMap x with
  | none => simp [ha] at hx
  | some a =>
    simp only [ha] at hx
    split at hx
    · obtain rfl := Option.some.inj hx
      exact ht.trans (thinned_modify t x (fun _ => rfl) (fun _ => rfl))
    · cases hx

theorem thinned_detach (hs : Filed cs s) {h : Handle} {a : Atom TV} (ha : s.handleMap h = some a)
    (he : s.detach h a = some s') : Thinned s s' ∧ Unfiled s' h := by
  set s₁ := (eraseAtom { s with size := s.size - 1 } a).removeHandle h a with hs₁
  have hthin : Thinned s s₁ := by
    refine ⟨rfl, rfl, fun t o g hg => ?_⟩
    rw [hs₁] at hg
    unfold removeHandle at hg
    cases hb : a.body with
    | node n =>
      rw [hb] at hg
      exact hg
    | link p =>
      rw [hb] at hg
      simp only [eraseAtom] at hg
      by_cases ht : t = a.type
      · subst ht
        by_cases ho : o = p
        · simp [mapErase, ho] at hg
        · simpa [mapErase, ho] using hg
      · simpa [ht] using hg
  have hun : Unfiled s₁ h := by
    intro t o hg
    obtain ⟨hk, -, -⟩ := hs t o h (hthin.links t o h hg)
    rw [key_of_some ha, Option.some.injEq, Prod.mk.injEq] at hk
    obtain ⟨rfl, hb⟩ := hk
    rw [hs₁] at hg
    simp [removeHandle, hb, mapErase] at hg
  have hrest : Thinned s₁ s' := thinned_removeIncoming he
  exact ⟨hthin.trans hrest, hun.thinned hrest⟩

/-- Extraction thins the sequence index, and what it returns is in it no more. -/
theorem thinned_extract (fuel : Nat) {h : Handle} {recursive : Bool} {res : List Handle}
    (hs : Filed cs s) (he : extract fuel s h recursive = some (s', res)) :
    Thinned s s' ∧ ∀ g ∈ res, Unfiled s' g := by
  induction fuel generalizing s h recursive s' res with
  | zero => cases he
  | succ fuel ih =>
    unfold extract at he
    cases ha : s.handleMap h with
    | none =>
      rw [ha] at he
      obtain ⟨rfl, rfl⟩ := Prod.mk.inj (Option.some.inj he)
      exact ⟨.refl s, by simp⟩
    | some a =>
      simp only [ha] at he
      split at he
      · obtain ⟨rfl, rfl⟩ := Prod.mk.inj (Option.some.inj he)
        exact ⟨.refl s, by simp⟩
      · obtain ⟨acc, hloop, htail⟩ := Option.bind_eq_some_iff.mp he
        obtain ⟨b, hb, hend⟩ := Option.bind_eq_some_iff.mp htail
        clear he htail
        set s₀ := s.modify h fun a => { a with markedForRemoval := true } with hs₀
        have h₀ : Thinned s s₀ := thinned_modify s h (fun _ => rfl) (fun _ => rfl)
        have hacc : Thinned s acc.1 ∧ ∀ g ∈ acc.2, Unfiled acc.1 g := by
          refine Fold.foldlM_keeps
            (fun acc : AtomTable TV × List Handle => Thinned s acc.1 ∧ ∀ g ∈ acc.2, Unfiled acc.1 g)
            (fun acc l acc' hacc hstep => ?_) _ ⟨h₀, by simp⟩ hloop
          obtain ⟨c, -, hstep⟩ := Option.bind_eq_some_iff.mp hstep
          split at hstep
          · obtain rfl := Option.some.inj hstep
            exact hacc
          · obtain ⟨⟨s₁, extracted⟩, hrec, hstep⟩ := Option.bind_eq_some_iff.mp hstep
            obtain rfl := Option.some.inj hstep
            obtain ⟨hthin, hgone⟩ := ih (hs.thinned hacc.1) hrec
            refine ⟨hacc.1.trans hthin, fun g hg => ?_⟩
            rcases List.mem_append.mp hg with hg | hg
            · exact hgone g hg
            · exact (hacc.2 g hg).thinned hthin
        split at hend
        · obtain ⟨rfl, rfl⟩ := Prod.mk.inj (Option.some.inj hend)
          have hback : Thinned acc.1 (acc.1.modify h fun a => { a with markedForRemoval := false }) :=
            thinned_modify acc.1 h (fun _ => rfl) (fun _ => rfl)
          exact ⟨hacc.1.trans hback, fun g hg => (hacc.2 g hg).thinned hback⟩
        · obtain ⟨s₂, hd, hres⟩ := Option.bind_eq_some_iff.mp hend
          obtain ⟨rfl, rfl⟩ := Prod.mk.inj (Option.some.inj hres)
          obtain ⟨hthin, hgone⟩ := thinned_detach (hs.thinned hacc.1) hb hd
          refine ⟨hacc.1.trans hthin, fun g hg => ?_⟩
          rcases List.mem_cons.mp hg with rfl | hg
          · exact hgone
          · exact (hacc.2 g hg).thinned hthin

theorem Filed.deleteAtom (hs : Filed cs s) {h : Handle} (hu : Unfiled s h)
    (he : s.deleteAtom h = some s') : Filed cs s' ∧ s'.linkIndex = s.linkIndex := by
  unfold AtomTable.deleteAtom at he
  cases ha : s.handleMap h with
  | none => simp [ha] at he
  | some a =>
    simp only [ha] at he
    split at he
    · obtain rfl := Option.some.inj he
      refine ⟨fun t o g hg => ?_, rfl⟩
      have e : g ≠ h := fun e => hu t o (e ▸ hg)
      obtain ⟨hk, hrest⟩ := hs t o g hg
      exact ⟨by simpa [key, e] using hk, hrest⟩
    · cases he

/-! ## The decay sweep -/

theorem thinned_decayBand (s : AtomTable TV) (band : List Handle) : Thinned s (s.decayBand band) :=
  (decayBand_spec s band).1.toSameKeys.thinned

theorem thinned_reindex (s : AtomTable TV) (idx : Nat → List Handle) : Thinned s (s.reindex idx) :=
  ((SameButImportance.refl s).reindex idx).toSameKeys.thinned

theorem thinned_shiftBin (s : AtomTable TV) (bin : Nat) : Thinned s (s.shiftBin bin) :=
  (thinned_reindex s _).trans (thinned_decayBand _ _)

theorem thinned_decayBins (s : AtomTable TV) : Thinned s s.decayBins := by
  have hfirst : Thinned s s.mergeFirst := (thinned_decayBand s _).trans (thinned_reindex _ _)
  have hloop : ∀ (bins : List Nat) (t : AtomTable TV), Thinned s t →
      Thinned s (bins.foldl shiftBin t) := by
    intro bins
    induction bins with
    | nil => exact fun t ht => ht
    | cons b bins ih => exact fun t ht => ih _ (ht.trans (thinned_shiftBin t b))
  rw [decayBins_eq]
  exact (hloop _ _ hfirst).trans (thinned_reindex _ _)

/-- A stretch of the scan for old atoms: flags are kept, and what comes out was flagged by it. -/
structure Flagging (s s' : AtomTable TV) (res : List Handle) : Prop where
  thinned : Thinned s s'
  kept : ∀ g, s.decayedFlag g = true → s'.decayedFlag g = true
  flagged : ∀ g ∈ res, s'.decayedFlag g = true ∧ s.decayedFlag g = false

theorem Flagging.refl (s : AtomTable TV) : Flagging s s [] :=
  ⟨.refl s, fun _ h => h, fun _ h => absurd h List.not_mem_nil⟩

theorem Flagging.trans {a b c : AtomTable TV} {p q : List Handle} (h : Flagging a b p)
    (k : Flagging b c q) : Flagging a c (q ++ p) where
  thinned := h.thinned.trans k.thinned
  kept g hg := k.kept g (h.kept g hg)
  flagged g hg := by
    rcases List.mem_append.mp hg with hg | hg
    · obtain ⟨hc, hb⟩ := k.flagged g hg
      refine ⟨hc, Bool.eq_false_iff.mpr fun ha => ?_⟩
      rw [h.kept g ha] at hb
      cases hb
    · obtain ⟨hb, ha⟩ := h.flagged g hg
      exact ⟨k.kept g hb, ha⟩

theorem flagging_extractOld (minSTI : Int) (fuel : Nat) {h : Handle} {res : List Handle}
    (he : extractOld minSTI fuel s h = some (s', res)) : Flagging s s' res := by
  induction fuel generalizing s h s' res with
  | zero => cases he
  | succ fuel ih =>
    unfold extractOld at he
    obtain ⟨a, ha, hbody⟩ := Option.bind_eq_some_iff.mp he
    clear he
    split at hbody
    · obtain ⟨rfl, rfl⟩ := Prod.mk.inj (Option.some.inj hbody)
      exact .refl s
    · next hunflagged =>
      obtain ⟨acc, hloop, hend⟩ := Option.bind_eq_some_iff.mp hbody
      clear hbody
      have hsome : s.handleMap h ≠ none := by rw [ha]; simp
      have hflag := decayedFlag_setDecayed hsome true
      have hclear : s.decayedFlag h = false := by simpa [decayedFlag, ha] using hunflagged
      have h₀ : Thinned s (s.setDecayed h true) :=
        (sameButFlags_setDecayed s h true).toSameKeys.thinned
      have hacc : Flagging (s.setDecayed h true) acc.1 acc.2 := by
        refine Fold.foldlM_keeps
          (fun acc : AtomTable TV × List Handle => Flagging (s.setDecayed h true) acc.1 acc.2)
          (fun acc l acc' hacc hstep => ?_) _ (.refl _) hloop
        obtain ⟨b, -, hstep⟩ := Option.bind_eq_some_iff.mp hstep
        split at hstep
        · obtain ⟨⟨s₁, extracted⟩, hrec, hstep⟩ := Option.bind_eq_some_iff.mp hstep
          obtain rfl := Option.some.inj hstep
          exact hacc.trans (ih hrec)
        · obtain rfl := Option.some.inj hstep
          exact hacc
      have hne : ∀ g, s.decayedFlag g = true → g ≠ h := by
        rintro g hg rfl
        rw [hclear] at hg
        cases hg
      have hkept : ∀ g, s.decayedFlag g = true → acc.1.decayedFlag g = true := by
        intro g hg
        refine hacc.kept g ?_
        rw [hflag, if_neg (hne g hg)]
        exact hg
      have hres : ∀ g ∈ acc.2, g ≠ h ∧ acc.1.decayedFlag g = true ∧ s.decayedFlag g = false := by
        intro g hg
        obtain ⟨hnow, hbefore⟩ := hacc.flagged g hg
        rw [hflag] at hbefore
        by_cases e : g = h
        · simp [e] at hbefore
        · exact ⟨e, hnow, by rwa [if_neg e] at hbefore⟩
      have hself : acc.1.decayedFlag h = true := hacc.kept h (by rw [hflag, if_pos rfl])
      simp only at hend
      split at hend
      · obtain ⟨rfl, rfl⟩ := Prod.mk.inj (Option.some.inj hend)
        have hreset : ∀ g, g ≠ h →
            (acc.1.setDecayed h false).decayedFlag g = acc.1.decayedFlag g := by
          intro g e
          simp [setDecayed, decayedFlag, modify, e]
        refine ⟨h₀.trans (hacc.thinned.trans
            (sameButFlags_setDecayed acc.1 h false).toSameKeys.thinned), fun g hg => ?_,
          fun g hg => ?_⟩
        · exact (hreset g (hne g hg)).trans (hkept g hg)
        · obtain ⟨e, hnow, hbefore⟩ := hres g hg
          exact ⟨(hreset g e).trans hnow, hbefore⟩
      · obtain ⟨rfl, rfl⟩ := Prod.mk.inj (Option.some.inj hend)
        refine ⟨h₀.trans hacc.thinned, hkept, fun g hg => ?_⟩
        rcases List.mem_cons.mp hg with rfl | hg
        · exact ⟨hself, hclear⟩
        · exact (hres g hg).2

theorem flagging_scanOld (minSTI : Int) {res : List Handle}
    (he : scanOld minSTI s = some (s', res)) : Flagging s s' res := by
  refine Fold.foldlM_keeps
    (fun acc : AtomTable TV × List Handle => Flagging s acc.1 acc.2)
    (fun acc h acc' hacc hstep => ?_) _ (.refl s) he
  obtain ⟨a, -, hstep⟩ := Option.bind_eq_some_iff.mp hstep
  split at hstep
  · obtain ⟨⟨s₁, extracted⟩, hrec, hstep⟩ := Option.bind_eq_some_iff.mp hstep
    obtain rfl := Option.some.inj hstep
    exact hacc.trans (flagging_extractOld minSTI _ hrec)
  · obtain rfl := Option.some.inj hstep
    exact hacc

theorem thinned_forget {h : Handle} (he : s.forget h = some s') : Thinned s s' := by
  obtain ⟨a, -, he⟩ := Option.bind_eq_some_iff.mp he
  have hrest := thinned_removeIncoming he
  exact ⟨hrest.key, hrest.brkUuid, hrest.links⟩

/-- What the filter drops and the loop forgets is in the sequence index no more. -/
theorem thinned_forgetAll {res : List Handle} (hres : ∀ g ∈ res, s.decayedFlag g = true)
    (he : res.foldlM forget (s.removeFiltered s.decayedFlag) = some s') :
    Thinned s s' ∧ ∀ g ∈ res, Unfiled s' g := by
  have hfilter : Thinned s (s.removeFiltered s.decayedFlag) :=
    ⟨rfl, rfl, fun t o g hg => (Option.filter_eq_some_iff.mp hg).1⟩
  have hloop : Thinned (s.removeFiltered s.decayedFlag) s' :=
    Fold.foldlM_keeps (Thinned (s.removeFiltered s.decayedFlag))
      (fun t g t' ht hstep => ht.trans (thinned_forget hstep)) res (.refl _) he
  refine ⟨hfilter.trans hloop, fun g hg => Unfiled.thinned (fun t o hh => ?_) hloop⟩
  have := (Option.filter_eq_some_iff.mp hh).2
  simp [hres g hg] at this

/-! ## Runs of the table -/

theorem Filed.deleteAll (xs : List Handle) (hs : Filed cs s) (hu : ∀ g ∈ xs, Unfiled s g)
    (he : xs.foldlM AtomTable.deleteAtom s = some s') : Filed cs s' := by
  induction xs generalizing s with
  | nil => exact Option.some.inj he ▸ hs
  | cons h xs ih =>
    obtain ⟨t, hdel, he⟩ := Option.bind_eq_some_iff.mp he
    obtain ⟨ht, hidx⟩ := hs.deleteAtom (hu h List.mem_cons_self) hdel
    refine ih ht (fun g hg u o hh => ?_) he
    exact hu g (List.mem_cons_of_mem h hg) u o (hidx ▸ hh)

theorem filed_addNew {ops : TruthOps TV} {a : Option (Atom TV)} (hs : Filed cs s)
    (ha : ∀ x, a = some x → ∀ o, x.body = .link o → Atom.setOutgoingSet cs x.type o = o)
    (he : s.addNew ops a = some s') : Filed cs s' := by
  obtain ⟨x, hx, he⟩ := Option.bind_eq_some_iff.mp he
  simp only at he
  split at he
  · exact Option.some.inj he ▸ hs.add ops (ha x hx)
  · cases he

theorem newNode_normal {ops : TruthOps TV} {t : TypeCode} {name : String} {tv : TV} (x : Atom TV)
    (hx : Atom.newNode cs ops t name tv = some x) (o : List Handle) (ho : x.body = .link o) :
    Atom.setOutgoingSet cs x.type o = o := by
  unfold Atom.newNode at hx
  split at hx
  · obtain rfl := Option.some.inj hx
    cases ho
  · cases hx

theorem newLink_normal {ops : TruthOps TV} {t : TypeCode} {outgoing : List Handle} {tv : TV}
    (x : Atom TV) (hx : Atom.newLink cs ops t outgoing tv = some x) (o : List Handle)
    (ho : x.body = .link o) : Atom.setOutgoingSet cs x.type o = o := by
  unfold Atom.newLink at hx
  split at hx
  · obtain rfl := Option.some.inj hx
    obtain rfl := Body.link.inj ho
    exact Atom.setOutgoingSet_idem cs t outgoing
  · cases hx

theorem filed_apply {ops : TruthOps TV} {op : TableOp TV} (hs : Filed cs s)
    (he : s.apply cs ops op = some s') : Filed cs s' := by
  cases op with
  | addNode t name tv => exact filed_addNew hs newNode_normal he
  | addLink t outgoing tv => exact filed_addNew hs newLink_normal he
  | setAttentionValue h av =>
    exact Option.some.inj he ▸ hs.thinned (thinned_setAttentionValue s h av)
  | extract h recursive =>
    obtain ⟨⟨t, res⟩, hx, rfl⟩ := Option.map_eq_some_iff.mp he
    exact hs.thinned (thinned_extract _ hs hx).1
  | remove h recursive =>
    obtain ⟨⟨t, res⟩, hx, he⟩ := Option.bind_eq_some_iff.mp he
    obtain ⟨hthin, hgone⟩ := thinned_extract _ hs hx
    exact (hs.thinned hthin).deleteAll _ (fun g hg => hgone g (List.mem_reverse.mp hg)) he
  | decay minSTI =>
    obtain ⟨⟨t, old⟩, hscan, he⟩ := Option.bind_eq_some_iff.mp he
    have hflag := flagging_scanOld minSTI hscan
    have ht := hs.thinned ((thinned_decayBins s).trans hflag.thinned)
    simp only at he
    split at he
    · exact Option.some.inj he ▸ ht
    · obtain ⟨u, hforget, he⟩ := Option.bind_eq_some_iff.mp he
      obtain ⟨hthin, hgone⟩ := thinned_forgetAll (fun g hg => (hflag.flagged g hg).1) hforget
      exact (ht.thinned hthin).deleteAll _ (fun g hg => hgone g (List.mem_reverse.mp hg)) he

theorem Reachable.filed {ops : TruthOps TV} {ok : AtomTable TV → TableOp TV → Prop}
    (r : Reachable cs ops ok s) : Filed cs s := by
  induction r with
  | empty => exact filed_empty cs
  | step op _ _ e ih => exact filed_apply ih e

end Steps

end AtomTable

/-! ## Runs of the space -/

namespace AtomSpace
open AtomTable

section Runs
variable {cs : ClassServer} {ops : TruthOps TV} {slots : Slots TV σ} {s s' : AtomSpace TV σ}

theorem filed_addAtom (hs : Filed cs s.atomTable) (a : Option (Atom TV))
    (ha : ∀ x, a = some x → ∀ o, x.body = .link o → Atom.setOutgoingSet cs x.type o = o) :
    Filed cs (s.payDefault.addAtom ops slots a).1.atomTable := by
  cases a with
  | none => exact hs
  | some a =>
    have hadd := hs.add ops (ha a rfl)
    simp only [addAtom]
    split
    · exact hadd
    · exact hadd

theorem filed_setAV (hs : Filed cs s.atomTable) {h : Handle} {av : AttentionValue}
    (he : s.setAV h av = some s') : Filed cs s'.atomTable := by
  obtain ⟨old, -, he⟩ := Option.bind_eq_some_iff.mp he
  obtain rfl := Option.some.inj he
  exact hs.thinned (thinned_setAttentionValue s.atomTable h av)

theorem filed_removeExtractedHandles {hs : List Handle} {returned : Bool}
    (hf : Filed cs s.atomTable) (hu : ∀ g ∈ hs, Unfiled s.atomTable g)
    (he : removeExtractedHandles slots hs s = some (s', returned)) : Filed cs s'.atomTable := by
  induction hs generalizing s with
  | nil =>
    obtain ⟨rfl, -⟩ := Prod.mk.inj (Option.some.inj he)
    exact hf
  | cons h hs ih =>
    simp only [removeExtractedHandles] at he
    split at he
    · obtain ⟨table, hdel, he⟩ := Option.bind_eq_some_iff.mp he
      obtain ⟨hf', hidx⟩ := hf.deleteAtom (hu h List.mem_cons_self) hdel
      refine ih hf' (fun g hg t o hh => ?_) he
      exact hu g (List.mem_cons_of_mem h hg) t o (hidx ▸ hh)
    · obtain ⟨rfl, -⟩ := Prod.mk.inj (Option.some.inj he)
      exact hf

theorem atomTable_refund_all {res : List Handle} (he : res.foldlM refund s = some s') :
    s'.atomTable = s.atomTable := by
  refine Fold.foldlM_keeps (fun t : AtomSpace TV σ => t.atomTable = s.atomTable)
    (fun t g t' ht hstep => ?_) res rfl he
  obtain ⟨av, -, hstep⟩ := Option.bind_eq_some_iff.mp hstep
  obtain rfl := Option.some.inj hstep
  exact ht

theorem filed_removeAtom (hs : Filed cs s.atomTable) {h : Handle} {recursive : Bool}
    {result : Option Bool} (he : s.removeAtom slots h recursive = some (s', result)) :
    Filed cs s'.atomTable := by
  obtain ⟨⟨table, extracted⟩, hx, he⟩ := Option.bind_eq_some_iff.mp he
  obtain ⟨hthin, hgone⟩ := thinned_extract _ hs hx
  simp only at he
  split at he
  · obtain ⟨rfl, -⟩ := Prod.mk.inj (Option.some.inj he)
    exact hs.thinned hthin
  · obtain ⟨s₁, hrefund, he⟩ := Option.bind_eq_some_iff.mp he
    obtain ⟨⟨s₂, returned⟩, hrem, he⟩ := Option.bind_eq_some_iff.mp he
    obtain ⟨rfl, -⟩ := Prod.mk.inj (Option.some.inj he)
    have htable := atomTable_refund_all hrefund
    refine filed_removeExtractedHandles ?_ ?_ hrem
    · rw [htable]
      exact hs.thinned hthin
    · intro g hg
      rw [htable]
      exact hgone g (List.mem_reverse.mp hg)

theorem filed_removeAll (hs : List Handle) {returned : Bool} (hf : Filed cs s.atomTable)
    (he : removeAll slots hs s = some (s', returned)) : Filed cs s'.atomTable := by
  induction hs generalizing s with
  | nil =>
    obtain ⟨rfl, -⟩ := Prod.mk.inj (Option.some.inj he)
    exact hf
  | cons h hs ih =>
    obtain ⟨⟨s₁, result⟩, hrem, he⟩ := Option.bind_eq_some_iff.mp he
    have hf₁ := filed_removeAtom hf hrem
    simp only at he
    split at he
    · exact ih hf₁ he
    · obtain ⟨rfl, -⟩ := Prod.mk.inj (Option.some.inj he)
      exact hf₁

theorem filed_decay (hs : Filed cs s.atomTable) {minSTI : Int} {returned : Bool}
    (he : s.decayShortTermImportance slots minSTI = some (s', returned)) :
    Filed cs s'.atomTable := by
  obtain ⟨⟨table, old⟩, hscan, he⟩ := Option.bind_eq_some_iff.mp he
  have hflag := flagging_scanOld minSTI hscan
  have hf := hs.thinned ((thinned_decayBins s.atomTable).trans hflag.thinned)
  simp only at he
  split at he
  · obtain ⟨rfl, -⟩ := Prod.mk.inj (Option.some.inj he)
    exact hf
  · obtain ⟨table', hforget, he⟩ := Option.bind_eq_some_iff.mp he
    obtain ⟨hthin, hgone⟩ := thinned_forgetAll (fun g hg => (hflag.flagged g hg).1) hforget
    exact filed_removeExtractedHandles (s := { s with atomTable := table' }) (hf.thinned hthin)
      (fun g hg => hgone g (List.mem_reverse.mp hg)) he

theorem filed_attend (hs : Filed cs s.atomTable) {op : AttentionOp TV}
    (he : s.attend cs ops slots op = some s') : Filed cs s'.atomTable := by
  cases op with
  | decay minSTI =>
    obtain ⟨⟨s₁, returned⟩, hdec, rfl⟩ := Option.map_eq_some_iff.mp he
    exact filed_decay hs hdec
  | call op =>
    cases op with
    | addNode t name tv =>
      obtain rfl := Option.some.inj he
      unfold addNode
      split
      · exact hs.thinned (thinned_merge ops _ _ tv)
      · exact filed_addAtom hs _ newNode_normal
    | addLink t outgoing tv =>
      obtain rfl := Option.some.inj he
      unfold addLink
      split
      · exact hs.thinned (thinned_merge ops _ _ tv)
      · exact filed_addAtom hs _ newLink_normal
    | setAV h av => exact filed_setAV hs he
    | setSTI h v =>
      obtain ⟨av, -, he⟩ := Option.bind_eq_some_iff.mp he
      exact filed_setAV hs he
    | setLTI h v =>
      obtain ⟨av, -, he⟩ := Option.bind_eq_some_iff.mp he
      exact filed_setAV hs he
    | setVLTI h v =>
      obtain ⟨av, -, he⟩ := Option.bind_eq_some_iff.mp he
      exact filed_setAV hs he
    | removeAtom h recursive =>
      obtain ⟨⟨s₁, r⟩, hrem, rfl⟩ := Option.map_eq_some_iff.mp he
      exact filed_removeAtom hs hrem
    | clear =>
      obtain ⟨⟨s₁, r⟩, hclear, rfl⟩ := Option.map_eq_some_iff.mp he
      obtain ⟨⟨s₂, returned⟩, hall, hclear⟩ := Option.bind_eq_some_iff.mp hclear
      obtain ⟨rfl, -⟩ := Prod.mk.inj (Option.some.inj hclear)
      exact filed_removeAll _ hs hall

end Runs

/-- Whatever is called: a call that throws ends, and the run goes on from what it left. -/
inductive Ran (cs : ClassServer) (ops : TruthOps TV) (slots : Slots TV σ)
    (start : AtomSpace TV σ) : AtomSpace TV σ → Prop
  | start : Ran cs ops slots start start
  | step {s s' : AtomSpace TV σ} (op : AttentionOp TV) (r : Ran cs ops slots start s)
      (e : s.attend cs ops slots op = some s') : Ran cs ops slots start s'

theorem Ran.filed {cs : ClassServer} {ops : TruthOps TV} {slots : Slots TV σ}
    {start s : AtomSpace TV σ} (hs : Filed cs start.atomTable) (r : Ran cs ops slots start s) :
    Filed cs s.atomTable := by
  induction r with
  | start => exact hs
  | step op _ e ih => exact filed_attend ih e

/-! ## Inserting and finding -/

section Finding
variable {cs : ClassServer} {ops : TruthOps TV} {slots : Slots TV σ} {s : AtomSpace TV σ}
  {t : TypeCode} {seq : List Handle} {tvn : TV} {h : Handle}

theorem addLink_found (hs : Filed cs s.atomTable)
    (hh : s.atomTable.linkIndex t seq = some h) :
    s.addLink cs ops slots t seq tvn =
      ({ s with atomTable := s.atomTable.merge ops h tvn }, some h) := by
  have hvalid := hs.isValidHandle hh
  rw [addLink, AtomTable.getHandleBySeq, hh, Option.filter_some_pos hvalid]

theorem addLink_new (hnone : s.atomTable.linkIndex t seq = none) :
    s.addLink cs ops slots t seq tvn =
      s.payDefault.addAtom ops slots (Atom.newLink cs ops t seq tvn) := by
  rw [addLink, AtomTable.getHandleBySeq, hnone, Option.filter_none]

/-- What `addLink` returns is under the sorted members. -/
theorem linkIndex_addLink (hs : Filed cs s.atomTable)
    (hh : (s.addLink cs ops slots t seq tvn).2 = some h) :
    (s.addLink cs ops slots t seq tvn).1.atomTable.linkIndex t (Atom.setOutgoingSet cs t seq) =
      some h := by
  cases hidx : s.atomTable.linkIndex t seq with
  | some g =>
    rw [addLink_found hs hidx] at hh ⊢
    obtain rfl := Option.some.inj hh
    rw [(hs t seq g hidx).2.2]
    have hmerge : (s.atomTable.merge ops g tvn).linkIndex = s.atomTable.linkIndex := by
      unfold AtomTable.merge
      split
      · rfl
      · rfl
    exact (congrFun (congrFun hmerge t) seq).trans hidx
  | none =>
    rw [addLink_new hidx] at hh ⊢
    cases hlink : Atom.newLink cs ops t seq tvn with
    | none =>
      rw [hlink] at hh
      cases hh
    | some a =>
      have ha : a = Atom.init ops t (.link (Atom.setOutgoingSet cs t seq)) tvn := by
        unfold Atom.newLink at hlink
        split at hlink
        · exact (Option.some.inj hlink).symm
        · cases hlink
      rw [hlink] at hh
      have hres : (s.atomTable.add ops a true).2 = some h ∧
          (s.payDefault.addAtom ops slots (some a)).1.atomTable =
            (s.atomTable.add ops a true).1 := by
        simp only [addAtom] at hh ⊢
        split at hh
        · next g _ hg =>
          split at hh
          · exact ⟨hg.trans hh, rfl⟩
          · cases hh
        · exact ⟨hh, rfl⟩
      rw [hres.2]
      have hadd := hs.linkIndex_add ops (a := a) (o := Atom.setOutgoingSet cs t seq)
        (by rw [ha]; rfl) hres.1 t (Atom.setOutgoingSet cs t seq)
      rw [hadd, if_pos ⟨by rw [ha]; rfl, rfl⟩]

/-- A stored link is found by its constructor whatever the order it is given in. -/
theorem addLink_of_sorted (hs : Filed cs s.atomTable) (hlink : cs.isA t LINK = true)
    (hh : s.atomTable.linkIndex t (Atom.setOutgoingSet cs t seq) = some h) :
    (s.addLink cs ops slots t seq tvn).2 = some h := by
  cases hidx : s.atomTable.linkIndex t seq with
  | some g =>
    rw [addLink_found hs hidx]
    rw [(hs t seq g hidx).2.2, hidx] at hh
    exact hh
  | none =>
    rw [addLink_new hidx, Atom.newLink, if_pos hlink]
    have hget : s.payDefault.atomTable.getHandle
        (Atom.init ops t (.link (Atom.setOutgoingSet cs t seq)) tvn) = some h := by
      rw [getHandle_link _ rfl]
      exact (hs.lookup_eq t _).trans hh
    simp only [addAtom, AtomTable.add, hget]

/-- The handle of a link that was added is found by the sequence it was added with, and given
again to a caller who adds a sequence its type treats as the same. -/
def FindsInserted (cs : ClassServer) (ops : TruthOps TV) (slots : Slots TV σ) (s : AtomSpace TV σ)
    (t : TypeCode) (seq : List Handle) (tvn : TV) (h : Handle) : Prop :=
  (s.addLink cs ops slots t seq tvn).1.atomTable.getHandleBySeq t seq = some h ∧
    ∀ p tv, SameMembers cs t seq p →
      ((s.addLink cs ops slots t seq tvn).1.addLink cs ops slots t p tv).2 = some h

theorem filed_addLink (hs : Filed cs s.atomTable) :
    Filed cs (s.addLink cs ops slots t seq tvn).1.atomTable := by
  have he : s.attend cs ops slots (.call (.addLink t seq tvn)) =
      some (s.addLink cs ops slots t seq tvn).1 := rfl
  exact filed_attend hs he

theorem findsInserted_iff_of_filed (hs : Filed cs s.atomTable) (hlink : cs.isA t LINK = true)
    (hh : (s.addLink cs ops slots t seq tvn).2 = some h) :
    FindsInserted cs ops slots s t seq tvn h ↔
      (cs.isA t UNORDERED_LINK = true → seq.Pairwise (· ≤ ·)) := by
  have hfiled : Filed cs (s.addLink cs ops slots t seq tvn).1.atomTable := filed_addLink hs
  have hkey := linkIndex_addLink hs hh
  rw [← setOutgoingSet_eq_self_iff]
  constructor
  · rintro ⟨hfind, -⟩
    exact (hfiled t seq h hfind).2.2
  · intro hnormal
    rw [hnormal] at hkey
    refine ⟨hkey, fun p tv hsame => addLink_of_sorted hfiled hlink ?_⟩
    rw [← setOutgoingSet_eq_iff.mpr hsame, hnormal]
    exact hkey

end Finding

/-- In every state of a run a link is found by the sequence it was added with exactly when its
type keeps the order of its members or they come in handle order. -/
theorem finds_inserted_iff (cs : ClassServer) (ops : TruthOps TV) (slots : Slots TV σ)
    (servers : σ) (fundsSTI fundsLTI : Int) {s : AtomSpace TV σ}
    (r : Ran cs ops slots (opened servers fundsSTI fundsLTI) s) {t : TypeCode}
    (hlink : cs.isA t LINK = true) (seq : List Handle) (tvn : TV) {h : Handle}
    (hh : (s.addLink cs ops slots t seq tvn).2 = some h) :
    FindsInserted cs ops slots s t seq tvn h ↔
      (cs.isA t UNORDERED_LINK = true → seq.Pairwise (· ≤ ·)) :=
  findsInserted_iff_of_filed (r.filed (filed_empty cs)) hlink hh

/-- The space with two nodes, handles 1 and 2. -/
def twoNodes : AtomSpace Unit Unit :=
  (((opened () 100 7).addNode .script unitOps noSlots CONCEPT_NODE "a" ()).1.addNode .script
    unitOps noSlots CONCEPT_NODE "b" ()).1

theorem ran_twoNodes : Ran .script unitOps noSlots (opened () 100 7) twoNodes :=
  .step (.call (.addNode CONCEPT_NODE "b" ()))
    (.step (.call (.addNode CONCEPT_NODE "a" ())) .start rfl) rfl

theorem finds_inserted_of_list : FindsInserted .script unitOps noSlots twoNodes LIST_LINK [2, 1] () 3 :=
  (finds_inserted_iff .script unitOps noSlots () 100 7 ran_twoNodes (by decide +kernel) [2, 1] ()
    (by decide +kernel)).mpr fun h => absurd h (by decide +kernel)

/-- The lookup does not sort the members of an unordered link as its constructor does. -/
theorem unordered_link_not_found :
    ¬ ∀ s : AtomSpace Unit Unit, Ran .script unitOps noSlots (opened () 100 7) s →
      ∀ t, ClassServer.script.isA t LINK = true → ∀ seq,
        (∀ x ∈ seq, s.atomTable.isValidHandle x = true) → ∀ h,
        (s.addLink .script unitOps noSlots t seq ()).2 = some h →
          FindsInserted .script unitOps noSlots s t seq () h := by
  intro hall
  have hlink : ClassServer.script.isA SIMILARITY_LINK LINK = true := by decide +kernel
  have hun : ClassServer.script.isA SIMILARITY_LINK UNORDERED_LINK = true := by decide +kernel
  have hsorted : Atom.setOutgoingSet .script SIMILARITY_LINK [2, 1] = [1, 2] := by
    rw [Atom.setOutgoingSet, if_pos hun]
    exact eq_of_perm_sorted ((List.mergeSort_perm _ _).trans (by decide)) (sorted_mergeSort _)
      (by decide)
  have hadd : (twoNodes.addLink .script unitOps noSlots SIMILARITY_LINK [2, 1] ()).2 = some 3 := by
    have hnew : Atom.newLink .script unitOps SIMILARITY_LINK [2, 1] () =
        some (Atom.init unitOps SIMILARITY_LINK (.link [1, 2]) ()) := by
      rw [Atom.newLink, if_pos hlink, hsorted]
    rw [addLink_new (by decide +kernel), hnew]
    decide +kernel
  have hfinds := hall twoNodes ran_twoNodes SIMILARITY_LINK hlink [2, 1] (by decide +kernel) 3 hadd
  rw [findsInserted_iff_of_filed (ran_twoNodes.filed (filed_empty _)) hlink hadd] at hfinds
  exact absurd (hfinds hun) (by decide)

end AtomSpace

end OpenCog
