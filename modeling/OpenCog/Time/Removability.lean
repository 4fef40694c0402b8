import OpenCog.AtomSpace.NormalForm
import OpenCog.Time.TimeAgreement

/-! Removals under the slots of the time server. The slot of a removed AtTimeLink asserts a form
that the slot of an added one only warns about, and it runs when the atoms have left the
indices already. -/
namespace OpenCog

variable {TV : Type}

namespace TimeServer
open AtomTable TemporalTable

/-! ## Whole removals -/

/-- Nothing is left of an atom. -/
structure Gone (s : AtomTable TV) (g : Handle) : Prop where
  record : s.handleMap g = none
  atomSet : g ∉ s.atomSet
  nodeIndex : ∀ t n, s.nodeIndex t n ≠ some g
  linkIndex : ∀ t o, s.linkIndex t o ≠ some g
  typeIndex : ∀ t, g ∉ s.typeIndex t
  targetTypeIndex : ∀ t, g ∉ s.targetTypeIndex t
  importanceIndex : ∀ i, g ∉ s.importanceIndex i

/-- The call returns, nothing is left of the atoms that fall and their importance is back in the
funds; all other atoms stay with what they hold. -/
def RemovesWhole (s : AtomSpace TV TemporalTable) (h : Handle) (recursive : Bool) : Prop :=
  ∃ s' removed, ∃ res : List Handle, s.removeAtom slots h recursive = some (s', some removed) ∧
    (res.Nodup ∧ ∀ g, g ∈ res ↔ s.atomTable.Falls h recursive g) ∧
    (∀ g ∈ res, Gone s'.atomTable g) ∧
    (∀ g ∈ s.atomTable.atomSet, g ∉ res → g ∈ s'.atomTable.atomSet ∧
      s'.atomTable.key g = s.atomTable.key g ∧ s'.atomTable.avOf g = s.atomTable.avOf g) ∧
    s'.fundsSTI = s.fundsSTI +
      (res.map fun g => ((s.atomTable.avOf g).map AttentionValue.sti).getD 0).sum ∧
    s'.fundsLTI = s.fundsLTI +
      (res.map fun g => ((s.atomTable.avOf g).map AttentionValue.lti).getD 0).sum

/-- Every removal that takes an AtTimeLink is whole. -/
def Removable (s : AtomSpace TV TemporalTable) : Prop :=
  ∀ l, s.atomTable.isStored l = true → s.atomTable.typeOf l = some AT_TIME_LINK →
    ∀ h recursive, s.atomTable.Falls h recursive l → RemovesWhole s h recursive

/-! ## What every state of a run keeps -/

structure Steady (cs : ClassServer) (s : AtomSpace TV TemporalTable) : Prop where
  standing : Standing cs s.atomTable
  timed : WellTimed s.atomTable
  handles : s.atomTable.brkUuid ≤ UNDEFINED
  sound : Sound s.servers

section Steady
variable {cs : ClassServer} {ops : TruthOps TV} {s s' : AtomSpace TV TemporalTable}

theorem steady_opened (cs : ClassServer) (fundsSTI fundsLTI : Int) :
    Steady cs (AtomSpace.opened .empty fundsSTI fundsLTI : AtomSpace TV TemporalTable) where
  standing := standing_empty cs
  timed l hl := by cases hl
  handles := by
    change 1 ≤ UNDEFINED
    decide
  sound := sound_empty

/-- What stays stored with its key stays well timed: the members of a stored link are stored. -/
theorem WellTimed.of_kept {s s' : AtomTable TV} (hw : WellTimed s) (hs : Inv cs s) (hs' : Inv cs s')
    (hkept : ∀ g ∈ s'.atomSet, g ∈ s.atomSet ∧ s'.key g = s.key g) : WellTimed s' := by
  intro l hst hty
  have hl := hs'.isStored_iff.mp hst
  obtain ⟨hl₀, hkey⟩ := hkept l hl
  rw [typeOf_eq, hkey, ← typeOf_eq] at hty
  obtain ⟨h, t, ht⟩ := hw l (hs.isStored_iff.mpr hl₀) hty
  refine ⟨h, t, ht.congr hkey fun x hx => (hkept x ?_).2⟩
  obtain ⟨u, b, hb⟩ := hs'.has_of_mem hl
  refine (hs'.members hb x ?_).1
  rw [targetsOf_eq, ← hkey, hb.2] at hx
  exact List.mem_of_mem_take hx

/-- Deletions of links before their targets: the slot of each finds the record of its TimeNode. -/
theorem removeExtractedHandles_timed (hs : List Handle) {s : AtomSpace TV TemporalTable}
    {table : AtomTable TV} (hdel : hs.foldlM AtomTable.deleteAtom s.atomTable = some table)
    (hsound : Sound s.servers) (hnd : hs.Nodup)
    (horder : hs.Pairwise fun g l => g ∉ s.atomTable.targetsOf l)
    (htimed : ∀ g ∈ hs, s.atomTable.typeOf g = some AT_TIME_LINK → ∃ h t,
      Times s.atomTable g h t ∧ h ≠ UNDEFINED) :
    ∃ servers, s.removeExtractedHandles slots hs =
        some ({ s with atomTable := table, servers := servers }, true) ∧ Sound servers := by
  induction hs generalizing s with
  | nil =>
    obtain rfl := Option.some.inj hdel
    exact ⟨s.servers, rfl, hsound⟩
  | cons g hs ih =>
    obtain ⟨hg, hnd⟩ := List.nodup_cons.mp hnd
    obtain ⟨hfirst, horder⟩ := List.pairwise_cons.mp horder
    rw [List.foldlM_cons] at hdel
    obtain ⟨t, ht, hdel⟩ := Option.bind_eq_some_iff.mp hdel
    obtain ⟨a, ha⟩ : ∃ a, s.atomTable.handleMap g = some a := by
      cases ha : s.atomTable.handleMap g with
      | none => simp [AtomTable.deleteAtom, ha] at ht
      | some a => exact ⟨a, rfl⟩
    obtain ⟨m, hm, hsound', -⟩ := atomRemoved_returns hsound ha (htimed g List.mem_cons_self)
    have hother : ∀ x, x ≠ g → t.handleMap x = s.atomTable.handleMap x := by
      intro x e
      simp only [AtomTable.deleteAtom, ha] at ht
      split at ht
      · obtain rfl := Option.some.inj ht
        simp [e]
      · cases ht
    have hkey : ∀ x, x ≠ g → t.key x = s.atomTable.key x := fun x e => by
      simp only [key, hother x e]
    have hne : ∀ l ∈ hs, l ≠ g := fun l hl e => hg (e ▸ hl)
    obtain ⟨servers, he, hsound₂⟩ := ih (s := { s with atomTable := t, servers := m }) hdel hsound'
      hnd (horder.imp_of_mem fun {x l} _ hl hx => by
        rwa [targetsOf_eq, hkey l (hne l hl), ← targetsOf_eq]) (fun l hl hty => by
        rw [typeOf_eq, hkey l (hne l hl), ← typeOf_eq] at hty
        obtain ⟨h, u, hu, hh⟩ := htimed l (List.mem_cons_of_mem g hl) hty
        refine ⟨h, u, hu.congr (hkey l (hne l hl)) fun x hx => hkey x ?_, hh⟩
        rintro rfl
        exact hfirst l hl hx)
    have hslot : slots.atomRemoved s.atomTable s.servers g = (m, true) := by simp only [slots, hm]
    refine ⟨servers, ?_, hsound₂⟩
    simp only [AtomSpace.removeExtractedHandles, hslot, if_true, ht, Option.bind_eq_bind,
      Option.bind_some]
    exact he

/-- The timed atom of a stored AtTimeLink has a handle below the undefined one. -/
theorem Steady.times (hs : Steady cs s) {l : Handle} (hl : l ∈ s.atomTable.atomSet)
    (hty : s.atomTable.typeOf l = some AT_TIME_LINK) :
    ∃ h t, Times s.atomTable l h t ∧ h ≠ UNDEFINED := by
  have hst := hs.standing.inv.isStored_iff.mpr hl
  obtain ⟨h, t, ht⟩ := hs.timed l hst hty
  obtain ⟨n, hn⟩ := ht.targetsOf
  have hlinked := hs.standing.linkage
  have hlt := hlinked.lt_brk (hlinked.below l hst h (by simp [hn])).2
  exact ⟨h, t, ht, Nat.ne_of_lt (Nat.lt_of_lt_of_le hlt hs.handles)⟩

theorem gone_of_absent {s : AtomTable TV} (hs : Inv cs s) {g : Handle} (hnone : s.handleMap g = none) :
    Gone s g := by
  have hm : g ∉ s.atomSet := fun hm => hs.record hm hnone
  refine ⟨hnone, hm, fun t n h => hm (hs.nodes.mp h).1, fun t o h => hm (hs.links.mp h).1,
    fun t h => ?_, fun t h => ?_, fun i h => hm (hs.bins.mp h).1⟩
  · obtain ⟨b, hb⟩ := hs.types.mp h
    exact hm hb.1
  · obtain ⟨u, b, hb, -⟩ := hs.targets.mp h
    exact hm hb.1

/-- Every removal from a steady space is whole and leaves it steady. -/
theorem Steady.removeAtom (hs : Steady cs s) (h : Handle) (recursive : Bool) :
    RemovesWhole s h recursive ∧ ∃ s' removed,
      s.removeAtom slots h recursive = some (s', some removed) ∧ Steady cs s' := by
  obtain ⟨table, res, he, ht, hx, hst⟩ := hs.standing.extract h recursive
  obtain ⟨t, hrem, hst'⟩ := hs.standing.remove h recursive
  have hbare : ∀ g ∈ res, table.handleMap g ≠ none ∧ table.incoming g = [] := fun g hg =>
    ⟨ht.record hg, ht.bare g hg⟩
  have hdel := removeExtractedHandles_eq ht.nodup hbare
  simp only [AtomTable.remove, he, Option.bind_eq_bind, Option.bind_some, hdel,
    Option.some.injEq] at hrem
  subst hrem
  have hfalls : ∀ g, g ∈ res ↔ s.atomTable.Falls h recursive g := fun g =>
    ht.mem_iff fun g hg => hs.standing.clean hg
  have hkey : ∀ g, g ∉ res → (table.without res).key g = s.atomTable.key g := by
    intro g hg
    rw [← hx.key]
    simp [key, without, hg]
  have htimed : WellTimed (table.without res) :=
    hs.timed.of_kept hs.standing.inv hst'.inv fun g hg => by
      obtain ⟨hm, hn⟩ := (hx.atomSet g).mp hg
      exact ⟨hm, hkey g hn⟩
  have hrest : ∀ g ∈ s.atomTable.atomSet, g ∉ res → g ∈ (table.without res).atomSet ∧
      (table.without res).key g = s.atomTable.key g ∧
      (table.without res).avOf g = s.atomTable.avOf g := by
    intro g hg hn
    refine ⟨(hx.atomSet g).mpr ⟨hg, hn⟩, hkey g hn, ?_⟩
    rw [← ht.avOf]
    simp [avOf, without, hn]
  have hgone : ∀ g ∈ res, Gone (table.without res) g := fun g hg =>
    gone_of_absent hst'.inv (by simp [without, hg])
  by_cases hnil : res = []
  · subst hnil
    have hwithout : table.without [] = table := by simp [without]
    rw [hwithout] at htimed hrest
    have hres : s.removeAtom slots h recursive = some ({ s with atomTable := table }, some false) := by
      simp [AtomSpace.removeAtom, he]
    refine ⟨⟨_, false, [], hres, ⟨List.nodup_nil, hfalls⟩, by simp, hrest, by simp, by simp⟩,
      _, false, hres, hst, htimed, ?_, hs.sound⟩
    exact hx.brkUuid.trans_le hs.handles
  · have hav : ∀ g ∈ res, table.avOf g ≠ none := by
      intro g hg
      obtain ⟨a, ha⟩ := Option.ne_none_iff_exists'.mp (ht.record hg)
      simp [avOf, ha]
    obtain ⟨servers, hr, hsound⟩ := removeExtractedHandles_timed res.reverse (s := { s with
        atomTable := table
        fundsSTI := s.fundsSTI + (res.map fun g =>
          ((table.avOf g).map AttentionValue.sti).getD 0).sum
        fundsLTI := s.fundsLTI + (res.map fun g =>
          ((table.avOf g).map AttentionValue.lti).getD 0).sum }) hdel hs.sound
      (List.nodup_reverse.mpr ht.nodup) (by
        rw [List.pairwise_reverse]
        refine ht.order.imp fun {g l} hm => ?_
        rwa [targetsOf_eq, ht.key, ← targetsOf_eq]) (by
        intro g hg hty
        rw [List.mem_reverse] at hg
        rw [typeOf_eq, hx.key, ← typeOf_eq] at hty
        obtain ⟨k, u, hu, hk⟩ := hs.times (hx.stored g hg) hty
        exact ⟨k, u, hu.congr (congrFun hx.key g) fun x _ => congrFun hx.key x, hk⟩)
    have hres : s.removeAtom slots h recursive = some ({ s with
        atomTable := table.without res, servers := servers
        fundsSTI := s.fundsSTI + (res.map fun g =>
          ((table.avOf g).map AttentionValue.sti).getD 0).sum
        fundsLTI := s.fundsLTI + (res.map fun g =>
          ((table.avOf g).map AttentionValue.lti).getD 0).sum }, some true) := by
      simp only [AtomSpace.removeAtom, he, Option.bind_eq_bind, Option.bind_some, if_neg hnil]
      rw [AtomSpace.refund_all (s := { s with atomTable := table }) hav, Option.bind_some, hr]
      rfl
    refine ⟨⟨_, true, res, hres, ⟨ht.nodup, hfalls⟩, hgone, hrest, ?_, ?_⟩, _, true, hres, hst',
      htimed, ?_, hsound⟩
    · rw [ht.avOf]
    · rw [ht.avOf]
    · exact hx.brkUuid.trans_le hs.handles

/-! ## What the other calls keep -/

/-- An addition keeps the space steady when a new AtTimeLink is in form: its slot returns. -/
theorem Steady.extends (hs : Steady cs s) {t : TypeCode} (he : Extends slots s s' t)
    (hst : Standing cs s'.atomTable) (hhandles : s'.atomTable.brkUuid ≤ UNDEFINED)
    (htime : t = AT_TIME_LINK → s'.atomTable.brkUuid ≠ s.atomTable.brkUuid →
      ∃ h u, Times s'.atomTable s.atomTable.brkUuid h u) : Steady cs s' := by
  cases he with
  | same hl hu hservers =>
    refine ⟨hst, fun l hst hty => ?_, hhandles, hservers ▸ hs.sound⟩
    rw [hu.stored] at hst
    rw [typeOf_eq, hu.key, ← typeOf_eq] at hty
    obtain ⟨h, u, ht⟩ := hs.timed l hst hty
    exact ⟨h, u, ht.congr (congrFun hu.key l) fun x _ => congrFun hu.key x⟩
  | new a hl htype hclean hg hservers =>
    have hlinked := hs.standing.linkage
    have hnew : t = AT_TIME_LINK → ∃ h u, Times s'.atomTable s.atomTable.brkUuid h u := fun e =>
      htime e (by rw [hg.brkUuid]; exact Nat.succ_ne_self _)
    obtain ⟨b, hb, hbt, -⟩ := exists_of_key hg.key_new
    obtain ⟨m, hm, hsound⟩ : ∃ m,
        atomAdded s'.atomTable s.servers s.atomTable.brkUuid = some m ∧ Sound m := by
      by_cases hat : t = AT_TIME_LINK
      · obtain ⟨h, u, hu⟩ := hnew hat
        obtain ⟨m, hm, hsound, -⟩ := hs.sound.add_returns h u
        exact ⟨m, by rw [atomAdded_timed hu, hm], hsound⟩
      · exact ⟨s.servers, atomAdded_other hb (hbt ▸ htype ▸ hat), hs.sound⟩
    have hserver : s'.servers = m := by
      rw [hservers]
      simp only [slots, hm]
    refine ⟨hst, fun l hstored hty => ?_, hhandles, hserver ▸ hsound⟩
    rcases (hg.stored_iff l).mp hstored with hstored | rfl
    · rw [typeOf_eq, hg.key_stored hlinked hstored, ← typeOf_eq] at hty
      obtain ⟨h, u, hu⟩ := hs.timed l hstored hty
      exact ⟨h, u, (times_of_grown hg hlinked hstored h u).mpr hu⟩
    · rw [hg.typeOf_new] at hty
      exact hnew (htype ▸ Option.some.inj hty)

theorem Steady.setAV (hs : Steady cs s) {h : Handle} (hm : h ∈ s.atomTable.atomSet)
    {av : AttentionValue} (he : s.setAV h av = some s') : Steady cs s' := by
  have hst := AtomSpace.standing_setAV hs.standing hm av he
  obtain ⟨old, -, he⟩ := Option.bind_eq_some_iff.mp he
  obtain rfl := Option.some.inj he
  have hthin := thinned_setAttentionValue s.atomTable h av
  refine ⟨hst, ?_, hthin.brkUuid.trans_le hs.handles, hs.sound⟩
  refine hs.timed.of_kept hs.standing.inv hst.inv fun g hg => ⟨?_, congrFun hthin.key g⟩
  rwa [atomSet_setAttentionValue] at hg

theorem Steady.removeAll (hs : List Handle) (hst : Steady cs s) :
    ∃ s' returned, AtomSpace.removeAll slots hs s = some (s', returned) ∧ Steady cs s' := by
  induction hs generalizing s with
  | nil => exact ⟨s, true, rfl, hst⟩
  | cons h hs ih =>
    obtain ⟨-, s₁, removed, he, hst₁⟩ := hst.removeAtom h true
    simp only [AtomSpace.removeAll, he, Option.bind_eq_bind, Option.bind_some, Option.isSome_some,
      if_true]
    exact ih hst₁

/-- The sweep returns: it deletes AtTimeLinks before their TimeNodes. -/
theorem Steady.decay (hs : Steady cs s) (minSTI : Int) :
    ∃ s', s.decayShortTermImportance slots minSTI = some (s', true) ∧ Steady cs s' := by
  obtain ⟨table, old, he, hst, hd⟩ := hs.standing.decay minSTI
  have hstored : ∀ g ∈ old, g ∈ s.atomTable.atomSet := fun g hg => ((hd.doomed g).mp hg).1
  have htimed : WellTimed table := hs.timed.of_kept hs.standing.inv hst.inv fun g hg => by
    obtain ⟨hm, hn⟩ := (hd.atomSet g).mp hg
    exact ⟨hm, hd.key g hn⟩
  have hhandles : table.brkUuid ≤ UNDEFINED := hd.brkUuid.trans_le hs.handles
  obtain ⟨t₁, hscan⟩ := hd.scanned
  obtain ⟨⟨t, old'⟩, hscan', he⟩ := Option.bind_eq_some_iff.mp he
  obtain ⟨rfl, rfl⟩ := Prod.mk.inj (Option.some.inj (hscan'.symm.trans hscan))
  have hflag := flagging_scanOld minSTI hscan
  have hthin := (thinned_decayBins s.atomTable).trans hflag.thinned
  simp only [AtomSpace.decayShortTermImportance, hscan, Option.bind_eq_bind, Option.bind_some]
  dsimp only at he
  split at he
  · next hnil =>
    obtain rfl := Option.some.inj he
    rw [if_pos hnil]
    exact ⟨_, rfl, hst, htimed, hhandles, hs.sound⟩
  · next hne =>
    obtain ⟨t₂, hforget, he⟩ := Option.bind_eq_some_iff.mp he
    obtain ⟨hthin₂, -⟩ := thinned_forgetAll (fun g hg => (hflag.flagged g hg).1) hforget
    have hkey : t₂.key = s.atomTable.key := hthin₂.key.trans hthin.key
    rw [if_neg hne, hforget, Option.bind_some]
    obtain ⟨servers, hr, hsound⟩ := removeExtractedHandles_timed old'.reverse
      (s := { s with atomTable := t₂ }) he hs.sound (List.nodup_reverse.mpr hd.nodup) (by
        rw [List.pairwise_reverse]
        refine hd.order.imp_of_mem fun {l g} hl hg hn hm => hn ?_
        rw [targetsOf_eq, hkey, ← targetsOf_eq] at hm
        have hrec := hs.standing.inv.record (hstored g hg)
        exact (hs.standing.linkage.mem_incoming hrec l).mpr
          ⟨hs.standing.inv.isStored_iff.mpr (hstored l hl), hm⟩) (by
        intro g hg hty
        rw [List.mem_reverse] at hg
        rw [typeOf_eq, hkey, ← typeOf_eq] at hty
        obtain ⟨k, u, hu, hk⟩ := hs.times (hstored g hg) hty
        exact ⟨k, u, hu.congr (congrFun hkey g) fun x _ => congrFun hkey x, hk⟩)
    exact ⟨_, hr, hst, htimed, hhandles, hsound⟩

theorem brkUuid_le_of_extends {t : TypeCode} (he : Extends slots s s' t) :
    s'.atomTable.brkUuid ≤ s.atomTable.brkUuid + 1 := by
  cases he with
  | same _ hu _ => exact hu.brkUuid.trans_le (Nat.le_succ _)
  | new _ _ _ _ hg _ => exact hg.brkUuid.le

end Steady

/-! ## Runs -/

section Runs
variable (cs : ClassServer) (ops : TruthOps TV)

/-- An AtTimeLink that is added names a TimeNode with a name that can be read, and then one
atom; it is no node. -/
def Timed (s : AtomTable TV) : AttentionOp TV → Prop
  | .call (.addNode t _ _) => t = AT_TIME_LINK → cs.isA t NODE = false
  | .call (.addLink t outgoing _) => t = AT_TIME_LINK → ∃ n h name time,
      Atom.setOutgoingSet cs t outgoing = [n, h] ∧ s.key n = some (TIME_NODE, .node name) ∧
        Temporal.getFromTimeNodeName (cStr name).toList = some time
  | _ => True

/-- Orderly calls with AtTimeLinks in form, as long as there are handles to give. -/
inductive Timely (start : AtomSpace TV TemporalTable) : AtomSpace TV TemporalTable → Prop
  | start : Timely start start
  | step {s s' : AtomSpace TV TemporalTable} (op : AttentionOp TV) (r : Timely start s)
      (ho : AtomSpace.Orderly s op) (ht : Timed cs s.atomTable op)
      (hbrk : s.atomTable.brkUuid < UNDEFINED) (e : s.attend cs ops slots op = some s') :
      Timely start s'

variable {cs ops} {s s' : AtomSpace TV TemporalTable}

theorem atomTable_addAtom (s : AtomSpace TV TemporalTable) (a : Atom TV) :
    (s.payDefault.addAtom ops slots (some a)).1.atomTable = (s.atomTable.add ops a true).1 := by
  simp only [AtomSpace.addAtom]
  split
  · rfl
  · rfl

/-- A new AtTimeLink in form is well timed where it is stored. -/
theorem times_addLink (hs : Steady cs s) {t : TypeCode} {outgoing : List Handle} {tv : TV}
    (ht : Timed cs s.atomTable (.call (.addLink t outgoing tv))) (hat : t = AT_TIME_LINK)
    (hgrown : (s.addLink cs ops slots t outgoing tv).1.atomTable.brkUuid ≠ s.atomTable.brkUuid) :
    ∃ h u, Times (s.addLink cs ops slots t outgoing tv).1.atomTable s.atomTable.brkUuid h u := by
  obtain ⟨n, h, name, time, hout, hn, hp⟩ := ht hat
  have hlinked := hs.standing.linkage
  have hkey : ∀ g, (s.addLink cs ops slots t outgoing tv).1.atomTable.key g =
      if g = s.atomTable.brkUuid then some (t, .link [n, h]) else s.atomTable.key g := by
    intro g
    revert hgrown
    unfold AtomSpace.addLink
    split
    · intro hgrown
      exact absurd (hlinked.merge ops _ tv).2.brkUuid hgrown
    · unfold Atom.newLink
      split
      · rw [atomTable_addAtom, hout]
        intro hgrown
        obtain ⟨-, hcases⟩ := hlinked.add ops (a := Atom.init ops t (.link [n, h]) tv) rfl
        rcases hcases with ⟨-, -, -, hu⟩ | ⟨-, hu⟩ | ⟨-, -, -, hg⟩
        · exact absurd hu.brkUuid hgrown
        · exact absurd hu.brkUuid hgrown
        · exact hg.key g
      · intro hgrown
        exact absurd rfl hgrown
  have hlt : n ≠ s.atomTable.brkUuid := by
    rintro rfl
    obtain ⟨a, ha, -⟩ := exists_of_key hn
    rw [hlinked.fresh _ le_rfl] at ha
    cases ha
  refine ⟨h, time, n, name, ?_, ?_, hp⟩
  · rw [hkey, if_pos rfl, hat]
  · rw [hkey, if_neg hlt, hn]

theorem Steady.attend (hs : Steady cs s) {op : AttentionOp TV} (ho : AtomSpace.Orderly s op)
    (ht : Timed cs s.atomTable op) (hbrk : s.atomTable.brkUuid < UNDEFINED)
    (he : s.attend cs ops slots op = some s') : Steady cs s' := by
  have hadd : ∀ {t : TypeCode} {s₁ : AtomSpace TV TemporalTable}, Extends slots s s₁ t →
      s₁.atomTable.brkUuid ≤ UNDEFINED := fun hext => (brkUuid_le_of_extends hext).trans hbrk
  cases op with
  | decay minSTI =>
    obtain ⟨s₁, hd, hs₁⟩ := hs.decay minSTI
    simp only [AtomSpace.attend, hd, Option.map_some, Option.some.injEq] at he
    exact he ▸ hs₁
  | call op =>
    cases op with
    | addNode t name tv =>
      obtain rfl := Option.some.inj he
      have hext := addNode_extends cs ops slots hs.standing.linkage t name tv
      refine hs.extends hext (AtomSpace.standing_addNode hs.standing t tv ho) (hadd hext) ?_
      intro hat hgrown
      refine absurd ?_ hgrown
      unfold AtomSpace.addNode
      split
      · exact (hs.standing.linkage.merge ops _ tv).2.brkUuid
      · simp only [Atom.newNode, ht hat, Bool.false_eq_true, if_false]
        rfl
    | addLink t outgoing tv =>
      obtain rfl := Option.some.inj he
      have hext := addLink_extends cs ops slots hs.standing.linkage t outgoing tv
      exact hs.extends hext (AtomSpace.standing_addLink hs.standing t tv ho.1 ho.2) (hadd hext)
        (times_addLink hs ht)
    | setAV h av => exact hs.setAV ho he
    | setSTI h v =>
      obtain ⟨av, -, he⟩ := Option.bind_eq_some_iff.mp he
      exact hs.setAV ho he
    | setLTI h v =>
      obtain ⟨av, -, he⟩ := Option.bind_eq_some_iff.mp he
      exact hs.setAV ho he
    | setVLTI h v =>
      obtain ⟨av, -, he⟩ := Option.bind_eq_some_iff.mp he
      exact hs.setAV ho he
    | removeAtom h recursive =>
      obtain ⟨-, s₁, removed, hr, hs₁⟩ := hs.removeAtom h recursive
      simp only [AtomSpace.attend, AtomSpace.apply, hr, Option.map_some, Option.some.injEq] at he
      exact he ▸ hs₁
    | clear =>
      obtain ⟨s₁, returned, hr, hs₁⟩ :=
        hs.removeAll (AtomTable.getHandleSet cs s.atomTable ATOM true)
      simp only [AtomSpace.attend, AtomSpace.apply, AtomSpace.clear, hr, Option.bind_eq_bind,
        Option.bind_some, Option.map_some, Option.some.injEq] at he
      exact he ▸ hs₁

theorem Timely.steady {start : AtomSpace TV TemporalTable} (hs : Steady cs start)
    (r : Timely cs ops start s) : Steady cs s := by
  induction r with
  | start => exact hs
  | step op _ ho ht hbrk e ih => exact ih.attend ho ht hbrk e

/-- Along every run in which each AtTimeLink that is added is in form, the removals that take
one are whole. -/
theorem removable_along_runs (fundsSTI fundsLTI : Int)
    (r : Timely cs ops (AtomSpace.opened TemporalTable.empty fundsSTI fundsLTI) s) :
    Removable s :=
  fun _ _ _ h recursive _ =>
    ((r.steady (steady_opened cs fundsSTI fundsLTI)).removeAtom h recursive).1

end Runs

/-- A concept at the time 5. -/
def atFive : Space :=
  withAtTimeLink (withNode (withNode (AtomSpace.opened .empty 0 0) CONCEPT_NODE "c") TIME_NODE "5")
    2 1

theorem timely_atFive : Timely .script anOps (AtomSpace.opened .empty 0 0) atFive := by
  have r₁ : Timely .script anOps (AtomSpace.opened .empty 0 0)
      (withNode (AtomSpace.opened .empty 0 0) CONCEPT_NODE "c") :=
    .step (.call (.addNode CONCEPT_NODE "c" ())) .start (by decide : NoNul "c")
      (fun e => absurd e (by decide)) (by decide +kernel) rfl
  have r₂ : Timely .script anOps (AtomSpace.opened .empty 0 0)
      (withNode (withNode (AtomSpace.opened .empty 0 0) CONCEPT_NODE "c") TIME_NODE "5") :=
    r₁.step (.call (.addNode TIME_NODE "5" ())) (by decide : NoNul "5")
      (fun e => absurd e (by decide)) (by decide +kernel) rfl
  refine r₂.step (.call (.addLink AT_TIME_LINK [2, 1] ())) ⟨by decide, by decide +kernel⟩ ?_
    (by decide +kernel) rfl
  have hordered : ClassServer.script.isA AT_TIME_LINK UNORDERED_LINK = false := by decide +kernel
  have hsame : Atom.setOutgoingSet .script AT_TIME_LINK [2, 1] = [2, 1] := by
    simp [Atom.setOutgoingSet, hordered]
  exact fun _ => ⟨2, 1, "5", five, hsame, by decide +kernel, by decide +kernel⟩

theorem removable_atFive : Removable atFive :=
  removable_along_runs 0 0 timely_atFive

/-- An AtTimeLink without a timed atom. -/
def malformed : Space :=
  ((withNode (AtomSpace.opened .empty 0 0) TIME_NODE "5").addLink .script anOps slots AT_TIME_LINK
    [1] ()).1

/-- Added with a warning, it cannot be removed: the slot throws when the indices have dropped it,
and its record stays. -/
theorem malformed_half_removed :
    ¬ ∀ s : Space, AtomSpace.Ran .script anOps slots (AtomSpace.opened .empty 0 0) s →
      Removable s := by
  intro hall
  have r : AtomSpace.Ran .script anOps slots (AtomSpace.opened .empty 0 0) malformed :=
    .step (.call (.addLink AT_TIME_LINK [1] ()))
      (.step (.call (.addNode TIME_NODE "5" ())) .start rfl) rfl
  have hst : malformed.atomTable.isStored 2 = true := by decide +kernel
  have hty : malformed.atomTable.typeOf 2 = some AT_TIME_LINK := by decide +kernel
  have hin : malformed.atomTable.incoming 2 = [] := by decide +kernel
  obtain ⟨s', removed, res, he, -⟩ := hall malformed r 2 hst hty 2 false ⟨hst, by simp [hin]⟩
  have hthrows : (malformed.removeAtom slots 2 false).map Prod.snd = some none := by decide +kernel
  rw [he] at hthrows
  cases hthrows

end TimeServer

end OpenCog
