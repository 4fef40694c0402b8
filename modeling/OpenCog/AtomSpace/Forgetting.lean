import OpenCog.AtomSpace.Removal

/-! What the decay sweep forgets. Every stored atom loses one point of importance, the atoms
with nothing but old links over them go, and each deleted link goes before its members. -/
namespace OpenCog

variable {TV : Type}

theorem AttentionValue.decaySTI_sti (av : AttentionValue) :
    av.decaySTI.sti = max (-32768) (av.sti - 1) := by
  have := av.sti_ge
  unfold AttentionValue.decaySTI
  split
  · next h => simp [h]
  · next h =>
    simp only
    omega

namespace AtomTable
open Index

/-! ## The sweep -/

/-- What a decay of the table is to do; `old` is the list the importance index returns. -/
structure Forgets (minSTI : Int) (s s' : AtomTable TV) (old : List Handle) : Prop where
  returned : ∃ s₁, scanOld minSTI s.decayBins = some (s₁, old)
  swept : s.decayShortTermImportance minSTI = some s'
  decayed : ∀ h ∈ s.atomSet, ∃ av av', s.avOf h = some av ∧ s.decayBins.avOf h = some av' ∧
    av'.sti = max (-32768) (av.sti - 1) ∧ av'.lti = av.lti ∧ av'.vlti = av.vlti
  nodup : old.Nodup
  doomed : ∀ h, h ∈ old ↔
    h ∈ s.atomSet ∧ ∀ l, s.Over h l → s.decayBins.isOldAt minSTI l = true
  order : old.Pairwise fun g l => l ∉ s.outgoing g
  gone : ∀ h ∈ old, h ∉ s'.atomSet ∧ s'.handleMap h = none
  kept : ∀ h ∈ s.atomSet, h ∉ old → h ∈ s'.atomSet ∧ s'.avOf h = s.decayBins.avOf h

theorem Inv.forgets {cs : ClassServer} {s : AtomTable TV} (hs : Inv cs s) (hp : Pending s)
    (minSTI : Int) : ∃ s' old, Forgets minSTI s s' old := by
  obtain ⟨s', old, he, -, -, hd⟩ := decayShortTermImportance_spec hs hp minSTI
  have hincoming : s.decayBins.incoming = s.incoming := (decayBins_spec hs).2.1.incoming
  refine ⟨s', old, hd.scanned, he, fun h hm => ?_, hd.nodup, fun h => ?_, ?_, fun h hh => ?_,
    fun h hm hn => ?_⟩
  · obtain ⟨a, ha⟩ := Option.ne_none_iff_exists'.mp (hs.record hm)
    have hav : s.avOf h = some a.attentionValue := by simp [avOf, ha]
    refine ⟨_, _, hav, by rw [hd.avOf h hm, hav]; rfl, a.attentionValue.decaySTI_sti, ?_⟩
    unfold AttentionValue.decaySTI
    split
    · exact ⟨rfl, rfl⟩
    · exact ⟨rfl, rfl⟩
  · rw [hd.doomed]
    simp only [Doomed, Over, hincoming]
  · refine hd.order.imp_of_mem fun {g l} hg hl hn hmem => hn ?_
    rw [hs.mem_incoming ((hd.doomed l).mp hl).1]
    exact ⟨((hd.doomed g).mp hg).1, hmem⟩
  · exact ⟨fun hm => ((hd.atomSet h).mp hm).2 hh, hd.gone h hh⟩
  · exact ⟨(hd.atomSet h).mpr ⟨hm, hn⟩, hd.kept h hn⟩

/-- Along every careful run the sweep decays each stored atom once and forgets exactly the
atoms with only old ones over them. -/
theorem forgets_along_runs (cs : ClassServer) (ops : TruthOps TV) (s : AtomTable TV)
    (r : Reachable cs ops (Careful cs) s) (minSTI : Int) : ∃ s' old, Forgets minSTI s s' old :=
  r.standing.inv.forgets r.standing.pending minSTI

theorem forgets_of_two_atoms :
    Reachable ClassServer.script unitOps (Careful ClassServer.script) (oneNode.withList [1, 1]) ∧
      ∃ s' old, Forgets 0 (oneNode.withList [1, 1]) s' old := by
  have r : Reachable ClassServer.script unitOps (Careful ClassServer.script)
      (oneNode.withList [1, 1]) :=
    .step (.addLink LIST_LINK [1, 1] ())
      (.step (.addNode CONCEPT_NODE "n" ()) .empty ⟨⟨by decide +kernel, by decide⟩, trivial, trivial⟩
        apply_oneNode)
      ⟨⟨by decide +kernel, by decide⟩, by simp [ShortLink], trivial⟩ rfl
  exact ⟨r, forgets_along_runs _ _ _ r 0⟩

/-! ## A link whose arity wraps to zero -/

/-- A wrapped link nothing equals enters the table as it would without members. -/
theorem withList_stored {s : AtomTable Unit} {o : List Handle}
    (hidx : s.linkIndex LIST_LINK o = none) (hvalid : ∀ x ∈ o, s.isValidHandle x = true)
    (ho : o.length % 65536 = 0)
    (hequal : s.holdsEqual (.init unitOps LIST_LINK (.link o) ()) = false) :
    s.withList o = s.stored (.init unitOps LIST_LINK (.link o) ()) := by
  obtain ⟨hget, hall⟩ := getHandle_list hidx hvalid
  have htargets : (Atom.init unitOps LIST_LINK (.link o) ()).body.targets = [] :=
    (targets_of_wrap ho).2
  have hequal' : holdsEqual { s with size := s.size + 1 }
      (.init unitOps LIST_LINK (.link o) ()) = false := hequal
  simp only [withList, add, hget, hall, if_true, htargets, List.foldl_nil, insertAtom, hequal',
    Bool.false_eq_true, if_false]
  rfl

section Bare
variable {minSTI : Int} {fuel : Nat} {x : Handle}

/-- A flagged atom is passed over. -/
theorem scan_flagged {s : AtomTable TV} {a : Atom TV} (ha : s.handleMap x = some a)
    (hflag : a.removedByDecay = true) (xs : List Handle) (hxs : ∀ g ∈ xs, g = x)
    (res : List Handle) :
    xs.foldlM (fun (acc : AtomTable TV × List Handle) h => do
      let a ← acc.1.handleMap h
      if a.isOld minSTI then
        let (s, extracted) ← extractOld minSTI (fuel + 1) acc.1 h
        some (s, extracted ++ acc.2)
      else some acc) (s, res) = some (s, res) := by
  induction xs with
  | nil => rfl
  | cons g xs ih =>
    obtain rfl := hxs g List.mem_cons_self
    have hstep : extractOld minSTI (fuel + 1) s g = some (s, []) := by
      simp [extractOld, ha, hflag]
    rw [List.foldlM_cons]
    simp only [ha, Option.bind_eq_bind, Option.bind_some, hstep, List.nil_append, ite_self]
    exact ih fun k hk => hxs k (List.mem_cons_of_mem g hk)

/-- An old atom nothing refers to is taken at its first visit. -/
theorem scan_bare {s : AtomTable TV} {a : Atom TV} (ha : s.handleMap x = some a)
    (hin : a.incoming = []) (hold : a.isOld minSTI = true) (hflag : a.removedByDecay = false)
    (xs : List Handle) (hxs : ∀ g ∈ xs, g = x) (hne : x ∈ xs) (res : List Handle) :
    xs.foldlM (fun (acc : AtomTable TV × List Handle) h => do
      let a ← acc.1.handleMap h
      if a.isOld minSTI then
        let (s, extracted) ← extractOld minSTI (fuel + 1) acc.1 h
        some (s, extracted ++ acc.2)
      else some acc) (s, res) = some (s.setDecayed x true, x :: res) := by
  cases xs with
  | nil => cases hne
  | cons g xs =>
    obtain rfl := hxs g List.mem_cons_self
    have hstep : extractOld minSTI (fuel + 1) s g = some (s.setDecayed g true, [g]) := by
      simp [extractOld, ha, hflag, hin, setDecayed]
    rw [List.foldlM_cons]
    simp only [ha, Option.bind_eq_bind, Option.bind_some, hold, if_true, hstep, List.singleton_append]
    have hset : (s.setDecayed g true).handleMap g = some { a with removedByDecay := true } := by
      simp [setDecayed, AtomTable.modify, ha]
    exact scan_flagged hset rfl xs (fun k hk => hxs k (List.mem_cons_of_mem g hk)) _

end Bare

/-- Two bare atoms in different bins: the one with less importance is taken first. -/
theorem scan_two_bins {s : AtomTable TV} (hs : Binned s) {minSTI : Int} {g h : Handle}
    {a b : Atom TV} (hatoms : ∀ x, x ∈ s.atomSet ↔ x = g ∨ x = h) (ha : s.handleMap g = some a)
    (hb : s.handleMap h = some b) (hna : a.incoming = []) (hnb : b.incoming = [])
    (hfa : a.removedByDecay = false) (hfb : b.removedByDecay = false)
    (hoa : a.isOld minSTI = true) (hob : b.isOld minSTI = true)
    (hlt : importanceBin a.attentionValue.sti < importanceBin b.attentionValue.sti) :
    ∃ s', scanOld minSTI s = some (s', [h, g]) := by
  have hne : h ≠ g := by
    rintro rfl
    rw [ha, Option.some.injEq] at hb
    rw [hb] at hlt
    exact lt_irrefl _ hlt
  have hbin : ∀ i x, x ∈ s.importanceIndex i ↔
      x = g ∧ importanceBin a.attentionValue.sti = i ∨
        x = h ∧ importanceBin b.attentionValue.sti = i := by
    intro i x
    rw [hs, hatoms]
    constructor
    · rintro ⟨rfl | rfl, av, hav, hi⟩
      · simp only [avOf, ha, Option.map_some, Option.some.injEq] at hav
        exact .inl ⟨rfl, hav ▸ hi⟩
      · simp only [avOf, hb, Option.map_some, Option.some.injEq] at hav
        exact .inr ⟨rfl, hav ▸ hi⟩
    · rintro (⟨rfl, hi⟩ | ⟨rfl, hi⟩)
      · exact ⟨.inl rfl, _, by simp [avOf, ha], hi⟩
      · exact ⟨.inr rfl, _, by simp [avOf, hb], hi⟩
  have hlow : importanceBin b.attentionValue.sti < importanceBin minSTI + 1 := by
    have := hob
    simp only [Atom.isOld, Bool.and_eq_true, decide_eq_true_eq] at this
    unfold importanceBin
    omega
  -- the bins up to that of `g`, and the bins after it
  obtain ⟨k, hk⟩ : ∃ k, importanceBin minSTI + 1 = (importanceBin a.attentionValue.sti + 1) + k :=
    ⟨importanceBin minSTI - importanceBin a.attentionValue.sti, by omega⟩
  have hfirst : ∀ x, x ∈ (List.range (importanceBin a.attentionValue.sti + 1)).flatMap
      s.importanceIndex ↔ x = g := by
    intro x
    simp only [List.mem_flatMap, List.mem_range, hbin]
    constructor
    · rintro ⟨i, hi, ⟨rfl, -⟩ | ⟨-, rfl⟩⟩
      · rfl
      · omega
    · rintro rfl
      exact ⟨_, Nat.lt_succ_self _, .inl ⟨rfl, rfl⟩⟩
  have hsecond : ∀ x, x ∈ ((List.range k).map (importanceBin a.attentionValue.sti + 1 + ·)).flatMap
      s.importanceIndex ↔ x = h := by
    intro x
    simp only [List.mem_flatMap, List.mem_map, List.mem_range, hbin]
    constructor
    · rintro ⟨i, ⟨j, -, rfl⟩, ⟨-, hi⟩ | ⟨rfl, -⟩⟩
      · omega
      · rfl
    · rintro rfl
      exact ⟨_, ⟨importanceBin b.attentionValue.sti - (importanceBin a.attentionValue.sti + 1),
        by omega, by omega⟩, .inr ⟨rfl, rfl⟩⟩
  refine ⟨(s.setDecayed g true).setDecayed h true, ?_⟩
  unfold scanOld
  rw [hk, List.range_add, List.flatMap_append, List.foldlM_append]
  have hb' : (s.setDecayed g true).handleMap h = some b := by
    simp [setDecayed, AtomTable.modify, hne, hb]
  exact Option.bind_eq_some_iff.mpr
    ⟨_, scan_bare ha hna hoa hfa _ (fun x => (hfirst x).mp) ((hfirst g).mpr rfl) [],
      scan_bare hb' hnb hob hfb _ (fun x => (hsecond x).mp) ((hsecond h).mpr rfl) [g]⟩

/-- A node of little importance is taken before the link of 65536 members that names it. -/
theorem member_before_link_after_wrap :
    ¬ ∀ s : AtomTable Unit, Reachable ClassServer.script unitOps (Allowed ClassServer.script) s →
      ∀ minSTI, ∃ s' old, Forgets minSTI s s' old := by
  intro hall
  obtain ⟨o, hlen, hmem⟩ := long_members 1
  have ho : o.length % 65536 = 0 := by rw [hlen]
  have hidx : oneNode.linkIndex LIST_LINK o = none := rfl
  have hvalid : ∀ x ∈ o, oneNode.isValidHandle x = true := fun x hx => hmem x hx ▸ rfl
  have hequal : oneNode.holdsEqual (.init unitOps LIST_LINK (.link o) ()) = false := rfl
  set t := oneNode.stored (.init unitOps LIST_LINK (.link o) ()) with ht
  let low : AttentionValue := { sti := -5, lti := 0, vlti := 0 }
  have r₂ : Reachable ClassServer.script unitOps (Allowed ClassServer.script) t := by
    rw [ht, ← withList_stored hidx hvalid ho hequal]
    exact .step (.addLink LIST_LINK o ())
      (.step (.addNode CONCEPT_NODE "n" ()) .empty ⟨by decide +kernel, by decide⟩ apply_oneNode)
      ⟨by decide +kernel, fun x hx => by rw [hmem x hx]; decide⟩ (apply_addLink hidx hvalid)
  have r₃ : Reachable ClassServer.script unitOps (Allowed ClassServer.script)
      (t.setAttentionValue 1 low) :=
    .step (.setAttentionValue 1 low) r₂ (Option.some_ne_none _) rfl
  set s := t.setAttentionValue 1 low with hs
  have hatoms : s.atomSet = [2, 1] := rfl
  have hidx' : s.importanceIndex = insertAt (removeAt (insertAt (insertAt (fun _ => []) 1 32768) 2
      32768) 1 32768) 1 32763 := rfl
  have hav₁ : s.avOf 1 = some low := rfl
  have hav₂ : s.avOf 2 = some .default := rfl
  have hb : Binned s := by
    intro i h
    rw [hidx', hatoms]
    simp only [mem_insertAt, mem_removeAt, List.not_mem_nil, false_or]
    by_cases e₁ : h = 1
    · subst e₁
      rw [hav₁]
      have hbin : importanceBin low.sti = 32763 := rfl
      simp [hbin, eq_comm]
    · by_cases e₂ : h = 2
      · subst e₂
        rw [hav₂]
        have hbin : importanceBin AttentionValue.default.sti = 32768 := rfl
        simp [hbin, eq_comm]
      · simp [e₁, e₂]
  have hlive : ∀ g ∈ s.atomSet, s.handleMap g ≠ none := by
    intro g hg
    rw [hatoms] at hg
    rcases List.mem_pair.mp hg with rfl | rfl
    · exact Option.some_ne_none _
    · exact Option.some_ne_none _
  obtain ⟨hbd, same, hdav⟩ := decayBins_binned hb hlive
  have hrec : ∀ g ∈ s.atomSet, ∃ a, s.decayBins.handleMap g = some a ∧
      a.incoming = s.incoming g ∧ a.removedByDecay = s.decayedFlag g ∧
      (s.avOf g).map AttentionValue.decaySTI = some a.attentionValue := by
    intro g hg
    obtain ⟨a, ha⟩ := Option.ne_none_iff_exists'.mp (mt (same.absent g).mp (hlive g hg))
    refine ⟨a, ha, ?_, ?_, ?_⟩
    · rw [← same.incoming, incoming_of_some ha]
    · rw [← same.decayedFlag]
      simp [decayedFlag, ha]
    · rw [← hdav g hg]
      simp [avOf, ha]
  obtain ⟨a, ha, hina, hfa, hava⟩ := hrec 1 (by rw [hatoms]; decide)
  obtain ⟨b, hb', hinb, hfb, havb⟩ := hrec 2 (by rw [hatoms]; decide)
  rw [hav₁, Option.map_some, Option.some.injEq] at hava
  rw [hav₂, Option.map_some, Option.some.injEq] at havb
  obtain ⟨s₁, hscan⟩ : ∃ s₁, scanOld 0 s.decayBins = some (s₁, [2, 1]) :=
    scan_two_bins hbd (fun x => by rw [same.atomSet, hatoms, List.mem_pair, or_comm]) ha hb' hina hinb
      hfa hfb (by rw [Atom.isOld, ← hava]; rfl) (by rw [Atom.isOld, ← havb]; rfl)
      (by rw [← hava, ← havb]; decide)
  obtain ⟨s', old, hf⟩ := hall s r₃ 0
  obtain ⟨s₂, hscan'⟩ := hf.returned
  rw [hscan, Option.some.injEq, Prod.mk.injEq] at hscan'
  have horder := hf.order
  rw [← hscan'.2, List.pairwise_pair] at horder
  refine horder ?_
  change 1 ∈ o
  obtain ⟨x, hx⟩ := List.exists_mem_of_length_pos (by rw [hlen]; decide : 0 < o.length)
  exact hmem x hx ▸ hx

end AtomTable

end OpenCog
