import OpenCog.AtomSpace.Linkage
import OpenCog.AtomSpace.TableRuns

/-! Which atoms an extraction takes, and in which order they are deleted: over the links
above a stored atom, every link behind its members. -/
namespace OpenCog

variable {TV : Type}

namespace AtomTable

/-! ## Tables between calls -/

/-- Between calls no stored atom is marked. -/
def Unmarked (s : AtomTable TV) : Prop := ∀ h ∈ s.atomSet, s.marked h = false

section Linkage
variable {cs : ClassServer} {s : AtomTable TV}

theorem Inv.isStored_iff (hs : Inv cs s) {h : Handle} : s.isStored h = true ↔ h ∈ s.atomSet := by
  constructor
  · intro hst
    obtain ⟨a, -, ht⟩ := exists_of_isStored hst
    obtain ⟨b, hb⟩ := hs.types.mp ht
    exact hb.1
  · intro hm
    obtain ⟨t, b, hb⟩ := hs.has_of_mem hm
    obtain ⟨a, ha, rfl, rfl⟩ := exists_of_key hb.2
    simp [isStored, ha, hs.types.mpr ⟨_, hb⟩]

theorem Inv.targetsOf_eq_outgoing (hs : Inv cs s) {h : Handle} (hm : h ∈ s.atomSet) :
    s.targetsOf h = s.outgoing h := by
  obtain ⟨t, b, hb⟩ := hs.has_of_mem hm
  rw [targetsOf_eq, outgoing_eq, hb.2]
  exact Body.targets_of_lt (hs.typed hb).length_lt

theorem Inv.linkage (hs : Inv cs s) (hp : Pending s) : Linked s where
  fresh := hs.fresh
  unmarked h hsome hm := by
    rw [hs.isStored_iff]
    by_contra hn
    rw [(hp h hn hsome).1] at hm
    cases hm
  below l hl x hx := by
    have hm := hs.isStored_iff.mp hl
    obtain ⟨t, b, hb⟩ := hs.has_of_mem hm
    rw [hs.targetsOf_eq_outgoing hm, outgoing_of_key hb.2] at hx
    obtain ⟨hxm, hlt⟩ := hs.members hb x hx
    exact ⟨hlt, hs.record hxm⟩
  dual x hx l := by
    have hcount : (if s.isStored l then (s.targetsOf l).count x else 0) =
        if l ∈ s.atomSet then (s.outgoing l).count x else 0 := by
      by_cases hm : l ∈ s.atomSet
      · rw [if_pos (hs.isStored_iff.mpr hm), if_pos hm, hs.targetsOf_eq_outgoing hm]
      · rw [if_neg (mt hs.isStored_iff.mp hm), if_neg hm]
    rw [hcount]
    by_cases hxm : x ∈ s.atomSet
    · exact hs.dual x hxm l
    · rw [(hp x hxm hx).2, List.count_nil]
      split
      · next hm =>
        obtain ⟨t, b, hb⟩ := hs.has_of_mem hm
        rw [outgoing_of_key hb.2]
        exact (List.count_eq_zero_of_not_mem fun hin => hxm (hs.members hb x hin).1).symm
      · rfl

theorem Linked.over_iff (hs : Linked s) {h l : Handle} : s.Over h l ↔ s.Above h l := by
  have hedge : (fun x l => l ∈ s.incoming x) =
      fun x l => s.isStored l = true ∧ x ∈ s.targetsOf l := by
    funext x l
    rw [eq_iff_iff]
    by_cases hx : s.handleMap x = none
    · have hin : s.incoming x = [] := by simp [incoming, hx]
      rw [hin]
      exact ⟨fun h => absurd h List.not_mem_nil, fun h => absurd hx (hs.below l h.1 x h.2).2⟩
    · exact hs.mem_incoming hx l
  unfold Over Above
  rw [hedge]

end Linkage

/-! ## What every state of a careful run keeps -/

structure Standing (cs : ClassServer) (s : AtomTable TV) : Prop where
  inv : Inv cs s
  pending : Pending s
  unmarked : Unmarked s

theorem standing_empty (cs : ClassServer) : Standing cs (empty : AtomTable TV) :=
  ⟨inv_empty cs, fun _ _ h => absurd rfl h, fun _ h => absurd h List.not_mem_nil⟩

section Standing
variable {cs : ClassServer} {s : AtomTable TV}

theorem Standing.linkage (hs : Standing cs s) : Linked s := hs.inv.linkage hs.pending

theorem Standing.clean (hs : Standing cs s) {h : Handle} (hst : s.isStored h = true) :
    s.marked h = false :=
  hs.unmarked h (hs.inv.isStored_iff.mp hst)

theorem Standing.merge (ops : TruthOps TV) (hs : Standing cs s) (h : Handle) (tv : TV) :
    Standing cs (s.merge ops h tv) := by
  refine ⟨hs.inv.merge ops h tv, ?_, fun g hg => ?_⟩
  · unfold AtomTable.merge
    split
    · exact hs.pending.modify h (fun _ => rfl) (fun _ => rfl)
    · exact hs.pending
  · rw [(hs.linkage.merge ops h tv).2.marked]
    rw [atomSet_merge] at hg
    exact hs.unmarked g hg

theorem Standing.add (ops : TruthOps TV) (hs : Standing cs s) {a : Atom TV}
    (ha : Addable cs s a) (hm : a.markedForRemoval = false) :
    (s.add ops a true).2.isSome = true ∧ Standing cs (s.add ops a true).1 := by
  obtain ⟨s', he, hi, hp⟩ := hs.inv.addNew ops hs.pending ha
  simp only [AtomTable.addNew, Option.bind_eq_bind, Option.bind_some] at he
  split at he
  case isFalse => cases he
  case isTrue hsome =>
    obtain rfl := Option.some.inj he
    refine ⟨hsome, hi, hp, fun g hg => ?_⟩
    rw [← hi.isStored_iff] at hg
    obtain ⟨-, ⟨h, -, -, same⟩ | ⟨-, same⟩ | ⟨-, -, -, grown⟩⟩ := hs.linkage.add ops ha.incoming
    · rw [same.marked]
      exact hs.clean (same.stored ▸ hg)
    · rw [same.marked]
      exact hs.clean (same.stored ▸ hg)
    · rw [grown.stored, Bool.or_eq_true, decide_eq_true_eq] at hg
      rw [grown.marked]
      split
      · exact hm
      · next e => exact hs.clean (hg.resolve_right e)

theorem Standing.addNew (ops : TruthOps TV) (hs : Standing cs s) {a : Atom TV}
    (ha : Addable cs s a) (hm : a.markedForRemoval = false) {s' : AtomTable TV}
    (he : s.addNew ops (some a) = some s') : Standing cs s' := by
  obtain ⟨hsome, hst⟩ := hs.add ops ha hm
  simp only [AtomTable.addNew, Option.bind_eq_bind, Option.bind_some, hsome, if_true,
    Option.some.injEq] at he
  exact he ▸ hst

theorem marked_setAttentionValue (s : AtomTable TV) (h : Handle) (av : AttentionValue) :
    (s.setAttentionValue h av).marked = s.marked := by
  have hmod : (s.modify h fun a => { a with attentionValue := av }).marked = s.marked :=
    marked_modify s h fun _ => rfl
  unfold AtomTable.setAttentionValue
  cases s.handleMap h with
  | none => rfl
  | some a =>
    simp only
    split
    · rfl
    · split
      · exact hmod
      · exact hmod

theorem atomSet_setAttentionValue (s : AtomTable TV) (h : Handle) (av : AttentionValue) :
    (s.setAttentionValue h av).atomSet = s.atomSet := by
  unfold AtomTable.setAttentionValue
  cases s.handleMap h with
  | none => rfl
  | some a =>
    simp only
    split
    · rfl
    · split
      · rfl
      · rfl

theorem Standing.setAttentionValue (hs : Standing cs s) {h : Handle} (hm : h ∈ s.atomSet)
    (av : AttentionValue) : Standing cs (s.setAttentionValue h av) := by
  refine ⟨hs.inv.setAttentionValue hm av, hs.pending.setAttentionValue h av, fun g hg => ?_⟩
  rw [marked_setAttentionValue]
  rw [atomSet_setAttentionValue] at hg
  exact hs.unmarked g hg

/-- Both accounts of one extraction, and what stands after it. -/
theorem Standing.extract (hs : Standing cs s) (h : Handle) (recursive : Bool) :
    ∃ s' res, AtomTable.extract (s.brkUuid + 1) s h recursive = some (s', res) ∧
      Taken s s' h recursive res ∧ Extracted cs s s' res ∧ Standing cs s' := by
  obtain ⟨s', res, he, ht⟩ := extract_takes (s.brkUuid + 1) s h recursive hs.linkage
    ⟨Nat.succ_pos _, by lia⟩
  obtain ⟨s'', res', he', hx⟩ := extract_spec (s.brkUuid + 1) s h recursive hs.inv hs.pending
    ⟨Nat.succ_pos _, by lia⟩
  obtain ⟨rfl, rfl⟩ := Prod.mk.inj (Option.some.inj (he.symm.trans he'))
  refine ⟨s', res, he, ht, hx, hx.inv, hx.pending, fun g hg => ?_⟩
  have hst := hx.inv.isStored_iff.mpr hg
  rw [← Bool.not_eq_true]
  intro hm
  have hold := ht.unmarked g hst hm
  rw [hs.clean ((ht.stored_iff g).mp hst).1] at hold
  cases hold

theorem Standing.remove (hs : Standing cs s) (h : Handle) (recursive : Bool) :
    ∃ s', s.remove h recursive = some s' ∧ Standing cs s' := by
  obtain ⟨s₁, res, he, ht, hx, hs₁⟩ := hs.extract h recursive
  obtain ⟨s', hr, hi, hp⟩ := remove_spec hs.inv hs.pending h recursive
  have hdel := removeExtractedHandles_eq ht.nodup fun g hg => ⟨ht.record hg, ht.bare g hg⟩
  refine ⟨s', hr, hi, hp, fun g hg => ?_⟩
  simp only [AtomTable.remove, he, Option.bind_eq_bind, Option.bind_some, hdel,
    Option.some.injEq] at hr
  subst hr
  have hn : g ∉ res := ((hx.atomSet g).mp hg).2
  simpa [marked, without, hn] using hs₁.unmarked g hg

theorem Standing.decay (hs : Standing cs s) (minSTI : Int) :
    ∃ s' old, s.decayShortTermImportance minSTI = some s' ∧ Standing cs s' ∧
      Decayed minSTI s s' old := by
  obtain ⟨s', old, he, hi, hp, hd⟩ := decayShortTermImportance_spec hs.inv hs.pending minSTI
  refine ⟨s', old, he, ⟨hi, hp, fun g hg => ?_⟩, hd⟩
  obtain ⟨hm, hn⟩ := (hd.atomSet g).mp hg
  rw [hd.marked g hn]
  exact hs.unmarked g hm

theorem Standing.apply (ops : TruthOps TV) (hs : Standing cs s) {op : TableOp TV}
    (hc : Careful cs s op) {s' : AtomTable TV} (he : s.apply cs ops op = some s') :
    Standing cs s' := by
  obtain ⟨ha, hshort, hstored⟩ := hc
  cases op with
  | addNode t name tv =>
    have hnew : Atom.newNode cs ops t name tv = some (.init ops t (.node name) tv) := by
      simp [Atom.newNode, ha.1]
    obtain ⟨a, hnew', hadd⟩ := addable_newNode (s := s) ops tv ha.1 ha.2
    obtain rfl := Option.some.inj (hnew.symm.trans hnew')
    simp only [AtomTable.apply, hnew] at he
    exact hs.addNew ops hadd rfl he
  | addLink t outgoing tv =>
    have hnew : Atom.newLink cs ops t outgoing tv =
        some (.init ops t (.link (Atom.setOutgoingSet cs t outgoing)) tv) := by
      simp [Atom.newLink, ha.1]
    obtain ⟨a, hnew', hadd⟩ := addable_newLink ops tv ha.1 ha.2 hshort
    obtain rfl := Option.some.inj (hnew.symm.trans hnew')
    simp only [AtomTable.apply, hnew] at he
    exact hs.addNew ops hadd rfl he
  | setAttentionValue h av =>
    obtain rfl := Option.some.inj he
    exact hs.setAttentionValue hstored av
  | extract h recursive =>
    obtain ⟨s₁, res, hx, -, -, hs₁⟩ := hs.extract h recursive
    simp only [AtomTable.apply, hx, Option.map_some, Option.some.injEq] at he
    exact he ▸ hs₁
  | remove h recursive =>
    obtain ⟨s₁, hr, hs₁⟩ := hs.remove h recursive
    exact Option.some.inj (he.symm.trans hr) ▸ hs₁
  | decay minSTI =>
    obtain ⟨s₁, old, hd, hs₁, -⟩ := hs.decay minSTI
    exact Option.some.inj (he.symm.trans hd) ▸ hs₁

theorem Reachable.standing {ops : TruthOps TV} (r : Reachable cs ops (Careful cs) s) :
    Standing cs s := by
  induction r with
  | empty => exact standing_empty cs
  | step op _ hc he ih => exact ih.apply ops hc he

end Standing

/-! ## Extraction of a stored atom -/

/-- What `extract` is to do with a stored atom. -/
structure ExtractsOver (s : AtomTable TV) (h : Handle) : Prop where
  recursive : ∃ s' res, extract (s.brkUuid + 1) s h true = some (s', res) ∧ res.Nodup ∧
    (∀ g, g ∈ res ↔ s.Over h g) ∧ (res.Pairwise fun g l => l ∉ s.outgoing g) ∧
    s'.removeExtractedHandles res = some (s'.without res)
  single : ∃ s' res, extract (s.brkUuid + 1) s h false = some (s', res) ∧
    (h ∉ s'.atomSet ↔ s.incoming h = []) ∧ (s.incoming h = [] → res = [h]) ∧
    (s.incoming h ≠ [] → s' = s ∧ res = [])

theorem modify_eq_self {s : AtomTable TV} {h : Handle} {a : Atom TV} {f : Atom TV → Atom TV}
    (ha : s.handleMap h = some a) (hf : f a = a) : s.modify h f = s := by
  have hmap : (fun g => if g = h then (s.handleMap h).map f else s.handleMap g) = s.handleMap := by
    funext g
    split
    · next e => rw [e, ha, Option.map_some, hf]
    · rfl
  unfold AtomTable.modify
  rw [hmap]

theorem modify_modify (s : AtomTable TV) (h : Handle) (f g : Atom TV → Atom TV) :
    (s.modify h f).modify h g = s.modify h fun a => g (f a) := by
  simp only [AtomTable.modify, if_true, Option.map_map]
  congr 1
  funext x
  by_cases e : x = h
  · simp [e, Function.comp_def]
  · simp [e]

/-- Not asked to climb, `extract` puts the mark back on an atom that is referred to. -/
theorem extract_referred {s : AtomTable TV} {h : Handle} {a : Atom TV} (fuel : Nat)
    (ha : s.handleMap h = some a) (hm : a.markedForRemoval = false) (hin : a.incoming ≠ []) :
    extract (fuel + 1) s h false = some (s, []) := by
  have hmap : (s.modify h fun a => { a with markedForRemoval := true }).handleMap h =
      some { a with markedForRemoval := true } := by
    simp [AtomTable.modify, ha]
  have hback : ((s.modify h fun a => { a with markedForRemoval := true }).modify h
      fun a => { a with markedForRemoval := false }) = s := by
    rw [modify_modify]
    refine modify_eq_self ha ?_
    rw [← hm]
  simp [extract, ha, hm, hmap, hin, hback]

theorem Standing.extractsOver {cs : ClassServer} {s : AtomTable TV} (hs : Standing cs s)
    {h : Handle} (hm : h ∈ s.atomSet) : ExtractsOver s h where
  recursive := by
    obtain ⟨s', res, he, ht, -, -⟩ := hs.extract h true
    refine ⟨s', res, he, ht.nodup, fun g => ?_, ?_, ?_⟩
    · rw [ht.mem_iff fun g hg => hs.clean hg, hs.linkage.over_iff]
      exact ⟨And.right, fun hg => ⟨hs.inv.isStored_iff.mpr hm, hg⟩⟩
    · refine ht.order.imp_of_mem fun {g l} hg _ hn => ?_
      rwa [← hs.inv.targetsOf_eq_outgoing (hs.inv.isStored_iff.mp (ht.was g hg))]
    · exact removeExtractedHandles_eq ht.nodup fun g hg => ⟨ht.record hg, ht.bare g hg⟩
  single := by
    obtain ⟨a, ha⟩ := Option.ne_none_iff_exists'.mp (hs.inv.record hm)
    have hmark : a.markedForRemoval = false := by simpa [marked, ha] using hs.unmarked h hm
    by_cases hin : s.incoming h = []
    · obtain ⟨s', res, he, ht, hx, -⟩ := hs.extract h false
      have hres : res = [h] := by
        rw [ht.alone rfl (hs.inv.isStored_iff.mpr hm) (hs.unmarked h hm), if_pos hin]
      refine ⟨s', res, he, ⟨fun _ => hin, fun _ hm' => ?_⟩, fun _ => hres, fun hn => absurd hin hn⟩
      exact ((hx.atomSet h).mp hm').2 (by simp [hres])
    · refine ⟨s, [], extract_referred _ ha hmark (by rwa [incoming_of_some ha] at hin), ?_, ?_, ?_⟩
      · exact ⟨fun hn => absurd hm hn, fun h0 => absurd h0 hin⟩
      · exact fun h0 => absurd h0 hin
      · exact fun _ => ⟨rfl, rfl⟩

/-- Along every careful run extraction takes exactly what stands over the atom, and every link
goes before its members. -/
theorem extracts_over_along_runs (cs : ClassServer) (ops : TruthOps TV) (s : AtomTable TV)
    (r : Reachable cs ops (Careful cs) s) : ∀ h ∈ s.atomSet, ExtractsOver s h :=
  fun _ hm => r.standing.extractsOver hm

theorem extracts_over_of_two_atoms :
    Reachable ClassServer.script unitOps (Careful ClassServer.script) (oneNode.withList [1, 1]) ∧
      ExtractsOver (oneNode.withList [1, 1]) 1 := by
  have r : Reachable ClassServer.script unitOps (Careful ClassServer.script)
      (oneNode.withList [1, 1]) :=
    .step (.addLink LIST_LINK [1, 1] ())
      (.step (.addNode CONCEPT_NODE "n" ()) .empty ⟨⟨by decide +kernel, by decide⟩, trivial, trivial⟩
        apply_oneNode)
      ⟨⟨by decide +kernel, by decide⟩, by simp [ShortLink], trivial⟩ rfl
  exact ⟨r, extracts_over_along_runs _ _ _ r 1 (by decide)⟩

/-! ## A link whose arity wraps -/

theorem Taken.eq_singleton {s s' : AtomTable TV} {h : Handle} {res : List Handle}
    (ht : Taken s s' h true res) (hst : s.isStored h = true)
    (hstack : ∀ g, s.isStored g = true → s.marked g = true → g < h)
    (htop : ∀ l, s.isStored l = true → h ∉ s.targetsOf l) : res = [h] := by
  have hall : ∀ g ∈ res, g = h := by
    intro g hg
    rcases Relation.ReflTransGen.cases_head (ht.above g hg) with rfl | ⟨l, hl, -⟩
    · rfl
    · exact absurd hl.2 (htop l hl.1)
  have hmem := ht.taken rfl hst hstack
  refine List.perm_singleton.mp ((List.perm_ext_iff_of_nodup ht.nodup
    (List.nodup_singleton h)).mpr fun g => ?_)
  rw [List.mem_singleton]
  exact ⟨hall g, fun e => e ▸ hmem⟩

/-- Two links over an atom, with nothing over them as far as arities tell, come out with the
later one first. -/
theorem extract_two_links {s : AtomTable TV} (hs : Linked s)
    (hclean : ∀ g, s.isStored g = true → s.marked g = false) {h p q : Handle}
    (hst : s.isStored h = true) (hin : (s.incoming h).dedup.mergeSort = [p, q])
    (hp : ∀ l, s.isStored l = true → p ∉ s.targetsOf l)
    (hq : ∀ l, s.isStored l = true → q ∉ s.targetsOf l) (hpq : q ≠ p) :
    ∃ s' res, extract (s.brkUuid + 1) s h true = some (s', res) ∧
      (res = [q, p] ∨ res = [h, q, p]) := by
  obtain ⟨s', res, he, ht⟩ := extract_takes (s.brkUuid + 1) s h true hs ⟨Nat.succ_pos _, by lia⟩
  refine ⟨s', res, he, ?_⟩
  obtain ⟨a, ha, -⟩ := exists_of_isStored hst
  have hsome : s.handleMap h ≠ none := by rw [ha]; exact Option.some_ne_none a
  have hmark : a.markedForRemoval = false := by simpa [marked, ha] using hclean h hst
  have hover : ∀ l ∈ [p, q], s.isStored l = true ∧ h < l := by
    intro l hl
    rw [← hin, List.mem_mergeSort, List.mem_dedup, hs.mem_incoming hsome] at hl
    exact ⟨hl.1, (hs.below l hl.1 h hl.2).1⟩
  obtain ⟨hps, hhp⟩ := hover p (by simp)
  obtain ⟨hqs, hhq⟩ := hover q (by simp)
  set s₀ := s.modify h fun a => { a with markedForRemoval := true } with hs₀
  have same₀ : SameKeys s s₀ := sameKeys_modify s h (fun _ => rfl) (fun _ => rfl)
  have hl₀ : Linked s₀ := hs.setMark hst true
  have hmark₀ : ∀ g, s₀.isStored g = true → s₀.marked g = true → g = h := by
    intro g hg hm
    by_contra e
    rw [hs₀, marked_setMark, if_neg e, hclean g (same₀.isStored g ▸ hg)] at hm
    cases hm
  have htarget : ∀ (t : AtomTable TV) r, TakenOut s₀ t r → ∀ x, (∀ l, s.isStored l = true →
      x ∉ s.targetsOf l) → ∀ l, t.isStored l = true → x ∉ t.targetsOf l := by
    intro t r hx x hall l hl
    rw [hx.targetsOf, same₀.targetsOf]
    exact hall l ((same₀.isStored l).symm.trans ((hx.stored_iff l).mp hl).1)
  -- the call on the first link
  have hps₀ : s₀.isStored p = true := (same₀.isStored p).trans hps
  obtain ⟨b, hb, -⟩ := exists_of_isStored hps₀
  obtain ⟨s₁, r₁, he₁, ht₁⟩ := extract_takes s.brkUuid s₀ p true hl₀
    ⟨by have := hs.lt_brk hsome; lia, by change s.brkUuid ≤ p + s.brkUuid; lia⟩
  have hr₁ : r₁ = [p] := ht₁.eq_singleton hps₀
    (fun g hg hm => by rw [hmark₀ g hg hm]; exact hhp) (htarget s₀ [] (.refl hl₀) p hp)
  subst hr₁
  have hbm : b.markedForRemoval = false := by
    rw [← Bool.not_eq_true]
    intro hm
    have := hmark₀ p hps₀ (by simp [marked, hb, hm])
    lia
  -- the call on the second
  have hqs₁ : s₁.isStored q = true :=
    (ht₁.toTakenOut.stored_iff q).mpr ⟨(same₀.isStored q).trans hqs, by simpa using hpq⟩
  obtain ⟨c, hc, -⟩ := exists_of_isStored hqs₁
  have hmark₁ : ∀ g, s₁.isStored g = true → s₁.marked g = true → g = h := fun g hg hm =>
    hmark₀ g ((ht₁.toTakenOut.stored_iff g).mp hg).1 (ht₁.unmarked g hg hm)
  obtain ⟨s₂, r₂, he₂, ht₂⟩ := extract_takes s.brkUuid s₁ q true ht₁.linked
    ⟨by have := hs.lt_brk hsome; lia, by
      have : s₁.brkUuid = s.brkUuid := ht₁.brkUuid
      lia⟩
  have hr₂ : r₂ = [q] := ht₂.eq_singleton hqs₁
    (fun g hg hm => by rw [hmark₁ g hg hm]; exact hhq) (htarget s₁ [p] ht₁.toTakenOut q hq)
  subst hr₂
  have hcm : c.markedForRemoval = false := by
    rw [← Bool.not_eq_true]
    intro hm
    have := hmark₁ q hqs₁ (by simp [marked, hc, hm])
    lia
  -- the tail of the call on the atom itself
  unfold extract at he
  rw [incoming_of_some ha] at hin
  simp only [ha, hmark, Bool.false_eq_true, if_false, if_true, hin, List.foldlM_cons,
    List.foldlM_nil, ← hs₀, hb, hbm, he₁, hc, hcm, he₂, Option.bind_eq_bind, Option.bind_some,
    List.append_nil, Option.pure_def, List.singleton_append] at he
  obtain ⟨d, -, he⟩ := Option.bind_eq_some_iff.mp he
  split at he
  · exact .inl (Prod.mk.inj (Option.some.inj he)).2.symm
  · obtain ⟨t, -, he⟩ := Option.bind_eq_some_iff.mp he
    exact .inr (Prod.mk.inj (Option.some.inj he)).2.symm

theorem mem_atomSet_add (ops : TruthOps TV) {s : AtomTable TV} (a : Atom TV) {h : Handle}
    (hm : h ∈ s.atomSet) : h ∈ (s.add ops a true).1.atomSet := by
  have hins : ∀ valid, h ∈ (s.insertAtom a valid).atomSet := by
    intro valid
    unfold insertAtom
    simp only
    split
    · exact hm
    · split
      · exact List.mem_cons_of_mem _ hm
      · exact hm
  unfold AtomTable.add
  split
  · rw [atomSet_merge]
    exact hm
  · split
    · simp only [if_true]
      rw [(foldl_addIncomingHandle s.brkUuid a.body.targets _).1.atomSet]
      exact hins true
    · exact hins false

/-! ## A link longer than its arity -/

/-- A node and the list of it twice: handles 1 and 2. -/
def listOfTwice : AtomTable Unit := oneNode.withList [1, 1]

section Wrapped
variable {tl : List Handle}

/-- The list that names the node once and the list 65536 times. -/
def withWrapped (tl : List Handle) : AtomTable Unit := listOfTwice.withList (1 :: tl)

theorem wrapped_targets (hlen : tl.length = 65536) : (Body.link (1 :: tl)).targets = [1] := by
  have harity : (Body.link (1 :: tl)).arity = 1 := by
    change (1 :: tl).length % 65536 = 1
    rw [List.length_cons, hlen]
  rw [Body.targets, harity]
  rfl

theorem wrapped_absent (hlen : tl.length = 65536) :
    listOfTwice.linkIndex LIST_LINK (1 :: tl) = none := by
  have hne : (1 :: tl : List Handle) ≠ [1, 1] := by
    intro e
    have := congrArg List.length e
    rw [List.length_cons, hlen] at this
    cases this
  change (Function.update (fun _ => none) [1, 1] (some 2) : List Handle → Option Handle) _ = none
  rw [Function.update_of_ne hne]

theorem wrapped_valid (hmem : ∀ x ∈ tl, x = 2) :
    ∀ x ∈ (1 :: tl : List Handle), listOfTwice.isValidHandle x = true := by
  intro x hx
  rcases List.mem_cons.mp hx with rfl | hx
  · rfl
  · rw [hmem x hx]
    rfl

theorem reachable_wrapped (hlen : tl.length = 65536) (hmem : ∀ x ∈ tl, x = 2) :
    Reachable ClassServer.script unitOps (Allowed ClassServer.script) (withWrapped tl) := by
  have hstored : 1 ∈ listOfTwice.atomSet ∧ 2 ∈ listOfTwice.atomSet := by decide
  have r : Reachable ClassServer.script unitOps (Allowed ClassServer.script) listOfTwice :=
    .step (.addLink LIST_LINK [1, 1] ())
      (.step (.addNode CONCEPT_NODE "n" ()) .empty ⟨by decide +kernel, by decide⟩ apply_oneNode)
      ⟨by decide +kernel, by decide⟩ rfl
  refine .step (.addLink LIST_LINK (1 :: tl) ()) r ⟨by decide +kernel, fun x hx => ?_⟩
    (apply_addLink (wrapped_absent hlen) (wrapped_valid hmem))
  rcases List.mem_cons.mp hx with rfl | hx
  · exact hstored.1
  · exact hmem x hx ▸ hstored.2

/-- The linkage of the table, from how it was built. -/
theorem grown_wrapped (hlen : tl.length = 65536) (hmem : ∀ x ∈ tl, x = 2) :
    Linked listOfTwice ∧ Linked (withWrapped tl) ∧
      Grown listOfTwice (withWrapped tl) (.init unitOps LIST_LINK (.link (1 :: tl)) ()) := by
  have hone : Linked oneNode := (linked_empty.add unitOps rfl).1
  have htwo : Linked listOfTwice := (hone.add unitOps rfl).1
  obtain ⟨hget, hvalid⟩ := getHandle_list (wrapped_absent hlen) (wrapped_valid hmem)
  obtain ⟨hl, ⟨h, -, hfound, -⟩ | ⟨hres, -⟩ | ⟨-, -, -, hg⟩⟩ := htwo.add unitOps
    (a := .init unitOps LIST_LINK (.link (1 :: tl)) ()) rfl
  · rw [hget] at hfound
    cases hfound
  · simp only [AtomTable.add, hget, hvalid, if_true] at hres
    cases hres
  · exact ⟨htwo, hl, hg⟩

variable {s : AtomTable Unit} (htwo : Linked listOfTwice)
  (hgrown : Grown listOfTwice s (.init unitOps LIST_LINK (.link (1 :: tl)) ()))
include hgrown

include htwo in
theorem stored_wrapped (g : Handle) : s.isStored g = true ↔ g = 1 ∨ g = 2 ∨ g = 3 := by
  have hbrk : listOfTwice.brkUuid = 3 := rfl
  rw [hgrown.stored_iff, hbrk]
  constructor
  · rintro (hg | rfl)
    · obtain ⟨a, ha, -⟩ := exists_of_isStored hg
      have hlt := htwo.lt_brk (h := g) (by rw [ha]; simp)
      rw [hbrk] at hlt
      interval_cases g
      · exact absurd hg (by decide)
      · exact .inl rfl
      · exact .inr (.inl rfl)
    · exact .inr (.inr rfl)
  · rintro (rfl | rfl | rfl)
    · exact .inl (by decide)
    · exact .inl (by decide)
    · exact .inr rfl

theorem targetsOf_wrapped (hlen : tl.length = 65536) (g : Handle) :
    s.targetsOf g = if g = 3 then [1] else listOfTwice.targetsOf g := by
  have hbrk : listOfTwice.brkUuid = 3 := rfl
  rw [targetsOf_eq, hgrown.key, hbrk]
  by_cases e : g = 3
  · simp only [e, if_true, Option.map_some, Option.getD_some]
    exact wrapped_targets hlen
  · rw [if_neg e, if_neg e, targetsOf_eq]

include htwo

/-- As far as arities tell, nothing refers to the lists. -/
theorem target_wrapped (hlen : tl.length = 65536) {l x : Handle} (hl : s.isStored l = true)
    (hx : x ∈ s.targetsOf l) : x = 1 := by
  rw [targetsOf_wrapped hgrown hlen] at hx
  rcases (stored_wrapped htwo hgrown l).mp hl with rfl | rfl | rfl
  · cases hx
  · have : listOfTwice.targetsOf 2 = [1, 1] := rfl
    simpa [this] using hx
  · simpa using hx

theorem clean_wrapped (g : Handle) (hg : s.isStored g = true) : s.marked g = false := by
  have hbrk : listOfTwice.brkUuid = 3 := rfl
  rw [hgrown.marked, hbrk]
  rcases (stored_wrapped htwo hgrown g).mp hg with rfl | rfl | rfl
  · rfl
  · rfl
  · rfl

theorem incoming_wrapped (hlen : tl.length = 65536) (hs : Linked s) :
    (s.incoming 1).dedup.mergeSort = [2, 3] := by
  have hone : s.handleMap 1 ≠ none := by
    obtain ⟨a, ha, -⟩ := exists_of_isStored ((stored_wrapped htwo hgrown 1).mpr (.inl rfl))
    rw [ha]
    exact Option.some_ne_none a
  refine eq_of_perm_sorted ((List.mergeSort_perm _ _).trans
    ((List.perm_ext_iff_of_nodup (List.nodup_dedup _) (by decide)).mpr fun l => ?_))
    (sorted_mergeSort _) (by decide)
  rw [List.mem_dedup, hs.mem_incoming hone, stored_wrapped htwo hgrown,
    targetsOf_wrapped hgrown hlen]
  constructor
  · rintro ⟨rfl | rfl | rfl, hl⟩
    · cases hl
    · simp
    · simp
  · intro hl
    rcases List.mem_pair.mp hl with rfl | rfl
    · exact ⟨.inr (.inl rfl), by decide⟩
    · exact ⟨.inr (.inr rfl), by decide⟩

end Wrapped

/-- A link of 65537 members has arity 1: it is extracted before the link that all but the first
of its members name. -/
theorem link_before_member_after_wrap :
    ¬ ∀ s : AtomTable Unit, Reachable ClassServer.script unitOps (Allowed ClassServer.script) s →
      ∀ h ∈ s.atomSet, ExtractsOver s h := by
  intro hall
  obtain ⟨tl, hlen, hmem⟩ := long_members 2
  have r := reachable_wrapped hlen hmem
  obtain ⟨htwo, hs, hgrown⟩ := grown_wrapped hlen hmem
  set s := withWrapped tl
  obtain ⟨s', res, he, hres⟩ := extract_two_links hs (clean_wrapped htwo hgrown)
    ((stored_wrapped htwo hgrown 1).mpr (.inl rfl)) (incoming_wrapped htwo hgrown hlen hs)
    (fun l hl hx => by cases target_wrapped htwo hgrown hlen hl hx)
    (fun l hl hx => by cases target_wrapped htwo hgrown hlen hl hx) (by decide)
  have hout : s.outgoing 3 = 1 :: tl := by
    have hbrk : listOfTwice.brkUuid = 3 := rfl
    rw [outgoing_eq, hgrown.key, hbrk, if_pos rfl]
    rfl
  obtain ⟨x, hx⟩ := List.exists_mem_of_length_pos (by rw [hlen]; decide : 0 < tl.length)
  have htwoOut : 2 ∈ s.outgoing 3 := by
    rw [hout]
    exact List.mem_cons_of_mem 1 (hmem x hx ▸ hx)
  have hone : 1 ∈ s.atomSet := mem_atomSet_add unitOps _ (by decide : 1 ∈ listOfTwice.atomSet)
  obtain ⟨s'', res', he', -, -, horder, -⟩ := (hall s r 1 hone).recursive
  obtain ⟨-, rfl⟩ := Prod.mk.inj (Option.some.inj (he.symm.trans he'))
  rcases hres with rfl | rfl
  · simp only [List.pairwise_cons, List.mem_cons, List.not_mem_nil, or_false, forall_eq] at horder
    exact horder.1 htwoOut
  · simp only [List.pairwise_cons, List.mem_cons, List.not_mem_nil, or_false, forall_eq] at horder
    exact horder.2.1 htwoOut

end AtomTable

end OpenCog
