import OpenCog.AtomSpace.Adding

/-! Extraction climbs from an atom to the links above it and takes out whatever
nothing refers to any more. No call throws on a table that keeps the invariant,
and the handles given out bound the recursion. -/
namespace OpenCog

variable {TV : Type}

namespace AtomTable
open Index

def marked (s : AtomTable TV) (h : Handle) : Bool :=
  ((s.handleMap h).map Atom.markedForRemoval).getD false

/-- Records outside the table are those of extracted atoms: marked, and
referred to by nothing. -/
def Pending (s : AtomTable TV) : Prop :=
  ∀ h, h ∉ s.atomSet → s.handleMap h ≠ none → s.marked h = true ∧ s.incoming h = []

theorem marked_modify (s : AtomTable TV) (h : Handle) {f : Atom TV → Atom TV}
    (hf : ∀ a, (f a).markedForRemoval = a.markedForRemoval) :
    (s.modify h f).marked = s.marked := by
  funext g
  exact congrArg (·.getD false) (map_modify s h Atom.markedForRemoval hf g)

theorem Pending.modify {s : AtomTable TV} (hp : Pending s) (h : Handle) {f : Atom TV → Atom TV}
    (hm : ∀ a, (f a).markedForRemoval = a.markedForRemoval)
    (hi : ∀ a, (f a).incoming = a.incoming) : Pending (s.modify h f) := by
  intro g hg hsome
  rw [marked_modify s h hm, incoming_modify s h hi]
  exact hp g hg (mt (isNone_modify s h g).mpr hsome)

/-! ## Dropping the entries of one link -/

theorem removeIncomingHandle_some (h : Handle) (s : AtomTable TV) (x : Handle)
    (hx : h ∈ s.incoming x) :
    removeIncomingHandle h s x =
      some (s.modify x fun a => { a with incoming := a.incoming.erase h }) := by
  cases ha : s.handleMap x with
  | none => simp [incoming, ha] at hx
  | some a =>
    have : h ∈ a.incoming := by rwa [incoming_of_some ha] at hx
    simp [removeIncomingHandle, ha, this]

/-- One entry leaves per occurrence, as one entered per occurrence. -/
theorem foldlM_removeIncomingHandle (h : Handle) (xs : List Handle) (s : AtomTable TV)
    (enough : ∀ x ∈ xs, xs.count x ≤ (s.incoming x).count h) :
    ∃ s', xs.foldlM (removeIncomingHandle h) s = some s' ∧ OnlyIncoming s s' ∧
      (∀ g, s'.marked g = s.marked g) ∧
      ∀ g l, (s'.incoming g).count l = (s.incoming g).count l - if l = h then xs.count g else 0 := by
  induction xs generalizing s with
  | nil => exact ⟨s, rfl, OnlyIncoming.refl s, fun _ => rfl, by simp⟩
  | cons x xs ih =>
    have hx : h ∈ s.incoming x := by
      have := enough x List.mem_cons_self
      rw [List.count_cons_self] at this
      exact List.count_pos_iff.mp (by omega)
    have hstep := onlyIncoming_modify s x (·.erase h)
    set s₁ := s.modify x fun a => { a with incoming := a.incoming.erase h } with hs₁
    have hin : ∀ g l, (s₁.incoming g).count l =
        (s.incoming g).count l - if l = h ∧ g = x then 1 else 0 := by
      intro g l
      by_cases hg : s.handleMap g = none
      · have hg' : s₁.handleMap g = none := (hstep.absent g).mpr hg
        simp [incoming, hg, hg']
      · rw [hs₁, incoming_modify_incoming s x (·.erase h) g hg]
        by_cases e : g = x
        · subst e
          by_cases el : l = h
          · subst el; simp
          · simp [el, List.count_erase_of_ne el]
        · simp [e]
    obtain ⟨s', hs', same, hmark, hcount⟩ := ih s₁ (by
      intro y hy
      have := enough y (List.mem_cons_of_mem x hy)
      rw [hin]
      by_cases e : y = x
      · subst e; simp only [List.count_cons_self] at this; simp only [and_self, if_true]; omega
      · rw [List.count_cons_of_ne (Ne.symm e)] at this; simpa [e] using this)
    refine ⟨s', ?_, hstep.trans same, ?_, ?_⟩
    · rw [List.foldlM_cons, removeIncomingHandle_some h s x hx]
      exact hs'
    · intro g
      have : s₁.marked = s.marked := marked_modify s x fun _ => rfl
      rw [hmark, this]
    · intro g l
      rw [hcount, hin]
      by_cases el : l = h
      · by_cases e : g = x
        · subst e; simp only [el, and_self, if_true, List.count_cons_self]; omega
        · simp [e, List.count_cons_of_ne (Ne.symm e)]
      · simp [el]

/-! ## One atom leaves -/

section Detach
variable {cs : ClassServer} {s : AtomTable TV} {h : Handle} {a : Atom TV}

/-- Erasing by structural equality takes out the atom itself and no other. The
table may have lost other atoms since the keys were known to be unique. -/
theorem mem_eraseAtom {s₀ : AtomTable TV} (hs : Inv cs s₀) (hkey : s.key = s₀.key)
    (sub : ∀ g ∈ s.atomSet, g ∈ s₀.atomSet) (hm : h ∈ s₀.atomSet) (ha : s.handleMap h = some a)
    (g : Handle) : g ∈ (s.eraseAtom a).atomSet ↔ g ∈ s.atomSet ∧ g ≠ h := by
  simp only [eraseAtom, List.mem_filter]
  refine and_congr_right fun hg => ?_
  obtain ⟨t, b, hb⟩ := hs.has_of_mem (sub g hg)
  obtain ⟨c, hc, rfl, rfl⟩ := exists_of_key (hkey ▸ hb.2)
  have hh : s₀.Has h a.type a.body := ⟨hm, hkey ▸ key_of_some ha⟩
  simp only [hc, Option.map_some, Option.getD_some, Bool.not_eq_true', ne_eq]
  rw [← Bool.not_eq_true, atom_sameAs_iff (hs.typed hb).length_lt (hs.typed hh).length_lt]
  constructor
  · rintro hne rfl
    rw [ha] at hc
    cases hc
    exact hne ⟨rfl, rfl⟩
  · rintro hne ⟨ht, hbody⟩
    exact hne (hs.unique (ht ▸ hbody ▸ hb) hh)

theorem length_eraseAtom {s₀ : AtomTable TV} (hs : Inv cs s₀) (hkey : s.key = s₀.key)
    (sub : ∀ g ∈ s.atomSet, g ∈ s₀.atomSet) (hnd : s.atomSet.Nodup) (hm : h ∈ s.atomSet)
    (ha : s.handleMap h = some a) :
    (s.eraseAtom a).atomSet.length + 1 = s.atomSet.length := by
  have hnd' : (s.eraseAtom a).atomSet.Nodup := hnd.filter _
  have hperm : (s.eraseAtom a).atomSet.Perm (s.atomSet.erase h) := by
    apply (List.perm_ext_iff_of_nodup hnd' (hnd.erase h)).mpr
    intro g
    rw [mem_eraseAtom hs hkey sub (sub h hm) ha, hnd.mem_erase_iff, and_comm]
  have := List.length_pos_of_mem hm
  rw [hperm.length_eq, List.length_erase_of_mem hm]
  omega

/-- The count of entries to drop is the count of entries there are. -/
theorem count_targets_le (hs : Inv cs s) (hm : h ∈ s.atomSet) (ha : s.handleMap h = some a)
    (x : Handle) (hx : x ∈ a.body.targets) :
    x ∈ s.atomSet ∧ a.body.targets.count x = (s.incoming x).count h := by
  have hh : s.Has h a.type a.body := ⟨hm, key_of_some ha⟩
  have htargets : a.body.targets = a.body.outgoing := Body.targets_of_lt (hs.typed hh).length_lt
  rw [htargets] at hx ⊢
  have hxs := (hs.members hh x hx).1
  refine ⟨hxs, ?_⟩
  rw [hs.dual x hxs h, if_pos hm, outgoing_of_key hh.2]

theorem nodeIndex_removeHandle (hs : Inv cs s) (hm : h ∈ s.atomSet) (ha : s.handleMap h = some a)
    (t : TypeCode) (n : String) (g : Handle) :
    (s.removeHandle h a).nodeIndex t n = some g ↔ s.nodeIndex t n = some g ∧ g ≠ h := by
  have hh : s.Has h a.type a.body := ⟨hm, key_of_some ha⟩
  have key : ∀ {t n}, s.nodeIndex t n = some h → t = a.type ∧ .node n = a.body := by
    intro t n hn
    have := (hs.nodes.mp hn).2
    rw [hh.2, Option.some.injEq, Prod.mk.injEq] at this
    exact ⟨this.1.symm, this.2.symm⟩
  simp only [removeHandle]
  cases hb : a.body with
  | link o =>
    simp only [hb] at key
    refine ⟨fun hn => ⟨hn, ?_⟩, And.left⟩
    rintro rfl
    cases (key hn).2
  | node m =>
    have typed := hs.typed hh
    rw [hb] at hh typed key
    have hmap := hs.nodes.mpr hh
    simp only [cStr_of_noNul typed.2, mapErase]
    by_cases e : t = a.type ∧ n = m
    · obtain ⟨rfl, rfl⟩ := e
      simp only [Function.update_self, reduceCtorEq, hmap, Option.some.injEq, false_iff, not_and,
        not_not]
      exact Eq.symm
    · have hne : s.nodeIndex t n = some g → g ≠ h := by
        rintro hn rfl
        obtain ⟨rfl, hnm⟩ := key hn
        exact e ⟨rfl, Body.node.inj hnm⟩
      have hsame : Function.update s.nodeIndex a.type
          (Function.update (s.nodeIndex a.type) m none) t n = s.nodeIndex t n := by
        by_cases ht : t = a.type
        · subst ht
          have hnm : n ≠ m := fun hnm => e ⟨rfl, hnm⟩
          simp [hnm]
        · simp [ht]
      rw [hsame]
      exact ⟨fun hn => ⟨hn, hne hn⟩, And.left⟩

theorem linkIndex_removeHandle (hs : Inv cs s) (hm : h ∈ s.atomSet) (ha : s.handleMap h = some a)
    (t : TypeCode) (o : List Handle) (g : Handle) :
    (s.removeHandle h a).linkIndex t o = some g ↔ s.linkIndex t o = some g ∧ g ≠ h := by
  have hh : s.Has h a.type a.body := ⟨hm, key_of_some ha⟩
  have key : ∀ {t o}, s.linkIndex t o = some h → t = a.type ∧ .link o = a.body := by
    intro t o hn
    have := (hs.links.mp hn).2
    rw [hh.2, Option.some.injEq, Prod.mk.injEq] at this
    exact ⟨this.1.symm, this.2.symm⟩
  simp only [removeHandle]
  cases hb : a.body with
  | node n =>
    simp only [hb] at key
    refine ⟨fun hn => ⟨hn, ?_⟩, And.left⟩
    rintro rfl
    cases (key hn).2
  | link p =>
    rw [hb] at hh key
    have hmap := hs.links.mpr hh
    simp only [mapErase]
    by_cases e : t = a.type ∧ o = p
    · obtain ⟨rfl, rfl⟩ := e
      simp only [Function.update_self, reduceCtorEq, hmap, Option.some.injEq, false_iff, not_and,
        not_not]
      exact Eq.symm
    · have hne : s.linkIndex t o = some g → g ≠ h := by
        rintro hn rfl
        obtain ⟨rfl, hop⟩ := key hn
        exact e ⟨rfl, Body.link.inj hop⟩
      have hsame : Function.update s.linkIndex a.type
          (Function.update (s.linkIndex a.type) p none) t o = s.linkIndex t o := by
        by_cases ht : t = a.type
        · subst ht
          have hop : o ≠ p := fun hop => e ⟨rfl, hop⟩
          simp [hop]
        · simp [ht]
      rw [hsame]
      exact ⟨fun hn => ⟨hn, hne hn⟩, And.left⟩

theorem removed_of_detach (hs : Inv cs s) (hm : h ∈ s.atomSet) (ha : s.handleMap h = some a) :
    ∃ s', s.detach h a = some s' ∧ Removed s s' (· = h) ∧
      (∀ g, s'.marked g = s.marked g) ∧ (∀ g, s.incoming g = [] → s'.incoming g = []) ∧
      ∀ g, s'.handleMap g = none ↔ s.handleMap g = none := by
  have hh : s.Has h a.type a.body := ⟨hm, key_of_some ha⟩
  have htargets : a.body.targets = a.body.outgoing := Body.targets_of_lt (hs.typed hh).length_lt
  set s₁ := (eraseAtom { s with size := s.size - 1 } a).removeHandle h a with hs₁
  have herase : ∀ g, g ∈ s₁.atomSet ↔ g ∈ s.atomSet ∧ g ≠ h := fun g =>
    mem_eraseAtom hs rfl (fun _ => id) hm ha g
  have hlen : s₁.atomSet.length + 1 = s.atomSet.length :=
    (length_eraseAtom hs rfl (fun _ => id) hs.nodup hm ha : (s.eraseAtom a).atomSet.length + 1 = _)
  have hkey : s₁.key = s.key := rfl
  have hav : s₁.avOf = s.avOf := rfl
  have htype : s₁.typeOf = s.typeOf := rfl
  have hinc : s₁.incoming = s.incoming := rfl
  obtain ⟨s', hs', same, hmark, hcount⟩ := foldlM_removeIncomingHandle h a.body.targets s₁
    (fun x hx => Nat.le_of_eq (count_targets_le hs hm ha x hx).2)
  refine ⟨s', hs', ?_, hmark, ?_, fun g => same.absent g⟩
  · refine ⟨same.key.trans hkey, same.avOf.trans hav, ?_, same.linked, ?_, same.brkUuid, ?_,
      ?_, ?_, ?_, ?_, ?_, ?_, ?_, ?_, ?_, ?_⟩
    · intro g _; rw [same.decayedFlag]; rfl
    · intro g hg; exact (same.absent g).mpr hg
    · rw [same.orphans]
      change s.orphans.filter _ = s.orphans
      rw [hs.orphans]; rfl
    · rw [same.atomSet]; exact hs.nodup.filter _
    · intro g; rw [same.atomSet]; exact herase g
    · rw [same.size, same.atomSet]
      change s.size - 1 = _
      have := hs.size
      omega
    · intro t n g
      rw [same.nodeIndex]
      exact nodeIndex_removeHandle hs hm ha t n g
    · intro t o g
      rw [same.linkIndex]
      exact linkIndex_removeHandle hs hm ha t o g
    · intro t g
      rw [same.typeIndex]
      change g ∈ removeAt s.typeIndex h a.type t ↔ _
      rw [mem_removeAt]
      refine and_congr_right fun hg => not_congr ⟨And.right, fun e => ⟨?_, e⟩⟩
      subst e
      obtain ⟨b, hb⟩ := hs.types.mp hg
      have := hb.2
      rw [hh.2, Option.some.injEq, Prod.mk.injEq] at this
      exact this.1.symm
    · intro t g
      rw [same.targetTypeIndex]
      change g ∈ (s.targetTypes a.body).foldl (removeAt · h ·) s.targetTypeIndex t ↔ _
      rw [mem_foldl_removeAt, mem_targetTypes]
      refine and_congr_right fun hg => not_congr ⟨And.right, fun e => ⟨?_, e⟩⟩
      subst e
      obtain ⟨u, b, hb, x, hx, ht⟩ := hs.targets.mp hg
      have := hb.2
      rw [hh.2, Option.some.injEq, Prod.mk.injEq] at this
      exact ⟨x, by rw [htargets, this.2]; exact hx, ht⟩
    · intro i g
      rw [same.importanceIndex]
      change g ∈ removeAt s.importanceIndex h (importanceBin a.attentionValue.sti) i ↔ _
      rw [mem_removeAt]
      refine and_congr_right fun hg => not_congr ⟨And.right, fun e => ⟨?_, e⟩⟩
      subst e
      obtain ⟨-, av, hav, rfl⟩ := hs.bins.mp hg
      simp only [avOf, ha, Option.map_some, Option.some.injEq] at hav
      rw [hav]
    · intro x _ l hl
      rw [hcount, if_neg hl, hinc]; rfl
    · rintro x hx l rfl
      apply List.count_eq_zero.mp
      rw [hcount, if_pos rfl, hinc]
      rw [same.atomSet, herase] at hx
      by_cases hxt : x ∈ a.body.targets
      · rw [(count_targets_le hs hm ha x hxt).2]; omega
      · have hzero : (s.incoming x).count l = 0 := by
          rw [hs.dual x hx.1 l, if_pos hm, outgoing_of_key hh.2, ← htargets]
          exact List.count_eq_zero_of_not_mem hxt
        omega
  · intro g hg
    apply List.eq_nil_iff_forall_not_mem.mpr
    intro l
    apply List.count_eq_zero.mp
    rw [hcount, hinc, hg]; simp

end Detach

/-! ## Recursive extraction -/

/-- What a call of `extract` did: the atoms of `res` have left the table, their
records are pending, and no atom marked before was touched. -/
structure Extracted (cs : ClassServer) (s s' : AtomTable TV) (res : List Handle) : Prop where
  inv : Inv cs s'
  pending : Pending s'
  key : s'.key = s.key
  brkUuid : s'.brkUuid = s.brkUuid
  atomSet : ∀ g, g ∈ s'.atomSet ↔ g ∈ s.atomSet ∧ g ∉ res
  nodup : res.Nodup
  stored : ∀ g ∈ res, g ∈ s.atomSet
  marked : ∀ g, s.marked g = true → s'.marked g = true ∧ g ∉ res

theorem Extracted.refl {cs : ClassServer} {s : AtomTable TV} (hs : Inv cs s) (hp : Pending s) :
    Extracted cs s s [] :=
  ⟨hs, hp, rfl, rfl, by simp, List.nodup_nil, by simp, by simp⟩

theorem Extracted.trans {cs : ClassServer} {a b c : AtomTable TV} {p q : List Handle}
    (h : Extracted cs a b p) (k : Extracted cs b c q) : Extracted cs a c (q ++ p) where
  inv := k.inv
  pending := k.pending
  key := k.key.trans h.key
  brkUuid := k.brkUuid.trans h.brkUuid
  atomSet g := by rw [k.atomSet, h.atomSet, List.mem_append]; tauto
  nodup := by
    refine List.nodup_append'.mpr ⟨k.nodup, h.nodup, ?_⟩
    intro g hq hp
    exact ((h.atomSet g).mp (k.stored g hq)).2 hp
  stored g hg := by
    rcases List.mem_append.mp hg with hq | hp
    · exact ((h.atomSet g).mp (k.stored g hq)).1
    · exact h.stored g hp
  marked g hg := by
    obtain ⟨hb, hp⟩ := h.marked g hg
    obtain ⟨hc, hq⟩ := k.marked g hb
    exact ⟨hc, fun hm => (List.mem_append.mp hm).elim hq hp⟩

theorem Pending.setMark {s : AtomTable TV} (hp : Pending s) {h : Handle} (hm : h ∈ s.atomSet)
    (m : Bool) : Pending (s.modify h fun a => { a with markedForRemoval := m }) := by
  intro g hg hsome
  have e : g ≠ h := fun e => hg (e ▸ hm)
  have := hp g hg (mt (isNone_modify s h g).mpr hsome)
  simpa [marked, incoming, AtomTable.modify, e] using this

theorem Inv.setMark {cs : ClassServer} {s : AtomTable TV} (hs : Inv cs s) (h : Handle) (m : Bool) :
    Inv cs (s.modify h fun a => { a with markedForRemoval := m }) :=
  hs.modify_other h (fun _ => rfl) (fun _ => rfl) (fun _ => rfl) (fun _ => rfl) (fun _ => rfl)
    (fun _ => rfl)

theorem marked_setMark (s : AtomTable TV) (h : Handle) (m : Bool) (g : Handle) :
    (s.modify h fun a => { a with markedForRemoval := m }).marked g =
      if g = h then ((s.handleMap h).map fun _ => m).getD false else s.marked g := by
  by_cases e : g = h
  · subst e
    simp only [marked, modify, if_true, Option.map_map]
    rfl
  · simp [marked, modify, e]

section Extract
variable {cs : ClassServer}

/-- The loop over the incoming set, given what the recursive calls do. -/
theorem extract_loop (fuel : Nat) (s₀ : AtomTable TV) (is : List Handle) (hs : Inv cs s₀)
    (hp : Pending s₀) (his : ∀ l ∈ is, l ∈ s₀.atomSet ∧ s₀.brkUuid ≤ l + fuel)
    (ih : ∀ (s : AtomTable TV) l, Inv cs s → Pending s → l ∈ s.atomSet → s.brkUuid ≤ l + fuel →
      ∃ s' res, extract fuel s l true = some (s', res) ∧ Extracted cs s s' res) :
    ∃ acc, is.foldlM (fun (acc : AtomTable TV × List Handle) l => do
          let b ← acc.1.handleMap l
          if b.markedForRemoval then some acc
          else
            let (s, extracted) ← extract fuel acc.1 l true
            some (s, extracted ++ acc.2)) (s₀, []) = some acc ∧
      Extracted cs s₀ acc.1 acc.2 := by
  refine Exists.imp (fun acc h => ⟨h.1, h.2.2⟩) (Fold.foldlM_some
    (fun rest (acc : AtomTable TV × List Handle) =>
      (∀ l ∈ rest, l ∈ s₀.atomSet ∧ s₀.brkUuid ≤ l + fuel) ∧ Extracted cs s₀ acc.1 acc.2)
    is (s₀, []) ⟨his, Extracted.refl hs hp⟩ ?_)
  rintro l rest ⟨s, res⟩ ⟨hrest, hx⟩
  replace hx : Extracted cs s₀ s res := hx
  have hlater : ∀ l ∈ rest, l ∈ s₀.atomSet ∧ s₀.brkUuid ≤ l + fuel :=
    fun g hg => hrest g (List.mem_cons_of_mem l hg)
  obtain ⟨hl, hfuel⟩ := hrest l List.mem_cons_self
  obtain ⟨t, b, hk⟩ := hs.live l hl
  rw [← hx.key] at hk
  obtain ⟨c, hc, -, -⟩ := exists_of_key hk
  simp only [hc, Option.bind_eq_bind, Option.bind_some]
  cases hmark : c.markedForRemoval with
  | true => exact ⟨(s, res), rfl, hlater, hx⟩
  | false =>
    -- an unmarked record is that of a stored atom
    have hls : l ∈ s.atomSet := by
      by_contra hn
      have := (hx.pending l hn (by rw [hc]; simp)).1
      simp [marked, hc, hmark] at this
    obtain ⟨s', res', he, hx'⟩ := ih s l hx.inv hx.pending hls (hx.brkUuid ▸ hfuel)
    exact ⟨(s', res' ++ res), by simp [he], hlater, hx.trans hx'⟩

/-- On a table with the invariant `extract` returns: nothing throws, and a
bound that reaches past the last handle is never spent. -/
theorem extract_spec (fuel : Nat) (s : AtomTable TV) (h : Handle) (recursive : Bool)
    (hs : Inv cs s) (hp : Pending s) (hfuel : 0 < fuel ∧ s.brkUuid ≤ h + fuel) :
    ∃ s' res, extract fuel s h recursive = some (s', res) ∧ Extracted cs s s' res := by
  induction fuel generalizing s h recursive with
  | zero => omega
  | succ fuel ih =>
    unfold extract
    cases ha : s.handleMap h with
    | none => exact ⟨s, [], rfl, Extracted.refl hs hp⟩
    | some a =>
    cases hmark : a.markedForRemoval with
    | true => exact ⟨s, [], by simp [hmark], Extracted.refl hs hp⟩
    | false =>
    have hm : h ∈ s.atomSet := by
      by_contra hn
      have := (hp h hn (by rw [ha]; simp)).1
      simp [marked, ha, hmark] at this
    set s₀ := s.modify h fun a => { a with markedForRemoval := true } with hs₀
    have hinv₀ : Inv cs s₀ := hs.setMark h true
    have hpend₀ : Pending s₀ := hp.setMark hm true
    have hkey₀ : s₀.key = s.key := key_modify s h (fun _ => rfl) (fun _ => rfl)
    have hmark₀ : s₀.marked h = true := by rw [hs₀, marked_setMark]; simp [ha]
    have hother₀ : ∀ g, s.marked g = true → g ≠ h ∧ s₀.marked g = true := by
      intro g hg
      have e : g ≠ h := by rintro rfl; simp [marked, ha, hmark] at hg
      rw [hs₀, marked_setMark, if_neg e]
      exact ⟨e, hg⟩
    obtain ⟨⟨s₁, res⟩, hloop, hx⟩ := extract_loop fuel s₀
      (if recursive then a.incoming.dedup.mergeSort else []) hinv₀ hpend₀
      (by
        intro l hl
        have hin : l ∈ s.incoming h := by
          rw [incoming_of_some ha]
          split at hl
          · exact List.mem_dedup.mp (List.mem_mergeSort.mp hl)
          · cases hl
        obtain ⟨hls, hlt⟩ := hs.lt_of_incoming hm hin
        exact ⟨hls, by change s.brkUuid ≤ l + fuel; lia⟩)
      (fun s l hs hp hl hb => ih s l true hs hp ⟨by have := hs.lt_brk hl; lia, hb⟩)
    replace hx : Extracted cs s₀ s₁ res := hx
    have hm₁ : h ∈ s₁.atomSet := (hx.atomSet h).mpr ⟨hm, (hx.marked h hmark₀).2⟩
    have hmark₁ : s₁.marked h = true := (hx.marked h hmark₀).1
    obtain ⟨t, b, hk⟩ := hx.inv.live h hm₁
    obtain ⟨c, hc, -, -⟩ := exists_of_key hk
    simp only [hmark, Bool.false_eq_true, if_false]
    rw [hloop]
    simp only [Option.bind_eq_bind, Option.bind_some, hc]
    by_cases hin : c.incoming = []
    · obtain ⟨s₂, hd, hrem, hmk, hempty, habs⟩ := removed_of_detach hx.inv hm₁ hc
      have hinv₂ : Inv cs s₂ := hx.inv.removed hrem (by
        rintro x - rfl l hl
        rw [incoming_of_some hc, hin] at hl
        cases hl)
      refine ⟨s₂, h :: res, by simp [hin, hd], ?_⟩
      refine ⟨hinv₂, ?_, ?_, ?_, ?_, ?_, ?_, ?_⟩
      · intro g hg hsome
        have hsome₁ : s₁.handleMap g ≠ none := mt (habs g).mpr hsome
        by_cases e : g = h
        · subst e
          exact ⟨by rw [hmk]; exact hmark₁, hempty g (by rw [incoming_of_some hc, hin])⟩
        · have hg₁ : g ∉ s₁.atomSet := fun hm' => hg ((hrem.atomSet g).mpr ⟨hm', e⟩)
          obtain ⟨p, q⟩ := hx.pending g hg₁ hsome₁
          exact ⟨by rw [hmk]; exact p, hempty g q⟩
      · rw [hrem.key, hx.key, hkey₀]
      · rw [hrem.brkUuid, hx.brkUuid]; rfl
      · intro g
        rw [hrem.atomSet, hx.atomSet, List.mem_cons, not_or]
        change (g ∈ s.atomSet ∧ _) ∧ _ ↔ _
        tauto
      · exact List.nodup_cons.mpr ⟨(hx.marked h hmark₀).2, hx.nodup⟩
      · intro g hg
        rcases List.mem_cons.mp hg with rfl | hg
        · exact hm
        · exact hx.stored g hg
      · intro g hg
        obtain ⟨e, hg₀⟩ := hother₀ g hg
        obtain ⟨hg₁, hn⟩ := hx.marked g hg₀
        refine ⟨by rw [hmk]; exact hg₁, ?_⟩
        rw [List.mem_cons, not_or]
        exact ⟨e, hn⟩
    · refine ⟨s₁.modify h fun a => { a with markedForRemoval := false }, res, by simp [hin], ?_⟩
      refine ⟨hx.inv.setMark h false, hx.pending.setMark hm₁ false, ?_, ?_, ?_, hx.nodup, hx.stored,
        ?_⟩
      · rw [← hkey₀, ← hx.key]
        exact key_modify s₁ h (fun _ => rfl) (fun _ => rfl)
      · exact hx.brkUuid
      · exact hx.atomSet
      · intro g hg
        obtain ⟨e, hg₀⟩ := hother₀ g hg
        obtain ⟨hg₁, hn⟩ := hx.marked g hg₀
        rw [marked_setMark, if_neg e]
        exact ⟨hg₁, hn⟩

/-! ## Deleting extracted atoms -/

/-- `Pending` but for the atoms of a list about to be deleted. -/
def PendingBut (s : AtomTable TV) (res : List Handle) : Prop :=
  ∀ h, h ∉ s.atomSet → h ∉ res → s.handleMap h ≠ none → s.marked h = true ∧ s.incoming h = []

theorem deleteAtom_spec {s : AtomTable TV} {h : Handle} {res : List Handle} (hs : Inv cs s)
    (hp : PendingBut s (h :: res)) (hn : h ∉ s.atomSet) (hsome : s.handleMap h ≠ none)
    (hin : s.incoming h = []) :
    ∃ s', s.deleteAtom h = some s' ∧ Inv cs s' ∧ PendingBut s' res ∧ s'.atomSet = s.atomSet ∧
      ∀ g, g ≠ h → s'.handleMap g = s.handleMap g := by
  obtain ⟨a, ha⟩ := Option.ne_none_iff_exists'.mp hsome
  rw [incoming_of_some ha] at hin
  refine ⟨_, by simp only [AtomTable.deleteAtom, ha, hin, if_true], hs.deleteAtom hn, ?_, rfl, ?_⟩
  · intro g hg hres hg'
    by_cases e : g = h
    · simp [e] at hg'
    · simp only [e, if_false] at hg'
      simpa [marked, incoming, e] using hp g hg (by simp [e, hres]) hg'
  · intro g e; simp [e]

theorem removeExtractedHandles_spec {s : AtomTable TV} {res : List Handle} (hs : Inv cs s)
    (hp : PendingBut s res) (hnd : res.Nodup)
    (hres : ∀ g ∈ res, g ∉ s.atomSet ∧ s.handleMap g ≠ none ∧ s.incoming g = []) :
    ∃ s', s.removeExtractedHandles res = some s' ∧ Inv cs s' ∧ Pending s' := by
  refine Exists.imp (fun s' h => ⟨h.1, h.2.2.2.1, fun g hg => h.2.2.2.2.1 g hg (by simp)⟩)
    (Fold.foldlM_some
      (fun rest (s' : AtomTable TV) => rest.Nodup ∧
        (∀ g ∈ rest, g ∉ s.atomSet ∧ s'.handleMap g ≠ none ∧ s'.incoming g = []) ∧ Inv cs s' ∧
        PendingBut s' rest ∧ s'.atomSet = s.atomSet)
      res.reverse s ⟨List.nodup_reverse.mpr hnd, by simpa using hres, hs, by
        intro g hg hn; exact hp g hg (by simpa using hn), rfl⟩ ?_)
  rintro g rest s₁ ⟨hnd, hrest, hi, hp, he⟩
  obtain ⟨hg, hsome, hin⟩ := hrest g List.mem_cons_self
  obtain ⟨s₂, h₂, hi₂, hp₂, he₂, hother⟩ := deleteAtom_spec hi hp (he ▸ hg) hsome hin
  obtain ⟨hng, hnd⟩ := List.nodup_cons.mp hnd
  refine ⟨s₂, h₂, hnd, ?_, hi₂, hp₂, he₂.trans he⟩
  intro k hk
  have hkg : s₂.handleMap k = s₁.handleMap k := hother k (fun e => hng (e ▸ hk))
  simpa only [incoming, hkg] using hrest k (List.mem_cons_of_mem g hk)

/-- `s` without the records of `res`. -/
def without (s : AtomTable TV) (res : List Handle) : AtomTable TV :=
  { s with handleMap := fun g => if g ∈ res then none else s.handleMap g }

/-- Deletion succeeds on atoms nothing refers to, and forgets their records. -/
theorem removeExtractedHandles_eq {s : AtomTable TV} {res : List Handle} (hnd : res.Nodup)
    (hres : ∀ g ∈ res, s.handleMap g ≠ none ∧ s.incoming g = []) :
    s.removeExtractedHandles res = some (s.without res) := by
  unfold AtomTable.removeExtractedHandles
  have hrev : s.without res = s.without res.reverse := by simp [without]
  rw [hrev]
  replace hres : ∀ g ∈ res.reverse, s.handleMap g ≠ none ∧ s.incoming g = [] :=
    fun g hg => hres g (List.mem_reverse.mp hg)
  replace hnd := List.nodup_reverse.mpr hnd
  clear hrev
  generalize res.reverse = xs at hnd hres ⊢
  induction xs generalizing s with
  | nil => simp [without]
  | cons h xs ih =>
    obtain ⟨hh, hnd⟩ := List.nodup_cons.mp hnd
    obtain ⟨hsome, hin⟩ := hres h List.mem_cons_self
    obtain ⟨a, ha⟩ := Option.ne_none_iff_exists'.mp hsome
    rw [incoming_of_some ha] at hin
    set s₁ : AtomTable TV :=
      { s with handleMap := fun g => if g = h then none else s.handleMap g } with hs₁
    have hdel : s.deleteAtom h = some s₁ := by simp [AtomTable.deleteAtom, ha, hin, hs₁]
    have hother : ∀ g ∈ xs, s₁.handleMap g = s.handleMap g := by
      intro g hg
      have e : g ≠ h := fun e => hh (e ▸ hg)
      simp [hs₁, e]
    have hwithout : s₁.without xs = s.without (h :: xs) := by
      simp only [without, hs₁, List.mem_cons]
      congr 1
      funext g
      by_cases e : g = h
      · simp [e]
      · simp [e]
    have hstep := ih (s := s₁) hnd fun g hg => by
      simpa only [incoming, hother g hg] using hres g (List.mem_cons_of_mem h hg)
    rw [List.foldlM_cons, hdel, Option.bind_eq_bind, Option.bind_some, hstep, hwithout]

/-- `remove` returns and keeps the invariant. -/
theorem remove_spec {s : AtomTable TV} (hs : Inv cs s) (hp : Pending s) (h : Handle)
    (recursive : Bool) :
    ∃ s', s.remove h recursive = some s' ∧ Inv cs s' ∧ Pending s' := by
  obtain ⟨s₁, res, he, hx⟩ := extract_spec (s.brkUuid + 1) s h recursive hs hp ⟨by lia, by lia⟩
  have hgone : ∀ g ∈ res, g ∉ s₁.atomSet := fun g hg hm => ((hx.atomSet g).mp hm).2 hg
  obtain ⟨s₂, h₂, hi, hp₂⟩ := removeExtractedHandles_spec hx.inv
    (fun g hg _ => hx.pending g hg) hx.nodup (by
      intro g hg
      have hsome : s₁.handleMap g ≠ none := by
        obtain ⟨t, b, hk⟩ := hs.live g (hx.stored g hg)
        rw [← hx.key] at hk
        obtain ⟨c, hc, -, -⟩ := exists_of_key hk
        rw [hc]; simp
      exact ⟨hgone g hg, hsome, (hx.pending g (hgone g hg) hsome).2⟩)
  exact ⟨s₂, by simp [AtomTable.remove, he, h₂], hi, hp₂⟩

end Extract

end AtomTable

end OpenCog
