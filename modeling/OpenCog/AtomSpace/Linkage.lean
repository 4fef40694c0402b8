import OpenCog.AtomSpace.Extraction

/-! What holds of the records of a table whatever is added to it, with long links and
odd names included: incoming lists mirror the members a loop up to the arity visits,
and extraction takes out exactly the atoms it returns. -/
namespace OpenCog

variable {TV : Type}

namespace AtomTable
open Index

/-- The atom is filed in the type index, as all lookups of atoms need. -/
def isStored (s : AtomTable TV) (h : Handle) : Bool :=
  ((s.handleMap h).map fun a => decide (h ∈ s.typeIndex a.type)).getD false

def targetsOf (s : AtomTable TV) (h : Handle) : List Handle :=
  ((s.handleMap h).map fun a => a.body.targets).getD []

structure Linked (s : AtomTable TV) : Prop where
  fresh : ∀ h, s.brkUuid ≤ h → s.handleMap h = none
  /-- An atom that is not marked is stored. -/
  unmarked : ∀ h, s.handleMap h ≠ none → s.marked h = false → s.isStored h = true
  below : ∀ l, s.isStored l = true → ∀ x ∈ s.targetsOf l, x < l ∧ s.handleMap x ≠ none
  dual : ∀ x, s.handleMap x ≠ none → ∀ l,
    (s.incoming x).count l = if s.isStored l then (s.targetsOf l).count x else 0

/-! ## Reading -/

theorem targetsOf_eq (s : AtomTable TV) (h : Handle) :
    s.targetsOf h = ((s.key h).map fun k => k.2.targets).getD [] := by
  simp only [targetsOf, key, Option.map_map]
  rfl

theorem isStored_eq (s : AtomTable TV) (h : Handle) :
    s.isStored h = ((s.key h).map fun k => decide (h ∈ s.typeIndex k.1)).getD false := by
  simp only [isStored, key, Option.map_map]
  rfl

theorem exists_of_isStored {s : AtomTable TV} {h : Handle} (hs : s.isStored h = true) :
    ∃ a, s.handleMap h = some a ∧ h ∈ s.typeIndex a.type := by
  cases ha : s.handleMap h with
  | none => simp [isStored, ha] at hs
  | some a =>
    simp only [isStored, ha, Option.map_some, Option.getD_some, decide_eq_true_eq] at hs
    exact ⟨a, rfl, hs⟩

theorem SameKeys.isStored {s s' : AtomTable TV} (e : SameKeys s s') (h : Handle) :
    s'.isStored h = s.isStored h := by
  rw [isStored_eq, isStored_eq, e.key, e.typeIndex]

theorem SameKeys.targetsOf {s s' : AtomTable TV} (e : SameKeys s s') (h : Handle) :
    s'.targetsOf h = s.targetsOf h := by
  rw [targetsOf_eq, targetsOf_eq, e.key]

/-- A write that keeps keys, incoming lists and marks keeps the linkage. -/
theorem Linked.of_sameKeys {s s' : AtomTable TV} (hs : Linked s) (e : SameKeys s s')
    (hin : s'.incoming = s.incoming)
    (hmark : ∀ h, s.isStored h = false → s'.marked h = s.marked h) : Linked s' where
  fresh h hh := (e.absent h).mpr (hs.fresh h (e.brkUuid ▸ hh))
  unmarked h hsome hm := by
    rw [e.isStored]
    by_contra hn
    rw [Bool.not_eq_true] at hn
    rw [hmark h hn] at hm
    rw [hs.unmarked h (mt (e.absent h).mpr hsome) hm] at hn
    cases hn
  below l hl x hx := by
    rw [e.isStored] at hl
    rw [e.targetsOf] at hx
    obtain ⟨hlt, hsome⟩ := hs.below l hl x hx
    exact ⟨hlt, mt (e.absent x).mp hsome⟩
  dual x hx l := by
    rw [hin, e.isStored, e.targetsOf]
    exact hs.dual x (mt (e.absent x).mpr hx) l

theorem Linked.modify {s : AtomTable TV} (hs : Linked s) (h : Handle) {f : Atom TV → Atom TV}
    (ht : ∀ a, (f a).type = a.type) (hb : ∀ a, (f a).body = a.body)
    (hm : ∀ a, (f a).markedForRemoval = a.markedForRemoval)
    (hi : ∀ a, (f a).incoming = a.incoming) : Linked (s.modify h f) :=
  hs.of_sameKeys (sameKeys_modify s h ht hb) (incoming_modify s h hi)
    fun _ _ => by rw [marked_modify s h hm]

theorem Linked.setMark {s : AtomTable TV} (hs : Linked s) {h : Handle} (hst : s.isStored h = true)
    (m : Bool) : Linked (s.modify h fun a => { a with markedForRemoval := m }) := by
  refine hs.of_sameKeys (sameKeys_modify s h (fun _ => rfl) (fun _ => rfl))
    (incoming_modify s h fun _ => rfl) fun g hg => ?_
  rw [marked_setMark, if_neg]
  rintro rfl
  rw [hst] at hg
  cases hg

/-- Who refers to a record: the stored links with it among their targets. -/
theorem Linked.mem_incoming {s : AtomTable TV} (hs : Linked s) {x : Handle}
    (hx : s.handleMap x ≠ none) (l : Handle) :
    l ∈ s.incoming x ↔ s.isStored l = true ∧ x ∈ s.targetsOf l := by
  rw [← List.count_pos_iff, hs.dual x hx l]
  by_cases hl : s.isStored l = true
  · simp [hl, List.count_pos_iff]
  · simp [hl]

theorem Linked.lt_brk {s : AtomTable TV} (hs : Linked s) {h : Handle} (hh : s.handleMap h ≠ none) :
    h < s.brkUuid := by
  by_contra hn
  exact hh (hs.fresh h (Nat.le_of_not_lt hn))

theorem linked_empty : Linked (empty : AtomTable TV) :=
  ⟨fun _ _ => rfl, fun _ h => absurd rfl h, fun _ h => by simp [isStored, empty] at h,
    fun _ h => absurd rfl h⟩

/-! ## One atom leaves -/

/-- The atom leaves the type index and the incoming lists; all else stays. -/
theorem Linked.detach {s : AtomTable TV} (hs : Linked s) {h : Handle} {a : Atom TV}
    (ha : s.handleMap h = some a) (hst : s.isStored h = true) (hm : s.marked h = true) :
    ∃ s', s.detach h a = some s' ∧ Linked s' ∧ s'.key = s.key ∧ s'.avOf = s.avOf ∧
      s'.brkUuid = s.brkUuid ∧ (∀ g, s'.marked g = s.marked g) ∧
      (∀ g, s'.isStored g = (s.isStored g && decide (g ≠ h))) := by
  set s₁ := (eraseAtom { s with size := s.size - 1 } a).removeHandle h a with hs₁
  have htargets : s.targetsOf h = a.body.targets := by simp [targetsOf, ha]
  have hkey : s₁.key = s.key := rfl
  have hstored₁ : ∀ g, s₁.isStored g = (s.isStored g && decide (g ≠ h)) := by
    intro g
    rw [isStored_eq, isStored_eq, hkey]
    cases hk : s.key g with
    | none => rfl
    | some k =>
      have : g ∈ s₁.typeIndex k.1 ↔ g ∈ s.typeIndex k.1 ∧ ¬ (k.1 = a.type ∧ g = h) :=
        mem_removeAt
      simp only [Option.map_some, Option.getD_some, Bool.decide_and, this]
      by_cases e : g = h
      · subst e
        rw [key_of_some ha, Option.some.injEq] at hk
        simp [← hk]
      · simp [e]
  have henough : ∀ x ∈ a.body.targets, a.body.targets.count x ≤ (s₁.incoming x).count h := by
    intro x hx
    have hx' := (hs.below h hst x (htargets ▸ hx)).2
    have : (s₁.incoming x).count h = a.body.targets.count x := by
      rw [← htargets]
      exact (hs.dual x hx' h).trans (by rw [if_pos hst])
    exact Nat.le_of_eq this.symm
  obtain ⟨s', hs', same, hmark, hcount⟩ := foldlM_removeIncomingHandle h a.body.targets s₁ henough
  have hstored : ∀ g, s'.isStored g = (s.isStored g && decide (g ≠ h)) := fun g => by
    rw [same.isStored, hstored₁]
  refine ⟨s', hs', ⟨?_, ?_, ?_, ?_⟩, same.key, same.avOf, same.brkUuid, hmark, hstored⟩
  · exact fun g hg => (same.absent g).mpr (hs.fresh g (same.brkUuid ▸ hg))
  · intro g hsome hmk
    rw [hmark] at hmk
    have hne : g ≠ h := by
      rintro rfl
      rw [show s₁.marked g = s.marked g from rfl, hm] at hmk
      cases hmk
    have := hs.unmarked g (mt (same.absent g).mpr hsome) hmk
    simp [hstored, this, hne]
  · intro l hl x hx
    rw [hstored, Bool.and_eq_true] at hl
    have hx' : x ∈ s.targetsOf l := by rwa [same.targetsOf] at hx
    obtain ⟨hlt, hsome⟩ := hs.below l hl.1 x hx'
    exact ⟨hlt, mt (same.absent x).mp hsome⟩
  · intro x hx l
    have hx' : s.handleMap x ≠ none := mt (same.absent x).mpr hx
    have hd : (s₁.incoming x).count l = if s.isStored l then (s.targetsOf l).count x else 0 :=
      hs.dual x hx' l
    rw [hcount, hd, same.targetsOf, show s₁.targetsOf l = s.targetsOf l from rfl, hstored]
    by_cases e : l = h
    · subst e
      simp [hst, htargets]
    · simp [e]

/-! ## Recursive extraction -/

/-- `l` is `h`, or reaches it over stored links. -/
def Above (s : AtomTable TV) (h l : Handle) : Prop :=
  Relation.ReflTransGen (fun x l => s.isStored l = true ∧ x ∈ s.targetsOf l) h l

/-- What a call of `extract` did: the atoms of `res` are stored no more and nothing
refers to them. A link stands behind its targets in `res`. -/
structure TakenOut (s s' : AtomTable TV) (res : List Handle) : Prop where
  linked : Linked s'
  key : s'.key = s.key
  avOf : s'.avOf = s.avOf
  brkUuid : s'.brkUuid = s.brkUuid
  stored : ∀ g, s'.isStored g = (s.isStored g && decide (g ∉ res))
  was : ∀ g ∈ res, s.isStored g = true
  nodup : res.Nodup
  bare : ∀ g ∈ res, s'.incoming g = []
  order : res.Pairwise fun g l => l ∉ s.targetsOf g
  marked : ∀ g, s.marked g = true → s'.marked g = true ∧ g ∉ res
  unmarked : ∀ g, s'.isStored g = true → s'.marked g = true → s.marked g = true

theorem handleMap_ne_none {s : AtomTable TV} {h : Handle} :
    s.handleMap h ≠ none ↔ s.key h ≠ none := by
  simp [key]

theorem Linked.incoming_eq_nil {s : AtomTable TV} (hs : Linked s) {x : Handle}
    (hx : s.handleMap x ≠ none) :
    s.incoming x = [] ↔ ∀ l, s.isStored l = true → x ∉ s.targetsOf l := by
  rw [List.eq_nil_iff_forall_not_mem]
  simp only [hs.mem_incoming hx, not_and]

namespace TakenOut

theorem refl {s : AtomTable TV} (hs : Linked s) : TakenOut s s [] :=
  ⟨hs, rfl, rfl, rfl, by simp, by simp, List.nodup_nil, by simp, .nil, by simp, fun _ _ h => h⟩

variable {a b c : AtomTable TV} {p q : List Handle}

theorem targetsOf (h : TakenOut a b p) (g : Handle) : b.targetsOf g = a.targetsOf g := by
  rw [targetsOf_eq, targetsOf_eq, h.key]

theorem stored_iff (h : TakenOut a b p) (g : Handle) :
    b.isStored g = true ↔ a.isStored g = true ∧ g ∉ p := by
  rw [h.stored, Bool.and_eq_true, decide_eq_true_eq]

theorem record (h : TakenOut a b p) {g : Handle} (hg : g ∈ p) : b.handleMap g ≠ none := by
  obtain ⟨x, hx, -⟩ := exists_of_isStored (h.was g hg)
  rw [handleMap_ne_none, h.key, ← handleMap_ne_none, hx]
  exact Option.some_ne_none x

/-- No stored atom refers to one that was taken out. -/
theorem not_target (h : TakenOut a b p) {g l : Handle} (hg : g ∈ p) (hl : b.isStored l = true) :
    g ∉ a.targetsOf l := by
  rw [← h.targetsOf]
  exact (h.linked.incoming_eq_nil (h.record hg)).mp (h.bare g hg) l hl

theorem trans (h : TakenOut a b p) (k : TakenOut b c q) : TakenOut a c (q ++ p) where
  linked := k.linked
  key := k.key.trans h.key
  avOf := k.avOf.trans h.avOf
  brkUuid := k.brkUuid.trans h.brkUuid
  stored g := by
    rw [k.stored, h.stored]
    simp only [List.mem_append, not_or, Bool.decide_and, Bool.and_assoc,
      Bool.and_comm (decide (g ∉ q))]
  was g hg := by
    rcases List.mem_append.mp hg with hq | hp
    · exact ((h.stored_iff g).mp (k.was g hq)).1
    · exact h.was g hp
  nodup := by
    refine List.nodup_append'.mpr ⟨k.nodup, h.nodup, ?_⟩
    intro g hq hp
    exact ((h.stored_iff g).mp (k.was g hq)).2 hp
  bare g hg := by
    rcases List.mem_append.mp hg with hq | hp
    · exact k.bare g hq
    · have hsome : c.handleMap g ≠ none := by
        rw [handleMap_ne_none, k.key, ← handleMap_ne_none]
        exact h.record hp
      refine (k.linked.incoming_eq_nil hsome).mpr fun l hl => ?_
      rw [k.targetsOf, h.targetsOf]
      exact h.not_target hp ((k.stored_iff l).mp hl).1
  order := by
    refine List.pairwise_append.mpr ⟨k.order.imp fun hg => ?_, h.order, fun g hg l hl => ?_⟩
    · rwa [← h.targetsOf]
    · exact h.not_target hl (k.was g hg)
  marked g hg := by
    obtain ⟨hb, hp⟩ := h.marked g hg
    obtain ⟨hc, hq⟩ := k.marked g hb
    exact ⟨hc, fun hm => (List.mem_append.mp hm).elim hq hp⟩
  unmarked g hst hg := h.unmarked g ((k.stored_iff g).mp hst).1 (k.unmarked g hst hg)

/-- Whatever reaches an atom that was taken out was taken out with it. -/
theorem mem_of_above (h : TakenOut a b p) {x l : Handle} (hx : x ∈ p) (hl : a.Above x l) :
    l ∈ p := by
  induction hl with
  | refl => exact hx
  | tail _ hedge ih =>
    by_contra hn
    exact h.not_target ih ((h.stored_iff _).mpr ⟨hedge.1, hn⟩) hedge.2

end TakenOut

theorem SameKeys.above {s s' : AtomTable TV} (e : SameKeys s s') {h l : Handle} :
    s'.Above h l ↔ s.Above h l := by
  simp only [Above, e.isStored, e.targetsOf]

theorem TakenOut.above {s s' : AtomTable TV} {p : List Handle} (h : TakenOut s s' p)
    {x l : Handle} (hl : s'.Above x l) : s.Above x l := by
  refine Relation.ReflTransGen.mono ?_ x l hl
  intro y g hg
  exact ⟨((h.stored_iff g).mp hg.1).1, h.targetsOf g ▸ hg.2⟩

/-- A call of `extract` on `h`: what it took out stands above `h`; a recursive call takes
`h` itself unless it or a link above it is in the middle of another call. -/
structure Taken (s s' : AtomTable TV) (h : Handle) (recursive : Bool) (res : List Handle) :
    Prop extends TakenOut s s' res where
  started : ∀ g ∈ res, s.isStored h = true
  above : ∀ g ∈ res, s.Above h g
  taken : recursive = true → s.isStored h = true →
    (∀ g, s.isStored g = true → s.marked g = true → g < h) → h ∈ res
  alone : recursive = false → s.isStored h = true → s.marked h = false →
    res = if s.incoming h = [] then [h] else []

theorem taken_loop (fuel : Nat) (s₀ : AtomTable TV) (h : Handle) (is : List Handle)
    (hs : Linked s₀)
    (his : ∀ l ∈ is, s₀.isStored l = true ∧ h ∈ s₀.targetsOf l ∧ s₀.brkUuid ≤ l + fuel)
    (ih : ∀ (s : AtomTable TV) l, Linked s → s.handleMap l ≠ none → s.brkUuid ≤ l + fuel →
      ∃ s' res, extract fuel s l true = some (s', res) ∧ Taken s s' l true res) :
    ∃ acc, is.foldlM (fun (acc : AtomTable TV × List Handle) l => do
          let b ← acc.1.handleMap l
          if b.markedForRemoval then some acc
          else
            let (s, extracted) ← extract fuel acc.1 l true
            some (s, extracted ++ acc.2)) (s₀, []) = some acc ∧
      TakenOut s₀ acc.1 acc.2 ∧ (∀ g ∈ acc.2, s₀.Above h g) ∧
      ((∀ g, s₀.isStored g = true → s₀.marked g = true → g ≤ h) → ∀ l ∈ is, l ∈ acc.2) := by
  refine Exists.imp (fun acc p => ⟨p.1, p.2.2.1, p.2.2.2.1, fun hm l hl =>
    (p.2.2.2.2 hm l hl).resolve_right List.not_mem_nil⟩) (Fold.foldlM_some
    (fun rest (acc : AtomTable TV × List Handle) =>
      (∀ l ∈ rest, l ∈ is) ∧ TakenOut s₀ acc.1 acc.2 ∧ (∀ g ∈ acc.2, s₀.Above h g) ∧
      ((∀ g, s₀.isStored g = true → s₀.marked g = true → g ≤ h) → ∀ l ∈ is, l ∈ acc.2 ∨ l ∈ rest))
    is (s₀, []) ⟨fun _ hl => hl, .refl hs, by simp, fun _ _ hl => .inr hl⟩ ?_)
  rintro l rest ⟨s, res⟩ ⟨hrest, hx, habove, htaken⟩
  replace hx : TakenOut s₀ s res := hx
  obtain ⟨hst, hmem, hfuel⟩ := his l (hrest l List.mem_cons_self)
  have hlt : h < l := (hs.below l hst h hmem).1
  obtain ⟨c, hc⟩ : ∃ c, s.handleMap l = some c := by
    obtain ⟨b, hb, -⟩ := exists_of_isStored hst
    have hl : s₀.handleMap l ≠ none := by rw [hb]; simp
    rw [handleMap_ne_none, ← hx.key, ← handleMap_ne_none] at hl
    exact Option.ne_none_iff_exists'.mp hl
  have hlater : ∀ g ∈ rest, g ∈ is := fun g hg => hrest g (List.mem_cons_of_mem l hg)
  -- the links still to come are those of before, but for `l`
  have hsplit : ∀ res' : List Handle, (∀ g ∈ res, g ∈ res') → l ∈ res' →
      (∀ g ∈ is, g ∈ res ∨ g ∈ l :: rest) → ∀ g ∈ is, g ∈ res' ∨ g ∈ rest := by
    intro res' hsub hl hold g hg
    rcases hold g hg with hg | hg
    · exact .inl (hsub g hg)
    · rcases List.mem_cons.mp hg with rfl | hg
      · exact .inl hl
      · exact .inr hg
  simp only [hc, Option.bind_eq_bind, Option.bind_some]
  cases hmark : c.markedForRemoval with
  | true =>
    refine ⟨(s, res), rfl, hlater, hx, habove, fun hm => ?_⟩
    refine hsplit res (fun _ hg => hg) ?_ (htaken hm)
    by_contra hn
    have hstored := (hx.stored_iff l).mpr ⟨hst, hn⟩
    have := hm l hst (hx.unmarked l hstored (by simp [marked, hc, hmark]))
    lia
  | false =>
    obtain ⟨s', res', he, hx'⟩ := ih s l hx.linked (by rw [hc]; simp) (hx.brkUuid ▸ hfuel)
    refine ⟨(s', res' ++ res), by simp [he], hlater, hx.trans hx'.toTakenOut, ?_, fun hm => ?_⟩
    · intro g hg
      rcases List.mem_append.mp hg with hg | hg
      · exact Relation.ReflTransGen.head ⟨hst, hmem⟩ (hx.above (hx'.above g hg))
      · exact habove g hg
    · refine hsplit _ (fun g hg => List.mem_append_right _ hg) (List.mem_append_left _ ?_) (htaken hm)
      refine hx'.taken rfl (hx.linked.unmarked l (by rw [hc]; simp) (by simp [marked, hc, hmark])) ?_
      intro g hg hgm
      have := hm g ((hx.stored_iff g).mp hg).1 (hx.unmarked g hg hgm)
      lia

/-- `s₀` is `s` with the mark of `h` set. -/
structure Marking (s s₀ : AtomTable TV) (h : Handle) : Prop where
  same : SameKeys s s₀
  avOf : s₀.avOf = s.avOf
  incoming : s₀.incoming = s.incoming
  set : s₀.marked h = true
  kept : ∀ g, s.marked g = true → g ≠ h ∧ s₀.marked g = true
  back : ∀ g, g ≠ h → s₀.marked g = true → s.marked g = true

theorem marking_modify {s : AtomTable TV} {h : Handle} (hsome : s.handleMap h ≠ none)
    (hm : s.marked h = false) :
    Marking s (s.modify h fun a => { a with markedForRemoval := true }) h where
  same := sameKeys_modify s h (fun _ => rfl) (fun _ => rfl)
  avOf := avOf_modify s h fun _ => rfl
  incoming := incoming_modify s h fun _ => rfl
  set := by
    obtain ⟨a, ha⟩ := Option.ne_none_iff_exists'.mp hsome
    rw [marked_setMark]
    simp [ha]
  kept g hg := by
    have e : g ≠ h := by
      rintro rfl
      rw [hm] at hg
      cases hg
    rw [marked_setMark, if_neg e]
    exact ⟨e, hg⟩
  back g e hg := by
    rwa [marked_setMark, if_neg e] at hg

section Leaving
variable {s s₀ s₁ : AtomTable TV} {h : Handle} {res : List Handle} {c : Atom TV}

/-- The links above `h` were taken, and now `h` itself is. -/
theorem TakenOut.detach (hx : TakenOut s₀ s₁ res) (m : Marking s s₀ h)
    (hst : s.isStored h = true) (hc : s₁.handleMap h = some c) (hin : c.incoming = []) :
    ∃ s₂, s₁.detach h c = some s₂ ∧ TakenOut s s₂ (h :: res) := by
  have hnot : h ∉ res := (hx.marked h m.set).2
  have hst₁ : s₁.isStored h = true :=
    (hx.stored_iff h).mpr ⟨(m.same.isStored h).trans hst, hnot⟩
  obtain ⟨s₂, hd, hl₂, hkey, hav, hbrk, hmk, hstored⟩ :=
    hx.linked.detach hc hst₁ (hx.marked h m.set).1
  have hbare : ∀ g, s₁.handleMap g ≠ none → s₁.incoming g = [] → s₂.incoming g = [] := by
    intro g hg h0
    have hg₂ : s₂.handleMap g ≠ none := by
      rwa [handleMap_ne_none, hkey, ← handleMap_ne_none]
    rw [hl₂.incoming_eq_nil hg₂]
    intro l hl
    rw [hstored, Bool.and_eq_true] at hl
    rw [targetsOf_eq, hkey, ← targetsOf_eq]
    exact (hx.linked.incoming_eq_nil hg).mp h0 l hl.1
  refine ⟨s₂, hd, hl₂, ?_, ?_, ?_, ?_, ?_, ?_, ?_, ?_, ?_, ?_⟩
  · rw [hkey, hx.key, m.same.key]
  · rw [hav, hx.avOf, m.avOf]
  · rw [hbrk, hx.brkUuid, m.same.brkUuid]
  · intro g
    rw [hstored, hx.stored, m.same.isStored]
    simp only [List.mem_cons, not_or, Bool.decide_and, Bool.and_assoc,
      Bool.and_comm (decide (g ≠ h))]
  · intro g hg
    rcases List.mem_cons.mp hg with rfl | hg
    · exact hst
    · exact (m.same.isStored g).symm.trans (hx.was g hg)
  · exact List.nodup_cons.mpr ⟨hnot, hx.nodup⟩
  · intro g hg
    rcases List.mem_cons.mp hg with rfl | hg
    · exact hbare g (by rw [hc]; simp) (by rw [incoming_of_some hc, hin])
    · exact hbare g (hx.record hg) (hx.bare g hg)
  · refine List.pairwise_cons.mpr ⟨fun g hg => ?_, hx.order.imp fun hg => ?_⟩
    · rw [← m.same.targetsOf]
      exact hx.not_target hg hst₁
    · rwa [← m.same.targetsOf]
  · intro g hg
    obtain ⟨e, hg₀⟩ := m.kept g hg
    obtain ⟨hg₁, hn⟩ := hx.marked g hg₀
    refine ⟨by rw [hmk]; exact hg₁, ?_⟩
    rw [List.mem_cons, not_or]
    exact ⟨e, hn⟩
  · intro g hst₂ hg
    rw [hstored, Bool.and_eq_true, decide_eq_true_eq] at hst₂
    rw [hmk] at hg
    exact m.back g hst₂.2 (hx.unmarked g hst₂.1 hg)

/-- A link above `h` is left, so `h` stays and loses its mark. -/
theorem TakenOut.unmark (hx : TakenOut s₀ s₁ res) (m : Marking s s₀ h)
    (hst : s.isStored h = true) (hc : s₁.handleMap h = some c) :
    TakenOut s (s₁.modify h fun a => { a with markedForRemoval := false }) res := by
  have hst₁ : s₁.isStored h = true :=
    (hx.stored_iff h).mpr ⟨(m.same.isStored h).trans hst, (hx.marked h m.set).2⟩
  have same₁ : SameKeys s₁ (s₁.modify h fun a => { a with markedForRemoval := false }) :=
    sameKeys_modify s₁ h (fun _ => rfl) (fun _ => rfl)
  have hin₁ : (s₁.modify h fun a => { a with markedForRemoval := false }).incoming =
      s₁.incoming := incoming_modify s₁ h fun _ => rfl
  have hav₁ : (s₁.modify h fun a => { a with markedForRemoval := false }).avOf = s₁.avOf :=
    avOf_modify s₁ h fun _ => rfl
  refine ⟨hx.linked.setMark hst₁ false, ?_, ?_, ?_, ?_, ?_, hx.nodup, ?_, hx.order.imp fun hg => ?_,
    ?_, ?_⟩
  · rw [same₁.key, hx.key, m.same.key]
  · rw [hav₁, hx.avOf, m.avOf]
  · rw [same₁.brkUuid, hx.brkUuid, m.same.brkUuid]
  · intro g
    rw [same₁.isStored, hx.stored, m.same.isStored]
  · exact fun g hg => (m.same.isStored g).symm.trans (hx.was g hg)
  · intro g hg
    rw [hin₁]
    exact hx.bare g hg
  · rwa [← m.same.targetsOf]
  · intro g hg
    obtain ⟨e, hg₀⟩ := m.kept g hg
    obtain ⟨hg₁, hn⟩ := hx.marked g hg₀
    rw [marked_setMark, if_neg e]
    exact ⟨hg₁, hn⟩
  · intro g hst₂ hg
    rw [marked_setMark] at hg
    by_cases e : g = h
    · rw [if_pos e] at hg
      simp [hc] at hg
    · rw [if_neg e] at hg
      exact m.back g e (hx.unmarked g ((same₁.isStored g).symm.trans hst₂) hg)

end Leaving

/-- `extract` returns whatever was added before. -/
theorem extract_takes (fuel : Nat) (s : AtomTable TV) (h : Handle) (recursive : Bool)
    (hs : Linked s) (hfuel : 0 < fuel ∧ s.brkUuid ≤ h + fuel) :
    ∃ s' res, extract fuel s h recursive = some (s', res) ∧ Taken s s' h recursive res := by
  induction fuel generalizing s h recursive with
  | zero => omega
  | succ fuel ih =>
    unfold extract
    cases ha : s.handleMap h with
    | none =>
      have hst : s.isStored h ≠ true := by simp [isStored, ha]
      exact ⟨s, [], rfl, .refl hs, by simp, by simp, fun _ h' => absurd h' hst,
        fun _ h' => absurd h' hst⟩
    | some a =>
    cases hmark : a.markedForRemoval with
    | true =>
      have hm : s.marked h = true := by simp [marked, ha, hmark]
      refine ⟨s, [], by simp [hmark], .refl hs, by simp, by simp, fun _ hst hall => ?_, fun _ _ hn => ?_⟩
      · exact absurd (hall h hst hm) (lt_irrefl h)
      · rw [hm] at hn
        cases hn
    | false =>
    have hsome : s.handleMap h ≠ none := by rw [ha]; simp
    have hm : s.marked h = false := by simp [marked, ha, hmark]
    have hst : s.isStored h = true := hs.unmarked h hsome hm
    set s₀ := s.modify h fun a => { a with markedForRemoval := true } with hs₀
    have m : Marking s s₀ h := marking_modify hsome hm
    obtain ⟨⟨s₁, res⟩, hloop, hx, habove, hall⟩ := taken_loop fuel s₀ h
      (if recursive then a.incoming.dedup.mergeSort else []) (hs.setMark hst true)
      (by
        intro l hl
        have hin : l ∈ s.incoming h := by
          rw [incoming_of_some ha]
          split at hl
          · exact List.mem_dedup.mp (List.mem_mergeSort.mp hl)
          · cases hl
        obtain ⟨hls, hmem⟩ := (hs.mem_incoming hsome l).mp hin
        have hlt := (hs.below l hls h hmem).1
        refine ⟨(m.same.isStored l).trans hls, by rwa [m.same.targetsOf], ?_⟩
        change s.brkUuid ≤ l + fuel
        lia)
      (fun s l hs hl hb => ih s l true hs ⟨by have := hs.lt_brk hl; lia, hb⟩)
    replace hx : TakenOut s₀ s₁ res := hx
    have hst₁ : s₁.isStored h = true :=
      (hx.stored_iff h).mpr ⟨(m.same.isStored h).trans hst, (hx.marked h m.set).2⟩
    obtain ⟨c, hc, -⟩ := exists_of_isStored hst₁
    simp only [hmark, Bool.false_eq_true, if_false]
    rw [hloop]
    simp only [Option.bind_eq_bind, Option.bind_some, hc]
    replace habove : ∀ g ∈ res, s.Above h g := fun g hg => m.same.above.mp (habove g hg)
    have hnone : recursive = false → s₁.incoming h = s.incoming h ∧ res = [] := by
      rintro rfl
      simp only [Bool.false_eq_true, if_false, List.foldlM_nil] at hloop
      obtain ⟨hs₁, hres⟩ := Prod.mk.inj (Option.some.inj hloop)
      rw [← hs₁, m.incoming]
      exact ⟨rfl, hres.symm⟩
    by_cases hin : c.incoming = []
    · obtain ⟨s₂, hd, hx₂⟩ := hx.detach m hst hc hin
      refine ⟨s₂, h :: res, by simp [hin, hd], hx₂, fun _ _ => hst, ?_,
        fun _ _ _ => List.mem_cons_self, ?_⟩
      · intro g hg
        rcases List.mem_cons.mp hg with rfl | hg
        · exact .refl
        · exact habove g hg
      · intro hrec _ _
        obtain ⟨hsame, hres⟩ := hnone hrec
        rw [incoming_of_some hc, hin] at hsame
        rw [if_pos hsame.symm, hres]
    · have hbare₁ : s₁.incoming h ≠ [] := by rwa [incoming_of_some hc]
      refine ⟨s₁.modify h fun a => { a with markedForRemoval := false }, res, by simp [hin],
        hx.unmark m hst hc, fun _ _ => hst, habove, ?_, ?_⟩
      · -- every link that referred to `h` was taken
        intro hrec _ hstack
        refine absurd ((hx.linked.incoming_eq_nil (by rw [hc]; simp)).mpr fun l hl hm => ?_) hbare₁
        have hm₀ : h ∈ s₀.targetsOf l := by rwa [hx.targetsOf] at hm
        have hl₀ := (hx.stored_iff l).mp hl
        refine hl₀.2 (hall ?_ l ?_)
        · intro g hg hgm
          by_cases e : g = h
          · exact e.le
          · exact (hstack g ((m.same.isStored g).symm.trans hg) (m.back g e hgm)).le
        · rw [hrec, if_pos rfl, List.mem_mergeSort, List.mem_dedup, ← incoming_of_some ha,
            hs.mem_incoming hsome]
          exact ⟨(m.same.isStored l).symm.trans hl₀.1, by rwa [← m.same.targetsOf]⟩
      · intro hrec _ _
        obtain ⟨hsame, hres⟩ := hnone hrec
        rw [hsame] at hbare₁
        rw [if_neg hbare₁, hres]

/-- The atoms that a removal of `h` takes out. -/
def Falls (s : AtomTable TV) (h : Handle) (recursive : Bool) (g : Handle) : Prop :=
  s.isStored h = true ∧ if recursive then s.Above h g else g = h ∧ s.incoming h = []

theorem Taken.mem_iff {s s' : AtomTable TV} {h : Handle} {recursive : Bool} {res : List Handle}
    (hx : Taken s s' h recursive res) (hclean : ∀ g, s.isStored g = true → s.marked g = false)
    {g : Handle} : g ∈ res ↔ s.Falls h recursive g := by
  cases recursive with
  | true =>
    refine ⟨fun hg => ⟨hx.started g hg, hx.above g hg⟩, fun hg => ?_⟩
    refine hx.mem_of_above (hx.taken rfl hg.1 fun k hk hm => ?_) hg.2
    rw [hclean k hk] at hm
    cases hm
  | false =>
    have halone := fun hst => hx.alone rfl hst (hclean h hst)
    constructor
    · intro hg
      have hst := hx.started g hg
      rw [halone hst] at hg
      split at hg
      · next hin => exact ⟨hst, List.mem_singleton.mp hg, hin⟩
      · cases hg
    · rintro ⟨hst, rfl, hin⟩
      rw [halone hst, if_pos hin]
      exact List.mem_singleton_self g

/-! ## Deleting a record -/

theorem Linked.deleteAtom {s : AtomTable TV} (hs : Linked s) {h : Handle}
    (hsome : s.handleMap h ≠ none) (hst : s.isStored h = false) (hin : s.incoming h = []) :
    ∃ s', s.deleteAtom h = some s' ∧ Linked s' ∧ s'.brkUuid = s.brkUuid ∧
      (∀ g, g ≠ h → s'.handleMap g = s.handleMap g) ∧ s'.typeIndex = s.typeIndex ∧
      s'.handleMap h = none := by
  obtain ⟨a, ha⟩ := Option.ne_none_iff_exists'.mp hsome
  have hbare : a.incoming = [] := by rwa [incoming_of_some ha] at hin
  set s' : AtomTable TV :=
    { s with handleMap := fun g => if g = h then none else s.handleMap g } with hs'
  have hother : ∀ g, g ≠ h → s'.handleMap g = s.handleMap g := fun g e => by simp [hs', e]
  have hself : s'.handleMap h = none := by simp [hs']
  have hstored : ∀ g, s'.isStored g = s.isStored g := by
    intro g
    by_cases e : g = h
    · subst e
      rw [hst]
      simp [isStored, hself]
    · simp only [isStored, hother g e]
      rfl
  have hrec : ∀ g, s'.handleMap g ≠ none → g ≠ h ∧ s.handleMap g ≠ none := by
    intro g hg
    have e : g ≠ h := by
      rintro rfl
      exact hg hself
    exact ⟨e, by rwa [← hother g e]⟩
  have htargets : ∀ l, s.isStored l = true → s'.targetsOf l = s.targetsOf l := by
    intro l hl
    have e : l ≠ h := by
      rintro rfl
      rw [hst] at hl
      cases hl
    simp only [targetsOf, hother l e]
  refine ⟨s', by simp [AtomTable.deleteAtom, ha, hbare, hs'], ⟨?_, ?_, ?_, ?_⟩, rfl, hother, rfl,
    hself⟩
  · intro g hg
    by_cases e : g = h
    · rw [e, hself]
    · rw [hother g e]
      exact hs.fresh g hg
  · intro g hg hm
    obtain ⟨e, hg'⟩ := hrec g hg
    rw [hstored]
    exact hs.unmarked g hg' (by simpa only [marked, hother g e] using hm)
  · intro l hl x hx
    rw [hstored] at hl
    rw [htargets l hl] at hx
    obtain ⟨hlt, hxs⟩ := hs.below l hl x hx
    -- a target of a stored link has it in its incoming list
    have e : x ≠ h := by
      rintro rfl
      exact (hs.incoming_eq_nil hsome).mp hin l hl hx
    exact ⟨hlt, by rwa [hother x e]⟩
  · intro x hx l
    obtain ⟨e, hx'⟩ := hrec x hx
    rw [hstored, show s'.incoming x = s.incoming x by simp only [incoming, hother x e],
      hs.dual x hx' l]
    by_cases hl : s.isStored l = true
    · rw [htargets l hl]
    · simp [hl]

/-! ## Adding -/

/-- The same atoms with the same values. -/
structure Unchanged (s s' : AtomTable TV) : Prop where
  key : s'.key = s.key
  avOf : s'.avOf = s.avOf
  brkUuid : s'.brkUuid = s.brkUuid
  stored : s'.isStored = s.isStored
  marked : s'.marked = s.marked

/-- One atom more, under the next handle. -/
structure Grown (s s' : AtomTable TV) (a : Atom TV) : Prop where
  brkUuid : s'.brkUuid = s.brkUuid + 1
  key : ∀ g, s'.key g = if g = s.brkUuid then some (a.type, a.body) else s.key g
  avOf : ∀ g, s'.avOf g = if g = s.brkUuid then some a.attentionValue else s.avOf g
  stored : ∀ g, s'.isStored g = (s.isStored g || decide (g = s.brkUuid))
  marked : ∀ g, s'.marked g = if g = s.brkUuid then a.markedForRemoval else s.marked g

namespace Grown

variable {s s' : AtomTable TV} {a : Atom TV}

theorem stored_iff (hg : Grown s s' a) (g : Handle) :
    s'.isStored g = true ↔ s.isStored g = true ∨ g = s.brkUuid := by
  rw [hg.stored, Bool.or_eq_true, decide_eq_true_eq]

theorem key_new (hg : Grown s s' a) : s'.key s.brkUuid = some (a.type, a.body) := by
  rw [hg.key, if_pos rfl]

theorem typeOf_new (hg : Grown s s' a) : s'.typeOf s.brkUuid = some a.type := by
  rw [typeOf_eq, hg.key_new]
  rfl

/-- The records of before keep their types and bodies. -/
theorem key_old (hg : Grown s s' a) (hs : Linked s) {x : Handle} (hx : s.handleMap x ≠ none) :
    s'.key x = s.key x := by
  rw [hg.key, if_neg]
  rintro rfl
  exact hx (hs.fresh _ (Nat.le_refl _))

theorem key_stored (hg : Grown s s' a) (hs : Linked s) {l : Handle} (hst : s.isStored l = true) :
    s'.key l = s.key l := by
  obtain ⟨b, hb, -⟩ := exists_of_isStored hst
  exact hg.key_old hs (by rw [hb]; exact Option.some_ne_none b)

theorem clean (hg : Grown s s' a) (hs : ∀ g, s.isStored g = true → s.marked g = false)
    (hnew : a.markedForRemoval = false) {g : Handle} (hst : s'.isStored g = true) :
    s'.marked g = false := by
  rw [hg.marked]
  split
  · exact hnew
  · next e => exact hs g (((hg.stored_iff g).mp hst).resolve_right e)

end Grown

theorem SameKeys.unchanged {s s' : AtomTable TV} (e : SameKeys s s') (hav : s'.avOf = s.avOf)
    (hm : s'.marked = s.marked) : Unchanged s s' :=
  ⟨e.key, hav, e.brkUuid, funext e.isStored, hm⟩

theorem Linked.of_records {s t : AtomTable TV} (hs : Linked s) (hmap : t.handleMap = s.handleMap)
    (hbrk : t.brkUuid = s.brkUuid) (htype : t.typeIndex = s.typeIndex) :
    Linked t ∧ Unchanged s t := by
  have hkey : t.key = s.key := by
    funext g
    simp only [key, hmap]
  have hstored : t.isStored = s.isStored := by
    funext g
    rw [isStored_eq, isStored_eq, hkey, htype]
  have hmarked : t.marked = s.marked := by
    funext g
    simp only [marked, hmap]
  refine ⟨⟨?_, ?_, ?_, ?_⟩, hkey, ?_, hbrk, hstored, hmarked⟩
  · rw [hbrk, hmap]
    exact hs.fresh
  · intro h hsome hm
    rw [hstored]
    exact hs.unmarked h (hmap ▸ hsome) (by simpa only [marked, hmap] using hm)
  · intro l hl x hx
    rw [hstored] at hl
    rw [hmap]
    exact hs.below l hl x (by simpa only [targetsOf, hmap] using hx)
  · intro x hx l
    rw [hstored]
    simp only [incoming, targetsOf, hmap]
    exact hs.dual x (hmap ▸ hx) l
  · funext g
    simp only [avOf, hmap]

theorem Linked.merge {s : AtomTable TV} (hs : Linked s) (ops : TruthOps TV) (h : Handle) (tv : TV) :
    Linked (s.merge ops h tv) ∧ Unchanged s (s.merge ops h tv) := by
  unfold AtomTable.merge
  split
  · refine ⟨hs.modify h (fun _ => rfl) (fun _ => rfl) (fun _ => rfl) (fun _ => rfl),
      SameKeys.unchanged ?_ ?_ ?_⟩
    · exact sameKeys_modify s h (fun _ => rfl) (fun _ => rfl)
    · exact avOf_modify s h fun _ => rfl
    · exact marked_modify s h fun _ => rfl
  · exact ⟨hs, (SameKeys.refl s).unchanged rfl rfl⟩

theorem insertAtom_frame (s : AtomTable TV) (a : Atom TV) (valid : Bool) :
    (s.insertAtom a valid).handleMap = s.handleMap ∧
      (s.insertAtom a valid).brkUuid = s.brkUuid ∧
      (s.insertAtom a valid).typeIndex = s.typeIndex := by
  unfold insertAtom
  simp only
  split
  · exact ⟨rfl, rfl, rfl⟩
  · split
    · exact ⟨rfl, rfl, rfl⟩
    · exact ⟨rfl, rfl, rfl⟩

theorem marked_foldl_addIncomingHandle (h : Handle) (xs : List Handle) (s : AtomTable TV) :
    (xs.foldl (addIncomingHandle h) s).marked = s.marked := by
  induction xs generalizing s with
  | nil => rfl
  | cons x xs ih =>
    rw [List.foldl_cons, ih]
    exact marked_modify s x fun _ => rfl

/-- The record of `a` under the next handle, before any incoming list has it. -/
structure Recorded (s s₁ : AtomTable TV) (a : Atom TV) : Prop where
  handleMap : s₁.handleMap = fun g =>
    if g = s.brkUuid then some { a with inTable := true } else s.handleMap g
  brkUuid : s₁.brkUuid = s.brkUuid + 1
  typeIndex : s₁.typeIndex = insertAt s.typeIndex s.brkUuid a.type

namespace Recorded

variable {s s₁ : AtomTable TV} {a : Atom TV}

theorem self (hr : Recorded s s₁ a) :
    s₁.handleMap s.brkUuid = some { a with inTable := true } := by
  simp only [hr.handleMap, if_true]

theorem other (hr : Recorded s s₁ a) {g : Handle} (e : g ≠ s.brkUuid) :
    s₁.handleMap g = s.handleMap g := by
  simp only [hr.handleMap, if_neg e]

theorem key (hr : Recorded s s₁ a) (g : Handle) :
    s₁.key g = if g = s.brkUuid then some (a.type, a.body) else s.key g := by
  by_cases e : g = s.brkUuid
  · simp [AtomTable.key, e, hr.self]
  · simp [AtomTable.key, e, hr.other e]

theorem isStored (hr : Recorded s s₁ a) (g : Handle) :
    s₁.isStored g = (s.isStored g || decide (g = s.brkUuid)) := by
  rw [isStored_eq, hr.key, hr.typeIndex]
  by_cases e : g = s.brkUuid
  · simp [e, mem_insertAt]
  · rw [if_neg e, isStored_eq]
    cases s.key g with
    | none => simp [e]
    | some k => simp [e, mem_insertAt]

theorem targetsOf (hr : Recorded s s₁ a) (g : Handle) :
    s₁.targetsOf g = if g = s.brkUuid then a.body.targets else s.targetsOf g := by
  rw [targetsOf_eq, hr.key]
  by_cases e : g = s.brkUuid
  · simp [e]
  · rw [if_neg e, if_neg e, targetsOf_eq]

theorem avOf (hr : Recorded s s₁ a) (g : Handle) :
    s₁.avOf g = if g = s.brkUuid then some a.attentionValue else s.avOf g := by
  by_cases e : g = s.brkUuid
  · simp [AtomTable.avOf, e, hr.self]
  · simp [AtomTable.avOf, e, hr.other e]

theorem marked (hr : Recorded s s₁ a) (g : Handle) :
    s₁.marked g = if g = s.brkUuid then a.markedForRemoval else s.marked g := by
  by_cases e : g = s.brkUuid
  · simp [AtomTable.marked, e, hr.self]
  · simp [AtomTable.marked, e, hr.other e]

/-- The incoming lists are still those of the old table. -/
theorem count_incoming (hr : Recorded s s₁ a) (hs : Linked s) (hin : a.incoming = [])
    {x : Handle} (hx : s₁.handleMap x ≠ none) (l : Handle) :
    (s₁.incoming x).count l = if s.isStored l then (s.targetsOf l).count x else 0 := by
  by_cases ex : x = s.brkUuid
  · have hbare : s₁.incoming x = [] := by simp [incoming, ex, hr.self, hin]
    rw [hbare, List.count_nil]
    split
    · next hl =>
      refine (List.count_eq_zero_of_not_mem fun hm => ?_).symm
      exact (hs.below l hl x hm).2 (ex ▸ hs.fresh _ (Nat.le_refl _))
    · rfl
  · have hinc : s₁.incoming x = s.incoming x := by simp only [incoming, hr.other ex]
    rw [hinc]
    exact hs.dual x (by rwa [hr.other ex] at hx) l

end Recorded

/-- The new record and its entries in the incoming lists. -/
theorem Linked.grow {s s₁ : AtomTable TV} (hs : Linked s) {a : Atom TV} (hin : a.incoming = [])
    (hvalid : ∀ x ∈ a.outgoing, s.handleMap x ≠ none) (hr : Recorded s s₁ a) :
    Linked (a.body.targets.foldl (addIncomingHandle s.brkUuid) s₁) ∧
      Grown s (a.body.targets.foldl (addIncomingHandle s.brkUuid) s₁) a := by
  obtain ⟨same, hcount⟩ := foldl_addIncomingHandle s.brkUuid a.body.targets s₁
  have hmark := marked_foldl_addIncomingHandle s.brkUuid a.body.targets s₁
  set s' := a.body.targets.foldl (addIncomingHandle s.brkUuid) s₁ with hs'
  have hnew : s.handleMap s.brkUuid = none := hs.fresh _ (Nat.le_refl _)
  have hkey : ∀ g, s'.key g = if g = s.brkUuid then some (a.type, a.body) else s.key g :=
    fun g => by rw [same.key, hr.key]
  have hstored : ∀ g, s'.isStored g = (s.isStored g || decide (g = s.brkUuid)) :=
    fun g => by rw [same.isStored, hr.isStored]
  have htargets : ∀ g, s'.targetsOf g = if g = s.brkUuid then a.body.targets else s.targetsOf g :=
    fun g => by rw [same.targetsOf, hr.targetsOf]
  have hkept : ∀ x, s.handleMap x ≠ none → s'.handleMap x ≠ none := by
    intro x hx
    have e : x ≠ s.brkUuid := by
      rintro rfl
      exact hx hnew
    rwa [ne_eq, same.absent, hr.other e]
  refine ⟨⟨?_, ?_, ?_, ?_⟩, same.brkUuid.trans hr.brkUuid, hkey, ?_, hstored, ?_⟩
  · intro g hg
    rw [same.brkUuid, hr.brkUuid] at hg
    rw [same.absent, hr.other (by lia)]
    exact hs.fresh g (by lia)
  · intro g hg hm
    rw [hstored]
    by_cases e : g = s.brkUuid
    · simp [e]
    · have hg' : s.handleMap g ≠ none := by rwa [ne_eq, same.absent, hr.other e] at hg
      rw [hmark, hr.marked, if_neg e] at hm
      simp [hs.unmarked g hg' hm]
  · intro l hl x hx
    rw [hstored, Bool.or_eq_true, decide_eq_true_eq] at hl
    rw [htargets] at hx
    by_cases e : l = s.brkUuid
    · rw [if_pos e] at hx
      have hx' := hvalid x (List.mem_of_mem_take hx)
      exact ⟨e ▸ hs.lt_brk hx', hkept x hx'⟩
    · rw [if_neg e] at hx
      obtain ⟨hlt, hx'⟩ := hs.below l (hl.resolve_right e) x hx
      exact ⟨hlt, hkept x hx'⟩
  · intro x hx l
    have hx₁ : s₁.handleMap x ≠ none := mt (same.absent x).mpr hx
    rw [hcount x hx₁ l, hr.count_incoming hs hin hx₁, hstored, htargets]
    by_cases el : l = s.brkUuid
    · have hl : s.isStored l = false := by simp [AtomTable.isStored, el, hnew]
      rw [hl]
      simp [el]
    · simp [el]
  · intro g
    rw [same.avOf, hr.avOf]
  · intro g
    rw [hmark, hr.marked]

theorem Linked.add {s : AtomTable TV} (hs : Linked s) (ops : TruthOps TV) {a : Atom TV}
    (hin : a.incoming = []) :
    Linked (s.add ops a true).1 ∧
      ((∃ h, (s.add ops a true).2 = some h ∧ s.getHandle a = some h ∧
          Unchanged s (s.add ops a true).1) ∨
        ((s.add ops a true).2 = none ∧ Unchanged s (s.add ops a true).1) ∨
        ((s.add ops a true).2 = some s.brkUuid ∧ s.getHandle a = none ∧
          (∀ x ∈ a.outgoing, s.handleMap x ≠ none) ∧ Grown s (s.add ops a true).1 a)) := by
  unfold AtomTable.add
  cases hg : s.getHandle a with
  | some h =>
    obtain ⟨hl, hu⟩ := hs.merge ops h a.truthValue
    exact ⟨hl, .inl ⟨h, rfl, rfl, hu⟩⟩
  | none =>
    simp only
    split
    · next hall =>
      have hvalid : ∀ x ∈ a.outgoing, s.handleMap x ≠ none := by
        intro x hx
        have := List.all_eq_true.mp hall x hx
        simp only [isValidHandle, Bool.and_eq_true, Option.isSome_iff_ne_none] at this
        exact this.2
      obtain ⟨hmap, hbrk, htype⟩ := insertAtom_frame s a true
      have hr : Recorded s (insertHandle { s.insertAtom a true with
          handleMap := fun g => if g = s.brkUuid then some { a with inTable := true }
            else (s.insertAtom a true).handleMap g
          brkUuid := s.brkUuid + 1 } s.brkUuid a) a :=
        ⟨by simp [insertHandle, hmap], rfl, by simp [insertHandle, htype]⟩
      obtain ⟨hl, hgrown⟩ := hs.grow hin hvalid hr
      exact ⟨hl, .inr (.inr ⟨rfl, trivial, hvalid, hgrown⟩)⟩
    · obtain ⟨hmap, hbrk, htype⟩ := insertAtom_frame s a false
      obtain ⟨hl, hu⟩ := hs.of_records hmap hbrk htype
      exact ⟨hl, .inr (.inl ⟨rfl, hu⟩)⟩

/-! ## Attention values -/

theorem Linked.setAttentionValue {s : AtomTable TV} (hs : Linked s) {h : Handle}
    (hsome : s.handleMap h ≠ none) (av : AttentionValue) :
    Linked (s.setAttentionValue h av) ∧ (s.setAttentionValue h av).key = s.key ∧
      (s.setAttentionValue h av).brkUuid = s.brkUuid ∧
      (s.setAttentionValue h av).isStored = s.isStored ∧
      ∀ g, (s.setAttentionValue h av).avOf g = if g = h then some av else s.avOf g := by
  obtain ⟨a, ha⟩ := Option.ne_none_iff_exists'.mp hsome
  have hmod : Linked (s.modify h fun a => { a with attentionValue := av }) :=
    hs.modify h (fun _ => rfl) (fun _ => rfl) (fun _ => rfl) (fun _ => rfl)
  have same : SameKeys s (s.modify h fun a => { a with attentionValue := av }) :=
    sameKeys_modify s h (fun _ => rfl) (fun _ => rfl)
  have hav : ∀ g, (s.modify h fun a => { a with attentionValue := av }).avOf g =
      if g = h then some av else s.avOf g := by
    intro g
    by_cases e : g = h
    · simp [AtomTable.modify, avOf, e, ha]
    · simp [AtomTable.modify, avOf, e]
  unfold AtomTable.setAttentionValue
  simp only [ha]
  split
  · next e =>
    refine ⟨hs, rfl, rfl, rfl, fun g => ?_⟩
    by_cases eg : g = h
    · simp [avOf, eg, ha, e]
    · simp [eg]
  · split
    · obtain ⟨hl, hu⟩ := hmod.of_records
          (t := { s.modify h fun a => { a with attentionValue := av } with
          importanceIndex := insertAt (removeAt
            (s.modify h fun a => { a with attentionValue := av }).importanceIndex h
            (importanceBin a.attentionValue.sti)) h (importanceBin av.sti) }) rfl rfl rfl
      exact ⟨hl, same.key, rfl, funext same.isStored, hav⟩
    · exact ⟨hmod, same.key, rfl, funext same.isStored, hav⟩

end AtomTable

end OpenCog
