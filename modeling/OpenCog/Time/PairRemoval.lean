import OpenCog.Time.PairRelation

/-! Removing pairs: one pair of a handle, all pairs of a time, and the loops over
them. -/
namespace OpenCog

namespace TemporalTable

variable {s : TemporalTable}

/-! ## One time leaves the map -/

/-- Whatever happened to the lists of the handles, the time side follows a time
out of the map. -/
theorem TimesOk.eraseTime (ok : TimesOk s) {e : Temporal × List Handle} (he : e ∈ s.temporalMap)
    {t : Temporal} (hr : e.1.rank = t.rank) (lists : Handle → List Cell)
    (tails : Handle → Option Cell) :
    ∃ s', removeFromSortedEntries { s with
          temporalMap := eraseKey t s.temporalMap
          handleMap := lists
          tailHandleMap := tails } t = some s' ∧
      TimesOk s' ∧ s'.temporalMap = eraseKey t s.temporalMap ∧ s'.handleMap = lists ∧
      s'.tailHandleMap = tails := by
  obtain ⟨c, hc, hce⟩ := ok.cell he
  have hperm := perm_eraseKey ok.distinct he hr
  have hcount : (eraseKey t s.temporalMap).length + 1 = s.sortedTemporalList.length := by
    rw [← ok.count, getCount, hperm.length_eq, List.length_cons]
  have hcr : c.rank = t.rank := (congrArg Temporal.rank hce).trans hr
  obtain ⟨s', hs, hidx, hlist, hfit, hl, ht, hm, -⟩ := removeFromSortedEntries_spec (s := { s with
    temporalMap := eraseKey t s.temporalMap
    handleMap := lists
    tailHandleMap := tails }) ok.indexed hc hcr hcount ok.fits
  refine ⟨s', hs, ⟨hidx, hfit, ?_, ?_⟩, hm, hl, ht⟩
  · have hkeys : (e.1 :: (eraseKey t s.temporalMap).map Prod.fst).Perm
        (c.time :: (s.sortedTemporalList.erase c).map Cell.time) :=
      ((hperm.map Prod.fst).symm.trans ok.keys).trans ((List.perm_cons_erase hc).map Cell.time)
    rw [hm, hlist]
    rw [hce] at hkeys
    exact hkeys.cons_inv
  · rw [hm]
    intro f hf
    exact ok.sets f (mem_eraseKey.mp hf).1

/-! ## One pair -/

/-- Exactly the pair of `h` and `t` leaves the map. -/
structure Unpaired (s s' : TemporalTable) (h : Handle) (t : Temporal) : Prop where
  inMap : ∀ g u, s'.InMap g u ↔ s.InMap g u ∧ ¬ (g = h ∧ u = t)
  lists : s'.handleMap = s.handleMap
  tails : s'.tailHandleMap = s.tailHandleMap

theorem TimesOk.removePair (ok : TimesOk s) {h : Handle} {t : Temporal} (hm : s.InMap h t) :
    ∃ s', s.removePair h t = some s' ∧ TimesOk s' ∧ Unpaired s s' h t := by
  obtain ⟨handles, hmem, hh⟩ := hm
  have hl := ok.lookup_eq hmem rfl
  have hnd := (ok.sets _ hmem).1
  have honly : ∀ hs, (t, hs) ∈ s.temporalMap → hs = handles := by
    intro hs hhs
    exact congrArg Prod.snd (eq_of_key ok.distinct hhs hmem rfl)
  simp only [TemporalTable.removePair, hl, Option.bind_eq_bind, Option.bind_some, hh, if_true]
  by_cases hempty : handles.erase h = []
  · rw [if_pos hempty]
    obtain ⟨s', hsome, hok, hmap, hlists, htails⟩ :=
      ok.eraseTime hmem rfl s.handleMap s.tailHandleMap
    refine ⟨s', hsome, hok, ⟨?_, hlists, htails⟩⟩
    intro g u
    rw [InMap, hmap]
    constructor
    · rintro ⟨hs, hin, hg⟩
      obtain ⟨hin, hne⟩ := mem_eraseKey.mp hin
      exact ⟨⟨hs, hin, hg⟩, fun e => hne (congrArg Temporal.rank e.2)⟩
    · rintro ⟨⟨hs, hin, hg⟩, hne⟩
      refine ⟨hs, mem_eraseKey.mpr ⟨hin, fun hr => ?_⟩, hg⟩
      obtain rfl : u = t := congrArg Prod.fst (eq_of_key ok.distinct hin hmem hr)
      obtain rfl := honly hs hin
      have hgh : g ≠ h := fun e => hne ⟨e, rfl⟩
      have := (List.mem_erase_of_ne hgh).mpr hg
      rw [hempty] at this
      cases this
  · rw [if_neg hempty]
    refine ⟨_, rfl, ⟨ok.indexed, ok.fits, ?_, ?_⟩, ⟨?_, rfl, rfl⟩⟩
    · have : (s.temporalMap.map fun e =>
          if e.1.compareTo t = 0 then (e.1, handles.erase h) else e).map Prod.fst =
          s.temporalMap.map Prod.fst := by
        rw [List.map_map]
        apply List.map_congr_left
        intro e _
        simp only [Function.comp_apply]
        split <;> rfl
      rw [this]
      exact ok.keys
    · intro f hf
      obtain ⟨e, he, rfl⟩ := List.mem_map.mp hf
      split
      · exact ⟨hnd.erase h, hempty⟩
      · exact ok.sets e he
    · intro g u
      constructor
      · rintro ⟨hs, hin, hg⟩
        obtain ⟨e, he, heq⟩ := List.mem_map.mp hin
        split at heq
        · rename_i hr
          rw [Temporal.compareTo_eq_zero] at hr
          obtain rfl := eq_of_key ok.distinct he hmem hr
          rw [Prod.mk.injEq] at heq
          obtain ⟨rfl, rfl⟩ := heq
          obtain ⟨hgh, hg⟩ := hnd.mem_erase_iff.mp hg
          exact ⟨⟨handles, hmem, hg⟩, fun e => hgh e.1⟩
        · rename_i hr
          subst heq
          refine ⟨⟨hs, he, hg⟩, fun e => hr ?_⟩
          rw [Temporal.compareTo_eq_zero, e.2]
      · rintro ⟨⟨hs, hin, hg⟩, hne⟩
        by_cases hr : u.compareTo t = 0
        · obtain rfl : u = t := congrArg Prod.fst
            (eq_of_key ok.distinct hin hmem ((Temporal.compareTo_eq_zero _ _).mp hr))
          obtain rfl := honly hs hin
          refine ⟨hs.erase h, List.mem_map.mpr ⟨_, hin, by rw [if_pos hr]⟩, ?_⟩
          exact (List.mem_erase_of_ne fun e => hne ⟨e, rfl⟩).mpr hg
        · exact ⟨hs, List.mem_map.mpr ⟨_, hin, by rw [if_neg hr]⟩, hg⟩

/-! ## All pairs of a time -/

/-- The tail that is left when a list loses one of its times for all handles. -/
def keptTail (te : List Cell) (tail : Option Cell) : Option Cell :=
  if tail.isSome ∧ tail = te.head? then none else tail

theorem foldl_dropTime (key : Temporal) {handles : List Handle} (hnd : handles.Nodup)
    (s : TemporalTable) :
    handles.foldl (dropTime key) s = { s with
      handleMap := fun g =>
        if g ∈ handles then TemporalEntry.remove key (s.handleMap g) else s.handleMap g
      tailHandleMap := fun g =>
        if g ∈ handles then keptTail (s.handleMap g) (s.tailHandleMap g)
        else s.tailHandleMap g } := by
  induction handles generalizing s with
  | nil => simp
  | cons h hs ih =>
    obtain ⟨hh, hnd⟩ := List.nodup_cons.mp hnd
    have hdrop : dropTime key s h = { s with
        handleMap := Function.update s.handleMap h (TemporalEntry.remove key (s.handleMap h))
        tailHandleMap := Function.update s.tailHandleMap h
          (keptTail (s.handleMap h) (s.tailHandleMap h)) } := by
      simp only [dropTime, keptTail]
      split
      · rfl
      · rw [Function.update_eq_self]
    rw [List.foldl_cons, ih hnd, hdrop]
    congr 1
    · funext g
      by_cases e : g = h
      · subst e
        simp [hh]
      · simp [e]
    · funext g
      by_cases e : g = h
      · subst e
        simp [hh]
      · simp [e]

/-- Exactly the pairs of one time leave the map and the lists; the tails of the
handles of that time go where they were the heads. -/
structure DroppedTime (s s' : TemporalTable) (t : Temporal) : Prop where
  inMap : ∀ g u, s'.InMap g u ↔ s.InMap g u ∧ u.rank ≠ t.rank
  lists : ∀ g, s'.handleMap g = (s.handleMap g).filter (·.rank ≠ t.rank)
  tailsIn : ∀ g u, s.InMap g u → u.rank = t.rank →
    s'.tailHandleMap g = keptTail (s.handleMap g) (s.tailHandleMap g)
  tailsOut : ∀ g, (∀ u, s.InMap g u → u.rank ≠ t.rank) → s'.tailHandleMap g = s.tailHandleMap g

theorem removeExact_spec (ok : TimesOk s) (hl : ListsOk s) (t : Temporal) :
    ∃ s', s.removeExact t = some s' ∧ TimesOk s' ∧ DroppedTime s s' t := by
  unfold removeExact
  cases hlook : s.lookup t with
  | none =>
    have hno : ∀ g u, s.InMap g u → u.rank ≠ t.rank := by
      rintro g u ⟨handles, hm, -⟩
      exact lookup_none hlook _ hm
    refine ⟨s, rfl, ok, ⟨fun g u => ⟨fun hm => ⟨hm, hno g u hm⟩, And.left⟩, fun g => ?_,
      fun g u hm hr => absurd hr (hno g u hm), fun _ _ => rfl⟩⟩
    refine (List.filter_eq_self.mpr fun c hc => ?_).symm
    exact decide_eq_true (hno g c.time (hl.listed g c hc))
  | some e =>
    obtain ⟨key, handles⟩ := e
    obtain ⟨hmem, hr⟩ := lookup_mem hlook
    have hown : ∀ g u, s.InMap g u → u.rank = t.rank → u = key ∧ g ∈ handles := by
      rintro g u ⟨hs, hin, hg⟩ hu
      have := eq_of_key ok.distinct hin hmem (hu.trans hr.symm)
      rw [Prod.mk.injEq] at this
      exact ⟨this.1, this.2 ▸ hg⟩
    simp only [foldl_dropTime key (ok.sets _ hmem).1]
    obtain ⟨s', hsome, hok, hmap, hlists, htails⟩ := ok.eraseTime hmem hr _ _
    refine ⟨s', hsome, hok, ⟨?_, ?_, ?_, ?_⟩⟩
    · intro g u
      simp only [InMap, hmap, mem_eraseKey]
      constructor
      · rintro ⟨hs, hin, hg⟩
        exact ⟨⟨hs, hin.1, hg⟩, hin.2⟩
      · rintro ⟨⟨hs, hin, hg⟩, hne⟩
        exact ⟨hs, ⟨hin, hne⟩, hg⟩
    · intro g
      rw [hlists]
      -- a cell of this time has the key itself as its time, and `g` is in its set
      have hcell : ∀ c ∈ s.handleMap g, c.rank = t.rank → c.time = key ∧ g ∈ handles :=
        fun c hc hcr => hown g c.time (hl.listed g c hc) hcr
      by_cases hg : g ∈ handles
      · simp only [hg, if_true, TemporalEntry.remove]
        apply List.filter_congr
        intro c hc
        by_cases hcr : c.rank = t.rank
        · simp [hcr, (hcell c hc hcr).1]
        · have : c.time ≠ key := fun e => hcr ((congrArg Temporal.rank e).trans hr)
          simp [hcr, this]
      · simp only [hg, if_false]
        refine (List.filter_eq_self.mpr fun c hc => ?_).symm
        simpa using fun hcr => hg (hcell c hc hcr).2
    · intro g u hm hu
      rw [htails]
      simp only [(hown g u hm hu).2, if_true]
    · intro g hno
      rw [htails]
      have : g ∉ handles := fun hg => hno key ⟨handles, hmem, hg⟩ hr
      simp only [this, if_false]

theorem DroppedTime.listsOk {s' : TemporalTable} {t : Temporal} (hl : ListsOk s)
    (d : DroppedTime s s' t) : ListsOk s' := by
  refine ⟨fun g => ?_, fun g c hc => ?_⟩
  · rw [d.lists]
    exact (hl.sorted g).filter _
  · rw [d.lists] at hc
    obtain ⟨hc, hne⟩ := List.mem_filter.mp hc
    exact (d.inMap g c.time).mpr ⟨hl.listed g c hc, of_decide_eq_true hne⟩

/-! ## The times of one handle -/

/-- The loop over the list of `h` in table `s`: the map has lost the pairs of the
cells that left the list, and the tail is gone if its cell is. -/
structure Removing (s : TemporalTable) (h : Handle) (t : Option Temporal)
    (criterion : TemporalRelationship) (r : Removal) : Prop where
  times : TimesOk r.table
  lists : r.table.handleMap = s.handleMap
  sub : r.te.Sublist (s.handleMap h)
  others : ∀ g u, g ≠ h → (r.table.InMap g u ↔ s.InMap g u)
  own : ∀ u, r.table.InMap h u ↔
    s.InMap h u ∧ ((∃ c ∈ s.handleMap h, c.time = u) → ∃ c ∈ r.te, c.time = u)
  otherTails : ∀ g, g ≠ h → r.table.tailHandleMap g = s.tailHandleMap g
  ownTail : r.table.tailHandleMap h = none ∨ r.table.tailHandleMap h = s.tailHandleMap h ∧
    ∀ c ∈ s.handleMap h, s.tailHandleMap h = some c → c ∈ r.te
  previous : ∀ c, r.previousTe = some c →
    c ∈ r.te ∧ (matchesEntry t criterion c).1 = true ∧ t.isSome ∧ criterion.isPrevious

section Loop
variable {h : Handle} {t : Option Temporal} {criterion : TemporalRelationship} {r : Removal}

theorem Removing.start (ok : TimesOk s) (h : Handle) (t : Option Temporal)
    (criterion : TemporalRelationship) :
    Removing s h t criterion ⟨s, s.handleMap h, none, false⟩ where
  times := ok
  lists := rfl
  sub := List.Sublist.refl _
  others _ _ _ := Iff.rfl
  own _ := ⟨fun hm => ⟨hm, id⟩, And.left⟩
  otherTails _ _ := rfl
  ownTail := .inr ⟨rfl, fun _ hc _ => hc⟩
  previous _ e := by cases e

theorem Removing.listed (hl : ListsOk s) (hr : Removing s h t criterion r) {c : Cell}
    (hc : c ∈ r.te) : r.table.InMap h c.time :=
  (hr.own c.time).mpr ⟨hl.listed h c (hr.sub.subset hc), fun _ => ⟨c, hc, rfl⟩⟩

theorem mem_remove {t : Temporal} {cs : List Cell} {c : Cell} :
    c ∈ TemporalEntry.remove t cs ↔ c ∈ cs ∧ c.time ≠ t := by
  simp [TemporalEntry.remove]

/-- The pair of a cell leaves map and list together. -/
theorem Removing.unpair (hl : ListsOk s) (hr : Removing s h t criterion r) {c : Cell}
    (hc : c ∈ r.te) :
    ∃ s', r.table.removePair h c.time = some s' ∧ TimesOk s' ∧ Unpaired r.table s' h c.time ∧
      (∀ g u, g ≠ h → (s'.InMap g u ↔ s.InMap g u)) ∧
      ∀ u, s'.InMap h u ↔ s.InMap h u ∧ ((∃ d ∈ s.handleMap h, d.time = u) →
        ∃ d ∈ TemporalEntry.remove c.time r.te, d.time = u) := by
  obtain ⟨s', hs, hok, hun⟩ := hr.times.removePair (hr.listed hl hc)
  refine ⟨s', hs, hok, hun, ?_, ?_⟩
  · intro g u hg
    rw [hun.inMap, ← hr.others g u hg]
    exact ⟨And.left, fun hm => ⟨hm, fun e => hg e.1⟩⟩
  · intro u
    rw [hun.inMap, hr.own]
    constructor
    · rintro ⟨⟨hm, hkept⟩, hne⟩
      refine ⟨hm, fun hin => ?_⟩
      obtain ⟨d, hd, rfl⟩ := hkept hin
      exact ⟨d, mem_remove.mpr ⟨hd, fun e => hne ⟨rfl, e⟩⟩, rfl⟩
    · rintro ⟨hm, hkept⟩
      refine ⟨⟨hm, fun hin => ?_⟩, ?_⟩
      · obtain ⟨d, hd, rfl⟩ := hkept hin
        exact ⟨d, (mem_remove.mp hd).1, rfl⟩
      · rintro ⟨-, rfl⟩
        obtain ⟨d, hd, he⟩ := hkept ⟨c, hr.sub.subset hc, rfl⟩
        exact (mem_remove.mp hd).2 he

/-- One match removed at once. -/
theorem Removing.take (hl : ListsOk s) (hr : Removing s h t criterion r) {c : Cell}
    (hc : c ∈ r.te) (hp : ¬ (t.isSome ∧ criterion.isPrevious)) :
    ∃ r', r.take h (s.tailHandleMap h) c = some r' ∧ Removing s h t criterion r' ∧
      r'.te = TemporalEntry.remove c.time r.te := by
  obtain ⟨s', hs, hok, hun, hothers, hown⟩ := hr.unpair hl hc
  have hnone : r.previousTe = none := by
    cases hprev : r.previousTe with
    | none => rfl
    | some d => exact absurd (hr.previous d hprev).2.2 hp
  have hsub : (TemporalEntry.remove c.time r.te).Sublist (s.handleMap h) :=
    List.filter_sublist.trans hr.sub
  simp only [Removal.take, hs, Option.bind_eq_bind, Option.bind_some]
  refine ⟨_, rfl, ?_, rfl⟩
  by_cases htail : s.tailHandleMap h = some c
  · simp only [htail, if_true]
    refine ⟨⟨hok.indexed, hok.fits, hok.keys, hok.sets⟩, hun.lists.trans hr.lists, hsub, hothers,
      hown, ?_, .inl (Function.update_self ..), ?_⟩
    · intro g hg
      exact (Function.update_of_ne hg ..).trans ((congrFun hun.tails g).trans (hr.otherTails g hg))
    · intro d hd
      rw [hnone] at hd
      cases hd
  · simp only [htail, if_false]
    refine ⟨hok, hun.lists.trans hr.lists, hsub, hothers, hown, ?_, ?_, ?_⟩
    · intro g hg
      exact (congrFun hun.tails g).trans (hr.otherTails g hg)
    · rcases hr.ownTail with hno | ⟨hsame, hlive⟩
      · exact .inl ((congrFun hun.tails h).trans hno)
      · refine .inr ⟨(congrFun hun.tails h).trans hsame, ?_⟩
        intro d hd he
        refine mem_remove.mpr ⟨hlive d hd he, fun e => htail ?_⟩
        obtain rfl := SparseIndex.eq_of_rank (hl.sorted h) hd (hr.sub.subset hc)
          (congrArg Temporal.rank e)
        exact he
    · intro d hd
      rw [hnone] at hd
      cases hd

theorem removeLoop_spec (hl : ListsOk s) (cs : List Cell)
    (sorted : cs.Pairwise (Cell.rank · < Cell.rank ·)) (hr : Removing s h t criterion r)
    (hcs : ∀ c ∈ cs, c ∈ r.te) :
    ∃ r', removeLoop h t criterion (s.tailHandleMap h) cs r = some r' ∧
      Removing s h t criterion r' := by
  induction cs generalizing r with
  | nil => exact ⟨r, rfl, hr⟩
  | cons c cs ih =>
    obtain ⟨hlt, hsorted⟩ := List.pairwise_cons.mp sorted
    have hc := hcs c List.mem_cons_self
    -- whichever branch is taken, the rest of the cells are still in the list
    have hnext : ∃ r', r.visit h t criterion (s.tailHandleMap h) c = some r' ∧
        Removing s h t criterion r' ∧ ∀ d ∈ cs, d ∈ r'.te := by
      unfold Removal.visit
      by_cases hm : (matchesEntry t criterion c).1 = true
      · rw [if_pos hm]
        by_cases hp : t.isSome ∧ criterion.isPrevious
        · rw [if_pos hp]
          refine ⟨_, rfl, ?_, fun d hd => hcs d (List.mem_cons_of_mem c hd)⟩
          refine ⟨hr.times, hr.lists, hr.sub, hr.others, hr.own, hr.otherTails, hr.ownTail, ?_⟩
          rintro d hd
          obtain rfl := Option.some.inj hd
          exact ⟨hc, hm, hp⟩
        · rw [if_neg hp]
          obtain ⟨r', htake, hr', hte⟩ := hr.take hl hc hp
          refine ⟨r', htake, hr', ?_⟩
          intro d hd
          rw [hte]
          refine mem_remove.mpr ⟨hcs d (List.mem_cons_of_mem c hd), fun e => ?_⟩
          exact absurd (congrArg Temporal.rank e) (ne_of_gt (hlt d hd))
      · rw [if_neg hm]
        exact ⟨r, rfl, hr, fun d hd => hcs d (List.mem_cons_of_mem c hd)⟩
    obtain ⟨r', hstep, hr', hrest⟩ := hnext
    have hloop : removeLoop h t criterion (s.tailHandleMap h) (c :: cs) r =
        if (matchesEntry t criterion c).2 then some r'
        else removeLoop h t criterion (s.tailHandleMap h) cs r' := by
      rw [removeLoop]
      simp only [hstep, Option.bind_eq_bind, Option.bind_some]
    rw [hloop]
    split
    · exact ⟨r', rfl, hr'⟩
    · exact ih hsorted hr' hrest

/-- A `PREVIOUS` removal leaves the tail of the handle alone. -/
def SparesTail (s : TemporalTable) (h : Handle) (t : Option Temporal)
    (criterion : TemporalRelationship) : Prop :=
  t.isSome → criterion.isPrevious → ∀ c, s.tailHandleMap h = some c →
    (matchesEntry t criterion c).1 = false

/-- What `remove` does to the pairs of one handle. -/
structure HandleRemoved (s s' : TemporalTable) (h : Handle) : Prop where
  otherLists : ∀ g, g ≠ h → s'.handleMap g = s.handleMap g
  sub : (s'.handleMap h).Sublist (s.handleMap h)
  others : ∀ g u, g ≠ h → (s'.InMap g u ↔ s.InMap g u)
  own : ∀ u, s'.InMap h u ↔
    s.InMap h u ∧ ((∃ c ∈ s.handleMap h, c.time = u) → ∃ c ∈ s'.handleMap h, c.time = u)
  otherTails : ∀ g, g ≠ h → s'.tailHandleMap g = s.tailHandleMap g

/-- The list of `h` is written back. -/
theorem HandleRemoved.of_list {s₁ : TemporalTable} {te : List Cell}
    (lists : s₁.handleMap = s.handleMap) (sub : te.Sublist (s.handleMap h))
    (others : ∀ g u, g ≠ h → (s₁.InMap g u ↔ s.InMap g u))
    (own : ∀ u, s₁.InMap h u ↔
      s.InMap h u ∧ ((∃ c ∈ s.handleMap h, c.time = u) → ∃ c ∈ te, c.time = u))
    (otherTails : ∀ g, g ≠ h → s₁.tailHandleMap g = s.tailHandleMap g) :
    HandleRemoved s { s₁ with handleMap := Function.update s₁.handleMap h te } h := by
  refine ⟨fun g hg => ?_, ?_, others, fun u => ?_, otherTails⟩
  · exact (Function.update_of_ne hg ..).trans (congrFun lists g)
  · simpa only [Function.update_self] using sub
  · simp only [Function.update_self]
    exact own u

theorem removeHandle_spec (ok : TimesOk s) (hl : ListsOk s) (h : Handle) (t : Option Temporal)
    (criterion : TemporalRelationship) :
    ∃ s' result, s.removeHandle h t criterion = some (s', result) ∧ TimesOk s' ∧
      HandleRemoved s s' h ∧
      (SparesTail s h t criterion → s'.tailHandleMap h = none ∨
        s'.tailHandleMap h = s.tailHandleMap h ∧
          ∀ c ∈ s.handleMap h, s.tailHandleMap h = some c → c ∈ s'.handleMap h) := by
  obtain ⟨r, hloop, hr⟩ := removeLoop_spec hl (s.handleMap h) (hl.sorted h)
    (Removing.start ok h t criterion) (fun _ hc => hc)
  simp only [removeHandle, hloop, Option.bind_eq_bind, Option.bind_some]
  cases hprev : r.previousTe with
  | none =>
    refine ⟨_, _, rfl, ⟨hr.times.indexed, hr.times.fits, hr.times.keys, hr.times.sets⟩,
      .of_list hr.lists hr.sub hr.others hr.own hr.otherTails, fun _ => ?_⟩
    rcases hr.ownTail with hno | ⟨hsame, hlive⟩
    · exact .inl hno
    · refine .inr ⟨hsame, fun c hc he => ?_⟩
      simpa only [Function.update_self] using hlive c hc he
  | some c =>
    obtain ⟨hc, hm, hsome, hp⟩ := hr.previous c hprev
    obtain ⟨s₁, hs₁, hok, hun, hothers, hown⟩ := hr.unpair hl hc
    simp only [hs₁, Option.bind_some]
    refine ⟨_, _, rfl, ⟨hok.indexed, hok.fits, hok.keys, hok.sets⟩, ?_, fun hspares => ?_⟩
    · exact .of_list (hun.lists.trans hr.lists) (List.filter_sublist.trans hr.sub) hothers hown
        fun g hg => (congrFun hun.tails g).trans (hr.otherTails g hg)
    · rcases hr.ownTail with hno | ⟨hsame, hlive⟩
      · exact .inl ((congrFun hun.tails h).trans hno)
      · refine .inr ⟨(congrFun hun.tails h).trans hsame, fun d hd he => ?_⟩
        simp only [Function.update_self]
        refine mem_remove.mpr ⟨hlive d hd he, fun e => ?_⟩
        obtain rfl := SparseIndex.eq_of_rank (hl.sorted h) hd (hr.sub.subset hc)
          (congrArg Temporal.rank e)
        rw [hspares hsome hp d he] at hm
        cases hm

theorem HandleRemoved.listsOk {s' : TemporalTable} (hl : ListsOk s) (d : HandleRemoved s s' h) :
    ListsOk s' := by
  refine ⟨fun g => ?_, fun g c hc => ?_⟩
  · by_cases e : g = h
    · subst e
      exact (hl.sorted g).sublist d.sub
    · rw [d.otherLists g e]
      exact hl.sorted g
  · by_cases e : g = h
    · subst e
      exact (d.own c.time).mpr ⟨hl.listed g c (d.sub.subset hc), fun _ => ⟨c, hc, rfl⟩⟩
    · rw [d.otherLists g e] at hc
      exact (d.others g c.time e).mpr (hl.listed g c hc)

theorem HandleRemoved.paired {s' : TemporalTable} (hp : Paired s) (d : HandleRemoved s s' h) :
    Paired s' := by
  intro g u hm
  by_cases e : g = h
  · subst e
    obtain ⟨hm, hkept⟩ := (d.own u).mp hm
    exact hkept (hp g u hm)
  · rw [d.otherLists g e]
    exact hp g u ((d.others g u e).mp hm)

/-- An `EXACT` removal takes the cell of its time out of the list. -/
theorem removeLoop_exact {t : Temporal} {tail : Option Cell} {cs : List Cell} {r r' : Removal}
    (he : removeLoop h (some t) .EXACT tail cs r = some r') :
    r'.previousTe = r.previousTe ∧ ((∀ c ∈ cs, c.time ≠ t) ∧ r'.te = r.te ∨
      r'.te = TemporalEntry.remove t r.te) := by
  induction cs generalizing r with
  | nil =>
    obtain rfl := Option.some.inj he
    exact ⟨rfl, .inl ⟨by simp, rfl⟩⟩
  | cons c cs ih =>
    simp only [removeLoop, Removal.visit, matchesEntry, matchesTimeCriterion,
      TemporalRelationship.isPrevious] at he
    by_cases e : t = c.time
    · simp only [e, decide_true, if_true, Removal.take] at he
      cases hp : r.table.removePair h c.time with
      | none => simp [hp] at he
      | some table =>
        simp [hp] at he
        subst he
        exact ⟨rfl, .inr (by rw [e])⟩
    · simp only [e, decide_false, Bool.false_eq_true, if_false, Option.bind_eq_bind,
        Option.bind_some] at he
      obtain ⟨hprev, hte⟩ := ih he
      refine ⟨hprev, hte.imp (fun hte => ⟨fun d hd => ?_, hte.2⟩) id⟩
      rcases List.mem_cons.mp hd with rfl | hd
      · exact fun e' => e e'.symm
      · exact hte.1 d hd

theorem removeHandle_exact {t : Temporal} {s' : TemporalTable} {result : Bool}
    (he : s.removeHandle h (some t) .EXACT = some (s', result)) :
    s'.handleMap h = TemporalEntry.remove t (s.handleMap h) := by
  simp only [removeHandle, Option.bind_eq_bind, Option.bind_eq_some_iff] at he
  obtain ⟨r, hloop, he⟩ := he
  obtain ⟨hprev, hte⟩ := removeLoop_exact hloop
  replace hte : r.te = TemporalEntry.remove t (s.handleMap h) := by
    refine hte.elim (fun hte => hte.2.trans ?_) id
    exact (List.filter_eq_self.mpr fun c hc => decide_eq_true (hte.1 c hc)).symm
  simp only [hprev] at he
  cases he
  exact (Function.update_self ..).trans hte

end Loop

end TemporalTable

end OpenCog
