import OpenCog.Time.TemporalRuns
import OpenCog.Time.TimeServer

/-! Queries of the temporal table, and removals by the same handle, time and criterion: both
go by the same times, so what is removed is what was found. -/
namespace OpenCog

namespace TemporalTable

/-- The representation: the times with their index, the lists of the handles, and the same
pairs on both sides. -/
structure Represents (s : TemporalTable) : Prop where
  times : TimesOk s
  lists : ListsOk s
  paired : Paired s

section Queries
variable {s : TemporalTable} {h : Handle} {t : Temporal} {criterion : TemporalRelationship}

theorem Represents.inMap_iff (hs : Represents s) {g : Handle} {u : Temporal} :
    s.InMap g u ↔ ∃ c ∈ s.handleMap g, c.time = u := by
  refine ⟨hs.paired g u, ?_⟩
  rintro ⟨c, hc, rfl⟩
  exact hs.lists.listed g c hc

/-! ## Pairs of times -/

theorem pairsOf_spec (ok : TimesOk s) {u : Temporal} (hu : u ∈ s.temporalMap.map Prod.fst) :
    ∃ pairs, s.pairsOf u = some pairs ∧ pairs.Nodup ∧ pairs ≠ [] ∧
      ∀ g v, (g, v) ∈ pairs ↔ v = u ∧ s.InMap g v := by
  obtain ⟨⟨key, handles⟩, he, rfl⟩ := List.mem_map.mp hu
  obtain ⟨hnodup, hne⟩ := ok.sets _ he
  refine ⟨handles.map (·, key), by rw [pairsOf, ok.lookup_eq he rfl]; rfl, ?_, ?_, fun g v => ?_⟩
  · exact hnodup.map fun _ _ e => congrArg Prod.fst e
  · simpa using hne
  · simp only [List.mem_map, Prod.mk.injEq]
    constructor
    · rintro ⟨g', hg, rfl, rfl⟩
      exact ⟨rfl, handles, he, hg⟩
    · rintro ⟨rfl, others, hin, hg⟩
      have heq := eq_of_key ok.distinct hin he rfl
      rw [Prod.mk.injEq] at heq
      exact ⟨g, heq.2 ▸ hg, rfl, rfl⟩

theorem pairsOfTimes_spec (ok : TimesOk s) {times : List Temporal}
    (ascending : times.Pairwise (Temporal.rank · < Temporal.rank ·))
    (hin : ∀ u ∈ times, u ∈ s.temporalMap.map Prod.fst) :
    ∃ pairs, s.pairsOfTimes times = some pairs ∧ pairs.Nodup ∧
      ∀ g v, (g, v) ∈ pairs ↔ v ∈ times ∧ s.InMap g v := by
  induction times with
  | nil => exact ⟨[], rfl, List.nodup_nil, by simp⟩
  | cons u times ih =>
    obtain ⟨hlater, hrest⟩ := List.pairwise_cons.mp ascending
    obtain ⟨first, hfirst, hnodup, -, hmem⟩ := pairsOf_spec ok (hin u List.mem_cons_self)
    obtain ⟨rest, hrestpairs, hnodup', hmem'⟩ :=
      ih hrest fun v hv => hin v (List.mem_cons_of_mem u hv)
    refine ⟨first ++ rest, ?_, ?_, fun g v => ?_⟩
    · rw [pairsOfTimes, Option.map_eq_some_iff] at hrestpairs ⊢
      obtain ⟨lists, hlists, rfl⟩ := hrestpairs
      exact ⟨first :: lists, by rw [List.mapM_cons, hfirst, hlists]; rfl, rfl⟩
    · refine List.nodup_append'.mpr ⟨hnodup, hnodup', ?_⟩
      rintro ⟨g, v⟩ hv hv'
      rw [hmem] at hv
      rw [hmem'] at hv'
      exact absurd (congrArg Temporal.rank hv.1) (ne_of_gt (hlater v hv'.1))
    · rw [List.mem_append, hmem, hmem', List.mem_cons, or_and_right]

/-- The loop over the whole list reads the pairs of its times. -/
theorem getAll_eq : s.getAll = s.pairsOfTimes (s.sortedTemporalList.map Cell.time) := by
  unfold getAll pairsOfTimes
  induction s.sortedTemporalList with
  | nil => rfl
  | cons c cs ih =>
    rw [List.foldrM_cons, ih, List.map_cons, List.mapM_cons]
    unfold pairsOf
    cases cs.map Cell.time |>.mapM fun t => (s.lookup t).map fun e => e.2.map (·, t) with
    | none => cases s.lookup c.time <;> rfl
    | some lists => cases s.lookup c.time <;> rfl

/-- With `EXACT` the set of the time is looked up, and the time in the list of a handle. -/
theorem getExact_spec (hs : Represents s) (t : Temporal) :
    ∃ pairs, s.getTime (some t) .EXACT = some pairs ∧ pairs.Nodup ∧
      ∀ g v, (g, v) ∈ pairs ↔ v ∈ ((s.lookup t).map Prod.fst).toList ∧ s.InMap g v := by
  cases hlook : s.lookup t with
  | none => exact ⟨[], by simp only [getTime, hlook], List.nodup_nil, by simp⟩
  | some e =>
    obtain ⟨key, handles⟩ := e
    obtain ⟨he, hr⟩ := lookup_mem hlook
    obtain ⟨hnodup, hne⟩ := hs.times.sets _ he
    cases handles with
    | nil => exact absurd rfl hne
    | cons g gs =>
      have hkey : s.internalTime t g = some key := by
        obtain ⟨c, hc, hce⟩ := hs.paired g key ⟨_, he, List.mem_cons_self⟩
        have hfound : ((s.handleMap g).find? fun c => decide (t.compareTo c.time = 0)).isSome := by
          rw [List.find?_isSome]
          exact ⟨c, hc, decide_eq_true ((Temporal.compareTo_eq_zero _ _).mpr (hce ▸ hr.symm))⟩
        obtain ⟨d, hd⟩ := Option.isSome_iff_exists.mp hfound
        have hdt := List.find?_some hd
        have hdr : t.rank = d.time.rank := (Temporal.compareTo_eq_zero _ _).mp (by simpa using hdt)
        have hdin := hs.lists.listed g d (List.mem_of_find?_eq_some hd)
        have hdk : d.time = key :=
          InMap.eq_of_rank hs.times hdin ⟨_, he, List.mem_cons_self (a := g) (l := gs)⟩
            (hdr.symm.trans hr.symm)
        rw [internalTime, hd, Option.map_some, hdk]
      refine ⟨(g :: gs).reverse.map (·, key), by
        simp only [getTime, hlook, hkey, Option.bind_eq_bind, Option.bind_some], ?_, fun g' v => ?_⟩
      · exact ((List.nodup_reverse.mpr hnodup).map fun _ _ e => congrArg Prod.fst e)
      · simp only [List.mem_map, List.mem_reverse, Prod.mk.injEq, Option.map_some,
          Option.toList_some, List.mem_singleton]
        constructor
        · rintro ⟨x, hx, rfl, rfl⟩
          exact ⟨rfl, _, he, hx⟩
        · rintro ⟨rfl, others, hin, hg⟩
          have heq := eq_of_key hs.times.distinct hin he rfl
          rw [Prod.mk.injEq] at heq
          exact ⟨g', heq.2 ▸ hg, rfl, rfl⟩

/-- A query without a handle returns the pairs of the times that a removal goes by. -/
theorem getTime_spec (hs : Represents s) (t : Option Temporal) (criterion : TemporalRelationship) :
    ∃ times pairs, s.timesToRemove t criterion = some times ∧
      times.Pairwise (Temporal.rank · < Temporal.rank ·) ∧
      (∀ u, u ∈ times ↔ (∃ c ∈ s.sortedTemporalList, c.time = u) ∧ Selects s t criterion u) ∧
      s.getTime t criterion = some pairs ∧ pairs.Nodup ∧
      ∀ g v, (g, v) ∈ pairs ↔ v ∈ times ∧ s.InMap g v := by
  obtain ⟨times, htimes, ascending, hmem⟩ := timesToRemove_spec hs.times t criterion
  have hin : ∀ u ∈ times, u ∈ s.temporalMap.map Prod.fst := by
    intro u hu
    obtain ⟨c, hc, rfl⟩ := ((hmem u).mp hu).1
    exact hs.times.keys.mem_iff.mpr (List.mem_map_of_mem hc)
  obtain ⟨pairs, hpairs, hnodup, hpm⟩ := pairsOfTimes_spec hs.times ascending hin
  cases t with
  | none =>
    obtain rfl := Option.some.inj htimes
    exact ⟨_, pairs, htimes, ascending, hmem, getAll_eq.trans hpairs, hnodup, hpm⟩
  | some t =>
    by_cases he : criterion = .EXACT
    · subst he
      obtain ⟨exact', hexact, hnd, hem⟩ := getExact_spec hs t
      obtain rfl := Option.some.inj htimes
      exact ⟨_, exact', htimes, ascending, hmem, hexact, hnd, hem⟩
    · refine ⟨times, pairs, htimes, ascending, hmem, ?_, hnodup, hpm⟩
      rw [← hpairs]
      cases criterion with
      | EXACT => exact absurd rfl he
      | OVERLAPS =>
        simp only [timesToRemove, getTime] at htimes ⊢
        split at htimes
        · rename_i hnil
          obtain rfl := Option.some.inj htimes
          rw [if_pos hnil]
          rfl
        · rename_i hnil
          rw [if_neg hnil]
          cases hb : s.beforeLimit t with
          | none =>
            rw [hb] at htimes
            cases htimes
          | some cells =>
            rw [hb] at htimes
            obtain rfl := Option.some.inj htimes
            rfl
      | _ =>
        obtain rfl := Option.some.inj htimes
        rfl

/-! ## Times of one handle -/

/-- The times that a query or a removal with a handle goes by. -/
def timesOfHandle (s : TemporalTable) (h : Handle) (t : Option Temporal)
    (criterion : TemporalRelationship) : List Temporal :=
  match t with
  | none => (s.handleMap h).map Cell.time
  | some t => pickedTimes t criterion (s.handleMap h)

theorem get_of_handle (hh : h ≠ UNDEFINED) (t : Option Temporal) (criterion : TemporalRelationship) :
    s.get h t criterion = some ((s.timesOfHandle h t criterion).map (h, ·)) := by
  unfold get
  rw [if_neg hh]
  cases t with
  | none =>
    simp only [getOfHandle, timesOfHandle, List.map_map]
    rfl
  | some t => rfl

theorem timesOfHandle_ascending (hl : ListsOk s) (t : Option Temporal) :
    (s.timesOfHandle h t criterion).Pairwise (Temporal.rank · < Temporal.rank ·) := by
  cases t with
  | none => exact ascending_sublist (hl.sorted h) (List.Sublist.refl _)
  | some t => exact (pickedTimes_spec _ _ _ (hl.sorted h)).1

theorem mem_timesOfHandle (hl : ListsOk s) {t : Option Temporal} {u : Temporal}
    (hu : u ∈ s.timesOfHandle h t criterion) : ∃ c ∈ s.handleMap h, c.time = u := by
  cases t with
  | none => exact List.mem_map.mp hu
  | some t => exact (((pickedTimes_spec _ _ _ (hl.sorted h)).2 u).mp hu).1

end Queries

/-! ## The loop of a removal against the times of the query -/

section Loop
variable {s s' : TemporalTable} {h : Handle} {t : Temporal} {criterion : TemporalRelationship}
  {tail : Option Cell} {r r' : Removal}

theorem removeLoop_cons (c : Cell) (cs : List Cell) :
    removeLoop h (some t) criterion tail (c :: cs) r =
      (r.visit h (some t) criterion tail c).bind fun r =>
        if (matchesTimeCriterion c.time t criterion).2 then some r
        else removeLoop h (some t) criterion tail cs r :=
  rfl

theorem visit_eq (c : Cell) :
    r.visit h (some t) criterion tail c =
      if (matchesTimeCriterion c.time t criterion).1 then
        if criterion.isPrevious then some { r with previousTe := some c, result := true }
        else r.take h tail c
      else some r := by
  simp only [Removal.visit, matchesEntry, Option.isSome_some, true_and]

theorem pickLoop_cons (c : Cell) (cs : List Cell) (previous : Option Temporal) :
    pickLoop t criterion (c :: cs) previous =
      let m := matchesTimeCriterion c.time t criterion
      let previous := if m.1 && criterion.isPrevious then some c.time else previous
      let rest := if m.2 then ([], previous) else pickLoop t criterion cs previous
      (if m.1 && !criterion.isPrevious then c.time :: rest.1 else rest.1, rest.2) :=
  rfl

theorem pickLoop_keeps (u : Temporal) (cs : List Cell) :
    (pickLoop t criterion cs (some u)).2.isSome = true := by
  induction cs generalizing u with
  | nil => rfl
  | cons c cs ih =>
    rw [pickLoop_cons]
    by_cases hm : (matchesTimeCriterion c.time t criterion).1 && criterion.isPrevious
    · by_cases hf : (matchesTimeCriterion c.time t criterion).2 = true
      · simp [hm, hf]
      · simp [hm, hf, ih]
    · by_cases hf : (matchesTimeCriterion c.time t criterion).2 = true
      · simp [hm, hf]
      · simp [hm, hf, ih]

theorem take_fields {c : Cell} (hr : r.take h tail c = some r') :
    r'.te = TemporalEntry.remove c.time r.te ∧ r'.previousTe = r.previousTe ∧
      r'.result = true := by
  simp only [Removal.take, Option.bind_eq_bind, Option.bind_eq_some_iff, Option.some.injEq] at hr
  obtain ⟨table, -, rfl⟩ := hr
  exact ⟨rfl, rfl, rfl⟩

/-- Without a time the loop takes every cell. -/
theorem removeLoop_none {cs : List Cell}
    (hr : removeLoop h none criterion tail cs r = some r') :
    r'.te = r.te.filter (fun c => decide (c.time ∉ cs.map Cell.time)) ∧
      r'.previousTe = r.previousTe ∧ r'.result = (r.result || !cs.isEmpty) := by
  induction cs generalizing r with
  | nil =>
    obtain rfl := Option.some.inj hr
    refine ⟨?_, rfl, by simp⟩
    exact (List.filter_eq_self.mpr fun c _ => by simp).symm
  | cons c cs ih =>
    simp only [removeLoop, Removal.visit, matchesEntry, Option.isSome_none, Bool.false_eq_true,
      false_and, if_true, if_false, Option.bind_eq_bind, Option.bind_eq_some_iff] at hr
    obtain ⟨r₁, htake, hrest⟩ := hr
    obtain ⟨hte, hprev, hres⟩ := take_fields htake
    obtain ⟨hte', hprev', hres'⟩ := ih hrest
    refine ⟨?_, hprev'.trans hprev, by simp [hres', hres]⟩
    rw [hte', hte, TemporalEntry.remove, List.filter_filter]
    apply List.filter_congr
    intro x _
    simp only [List.map_cons, List.mem_cons, not_or, Bool.decide_and, ne_eq]
    exact Bool.and_comm ..

/-- The loop with a time takes what `pickLoop` picks, and keeps the last match as it does. -/
theorem removeLoop_picks {cs : List Cell}
    (hflag : r.previousTe.isSome = true → r.result = true)
    (hr : removeLoop h (some t) criterion tail cs r = some r') :
    r'.te = r.te.filter (fun c =>
        decide (c.time ∉ (pickLoop t criterion cs (r.previousTe.map Cell.time)).1)) ∧
      r'.previousTe.map Cell.time = (pickLoop t criterion cs (r.previousTe.map Cell.time)).2 ∧
      r'.result = (r.result || !(pickLoop t criterion cs (r.previousTe.map Cell.time)).1.isEmpty ||
        (pickLoop t criterion cs (r.previousTe.map Cell.time)).2.isSome) := by
  induction cs generalizing r with
  | nil =>
    obtain rfl := Option.some.inj hr
    refine ⟨(List.filter_eq_self.mpr fun c _ => by simp [pickLoop]).symm, rfl, ?_⟩
    cases hp : r.previousTe with
    | none => simp [pickLoop]
    | some c => simp [pickLoop, hflag (by rw [hp]; rfl)]
  | cons c cs ih =>
    rw [removeLoop_cons, Option.bind_eq_some_iff] at hr
    obtain ⟨r₁, hvisit, hrest⟩ := hr
    rw [visit_eq] at hvisit
    rw [pickLoop_cons]
    by_cases hm : (matchesTimeCriterion c.time t criterion).1 = true
    · rw [if_pos hm] at hvisit
      by_cases hp : criterion.isPrevious = true
      · -- the match takes the place of the one before
        rw [if_pos hp] at hvisit
        obtain rfl := Option.some.inj hvisit
        simp only [hm, hp, Bool.and_self, if_true, Bool.not_true, Bool.and_false,
          Bool.false_eq_true, if_false]
        split at hrest
        · rename_i hf
          obtain rfl := Option.some.inj hrest
          simp only [hf, if_true]
          exact ⟨(List.filter_eq_self.mpr fun x _ => by simp).symm, rfl, by simp⟩
        · rename_i hf
          simp only [hf, Bool.false_eq_true, if_false]
          obtain ⟨hte, hprev, hres⟩ := ih (fun _ => rfl) hrest
          refine ⟨hte, hprev, ?_⟩
          rw [hres]
          simp only [Option.map_some, pickLoop_keeps, Bool.or_true]
      · rw [if_neg hp] at hvisit
        obtain ⟨hte₁, hprev₁, hres₁⟩ := take_fields hvisit
        rw [Bool.not_eq_true] at hp
        simp only [hm, hp, Bool.and_false, Bool.false_eq_true, if_false, Bool.not_false,
          Bool.and_self, if_true]
        split at hrest
        · rename_i hf
          obtain rfl := Option.some.inj hrest
          simp only [hf, if_true, hte₁, hprev₁, hres₁, TemporalEntry.remove]
          refine ⟨List.filter_congr fun x _ => by simp, trivial, by simp⟩
        · rename_i hf
          simp only [hf, Bool.false_eq_true, if_false]
          obtain ⟨hte, hprev, hres⟩ := ih (fun _ => hres₁) hrest
          rw [hprev₁] at hte hprev hres
          refine ⟨?_, hprev, by rw [hres, hres₁]; simp⟩
          rw [hte, hte₁, TemporalEntry.remove, List.filter_filter]
          apply List.filter_congr
          intro x _
          simp only [List.mem_cons, not_or, Bool.decide_and, ne_eq]
          exact Bool.and_comm ..
    · rw [if_neg hm] at hvisit
      obtain rfl := Option.some.inj hvisit
      rw [Bool.not_eq_true] at hm
      simp only [hm, Bool.false_and, Bool.false_eq_true, if_false]
      split at hrest
      · rename_i hf
        obtain rfl := Option.some.inj hrest
        simp only [hf, if_true]
        refine ⟨(List.filter_eq_self.mpr fun x _ => by simp).symm, trivial, ?_⟩
        cases hp : r.previousTe with
        | none => simp
        | some x => simp [hflag (by rw [hp]; rfl)]
      · rename_i hf
        simp only [hf, Bool.false_eq_true, if_false]
        exact ih hflag hrest

/-- A removal with a handle takes the times of the query out of the list. -/
theorem removeHandle_times {t : Option Temporal} {result : Bool}
    (he : s.removeHandle h t criterion = some (s', result)) :
    s'.handleMap h = (s.handleMap h).filter
        (fun c => decide (c.time ∉ s.timesOfHandle h t criterion)) ∧
      (result = true ↔ s.timesOfHandle h t criterion ≠ []) := by
  simp only [removeHandle, Option.bind_eq_bind, Option.bind_eq_some_iff] at he
  obtain ⟨r, hloop, he⟩ := he
  cases t with
  | none =>
    obtain ⟨hte, hprev, hres⟩ := removeLoop_none hloop
    simp only [hprev] at he
    cases he
    refine ⟨(Function.update_self ..).trans hte, ?_⟩
    rw [hres, timesOfHandle]
    cases s.handleMap h <;> simp
  | some t =>
    obtain ⟨hte, hprev, hres⟩ := removeLoop_picks (by intro hn; cases hn) hloop
    rw [Option.map_none] at hte hprev hres
    have hflag : r.result = true ↔ s.timesOfHandle h (some t) criterion ≠ [] := by
      rw [hres, timesOfHandle, pickedTimes]
      cases (pickLoop t criterion (s.handleMap h) none).1 <;>
        cases (pickLoop t criterion (s.handleMap h) none).2 <;> simp
    cases hp : r.previousTe with
    | none =>
      rw [hp, Option.map_none] at hprev
      simp only [hp, Option.bind_some, Option.some.injEq, Prod.mk.injEq] at he
      obtain ⟨rfl, rfl⟩ := he
      refine ⟨(Function.update_self ..).trans ?_, hflag⟩
      rw [hte, timesOfHandle, pickedTimes, ← hprev, Option.toList_none, List.append_nil]
    | some c =>
      rw [hp, Option.map_some] at hprev
      cases hpair : r.table.removePair h c.time with
      | none => simp [hp, hpair] at he
      | some table =>
        simp only [hp, hpair, Option.bind_some, Option.some.injEq, Prod.mk.injEq] at he
        obtain ⟨rfl, rfl⟩ := he
        refine ⟨(Function.update_self ..).trans ?_, hflag⟩
        rw [hte, timesOfHandle, pickedTimes, ← hprev, TemporalEntry.remove, List.filter_filter]
        apply List.filter_congr
        intro x _
        simp only [Option.toList_some, List.mem_append, List.mem_singleton, not_or,
          Bool.decide_and, ne_eq]
        exact Bool.and_comm ..

end Loop

/-! ## What a removal takes -/

section Removal
variable {s : TemporalTable} {h : Handle}

/-- Exact removals of times, from the first to the last. -/
theorem removeTimes_takes (times : List Temporal) (hs : Represents s) :
    ∃ s', times.foldlM removeExact s = some s' ∧ Represents s' ∧
      ∀ g u, s'.InMap g u ↔ s.InMap g u ∧ ∀ v ∈ times, u.rank ≠ v.rank := by
  induction times generalizing s with
  | nil => exact ⟨s, rfl, hs, by simp⟩
  | cons t times ih =>
    obtain ⟨s₁, hs₁, ok₁, d⟩ := removeExact_spec hs.times hs.lists t
    obtain ⟨s', hs', hr', hmap⟩ := ih ⟨ok₁, d.listsOk hs.lists, d.paired hs.paired⟩
    refine ⟨s', by rw [List.foldlM_cons, hs₁]; exact hs', hr', fun g u => ?_⟩
    rw [hmap, d.inMap, List.forall_mem_cons, and_assoc]

theorem removeTime_takes (hs : Represents s) (t : Option Temporal)
    (criterion : TemporalRelationship) :
    ∃ pairs s' flag, s.getTime t criterion = some pairs ∧
      s.removeTime t criterion = some (s', flag) ∧ (flag = true ↔ pairs ≠ []) ∧ Represents s' ∧
      ∀ g u, s'.InMap g u ↔ s.InMap g u ∧ (g, u) ∉ pairs := by
  obtain ⟨times, pairs, htimes, -, hmem, hget, -, hpairs⟩ := getTime_spec hs t criterion
  obtain ⟨s', hs', hr', hmap⟩ := removeTimes_takes times hs
  have htaken : ∀ u ∈ times, ∃ g, s.InMap g u := by
    intro u hu
    obtain ⟨c, hc, rfl⟩ := ((hmem u).mp hu).1
    obtain ⟨⟨key, handles⟩, he, hkey⟩ := List.mem_map.mp
      (hs.times.keys.mem_iff.mpr (List.mem_map_of_mem hc))
    obtain rfl : key = c.time := hkey
    obtain ⟨g, hg⟩ := List.exists_mem_of_ne_nil _ (hs.times.sets _ he).2
    exact ⟨g, handles, he, hg⟩
  refine ⟨pairs, s', !times.isEmpty, hget, by simp [removeTime, htimes, hs'], ?_, hr',
    fun g u => ?_⟩
  · constructor
    · intro hflag hnil
      cases times with
      | nil => cases hflag
      | cons u times =>
        obtain ⟨g, hg⟩ := htaken u List.mem_cons_self
        have hin : (g, u) ∈ pairs := (hpairs g u).mpr ⟨List.mem_cons_self, hg⟩
        rw [hnil] at hin
        cases hin
    · intro hne
      obtain ⟨⟨g, u⟩, hin⟩ := List.exists_mem_of_ne_nil _ hne
      have hu := ((hpairs g u).mp hin).1
      cases times with
      | nil => cases hu
      | cons => rfl
  · rw [hmap, hpairs]
    constructor
    · rintro ⟨hin, hall⟩
      exact ⟨hin, fun hu => hall u hu.1 rfl⟩
    · rintro ⟨hin, hno⟩
      refine ⟨hin, fun v hv hr => ?_⟩
      obtain ⟨g', hg'⟩ := htaken v hv
      obtain rfl := InMap.eq_of_rank hs.times hin hg' hr
      exact hno ⟨hv, hin⟩

theorem removeHandle_takes (hs : Represents s) (t : Option Temporal)
    (criterion : TemporalRelationship) :
    ∃ s' flag, s.removeHandle h t criterion = some (s', flag) ∧
      (flag = true ↔ s.timesOfHandle h t criterion ≠ []) ∧ Represents s' ∧
      ∀ g u, s'.InMap g u ↔
        s.InMap g u ∧ (g, u) ∉ (s.timesOfHandle h t criterion).map (h, ·) := by
  obtain ⟨s', flag, hrem, ok', d, -⟩ := removeHandle_spec hs.times hs.lists h t criterion
  obtain ⟨hlist, hflag⟩ := removeHandle_times hrem
  refine ⟨s', flag, hrem, hflag, ⟨ok', d.listsOk hs.lists, d.paired hs.paired⟩, fun g u => ?_⟩
  by_cases hg : g = h
  · subst hg
    rw [d.own, hlist]
    simp only [List.mem_filter, decide_eq_true_eq, List.mem_map, Prod.mk.injEq, true_and,
      exists_eq_right]
    constructor
    · rintro ⟨hin, hkept⟩
      obtain ⟨c, ⟨-, hno⟩, rfl⟩ := hkept (hs.paired g u hin)
      exact ⟨hin, hno⟩
    · rintro ⟨hin, hno⟩
      refine ⟨hin, fun _ => ?_⟩
      obtain ⟨c, hc, rfl⟩ := hs.paired g u hin
      exact ⟨c, ⟨hc, hno⟩, rfl⟩
  · rw [d.others g u hg]
    refine ⟨fun hin => ⟨hin, fun hpair => hg ?_⟩, And.left⟩
    obtain ⟨_, -, he⟩ := List.mem_map.mp hpair
    exact (congrArg Prod.fst he).symm

/-- A removal reports whether the query finds anything, and takes exactly what it finds out
of the sets of the times and the lists of the handles. -/
theorem removal_takes_what_query_finds (s : TemporalTable) (hs : Represents s) (h : Handle)
    (t : Option Temporal) (criterion : TemporalRelationship) :
    ∃ pairs s' flag, s.get h t criterion = some pairs ∧
      s.remove h t criterion = some (s', flag) ∧ (flag = true ↔ pairs ≠ []) ∧ Represents s' ∧
      (∀ g u, s'.InMap g u ↔ s.InMap g u ∧ (g, u) ∉ pairs) ∧
      ∀ g u, (∃ c ∈ s'.handleMap g, c.time = u) ↔
        (∃ c ∈ s.handleMap g, c.time = u) ∧ (g, u) ∉ pairs := by
  by_cases hh : h = UNDEFINED
  · obtain ⟨pairs, s', flag, hget, hrem, hflag, hr', hmap⟩ := removeTime_takes hs t criterion
    refine ⟨pairs, s', flag, ?_, ?_, hflag, hr', hmap, fun g u => ?_⟩
    · unfold get
      rw [if_pos hh, hget]
    · rw [remove, if_pos hh, hrem]
    · rw [← hr'.inMap_iff, ← hs.inMap_iff, hmap]
  · obtain ⟨s', flag, hrem, hflag, hr', hmap⟩ := removeHandle_takes (h := h) hs t criterion
    refine ⟨_, s', flag, get_of_handle hh t criterion, ?_, ?_, hr', hmap, fun g u => ?_⟩
    · rw [remove, if_neg hh, hrem]
    · rw [hflag, ne_eq, ne_eq, List.map_eq_nil_iff]
    · rw [← hr'.inMap_iff, ← hs.inMap_iff, hmap]

theorem represents_of_reachable (r : Reachable Spares s) : Represents s :=
  ⟨r.ok.1, r.ok.2, r.paired.1⟩

/-- Times 3 and 5 of one handle: the removal of what starts before 5 takes time 3. -/
theorem removal_takes_earlier_time :
    ∃ s : TemporalTable, Reachable Spares s ∧
      ∃ pairs s' flag, s.get 1 (some (instant 5 (by decide))) .STARTS_BEFORE = some pairs ∧
        s.remove 1 (some (instant 5 (by decide))) .STARTS_BEFORE = some (s', flag) ∧
        (flag = true ↔ pairs ≠ []) ∧ Represents s' ∧
        (∀ g u, s'.InMap g u ↔ s.InMap g u ∧ (g, u) ∉ pairs) ∧
        ∀ g u, (∃ c ∈ s'.handleMap g, c.time = u) ↔
          (∃ c ∈ s.handleMap g, c.time = u) ∧ (g, u) ∉ pairs := by
  have r := (Reachable.empty : Reachable Spares empty)
    |>.step (.add 1 (some (instant 3 (by decide)))) trivial rfl
    |>.step (.add 1 (some (instant 5 (by decide)))) trivial rfl
  exact ⟨_, r, removal_takes_what_query_finds _ (represents_of_reachable r) _ _ _⟩

end Removal

end TemporalTable

end OpenCog
