import OpenCog.Time.TemporalOrder
import OpenCog.Time.TemporalQueries

/-! What a query returns against the documented relations of its criterion. The scans stop by
the lower bound alone, which is right unless an upper bound has wrapped below it. -/
namespace OpenCog

/-- The documented relation of a stored time `u` to the time `t` of the query; for the `NEXT`
and `PREVIOUS` criteria the one of which the extremal time is asked for. -/
def TemporalRelationship.relates (u t : Temporal) : TemporalRelationship → Prop
  | .EXACT => u.getLowerBound = t.getLowerBound ∧ u.getUpperBound = t.getUpperBound ∧
      u.normal = t.normal
  | .STARTS_BEFORE => u.getLowerBound < t.getLowerBound
  | .STARTS_WITHIN => t.getLowerBound ≤ u.getLowerBound ∧ u.getLowerBound ≤ t.getUpperBound
  | .STARTS_AFTER => t.getUpperBound < u.getLowerBound
  | .ENDS_BEFORE => u.getUpperBound < t.getLowerBound
  | .ENDS_WITHIN => t.getLowerBound ≤ u.getUpperBound ∧ u.getUpperBound ≤ t.getUpperBound
  | .ENDS_AFTER => t.getUpperBound < u.getUpperBound
  | .OVERLAPS => t.getLowerBound ≤ u.getUpperBound ∧ u.getLowerBound ≤ t.getUpperBound
  | .INCLUDES => u.getLowerBound ≤ t.getLowerBound ∧ t.getUpperBound ≤ u.getUpperBound
  | .NEXT_AFTER_START_OF => t.getLowerBound < u.getLowerBound
  | .NEXT_AFTER_END_OF => t.getUpperBound < u.getLowerBound
  | .PREVIOUS_BEFORE_START_OF => u.getLowerBound < t.getLowerBound
  | .PREVIOUS_BEFORE_END_OF => u.getLowerBound < t.getUpperBound

def TemporalRelationship.isNext (criterion : TemporalRelationship) : Bool :=
  criterion = .NEXT_AFTER_START_OF || criterion = .NEXT_AFTER_END_OF

namespace TemporalTable

/-- The cells a query with this handle goes through. -/
def scanned (s : TemporalTable) (h : Handle) : List Cell :=
  if h = UNDEFINED then s.sortedTemporalList else s.handleMap h

/-- A time among these cells that the criterion asks for: it is in the relation, and is the
first one in it for `NEXT`, the last one for `PREVIOUS`. -/
structure Documented (cs : List Cell) (t : Temporal) (criterion : TemporalRelationship)
    (u : Temporal) : Prop where
  relates : criterion.relates u t
  next : criterion.isNext = true → ∀ c ∈ cs, criterion.relates c.time t → u.rank ≤ c.rank
  previous : criterion.isPrevious = true → ∀ c ∈ cs, criterion.relates c.time t → c.rank ≤ u.rank

/-- What the query should return: the pairs of the handle, or of all of them, with a time
that is asked for. Without a time that is every pair. -/
def Wanted (s : TemporalTable) (h : Handle) (t : Option Temporal)
    (criterion : TemporalRelationship) (g : Handle) (u : Temporal) : Prop :=
  s.InMap g u ∧ (h = UNDEFINED ∨ g = h) ∧
    ∀ t', t = some t' → Documented (s.scanned h) t' criterion u

/-- Where the scan of these cells is not misled. -/
def ScanSound (cs : List Cell) (t : Temporal) : TemporalRelationship → Prop
  | .EXACT => ∀ c ∈ cs, c.rank = t.rank → c.time = t
  | .ENDS_BEFORE => ∀ d ∈ cs, ∀ c ∈ cs, d.rank < c.rank →
      t.getLowerBound ≤ d.time.getLowerBound → t.getLowerBound ≤ d.time.getUpperBound →
        t.getLowerBound ≤ c.time.getUpperBound
  | .ENDS_WITHIN => ∀ d ∈ cs, ∀ c ∈ cs, d.rank < c.rank →
      t.getUpperBound < d.time.getLowerBound →
        TemporalRelationship.ENDS_WITHIN.relates c.time t →
          TemporalRelationship.ENDS_WITHIN.relates d.time t
  | _ => True

/-- Where a query is not misled. Without a handle `EXACT` looks its time up, and `OVERLAPS`
passes over the cells before the one its search starts from. -/
def QuerySound (s : TemporalTable) (h : Handle) (t : Temporal) :
    TemporalRelationship → Prop
  | .EXACT => h = UNDEFINED ∨ ScanSound (s.handleMap h) t .EXACT
  | .OVERLAPS => h = UNDEFINED → ∀ start, s.getPreviousTemporalEntry t = some (some start) →
      ∀ c ∈ s.sortedTemporalList, c.rank < start.rank →
        t.getLowerBound ≤ c.time.getUpperBound → c.time.getLowerBound ≤ t.getUpperBound
  | criterion => ScanSound (s.scanned h) t criterion

section Scan
variable {s : TemporalTable} {h : Handle} {t u : Temporal} {criterion : TemporalRelationship}
  {cs : List Cell}

theorem rank_eq_iff : u.rank = t.rank ↔ TemporalRelationship.EXACT.relates u t := by
  simp only [Temporal.rank, TemporalRelationship.relates, toLex_inj, Prod.mk.injEq]
  cases u.normal <;> cases t.normal <;> simp

theorem documented_iff (hn : criterion.isNext = false) (hp : criterion.isPrevious = false) :
    Documented cs t criterion u ↔ criterion.relates u t := by
  refine ⟨Documented.relates, fun hr => ⟨hr, ?_, ?_⟩⟩
  · intro he
    rw [hn] at he
    cases he
  · intro he
    rw [hp] at he
    cases he

/-- Apart from `EXACT`, a match is being in the relation. -/
theorem matches_iff (he : criterion ≠ .EXACT) :
    (matchesTimeCriterion u t criterion).1 = true ↔ criterion.relates u t := by
  cases criterion <;>
    simp [matchesTimeCriterion, TemporalRelationship.relates] at he ⊢

/-- A time in the relation is picked unless the scan has ended at a time before it. -/
theorem mem_picked (sorted : cs.Pairwise (Cell.rank · < Cell.rank ·)) (he : criterion ≠ .EXACT)
    (hp : criterion.isPrevious = false) : u ∈ pickedTimes t criterion cs ↔
      (∃ c ∈ cs, c.time = u) ∧ criterion.relates u t ∧
        ∀ d ∈ cs, d.rank < u.rank → (matchesTimeCriterion d.time t criterion).2 = false := by
  rw [(pickedTimes_spec _ _ cs sorted).2, matches_iff he, hp]
  rfl

/-- The criteria whose scan ends for good: no later time is in the relation. -/
theorem picked_of_final (sorted : cs.Pairwise (Cell.rank · < Cell.rank ·)) (he : criterion ≠ .EXACT)
    (hn : criterion.isNext = false) (hp : criterion.isPrevious = false)
    (final : ∀ d : Temporal, d.rank < u.rank → criterion.relates u t →
      (matchesTimeCriterion d t criterion).2 = false) :
    u ∈ pickedTimes t criterion cs ↔
      (∃ c ∈ cs, c.time = u) ∧ Documented cs t criterion u := by
  rw [mem_picked sorted he hp, documented_iff hn hp]
  exact and_congr_right fun _ => and_iff_left_of_imp fun hr d _ hlt => final d.time hlt hr

/-- A `NEXT` scan ends at the first match. -/
theorem picked_next (sorted : cs.Pairwise (Cell.rank · < Cell.rank ·))
    (hn : criterion.isNext = true) : u ∈ pickedTimes t criterion cs ↔
      (∃ c ∈ cs, c.time = u) ∧ Documented cs t criterion u := by
  have hp : criterion.isPrevious = false := by
    cases criterion <;> simp_all [TemporalRelationship.isNext, TemporalRelationship.isPrevious]
  have he : criterion ≠ .EXACT := by
    rintro rfl
    cases hn
  have hends : ∀ d : Temporal, (matchesTimeCriterion d t criterion).2 = false ↔
      ¬ criterion.relates d t := by
    intro d
    cases criterion <;> simp_all [TemporalRelationship.isNext, matchesTimeCriterion,
      TemporalRelationship.relates]
  rw [mem_picked sorted he hp]
  refine and_congr_right fun _ => ?_
  constructor
  · rintro ⟨hr, hno⟩
    refine ⟨hr, fun _ c hc hrel => ?_, fun hprev => ?_⟩
    · by_contra hlt
      exact (hends c.time).mp (hno c hc (not_le.mp hlt)) hrel
    · rw [hp] at hprev
      cases hprev
  · intro hd
    refine ⟨hd.relates, fun d hdin hlt => (hends d.time).mpr fun hrel => ?_⟩
    exact absurd (hd.next hn d hdin hrel) (not_le.mpr hlt)

/-- A `PREVIOUS` scan keeps the last match. -/
theorem picked_previous (sorted : cs.Pairwise (Cell.rank · < Cell.rank ·))
    (hp : criterion.isPrevious = true) : u ∈ pickedTimes t criterion cs ↔
      (∃ c ∈ cs, c.time = u) ∧ Documented cs t criterion u := by
  have he : criterion ≠ .EXACT := by
    rintro rfl
    cases hp
  have hn : criterion.isNext = false := by
    cases criterion <;> simp_all [TemporalRelationship.isNext, TemporalRelationship.isPrevious]
  rw [(pickedTimes_spec _ _ cs sorted).2, matches_iff he, if_pos hp]
  refine and_congr_right fun _ => ?_
  constructor
  · rintro ⟨hr, hno⟩
    refine ⟨hr, fun hnext => ?_, fun _ c hc hrel => ?_⟩
    · rw [hn] at hnext
      cases hnext
    · by_contra hlt
      have hmatch := hno c hc (not_le.mp hlt)
      rw [(matches_iff he).mpr hrel] at hmatch
      cases hmatch
  · intro hd
    refine ⟨hd.relates, fun d hdin hlt => Bool.eq_false_iff.mpr fun hmatch => ?_⟩
    exact absurd (hd.previous hp d hdin ((matches_iff he).mp hmatch)) (not_le.mpr hlt)

/-- With `EXACT` the scan looks for the fields of the time, the relation for its bounds. -/
theorem picked_exact (sorted : cs.Pairwise (Cell.rank · < Cell.rank ·)) :
    (∀ u, u ∈ pickedTimes t .EXACT cs ↔ (∃ c ∈ cs, c.time = u) ∧ Documented cs t .EXACT u) ↔
      ScanSound cs t .EXACT := by
  have hpicked : ∀ u, u ∈ pickedTimes t .EXACT cs ↔ (∃ c ∈ cs, c.time = u) ∧ u = t := by
    intro u
    rw [(pickedTimes_spec _ _ cs sorted).2]
    refine and_congr_right fun _ => ⟨fun h => (of_decide_eq_true h.1).symm, ?_⟩
    rintro rfl
    refine ⟨decide_eq_true rfl, fun d _ hlt => decide_eq_false ?_⟩
    rintro rfl
    exact lt_irrefl _ hlt
  simp only [hpicked, documented_iff (show TemporalRelationship.EXACT.isNext = false from rfl) rfl,
    ← rank_eq_iff]
  constructor
  · intro h c hc hr
    exact ((h c.time).mpr ⟨⟨c, hc, rfl⟩, hr⟩).2
  · intro h u
    refine and_congr_right fun hu => ⟨fun e => e ▸ rfl, fun hr => ?_⟩
    obtain ⟨c, hc, rfl⟩ := hu
    exact h c hc hr

theorem picked_ends_before (sorted : cs.Pairwise (Cell.rank · < Cell.rank ·)) :
    (∀ u, u ∈ pickedTimes t .ENDS_BEFORE cs ↔
        (∃ c ∈ cs, c.time = u) ∧ Documented cs t .ENDS_BEFORE u) ↔
      ScanSound cs t .ENDS_BEFORE := by
  have hends : ∀ d : Temporal, (matchesTimeCriterion d t .ENDS_BEFORE).2 = false ↔
      (t.getLowerBound ≤ d.getLowerBound → d.getUpperBound < t.getLowerBound) := by
    intro d
    simp only [matchesTimeCriterion, Bool.and_eq_false_iff, Bool.not_eq_false',
      decide_eq_true_eq, decide_eq_false_iff_not]
    tauto
  simp only [mem_picked sorted (show TemporalRelationship.ENDS_BEFORE ≠ .EXACT by decide) rfl,
    documented_iff (show TemporalRelationship.ENDS_BEFORE.isNext = false from rfl) rfl, hends]
  constructor
  · intro h d hd c hc hlt hlow hup
    by_contra hbefore
    have := ((h c.time).mpr ⟨⟨c, hc, rfl⟩, not_le.mp hbefore⟩).2.2 d hd hlt hlow
    omega
  · intro h u
    refine and_congr_right fun hu => and_iff_left_of_imp fun hr d hd hlt hlow => ?_
    obtain ⟨c, hc, rfl⟩ := hu
    by_contra hup
    exact absurd hr (not_lt.mpr (h d hd c hc hlt hlow (not_lt.mp hup)))

theorem picked_ends_within (sorted : cs.Pairwise (Cell.rank · < Cell.rank ·)) :
    (∀ u, u ∈ pickedTimes t .ENDS_WITHIN cs ↔
        (∃ c ∈ cs, c.time = u) ∧ Documented cs t .ENDS_WITHIN u) ↔
      ScanSound cs t .ENDS_WITHIN := by
  have hends : ∀ d : Temporal, (matchesTimeCriterion d t .ENDS_WITHIN).2 = false ↔
      (t.getUpperBound < d.getLowerBound → TemporalRelationship.ENDS_WITHIN.relates d t) := by
    intro d
    simp only [matchesTimeCriterion, Bool.and_eq_false_iff, Bool.not_eq_false',
      decide_eq_true_eq, decide_eq_false_iff_not, TemporalRelationship.relates]
    tauto
  simp only [mem_picked sorted (show TemporalRelationship.ENDS_WITHIN ≠ .EXACT by decide) rfl,
    documented_iff (show TemporalRelationship.ENDS_WITHIN.isNext = false from rfl) rfl, hends]
  constructor
  · intro h d hd c hc hlt hlow hr
    exact ((h c.time).mpr ⟨⟨c, hc, rfl⟩, hr⟩).2.2 d hd hlt hlow
  · intro h u
    refine and_congr_right fun hu => and_iff_left_of_imp fun hr d hd hlt hlow => ?_
    obtain ⟨c, hc, rfl⟩ := hu
    exact h d hd c hc hlt hlow hr

/-- The scan of sorted cells finds what the criterion asks for exactly where it is not misled. -/
theorem picked_iff (sorted : cs.Pairwise (Cell.rank · < Cell.rank ·)) (t : Temporal)
    (criterion : TemporalRelationship) :
    (∀ u, u ∈ pickedTimes t criterion cs ↔
        (∃ c ∈ cs, c.time = u) ∧ Documented cs t criterion u) ↔ ScanSound cs t criterion := by
  cases criterion with
  | EXACT => exact picked_exact sorted
  | ENDS_BEFORE => exact picked_ends_before sorted
  | ENDS_WITHIN => exact picked_ends_within sorted
  | NEXT_AFTER_START_OF => exact iff_of_true (fun u => picked_next sorted rfl) trivial
  | NEXT_AFTER_END_OF => exact iff_of_true (fun u => picked_next sorted rfl) trivial
  | PREVIOUS_BEFORE_START_OF => exact iff_of_true (fun u => picked_previous sorted rfl) trivial
  | PREVIOUS_BEFORE_END_OF => exact iff_of_true (fun u => picked_previous sorted rfl) trivial
  | STARTS_AFTER =>
    exact iff_of_true (fun u => picked_of_final sorted (by decide) rfl rfl fun _ _ _ => rfl) trivial
  | ENDS_AFTER =>
    exact iff_of_true (fun u => picked_of_final sorted (by decide) rfl rfl fun _ _ _ => rfl) trivial
  | _ =>
    refine iff_of_true (fun u => picked_of_final sorted (by decide) rfl rfl fun d hlt hr => ?_) trivial
    have hlow := Temporal.getLowerBound_mono hlt.le
    simp only [TemporalRelationship.relates] at hr
    simp only [matchesTimeCriterion, Bool.and_eq_false_iff, Bool.not_eq_false',
      decide_eq_true_eq, decide_eq_false_iff_not]
    omega

/-! ## Queries -/

/-- A query returns, and returns exactly the pairs asked for, each of them once. -/
def AnswersQuery (s : TemporalTable) (h : Handle) (t : Option Temporal)
    (criterion : TemporalRelationship) : Prop :=
  ∃ pairs, s.get h t criterion = some pairs ∧ pairs.Nodup ∧
    ∀ g u, (g, u) ∈ pairs ↔ s.Wanted h t criterion g u

theorem wanted_of_handle (hs : Represents s) (hh : h ≠ UNDEFINED) {g : Handle} :
    s.Wanted h (some t) criterion g u ↔
      g = h ∧ (∃ c ∈ s.handleMap h, c.time = u) ∧ Documented (s.handleMap h) t criterion u := by
  unfold Wanted
  rw [scanned, if_neg hh]
  constructor
  · rintro ⟨hin, hg, hdoc⟩
    obtain rfl := hg.resolve_left hh
    exact ⟨rfl, hs.inMap_iff.mp hin, hdoc t rfl⟩
  · rintro ⟨rfl, hin, hdoc⟩
    refine ⟨hs.inMap_iff.mpr hin, Or.inr rfl, fun t' e => ?_⟩
    obtain rfl := Option.some.inj e
    exact hdoc

theorem answers_of_handle (hs : Represents s) (hh : h ≠ UNDEFINED) :
    s.AnswersQuery h (some t) criterion ↔ ScanSound (s.handleMap h) t criterion := by
  rw [← picked_iff (hs.lists.sorted h), AnswersQuery, get_of_handle hh]
  simp only [Option.some.injEq, exists_eq_left', wanted_of_handle hs hh, timesOfHandle,
    List.mem_map, Prod.mk.injEq, exists_eq_right_right]
  constructor
  · rintro ⟨-, hall⟩ u
    have := hall h u
    simpa using this
  · intro hall
    refine ⟨?_, fun g u => ?_⟩
    · have hnodup : (pickedTimes t criterion (s.handleMap h)).Nodup :=
        (pickedTimes_spec _ _ _ (hs.lists.sorted h)).1.imp fun hlt e => absurd (congrArg _ e) hlt.ne
      exact hnodup.map fun _ _ e => (Prod.mk.inj e).2
    · rw [← hall u]
      exact and_comm.trans (and_congr_left fun _ => eq_comm)

/-- The times of the table are those with a pair. -/
theorem exists_inMap_iff (hs : Represents s) :
    (∃ g, s.InMap g u) ↔ ∃ c ∈ s.sortedTemporalList, c.time = u := by
  rw [← List.mem_map, ← hs.times.keys.mem_iff, List.mem_map]
  constructor
  · rintro ⟨g, handles, he, -⟩
    exact ⟨_, he, rfl⟩
  · rintro ⟨⟨key, handles⟩, he, rfl⟩
    obtain ⟨g, hg⟩ := List.exists_mem_of_ne_nil _ (hs.times.sets _ he).2
    exact ⟨g, handles, he, hg⟩

/-- Without a handle a query is right exactly if it goes by the times asked for. -/
theorem answers_of_times (hs : Represents s) :
    s.AnswersQuery UNDEFINED (some t) criterion ↔
      ∀ u, (∃ c ∈ s.sortedTemporalList, c.time = u) →
        (Selects s (some t) criterion u ↔ Documented s.sortedTemporalList t criterion u) := by
  obtain ⟨times, pairs, -, -, hmem, hget, hnodup, hpairs⟩ := getTime_spec hs (some t) criterion
  have hwanted : ∀ g u, s.Wanted UNDEFINED (some t) criterion g u ↔
      s.InMap g u ∧ Documented s.sortedTemporalList t criterion u := by
    intro g u
    simp [Wanted, scanned]
  unfold AnswersQuery get
  simp only [if_true, hget, Option.some.injEq, exists_eq_left', hwanted, hpairs, hmem]
  constructor
  · rintro ⟨-, hall⟩ u hu
    obtain ⟨g, hg⟩ := (exists_inMap_iff hs).mpr hu
    exact ⟨fun hsel => ((hall g u).mp ⟨⟨hu, hsel⟩, hg⟩).2,
      fun hdoc => ((hall g u).mpr ⟨hg, hdoc⟩).1.2⟩
  · intro hall
    refine ⟨hnodup, fun g u => ?_⟩
    constructor
    · rintro ⟨⟨hu, hsel⟩, hin⟩
      exact ⟨hin, (hall u hu).mp hsel⟩
    · rintro ⟨hin, hdoc⟩
      have hu := (exists_inMap_iff hs).mp ⟨g, hin⟩
      exact ⟨⟨hu, (hall u hu).mpr hdoc⟩, hin⟩

theorem selects_overlaps (hs : Represents s) :
    (∀ u, (∃ c ∈ s.sortedTemporalList, c.time = u) →
      (Selects s (some t) .OVERLAPS u ↔ Documented s.sortedTemporalList t .OVERLAPS u)) ↔
      QuerySound s UNDEFINED t .OVERLAPS := by
  simp only [Selects, documented_iff (show TemporalRelationship.OVERLAPS.isNext = false from rfl) rfl,
    TemporalRelationship.relates, QuerySound, forall_const]
  constructor
  · intro h start hstart c hc hlt hup
    refine ((h c.time ⟨c, hc, rfl⟩).mp ⟨hup, fun start' hstart' d _ hfrom hle => ?_⟩).2
    -- no cell stands both after the start and before `c`
    obtain rfl := Option.some.inj (hstart.symm.trans hstart')
    exact absurd (le_trans (hfrom start rfl) hle) (not_le.mpr hlt)
  · rintro h u ⟨c, hc, rfl⟩
    refine and_congr_right fun hup => ⟨fun hscan => ?_, fun hlow start _ d _ _ hle => ?_⟩
    · obtain ⟨start, hstart, -⟩ := getPreviousTemporalEntry_spec hs.times.indexed.live
        hs.times.indexed.ordered (hs.times.indexed.table_ne_nil (List.ne_nil_of_mem hc)) t
      cases start with
      | none => exact hscan none hstart c hc (fun _ e => by cases e) le_rfl
      | some start =>
        by_cases hlt : c.rank < start.rank
        · exact h start hstart c hc hlt hup
        · refine hscan _ hstart c hc (fun _ e => ?_) le_rfl
          obtain rfl := Option.some.inj e
          exact not_lt.mp hlt
    · exact le_trans (Temporal.getLowerBound_mono hle) hlow

theorem answers_without_handle (hs : Represents s) :
    s.AnswersQuery UNDEFINED (some t) criterion ↔ QuerySound s UNDEFINED t criterion := by
  rw [answers_of_times hs]
  by_cases he : criterion = .EXACT
  · subst he
    simp only [Selects, rank_eq_iff,
      documented_iff (show TemporalRelationship.EXACT.isNext = false from rfl) rfl]
    exact iff_of_true (fun _ _ => trivial) (Or.inl rfl)
  by_cases ho : criterion = .OVERLAPS
  · subst ho
    exact selects_overlaps hs
  have hscan := picked_iff hs.times.indexed.sorted t criterion
  have hsound : QuerySound s UNDEFINED t criterion ↔ ScanSound s.sortedTemporalList t criterion := by
    cases criterion <;> simp_all [QuerySound, scanned]
  rw [hsound, ← hscan]
  have hselects : ∀ u, (∃ c ∈ s.sortedTemporalList, c.time = u) →
      (Selects s (some t) criterion u ↔ u ∈ pickedTimes t criterion s.sortedTemporalList) := by
    intro u hu
    rw [(pickedTimes_spec _ _ _ hs.times.indexed.sorted).2]
    cases criterion <;> simp_all [Selects]
  constructor
  · intro h u
    have hin := fun hu => (((pickedTimes_spec t criterion _
      hs.times.indexed.sorted).2 u).mp hu).1
    constructor
    · intro hu
      exact ⟨hin hu, (h u (hin hu)).mp ((hselects u (hin hu)).mpr hu)⟩
    · rintro ⟨hu, hdoc⟩
      exact (hselects u hu).mp ((h u hu).mpr hdoc)
  · intro h u hu
    rw [hselects u hu, h u]
    exact and_iff_right hu

theorem answers_without_time (hs : Represents s) : s.AnswersQuery h none criterion := by
  by_cases hh : h = UNDEFINED
  · subst hh
    obtain ⟨times, pairs, -, -, hmem, hget, hnodup, hpairs⟩ := getTime_spec hs none criterion
    refine ⟨pairs, by unfold get; rw [if_pos rfl, hget], hnodup, fun g u => ?_⟩
    rw [hpairs, hmem, ← exists_inMap_iff hs]
    simp only [Wanted, Selects, reduceCtorEq, false_implies, implies_true, and_true, true_or]
    exact ⟨And.right, fun hin => ⟨⟨g, hin⟩, hin⟩⟩
  · refine ⟨_, get_of_handle hh none criterion, ?_, fun g u => ?_⟩
    · have hnodup : (s.timesOfHandle h none criterion).Nodup :=
        (timesOfHandle_ascending hs.lists none).imp fun hlt e => absurd (congrArg _ e) hlt.ne
      exact hnodup.map fun _ _ e => (Prod.mk.inj e).2
    · simp only [Wanted, timesOfHandle, hs.inMap_iff, hh, false_or, List.mem_map, Prod.mk.injEq,
        reduceCtorEq, false_implies, implies_true, and_true]
      constructor
      · rintro ⟨v, ⟨c, hc, rfl⟩, rfl, rfl⟩
        exact ⟨⟨c, hc, rfl⟩, rfl⟩
      · rintro ⟨⟨c, hc, rfl⟩, rfl⟩
        exact ⟨c.time, ⟨c, hc, rfl⟩, rfl, rfl⟩

/-- A query answers by the documented relation exactly where its scan is not misled; without a
time it always does. -/
theorem query_answers_iff_sound (s : TemporalTable) (hs : Represents s) (h : Handle)
    (t : Option Temporal) (criterion : TemporalRelationship) :
    s.AnswersQuery h t criterion ↔ ∀ t', t = some t' → s.QuerySound h t' criterion := by
  cases t with
  | none => exact iff_of_true (answers_without_time hs) (fun _ e => by cases e)
  | some t =>
    simp only [Option.some.injEq, forall_eq']
    by_cases hh : h = UNDEFINED
    · subst hh
      exact answers_without_handle hs
    · rw [answers_of_handle hs hh]
      cases criterion <;> simp [QuerySound, scanned, hh, ScanSound]

/-- Without wrapped times, in the table and in the query, no scan is misled. -/
theorem querySound_of_unwrapped (hs : Represents s) (ht : ¬ t.Wraps)
    (hcells : ∀ c ∈ s.scanned h, ¬ c.time.Wraps) : QuerySound s h t criterion := by
  have hlow : ∀ c d : Cell, c.rank ≤ d.rank → c.time.getLowerBound ≤ d.time.getLowerBound :=
    fun _ _ hle => Temporal.getLowerBound_mono hle
  cases criterion with
  | EXACT =>
    by_cases hh : h = UNDEFINED
    · exact Or.inl hh
    · rw [scanned, if_neg hh] at hcells
      exact Or.inr fun c hc hr => Temporal.rank_injective (hcells c hc) ht hr
  | OVERLAPS =>
    rintro rfl start hstart c hc hlt -
    obtain ⟨start', hstart', hspec⟩ := getPreviousTemporalEntry_spec hs.times.indexed.live
      hs.times.indexed.ordered (hs.times.indexed.table_ne_nil (List.ne_nil_of_mem hc)) t
    obtain rfl := Option.some.inj (hstart'.symm.trans hstart)
    have hstartlow := Temporal.getLowerBound_mono (hspec start rfl).2
    have := hlow c start hlt.le
    have := Temporal.lower_le_upper ht
    omega
  | ENDS_BEFORE =>
    intro d _ c hc hlt hd _
    have := hlow d c hlt.le
    have := Temporal.lower_le_upper (hcells c hc)
    omega
  | ENDS_WITHIN =>
    intro d _ c hc hlt hd hr
    have := hlow d c hlt.le
    have := Temporal.lower_le_upper (hcells c hc)
    have := hr.2
    omega
  | _ => trivial

/-- Handle 1 at time 10, and at the distribution whose upper bound has wrapped to 0. -/
def withWrapped : Option TemporalTable :=
  (empty.add 1 (some (instant 10 (by decide)))).bind fun s =>
    s.add 1 (some ⟨ULONG_SIZE - 1, 1, true, by decide, by decide, by decide⟩)

theorem represents_withWrapped :
    ∃ s, withWrapped = some s ∧ Represents s ∧
      (s.handleMap 1).map Cell.time = [instant 10 (by decide),
        ⟨ULONG_SIZE - 1, 1, true, by decide, by decide, by decide⟩] := by
  have r := (Reachable.empty : Reachable Spares empty)
    |>.step (.add 1 (some (instant 10 (by decide)))) trivial rfl
    |>.step (.add 1 (some ⟨ULONG_SIZE - 1, 1, true, by decide, by decide, by decide⟩)) trivial rfl
  exact ⟨_, rfl, represents_of_reachable r, rfl⟩

/-- With its handle the overlap query at time 10 is right even so. -/
theorem query_answers_withWrapped :
    ∃ s, withWrapped = some s ∧ s.AnswersQuery 1 (some (instant 10 (by decide))) .OVERLAPS := by
  obtain ⟨s, hs, hr, -⟩ := represents_withWrapped
  exact ⟨s, hs, (query_answers_iff_sound s hr _ _ _).mpr fun _ _ h => absurd h (by decide)⟩

/-- What ends before 5: the wrapped entry does, but the scan ends at time 10. -/
theorem wrapped_entry_missed :
    ¬ ∀ s, Represents s → ∀ h t criterion, s.AnswersQuery h (some t) criterion := by
  intro hall
  obtain ⟨s, -, hr, hlist⟩ := represents_withWrapped
  have hsound := (answers_of_handle hr (by decide)).mp
    (hall s hr 1 (instant 5 (by decide)) .ENDS_BEFORE)
  obtain ⟨d, rest, hcells, hd, hrest⟩ := List.map_eq_cons_iff.mp hlist
  obtain ⟨c, rest', rfl, hc, -⟩ := List.map_eq_cons_iff.mp hrest
  have hlt : d.rank < c.rank := by
    rw [Cell.rank, Cell.rank, hd, hc, ← Temporal.compareTo_neg]
    decide
  have hup := hsound d (by rw [hcells]; exact List.mem_cons_self) c
    (by rw [hcells]; exact List.mem_cons_of_mem d List.mem_cons_self) hlt
    (by rw [hd]; decide) (by rw [hd]; decide)
  rw [hc] at hup
  exact absurd hup (by decide)

end Scan

end TemporalTable

end OpenCog
