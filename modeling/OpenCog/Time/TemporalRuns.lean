import OpenCog.Time.TimeRemoval

/-! Runs of the temporal table: sequences of additions and removals from the empty
table. -/
namespace OpenCog

inductive TemporalOp where
  | add (h : Handle) (t : Option Temporal)
  | remove (h : Handle) (t : Option Temporal) (criterion : TemporalRelationship)

namespace TemporalTable

def apply (s : TemporalTable) : TemporalOp → Option TemporalTable
  | .add h t => s.add h t
  | .remove h t criterion => (s.remove h t criterion).map Prod.fst

/-- The tables some run reaches whose steps are all allowed. -/
inductive Reachable (ok : TemporalTable → TemporalOp → Prop) : TemporalTable → Prop
  | empty : Reachable ok empty
  | step {s s' : TemporalTable} (op : TemporalOp) : Reachable ok s → ok s op →
      s.apply op = some s' → Reachable ok s'

def AnyOp (_ : TemporalTable) (_ : TemporalOp) : Prop := True

/-- The tails the step meets stay last in their lists, or go with all of the
list. -/
def Spares (s : TemporalTable) : TemporalOp → Prop
  | .add _ _ => True
  | .remove h t criterion =>
    if h = UNDEFINED then SparesTails s (Selects s t criterion) else SparesTail s h t criterion

variable {s : TemporalTable}

theorem timesOk_empty : TimesOk empty := by
  refine ⟨⟨⟨List.Pairwise.nil, by simp [empty], List.Pairwise.nil, ?_⟩, ?_⟩, ?_, ?_, ?_⟩
  · exact Nat.le_refl 0
  · exact Nat.le_refl 0
  · exact Nat.zero_le 1
  · exact List.Perm.refl _
  · simp [empty]

theorem listsOk_empty : ListsOk empty :=
  ⟨fun _ => List.Pairwise.nil, fun _ _ hc => absurd hc List.not_mem_nil⟩

/-- No step fails. -/
theorem apply_spec (ok : TimesOk s) (hl : ListsOk s) (op : TemporalOp) :
    ∃ s', s.apply op = some s' ∧ TimesOk s' ∧ ListsOk s' ∧
      (Paired s → (∀ g, TailOk (s.handleMap g) (s.tailHandleMap g)) → Spares s op →
        Paired s' ∧ ∀ g, TailOk (s'.handleMap g) (s'.tailHandleMap g)) := by
  cases op with
  | add h t =>
    cases t with
    | none => exact ⟨s, rfl, ok, hl, fun hp ht _ => ⟨hp, ht⟩⟩
    | some t =>
      obtain ⟨s', hs, ok', a⟩ := ok.add h t
      exact ⟨s', hs, ok', a.listsOk hl, fun hp ht _ => a.paired ok' hl hp ht⟩
  | remove h t criterion =>
    simp only [apply, remove]
    by_cases hu : h = UNDEFINED
    · obtain ⟨s', result, hs, ok', hl', hkeep⟩ := removeTime_spec ok hl t criterion
      refine ⟨s', by rw [if_pos hu, hs]; rfl, ok', hl', fun hp ht hspares => ?_⟩
      rw [Spares, if_pos hu] at hspares
      exact hkeep hp ht hspares
    · obtain ⟨s', result, hs, ok', d, htail⟩ := removeHandle_spec ok hl h t criterion
      refine ⟨s', by rw [if_neg hu, hs]; rfl, ok', d.listsOk hl, fun hp ht hspares => ?_⟩
      rw [Spares, if_neg hu] at hspares
      refine ⟨d.paired hp, fun g c hc => ?_⟩
      by_cases e : g = h
      · subst e
        rcases htail hspares with hnone | ⟨hsame, hlive⟩
        · rw [hnone] at hc; cases hc
        · rw [hsame] at hc
          obtain ⟨hmem, hmax⟩ := ht g c hc
          exact ⟨hlive c hmem hc, fun x hx => hmax x (d.sub.subset hx)⟩
      · rw [d.otherTails g e] at hc
        rw [d.otherLists g e]
        exact ht g c hc

theorem Reachable.ok {allowed : TemporalTable → TemporalOp → Prop} (r : Reachable allowed s) :
    TimesOk s ∧ ListsOk s := by
  induction r with
  | empty => exact ⟨timesOk_empty, listsOk_empty⟩
  | step op _ _ hs ih =>
    obtain ⟨s', hs', ok', hl', -⟩ := apply_spec ih.1 ih.2 op
    rw [hs', Option.some.injEq] at hs
    exact hs ▸ ⟨ok', hl'⟩

theorem Reachable.paired (r : Reachable Spares s) :
    Paired s ∧ ∀ g, TailOk (s.handleMap g) (s.tailHandleMap g) := by
  induction r with
  | empty => exact ⟨fun _ _ ⟨_, hm, _⟩ => absurd hm List.not_mem_nil, fun _ _ hc => by cases hc⟩
  | step op r hop hs ih =>
    obtain ⟨s', hs', -, -, hkeep⟩ := apply_spec r.ok.1 r.ok.2 op
    rw [hs', Option.some.injEq] at hs
    exact hs ▸ hkeep ih.1 ih.2 hop

/-! ## The time index -/

/-- The index serves binary search: `some` results read no slot outside the table
and no freed cell, and they start no later than the first time not before `t`. -/
structure TimeIndexOk (s : TemporalTable) : Prop where
  sorted : s.sortedTemporalList.Pairwise fun c d => c.time.compareTo d.time < 0
  keys : (s.temporalMap.map Prod.fst).Perm (s.sortedTemporalList.map Cell.time)
  live : ∀ c ∈ s.temporalIndexTable, c ∈ s.sortedTemporalList
  ordered : s.temporalIndexTable.Pairwise fun c d => c.time.compareTo d.time ≤ 0
  count : s.sortedTemporalList ≠ [] → 0 < s.indexTableCount
  search : s.sortedTemporalList ≠ [] → ∀ t, ∃ pos, s.getTemporalIndexTablePos t = some pos ∧
    -1 ≤ pos ∧ pos < s.indexTableCount ∧
    (0 ≤ pos → ∃ c, s.slot pos = some c ∧
      ∀ d ∈ s.sortedTemporalList, 0 ≤ d.time.compareTo t → c.time.compareTo d.time ≤ 0)
  start : s.sortedTemporalList ≠ [] → ∀ t, ∃ previous, s.getPreviousTemporalEntry t = some previous ∧
    ∀ c, previous = some c → c ∈ s.sortedTemporalList ∧
      ∀ d ∈ s.sortedTemporalList, 0 ≤ d.time.compareTo t → c.time.compareTo d.time ≤ 0

theorem compareTo_le_of_rank {t u : Temporal} (h : t.rank ≤ u.rank) : t.compareTo u ≤ 0 :=
  not_lt.mp (mt (Temporal.compareTo_pos _ _).mp (not_lt_of_ge h))

theorem rank_le_of_compareTo {t u : Temporal} (h : t.compareTo u ≤ 0) : t.rank ≤ u.rank :=
  not_lt.mp (mt (Temporal.compareTo_pos _ _).mpr (not_lt_of_ge h))

theorem TimesOk.timeIndexOk (ok : TimesOk s) : TimeIndexOk s := by
  have hbefore : ∀ (c : Cell) (t : Temporal), c.rank ≤ t.rank → ∀ d ∈ s.sortedTemporalList,
      0 ≤ d.time.compareTo t → c.time.compareTo d.time ≤ 0 := by
    intro c t hle d _ hd
    apply compareTo_le_of_rank
    refine le_trans hle (not_lt.mp fun hlt => ?_)
    have := (Temporal.compareTo_neg d.time t).mpr hlt
    omega
  refine ⟨?_, ok.keys, ok.indexed.live, ?_, ?_, ?_, ?_⟩
  · exact ok.indexed.sorted.imp fun hlt => (Temporal.compareTo_neg _ _).mpr hlt
  · exact ok.indexed.ordered.imp fun hle => compareTo_le_of_rank hle
  · exact fun hne => List.length_pos_iff.mpr (ok.indexed.table_ne_nil hne)
  · intro hne t
    obtain ⟨pos, hpos, hf⟩ := getTemporalIndexTablePos_spec ok.indexed.live ok.indexed.ordered
      (ok.indexed.table_ne_nil hne) t
    refine ⟨pos, hpos, hf.low, hf.up, fun h0 => ?_⟩
    obtain ⟨c, hc⟩ := exists_slot h0 hf.up
    refine ⟨c, by rw [slot_eq ok.indexed.live h0, hc], hbefore c t ?_⟩
    have := hf.here h0
    rw [signAt_eq hc] at this
    exact rank_le_of_compareTo this
  · intro hne t
    obtain ⟨previous, hp, hspec⟩ := getPreviousTemporalEntry_spec ok.indexed.live ok.indexed.ordered
      (ok.indexed.table_ne_nil hne) t
    refine ⟨previous, hp, fun c hc => ?_⟩
    obtain ⟨hmem, hle⟩ := hspec c hc
    exact ⟨hmem, hbefore c t hle⟩

/-- Along every run the index is usable, and no call of the table fails. -/
theorem time_index_along_runs (s : TemporalTable) (r : Reachable AnyOp s) :
    TimeIndexOk s ∧ ∀ op, ∃ s', s.apply op = some s' := by
  obtain ⟨ok, hl⟩ := r.ok
  refine ⟨ok.timeIndexOk, fun op => ?_⟩
  obtain ⟨s', hs, -⟩ := apply_spec ok hl op
  exact ⟨s', hs⟩

/-- The instant `n`. -/
def instant (n : Nat) (h : n < ULONG_SIZE) : Temporal := ⟨n, n, false, h, h, Nat.le_refl n⟩

theorem time_index_of_two_times :
    ∃ s : TemporalTable, Reachable AnyOp s ∧ s.indexTableCount = 1 ∧ TimeIndexOk s := by
  have r := (Reachable.empty : Reachable AnyOp empty)
    |>.step (.add 1 (some (instant 3 (by decide)))) trivial rfl
    |>.step (.add 2 (some (instant 5 (by decide)))) trivial rfl
    |>.step (.remove UNDEFINED (some (instant 3 (by decide))) .EXACT) trivial rfl
  exact ⟨_, r, rfl, (time_index_along_runs _ r).1⟩

/-! ## The pairs -/

/-- Lists, sets and tails describe one relation, no addition is lost, and both
ways to read all pairs agree. -/
structure PairsExact (s : TemporalTable) : Prop where
  sorted : ∀ h, (s.handleMap h).Pairwise fun c d => c.time.compareTo d.time < 0
  exact : ∀ h t, (∃ c ∈ s.handleMap h, c.time = t) ↔ s.InMap h t
  tail : ∀ h c, s.tailHandleMap h = some c → (s.handleMap h).getLast? = some c
  kept : ∀ h t, ∃ s', s.add h (some t) = some s' ∧
    ∃ c ∈ s'.handleMap h, c.time.compareTo t = 0 ∧ s'.InMap h c.time
  readers : ∃ pairs, s.getAll = some pairs ∧ ∀ h t, h ≠ UNDEFINED →
    ((h, t) ∈ pairs ↔ (h, t) ∈ s.getOfHandle h)

theorem getAll_spec (ok : TimesOk s) :
    ∃ pairs, s.getAll = some pairs ∧ ∀ h t, (h, t) ∈ pairs ↔ s.InMap h t := by
  have hfold : ∀ cs : List Cell, (∀ c ∈ cs, c ∈ s.sortedTemporalList) →
      ∃ pairs, cs.foldrM (fun c rest => (s.lookup c.time).bind fun e =>
          some (e.2.map (·, c.time) ++ rest)) [] = some pairs ∧
        ∀ h t, (h, t) ∈ pairs ↔ (∃ c ∈ cs, c.time = t) ∧ s.InMap h t := by
    intro cs hcs
    induction cs with
    | nil => exact ⟨[], rfl, by simp⟩
    | cons c cs ih =>
      obtain ⟨rest, hrest, hmem⟩ := ih fun d hd => hcs d (List.mem_cons_of_mem c hd)
      obtain ⟨e, he, hkey⟩ := List.mem_map.mp
        (ok.keys.mem_iff.mpr (List.mem_map_of_mem (hcs c List.mem_cons_self)))
      obtain ⟨key, handles⟩ := e
      obtain rfl : key = c.time := hkey
      refine ⟨handles.map (·, c.time) ++ rest, ?_, fun h t => ?_⟩
      · rw [List.foldrM_cons, hrest]
        simp [ok.lookup_eq he rfl]
      · rw [List.mem_append, hmem, List.mem_map]
        constructor
        · rintro (⟨g, hg, e⟩ | ⟨⟨d, hd, he⟩, hm⟩)
          · obtain ⟨rfl, rfl⟩ := Prod.mk.injEq .. ▸ e
            exact ⟨⟨c, List.mem_cons_self, rfl⟩, handles, he, hg⟩
          · exact ⟨⟨d, List.mem_cons_of_mem c hd, he⟩, hm⟩
        · rintro ⟨⟨d, hd, rfl⟩, hm⟩
          rcases List.mem_cons.mp hd with rfl | hd
          · obtain ⟨hs, hin, hg⟩ := hm
            have := eq_of_key ok.distinct hin he rfl
            rw [Prod.mk.injEq] at this
            exact .inl ⟨h, this.2 ▸ hg, rfl⟩
          · exact .inr ⟨⟨d, hd, rfl⟩, hm⟩
  obtain ⟨pairs, hall, hmem⟩ := hfold s.sortedTemporalList fun _ hc => hc
  refine ⟨pairs, hall, fun h t => ?_⟩
  rw [hmem]
  refine ⟨And.right, fun hm => ⟨?_, hm⟩⟩
  obtain ⟨handles, hin, -⟩ := hm
  exact ok.cell hin

theorem pairsExact_of (ok : TimesOk s) (hl : ListsOk s) (hp : Paired s)
    (ht : ∀ g, TailOk (s.handleMap g) (s.tailHandleMap g)) : PairsExact s := by
  have hexact : ∀ h t, (∃ c ∈ s.handleMap h, c.time = t) ↔ s.InMap h t := by
    intro h t
    refine ⟨?_, hp h t⟩
    rintro ⟨c, hc, rfl⟩
    exact hl.listed h c hc
  refine ⟨fun h => ?_, hexact, fun h c hc => (ht h).getLast?_eq (hl.sorted h) hc, fun h t => ?_, ?_⟩
  · exact (hl.sorted h).imp fun hlt => (Temporal.compareTo_neg _ _).mpr hlt
  · obtain ⟨s', hs, ok', a⟩ := ok.add h t
    have hm : s'.InMap h (s.internalKey t) := (a.inMap h _).mpr (.inr ⟨rfl, rfl⟩)
    obtain ⟨c, hc, he⟩ := (a.paired ok' hl hp ht).1 h _ hm
    refine ⟨s', hs, c, hc, ?_, he ▸ hm⟩
    rw [Temporal.compareTo_eq_zero, he]
    exact (ok.internalKey_cases t).1
  · obtain ⟨pairs, hall, hmem⟩ := getAll_spec ok
    refine ⟨pairs, hall, fun h t _ => ?_⟩
    rw [hmem, ← hexact, getOfHandle, List.mem_map]
    simp

/-- Along every run that spares the tails, the table is one relation. -/
theorem pairs_exact_along_runs (s : TemporalTable) (r : Reachable Spares s) : PairsExact s :=
  pairsExact_of r.ok.1 r.ok.2 r.paired.1 r.paired.2

theorem pairs_exact_of_previous_removal :
    ∃ s : TemporalTable, Reachable Spares s ∧
      (s.handleMap 1).map Cell.time = [instant 5 (by decide)] ∧ PairsExact s := by
  have r := (Reachable.empty : Reachable Spares empty)
    |>.step (.add 1 (some (instant 3 (by decide)))) trivial rfl
    |>.step (.add 1 (some (instant 5 (by decide)))) trivial rfl
    |>.step (.remove 1 (some (instant 5 (by decide))) .PREVIOUS_BEFORE_START_OF)
      (by
        rw [Spares, if_neg (by decide)]
        intro _ _ c hc
        obtain rfl := Option.some.inj hc
        rfl) rfl
  exact ⟨_, r, rfl, pairs_exact_along_runs _ r⟩

/-- Removing the last time of a handle by time alone leaves its tail behind, and
the next later addition is lost. -/
theorem pair_lost_after_time_removal : ¬ ∀ s, Reachable AnyOp s → PairsExact s := by
  intro h
  have r := (Reachable.empty : Reachable AnyOp empty)
    |>.step (.add 1 (some (instant 3 (by decide)))) trivial rfl
    |>.step (.add 1 (some (instant 5 (by decide)))) trivial rfl
    |>.step (.remove UNDEFINED (some (instant 5 (by decide))) .EXACT) trivial rfl
    |>.step (.add 1 (some (instant 7 (by decide)))) trivial rfl
  have hpair : ∃ handles, (instant 7 (by decide), handles) ∈
      [(instant 7 (by decide), [1]), (instant 3 (by decide), [1])] ∧ 1 ∈ handles :=
    ⟨[1], List.mem_cons_self, List.mem_cons_self⟩
  obtain ⟨c, hc, ht⟩ := ((h _ r).exact 1 (instant 7 (by decide))).mpr hpair
  have hc' : c ∈ [(⟨1, instant 3 (by decide)⟩ : Cell)] := hc
  rw [List.mem_singleton.mp hc'] at ht
  exact absurd (congrArg Temporal.a ht) (by decide)

end TemporalTable

end OpenCog
