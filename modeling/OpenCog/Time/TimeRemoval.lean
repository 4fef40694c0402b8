import OpenCog.Time.PairRemoval

/-! Removals without a handle: which times the criterion selects, and the run of
exact removals over them. -/
namespace OpenCog

namespace TemporalTable

variable {s : TemporalTable}

/-! ## The times a removal picks -/

/-- Whether a removal without a handle takes out `u`, a time of the table. The
search of `OVERLAPS` ends at the first time, from where it starts, that begins
after `t` ends. -/
def Selects (s : TemporalTable) (t : Option Temporal) (criterion : TemporalRelationship)
    (u : Temporal) : Prop :=
  match t with
  | none => True
  | some t =>
    match criterion with
    | .EXACT => u.rank = t.rank
    | .OVERLAPS => t.getLowerBound ≤ u.getUpperBound ∧
        ∀ start, s.getPreviousTemporalEntry t = some start → ∀ d ∈ s.sortedTemporalList,
          (∀ c, start = some c → c.rank ≤ d.rank) → d.rank ≤ u.rank →
            d.time.getLowerBound ≤ t.getUpperBound
    | criterion => (matchesTimeCriterion u t criterion).1 = true ∧
        if criterion.isPrevious then ∀ d ∈ s.sortedTemporalList, u.rank < d.rank →
          (matchesTimeCriterion d.time t criterion).1 = false
        else ∀ d ∈ s.sortedTemporalList, d.rank < u.rank →
          (matchesTimeCriterion d.time t criterion).2 = false

theorem Temporal.getLowerBound_mono {t u : Temporal} (h : t.rank ≤ u.rank) :
    t.getLowerBound ≤ u.getLowerBound := by
  rcases (Prod.Lex.toLex_le_toLex).mp h with hlt | ⟨he, -⟩
  · exact le_of_lt hlt
  · exact le_of_eq he

section Pick
variable {t : Temporal} {criterion : TemporalRelationship}

/-- A `PREVIOUS` criterion holds of a first part of the times, and the search
ends after it. -/
theorem matches_previous (hp : criterion.isPrevious = true) :
    (∀ u, (matchesTimeCriterion u t criterion).2 = !(matchesTimeCriterion u t criterion).1) ∧
      ∀ u v : Temporal, u.rank ≤ v.rank → (matchesTimeCriterion v t criterion).1 = true →
        (matchesTimeCriterion u t criterion).1 = true := by
  cases criterion with
  | PREVIOUS_BEFORE_START_OF =>
    refine ⟨fun _ => rfl, fun u v huv hv => ?_⟩
    have := Temporal.getLowerBound_mono huv
    simp only [matchesTimeCriterion, decide_eq_true_eq] at hv ⊢
    omega
  | PREVIOUS_BEFORE_END_OF =>
    refine ⟨fun _ => rfl, fun u v huv hv => ?_⟩
    have := Temporal.getLowerBound_mono huv
    simp only [matchesTimeCriterion, decide_eq_true_eq] at hv ⊢
    omega
  | _ => exact absurd hp (by decide)

/-- Otherwise the loop takes the matches before the one that ends the search. -/
theorem pickLoop_all (hp : criterion.isPrevious = false) (cs : List Cell)
    (sorted : cs.Pairwise (Cell.rank · < Cell.rank ·)) (previous : Option Temporal) :
    (pickLoop t criterion cs previous).2 = previous ∧
      (pickLoop t criterion cs previous).1.Sublist (cs.map Cell.time) ∧
      ∀ u, u ∈ (pickLoop t criterion cs previous).1 ↔ ∃ c ∈ cs, c.time = u ∧
        (matchesTimeCriterion u t criterion).1 = true ∧
        ∀ d ∈ cs, d.rank < u.rank → (matchesTimeCriterion d.time t criterion).2 = false := by
  induction cs with
  | nil => exact ⟨rfl, List.Sublist.refl _, by simp [pickLoop]⟩
  | cons c cs ih =>
    obtain ⟨hc, hcs⟩ := List.pairwise_cons.mp sorted
    obtain ⟨hprev, hsub, hmem⟩ := ih hcs
    set rest : List Temporal :=
      if (matchesTimeCriterion c.time t criterion).2 then []
      else (pickLoop t criterion cs previous).1 with hrest
    have hloop : pickLoop t criterion (c :: cs) previous =
        (if (matchesTimeCriterion c.time t criterion).1 then c.time :: rest else rest,
          previous) := by
      rw [pickLoop, hrest]
      simp only [hp, Bool.and_false, Bool.false_eq_true, if_false, Bool.not_false, Bool.and_true]
      by_cases hf : (matchesTimeCriterion c.time t criterion).2 = true
      · simp only [hf, if_true]
      · simp only [hf, Bool.false_eq_true, if_false, hprev]
    have hrestsub : rest.Sublist (cs.map Cell.time) := by
      rw [hrest]
      split
      · exact List.nil_sublist _
      · exact hsub
    have hrestmem : ∀ u, u ∈ rest ↔ (∃ d ∈ cs, d.time = u ∧
        (matchesTimeCriterion u t criterion).1 = true ∧
        ∀ d ∈ cs, d.rank < u.rank → (matchesTimeCriterion d.time t criterion).2 = false) ∧
        (matchesTimeCriterion c.time t criterion).2 = false := by
      intro u
      rw [hrest]
      split
      · rename_i hf
        simp [hf]
      · rename_i hf
        rw [hmem u]
        simp [hf]
    rw [hloop]
    refine ⟨rfl, ?_, ?_⟩
    · split
      · exact hrestsub.cons_cons c.time
      · exact hrestsub.cons c.time
    · intro u
      have hhead : u ∈ (if (matchesTimeCriterion c.time t criterion).1 then c.time :: rest
          else rest) ↔ (matchesTimeCriterion c.time t criterion).1 = true ∧ u = c.time ∨ u ∈ rest := by
        split
        · rename_i hf
          simp [hf]
        · rename_i hf
          simp [hf]
      rw [hhead, hrestmem]
      constructor
      · rintro (⟨hf, rfl⟩ | ⟨⟨d, hd, rfl, hm, hopen⟩, hf⟩)
        · refine ⟨c, List.mem_cons_self, rfl, hf, ?_⟩
          intro d hd hlt
          rcases List.mem_cons.mp hd with rfl | hd
          · exact absurd hlt (lt_irrefl _)
          · exact absurd hlt (lt_asymm (hc d hd))
        · refine ⟨d, List.mem_cons_of_mem c hd, rfl, hm, ?_⟩
          intro x hx hlt
          rcases List.mem_cons.mp hx with rfl | hx
          · exact hf
          · exact hopen x hx hlt
      · rintro ⟨d, hd, rfl, hm, hopen⟩
        rcases List.mem_cons.mp hd with rfl | hd
        · exact .inl ⟨hm, rfl⟩
        · exact .inr ⟨⟨d, hd, rfl, hm, fun x hx => hopen x (List.mem_cons_of_mem c hx)⟩,
            hopen c List.mem_cons_self (hc d hd)⟩

theorem pickLoop_previous (hp : criterion.isPrevious = true) (cs : List Cell)
    (sorted : cs.Pairwise (Cell.rank · < Cell.rank ·)) (previous : Option Temporal) :
    (pickLoop t criterion cs previous).1 = [] ∧
      ∀ u, (pickLoop t criterion cs previous).2 = some u ↔
        (∃ c ∈ cs, c.time = u ∧ (matchesTimeCriterion u t criterion).1 = true ∧
          ∀ d ∈ cs, u.rank < d.rank → (matchesTimeCriterion d.time t criterion).1 = false) ∨
        previous = some u ∧ ∀ d ∈ cs, (matchesTimeCriterion d.time t criterion).1 = false := by
  obtain ⟨hends, hfirst⟩ := matches_previous (t := t) hp
  induction cs generalizing previous with
  | nil => exact ⟨rfl, by simp [pickLoop]⟩
  | cons c cs ih =>
    obtain ⟨hc, hcs⟩ := List.pairwise_cons.mp sorted
    by_cases hm : (matchesTimeCriterion c.time t criterion).1 = true
    · have hloop : pickLoop t criterion (c :: cs) previous =
          pickLoop t criterion cs (some c.time) := by
        rw [pickLoop]
        simp [hends, hm, hp]
      rw [hloop]
      obtain ⟨hnil, hlast⟩ := ih hcs (some c.time)
      refine ⟨hnil, fun u => ?_⟩
      rw [hlast]
      constructor
      · rintro (⟨d, hd, rfl, hmd, hno⟩ | ⟨e, hno⟩)
        · refine .inl ⟨d, List.mem_cons_of_mem c hd, rfl, hmd, ?_⟩
          intro x hx hlt
          rcases List.mem_cons.mp hx with rfl | hx
          · exact absurd hlt (lt_asymm (hc d hd))
          · exact hno x hx hlt
        · obtain rfl := Option.some.inj e
          refine .inl ⟨c, List.mem_cons_self, rfl, hm, ?_⟩
          intro x hx hlt
          rcases List.mem_cons.mp hx with rfl | hx
          · exact absurd hlt (lt_irrefl _)
          · exact hno x hx
      · rintro (⟨d, hd, rfl, hmd, hno⟩ | ⟨-, hno⟩)
        · rcases List.mem_cons.mp hd with rfl | hd
          · exact .inr ⟨rfl, fun x hx => hno x (List.mem_cons_of_mem _ hx) (hc x hx)⟩
          · exact .inl ⟨d, hd, rfl, hmd, fun x hx => hno x (List.mem_cons_of_mem c hx)⟩
        · rw [hno c List.mem_cons_self] at hm
          cases hm
    · have hloop : pickLoop t criterion (c :: cs) previous = ([], previous) := by
        rw [pickLoop]
        simp [hends, hm]
      have hnone : ∀ d ∈ c :: cs, (matchesTimeCriterion d.time t criterion).1 = false := by
        intro d hd
        refine Bool.eq_false_iff.mpr fun hmd => hm (hfirst c.time d.time ?_ hmd)
        rcases List.mem_cons.mp hd with rfl | hd
        · exact le_refl _
        · exact le_of_lt (hc d hd)
      rw [hloop]
      refine ⟨rfl, fun u => ⟨fun e => .inr ⟨e, hnone⟩, ?_⟩⟩
      rintro (⟨d, hd, rfl, hmd, -⟩ | ⟨e, -⟩)
      · rw [hnone d hd] at hmd
        cases hmd
      · exact e

/-- The times the default branch goes by. -/
def pickedTimes (t : Temporal) (criterion : TemporalRelationship) (cs : List Cell) :
    List Temporal :=
  (pickLoop t criterion cs none).1 ++ (pickLoop t criterion cs none).2.toList

theorem ascending_sublist {cs : List Cell} (sorted : cs.Pairwise (Cell.rank · < Cell.rank ·))
    {times : List Temporal} (hsub : times.Sublist (cs.map Cell.time)) :
    times.Pairwise (Temporal.rank · < Temporal.rank ·) := by
  refine List.Pairwise.sublist hsub ?_
  rw [List.pairwise_map]
  exact sorted

theorem pickedTimes_spec (t : Temporal) (criterion : TemporalRelationship) (cs : List Cell)
    (sorted : cs.Pairwise (Cell.rank · < Cell.rank ·)) :
    (pickedTimes t criterion cs).Pairwise (Temporal.rank · < Temporal.rank ·) ∧
      ∀ u, u ∈ pickedTimes t criterion cs ↔ (∃ c ∈ cs, c.time = u) ∧
        (matchesTimeCriterion u t criterion).1 = true ∧
        if criterion.isPrevious then ∀ d ∈ cs, u.rank < d.rank →
          (matchesTimeCriterion d.time t criterion).1 = false
        else ∀ d ∈ cs, d.rank < u.rank → (matchesTimeCriterion d.time t criterion).2 = false := by
  unfold pickedTimes
  cases hp : criterion.isPrevious with
  | false =>
    obtain ⟨hnone, hsub, hmem⟩ := pickLoop_all (t := t) hp cs sorted none
    rw [hnone, Option.toList_none, List.append_nil]
    refine ⟨ascending_sublist sorted hsub, fun u => ?_⟩
    rw [hmem u]
    simp only [Bool.false_eq_true, if_false]
    exact ⟨fun ⟨c, hc, e, hm⟩ => ⟨⟨c, hc, e⟩, hm⟩, fun ⟨⟨c, hc, e⟩, hm⟩ => ⟨c, hc, e, hm⟩⟩
  | true =>
    obtain ⟨hnil, hlast⟩ := pickLoop_previous (t := t) hp cs sorted none
    rw [hnil, List.nil_append]
    refine ⟨?_, fun u => ?_⟩
    · cases (pickLoop t criterion cs none).2 with
      | none => exact List.Pairwise.nil
      | some u => exact List.pairwise_singleton _ _
    · rw [Option.mem_toList, hlast u]
      simp only [if_true, reduceCtorEq, false_and, or_false]
      exact ⟨fun ⟨c, hc, e, hm⟩ => ⟨⟨c, hc, e⟩, hm⟩, fun ⟨⟨c, hc, e⟩, hm⟩ => ⟨c, hc, e, hm⟩⟩

theorem mem_dropWhile_sorted {cs : List Cell} (sorted : cs.Pairwise (Cell.rank · < Cell.rank ·))
    (p : Cell → Bool) {c : Cell} :
    c ∈ cs.dropWhile p ↔ c ∈ cs ∧ ∃ d ∈ cs, d.rank ≤ c.rank ∧ p d = false := by
  induction cs with
  | nil => simp
  | cons x xs ih =>
    obtain ⟨hx, hxs⟩ := List.pairwise_cons.mp sorted
    by_cases hp : p x = true
    · rw [List.dropWhile_cons_of_pos hp, ih hxs]
      constructor
      · rintro ⟨hc, d, hd, hle, hpd⟩
        exact ⟨List.mem_cons_of_mem x hc, d, List.mem_cons_of_mem x hd, hle, hpd⟩
      · rintro ⟨hc, d, hd, hle, hpd⟩
        rcases List.mem_cons.mp hd with rfl | hd'
        · rw [hp] at hpd
          cases hpd
        · rcases List.mem_cons.mp hc with rfl | hc'
          · exact absurd hle (not_le_of_gt (hx d hd'))
          · exact ⟨hc', d, hd', hle, hpd⟩
    · rw [List.dropWhile_cons_of_neg hp]
      refine ⟨fun hc => ⟨hc, x, List.mem_cons_self, ?_, Bool.eq_false_iff.mpr hp⟩, And.left⟩
      rcases List.mem_cons.mp hc with rfl | hc
      · exact le_refl _
      · exact le_of_lt (hx c hc)

/-- The part of a sorted list before one of its ends. -/
theorem mem_take_before {cs after : List Cell} (sorted : cs.Pairwise (Cell.rank · < Cell.rank ·))
    (hsuf : after <:+ cs) {c : Cell} :
    c ∈ cs.take (cs.length - after.length) ↔ c ∈ cs ∧ c ∉ after := by
  obtain ⟨front, rfl⟩ := hsuf
  have : (front ++ after).take ((front ++ after).length - after.length) = front := by
    rw [List.length_append, Nat.add_sub_cancel, List.take_left']
    rfl
  rw [this, List.mem_append]
  obtain ⟨-, -, hcross⟩ := List.pairwise_append.mp sorted
  constructor
  · intro hc
    exact ⟨.inl hc, fun ha => lt_irrefl _ (hcross c hc c ha)⟩
  · rintro ⟨hc | hc, hno⟩
    · exact hc
    · exact absurd hc hno

theorem mem_cellsFrom (sorted : s.sortedTemporalList.Pairwise (Cell.rank · < Cell.rank ·))
    {start : Option Cell} (hstart : ∀ c, start = some c → c ∈ s.sortedTemporalList) (d : Cell) :
    d ∈ s.cellsFrom start ↔
      d ∈ s.sortedTemporalList ∧ ∀ p, start = some p → p.rank ≤ d.rank := by
  cases start with
  | none => simp [cellsFrom]
  | some p =>
    rw [cellsFrom, mem_dropWhile_sorted sorted]
    constructor
    · rintro ⟨hd, x, -, hle, he⟩
      refine ⟨hd, fun q e => ?_⟩
      obtain rfl := Option.some.inj e
      have : x = p := by simpa using he
      exact this ▸ hle
    · rintro ⟨hd, hle⟩
      exact ⟨hd, p, hstart p rfl, hle p rfl, by simp⟩

theorem cellsFrom_suffix (start : Option Cell) : s.cellsFrom start <:+ s.sortedTemporalList := by
  cases start with
  | none => exact List.suffix_refl _
  | some c => exact List.dropWhile_suffix _

theorem beforeLimit_spec (ok : TimesOk s) (hne : s.sortedTemporalList ≠ []) (t : Temporal) :
    ∃ cells, s.beforeLimit t = some cells ∧ cells.Sublist s.sortedTemporalList ∧
      ∀ c, c ∈ cells ↔ c ∈ s.sortedTemporalList ∧
        ∀ start, s.getPreviousTemporalEntry t = some start → ∀ d ∈ s.sortedTemporalList,
          (∀ p, start = some p → p.rank ≤ d.rank) → d.rank ≤ c.rank →
            d.time.getLowerBound ≤ t.getUpperBound := by
  have sorted := ok.indexed.sorted
  obtain ⟨start, hstart, hspec⟩ := getPreviousTemporalEntry_spec ok.indexed.live
    ok.indexed.ordered (ok.indexed.table_ne_nil hne) t
  have hsuffix := cellsFrom_suffix (s := s) start
  have hmem := mem_cellsFrom sorted fun c hc => (hspec c hc).1
  refine ⟨_, by simp only [beforeLimit, hstart, Option.bind_eq_bind, Option.bind_some]; rfl,
    List.take_sublist _ _, fun c => ?_⟩
  rw [mem_take_before sorted ((List.dropWhile_suffix _).trans hsuffix),
    mem_dropWhile_sorted (sorted.sublist hsuffix.sublist)]
  constructor
  · rintro ⟨hc, hno⟩
    refine ⟨hc, fun start' e d hd hfrom hle => ?_⟩
    rw [hstart, Option.some.injEq] at e
    subst e
    by_contra hlow
    have hds : d ∈ s.cellsFrom start := (hmem d).mpr ⟨hd, hfrom⟩
    exact hno ⟨(hmem c).mpr ⟨hc, fun p e => le_trans (hfrom p e) hle⟩, d, hds, hle,
      decide_eq_false hlow⟩
  · rintro ⟨hc, hall⟩
    refine ⟨hc, ?_⟩
    rintro ⟨-, d, hd, hle, hlow⟩
    obtain ⟨hd, hfrom⟩ := (hmem d).mp hd
    exact of_decide_eq_false hlow (hall start hstart d hd hfrom hle)

/-- The times to remove are those selected, in ascending order. -/
theorem timesToRemove_spec (ok : TimesOk s) (t : Option Temporal)
    (criterion : TemporalRelationship) :
    ∃ times, s.timesToRemove t criterion = some times ∧
      times.Pairwise (Temporal.rank · < Temporal.rank ·) ∧
      ∀ u, u ∈ times ↔ (∃ c ∈ s.sortedTemporalList, c.time = u) ∧ Selects s t criterion u := by
  have sorted := ok.indexed.sorted
  cases t with
  | none =>
    refine ⟨_, rfl, ascending_sublist sorted (List.Sublist.refl _), fun u => ?_⟩
    rw [List.mem_map]
    exact ⟨fun h => ⟨h, trivial⟩, And.left⟩
  | some t =>
    -- the default branch, for a criterion that is neither of the other two
    have hdefault : ∀ criterion, criterion ≠ .EXACT → criterion ≠ .OVERLAPS →
        (s.timesToRemove (some t) criterion =
          some (pickedTimes t criterion s.sortedTemporalList)) ∧
        ∀ u, Selects s (some t) criterion u ↔ (matchesTimeCriterion u t criterion).1 = true ∧
          if criterion.isPrevious then ∀ d ∈ s.sortedTemporalList, u.rank < d.rank →
            (matchesTimeCriterion d.time t criterion).1 = false
          else ∀ d ∈ s.sortedTemporalList, d.rank < u.rank →
            (matchesTimeCriterion d.time t criterion).2 = false := by
      intro criterion he ho
      cases criterion with
      | EXACT => exact absurd rfl he
      | OVERLAPS => exact absurd rfl ho
      | _ => exact ⟨rfl, fun _ => Iff.rfl⟩
    by_cases he : criterion = .EXACT
    · subst he
      refine ⟨_, rfl, ?_, fun u => ?_⟩
      · cases s.lookup t with
        | none => exact List.Pairwise.nil
        | some e => exact List.pairwise_singleton _ _
      · have hkeys : (∃ c ∈ s.sortedTemporalList, c.time = u) ↔ ∃ e ∈ s.temporalMap, e.1 = u := by
          rw [← List.mem_map, ← List.mem_map, ok.keys.mem_iff]
        rw [hkeys]
        constructor
        · intro hu
          obtain ⟨e, hl, rfl⟩ := Option.map_eq_some_iff.mp (Option.mem_toList.mp hu)
          obtain ⟨he, hr⟩ := lookup_mem hl
          exact ⟨⟨e, he, rfl⟩, hr⟩
        · rintro ⟨⟨e, he, rfl⟩, hr⟩
          rw [ok.lookup_eq he hr]
          simp
    by_cases ho : criterion = .OVERLAPS
    · subst ho
      by_cases hnil : s.sortedTemporalList = []
      · refine ⟨[], by simp only [timesToRemove, hnil, if_true], List.Pairwise.nil, fun u => ?_⟩
        simp [hnil]
      · obtain ⟨cells, hcells, hsub, hmem⟩ := beforeLimit_spec ok hnil t
        refine ⟨(cells.filter fun c => decide (t.getLowerBound ≤ c.time.getUpperBound)).map Cell.time,
          by simp only [timesToRemove, hnil, if_false, hcells, Option.bind_eq_bind, Option.bind_some],
          ascending_sublist sorted ((List.filter_sublist.trans hsub).map Cell.time), fun u => ?_⟩
        simp only [List.mem_map, List.mem_filter, hmem, decide_eq_true_eq]
        constructor
        · rintro ⟨c, ⟨⟨hc, hlimit⟩, hlow⟩, rfl⟩
          exact ⟨⟨c, hc, rfl⟩, hlow, hlimit⟩
        · rintro ⟨⟨c, hc, rfl⟩, hlow, hlimit⟩
          exact ⟨c, ⟨⟨hc, hlimit⟩, hlow⟩, rfl⟩
    obtain ⟨htimes, hselects⟩ := hdefault criterion he ho
    obtain ⟨ascending, hmem⟩ := pickedTimes_spec t criterion _ sorted
    refine ⟨_, htimes, ascending, fun u => ?_⟩
    rw [hmem, hselects]

end Pick

/-! ## The run of exact removals -/

/-- Where the tail of a list loses its time, all of the list does. -/
def SparesTails (s : TemporalTable) (gone : Temporal → Prop) : Prop :=
  ∀ g c, s.tailHandleMap g = some c → gone c.time → ∀ x ∈ s.handleMap g, gone x.time

/-- One removal of the run: the earliest time still to go. A tail with this time
is then the only cell of its list, and goes as its head. -/
theorem DroppedTime.tails {s' : TemporalTable} {t : Temporal} {times : List Temporal}
    (hl : ListsOk s) (ht : ∀ g, TailOk (s.handleMap g) (s.tailHandleMap g))
    (hlater : ∀ u ∈ times, t.rank < u.rank)
    (hspares : SparesTails s fun u => ∃ v ∈ t :: times, u.rank = v.rank) (d : DroppedTime s s' t)
    (g : Handle) :
    s'.tailHandleMap g = none ∨ s'.tailHandleMap g = s.tailHandleMap g ∧
      ∀ c, s.tailHandleMap g = some c → c.rank ≠ t.rank := by
  by_cases hin : ∃ u, s.InMap g u ∧ u.rank = t.rank
  · obtain ⟨u, hm, hu⟩ := hin
    rw [d.tailsIn g u hm hu, keptTail]
    split
    · exact .inl rfl
    · rename_i hhead
      refine .inr ⟨rfl, fun c hc hr => hhead ⟨by simp [hc], ?_⟩⟩
      obtain ⟨hmem, hmax⟩ := ht g c hc
      have hall := hspares g c hc ⟨t, List.mem_cons_self, hr⟩
      -- every cell is at or after `t`, so none stands before the tail
      cases hlist : s.handleMap g with
      | nil => rw [hlist] at hmem; cases hmem
      | cons x xs =>
        have hx : x ∈ s.handleMap g := by rw [hlist]; exact List.mem_cons_self
        have hge : c.rank ≤ x.rank := by
          obtain ⟨v, hv, hxv⟩ := hall x hx
          rcases List.mem_cons.mp hv with rfl | hv
          · exact le_of_eq (hr.trans hxv.symm)
          · exact hr.trans_le (le_of_lt ((hlater v hv).trans_eq hxv.symm))
        rw [hc, List.head?_cons, SparseIndex.eq_of_rank (hl.sorted g) hx hmem
          (le_antisymm (hmax x hx) hge)]
  · refine .inr ⟨d.tailsOut g fun u hm hu => hin ⟨u, hm, hu⟩, fun c hc hr => ?_⟩
    exact hin ⟨c.time, hl.listed g c (ht g c hc).1, hr⟩

theorem DroppedTime.paired {s' : TemporalTable} {t : Temporal} (hp : Paired s)
    (d : DroppedTime s s' t) : Paired s' := by
  intro g u hm
  obtain ⟨hm, hne⟩ := (d.inMap g u).mp hm
  obtain ⟨c, hc, rfl⟩ := hp g u hm
  refine ⟨c, ?_, rfl⟩
  rw [d.lists]
  exact List.mem_filter.mpr ⟨hc, decide_eq_true hne⟩

/-- Exact removals in ascending order. -/
theorem removeTimes_spec (times : List Temporal)
    (ascending : times.Pairwise (Temporal.rank · < Temporal.rank ·)) (ok : TimesOk s)
    (hl : ListsOk s) :
    ∃ s', times.foldlM removeExact s = some s' ∧ TimesOk s' ∧ ListsOk s' ∧
      (Paired s → (∀ g, TailOk (s.handleMap g) (s.tailHandleMap g)) →
        (SparesTails s fun u => ∃ v ∈ times, u.rank = v.rank) →
          Paired s' ∧ ∀ g, TailOk (s'.handleMap g) (s'.tailHandleMap g)) := by
  induction times generalizing s with
  | nil => exact ⟨s, rfl, ok, hl, fun hp ht _ => ⟨hp, ht⟩⟩
  | cons t times ih =>
    obtain ⟨hlater, hrest⟩ := List.pairwise_cons.mp ascending
    obtain ⟨s₁, hs₁, ok₁, d⟩ := removeExact_spec ok hl t
    obtain ⟨s', hs', ok', hl', hkeep⟩ := ih hrest ok₁ (d.listsOk hl)
    refine ⟨s', by rw [List.foldlM_cons, hs₁]; exact hs', ok', hl', ?_⟩
    intro hp ht hspares
    have htails := d.tails hl ht hlater hspares
    have hkept : ∀ g x, x ∈ s₁.handleMap g ↔ x ∈ s.handleMap g ∧ x.rank ≠ t.rank := by
      intro g x
      rw [d.lists, List.mem_filter, decide_eq_true_eq]
    refine hkeep (d.paired hp) (fun g c hc => ?_) (fun g c hc => ?_)
    · rcases htails g with hnone | ⟨hsame, hne⟩
      · rw [hnone] at hc; cases hc
      · rw [hsame] at hc
        obtain ⟨hmem, hmax⟩ := ht g c hc
        exact ⟨(hkept g c).mpr ⟨hmem, hne c hc⟩, fun x hx => hmax x ((hkept g x).mp hx).1⟩
    · rintro ⟨v, hv, hcv⟩ x hx
      rcases htails g with hnone | ⟨hsame, -⟩
      · rw [hnone] at hc; cases hc
      · rw [hsame] at hc
        obtain ⟨hx, hne⟩ := (hkept g x).mp hx
        obtain ⟨w, hw, hxw⟩ := hspares g c hc ⟨v, List.mem_cons_of_mem t hv, hcv⟩ x hx
        rcases List.mem_cons.mp hw with rfl | hw
        · exact absurd hxw hne
        · exact ⟨w, hw, hxw⟩

/-- A removal without a handle never fails; the tails stay good if it spares
them. -/
theorem removeTime_spec (ok : TimesOk s) (hl : ListsOk s) (t : Option Temporal)
    (criterion : TemporalRelationship) :
    ∃ s' result, s.removeTime t criterion = some (s', result) ∧ TimesOk s' ∧ ListsOk s' ∧
      (Paired s → (∀ g, TailOk (s.handleMap g) (s.tailHandleMap g)) →
        SparesTails s (Selects s t criterion) →
          Paired s' ∧ ∀ g, TailOk (s'.handleMap g) (s'.tailHandleMap g)) := by
  obtain ⟨times, htimes, ascending, hmem⟩ := timesToRemove_spec ok t criterion
  obtain ⟨s', hs', ok', hl', hkeep⟩ := removeTimes_spec times ascending ok hl
  refine ⟨s', !times.isEmpty, by simp [removeTime, htimes, hs'], ok', hl', ?_⟩
  intro hp ht hspares
  -- the times of the cells of a list are times of the table
  have htime : ∀ g, ∀ x ∈ s.handleMap g, (∃ v ∈ times, x.time.rank = v.rank) ↔
      Selects s t criterion x.time := by
    intro g x hx
    obtain ⟨handles, hin, -⟩ := hl.listed g x hx
    obtain ⟨c, hc, hce⟩ := ok.cell hin
    replace hce : c.time = x.time := hce
    constructor
    · rintro ⟨v, hv, hr⟩
      obtain ⟨⟨d, hd, rfl⟩, hsel⟩ := (hmem v).mp hv
      obtain rfl := SparseIndex.eq_of_rank ok.indexed.sorted hc hd
        ((congrArg Temporal.rank hce).trans hr)
      exact hce ▸ hsel
    · intro hsel
      exact ⟨x.time, (hmem x.time).mpr ⟨⟨c, hc, hce⟩, hsel⟩, rfl⟩
  refine hkeep hp ht fun g c hc hgone x hx => ?_
  exact (htime g x hx).mpr (hspares g c hc ((htime g c (ht g c hc).1).mp hgone) x hx)

end TemporalTable

end OpenCog
