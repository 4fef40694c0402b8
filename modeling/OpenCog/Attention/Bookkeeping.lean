import OpenCog.Attention.ClosedForm

/-! The extremes a run reports, and when it calculates the rent: over any sequence of runs. -/
namespace OpenCog.Attention
namespace ImportanceUpdatingAgent

/-! ## The extremes seen -/

/-- The first atom visited is the only one, or some other is not richer. -/
def FirstNotPoorest : List Int → Prop
  | [] => True
  | v :: vs => vs = [] ∨ ∃ w ∈ vs, w ≤ v

/-- The minimum passed on: atoms that never lowered it leave it above the maximum. -/
def repaired (seen : Int × Int) : Int := if seen.1 < seen.2 then seen.1 else seen.2

theorem foldl_see_fst (vs : List Int) (M m : Int) :
    IsGreatest {v | v ∈ M :: vs} (vs.foldl see (M, m)).1 := by
  induction vs generalizing M m with
  | nil => simp [IsGreatest]
  | cons w vs ih =>
    have hmax : (see (M, m) w).1 = max M w := by
      unfold see
      split
      · exact (max_eq_right (le_of_lt ‹_›)).symm
      · split <;> exact (max_eq_left (not_lt.mp ‹¬M < w›)).symm
    have hsee : see (M, m) w = (max M w, (see (M, m) w).2) := Prod.ext hmax rfl
    obtain ⟨hmem, hub⟩ := ih (max M w) (see (M, m) w).2
    rw [List.foldl_cons, hsee]
    refine ⟨?_, fun v hv => ?_⟩
    · rcases List.mem_cons.mp hmem with hlast | hlater
      · rcases max_choice M w with h | h
        · exact List.mem_cons.mpr (.inl (hlast.trans h))
        · exact List.mem_cons_of_mem _ (List.mem_cons.mpr (.inl (hlast.trans h)))
      · exact List.mem_cons_of_mem _ (List.mem_cons_of_mem _ hlater)
    · have hbest : max M w ≤ (vs.foldl see (max M w, (see (M, m) w).2)).1 := hub List.mem_cons_self
      rcases List.mem_cons.mp hv with rfl | hv
      · exact (le_max_left _ _).trans hbest
      · rcases List.mem_cons.mp hv with rfl | hv
        · exact (le_max_right _ _).trans hbest
        · exact hub (List.mem_cons_of_mem _ hv)

/-- The minimum seen, where `v` was visited before: not above the values up to `v`, and above
`v` if all others are. -/
theorem foldl_see_snd {v : Int} (vs : List Int) {M m : Int} (hM : v ≤ M) :
    (vs.foldl see (M, m)).2 ≤ m ∧
      ((vs.foldl see (M, m)).2 = m ∨ (vs.foldl see (M, m)).2 ∈ vs) ∧
      (∀ w ∈ vs, w ≤ v → (vs.foldl see (M, m)).2 ≤ w) ∧
      ((∀ w ∈ vs, v < w) → v < m → v < (vs.foldl see (M, m)).2) := by
  induction vs generalizing M m with
  | nil => simp
  | cons w vs ih =>
    have hM' : v ≤ (see (M, m) w).1 := by
      unfold see
      split
      · exact hM.trans (le_of_lt ‹_›)
      · split <;> exact hM
    have hlow : (see (M, m) w).2 ≤ m ∧ ((see (M, m) w).2 = m ∨ (see (M, m) w).2 = w) ∧
        (w ≤ v → (see (M, m) w).2 ≤ w) := by
      unfold see
      split
      · exact ⟨le_refl _, .inl rfl, fun hw => absurd (hw.trans hM) (not_le.mpr ‹_›)⟩
      · split
        · exact ⟨le_of_lt ‹_›, .inr rfl, fun _ => le_refl _⟩
        · exact ⟨le_refl _, .inl rfl, fun _ => not_lt.mp ‹_›⟩
    obtain ⟨hle, hfrom, hsmall⟩ := hlow
    obtain ⟨hrest, hmem, hbelow, habove⟩ := ih (m := (see (M, m) w).2) hM'
    rw [List.foldl_cons]
    refine ⟨hrest.trans hle, ?_, ?_, fun hall hm => ?_⟩
    · rcases hmem with heq | hmem
      · rcases hfrom with h | h
        · exact .inl (heq.trans h)
        · exact .inr (List.mem_cons.mpr (.inl (heq.trans h)))
      · exact .inr (List.mem_cons_of_mem _ hmem)
    · rw [List.forall_mem_cons]
      exact ⟨fun hw => hrest.trans (hsmall hw), hbelow⟩
    · obtain ⟨hw, hall⟩ := List.forall_mem_cons.mp hall
      refine habove hall ?_
      rcases hfrom with h | h
      · rwa [h]
      · rwa [h]

/-- The maximum is always right; the minimum is where the first value is not the only least. -/
theorem foldl_see_extremes {vs : List Int} (hne : vs ≠ [])
    (hbound : ∀ v ∈ vs, -32768 < v ∧ v < 32767) :
    IsGreatest {v | v ∈ vs} (vs.foldl see (-32768, 32767)).1 ∧
      (IsLeast {v | v ∈ vs} (repaired (vs.foldl see (-32768, 32767))) ↔ FirstNotPoorest vs) := by
  cases vs with
  | nil => exact absurd rfl hne
  | cons v vs =>
    obtain ⟨hlow, hhigh⟩ := hbound v List.mem_cons_self
    have hfirst : see (-32768, 32767) v = (v, 32767) := if_pos hlow
    rw [List.foldl_cons, hfirst]
    have hmax := foldl_see_fst vs v 32767
    obtain ⟨-, hmem, hbelow, habove⟩ := foldl_see_snd (m := 32767) vs (le_refl v)
    refine ⟨hmax, ?_⟩
    set seen := vs.foldl see (v, 32767)
    have htop : v ≤ seen.1 := hmax.2 List.mem_cons_self
    constructor
    · intro hleast
      by_contra hnot
      obtain ⟨hmore, hricher⟩ := not_or.mp hnot
      push Not at hricher
      have hsecond : v < seen.2 := habove hricher hhigh
      obtain ⟨w, hw⟩ := List.exists_mem_of_ne_nil vs hmore
      have hfirst : v < seen.1 := (hricher w hw).trans_le (hmax.2 (List.mem_cons_of_mem _ hw))
      have hle : repaired seen ≤ v := hleast.2 List.mem_cons_self
      unfold repaired at hle
      split at hle <;> omega
    · rintro (rfl | ⟨w, hw, hle⟩)
      · have hseen : repaired (v, 32767) = v := if_pos hhigh
        show IsLeast {u | u ∈ [v]} (repaired (v, 32767))
        rw [hseen]
        simp [IsLeast]
      · have hpoor : seen.2 ≤ v := (hbelow w hw hle).trans hle
        have hrepaired : repaired seen = seen.2 := if_neg (not_lt.mpr (hpoor.trans htop))
        rw [hrepaired]
        refine ⟨List.mem_cons_of_mem _ (hmem.resolve_left (by omega)), fun u hu => ?_⟩
        rcases List.mem_cons.mp hu with rfl | hu
        · exact hpoor
        · by_cases hsmall : u ≤ v
          · exact hbelow u hu hsmall
          · omega

/-! ## One run -/

section Run
variable {narrow : Int → Int} {m : Int} {u : ImportanceUpdatingAgent} {libm : Libm} {l l' : Lobe}

theorem updateAtoms_seen (hn : Narrowing narrow m) {stiWages ltiWages : List (Nat × ℚ)}
    {hs : List Handle} (hnodup : hs.Nodup) {c : Handle → Int} (hl : SameSetting l l')
    (hc : ∀ h ∈ hs, l'.sti.holds (.atom h) = c h) (seen : Int × Int) :
    (u.updateAtoms narrow libm stiWages ltiWages hs (seen, l')).1 =
      (hs.map fun h => clamp stiCap (narrow (u.exchanged libm l stiWages (c h) h))).foldl see
        seen := by
  induction hs generalizing seen l' with
  | nil => rfl
  | cons h hs ih =>
    obtain ⟨hnot, hnodup⟩ := List.nodup_cons.mp hnodup
    obtain ⟨hfirst, hrest⟩ := List.forall_mem_cons.mp hc
    have hsti : (u.updateAtomOf narrow libm stiWages ltiWages l' h).sti =
        u.updateSTIOf narrow libm l stiWages l'.sti h := hl.updateSTIOf stiWages l'.sti h
    have hsame : SameSetting l (u.updateAtomOf narrow libm stiWages ltiWages l' h) :=
      ⟨hl.boundary, hl.maxSTI, hl.minds, hl.atoms, hl.isNode⟩
    have hlater : ∀ g ∈ hs, (u.updateAtomOf narrow libm stiWages ltiWages l' h).sti.holds (.atom g) =
        c g := by
      intro g hg
      have hgh : g ≠ h := fun hgh => hnot (hgh ▸ hg)
      rw [hsti, updateSTIOf_atom hn, if_neg hgh, hrest g hg]
    rw [updateAtoms, ih hnodup hsame hlater, hsti, updateSTIOf_atom hn, if_pos rfl, hfirst]
    rfl

/-- The STI of the atoms after wages, rent and cap. -/
def updatedSTIs (narrow : Int → Int) (u : ImportanceUpdatingAgent) (libm : Libm) (l : Lobe)
    (agents : List Nat) : List Int :=
  (u.getHandlesToUpdate l).map fun h => heldAtCheck narrow u libm l agents (.atom h)

theorem afterLoop_seen (hn : Narrowing narrow m) (hp : Settled narrow l.sti) (agents : List Nat) :
    (afterLoop narrow libm u l agents).1 =
      (updatedSTIs narrow u libm l agents).foldl see (-32768, 32767) := by
  have hstart : ∀ h ∈ u.getHandlesToUpdate l,
      (calculateWages narrow l.minds u.stiAtomWage agents l.sti.start).2.holds (.atom h) =
        l.sti.holds (.atom h) := by
    intro h _
    rw [calculateWages_holds hn hp.start]
    rfl
  unfold updatedSTIs heldAtCheck exchangedOf
  rw [← zip_wages hn hp]
  exact updateAtoms_seen hn nodup_handles ⟨rfl, rfl, rfl, rfl, rfl⟩ hstart _

theorem checkAtomSpaceFunds_flag (u : ImportanceUpdatingAgent) (l : Lobe)
    (draws : Handle → Nat × Nat) :
    (u.checkAtomSpaceFunds narrow l draws).1.lobeSTIOutOfBounds =
      (u.lobeSTIOutOfBounds || !inRange l.sti.funds u.acceptableLobeSTIRange) := by
  have hlti : ∀ (u : ImportanceUpdatingAgent) (l : Lobe) (draws : Handle → Nat),
      (u.checkLTIFunds narrow l draws).1.lobeSTIOutOfBounds = u.lobeSTIOutOfBounds := by
    intro u l draws
    unfold checkLTIFunds
    split <;> rfl
  rw [checkAtomSpaceFunds, hlti, checkSTIFunds]
  by_cases hin : inRange l.sti.funds u.acceptableLobeSTIRange = true
  · simp only [hin, if_true, Bool.not_true, Bool.or_false]
  · simp only [hin, Bool.false_eq_true, if_false, Bool.not_false, Bool.or_true]

/-- What a run reports. -/
theorem run_report (hn : Narrowing narrow m) (hp : Settled narrow l.sti) (agents : List Nat)
    (draws : Handle → Nat × Nat) :
    (u.run narrow libm l agents draws).report =
      { maxSTI := ((updatedSTIs narrow u libm l agents).foldl see (-32768, 32767)).1
        minSTI := repaired ((updatedSTIs narrow u libm l agents).foldl see (-32768, 32767))
        updated := updatedSTIs narrow u libm l agents
        foundOutOfRange := !inRange (fundsAtCheck narrow u libm l agents) u.acceptableLobeSTIRange
        rentUpdated := u.lobeSTIOutOfBounds ||
          !inRange (fundsAtCheck narrow u libm l agents) u.acceptableLobeSTIRange } := by
  obtain ⟨-, hsti⟩ := @afterLoop_sti narrow libm u l agents
  set s := afterLoop narrow libm u l agents
  have hupdated : (u.getHandlesToUpdate l).map (fun h => s.2.sti.holds (.atom h)) =
      updatedSTIs narrow u libm l agents := by
    refine List.map_congr_left fun h hh => ?_
    rw [hsti, stiBeforeTax_atom hn hp hh]
  have hfunds : s.2.sti.funds = fundsAtCheck narrow u libm l agents := by
    rw [hsti, stiBeforeTax_funds hn hp]
  have hreport : (u.run narrow libm l agents draws).report =
      ⟨s.1.1, repaired s.1, (u.getHandlesToUpdate l).map fun h => s.2.sti.holds (.atom h),
        !inRange s.2.sti.funds u.acceptableLobeSTIRange,
        u.lobeSTIOutOfBounds || !inRange s.2.sti.funds u.acceptableLobeSTIRange⟩ :=
    congrArg (Report.mk _ _ _ _) (checkAtomSpaceFunds_flag _ _ _)
  rw [hreport, hupdated, hfunds, afterLoop_seen hn hp]

end Run

/-! ## Runs -/

/-- The extremes are those of the updated atoms, and the rent is calculated only if the funds
were found out of range. -/
structure Report.Right (r : Report) : Prop where
  max : IsGreatest {v | v ∈ r.updated} r.maxSTI
  min : IsLeast {v | v ∈ r.updated} r.minSTI
  rent : r.rentUpdated = true → r.foundOutOfRange = true

/-- What the environment gives to a run. -/
structure Turn where
  lobe : Lobe
  shorts : ∀ avh, Fits (lobe.sti.holds avh)
  agents : List Nat
  draws : Handle → Nat × Nat

theorem Turn.settled (t : Turn) : Settled toShort t.lobe.sti :=
  fun avh => toShort_eq_self_iff.mpr (t.shorts avh)

variable (libm : Libm)

/-- The reports of runs, one after the other. -/
def reports (u : ImportanceUpdatingAgent) : List Turn → List Report
  | [] => []
  | t :: turns =>
    let outcome := u.run toShort libm t.lobe t.agents t.draws
    outcome.report :: reports outcome.agent turns

/-- A run goes right where the first atom is not poorer than all others, and no flag was
left set unless the funds are out of range again. -/
def GoesRight (u : ImportanceUpdatingAgent) (t : Turn) : Prop :=
  FirstNotPoorest (updatedSTIs toShort u libm t.lobe t.agents) ∧
    (u.lobeSTIOutOfBounds = true →
      inRange (fundsAtCheck toShort u libm t.lobe t.agents) u.acceptableLobeSTIRange = false)

def AllGoRight (u : ImportanceUpdatingAgent) : List Turn → Prop
  | [] => True
  | t :: turns =>
    GoesRight libm u t ∧ AllGoRight (u.run toShort libm t.lobe t.agents t.draws).agent turns

variable {libm} {u : ImportanceUpdatingAgent}

theorem clamp_stiCap (v : Int) : -32768 < clamp stiCap v ∧ clamp stiCap v < 32767 := by
  unfold clamp stiCap
  split
  · decide
  · split
    · decide
    · omega

theorem report_right_iff (t : Turn) (hatoms : u.getHandlesToUpdate t.lobe ≠ []) :
    (u.run toShort libm t.lobe t.agents t.draws).report.Right ↔ GoesRight libm u t := by
  have hne : updatedSTIs toShort u libm t.lobe t.agents ≠ [] := by simpa [updatedSTIs] using hatoms
  have hbound : ∀ v ∈ updatedSTIs toShort u libm t.lobe t.agents, -32768 < v ∧ v < 32767 := by
    intro v hv
    obtain ⟨h, -, rfl⟩ := List.mem_map.mp hv
    exact clamp_stiCap _
  obtain ⟨hmax, hmin⟩ := foldl_see_extremes hne hbound
  have hrent : ∀ a b : Bool, ((a || !b) = true → (!b) = true) ↔ (a = true → b = false) := by decide
  rw [GoesRight, ← hmin, ← hrent, run_report .toShort t.settled]
  exact ⟨fun h => ⟨h.min, h.rent⟩, fun h => ⟨hmax, h.1, h.2⟩⟩

theorem updateLinks_run {narrow : Int → Int} (u : ImportanceUpdatingAgent) (l : Lobe)
    (agents : List Nat) (draws : Handle → Nat × Nat) :
    (u.run narrow libm l agents draws).agent.updateLinks = u.updateLinks := by
  have hsti : ∀ (u : ImportanceUpdatingAgent) (l : Lobe) (draws : Handle → Nat),
      (u.checkSTIFunds narrow l draws).1.updateLinks = u.updateLinks := by
    intro u l draws
    unfold checkSTIFunds
    split <;> rfl
  have hlti : ∀ (u : ImportanceUpdatingAgent) (l : Lobe) (draws : Handle → Nat),
      (u.checkLTIFunds narrow l draws).1.updateLinks = u.updateLinks := by
    intro u l draws
    unfold checkLTIFunds
    split <;> rfl
  have hrent : ∀ (b : Bool) (u : ImportanceUpdatingAgent) (l : Lobe),
      (if b = true then u.updateSTIRent l else u).updateLinks = u.updateLinks := by
    intro b u l
    split <;> rfl
  exact (hrent _ _ _).trans ((hlti _ _ _).trans (hsti _ _ _))

/-- Over any sequence of runs all reports are right exactly where all runs go right. -/
theorem bookkeeping_iff {turns : List Turn}
    (hatoms : ∀ t ∈ turns, u.getHandlesToUpdate t.lobe ≠ []) :
    (∀ r ∈ u.reports libm turns, r.Right) ↔ AllGoRight libm u turns := by
  induction turns generalizing u with
  | nil => simp [reports, AllGoRight]
  | cons t turns ih =>
    obtain ⟨hfirst, hrest⟩ := List.forall_mem_cons.mp hatoms
    have hlater : ∀ t' ∈ turns, (u.run toShort libm t.lobe t.agents
        t.draws).agent.getHandlesToUpdate t'.lobe ≠ [] := by
      intro t' ht'
      rw [getHandlesToUpdate, updateLinks_run]
      exact hrest t' ht'
    rw [reports, List.forall_mem_cons, report_right_iff t hfirst, AllGoRight, ih hlater]

/-- Two atoms, of 0 and of 100, that pay no rent. -/
def twoAtoms (funds : Int) : Turn where
  lobe :=
    { sti := ⟨fun avh => if avh = .atom 2 then 100 else 0, funds, []⟩
      lti := ⟨fun _ => 0, 10000, []⟩
      attentionalFocusBoundary := 100
      maxSTI := ⟨0, 0, 1 / 2⟩
      minSTI := ⟨0, 0, 1 / 2⟩
      atoms := [1, 2]
      atoms_nodup := by decide
      isNode := fun _ => true
      minds := fun _ => .resetStimulus }
  shorts avh := by
    show Fits (if avh = .atom 2 then 100 else 0)
    split <;> decide
  agents := []
  draws _ := (0, 0)

/-- The same, the richer atom being visited first. -/
def richerFirst (funds : Int) : Turn :=
  { twoAtoms funds with
    lobe := { (twoAtoms funds).lobe with atoms := [2, 1], atoms_nodup := by decide } }

/-- Funds out of range in the second run only. -/
theorem bookkeeping_richer_first :
    (initial.reports noLibm [richerFirst 10000, richerFirst 30000]).length = 2 ∧
      ∀ r ∈ initial.reports noLibm [richerFirst 10000, richerFirst 30000], r.Right :=
  ⟨by decide +kernel, (bookkeeping_iff (by decide)).mpr
    ⟨⟨.inr ⟨0, by decide +kernel, by decide +kernel⟩, by decide⟩,
      ⟨.inr ⟨0, by decide +kernel, by decide +kernel⟩, by decide +kernel⟩, trivial⟩⟩

/-- The least STI is that of the first atom, and 100 is reported; and funds out of range in
the first run only, the rent being calculated in the second as well. -/
theorem not_bookkeeping :
    (¬ ∀ r ∈ initial.reports noLibm [twoAtoms 10000], r.Right) ∧
      ¬ ∀ r ∈ initial.reports noLibm [richerFirst 30000, richerFirst 10000], r.Right := by
  constructor
  · have hfirst : (initial.run toShort noLibm (twoAtoms 10000).lobe [] fun _ => (0, 0)).report.minSTI
        = 100 ∧
        0 ∈ (initial.run toShort noLibm (twoAtoms 10000).lobe [] fun _ => (0, 0)).report.updated := by
      decide +kernel
    intro h
    have hmin : (initial.run toShort noLibm (twoAtoms 10000).lobe [] fun _ => (0, 0)).report.minSTI ≤
        0 := (h _ List.mem_cons_self).min.2 hfirst.2
    rw [hfirst.1] at hmin
    exact absurd hmin (by decide)
  · intro h
    have hsecond := (h _ (List.mem_cons_of_mem _ List.mem_cons_self)).rent
    exact absurd (hsecond (by decide +kernel)) (by decide +kernel)

end ImportanceUpdatingAgent

end OpenCog.Attention
