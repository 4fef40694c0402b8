import OpenCog.Spatial.Solution

/-! A controller finds a shortest path wherever there is one, and can be used again. -/
namespace OpenCog.Spatial

open WeightedPaths

variable {σ K : Type}

namespace AStarSearch

theorem idle_new (maxNodes : Nat) (memory : Address → Node σ K) :
    Idle maxNodes (new maxNodes memory) :=
  ⟨List.Perm.refl _, rfl, rfl, rfl⟩

variable [AddCommGroup K] [LinearOrder K] {u : UserState σ K} {edge : σ → σ → Prop} {x₀ y₀ : σ}
  {s : AStarSearch σ K} {n : Address} {maxNodes : Nat} {states : Finset σ}

/-! ## The start of a search -/

theorem Idle.start (hi : Idle maxNodes s) (hr : Room u edge x₀ maxNodes states) :
    ∃ s', s.setStartAndGoalStates u x₀ y₀ = some s' ∧ Searching u edge x₀ y₀ maxNodes s' ∧
      s'.closedList = [] := by
  have hcard : 0 < states.card := Finset.card_pos.mpr ⟨x₀, hr.start⟩
  have hroom := hr.memory x₀ hr.start none
  have hlen := hi.memory.length_eq
  rw [List.length_range] at hlen
  obtain ⟨a, b, rest, hfree⟩ : ∃ a b rest, s.firstFree = a :: b :: rest := by
    cases h : s.firstFree with
    | nil => rw [h, List.length_nil] at hlen; omega
    | cons a l =>
      cases l with
      | nil => rw [h, List.length_singleton] at hlen; omega
      | cons b rest => exact ⟨a, b, rest, rfl⟩
  have hab : a ≠ b := by
    have hnd := hi.memory.nodup_iff.mpr List.nodup_range
    rw [hfree] at hnd
    exact fun e => (List.nodup_cons.mp hnd).1 (e ▸ List.mem_cons_self)
  set h := u.goalDistanceEstimate x₀ y₀ with hh
  obtain ⟨s', hset, ha, hb, hopen, hclosed, hstate, hsteps, hstart, hgoal, hrest, hcount, hcancel⟩ :
      ∃ s', s.setStartAndGoalStates u x₀ y₀ = some s' ∧
        s'.nodes a = ⟨none, none, 0, h, 0 + h, x₀⟩ ∧ s'.nodes b = ⟨none, none, 0, 0, 0, y₀⟩ ∧
        s'.openList = [a] ∧ s'.closedList = [] ∧ s'.state = .searching ∧ s'.steps = 0 ∧
        s'.start = a ∧ s'.goal = b ∧ s'.firstFree = rest ∧ s'.allocateNodeCount = 2 ∧
        s'.cancelRequest = false := by
    simp only [setStartAndGoalStates, allocateNode, hfree, Option.bind_eq_bind, Option.bind_some]
    refine ⟨_, rfl, ?_, ?_, ?_, hi.closedList, rfl, rfl, rfl, rfl, rfl, ?_, rfl⟩
    · simp [setNode, hab, hh]
    · simp [setNode, Ne.symm hab]
    · simp [setNode, hi.openList]
    · simp [setNode, hi.count]
  have hstateA : s'.stateAt a = x₀ := by rw [stateAt, ha]
  have hstateB : s'.stateAt b = y₀ := by rw [stateAt, hb]
  refine ⟨s', hset, ⟨?_, ?_, ⟨hgoal ▸ hstateB, ?_⟩, hstate, hcancel, by rw [hsteps, hclosed]; rfl⟩,
    hclosed⟩
  · rw [hopen, hclosed]
    refine ⟨List.nodup_singleton _, by simp [hstart], ?_, fun c hc => ?_, fun c hc => ?_,
      fun c hc => ⟨[], fun p hp => (List.not_mem_nil hp).elim, ?_⟩,
      fun c hc => (List.not_mem_nil hc).elim, fun c hc => (List.not_mem_nil hc).elim,
      fun c hc => (List.not_mem_nil hc).elim⟩
    · rw [hstart, ha]
      exact ⟨rfl, rfl, hstateA⟩
    · obtain rfl : c = a := by simpa using hc
      rw [ha, hstateA, hgoal, hstateB]
    · obtain rfl : c = a := by simpa using hc
      rw [ha]
    · obtain rfl : c = a := by simpa using hc
      exact ⟨by rw [hstart]; rfl, List.isChain_singleton _, List.nodup_singleton _⟩
  · rw [hopen, hclosed]
    refine ⟨?_, by rw [hcount]; rfl⟩
    rw [hgoal, hrest]
    refine (List.Perm.swap a b rest).trans ?_
    rw [← hfree]
    exact hi.memory
  · rw [hgoal, hb]

/-! ## The end of a search -/

/-- What a search ends with. -/
def Ended (u : UserState σ K) (edge : σ → σ → Prop) (x₀ y₀ : σ) (maxNodes bound : Nat)
    (s : AStarSearch σ K) : Prop :=
  Solved u edge x₀ y₀ maxNodes bound s ∨
    s.state = .failed ∧ Idle maxNodes s ∧ ∀ l, ¬ Leads edge x₀ y₀ l

theorem Solved.mono {b b' : Nat} (hs : Solved u edge x₀ y₀ maxNodes b s) (hb : b ≤ b') :
    Solved u edge x₀ y₀ maxNodes b' s :=
  ⟨hs.state, fun fuel hf => hs.solution fuel (hb.trans hf), fun fuel hf => hs.freed fuel (hb.trans hf)⟩

/-- With nothing open no way leads to the goal. -/
theorem Searching.unreachable [IsOrderedAddMonoid K] (hs : Searching u edge x₀ y₀ maxNodes s)
    (hopen : s.openList = []) (l : List σ) : ¬ Leads edge x₀ y₀ l := by
  intro hl
  have w : Walk edge u.getCost x₀ y₀ (pathCost u.getCost l) := hl.walk
  rcases w.leaves hs.frontier.starts (fun x g hx y e => hs.frontier.passes hx y e) with
    ⟨g, ⟨a, ha, hstate, -⟩, -⟩ | ⟨x, g, c, ⟨a, ha, -⟩, -⟩
  · exact hs.frontier.noGoal a ha (hstate.trans hs.goal.1.symm)
  · rw [hopen] at ha
    cases ha

theorem Searching.succeed [IsOrderedAddMonoid K] (hd : u.Describes edge)
    (hs : Searching u edge x₀ y₀ maxNodes s)
    (hcons : Consistent edge u.getCost fun x => u.goalDistanceEstimate x y₀)
    (hn : n ∈ s.openList) (hleast : ∀ m ∈ s.openList, (s.nodes n).f ≤ (s.nodes m).f)
    (hgoal : s.stateAt n = y₀) :
    ∃ s', (s.pop n).succeed u n = some s' ∧
      Solved u edge x₀ y₀ maxNodes (s.closedList.length + 2) s' := by
  obtain ⟨l, hl, hc⟩ := hs.frontier.chain n (List.mem_append_left _ hn)
  have hshort := hs.shortest hcons hn hleast hgoal hc
  rcases List.eq_nil_or_concat l with rfl | ⟨l, p, rfl⟩
  · obtain rfl : n = s.start := Option.some.inj hc.first
    exact hs.succeed_at_start hd hshort hn
  · rw [List.concat_eq_append] at hl hc hshort
    exact hs.succeed_along hd hn hgoal hshort hl hc

end AStarSearch

namespace AStarController

open AStarSearch

variable [AddCommGroup K] [LinearOrder K] {u : UserState σ K} {edge : σ → σ → Prop} {x₀ y₀ : σ}
  {s : AStarSearch σ K} {maxNodes : Nat} {states : Finset σ} {front : AStarSearch σ K → Address}

/-- The front of the heap is a node with the least `f`. -/
def LeastFront (front : AStarSearch σ K → Address) : Prop :=
  ∀ s : AStarSearch σ K, s.openList ≠ [] →
    front s ∈ s.openList ∧ ∀ m ∈ s.openList, (s.nodes (front s)).f ≤ (s.nodes m).f

/-- The first open node with the least `f`. -/
def firstLeast (s : AStarSearch σ K) : Address :=
  (s.openList.argmin fun n => (s.nodes n).f).getD s.start

omit [AddCommGroup K] in
theorem leastFront_firstLeast : LeastFront (firstLeast : AStarSearch σ K → Address) := by
  intro s hopen
  cases h : s.openList.argmin fun n => (s.nodes n).f with
  | none => exact absurd (List.argmin_eq_none.mp h) hopen
  | some n =>
    have heq : firstLeast s = n := by rw [firstLeast, h]; rfl
    rw [heq]
    exact ⟨List.argmin_mem h, fun m hm =>
      List.le_of_mem_argmin (f := fun n => (s.nodes n).f) hm h⟩

theorem search_ends [IsOrderedAddMonoid K] (hd : u.Describes edge)
    (hr : Room u edge x₀ maxNodes states) (hfront : LeastFront front)
    (hcons : Consistent edge u.getCost fun x => u.goalDistanceEstimate x y₀) (fuel : Nat)
    (hs : Searching u edge x₀ y₀ maxNodes s) (hfuel : states.card < fuel + s.closedList.length) :
    ∃ s', search u front fuel s = some s' ∧ Ended u edge x₀ y₀ maxNodes (states.card + 1) s' := by
  have hcard := hs.frontier.card hr
  rw [List.length_append] at hcard
  induction fuel generalizing s with
  | zero => omega
  | succ fuel ih =>
    have hstep : s.searchStep u (front s) =
        if s.openList = [] then some { s.freeAllNodes with state := .failed }
        else if u.isGoal (s.stateAt (front s)) (s.stateAt s.goal) = true then
          (s.pop (front s)).succeed u (front s)
        else some ((s.pop (front s)).expand u (front s)) := by
      have hinit : ¬ s.state = .notInitialised := by simp [hs.state]
      have hend : ¬ (s.state = .succeeded ∨ s.state = .failed) := by simp [hs.state]
      have hstop : (s.openList = [] ∨ s.cancelRequest = true) ↔ s.openList = [] := by
        simp [hs.cancelRequest]
      rw [searchStep, if_neg hinit, if_neg hend]
      exact if_congr hstop rfl rfl
    rw [search, hstep]
    by_cases hopen : s.openList = []
    · rw [if_pos hopen]
      exact ⟨_, rfl, .inr ⟨rfl, hs.cells.freeAllNodes _, hs.unreachable hopen⟩⟩
    · rw [if_neg hopen]
      obtain ⟨hn, hleast⟩ := hfront s hopen
      have hpos : 0 < s.openList.length := List.length_pos_iff.mpr hopen
      by_cases hgoal : s.stateAt (front s) = y₀
      · rw [if_pos ((hd.isGoal _ _).mpr (hgoal.trans hs.goal.1.symm))]
        obtain ⟨s', hsucc, hsolved⟩ := hs.succeed hd hcons hn hleast hgoal
        refine ⟨s', ?_, .inl (hsolved.mono (by omega))⟩
        rw [hsucc]
        simp [hsolved.state]
      · rw [if_neg fun e => hgoal (((hd.isGoal _ _).mp e).trans hs.goal.1)]
        obtain ⟨hs', hclosed⟩ := hs.expand hd hr hcons hn hleast hgoal
        have hcard' := hs'.frontier.card hr
        rw [List.length_append] at hcard'
        obtain ⟨s', hsearch, hend⟩ := ih hs' (by rw [hclosed, List.length_append]; simp; omega) hcard'
        refine ⟨s', ?_, hend⟩
        simpa [hs'.state] using hsearch

/-- `findPath` finds a shortest path if any leads to the goal, else fails; its memory is free again
afterwards, and nothing in it stands in the way of the next search. -/
theorem findPath_shortest [IsOrderedAddMonoid K] (hd : u.Describes edge)
    (hr : Room u edge x₀ maxNodes states) (hfront : LeastFront front)
    (hcons : Consistent edge u.getCost fun x => u.goalDistanceEstimate x y₀)
    (hi : Idle maxNodes s) (fuel : Nat) (hfuel : states.card < fuel) :
    ∃ s', (s.setStartAndGoalStates u x₀ y₀).bind (findPath u front fuel) = some s' ∧
      Idle maxNodes s' ∧
      ((s'.state = .succeeded ∧ ∃ l, getSolution fuel s' = some l ∧
          Shortest edge u.getCost x₀ y₀ l) ∨
        s'.state = .failed ∧ ∀ l, ¬ Leads edge x₀ y₀ l) := by
  obtain ⟨s₁, hset, hs, hclosed⟩ := hi.start hr
  obtain ⟨s₂, hsearch, hend⟩ := search_ends hd hr hfront hcons fuel hs
    (by rw [hclosed]; exact hfuel)
  rw [hset, Option.bind_some, findPath, hsearch]
  rcases hend with hsolved | ⟨hfailed, hidle, hnone⟩
  · obtain ⟨l, hfollow, hshort⟩ := hsolved.solution fuel hfuel
    obtain ⟨t, hfree, hidle, hstate, hstart, hnodes⟩ := hsolved.freed fuel hfuel
    refine ⟨t, ?_, hidle, .inl ⟨hstate.trans hsolved.state, l.map s₂.stateAt, ?_, hshort⟩⟩
    · simp [hsolved.state, hfollow, hfree, hidle.count]
    · rw [getSolution, hstart, followChildren_congr hnodes, hfollow, Option.map_some]
      exact congrArg (fun f => some (l.map f)) (funext fun a => congrArg (fun m => (m a).userState) hnodes)
  · refine ⟨s₂, ?_, hidle, .inr ⟨hfailed, hnone⟩⟩
    simp [hfailed, hidle.count]

/-- Two states, each the successor of the other. -/
def twoStates : UserState Bool ℚ where
  goalDistanceEstimate _ _ := 0
  isGoal a b := a == b
  isSameState a b := a == b
  getSuccessors a p := (if p = some (!a) then [] else [!a], true)
  getCost _ _ := 1

theorem describes_twoStates : twoStates.Describes fun a b => b = !a := by
  refine ⟨fun a b => beq_iff_eq, fun a b => beq_iff_eq, fun _ _ => rfl, fun a p b e => ?_,
    fun a => by cases a <;> decide, fun _ _ _ => by norm_num [twoStates]⟩
  subst e
  by_cases h : p = some (!a)
  · exact .inr h
  · exact .inl (by simp [twoStates, h])

theorem room_twoStates : Room twoStates (fun a b => b = !a) false 4 Finset.univ := by
  refine ⟨Finset.mem_univ _, fun a _ p b hb => ?_, fun _ _ _ _ => Finset.mem_univ _, fun a _ p => ?_⟩
  · by_cases h : p = some (!a)
    · simp [twoStates, h] at hb
    · simpa [twoStates, h] using hb
  · by_cases h : p = some (!a)
    · simp [twoStates, h]
    · simp [twoStates, h]

theorem findPath_twoStates : ∃ s', ((new 4 fun _ => ⟨none, none, 0, 0, 0, true⟩).setStartAndGoalStates
      twoStates false true).bind (findPath twoStates firstLeast 3) = some s' ∧
    Idle 4 s' ∧
    ((s'.state = .succeeded ∧ ∃ l, getSolution 3 s' = some l ∧
        Shortest (fun a b => b = !a) twoStates.getCost false true l) ∨
      s'.state = .failed ∧ ∀ l, ¬ Leads (fun a b => b = !a) false true l) :=
  findPath_shortest describes_twoStates room_twoStates leastFront_firstLeast
    (fun _ _ _ => by norm_num [twoStates]) (idle_new 4 _) 3 (by decide)

end AStarController

end OpenCog.Spatial
