import OpenCog.Spatial.AStarSearch

/-! What a search with a consistent estimate keeps from step to step: the nodes that were expanded
are done with, and the memory holds the nodes of the lists and the goal. -/
namespace OpenCog.Spatial

open WeightedPaths

variable {σ K : Type}

namespace AStarSearch

/-- What stays as it was. -/
structure Same (s s' : AStarSearch σ K) : Prop where
  start : s'.start = s.start
  goal : s'.goal = s.goal
  state : s'.state = s.state
  steps : s'.steps = s.steps
  cancelRequest : s'.cancelRequest = s.cancelRequest
  closedList : s'.closedList = s.closedList

theorem Same.trans {s s' s'' : AStarSearch σ K} (h : Same s s') (h' : Same s' s'') : Same s s'' :=
  ⟨h'.start.trans h.start, h'.goal.trans h.goal, h'.state.trans h.state, h'.steps.trans h.steps,
    h'.cancelRequest.trans h.cancelRequest, h'.closedList.trans h.closedList⟩

/-! ## The memory -/

/-- The cells of the memory are free, or hold the goal and the nodes of the lists. -/
structure Cells (maxNodes : Nat) (s : AStarSearch σ K) (op done extra : List Address) :
    Prop where
  memory : (s.goal :: (op ++ done ++ extra) ++ s.firstFree).Perm (List.range maxNodes)
  count : s.allocateNodeCount = 1 + (op ++ done ++ extra).length

section Cells
variable {maxNodes : Nat} {s s' : AStarSearch σ K} {op done extra : List Address} {c p : Address}

theorem Cells.nodup (hc : Cells maxNodes s op done extra) :
    (s.goal :: (op ++ done ++ extra) ++ s.firstFree).Nodup :=
  hc.memory.nodup_iff.mpr List.nodup_range

theorem Cells.free (hc : Cells maxNodes s op done (c :: extra)) :
    Cells maxNodes (s.freeNode c) op done extra := by
  refine ⟨List.perm_iff_count.mpr fun x => ?_, ?_⟩
  · have := List.perm_iff_count.mp hc.memory x
    simp only [freeNode, List.cons_append, List.count_cons, List.count_append] at this ⊢
    omega
  · have := hc.count
    simp only [freeNode, List.length_append, List.length_cons] at this ⊢
    omega

theorem Cells.open (hc : Cells maxNodes s op done (c :: extra)) :
    Cells maxNodes s (op ++ [c]) done extra := by
  refine ⟨List.perm_iff_count.mpr fun x => ?_, ?_⟩
  · have := List.perm_iff_count.mp hc.memory x
    simp only [List.cons_append, List.count_cons, List.count_append, List.count_nil] at this ⊢
    omega
  · have := hc.count
    simp only [List.length_append, List.length_cons, List.length_nil] at this ⊢
    omega

theorem Cells.drop (hc : Cells maxNodes s op done extra) (hp : p ∈ op) :
    Cells maxNodes (s.freeNode p) (op.erase p) done extra := by
  have hperm := List.perm_cons_erase hp
  refine ⟨List.perm_iff_count.mpr fun x => ?_, ?_⟩
  · have := List.perm_iff_count.mp hc.memory x
    have := List.perm_iff_count.mp hperm x
    simp only [freeNode, List.cons_append, List.count_cons, List.count_append] at *
    omega
  · have := hc.count
    have := hperm.length_eq
    simp only [freeNode, List.length_append, List.length_cons] at *
    omega

theorem Cells.congr (hc : Cells maxNodes s op done extra) (hgoal : s'.goal = s.goal)
    (hfree : s'.firstFree = s.firstFree) (hcount : s'.allocateNodeCount = s.allocateNodeCount) :
    Cells maxNodes s' op done extra :=
  ⟨by rw [hgoal, hfree]; exact hc.memory, hcount.trans hc.count⟩

theorem Cells.take {cs rest : List Address} (hc : Cells maxNodes s op done [])
    (hfree : s.firstFree = cs ++ rest) (hgoal : s'.goal = s.goal) (hrest : s'.firstFree = rest)
    (hcount : s'.allocateNodeCount = s.allocateNodeCount + cs.length) :
    Cells maxNodes s' op done cs := by
  refine ⟨List.perm_iff_count.mpr fun x => ?_, ?_⟩
  · have := List.perm_iff_count.mp hc.memory x
    rw [hfree] at this
    rw [hgoal, hrest]
    simp only [List.cons_append, List.count_cons, List.count_append, List.count_nil] at this ⊢
    omega
  · have := hc.count
    rw [hcount, this]
    simp only [List.length_append, List.length_nil]
    push_cast
    omega

theorem Cells.pop (hc : Cells maxNodes s op done []) (hp : p ∈ op) :
    Cells maxNodes s (op.erase p) (done ++ [p]) [] := by
  have hperm := List.perm_cons_erase hp
  refine ⟨List.perm_iff_count.mpr fun x => ?_, ?_⟩
  · have := List.perm_iff_count.mp hc.memory x
    have := List.perm_iff_count.mp hperm x
    simp only [List.cons_append, List.count_cons, List.count_append, List.count_nil] at *
    omega
  · have := hc.count
    have := hperm.length_eq
    simp only [List.length_append, List.length_cons, List.length_nil] at *
    omega

end Cells

end AStarSearch

variable [AddCommGroup K]

/-- The graph that a state describes: all its neighbours but perhaps the parent are successors. -/
structure UserState.Describes [LinearOrder K] (u : UserState σ K) (edge : σ → σ → Prop) : Prop where
  isSameState : ∀ a b, u.isSameState a b = true ↔ a = b
  isGoal : ∀ a b, u.isGoal a b = true ↔ a = b
  returns : ∀ a p, (u.getSuccessors a p).2 = true
  complete : ∀ a p b, edge a b → b ∈ (u.getSuccessors a p).1 ∨ p = some b
  irrefl : ∀ a, ¬ edge a a
  cost : ∀ a b, edge a b → 0 ≤ u.getCost a b

namespace AStarSearch

variable {u : UserState σ K} {edge : σ → σ → Prop} {x₀ : σ} {s s' : AStarSearch σ K}
  {op done extra : List Address} {E E' : σ → σ → Prop} {a b c n p : Address}

/-! ## The nodes of a search -/

/-- `a` was reached from `p`. -/
structure Follows (u : UserState σ K) (edge : σ → σ → Prop) (s : AStarSearch σ K)
    (p a : Address) : Prop where
  parent : (s.nodes a).parent = some p
  edge : edge (s.stateAt p) (s.stateAt a)
  g : (s.nodes a).g = (s.nodes p).g + u.getCost (s.stateAt p) (s.stateAt a)

/-- The nodes from the start to the last one, each the parent of the next. -/
structure Chain (u : UserState σ K) (edge : σ → σ → Prop) (s : AStarSearch σ K)
    (l : List Address) : Prop where
  first : l.head? = some s.start
  links : l.IsChain (Follows u edge s)
  nodup : l.Nodup

theorem Chain.congr {l : List Address} (hc : Chain u edge s l) (hstart : s'.start = s.start)
    (hnodes : ∀ a ∈ l, s'.nodes a = s.nodes a) : Chain u edge s' l := by
  refine ⟨hstart ▸ hc.first, hc.links.imp_of_mem_imp fun p a hp ha hlink => ?_, hc.nodup⟩
  have hstate : ∀ a ∈ l, s'.stateAt a = s.stateAt a := fun a ha => by
    rw [stateAt, hnodes a ha, stateAt]
  refine ⟨?_, ?_, ?_⟩
  · rw [hnodes a ha]
    exact hlink.parent
  · rw [hstate p hp, hstate a ha]
    exact hlink.edge
  · rw [hnodes a ha, hnodes p hp, hstate p hp, hstate a ha]
    exact hlink.g

/-- The parents lead back to the start at the cost `g`. -/
theorem Chain.walk {l : List Address} (hc : Chain u edge s (l ++ [a]))
    (hstart : (s.nodes s.start).g = 0 ∧ s.stateAt s.start = x₀) :
    Walk edge u.getCost x₀ (s.stateAt a) (s.nodes a).g := by
  induction l using List.reverseRecOn generalizing a with
  | nil =>
    obtain rfl : a = s.start := Option.some.inj hc.first
    rw [hstart.1, hstart.2]
    exact .nil
  | append_singleton l p ih =>
    obtain ⟨hlinks, -, hjoin⟩ := List.isChain_append.mp hc.links
    have hlink : Follows u edge s p a := hjoin p List.getLast?_concat a rfl
    have hfirst := (head?_concat_concat l p a).symm.trans hc.first
    rw [hlink.g]
    exact (ih ⟨hfirst, hlinks, hc.nodup.of_append_left⟩).snoc hlink.edge

section Ordered
variable [LinearOrder K]

/-- The open nodes and those that are done with, while the edges `E` have been tried. -/
structure Frontier (u : UserState σ K) (edge : σ → σ → Prop) (x₀ : σ) (s : AStarSearch σ K)
    (op done : List Address) (E : σ → σ → Prop) : Prop where
  distinct : ((op ++ done).map s.stateAt).Nodup
  start : s.start ∈ op ++ done
  startNode : (s.nodes s.start).parent = none ∧ (s.nodes s.start).g = 0 ∧ s.stateAt s.start = x₀
  f : ∀ a ∈ op ++ done, (s.nodes a).f =
    (s.nodes a).g + u.goalDistanceEstimate (s.stateAt a) (s.stateAt s.goal)
  childless : ∀ a ∈ op ++ done, (s.nodes a).child = none
  chain : ∀ a ∈ op ++ done, ∃ l, (∀ p ∈ l, p ∈ done) ∧ Chain u edge s (l ++ [a])
  optimal : ∀ a ∈ done, ∀ c, Walk edge u.getCost x₀ (s.stateAt a) c → (s.nodes a).g ≤ c
  tried : ∀ a ∈ done, ∀ y, E (s.stateAt a) y → ∃ m ∈ op ++ done, s.stateAt m = y ∧
    (s.nodes m).g ≤ (s.nodes a).g + u.getCost (s.stateAt a) y
  noGoal : ∀ a ∈ done, s.stateAt a ≠ s.stateAt s.goal

theorem Frontier.nodup (hf : Frontier u edge x₀ s op done E) : (op ++ done).Nodup :=
  hf.distinct.of_map _

theorem Frontier.eq_of_state (hf : Frontier u edge x₀ s op done E) (ha : a ∈ op ++ done)
    (hb : b ∈ op ++ done) (e : s.stateAt a = s.stateAt b) : a = b :=
  (List.nodup_map_iff_inj_on hf.nodup).mp hf.distinct a ha b hb e

/-- The nodes of the lists, and the state of the goal, are all that matters. -/
theorem Frontier.congr (hf : Frontier u edge x₀ s op done E) (hstart : s'.start = s.start)
    (hgoal : s'.stateAt s'.goal = s.stateAt s.goal)
    (hnodes : ∀ a ∈ op ++ done, s'.nodes a = s.nodes a) : Frontier u edge x₀ s' op done E := by
  have hstate : ∀ a ∈ op ++ done, s'.stateAt a = s.stateAt a := fun a ha => by
    rw [stateAt, hnodes a ha, stateAt]
  have hdone : ∀ a ∈ done, a ∈ op ++ done := fun a ha => List.mem_append_right op ha
  refine ⟨?_, hstart ▸ hf.start, ?_, fun a ha => ?_, fun a ha => ?_, fun a ha => ?_, fun a ha => ?_,
    fun a ha y hy => ?_, fun a ha => ?_⟩
  · rw [List.map_congr_left hstate]
    exact hf.distinct
  · rw [hstart, hnodes _ hf.start, hstate _ hf.start]
    exact hf.startNode
  · rw [hnodes a ha, hstate a ha, hgoal]
    exact hf.f a ha
  · rw [hnodes a ha]
    exact hf.childless a ha
  · obtain ⟨l, hl, hc⟩ := hf.chain a ha
    refine ⟨l, hl, hc.congr hstart fun p hp => hnodes p ?_⟩
    rcases List.mem_append.mp hp with hp | hp
    · exact hdone p (hl p hp)
    · exact List.mem_singleton.mp hp ▸ ha
  · rw [hnodes a (hdone a ha), hstate a (hdone a ha)]
    exact hf.optimal a ha
  · rw [hstate a (hdone a ha)] at hy
    obtain ⟨m, hm, hmy, hg⟩ := hf.tried a ha y hy
    refine ⟨m, hm, (hstate m hm).trans hmy, ?_⟩
    rw [hnodes m hm, hnodes a (hdone a ha), hstate a (hdone a ha)]
    exact hg
  · rw [hstate a (hdone a ha), hgoal]
    exact hf.noGoal a ha

theorem Frontier.walk (hf : Frontier u edge x₀ s op done E) (ha : a ∈ op ++ done) :
    Walk edge u.getCost x₀ (s.stateAt a) (s.nodes a).g := by
  obtain ⟨l, -, hc⟩ := hf.chain a ha
  exact hc.walk hf.startNode.2

/-- Every edge of a node that is done with leads to a node that costs no more. -/
theorem Frontier.passes (hf : Frontier u edge x₀ s op done edge) {x : σ} {g : K}
    (hx : ∃ a ∈ done, s.stateAt a = x ∧ (s.nodes a).g = g) (y : σ) (e : edge x y) :
    ∃ g', ((∃ a ∈ op, s.stateAt a = y ∧ (s.nodes a).g = g') ∨
      ∃ a ∈ done, s.stateAt a = y ∧ (s.nodes a).g = g') ∧ g' ≤ g + u.getCost x y := by
  obtain ⟨a, ha, rfl, rfl⟩ := hx
  obtain ⟨m, hm, hmy, hg⟩ := hf.tried a ha y e
  refine ⟨_, ?_, hg⟩
  rcases List.mem_append.mp hm with hm | hm
  · exact .inl ⟨m, hm, hmy, rfl⟩
  · exact .inr ⟨m, hm, hmy, rfl⟩

theorem Frontier.starts (hf : Frontier u edge x₀ s op done E) :
    (∃ a ∈ op, s.stateAt a = x₀ ∧ (s.nodes a).g = 0) ∨
      ∃ a ∈ done, s.stateAt a = x₀ ∧ (s.nodes a).g = 0 := by
  rcases List.mem_append.mp hf.start with h | h
  · exact .inl ⟨_, h, hf.startNode.2.2, hf.startNode.2.1⟩
  · exact .inr ⟨_, h, hf.startNode.2.2, hf.startNode.2.1⟩

/-! ## The front of the heap -/

section Front
variable [IsOrderedAddMonoid K]

/-- With a consistent estimate no walk to the front costs less. -/
theorem Frontier.front_optimal (hf : Frontier u edge x₀ s op done edge)
    (hcons : Consistent edge u.getCost fun x => u.goalDistanceEstimate x (s.stateAt s.goal))
    (hn : n ∈ op) (hleast : ∀ m ∈ op, (s.nodes n).f ≤ (s.nodes m).f) {c : K}
    (w : Walk edge u.getCost x₀ (s.stateAt n) c) : (s.nodes n).g ≤ c := by
  refine least_of_front (fun x g => ∃ a ∈ op, s.stateAt a = x ∧ (s.nodes a).g = g)
    (fun x g => ∃ a ∈ done, s.stateAt a = x ∧ (s.nodes a).g = g) hcons hf.starts
    (fun x g hx y e => hf.passes hx y e) ?_ ?_ w
  · rintro g ⟨a, ha, hstate, -⟩
    have e := hf.eq_of_state (List.mem_append_right op ha) (List.mem_append_left done hn) hstate
    exact (List.nodup_append.mp hf.nodup).2.2 n hn a ha e.symm
  · rintro x g ⟨a, ha, rfl, rfl⟩
    have hle := hleast a ha
    rw [hf.f n (List.mem_append_left done hn), hf.f a (List.mem_append_left done ha)] at hle
    exact hle

/-- The front is done with, before its edges are tried. -/
theorem Frontier.pop (hf : Frontier u edge x₀ s op done edge)
    (hcons : Consistent edge u.getCost fun x => u.goalDistanceEstimate x (s.stateAt s.goal))
    (hn : n ∈ op) (hleast : ∀ m ∈ op, (s.nodes n).f ≤ (s.nodes m).f)
    (hgoal : s.stateAt n ≠ s.stateAt s.goal) :
    Frontier u edge x₀ s (op.erase n) (done ++ [n])
      fun x y => edge x y ∧ x ≠ s.stateAt n := by
  have hperm : (op.erase n ++ (done ++ [n])).Perm (op ++ done) := by
    rw [← List.append_assoc]
    refine List.perm_append_comm.trans ?_
    exact ((List.perm_cons_erase hn).append_right done).symm
  have hmem : ∀ a, a ∈ op.erase n ++ (done ++ [n]) ↔ a ∈ op ++ done := fun a => hperm.mem_iff
  refine ⟨(hperm.map s.stateAt).nodup_iff.mpr hf.distinct, (hmem _).mpr hf.start, hf.startNode,
    fun a ha => hf.f a ((hmem a).mp ha), fun a ha => hf.childless a ((hmem a).mp ha),
    fun a ha => ?_, fun a ha c w => ?_, fun a ha y hy => ?_, fun a ha => ?_⟩
  · obtain ⟨l, hl, hc⟩ := hf.chain a ((hmem a).mp ha)
    exact ⟨l, fun p hp => List.mem_append_left [n] (hl p hp), hc⟩
  · rcases List.mem_append.mp ha with ha | ha
    · exact hf.optimal a ha c w
    · obtain rfl := List.mem_singleton.mp ha
      exact hf.front_optimal hcons hn hleast w
  · rcases List.mem_append.mp ha with ha | ha
    · obtain ⟨m, hm, hstate, hg⟩ := hf.tried a ha y hy.1
      exact ⟨m, (hmem m).mpr hm, hstate, hg⟩
    · exact absurd (congrArg s.stateAt (List.mem_singleton.mp ha)) hy.2
  · rcases List.mem_append.mp ha with ha | ha
    · exact hf.noGoal a ha
    · exact List.mem_singleton.mp ha ▸ hgoal

end Front

end Ordered

end AStarSearch

end OpenCog.Spatial
