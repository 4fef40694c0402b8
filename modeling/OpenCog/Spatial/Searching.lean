import OpenCog.Spatial.Expansion

/-! A search that goes on: every turn of the loop expands one more state, and no state twice. -/
namespace OpenCog.Spatial

open WeightedPaths

variable {σ K : Type}

/-- The states that a search can come to, in a memory that holds a node for each of them. -/
structure Room (u : UserState σ K) (edge : σ → σ → Prop) (x₀ : σ) (maxNodes : Nat)
    (states : Finset σ) : Prop where
  start : x₀ ∈ states
  edges : ∀ a ∈ states, ∀ p, ∀ b ∈ (u.getSuccessors a p).1, edge a b
  closed : ∀ a ∈ states, ∀ b, edge a b → b ∈ states
  memory : ∀ a ∈ states, ∀ p, states.card + 1 + (u.getSuccessors a p).1.length ≤ maxNodes

variable [AddCommGroup K]

theorem Room.walk {u : UserState σ K} {edge : σ → σ → Prop} {x₀ x : σ} {maxNodes : Nat}
    {states : Finset σ} (hr : Room u edge x₀ maxNodes states) {c : K}
    (w : Walk edge u.getCost x₀ x c) : x ∈ states := by
  induction w with
  | nil => exact hr.start
  | snoc _ e ih => exact hr.closed _ ih _ e

namespace AStarSearch

variable [LinearOrder K] {u : UserState σ K} {edge : σ → σ → Prop} {x₀ y₀ : σ}
  {s : AStarSearch σ K} {op done : List Address} {E : σ → σ → Prop} {a n : Address} {maxNodes : Nat}

/-- Between two turns of the loop. -/
structure Searching (u : UserState σ K) (edge : σ → σ → Prop) (x₀ y₀ : σ) (maxNodes : Nat)
    (s : AStarSearch σ K) : Prop where
  frontier : Frontier u edge x₀ s s.openList s.closedList edge
  cells : Cells maxNodes s s.openList s.closedList []
  goal : s.stateAt s.goal = y₀ ∧ (s.nodes s.goal).child = none
  state : s.state = .searching
  cancelRequest : s.cancelRequest = false
  steps : s.steps = s.closedList.length

theorem Frontier.card (hf : Frontier u edge x₀ s op done E) {states : Finset σ}
    (hr : Room u edge x₀ maxNodes states) : (op ++ done).length ≤ states.card := by
  classical
  have hsub : ((op ++ done).map s.stateAt).toFinset ⊆ states := by
    intro x hx
    obtain ⟨a, ha, rfl⟩ := List.mem_map.mp (List.mem_toFinset.mp hx)
    exact hr.walk (hf.walk ha)
  have h := Finset.card_le_card hsub
  rwa [List.toFinset_card_of_nodup hf.distinct, List.length_map] at h

/-! ## The edge to the parent -/

/-- The parent costs no more than it does over the node. -/
theorem Frontier.parent [IsOrderedAddMonoid K] (hd : u.Describes edge)
    (hf : Frontier u edge x₀ s op done E) (hn : n ∈ done) :
    Frontier u edge x₀ s op done fun x y => E x y ∨
      edge x y ∧ x = s.stateAt n ∧ (s.nodes n).parent.map s.stateAt = some y := by
  have hin := List.mem_append_right op hn
  cases hp : (s.nodes n).parent with
  | none =>
    refine hf.mono ?_
    rintro x y (h | ⟨-, -, h⟩)
    · exact h
    · cases h
  | some p =>
    obtain ⟨l, hl, hchain⟩ := hf.chain n hin
    rcases List.eq_nil_or_concat l with rfl | ⟨l, q, rfl⟩
    · obtain rfl : n = s.start := Option.some.inj hchain.first
      rw [hf.startNode.1] at hp
      cases hp
    rw [List.concat_eq_append] at hl hchain
    have hlink : Follows u edge s q n :=
      (List.isChain_append.mp hchain.links).2.2 q List.getLast?_concat n rfl
    obtain rfl : q = p := Option.some.inj (hlink.parent.symm.trans hp)
    have hq : q ∈ done := hl q (by simp)
    by_cases he : edge (s.stateAt n) (s.stateAt q)
    · have hle : (s.nodes q).g ≤ (s.nodes n).g + u.getCost (s.stateAt n) (s.stateAt q) := by
        rw [hlink.g]
        exact le_add_of_le_of_nonneg (le_add_of_nonneg_right (hd.cost _ _ hlink.edge))
          (hd.cost _ _ he)
      refine (hf.known hn (List.mem_append_right op hq) hle).mono ?_
      rintro x y (h | ⟨-, hx, hy⟩)
      · exact .inl h
      · exact .inr ⟨hx, (Option.some.inj hy).symm⟩
    · refine hf.mono ?_
      rintro x y (h | ⟨h, rfl, hy⟩)
      · exact h
      · rw [← Option.some.inj hy] at h
        exact absurd h he

/-! ## Expanding the front -/

/-- The front is taken from the heap. -/
def pop (s : AStarSearch σ K) (n : Address) : AStarSearch σ K :=
  { s with steps := s.steps + 1, openList := s.openList.erase n }

/-- A turn of the loop for a node that is not the goal. -/
theorem Searching.expand [IsOrderedAddMonoid K] (hd : u.Describes edge) {states : Finset σ}
    (hr : Room u edge x₀ maxNodes states) (hs : Searching u edge x₀ y₀ maxNodes s)
    (hcons : Consistent edge u.getCost fun x => u.goalDistanceEstimate x y₀)
    (hn : n ∈ s.openList) (hleast : ∀ m ∈ s.openList, (s.nodes n).f ≤ (s.nodes m).f)
    (hgoal : s.stateAt n ≠ y₀) :
    Searching u edge x₀ y₀ maxNodes ((s.pop n).expand u n) ∧
      ((s.pop n).expand u n).closedList = s.closedList ++ [n] := by
  obtain ⟨hstate, hchild⟩ := hs.goal
  set s₁ : AStarSearch σ K :=
    { s with steps := s.steps + 1, openList := s.openList.erase n, successors := [] } with hs₁
  set xs := (u.getSuccessors (s.stateAt n) ((s.nodes n).parent.map s.stateAt)).1 with hxs
  have hopen : n ∈ s.openList ++ s.closedList := List.mem_append_left _ hn
  -- the front is done with, and its edge back to the parent needs no successor
  have hpopped := ((hs.frontier.pop (hstate ▸ hcons) hn hleast (hstate ▸ hgoal)).parent hd
    (List.mem_append_right _ (List.mem_singleton_self n))).congr (show s₁.start = s.start from rfl)
      rfl fun _ _ => rfl
  have hcells : Cells maxNodes s₁ s₁.openList (s₁.closedList ++ [n]) [] :=
    (hs.cells.pop hn).congr rfl rfl rfl
  have hroom : xs.length ≤ s₁.firstFree.length := by
    have hlen := hs.cells.memory.length_eq
    have hcard := hs.frontier.card hr
    have hmem := hr.memory _ (hr.walk (hs.frontier.walk hopen))
      ((s.nodes n).parent.map s.stateAt)
    rw [← hxs] at hmem
    simp only [List.length_cons, List.length_append, List.length_nil, List.length_range] at hlen hcard
    show xs.length ≤ s.firstFree.length
    omega
  obtain ⟨cs, rest, hsplit, hmap, hchildless, hnodes, hsame, hop, hrest, hsucc, hcount⟩ :=
    addSuccessors s₁ xs hroom (hcells.nodup.sublist (List.sublist_append_right _ _))
  set s₂ := xs.foldl addSuccessor s₁ with hs₂
  have hall := hcells.take hsplit hsame.goal hrest hcount
  have hout : ∀ a ∈ s₁.goal :: (s₁.openList ++ (s₁.closedList ++ [n])), a ∉ cs := by
    intro a ha hacs
    have hnd := hcells.nodup
    rw [hsplit] at hnd
    refine (List.nodup_append.mp hnd).2.2 a ?_ a (List.mem_append_left rest hacs) rfl
    simpa using ha
  have hkeep : ∀ a ∈ s₁.goal :: (s₁.openList ++ (s₁.closedList ++ [n])), s₂.nodes a = s.nodes a :=
    fun a ha => hnodes a (hout a ha)
  have hgoal₂ : s₂.stateAt s₂.goal = s₁.stateAt s₁.goal := by
    rw [stateAt, hsame.goal, hkeep _ List.mem_cons_self, stateAt]
  have hn₂ : s₂.nodes n = s.nodes n := hkeep n (by simp)
  have hstate₂ : s₂.stateAt n = s.stateAt n := by rw [stateAt, hn₂, stateAt]
  have hexp : Expanding u edge x₀ maxNodes n s₂ cs fun x y => (edge x y ∧ x ≠ s.stateAt n) ∨
      edge x y ∧ x = s.stateAt n ∧ (s.nodes n).parent.map s.stateAt = some y := by
    refine ⟨?_, ?_, fun c hc => ?_, hchildless⟩
    · rw [hop, hsame.closedList]
      exact hpopped.congr hsame.start hgoal₂ fun a ha => hkeep a (List.mem_cons_of_mem _ ha)
    · rw [hop, hsame.closedList]
      exact hall
    · rw [hstate₂]
      refine hr.edges _ (hr.walk (hs.frontier.walk hopen)) ((s.nodes n).parent.map s.stateAt) _ ?_
      rw [← hxs, ← hmap]
      exact List.mem_map_of_mem hc
  obtain ⟨hdone, hsame', hnodes'⟩ := hexp.handleAll hd
  set s₃ := cs.foldl (AStarSearch.handleSuccessor u n) s₂ with hs₃
  have heq : (s.pop n).expand u n =
      { s₃ with closedList := s₃.closedList ++ [n] } := by
    have hcs : s₂.successors = cs := hsucc
    rw [hs₃, ← hcs]
    exact if_pos (hd.returns _ _)
  have hsame₃ : Same s₁ s₃ := hsame.trans hsame'
  have hgoal₃ : s₃.nodes s₃.goal = s.nodes s.goal := by
    rw [hsame₃.goal, hnodes' _ (hout _ List.mem_cons_self), hkeep _ List.mem_cons_self]
  rw [heq]
  refine ⟨⟨?_, ?_, ⟨?_, ?_⟩, ?_, ?_, ?_⟩, ?_⟩
  · refine (hdone.frontier.mono fun x y e => ?_).congr rfl rfl fun _ _ => rfl
    by_cases hx : x = s.stateAt n
    · subst hx
      rcases hd.complete _ ((s.nodes n).parent.map s.stateAt) _ e with h | h
      · refine .inr ⟨hstate₂.symm, ?_⟩
        rw [hmap]
        exact h
      · exact .inl (.inr ⟨e, rfl, h⟩)
    · exact .inl (.inl ⟨e, hx⟩)
  · exact hdone.cells.congr rfl rfl rfl
  · show (s₃.nodes s₃.goal).userState = y₀
    rw [hgoal₃]
    exact hstate
  · show (s₃.nodes s₃.goal).child = none
    rw [hgoal₃]
    exact hchild
  · exact hsame₃.state.trans hs.state
  · exact hsame₃.cancelRequest.trans hs.cancelRequest
  · show s₃.steps = (s₃.closedList ++ [n]).length
    rw [hsame₃.steps, hsame₃.closedList, List.length_append, ← hs.steps]
    rfl
  · show s₃.closedList ++ [n] = s.closedList ++ [n]
    rw [hsame₃.closedList]

end AStarSearch

end OpenCog.Spatial
