import OpenCog.Spatial.Searching

/-! The end of a search: the child pointers are set along the parents of the goal, and all the
memory is given back. -/
namespace OpenCog.Spatial

open WeightedPaths

variable {σ K : Type}

namespace AStarSearch

variable {u : UserState σ K} {edge : σ → σ → Prop} {x₀ y₀ : σ} {s s' : AStarSearch σ K}
  {done l : List Address} {a c n p : Address} {maxNodes fuel : Nat}

/-! ## Freeing nodes -/

theorem freeNodes_eq (s : AStarSearch σ K) (ns : List Address) :
    s.freeNodes ns =
      { s with
        allocateNodeCount := s.allocateNodeCount - ns.length
        firstFree := ns.reverse ++ s.firstFree } := by
  induction ns generalizing s with
  | nil => simp [freeNodes]
  | cons n ns ih =>
    rw [show s.freeNodes (n :: ns) = (s.freeNode n).freeNodes ns from rfl, ih, freeNode]
    simp only [List.length_cons, List.reverse_cons, List.append_assoc, List.singleton_append]
    congr 1
    push_cast
    omega

/-- Nothing is searched for, and every cell is free. -/
structure Idle (maxNodes : Nat) (s : AStarSearch σ K) : Prop where
  memory : s.firstFree.Perm (List.range maxNodes)
  count : s.allocateNodeCount = 0
  openList : s.openList = []
  closedList : s.closedList = []

theorem Cells.freeAllNodes (hc : Cells maxNodes s s.openList s.closedList []) (st : SearchState) :
    Idle maxNodes { s.freeAllNodes with state := st } := by
  refine ⟨List.perm_iff_count.mpr fun x => ?_, ?_, ?_, ?_⟩
  · have := List.perm_iff_count.mp hc.memory x
    simp only [AStarSearch.freeAllNodes, freeNodes_eq, freeNode, List.append_nil, List.cons_append,
      List.count_cons, List.count_append, List.count_reverse] at this ⊢
    omega
  · have hcount := hc.count
    simp only [AStarSearch.freeAllNodes, freeNodes_eq, freeNode, List.append_nil,
      List.length_append] at hcount ⊢
    omega
  · simp only [AStarSearch.freeAllNodes, freeNodes_eq, freeNode]
  · simp only [AStarSearch.freeAllNodes, freeNodes_eq, freeNode]

/-! ## The child pointers -/

/-- `b` is the child of `a`. -/
def HasChild (nodes : Address → Node σ K) (a b : Address) : Prop := (nodes a).child = some b

theorem child_ne_none {nodes : Address → Node σ K} (hl : (l ++ [c]).IsChain (HasChild nodes))
    (ha : a ∈ l) : (nodes a).child ≠ none := by
  obtain ⟨l₁, l₂, rfl⟩ := List.append_of_mem ha
  obtain ⟨b, l₃, h⟩ : ∃ b l₃, l₂ ++ [c] = b :: l₃ := by
    cases l₂ with
    | nil => exact ⟨c, [], rfl⟩
    | cons b l₂ => exact ⟨b, l₂ ++ [c], rfl⟩
  rw [List.append_assoc, List.cons_append, h] at hl
  have hchild : HasChild nodes a b := (List.isChain_append_cons_cons.mp hl).2.1
  rw [hchild]
  exact Option.some_ne_none b

theorem setChildren_eq (hfirst : l.head? = some s.start) (hnd : l.Nodup)
    (hparents : l.IsChain fun p a => (s.nodes a).parent = some p) (hlast : l.getLast? = some p)
    (hfuel : l.length ≤ fuel) :
    ∃ nodes, setChildren fuel s c (some p) = some { s with nodes := nodes } ∧
      (l ++ [c]).IsChain (HasChild nodes) ∧ (∀ a, a ∉ l → nodes a = s.nodes a) ∧
      ∀ a, (nodes a).userState = (s.nodes a).userState := by
  induction l using List.reverseRecOn generalizing s c p fuel with
  | nil => cases hfirst
  | append_singleton l b ih =>
    obtain rfl : b = p := Option.some.inj (List.getLast?_concat.symm.trans hlast)
    rw [List.length_append, List.length_singleton] at hfuel
    obtain ⟨fuel, rfl⟩ : ∃ f, fuel = f + 1 := ⟨fuel - 1, by omega⟩
    set s₁ := s.setNode b { s.nodes b with child := some c } with hs₁
    have hb : s₁.nodes b = { s.nodes b with child := some c } := Function.update_self _ _ _
    have hother : ∀ a, a ≠ b → s₁.nodes a = s.nodes a := fun a ha => Function.update_of_ne ha _ _
    have hparent : ∀ a, (s₁.nodes a).parent = (s.nodes a).parent := by
      intro a
      by_cases ha : a = b
      · rw [ha, hb]
      · rw [hother a ha]
    have hstate : ∀ a, (s₁.nodes a).userState = (s.nodes a).userState := by
      intro a
      by_cases ha : a = b
      · rw [ha, hb]
      · rw [hother a ha]
    have hset : setChildren (fuel + 1) s c (some b) =
        if b = s₁.start then some s₁ else setChildren fuel s₁ b (s₁.nodes b).parent := rfl
    rcases List.eq_nil_or_concat l with rfl | ⟨l, q, rfl⟩
    · obtain rfl : b = s.start := Option.some.inj hfirst
      refine ⟨s₁.nodes, ?_, ?_, fun a ha => hother a (by simpa using ha), hstate⟩
      · rw [hset]
        exact if_pos rfl
      · refine List.isChain_pair.mpr ?_
        rw [HasChild, hb]
    · rw [List.concat_eq_append] at *
      obtain ⟨hlinks, -, hjoin⟩ := List.isChain_append.mp hparents
      have hq : (s.nodes b).parent = some q := hjoin q List.getLast?_concat b rfl
      have hfirst' : (l ++ [q]).head? = some s₁.start :=
        (head?_concat_concat l q b).symm.trans hfirst
      have hbl : b ∉ l ++ [q] := fun h =>
        (List.nodup_append.mp hnd).2.2 b h b (List.mem_singleton_self b) rfl
      have hstart : b ≠ s₁.start := fun e =>
        hbl (e ▸ List.mem_of_mem_head? (Option.mem_def.mpr hfirst'))
      obtain ⟨nodes, heq, hchain, hsame, hstates⟩ := @ih s₁ b q fuel hfirst' hnd.of_append_left
        (hlinks.imp fun x y h => (hparent y).trans h) List.getLast?_concat (by omega)
      refine ⟨nodes, ?_, ?_, fun a ha => ?_, fun a => (hstates a).trans (hstate a)⟩
      · rw [hset, if_neg hstart, hparent, hq, heq]
        rfl
      · rw [List.append_assoc (l ++ [q])]
        refine List.isChain_split.mpr ⟨hchain, ?_⟩
        refine List.isChain_pair.mpr ?_
        rw [HasChild, hsame b hbl, hb]
      · rw [List.mem_append, not_or] at ha
        rw [hsame a ha.1, hother a (by simpa using ha.2)]

/-! ## Following the child pointers -/

theorem followChildren_eq (hl : Leads (HasChild s.nodes) a c l) (hend : (s.nodes c).child = none)
    (hfuel : l.length ≤ fuel) : s.followChildren fuel a = some l := by
  induction l generalizing a fuel with
  | nil => cases hl.first
  | cons x l ih =>
    obtain rfl : x = a := Option.some.inj hl.first
    obtain ⟨fuel, rfl⟩ : ∃ f, fuel = f + 1 := ⟨fuel - 1, by simp at hfuel; omega⟩
    cases l with
    | nil =>
      obtain rfl : x = c := Option.some.inj hl.last
      rw [followChildren, hend]
    | cons b l =>
      obtain ⟨hchild, hsteps⟩ := List.isChain_cons_cons.mp hl.steps
      have hrest : Leads (HasChild s.nodes) b c (b :: l) :=
        ⟨hsteps, rfl, by rw [← hl.last, List.getLast?_cons_cons]⟩
      have h : s.followChildren fuel b = some (b :: l) := ih hrest (by simpa using hfuel)
      rw [followChildren, hchild]
      simp only [h, Option.map_some]

theorem followChildren_congr (h : s'.nodes = s.nodes) :
    s'.followChildren fuel a = s.followChildren fuel a := by
  induction fuel generalizing a with
  | zero => rfl
  | succ fuel ih =>
    rw [followChildren, followChildren, h]
    cases (s.nodes a).child with
    | none => rfl
    | some b => exact congrArg (Option.map (a :: ·)) ih

theorem freeChain_eq (hl : (a :: l ++ [s.goal]).IsChain (HasChild s.nodes)) (hgoal : s.goal ∉ l)
    (hfuel : l.length < fuel) :
    freeChain fuel s a = some
      { s with
        firstFree := s.goal :: ((a :: l).reverse ++ s.firstFree)
        allocateNodeCount := s.allocateNodeCount - (l.length + 2) } := by
  induction l generalizing s a fuel with
  | nil =>
    obtain ⟨fuel, rfl⟩ : ∃ f, fuel = f + 1 := ⟨fuel - 1, by omega⟩
    have hchild : HasChild s.nodes a s.goal := List.isChain_pair.mp hl
    rw [HasChild] at hchild
    rw [freeChain, hchild]
    simp only [freeNode, if_true]
    congr 2
    simp only [List.length_nil]
    omega
  | cons b l ih =>
    obtain ⟨fuel, rfl⟩ : ∃ f, fuel = f + 1 := ⟨fuel - 1, by omega⟩
    obtain ⟨hchild, hrest⟩ := List.isChain_cons_cons.mp hl
    obtain ⟨hb, hgoal'⟩ := not_or.mp (fun h => hgoal (List.mem_cons.mpr h))
    have h := @ih (s.freeNode a) b fuel hrest hgoal' (by simpa using hfuel)
    rw [HasChild] at hchild
    rw [freeChain, hchild]
    dsimp only
    rw [if_neg (show ¬ b = (s.freeNode a).goal from Ne.symm hb), h]
    simp only [freeNode]
    congr 2
    · simp
    · simp only [List.length_cons]
      push_cast
      omega

/-! ## Freeing what the solution does not need -/

theorem filter_childless {nodes : Address → Node σ K} {ns : List Address}
    (h : ∀ a ∈ ns, (nodes a).child = none) :
    ns.filter (fun n => (nodes n).child.isNone) = ns :=
  List.filter_eq_self.mpr fun a ha => by rw [h a ha]; rfl

theorem freeUnusedNodes_eq (s : AStarSearch σ K) :
    s.freeUnusedNodes =
      { s with
        openList := []
        closedList := []
        allocateNodeCount := s.allocateNodeCount
          - (s.openList.filter fun n => (s.nodes n).child.isNone).length
          - (s.closedList.filter fun n => (s.nodes n).child.isNone).length
        firstFree := (s.closedList.filter fun n => (s.nodes n).child.isNone).reverse
          ++ ((s.openList.filter fun n => (s.nodes n).child.isNone).reverse ++ s.firstFree) } := by
  simp only [freeUnusedNodes, freeNodes_eq]

/-- The closed nodes without a child are those outside of the solution. -/
theorem unused_perm {nodes : Address → Node σ K} (hdone : done.Nodup) (hl : l.Nodup)
    (hsub : ∀ a ∈ l, a ∈ done) (hchild : ∀ a ∈ l, (nodes a).child ≠ none)
    (hnone : ∀ a ∈ done, a ∉ l → (nodes a).child = none) :
    ((done.filter fun n => (nodes n).child.isNone) ++ l).Perm done := by
  have hperm : (done.filter fun n => !(nodes n).child.isNone).Perm l := by
    refine (List.perm_ext_iff_of_nodup (hdone.filter _) hl).mpr fun a => ?_
    rw [List.mem_filter]
    constructor
    · rintro ⟨ha, hsome⟩
      by_contra hnot
      rw [hnone a ha hnot] at hsome
      cases hsome
    · intro ha
      refine ⟨hsub a ha, ?_⟩
      cases h : (nodes a).child with
      | none => exact absurd h (hchild a ha)
      | some b => rfl
  exact (hperm.symm.append_left _).trans (List.filter_append_perm _ done)

/-! ## The goal is reached -/

/-- The goal takes over the parent of the front, which has its state. -/
def takeOver (s : AStarSearch σ K) (n : Address) : AStarSearch σ K :=
  (s.pop n).setNode s.goal { s.nodes s.goal with parent := (s.nodes n).parent }

theorem takeOver_nodes (ha : a ≠ s.goal) : (s.takeOver n).nodes a = s.nodes a :=
  Function.update_of_ne ha _ _

theorem takeOver_goal : (s.takeOver n).nodes s.goal =
    { s.nodes s.goal with parent := (s.nodes n).parent } :=
  Function.update_self _ _ _

theorem takeOver_stateAt (s : AStarSearch σ K) (n a : Address) :
    (s.takeOver n).stateAt a = s.stateAt a := by
  by_cases ha : a = s.goal
  · rw [stateAt, ha, takeOver_goal, stateAt]
  · rw [stateAt, takeOver_nodes ha, stateAt]

section Group
variable [AddCommGroup K]

/-- The states from the start to the node cost what the node does. -/
theorem Chain.pathCost_eq (hc : Chain u edge s (l ++ [a]))
    (hstart : (s.nodes s.start).g = 0 ∧ s.stateAt s.start = x₀) :
    pathCost u.getCost ((l ++ [a]).map s.stateAt) = (s.nodes a).g := by
  induction l using List.reverseRecOn generalizing a with
  | nil =>
    obtain rfl : a = s.start := Option.some.inj hc.first
    exact hstart.1.symm
  | append_singleton l p ih =>
    obtain ⟨hlinks, -, hjoin⟩ := List.isChain_append.mp hc.links
    have hlink : Follows u edge s p a := hjoin p List.getLast?_concat a rfl
    have hfirst := (head?_concat_concat l p a).symm.trans hc.first
    rw [List.map_append, List.map_singleton, pathCost_concat _ (s.stateAt p), hlink.g,
      ih ⟨hfirst, hlinks, hc.nodup.of_append_left⟩]
    rw [List.map_append, List.map_singleton]
    exact List.getLast?_concat

theorem Chain.leads (hc : Chain u edge s (l ++ [a])) (hstart : s.stateAt s.start = x₀) :
    Leads edge x₀ (s.stateAt a) ((l ++ [a]).map s.stateAt) := by
  have hl : Leads (Follows u edge s) s.start a (l ++ [a]) :=
    ⟨hc.links, hc.first, List.getLast?_concat⟩
  rw [← hstart]
  exact hl.map fun _ _ h => h.edge

/-- The solution is a shortest way, and nothing is left in the memory when it is freed. -/
structure Solved (u : UserState σ K) [LinearOrder K] (edge : σ → σ → Prop) (x₀ y₀ : σ)
    (maxNodes bound : Nat) (s : AStarSearch σ K) : Prop where
  state : s.state = .succeeded
  solution : ∀ fuel, bound ≤ fuel → ∃ l, s.followChildren fuel s.start = some l ∧
    Shortest edge u.getCost x₀ y₀ (l.map s.stateAt)
  freed : ∀ fuel, bound ≤ fuel → ∃ t, s.freeSolutionNodes fuel = some t ∧ Idle maxNodes t ∧
    t.state = s.state ∧ t.start = s.start ∧ t.nodes = s.nodes

variable [LinearOrder K]

theorem succeed_eq (hstart : (s.takeOver n).stateAt n = (s.takeOver n).stateAt s.start ↔ n = s.start)
    (hd : u.Describes edge) : (s.pop n).succeed u n =
      (if n = s.start then some (s.takeOver n)
        else setChildren (s.closedList.length + 1) ((s.takeOver n).freeNode n) s.goal
          (s.nodes n).parent).map fun s => { s.freeUnusedNodes with state := .succeeded } := by
  have hparent : ((s.takeOver n).nodes s.goal).parent = (s.nodes n).parent := by
    rw [takeOver_goal]
  have hsame : u.isSameState ((s.takeOver n).stateAt n) ((s.takeOver n).stateAt s.start) = true ↔
      n = s.start := (hd.isSameState _ _).trans hstart
  by_cases h : n = s.start
  · rw [if_pos h]
    exact if_pos (hsame.mpr h)
  · rw [if_neg h, Option.map_eq_bind, ← hparent]
    exact if_neg fun e => h (hsame.mp e)

theorem Searching.shortest [IsOrderedAddMonoid K] (hs : Searching u edge x₀ y₀ maxNodes s)
    (hcons : Consistent edge u.getCost fun x => u.goalDistanceEstimate x y₀)
    (hn : n ∈ s.openList) (hleast : ∀ m ∈ s.openList, (s.nodes n).f ≤ (s.nodes m).f)
    (hgoal : s.stateAt n = y₀) (hc : Chain u edge s (l ++ [n])) :
    Shortest edge u.getCost x₀ y₀ ((l ++ [n]).map s.stateAt) := by
  refine ⟨hgoal ▸ hc.leads hs.frontier.startNode.2.2, fun l' hl' => ?_⟩
  rw [hc.pathCost_eq hs.frontier.startNode.2]
  refine hs.frontier.front_optimal (hs.goal.1 ▸ hcons) hn hleast ?_
  rw [hgoal]
  exact hl'.walk

theorem Searching.goal_notMem (hs : Searching u edge x₀ y₀ maxNodes s) :
    s.goal ∉ s.openList ++ s.closedList := by
  have hnd := hs.cells.nodup
  rw [List.append_nil] at hnd
  exact fun h => (List.nodup_cons.mp hnd).1 (List.mem_append_left _ h)

theorem Searching.count (hs : Searching u edge x₀ y₀ maxNodes s) (hn : n ∈ s.openList) :
    s.allocateNodeCount = 2 + (s.openList.erase n).length + s.closedList.length := by
  have hcount := hs.cells.count
  have hlen := (List.perm_cons_erase hn).length_eq
  simp only [List.append_nil, List.length_append, List.length_cons] at hcount hlen
  omega

/-- The start is the goal. -/
theorem Searching.succeed_at_start [IsOrderedAddMonoid K] (hd : u.Describes edge)
    (hs : Searching u edge x₀ y₀ maxNodes s)
    (hshort : Shortest edge u.getCost x₀ y₀ ([s.start].map s.stateAt))
    (hn : s.start ∈ s.openList) :
    ∃ s', (s.pop s.start).succeed u s.start = some s' ∧
      Solved u edge x₀ y₀ maxNodes (s.closedList.length + 2) s' := by
  set s₁ := s.takeOver s.start with hs₁
  have hchildless : ∀ a ∈ s.openList ++ s.closedList, (s₁.nodes a).child = none := by
    intro a ha
    rw [takeOver_nodes fun e => hs.goal_notMem (e ▸ ha)]
    exact hs.frontier.childless a ha
  have hopen : (s₁.openList.filter fun n => (s₁.nodes n).child.isNone) = s.openList.erase s.start :=
    filter_childless fun a ha => hchildless a (List.mem_append_left _ (List.mem_of_mem_erase ha))
  have hclosed : (s₁.closedList.filter fun n => (s₁.nodes n).child.isNone) = s.closedList :=
    filter_childless fun a ha => hchildless a (List.mem_append_right _ ha)
  have hstart : (s₁.nodes s.start).child = none := hchildless _ (List.mem_append_left _ hn)
  refine ⟨{ s₁.freeUnusedNodes with state := .succeeded }, ?_, rfl, fun fuel hfuel => ?_,
    fun fuel _ => ?_⟩
  · rw [succeed_eq (iff_of_true rfl rfl) hd, if_pos rfl]
    rfl
  · rw [freeUnusedNodes_eq]
    refine ⟨[s.start], ?_, ?_⟩
    · exact followChildren_eq ⟨List.isChain_singleton _, rfl, rfl⟩ hstart
        (by simp only [List.length_singleton]; omega)
    · have h : ([s.start].map s₁.stateAt) = [s.start].map s.stateAt :=
        List.map_congr_left fun a _ => takeOver_stateAt s s.start a
      rw [← h] at hshort
      exact hshort
  · have hcount := hs.count hn
    rw [freeUnusedNodes_eq, hopen, hclosed]
    have hnone : ((s₁.nodes s.start).child).isSome = false := by rw [hstart]; rfl
    refine ⟨_, if_neg (by rw [Bool.not_eq_true]; exact hnone), ⟨?_, ?_, rfl, rfl⟩, rfl, rfl, rfl⟩
    · refine List.perm_iff_count.mpr fun x => ?_
      have := List.perm_iff_count.mp hs.cells.memory x
      have := List.perm_iff_count.mp (List.perm_cons_erase hn) x
      have hfree : s₁.firstFree = s.firstFree := rfl
      have hgoal : s₁.goal = s.goal := rfl
      have hfirst : s₁.start = s.start := rfl
      simp only [freeNode, List.append_nil, List.cons_append, List.count_cons, List.count_append,
        List.count_reverse, hfree, hgoal, hfirst] at *
      omega
    · show s.allocateNodeCount - _ - _ - 1 - 1 = 0
      omega

/-- The start is not the goal: the nodes of the solution are those that have a child. -/
theorem Searching.succeed_along [IsOrderedAddMonoid K] (hd : u.Describes edge)
    (hs : Searching u edge x₀ y₀ maxNodes s) (hn : n ∈ s.openList) (hgoal : s.stateAt n = y₀)
    (hshort : Shortest edge u.getCost x₀ y₀ ((l ++ [p] ++ [n]).map s.stateAt))
    (hl : ∀ a ∈ l ++ [p], a ∈ s.closedList) (hc : Chain u edge s (l ++ [p] ++ [n])) :
    ∃ s', (s.pop n).succeed u n = some s' ∧
      Solved u edge x₀ y₀ maxNodes (s.closedList.length + 2) s' := by
  set s₁ := (s.takeOver n).freeNode n with hs₁
  have hdoneGoal : ∀ a ∈ s.closedList, a ≠ s.goal := fun a ha e =>
    hs.goal_notMem (e ▸ List.mem_append_right _ ha)
  have hnodes : ∀ a ∈ s.openList ++ s.closedList, s₁.nodes a = s.nodes a := fun a ha =>
    takeOver_nodes fun e => hs.goal_notMem (e ▸ ha)
  obtain ⟨hlinks, -, hjoin⟩ := List.isChain_append.mp hc.links
  have hlink : Follows u edge s p n := hjoin p List.getLast?_concat n rfl
  have hfirst : (l ++ [p]).head? = some s₁.start :=
    (head?_concat_concat l p n).symm.trans hc.first
  have hnd : (l ++ [p]).Nodup := hc.nodup.of_append_left
  have hlen : (l ++ [p]).length ≤ s.closedList.length :=
    (hnd.subperm fun a ha => hl a ha).length_le
  have hne : n ≠ s.start := by
    intro e
    have hin : s.start ∈ l ++ [p] := List.mem_of_mem_head? (Option.mem_def.mpr hfirst)
    exact (List.nodup_append.mp hc.nodup).2.2 _ hin n (List.mem_singleton_self n) e.symm
  have hparents : (l ++ [p]).IsChain fun q a => (s₁.nodes a).parent = some q := by
    refine hlinks.imp_of_mem_imp fun q a _ ha h => ?_
    rw [hnodes a (List.mem_append_right _ (hl a ha))]
    exact h.parent
  obtain ⟨nodes, hset, hchain, hsame, hstate⟩ := @setChildren_eq _ _ s₁ (l ++ [p]) s.goal p
    (s.closedList.length + 1) hfirst hnd hparents List.getLast?_concat (by omega)
  have hgoalOut : s.goal ∉ l ++ [p] := fun h => hdoneGoal _ (hl _ h) rfl
  have hgoalNode : (nodes s.goal).child = none := by
    rw [hsame _ hgoalOut]
    exact (congrArg Node.child takeOver_goal).trans hs.goal.2
  have hchildless : ∀ a ∈ s.openList ++ s.closedList, a ∉ l ++ [p] → (nodes a).child = none := by
    intro a ha hout
    rw [hsame a hout, hnodes a ha]
    exact hs.frontier.childless a ha
  have hunused := unused_perm (hs.frontier.nodup.of_append_right) hnd hl
    (fun a ha => child_ne_none hchain ha)
    fun a ha hout => hchildless a (List.mem_append_right _ ha) hout
  have hopen : ((s.openList.erase n).filter fun n => (nodes n).child.isNone) =
      s.openList.erase n := by
    refine filter_childless fun a ha => ?_
    have hin : a ∈ s.openList := List.mem_of_mem_erase ha
    refine hchildless a (List.mem_append_left _ hin) fun h => ?_
    exact (List.nodup_append.mp hs.frontier.nodup).2.2 a hin a (hl a h) rfl
  have hstates : ∀ a, (nodes a).userState = s.stateAt a := fun a =>
    (hstate a).trans (takeOver_stateAt s n a)
  have hleads : Leads (HasChild nodes) s.start s.goal (l ++ [p] ++ [s.goal]) :=
    ⟨hchain, (head?_concat_concat l p s.goal).trans hfirst, List.getLast?_concat⟩
  set t : AStarSearch σ K := { { s₁ with nodes := nodes }.freeUnusedNodes with state := .succeeded }
    with ht
  have htnodes : t.nodes = nodes := by rw [ht, freeUnusedNodes_eq]
  have htstart : t.start = s.start := by
    rw [ht, freeUnusedNodes_eq]
    rfl
  have htgoal : t.goal = s.goal := by
    rw [ht, freeUnusedNodes_eq]
    rfl
  refine ⟨t, ?_, rfl, fun fuel hfuel => ?_, fun fuel hfuel => ?_⟩
  · rw [succeed_eq ?_ hd, if_neg hne, hlink.parent, hset]
    · rfl
    · rw [takeOver_stateAt, takeOver_stateAt]
      refine iff_of_false (fun e => ?_) hne
      exact hne (hs.frontier.eq_of_state (List.mem_append_left _ hn) hs.frontier.start e)
  · refine ⟨l ++ [p] ++ [s.goal], ?_, ?_⟩
    · rw [← htnodes] at hleads hgoalNode
      rw [htstart]
      refine followChildren_eq hleads hgoalNode ?_
      rw [List.length_append, List.length_singleton]
      omega
    · have h : (l ++ [p] ++ [s.goal]).map (fun a => (nodes a).userState) =
          (l ++ [p] ++ [n]).map s.stateAt := by
        have hsame : (l ++ [p]).map (fun a => (nodes a).userState) = (l ++ [p]).map s.stateAt :=
          List.map_congr_left fun a _ => hstates a
        rw [List.map_append, hsame, List.map_singleton, hstates, hs.goal.1, ← hgoal,
          ← List.map_singleton, ← List.map_append]
      rw [← h, ← htnodes] at hshort
      exact hshort
  · have hsome : (t.nodes t.start).child.isSome = true := by
      rw [Option.isSome_iff_ne_none, htnodes, htstart]
      exact child_ne_none hchain (List.mem_of_mem_head? (Option.mem_def.mpr hfirst))
    obtain ⟨l', hl'⟩ : ∃ l', l ++ [p] = s.start :: l' := by
      cases h : l ++ [p] with
      | nil => simp at h
      | cons b l' =>
        rw [h] at hfirst
        exact ⟨l', congrArg (· :: l') (Option.some.inj hfirst)⟩
    rw [hl', List.mem_cons, not_or] at hgoalOut
    rw [hl', ← htnodes, ← htgoal] at hchain
    have hfreed := @freeChain_eq _ _ t l' s.start fuel hchain (htgoal ▸ hgoalOut.2)
      (by rw [hl', List.length_cons] at hlen; omega)
    rw [← htstart] at hfreed
    refine ⟨_, (if_pos hsome).trans hfreed, ⟨?_, ?_, ?_, ?_⟩, rfl, rfl, rfl⟩
    · refine List.perm_iff_count.mpr fun x => ?_
      have := List.perm_iff_count.mp hs.cells.memory x
      have := List.perm_iff_count.mp (List.perm_cons_erase hn) x
      have := List.perm_iff_count.mp hunused x
      have hfree : t.firstFree = (s.closedList.filter fun n => (nodes n).child.isNone).reverse ++
          (((s.openList.erase n).filter fun n => (nodes n).child.isNone).reverse ++
            n :: s.firstFree) := by
        rw [ht, freeUnusedNodes_eq]
        rfl
      simp only [hfree, hopen, htgoal, htstart, hl', List.append_nil, List.cons_append, List.count_cons,
        List.count_append, List.count_reverse] at *
      omega
    · have hold := hs.count hn
      have hcount : t.allocateNodeCount = s.allocateNodeCount - 1
          - ((s.openList.erase n).filter fun n => (nodes n).child.isNone).length
          - (s.closedList.filter fun n => (nodes n).child.isNone).length := by
        rw [ht, freeUnusedNodes_eq]
        rfl
      have hsum := hunused.length_eq
      simp only [hl', List.length_append, List.length_cons] at hsum
      show t.allocateNodeCount - (l'.length + 2) = 0
      rw [hcount, hopen]
      omega
    · rw [ht, freeUnusedNodes_eq]
    · rw [ht, freeUnusedNodes_eq]

end Group

end AStarSearch

end OpenCog.Spatial
