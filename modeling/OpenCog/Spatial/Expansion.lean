import OpenCog.Spatial.Frontier

/-! Expanding a node: with a consistent estimate no node that is done with is taken back. -/
namespace OpenCog.Spatial

open WeightedPaths

variable {σ K : Type} [AddCommGroup K] [LinearOrder K]

namespace AStarSearch

variable {u : UserState σ K} {edge : σ → σ → Prop} {x₀ : σ} {s s' : AStarSearch σ K}
  {op op' done extra : List Address} {E E' : σ → σ → Prop} {a b c n : Address} {maxNodes : Nat}

/-! ## Looking up a state -/

theorem findSame_eq_some (hd : u.Describes edge) {ns : List Address} {x : σ}
    (h : s.findSame u ns x = some a) : a ∈ ns ∧ s.stateAt a = x :=
  have hsame := List.find?_some (p := fun m => u.isSameState (s.stateAt m) x) h
  ⟨List.mem_of_find?_eq_some h, (hd.isSameState _ _).mp hsame⟩

theorem findSame_eq_none (hd : u.Describes edge) {ns : List Address} {x : σ}
    (h : s.findSame u ns x = none) (ha : a ∈ ns) : s.stateAt a ≠ x :=
  fun e => List.find?_eq_none.mp h a ha ((hd.isSameState _ _).mpr e)

/-! ## One edge -/

/-- An edge has been tried if its end is known at no more than the cost over it. -/
theorem Frontier.known (hf : Frontier u edge x₀ s op done E) (hn : n ∈ done)
    (ha : a ∈ op ++ done)
    (hg : (s.nodes a).g ≤ (s.nodes n).g + u.getCost (s.stateAt n) (s.stateAt a)) :
    Frontier u edge x₀ s op done fun x y => E x y ∨ x = s.stateAt n ∧ y = s.stateAt a := by
  refine { hf with tried := fun b hb y hy => ?_ }
  rcases hy with hy | ⟨hx, rfl⟩
  · exact hf.tried b hb y hy
  · obtain rfl := hf.eq_of_state (List.mem_append_right op hb) (List.mem_append_right op hn) hx
    exact ⟨a, ha, rfl, hg⟩

/-- A node that costs less over the edge takes the place of the one with its state. -/
theorem Frontier.improve [IsOrderedAddMonoid K] (hd : u.Describes edge)
    (hf : Frontier u edge x₀ s op done E) (hn : n ∈ done) {x : σ} (he : edge (s.stateAt n) x)
    (hc : c ∉ done) (hsub : op'.Sublist op)
    (hold : ∀ a ∈ op, a ∈ op' ∨ s.stateAt a = x ∧
      (s.nodes n).g + u.getCost (s.stateAt n) x < (s.nodes a).g)
    (hnew : ∀ a ∈ op' ++ done, s.stateAt a ≠ x) (hstart : s'.start = s.start)
    (hgoal : s'.stateAt s'.goal = s.stateAt s.goal)
    (hnodes : ∀ a ∈ op' ++ done, s'.nodes a = s.nodes a)
    (hnode : s'.nodes c =
      { parent := some n, child := none, g := (s.nodes n).g + u.getCost (s.stateAt n) x,
        h := u.goalDistanceEstimate x (s.stateAt s.goal),
        f := (s.nodes n).g + u.getCost (s.stateAt n) x +
          u.goalDistanceEstimate x (s.stateAt s.goal),
        userState := x }) :
    Frontier u edge x₀ s' (op' ++ [c]) done
      fun y z => E y z ∨ y = s.stateAt n ∧ z = x := by
  have hstate : ∀ a ∈ op' ++ done, s'.stateAt a = s.stateAt a := fun a ha => by
    rw [stateAt, hnodes a ha, stateAt]
  have hself : s'.stateAt c = x := by rw [stateAt, hnode]
  have hdone : ∀ a ∈ done, a ∈ op' ++ done := fun a ha => List.mem_append_right op' ha
  have hsplit : ∀ a, a ∈ op' ++ [c] ++ done ↔ a ∈ op' ++ done ∨ a = c := by
    intro a
    simp only [List.mem_append, List.mem_singleton]
    tauto
  have hbefore : ∀ a ∈ op' ++ done, a ∈ op ++ done := by
    intro a ha
    rcases List.mem_append.mp ha with ha | ha
    · exact List.mem_append_left done (hsub.subset ha)
    · exact List.mem_append_right op ha
  have hpos : 0 ≤ (s.nodes n).g + u.getCost (s.stateAt n) x :=
    add_nonneg ((hf.walk (List.mem_append_right op hn)).nonneg hd.cost) (hd.cost _ _ he)
  have hstartIn : s.start ∈ op' ++ done := by
    rcases List.mem_append.mp hf.start with h | h
    · rcases hold _ h with h | ⟨-, hlt⟩
      · exact List.mem_append_left done h
      · rw [hf.startNode.2.1] at hlt
        exact absurd hpos (not_le.mpr hlt)
    · exact hdone _ h
  refine ⟨?_, hstart ▸ (hsplit _).mpr (.inl hstartIn), ?_, fun a ha => ?_, fun a ha => ?_,
    fun a ha => ?_, fun a ha => ?_, fun a ha y hy => ?_, fun a ha => ?_⟩
  · have hperm : (op' ++ [c] ++ done).Perm (c :: (op' ++ done)) := by
      rw [List.append_assoc]
      exact List.perm_middle
    refine (hperm.map s'.stateAt).nodup_iff.mpr ?_
    rw [List.map_cons, List.map_congr_left hstate, List.nodup_cons, hself]
    refine ⟨fun hx => ?_, hf.distinct.sublist ((hsub.append_right done).map s.stateAt)⟩
    obtain ⟨a, ha, e⟩ := List.mem_map.mp hx
    exact hnew a ha e
  · rw [hstart, hnodes _ hstartIn, hstate _ hstartIn]
    exact hf.startNode
  · rcases (hsplit a).mp ha with ha | rfl
    · rw [hnodes a ha, hstate a ha, hgoal]
      exact hf.f a (hbefore a ha)
    · rw [hnode, hself, hgoal]
  · rcases (hsplit a).mp ha with ha | rfl
    · rw [hnodes a ha]
      exact hf.childless a (hbefore a ha)
    · rw [hnode]
  · rcases (hsplit a).mp ha with ha | rfl
    · obtain ⟨l, hl, hchain⟩ := hf.chain a (hbefore a ha)
      refine ⟨l, hl, hchain.congr hstart fun p hp => hnodes p ?_⟩
      rcases List.mem_append.mp hp with hp | hp
      · exact hdone p (hl p hp)
      · exact List.mem_singleton.mp hp ▸ ha
    · obtain ⟨l, hl, hchain⟩ := hf.chain n (List.mem_append_right op hn)
      have hall : ∀ p ∈ l ++ [n], p ∈ done := by
        intro p hp
        rcases List.mem_append.mp hp with hp | hp
        · exact hl p hp
        · exact List.mem_singleton.mp hp ▸ hn
      have hchain' := hchain.congr hstart fun p hp => hnodes p (hdone p (hall p hp))
      refine ⟨l ++ [n], hall, ?_, ?_, ?_⟩
      · rw [List.head?_append, hchain'.first]
        rfl
      · refine List.isChain_append.mpr ⟨hchain'.links, List.isChain_singleton a, ?_⟩
        intro p hp b hb
        obtain rfl : n = p := Option.some.inj (List.getLast?_concat.symm.trans hp)
        obtain rfl : a = b := by simpa using hb
        refine ⟨by rw [hnode], ?_, ?_⟩
        · rw [hself, hstate n (hdone n hn)]
          exact he
        · rw [hnode, hself, hnodes n (hdone n hn), hstate n (hdone n hn)]
      · refine List.nodup_append.mpr ⟨hchain'.nodup, List.nodup_singleton a, ?_⟩
        intro p hp b hb
        obtain rfl := List.mem_singleton.mp hb
        exact fun e => hc (e ▸ hall p hp)
  · rw [hnodes a (hdone a ha), hstate a (hdone a ha)]
    exact hf.optimal a ha
  · rw [hstate a (hdone a ha)] at hy
    rw [hnodes a (hdone a ha), hstate a (hdone a ha)]
    rcases hy with hy | ⟨hx, rfl⟩
    · obtain ⟨m, hm, rfl, hg⟩ := hf.tried a ha y hy
      have hcase : m ∈ op' ++ done ∨ s.stateAt m = x ∧
          (s.nodes n).g + u.getCost (s.stateAt n) x < (s.nodes m).g := by
        rcases List.mem_append.mp hm with hm | hm
        · exact (hold m hm).imp_left (List.mem_append_left done)
        · exact .inl (hdone m hm)
      rcases hcase with hm | ⟨hmx, hlt⟩
      · exact ⟨m, (hsplit m).mpr (.inl hm), hstate m hm, by rw [hnodes m hm]; exact hg⟩
      · refine ⟨c, (hsplit c).mpr (.inr rfl), hself.trans hmx.symm, ?_⟩
        rw [hnode]
        exact hlt.le.trans hg
    · obtain rfl := hf.eq_of_state (List.mem_append_right op ha) (List.mem_append_right op hn) hx
      refine ⟨c, (hsplit c).mpr (.inr rfl), hself, ?_⟩
      rw [hnode]
  · rw [hstate a (hdone a ha), hgoal]
    exact hf.noGoal a ha

/-! ## One successor -/

/-- While `n` is expanded: `extra` are the successors that have not been handled. -/
structure Expanding (u : UserState σ K) (edge : σ → σ → Prop) (x₀ : σ) (maxNodes : Nat)
    (n : Address) (s : AStarSearch σ K) (extra : List Address) (E : σ → σ → Prop) : Prop where
  frontier : Frontier u edge x₀ s s.openList (s.closedList ++ [n]) E
  cells : Cells maxNodes s s.openList (s.closedList ++ [n]) extra
  edges : ∀ c ∈ extra, edge (s.stateAt n) (s.stateAt c)
  childless : ∀ c ∈ extra, (s.nodes c).child = none

theorem Expanding.others (he : Expanding u edge x₀ maxNodes n s (c :: extra) E) :
    c ≠ s.goal ∧ c ∉ s.openList ++ (s.closedList ++ [n]) ∧ c ∉ extra := by
  have hnd := he.cells.nodup
  have hgoal := (List.nodup_cons.mp hnd).1
  have hrest := (List.nodup_append.mp (List.nodup_append.mp (List.nodup_cons.mp hnd).2).1)
  refine ⟨?_, fun hc => hrest.2.2 c hc c List.mem_cons_self rfl,
    (List.nodup_cons.mp hrest.2.1).1⟩
  rintro rfl
  exact hgoal (by simp)

/-- The successor is forgotten. -/
theorem Expanding.reject (he : Expanding u edge x₀ maxNodes n s (c :: extra) E) {m : Address}
    (hm : m ∈ s.openList ++ s.closedList) (hstate : s.stateAt m = s.stateAt c)
    (hg : (s.nodes m).g ≤ (s.nodes n).g + u.getCost (s.stateAt n) (s.stateAt c)) :
    Expanding u edge x₀ maxNodes n (s.freeNode c) extra
      fun x y => E x y ∨ x = s.stateAt n ∧ y = s.stateAt c := by
  have hin : m ∈ s.openList ++ (s.closedList ++ [n]) := by
    rw [← List.append_assoc]
    exact List.mem_append_left [n] hm
  rw [← hstate] at hg ⊢
  exact ⟨(he.frontier.known (by simp) hin hg).congr rfl rfl fun _ _ => rfl, he.cells.free,
    fun d hd => he.edges d (List.mem_cons_of_mem c hd),
    fun d hd => he.childless d (List.mem_cons_of_mem c hd)⟩

/-- The list without the node that is replaced. -/
def without (ns : List Address) : Option Address → List Address
  | none => ns
  | some m => ns.erase m

theorem without_sublist (ns : List Address) (m : Option Address) :
    (without ns m).Sublist ns := by
  cases m with
  | none => exact List.Sublist.refl _
  | some m => exact List.erase_sublist

/-- The successor is opened, in the place of an open node with its state. -/
theorem Expanding.accept [IsOrderedAddMonoid K] (hd : u.Describes edge)
    (he : Expanding u edge x₀ maxNodes n s (c :: extra) E) {worse : Option Address}
    (hworse : ∀ m ∈ s.openList, s.stateAt m = s.stateAt c → worse = some m)
    (hopen : ∀ m ∈ worse, m ∈ s.openList ∧ s.stateAt m = s.stateAt c ∧
      (s.nodes n).g + u.getCost (s.stateAt n) (s.stateAt c) < (s.nodes m).g)
    (hclosed : ∀ m ∈ s.closedList, s.stateAt m ≠ s.stateAt c)
    (hopenList : s'.openList = without s.openList worse ++ [c])
    (hfree : s'.firstFree = worse.toList ++ s.firstFree)
    (hcount : s'.allocateNodeCount = s.allocateNodeCount - worse.toList.length)
    (hsame : Same s s')
    (hnodes : s'.nodes = Function.update s.nodes c
      { s.nodes c with
        parent := some n, g := (s.nodes n).g + u.getCost (s.stateAt n) (s.stateAt c),
        h := u.goalDistanceEstimate (s.stateAt c) (s.stateAt s.goal),
        f := (s.nodes n).g + u.getCost (s.stateAt n) (s.stateAt c) +
          u.goalDistanceEstimate (s.stateAt c) (s.stateAt s.goal) }) :
    Expanding u edge x₀ maxNodes n s' extra
      fun x y => E x y ∨ x = s.stateAt n ∧ y = s.stateAt c := by
  obtain ⟨hcgoal, hcout, hcextra⟩ := he.others
  have hother : ∀ a, a ≠ c → s'.nodes a = s.nodes a := fun a e => by
    rw [hnodes, Function.update_of_ne e]
  have hedge := he.edges c List.mem_cons_self
  have hsub := without_sublist s.openList worse
  have hndop : s.openList.Nodup := he.frontier.nodup.of_append_left
  have hnotin : ∀ a ∈ without s.openList worse, s.stateAt a ≠ s.stateAt c := by
    intro a ha e
    have hw := hworse a (hsub.subset ha) e
    rw [hw] at ha
    exact absurd ha hndop.not_mem_erase
  have hne : ∀ a ∈ without s.openList worse ++ (s.closedList ++ [n]), a ≠ c := by
    rintro a ha rfl
    refine hcout ?_
    rcases List.mem_append.mp ha with ha | ha
    · exact List.mem_append_left _ (hsub.subset ha)
    · exact List.mem_append_right _ ha
  have hgoal : s'.stateAt s'.goal = s.stateAt s.goal := by
    rw [stateAt, hsame.goal, hother _ (Ne.symm hcgoal), stateAt]
  have hn : s'.stateAt n = s.stateAt n := by
    rw [stateAt, hother n (hne n (by simp)), stateAt]
  have hchild := he.childless c List.mem_cons_self
  refine ⟨?_, ?_, fun d hdm => ?_, fun d hdm => ?_⟩
  · rw [hopenList, hsame.closedList]
    refine he.frontier.improve hd (by simp) hedge (fun hc => hcout (List.mem_append_right _ hc)) hsub
      (fun a ha => ?_) (fun a ha => ?_) hsame.start hgoal (fun a ha => hother a (hne a ha)) ?_
    · by_cases e : s.stateAt a = s.stateAt c
      · obtain ⟨-, -, hlt⟩ := hopen a (hworse a ha e)
        exact .inr ⟨e, hlt⟩
      · refine .inl ?_
        cases worse with
        | none => exact ha
        | some m =>
          refine (List.mem_erase_of_ne ?_).mpr ha
          rintro rfl
          exact e (hopen a rfl).2.1
    · rcases List.mem_append.mp ha with ha | ha
      · exact hnotin a ha
      · rcases List.mem_append.mp ha with ha | ha
        · exact hclosed a ha
        · obtain rfl := List.mem_singleton.mp ha
          intro e
          rw [e] at hedge
          exact hd.irrefl _ hedge
    · rw [hnodes, Function.update_self]
      simp only [hchild]
      rfl
  · rw [hopenList, hsame.closedList]
    have hmoved : Cells maxNodes s (s.openList ++ [c]) (s.closedList ++ [n]) extra := he.cells.open
    cases worse with
    | none => exact hmoved.congr hsame.goal hfree (by rw [hcount]; simp)
    | some m =>
      obtain ⟨hm, -, -⟩ := hopen m rfl
      have hdropped := hmoved.drop (p := m) (List.mem_append_left [c] hm)
      rw [List.erase_append_left [c] hm] at hdropped
      exact hdropped.congr hsame.goal hfree hcount
  · have e : d ≠ c := fun e => hcextra (e ▸ hdm)
    have hdstate : s'.stateAt d = s.stateAt d := by rw [stateAt, hother d e, stateAt]
    rw [hn, hdstate]
    exact he.edges d (List.mem_cons_of_mem c hdm)
  · have e : d ≠ c := fun e => hcextra (e ▸ hdm)
    rw [hother d e]
    exact he.childless d (List.mem_cons_of_mem c hdm)

theorem handleSuccessor_known {m : Address} (hg : (s.nodes m).g ≤
      (s.nodes n).g + u.getCost (s.stateAt n) (s.stateAt c))
    (hm : s.findSame u s.openList (s.stateAt c) = some m ∨
      s.findSame u s.closedList (s.stateAt c) = some m) :
    s.handleSuccessor u n c = s.freeNode c := by
  unfold handleSuccessor
  dsimp only
  rcases hm with hm | hm
  · rw [hm]
    exact if_pos (by simpa using hg)
  · rw [hm]
    split
    · rfl
    · exact if_pos (by simpa using hg)

theorem handleSuccessor_new {worse : Option Address}
    (hworse : s.findSame u s.openList (s.stateAt c) = worse)
    (hclosed : s.findSame u s.closedList (s.stateAt c) = none)
    (hg : ∀ m ∈ worse, ¬ (s.nodes m).g ≤
      (s.nodes n).g + u.getCost (s.stateAt n) (s.stateAt c)) :
    s.handleSuccessor u n c =
      { s with
        nodes := Function.update s.nodes c
          { s.nodes c with
            parent := some n, g := (s.nodes n).g + u.getCost (s.stateAt n) (s.stateAt c),
            h := u.goalDistanceEstimate (s.stateAt c) (s.stateAt s.goal),
            f := (s.nodes n).g + u.getCost (s.stateAt n) (s.stateAt c) +
              u.goalDistanceEstimate (s.stateAt c) (s.stateAt s.goal) }
        openList := without s.openList worse ++ [c]
        firstFree := worse.toList ++ s.firstFree
        allocateNodeCount := s.allocateNodeCount - worse.toList.length } := by
  unfold handleSuccessor
  dsimp only
  rw [hworse, hclosed]
  cases worse with
  | none => simp [setNode, without]
  | some m =>
    have hm := hg m rfl
    simp [hm, setNode, without, freeNode]

theorem Expanding.handleSuccessor [IsOrderedAddMonoid K] (hd : u.Describes edge)
    (he : Expanding u edge x₀ maxNodes n s (c :: extra) E) :
    Expanding u edge x₀ maxNodes n (s.handleSuccessor u n c) extra
        (fun x y => E x y ∨ x = s.stateAt n ∧ y = s.stateAt c) ∧
      Same s (s.handleSuccessor u n c) ∧
      ∀ a, a ≠ c → (s.handleSuccessor u n c).nodes a = s.nodes a := by
  have hwalk : Walk edge u.getCost x₀ (s.stateAt c)
      ((s.nodes n).g + u.getCost (s.stateAt n) (s.stateAt c)) :=
    (he.frontier.walk (by simp)).snoc (he.edges c List.mem_cons_self)
  cases hclosed : s.findSame u s.closedList (s.stateAt c) with
  | some m =>
    -- a shortest walk to it is known, so that this one is not shorter
    obtain ⟨hm, hstate⟩ := findSame_eq_some hd hclosed
    have hg := he.frontier.optimal m (List.mem_append_left [n] hm) _ (by rw [hstate]; exact hwalk)
    rw [handleSuccessor_known hg (.inr hclosed)]
    exact ⟨he.reject (List.mem_append_right _ hm) hstate hg, ⟨rfl, rfl, rfl, rfl, rfl, rfl⟩,
      fun _ _ => rfl⟩
  | none =>
    by_cases hg : ∃ m ∈ s.findSame u s.openList (s.stateAt c), (s.nodes m).g ≤
        (s.nodes n).g + u.getCost (s.stateAt n) (s.stateAt c)
    · obtain ⟨m, ho, hg⟩ := hg
      obtain ⟨hm, hstate⟩ := findSame_eq_some hd ho
      rw [handleSuccessor_known hg (.inl ho)]
      exact ⟨he.reject (List.mem_append_left _ hm) hstate hg, ⟨rfl, rfl, rfl, rfl, rfl, rfl⟩,
        fun _ _ => rfl⟩
    · have hless : ∀ m ∈ s.findSame u s.openList (s.stateAt c), ¬ (s.nodes m).g ≤
          (s.nodes n).g + u.getCost (s.stateAt n) (s.stateAt c) :=
        fun m hm hle => hg ⟨m, hm, hle⟩
      have heq := handleSuccessor_new rfl hclosed hless
      have hsame : Same s (s.handleSuccessor u n c) := by
        rw [heq]
        exact ⟨rfl, rfl, rfl, rfl, rfl, rfl⟩
      have hworse : ∀ m ∈ s.openList, s.stateAt m = s.stateAt c →
          s.findSame u s.openList (s.stateAt c) = some m := by
        intro m hm hstate
        cases ho : s.findSame u s.openList (s.stateAt c) with
        | none => exact absurd hstate (findSame_eq_none hd ho hm)
        | some k =>
          obtain ⟨hk, hkstate⟩ := findSame_eq_some hd ho
          rw [he.frontier.eq_of_state (List.mem_append_left _ hk) (List.mem_append_left _ hm)
            (hkstate.trans hstate.symm)]
      refine ⟨he.accept hd hworse ?_ (fun m hm => findSame_eq_none hd hclosed hm) ?_ ?_ ?_ hsame ?_,
        hsame, fun a ha => ?_⟩
      · intro m hm
        obtain ⟨hin, hstate⟩ := findSame_eq_some hd hm
        exact ⟨hin, hstate, not_le.mp (hless m hm)⟩
      · rw [heq]
      · rw [heq]
      · rw [heq]
      · rw [heq]
      · rw [heq]
        exact Function.update_of_ne ha _ _

/-! ## All successors -/

theorem Frontier.mono (hf : Frontier u edge x₀ s op done E) (h : ∀ x y, E' x y → E x y) :
    Frontier u edge x₀ s op done E' :=
  { hf with tried := fun a ha y hy => hf.tried a ha y (h _ _ hy) }

theorem Expanding.handleAll [IsOrderedAddMonoid K] (hd : u.Describes edge)
    (he : Expanding u edge x₀ maxNodes n s extra E) :
    Expanding u edge x₀ maxNodes n (extra.foldl (AStarSearch.handleSuccessor u n) s) []
        (fun x y => E x y ∨ x = s.stateAt n ∧ y ∈ extra.map s.stateAt) ∧
      Same s (extra.foldl (AStarSearch.handleSuccessor u n) s) ∧
      ∀ a, a ∉ extra → (extra.foldl (AStarSearch.handleSuccessor u n) s).nodes a = s.nodes a := by
  induction extra generalizing s E with
  | nil =>
    refine ⟨⟨he.frontier.mono ?_, he.cells, he.edges, he.childless⟩, ⟨rfl, rfl, rfl, rfl, rfl, rfl⟩,
      fun _ _ => rfl⟩
    rintro x y (h | ⟨-, h⟩)
    · exact h
    · cases h
  | cons c extra ih =>
    obtain ⟨-, hcout, hcextra⟩ := he.others
    obtain ⟨he', hsame, hnodes⟩ := he.handleSuccessor hd
    obtain ⟨hall, hsame', hnodes'⟩ := ih he'
    have hstate : ∀ a, a ≠ c → (s.handleSuccessor u n c).stateAt a = s.stateAt a := fun a ha => by
      rw [stateAt, hnodes a ha, stateAt]
    have hn : n ≠ c := by
      rintro rfl
      exact hcout (by simp)
    have hmap : extra.map (s.handleSuccessor u n c).stateAt = extra.map s.stateAt :=
      List.map_congr_left fun a ha => hstate a fun e => hcextra (e ▸ ha)
    rw [hmap, hstate n hn] at hall
    refine ⟨⟨hall.frontier.mono ?_, hall.cells, hall.edges, hall.childless⟩, hsame.trans hsame',
      fun a ha => ?_⟩
    · rintro x y (h | ⟨hx, hy⟩)
      · exact .inl (.inl h)
      · rw [List.map_cons, List.mem_cons] at hy
        rcases hy with hy | hy
        · exact .inl (.inr ⟨hx, hy⟩)
        · exact .inr ⟨hx, hy⟩
    · rw [List.mem_cons, not_or] at ha
      rw [List.foldl_cons, hnodes' a ha.2, hnodes a ha.1]

omit [LinearOrder K] in
/-- The successors are put into cells that were free. -/
theorem addSuccessors (s : AStarSearch σ K) (xs : List σ) (hroom : xs.length ≤ s.firstFree.length)
    (hnd : s.firstFree.Nodup) :
    ∃ cs rest, s.firstFree = cs ++ rest ∧ cs.map (xs.foldl addSuccessor s).stateAt = xs ∧
      (∀ c ∈ cs, ((xs.foldl addSuccessor s).nodes c).child = none) ∧
      (∀ a, a ∉ cs → (xs.foldl addSuccessor s).nodes a = s.nodes a) ∧
      Same s (xs.foldl addSuccessor s) ∧ (xs.foldl addSuccessor s).openList = s.openList ∧
      (xs.foldl addSuccessor s).firstFree = rest ∧
      (xs.foldl addSuccessor s).successors = s.successors ++ cs ∧
      (xs.foldl addSuccessor s).allocateNodeCount = s.allocateNodeCount + cs.length := by
  induction xs generalizing s with
  | nil =>
    exact ⟨[], s.firstFree, rfl, rfl, fun _ hc => (List.not_mem_nil hc).elim, fun _ _ => rfl,
      ⟨rfl, rfl, rfl, rfl, rfl, rfl⟩, rfl, rfl, by simp, by simp⟩
  | cons x xs ih =>
    cases hfree : s.firstFree with
    | nil =>
      rw [hfree] at hroom
      simp at hroom
    | cons c free =>
      rw [hfree] at hroom hnd
      obtain ⟨hcfree, hnd'⟩ := List.nodup_cons.mp hnd
      set s₁ := s.addSuccessor x with hs₁
      have heq : s₁ =
          { s with
            firstFree := free
            allocateNodeCount := s.allocateNodeCount + 1
            nodes := Function.update s.nodes c ⟨none, none, 0, 0, 0, x⟩
            successors := s.successors ++ [c] } := by
        rw [hs₁, addSuccessor, allocateNode, hfree]
      have hfree₁ : s₁.firstFree = free := by rw [heq]
      obtain ⟨cs, rest, hsplit, hmap, hchild, hnodes, hsame, hop, hrest, hsucc, hcount⟩ :=
        ih s₁ (by rw [hfree₁]; simpa using hroom) (by rw [hfree₁]; exact hnd')
      have hccs : c ∉ cs := fun h => hcfree (by
        rw [← hfree₁, hsplit]
        exact List.mem_append_left rest h)
      have hnode : (xs.foldl addSuccessor s₁).nodes c = ⟨none, none, 0, 0, 0, x⟩ := by
        rw [hnodes c hccs, heq]
        exact Function.update_self _ _ _
      rw [List.foldl_cons, ← hs₁]
      refine ⟨c :: cs, rest, by rw [← hfree₁, hsplit, List.cons_append], ?_, ?_, fun a ha => ?_,
        Same.trans ?_ hsame, ?_, hrest, ?_, ?_⟩
      · rw [List.map_cons, hmap, stateAt, hnode]
      · intro d hd
        rcases List.mem_cons.mp hd with rfl | hd
        · rw [hnode]
        · exact hchild d hd
      · rw [List.mem_cons, not_or] at ha
        rw [hnodes a ha.2, heq]
        exact Function.update_of_ne ha.1 _ _
      · rw [heq]
        exact ⟨rfl, rfl, rfl, rfl, rfl, rfl⟩
      · rw [hop, heq]
      · rw [hsucc, heq]
        simp
      · rw [hcount, heq]
        simp only [List.length_cons]
        push_cast
        omega

end AStarSearch

end OpenCog.Spatial
