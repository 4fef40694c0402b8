import OpenCog.Spatial.ShortestPath

/-! Searching a map: the nodes are cells of the grid, with unsigned coordinates, and a path goes from
cell to cell in eight directions. Costs are added without rounding. -/
namespace OpenCog.Spatial

open WeightedPaths

abbrev GridPoint := BitVec 32 × BitVec 32

abbrev ObjectID := String

structure LocalSpaceMap2D where
  xDim : BitVec 32
  yDim : BitVec 32
  grid : GridPoint → Option (List ObjectID)

namespace LocalSpaceMap2D

def gridOccupied (map : LocalSpaceMap2D) (gp : GridPoint) : Bool :=
  match map.grid gp with
  | some ids => !ids.isEmpty
  | none => false

def coordinatesAreOnGrid (map : LocalSpaceMap2D) (gp : GridPoint) : Bool :=
  decide (gp.1 < map.xDim) && decide (gp.2 < map.yDim)

def gridIllegal (map : LocalSpaceMap2D) (gp : GridPoint) : Bool :=
  map.gridOccupied gp || !map.coordinatesAreOnGrid gp

end LocalSpaceMap2D

namespace LSMap2DSearchNode

inductive Heuristic where
  | MANHATTAN
  | DIAGONAL

def isLegal (map : LocalSpaceMap2D) (gp : GridPoint) : Bool := !map.gridIllegal gp

def sqrt2 : ℚ := 1.41421356

def goalDistanceEstimate (heuristic : Heuristic) (node nodeGoal : GridPoint) : ℚ :=
  let xd : ℚ := |(node.1.toNat : ℚ) - nodeGoal.1.toNat|
  let yd : ℚ := |(node.2.toNat : ℚ) - nodeGoal.2.toNat|
  match heuristic with
  | .MANHATTAN => xd + yd
  | .DIAGONAL =>
    let h_diagonal := min xd yd
    let h_straight := xd + yd
    sqrt2 * h_diagonal + (h_straight - 2 * h_diagonal)

/-- The moves in the order in which they are tried. -/
def moves (node : GridPoint) : List GridPoint :=
  let (x, y) := node
  [(x - 1, y), (x, y - 1), (x + 1, y), (x, y + 1),
    (x + 1, y + 1), (x + 1, y - 1), (x - 1, y + 1), (x - 1, y - 1)]

/-- Without a parent the coordinates of one are past the grid. -/
def getSuccessors (map : LocalSpaceMap2D) (node : GridPoint) (parent_node : Option GridPoint) :
    List GridPoint × Bool :=
  let parent := parent_node.getD (map.xDim + 1, map.yDim + 1)
  ((moves node).filter fun gp => isLegal map gp && !(parent.1 == gp.1 && parent.2 == gp.2), true)

def getCost (node successor : GridPoint) : ℚ :=
  if node.1 = successor.1 ∨ node.2 = successor.2 then 1 else sqrt2

def userState (map : LocalSpaceMap2D) (heuristic : Heuristic) : UserState GridPoint ℚ where
  goalDistanceEstimate := goalDistanceEstimate heuristic
  isGoal node nodeGoal := node.1 == nodeGoal.1 && node.2 == nodeGoal.2
  isSameState node rhs := node.1 == rhs.1 && node.2 == rhs.2
  getSuccessors := getSuccessors map
  getCost := getCost

/-! ## The graph of a map -/

/-- Two cells of the grid touch, and the second one is free. -/
structure Step (map : LocalSpaceMap2D) (a b : GridPoint) : Prop where
  onGrid : map.coordinatesAreOnGrid a = true
  legal : isLegal map b = true
  ne : a ≠ b
  x : |(a.1.toNat : ℤ) - b.1.toNat| ≤ 1
  y : |(a.2.toNat : ℤ) - b.2.toNat| ≤ 1

variable {map : LocalSpaceMap2D} {a b goal : GridPoint} {p : Option GridPoint}

theorem isLegal_iff : isLegal map b = true ↔
    map.gridOccupied b = false ∧ map.coordinatesAreOnGrid b = true := by
  simp [isLegal, LocalSpaceMap2D.gridIllegal]

theorem onGrid_iff : map.coordinatesAreOnGrid b = true ↔
    b.1.toNat < map.xDim.toNat ∧ b.2.toNat < map.yDim.toNat := by
  simp [LocalSpaceMap2D.coordinatesAreOnGrid, BitVec.lt_def]

/-- Below the dimension of the grid no coordinate wraps around. -/
theorem near_iff {x x' d : BitVec 32} (hx : x.toNat < d.toNat) (hx' : x'.toNat < d.toNat) :
    |(x.toNat : ℤ) - x'.toNat| ≤ 1 ↔ x' = x ∨ x' = x - 1 ∨ x' = x + 1 := by
  have hd := d.isLt
  rw [abs_le]
  constructor
  · rintro ⟨h, h'⟩
    rcases Nat.lt_trichotomy x'.toNat x.toNat with hlt | heq | hgt
    · exact .inr (.inl (by bv_omega))
    · exact .inl (BitVec.eq_of_toNat_eq heq)
    · exact .inr (.inr (by bv_omega))
  · rintro (rfl | rfl | rfl)
    · omega
    · bv_omega
    · bv_omega

theorem mem_moves_iff (ha : map.coordinatesAreOnGrid a = true)
    (hb : map.coordinatesAreOnGrid b = true) : b ∈ moves a ↔
      a ≠ b ∧ |(a.1.toNat : ℤ) - b.1.toNat| ≤ 1 ∧ |(a.2.toNat : ℤ) - b.2.toNat| ≤ 1 := by
  obtain ⟨hax, hay⟩ := onGrid_iff.mp ha
  obtain ⟨hbx, hby⟩ := onGrid_iff.mp hb
  rw [near_iff hax hbx, near_iff hay hby]
  obtain ⟨x, y⟩ := a
  obtain ⟨x', y'⟩ := b
  have hsub : ∀ z : BitVec 32, z ≠ z - 1#32 := fun z => by bv_omega
  have hadd : ∀ z : BitVec 32, z ≠ z + 1#32 := fun z => by bv_omega
  simp only [moves, List.mem_cons, Prod.mk.injEq, List.not_mem_nil, or_false, ne_eq]
  constructor
  · rintro (⟨rfl, rfl⟩ | ⟨rfl, rfl⟩ | ⟨rfl, rfl⟩ | ⟨rfl, rfl⟩ | ⟨rfl, rfl⟩ | ⟨rfl, rfl⟩ | ⟨rfl, rfl⟩ |
      ⟨rfl, rfl⟩) <;> simp [hsub, hadd]
  · rintro ⟨hne, rfl | rfl | rfl, rfl | rfl | rfl⟩ <;> simp_all

/-! ## What the search is told -/

theorem mem_getSuccessors_iff : b ∈ (getSuccessors map a p).1 ↔ b ∈ moves a ∧ isLegal map b = true ∧
    b ≠ p.getD (map.xDim + 1, map.yDim + 1) := by
  set q := p.getD (map.xDim + 1, map.yDim + 1) with hq
  have h : (!(q.1 == b.1 && q.2 == b.2)) = true ↔ b ≠ q := by
    rw [Bool.not_eq_true', ← Bool.not_eq_true, Bool.and_eq_true, beq_iff_eq, beq_iff_eq,
      ← Prod.ext_iff]
    exact not_congr eq_comm
  rw [getSuccessors, List.mem_filter, Bool.and_eq_true, ← hq, h]

theorem getCost_pos (a b : GridPoint) : 0 ≤ getCost a b := by
  rw [getCost]
  split
  · norm_num
  · norm_num [sqrt2]

theorem describes (heuristic : Heuristic) (hdim : map.xDim.toNat + 1 < 2 ^ 32) :
    (userState map heuristic).Describes (Step map) := by
  refine ⟨fun a b => ?_, fun a b => ?_, fun _ _ => rfl, fun a p b e => ?_, fun a h => h.ne rfl,
    fun a b _ => getCost_pos a b⟩
  · simp [userState, Prod.ext_iff]
  · simp [userState, Prod.ext_iff]
  · have hb := (isLegal_iff.mp e.legal).2
    by_cases h : p = some b
    · exact .inr h
    · refine .inl (mem_getSuccessors_iff.mpr
        ⟨(mem_moves_iff e.onGrid hb).mpr ⟨e.ne, e.x, e.y⟩, e.legal, ?_⟩)
      cases p with
      | some q => exact fun e => h (congrArg some e.symm)
      | none =>
        -- the start has no parent, and no cell of the grid is taken for one
        rintro rfl
        have hx := (onGrid_iff.mp hb).1
        have hd := map.xDim.isLt
        simp only [Option.getD_none] at hx
        bv_omega

/-! ## The estimate -/

def diagonal (xd yd : ℚ) : ℚ := sqrt2 * min xd yd + (xd + yd - 2 * min xd yd)

theorem diagonal_straight {x y x' y' : ℚ} (hx : x ≤ 1 + x') (hy : y ≤ y') :
    diagonal x y ≤ 1 + diagonal x' y' := by
  simp only [diagonal, sqrt2, min_def]
  split_ifs <;> norm_num <;> linarith

theorem diagonal_comm (x y : ℚ) : diagonal x y = diagonal y x := by
  rw [diagonal, diagonal, min_comm, add_comm x]

theorem diagonal_both {x y x' y' : ℚ} (hx : x ≤ 1 + x') (hy : y ≤ 1 + y') :
    diagonal x y ≤ sqrt2 + diagonal x' y' := by
  simp only [diagonal, sqrt2, min_def]
  split_ifs <;> norm_num <;> linarith

/-- No move takes the estimate down by more than it costs. -/
theorem consistent_diagonal (map : LocalSpaceMap2D) (goal : GridPoint) :
    Consistent (Step map) getCost fun x => goalDistanceEstimate .DIAGONAL x goal := by
  intro a b e
  have near : ∀ {x x' : BitVec 32} (g : BitVec 32), |(x.toNat : ℤ) - x'.toNat| ≤ 1 →
      |(x.toNat : ℚ) - g.toNat| ≤ 1 + |(x'.toNat : ℚ) - g.toNat| := by
    intro x x' g h
    have hq : |(x.toNat : ℚ) - x'.toNat| ≤ 1 := by exact_mod_cast h
    exact (abs_sub_le _ (x'.toNat : ℚ) _).trans (add_le_add_left hq _)
  have hx := near goal.1 e.x
  have hy := near goal.2 e.y
  show diagonal _ _ ≤ getCost a b + diagonal _ _
  rw [getCost]
  split
  · rename_i h
    rcases h with h | h
    · rw [h, diagonal_comm, diagonal_comm |(b.1.toNat : ℚ) - goal.1.toNat|]
      exact diagonal_straight hy (le_refl _)
    · rw [h]
      exact diagonal_straight hx (le_refl _)
  · exact diagonal_both hx hy

/-! ## The cells of a map -/

/-- The cells of the grid that no object occupies. -/
def freeCells (map : LocalSpaceMap2D) : List GridPoint :=
  ((List.range map.xDim.toNat ×ˢ List.range map.yDim.toNat).map fun c =>
    (BitVec.ofNat 32 c.1, BitVec.ofNat 32 c.2)).filter (isLegal map)

theorem mem_freeCells_iff : a ∈ freeCells map ↔ isLegal map a = true := by
  rw [freeCells, List.mem_filter, and_iff_right_iff_imp]
  intro h
  obtain ⟨hx, hy⟩ := onGrid_iff.mp (isLegal_iff.mp h).2
  refine List.mem_map.mpr ⟨(a.1.toNat, a.2.toNat), ?_, by simp⟩
  rw [List.mem_product]
  exact ⟨List.mem_range.mpr hx, List.mem_range.mpr hy⟩

theorem room {start : GridPoint} {maxNodes : Nat} (heuristic : Heuristic)
    (hstart : map.coordinatesAreOnGrid start = true)
    (hmem : (freeCells map).length + 10 ≤ maxNodes) :
    Room (userState map heuristic) (Step map) start maxNodes
      (insert start (freeCells map).toFinset) := by
  have hgrid : ∀ a ∈ insert start (freeCells map).toFinset, map.coordinatesAreOnGrid a = true := by
    intro a ha
    rcases Finset.mem_insert.mp ha with rfl | ha
    · exact hstart
    · exact (isLegal_iff.mp (mem_freeCells_iff.mp (List.mem_toFinset.mp ha))).2
  refine ⟨Finset.mem_insert_self _ _, fun a ha p b hb => ?_, fun a _ b e => ?_, fun a _ p => ?_⟩
  · obtain ⟨hmove, hlegal, -⟩ := mem_getSuccessors_iff.mp hb
    obtain ⟨hne, hx, hy⟩ := (mem_moves_iff (hgrid a ha) (isLegal_iff.mp hlegal).2).mp hmove
    exact ⟨hgrid a ha, hlegal, hne, hx, hy⟩
  · exact Finset.mem_insert_of_mem (List.mem_toFinset.mpr (mem_freeCells_iff.mpr e.legal))
  · have hcard := Finset.card_insert_le start (freeCells map).toFinset
    have hlist := (freeCells map).toFinset_card_le
    have hsucc : ((userState map heuristic).getSuccessors a p).1.length ≤ 8 :=
      List.length_filter_le _ _
    omega

end LSMap2DSearchNode

namespace AStarController

open AStarSearch LSMap2DSearchNode

def MAX_SEARCH_NODES : Nat := 20000

/-- With the diagonal estimate, and fewer free cells than nodes in the memory, the controller finds
a shortest path between cells that touch, wherever there is one. -/
theorem findPath_on_map (map : LocalSpaceMap2D) (hdim : map.xDim.toNat + 1 < 2 ^ 32)
    (hmem : (freeCells map).length + 10 ≤ MAX_SEARCH_NODES)
    {front : AStarSearch GridPoint ℚ → Address} (hfront : LeastFront front)
    {s : AStarSearch GridPoint ℚ} (hi : Idle MAX_SEARCH_NODES s) (start goal : GridPoint)
    (hstart : map.coordinatesAreOnGrid start = true) (fuel : Nat)
    (hfuel : (freeCells map).length + 1 < fuel) :
    ∃ s', (s.setStartAndGoalStates (userState map .DIAGONAL) start goal).bind
        (findPath (userState map .DIAGONAL) front fuel) = some s' ∧
      Idle MAX_SEARCH_NODES s' ∧
      ((s'.state = .succeeded ∧ ∃ l, getSolution fuel s' = some l ∧
          Shortest (Step map) getCost start goal l) ∨
        s'.state = .failed ∧ ∀ l, ¬ Leads (Step map) start goal l) := by
  have hcard := Finset.card_insert_le start (freeCells map).toFinset
  have hlist := (freeCells map).toFinset_card_le
  exact findPath_shortest (describes .DIAGONAL hdim) (room .DIAGONAL hstart hmem) hfront
    (consistent_diagonal map goal) hi fuel (by omega)

/-- Three cells in a row, with something on the one in the middle. -/
def blockedRow : LocalSpaceMap2D where
  xDim := 3
  yDim := 1
  grid gp := if gp = (1, 0) then some ["wall"] else none

theorem findPath_on_blockedRow : ∃ s',
    ((new MAX_SEARCH_NODES fun _ => ⟨none, none, 0, 0, 0, (0, 0)⟩).setStartAndGoalStates
      (userState blockedRow .DIAGONAL) (0, 0) (2, 0)).bind
        (findPath (userState blockedRow .DIAGONAL) firstLeast 4) = some s' ∧
      Idle MAX_SEARCH_NODES s' ∧
      ((s'.state = .succeeded ∧ ∃ l, getSolution 4 s' = some l ∧
          Shortest (Step blockedRow) getCost (0, 0) (2, 0) l) ∨
        s'.state = .failed ∧ ∀ l, ¬ Leads (Step blockedRow) (0, 0) (2, 0) l) :=
  findPath_on_map blockedRow (by decide) (by decide) leastFront_firstLeast (idle_new _ _) (0, 0)
    (2, 0) (by decide) 4 (by decide)

end AStarController

end OpenCog.Spatial
