import Mathlib.Algebra.BigOperators.Group.Finset.Piecewise
import Mathlib.Algebra.BigOperators.Fin
import Mathlib.Algebra.BigOperators.Group.Finset.Sigma
import Mathlib.Data.BitVec
import Mathlib.Data.List.FinRange
import Mathlib.Data.Fintype.Basic
import OpenCog.Lib.Accessible

/-! `digraph` and `randomized_topological_sort`. A node leaves the queue only after all edges into
it are erased; whether edges remain at the end is judged from the sum of the sources' numbers. -/
namespace OpenCog.Util

open OpenCog.Lib

/-- Each edge stands in both directions. A node is an `unsigned int` below `n_nodes`. -/
@[ext] structure Digraph (n : Nat) where
  incoming : Fin n → Finset (Fin n)
  outgoing : Fin n → Finset (Fin n)
  mirrored : ∀ src dst, dst ∈ outgoing src ↔ src ∈ incoming dst

namespace Digraph

variable {n : Nat}

/-- `digraph(n)`. -/
def create (n : Nat) : Digraph n := ⟨fun _ => ∅, fun _ => ∅, by simp⟩

variable (g : Digraph n)

def insert (src dst : Fin n) : Digraph n where
  incoming := Function.update g.incoming dst (Insert.insert src (g.incoming dst))
  outgoing := Function.update g.outgoing src (Insert.insert dst (g.outgoing src))
  mirrored s d := by
    simp only [Function.update_apply]
    have h := g.mirrored s d
    split <;> split <;> simp_all

def erase (src dst : Fin n) : Digraph n where
  incoming := Function.update g.incoming dst ((g.incoming dst).erase src)
  outgoing := Function.update g.outgoing src ((g.outgoing src).erase dst)
  mirrored s d := by
    simp only [Function.update_apply]
    have h := g.mirrored s d
    split <;> split <;> simp_all

/-- What iterating over a `value_set` visits, in order. -/
def elements (s : Finset (Fin n)) : List (Fin n) := (List.finRange n).filter (· ∈ s)

/-- `accumulate2d`, at a range of containers of `T`. -/
def accumulate2d {T : Type*} [Add T] (rows : List (List T)) (init : T) : T :=
  rows.foldl (fun init row => row.foldl (· + ·) init) init

/-- The nodes are summed as they are, at the width of `unsigned int`. -/
def nEdges : BitVec 32 :=
  accumulate2d
    ((List.finRange n).map fun dst => (elements (g.incoming dst)).map (BitVec.ofNat 32 ·.val)) 0

def empty : Bool := g.nEdges == 0

/-- The inner loop, over the copied targets of `src`. -/
def visit (src : Fin n) : List (Fin n) → Digraph n → List (Fin n) → Digraph n × List (Fin n)
  | [], g, q => (g, q)
  | dst :: outgoing, g, q =>
    let g := g.erase src dst
    visit src outgoing g (if g.incoming dst = ∅ then q ++ [dst] else q)

/-- How many edges there are. -/
def size : Nat := ∑ dst, (g.incoming dst).card

theorem mem_elements {s : Finset (Fin n)} {x : Fin n} : x ∈ elements s ↔ x ∈ s := by
  simp [elements]

theorem nodup_elements (s : Finset (Fin n)) : (elements s).Nodup :=
  (List.nodup_finRange n).filter _

theorem incoming_erase (src dst d : Fin n) :
    (g.erase src dst).incoming d = if d = dst then (g.incoming d).erase src else g.incoming d := by
  simp only [erase, Function.update_apply]
  split
  · subst d; rfl
  · rfl

/-- The loop erases `src` from the sources of each target, and queues the targets that have no
other source. -/
theorem visit_eq {src : Fin n} : ∀ {dsts : List (Fin n)} (g : Digraph n) (q : List (Fin n)),
    dsts.Nodup →
    (visit src dsts g q).2 = q ++ dsts.filter (fun d => (g.incoming d).erase src = ∅) ∧
      ∀ d, (visit src dsts g q).1.incoming d =
        if d ∈ dsts then (g.incoming d).erase src else g.incoming d := by
  intro dsts
  induction dsts with
  | nil => simp [visit]
  | cons dst dsts ih =>
    intro g q hnd
    obtain ⟨hdst, hnd⟩ := List.nodup_cons.mp hnd
    obtain ⟨hq, hin⟩ := ih (g.erase src dst)
      (if (g.erase src dst).incoming dst = ∅ then q ++ [dst] else q) hnd
    have hrest : dsts.filter (fun d => ((g.erase src dst).incoming d).erase src = ∅) =
        dsts.filter (fun d => (g.incoming d).erase src = ∅) := by
      apply List.filter_congr
      intro d hd
      rw [incoming_erase, if_neg (by rintro rfl; exact hdst hd)]
    constructor
    · rw [visit, hq, hrest, incoming_erase, if_pos rfl, List.filter_cons]
      by_cases he : (g.incoming dst).erase src = ∅
      · simp [he]
      · simp [he]
    · intro d
      rw [visit, hin d, incoming_erase]
      by_cases hd : d = dst
      · subst d; simp [hdst]
      · simp [hd]

theorem size_erase {src dst : Fin n} (h : src ∈ g.incoming dst) :
    (g.erase src dst).size + 1 = g.size := by
  have hd := Finset.sum_update_of_mem (Finset.mem_univ dst) (fun d => (g.incoming d).card)
    ((g.incoming dst).card - 1)
  have hin : ∀ d, ((g.erase src dst).incoming d).card =
      Function.update (fun d => (g.incoming d).card) dst ((g.incoming dst).card - 1) d := by
    intro d
    rw [incoming_erase, Function.update_apply]
    split
    · next e => subst e; exact Finset.card_erase_of_mem h
    · rfl
  have hpos : 0 < (g.incoming dst).card := Finset.card_pos.mpr ⟨src, h⟩
  have hsplit := Finset.sum_eq_add_sum_sdiff_singleton_of_mem (Finset.mem_univ dst)
    (fun d => (g.incoming d).card)
  rw [size, size, Finset.sum_congr rfl fun d _ => hin d, hd, hsplit]
  omega

/-- Each target queued is an edge erased. -/
theorem size_visit_le {src : Fin n} : ∀ {dsts : List (Fin n)} (g : Digraph n) (q : List (Fin n)),
    dsts.Nodup → (∀ d ∈ dsts, src ∈ g.incoming d) →
    (visit src dsts g q).2.length + (visit src dsts g q).1.size ≤ q.length + g.size := by
  intro dsts
  induction dsts with
  | nil => intro g q _ _; exact Nat.le_refl _
  | cons dst dsts ih =>
    intro g q hnd hsrc
    obtain ⟨hdst, hnd⟩ := List.nodup_cons.mp hnd
    have hrest : ∀ d ∈ dsts, src ∈ (g.erase src dst).incoming d := by
      intro d hd
      rw [incoming_erase, if_neg (by rintro rfl; exact hdst hd)]
      exact hsrc d (List.mem_cons_of_mem _ hd)
    have hle := ih (g.erase src dst)
      (if (g.erase src dst).incoming dst = ∅ then q ++ [dst] else q) hnd hrest
    have hsize := g.size_erase (hsrc dst List.mem_cons_self)
    have hq : (if (g.erase src dst).incoming dst = ∅ then q ++ [dst] else q).length ≤
        q.length + 1 := by
      split <;> simp
    rw [visit]
    omega

theorem size_visit_outgoing_le (src : Fin n) (q : List (Fin n)) :
    (visit src (elements (g.outgoing src)) g q).2.length +
      (visit src (elements (g.outgoing src)) g q).1.size ≤ q.length + g.size :=
  size_visit_le g q (nodup_elements _) fun d hd =>
    (g.mirrored src d).mp (mem_elements.mp hd)

/-- The outer loop, with what was written to `out`. -/
def drain (g : Digraph n) (q out : List (Fin n)) : List (Fin n) × Digraph n :=
  match q with
  | [] => (out, g)
  | src :: q =>
    let s := visit src (elements (g.outgoing src)) g q
    drain s.1 s.2 (out ++ [src])
termination_by q.length + g.size
decreasing_by
  have := g.size_visit_outgoing_le src q
  simp only [List.length_cons]
  omega

/-- What was written to `out`, and whether the final assertion holds. -/
structure Sorting (n : Nat) where
  out : List (Fin n)
  isDag : Bool

/-- `random_shuffle` leaves the nodes in the order `shuffle`. -/
def randomizedTopologicalSort (shuffle : Equiv.Perm (Fin n)) : Sorting n :=
  let nodes := (List.finRange n).map shuffle
  let q := nodes.filter fun node => g.incoming node = ∅
  let s := g.drain q []
  ⟨s.1, s.2.empty⟩

/-! ## What was written -/

/-- An edge of the graph. -/
def Edge (src dst : Fin n) : Prop := src ∈ g.incoming dst

def Acyclic : Prop := ∀ x, ¬ Relation.TransGen g.Edge x x

/-- The edges left are those of nodes not written yet, and the nodes without one were queued. -/
structure Draining (g₀ g : Digraph n) (q out : List (Fin n)) : Prop where
  left : ∀ src dst, src ∈ g.incoming dst ↔ src ∈ g₀.incoming dst ∧ src ∉ out
  queued : ∀ dst, g.incoming dst = ∅ ↔ dst ∈ out ++ q
  nodup : (out ++ q).Nodup
  inOrder : InOrder g₀.Edge out

variable {g} {g₀ : Digraph n} {q out : List (Fin n)}

theorem incoming_visit_outgoing (src : Fin n) (q : List (Fin n)) (d : Fin n) :
    (visit src (elements (g.outgoing src)) g q).1.incoming d = (g.incoming d).erase src := by
  rw [(visit_eq g q (nodup_elements _)).2 d]
  split
  · rfl
  · next h =>
    rw [mem_elements, g.mirrored] at h
    rw [Finset.erase_eq_of_notMem h]

/-- A target is queued when its last source leaves the queue. -/
theorem mem_queue_visit {src : Fin n} {d : Fin n} :
    d ∈ (visit src (elements (g.outgoing src)) g q).2 ↔
      d ∈ q ∨ src ∈ g.incoming d ∧ (g.incoming d).erase src = ∅ := by
  rw [(visit_eq g q (nodup_elements _)).1, List.mem_append, List.mem_filter, mem_elements,
    g.mirrored]
  simp

theorem Draining.start (nodes : List (Fin n)) (hnd : nodes.Nodup) (hall : ∀ x, x ∈ nodes) :
    Draining g g (nodes.filter fun node => g.incoming node = ∅) [] where
  left := by simp
  queued := by simp [hall]
  nodup := by simpa using hnd.filter _
  inOrder := inOrder_nil

theorem Draining.step {src : Fin n} (h : Draining g₀ g (src :: q) out) :
    Draining g₀ (visit src (elements (g.outgoing src)) g q).1
      (visit src (elements (g.outgoing src)) g q).2 (out ++ [src]) where
  left s d := by
    rw [incoming_visit_outgoing, Finset.mem_erase, h.left, List.mem_append, List.mem_singleton]
    tauto
  queued d := by
    rw [incoming_visit_outgoing, List.mem_append, mem_queue_visit, List.mem_append,
      List.mem_singleton]
    have hd : g.incoming d = ∅ ↔ d ∈ out ∨ d = src ∨ d ∈ q := by
      rw [h.queued, List.mem_append, List.mem_cons]
    by_cases hs : src ∈ g.incoming d
    · have hne : g.incoming d ≠ ∅ := fun e => by simp [e] at hs
      tauto
    · rw [Finset.erase_eq_of_notMem hs]
      tauto
  nodup := by
    have hq : q ++ (elements (g.outgoing src)).filter (fun d => (g.incoming d).erase src = ∅) =
        (visit src (elements (g.outgoing src)) g q).2 :=
      ((visit_eq g q (nodup_elements _)).1).symm
    rw [← hq, List.append_assoc, ← List.append_assoc [src], List.singleton_append,
      ← List.append_assoc]
    refine List.nodup_append.mpr ⟨h.nodup, (nodup_elements _).filter _, ?_⟩
    rintro d hd _ hd' rfl
    have hs : src ∈ g.incoming d := (g.mirrored _ _).mp (mem_elements.mp (List.mem_of_mem_filter hd'))
    rw [(h.queued d).mpr hd] at hs
    exact Finset.notMem_empty _ hs
  inOrder := by
    apply h.inOrder.concat
    intro y hy
    by_contra hout
    have hin : y ∈ g.incoming src := (h.left y src).mpr ⟨hy, hout⟩
    rw [(h.queued src).mpr (by simp)] at hin
    exact Finset.notMem_empty _ hin

theorem Draining.drain (h : Draining g₀ g q out) :
    Draining g₀ (g.drain q out).2 [] (g.drain q out).1 := by
  fun_induction Digraph.drain g q out with
  | case1 => exact h
  | case2 g src q out s ih => exact ih h.step

/-- What was written when the queue ran empty are the accessible nodes. -/
theorem Draining.mem_out (h : Draining g₀ g [] out) {x : Fin n} : x ∈ out ↔ Acc g₀.Edge x := by
  refine ⟨h.inOrder.acc, fun hacc => ?_⟩
  induction hacc with
  | intro x _ ih =>
    have hin : g.incoming x = ∅ := by
      rw [Finset.eq_empty_iff_forall_notMem]
      intro y hy
      obtain ⟨hy, hout⟩ := (h.left y x).mp hy
      exact hout (ih y hy)
    simpa using (h.queued x).mp hin

/-! ## The assertion -/

theorem foldl_add_ofNat (row : List Nat) (a : Nat) :
    (row.map (BitVec.ofNat 32)).foldl (· + ·) (BitVec.ofNat 32 a) =
      BitVec.ofNat 32 (a + row.sum) := by
  induction row generalizing a with
  | nil => simp
  | cons x row ih => rw [List.map_cons, List.foldl_cons, ← BitVec.ofNat_add, ih, List.sum_cons,
      Nat.add_assoc]

theorem accumulate2d_ofNat (rows : List (List Nat)) (a : Nat) :
    accumulate2d (rows.map (List.map (BitVec.ofNat 32))) (BitVec.ofNat 32 a) =
      BitVec.ofNat 32 (a + (rows.map List.sum).sum) := by
  rw [accumulate2d]
  induction rows generalizing a with
  | nil => simp
  | cons row rows ih => rw [List.map_cons, List.foldl_cons, foldl_add_ofNat, ih, List.map_cons,
      List.sum_cons, Nat.add_assoc]

theorem sum_map_elements (s : Finset (Fin n)) (f : Fin n → Nat) :
    ((elements s).map f).sum = ∑ x ∈ s, f x := by
  have hs : (elements s).toFinset = s := by
    ext x
    rw [List.mem_toFinset, mem_elements]
  rw [← List.sum_toFinset f (nodup_elements s), hs]

/-- The sum of the sources of all edges, where the number of edges was meant. -/
theorem toNat_nEdges (g : Digraph n) :
    g.nEdges.toNat = (∑ dst, ∑ src ∈ g.incoming dst, src.val) % 2 ^ 32 := by
  have hrows : (List.finRange n).map (fun dst => (elements (g.incoming dst)).map
        (BitVec.ofNat 32 ·.val)) =
      ((List.finRange n).map fun dst => (elements (g.incoming dst)).map Fin.val).map
        (List.map (BitVec.ofNat 32)) := by
    simp [Function.comp_def]
  have hsum : (((List.finRange n).map fun dst => (elements (g.incoming dst)).map Fin.val).map
      List.sum).sum = ∑ dst, ∑ src ∈ g.incoming dst, src.val := by
    simp only [List.map_map, Function.comp_def, sum_map_elements]
    rw [← List.sum_ofFn, List.ofFn_eq_map]
  rw [nEdges, hrows, show (0 : BitVec 32) = BitVec.ofNat 32 0 from rfl, accumulate2d_ofNat, hsum,
    BitVec.toNat_ofNat, Nat.zero_add]

theorem empty_iff (g : Digraph n) :
    g.empty = true ↔ (∑ dst, ∑ src ∈ g.incoming dst, src.val) % 2 ^ 32 = 0 := by
  rw [empty, beq_iff_eq, ← toNat_nEdges, ← BitVec.toNat_inj]
  rfl

open Classical in
/-- The numbers of the nodes that a cycle leads to, each once for every edge that leaves it. -/
noncomputable def stuckSum (g : Digraph n) : Nat :=
  ∑ src with BehindCycle g.Edge src, src.val * (g.outgoing src).card

/-- The edges left at the end are those that leave a node that a cycle leads to. -/
theorem Draining.sum_incoming (h : Draining g₀ g [] out) :
    ∑ dst, ∑ src ∈ g.incoming dst, src.val = g₀.stuckSum := by
  classical
  have hcomm : ∑ dst, ∑ src ∈ g.incoming dst, src.val =
      ∑ src with BehindCycle g₀.Edge src, ∑ _dst ∈ g₀.outgoing src, src.val := by
    refine Finset.sum_comm' fun dst src => ?_
    rw [Finset.mem_filter, h.left, h.mem_out, acc_iff_not_behindCycle, g₀.mirrored]
    simp [and_comm]
  rw [hcomm, stuckSum]
  exact Finset.sum_congr rfl fun src _ => by
    rw [Finset.sum_const, smul_eq_mul, Nat.mul_comm]

/-! ## The sort -/

/-- The result is a topological order of an acyclic graph, and the assertion rejects the others. -/
structure SortsOrRejects (g : Digraph n) (s : Sorting n) : Prop where
  sorts : g.Acyclic → s.out.Nodup ∧ (∀ x, x ∈ s.out) ∧
    (∀ src dst, g.Edge src dst → s.out.idxOf src < s.out.idxOf dst) ∧ s.isDag = true
  rejects : ¬ g.Acyclic → s.isDag = false

theorem acyclic_iff : g.Acyclic ↔ ∀ x, ¬ BehindCycle g.Edge x :=
  ⟨fun h _ ⟨c, hc, _⟩ => h c hc, fun h x hx => h x (.of_transGen hx)⟩

theorem stuckSum_of_acyclic (h : g.Acyclic) : g.stuckSum = 0 := by
  classical
  rw [stuckSum, Finset.filter_false_of_mem fun x _ => acyclic_iff.mp h x, Finset.sum_empty]

theorem drained (shuffle : Equiv.Perm (Fin n)) :
    ∃ g', (g.randomizedTopologicalSort shuffle).isDag = g'.empty ∧
      Draining g g' [] (g.randomizedTopologicalSort shuffle).out := by
  refine ⟨_, rfl, (Draining.start ((List.finRange n).map shuffle) ?_ ?_).drain⟩
  · exact (List.nodup_finRange n).map shuffle.injective
  · intro x
    exact List.mem_map.mpr ⟨shuffle.symm x, List.mem_finRange _, shuffle.apply_symm_apply x⟩

theorem isDag_iff (shuffle : Equiv.Perm (Fin n)) :
    (g.randomizedTopologicalSort shuffle).isDag = true ↔ g.stuckSum % 2 ^ 32 = 0 := by
  obtain ⟨g', hdag, h⟩ := drained (g := g) shuffle
  rw [hdag, empty_iff, h.sum_incoming]

/-- Every acyclic graph is sorted. A graph with a cycle is rejected only when the numbers that the
assertion sums do not come to zero. -/
theorem sortsOrRejects_iff (g : Digraph n) (shuffle : Equiv.Perm (Fin n)) :
    g.SortsOrRejects (g.randomizedTopologicalSort shuffle) ↔
      g.Acyclic ∨ g.stuckSum % 2 ^ 32 ≠ 0 := by
  constructor
  · intro h
    by_cases hac : g.Acyclic
    · exact .inl hac
    · right
      intro h0
      have hdag := (isDag_iff shuffle).mpr h0
      rw [h.rejects hac] at hdag
      cases hdag
  · intro hcond
    refine ⟨fun hac => ?_, fun hac => ?_⟩
    · obtain ⟨g', -, h⟩ := drained (g := g) shuffle
      have hall : ∀ x, x ∈ (g.randomizedTopologicalSort shuffle).out := fun x =>
        h.mem_out.mpr (acc_of_not_behindCycle (acyclic_iff.mp hac x))
      have hnd : (g.randomizedTopologicalSort shuffle).out.Nodup := by simpa using h.nodup
      refine ⟨hnd, hall, fun src dst he => h.inOrder.idxOf_lt hnd (hall dst) he, ?_⟩
      rw [isDag_iff, stuckSum_of_acyclic hac, Nat.zero_mod]
    · have hne := hcond.resolve_left hac
      rw [← Bool.not_eq_true, isDag_iff]
      exact hne

/-- One node with an edge to itself. -/
def selfLoop : Digraph 1 := (create 1).insert 0 0

theorem selfLoop_accepted : ¬ selfLoop.SortsOrRejects
    (selfLoop.randomizedTopologicalSort (Equiv.refl _)) := by
  intro h
  have hcyc : ¬ selfLoop.Acyclic := fun hac => hac 0 (.single (Finset.mem_insert_self 0 _))
  have hdag : (selfLoop.randomizedTopologicalSort (Equiv.refl _)).isDag = true := by
    rw [isDag_iff, stuckSum]
    simp
  rw [h.rejects hcyc] at hdag
  cases hdag

end Digraph

end OpenCog.Util
