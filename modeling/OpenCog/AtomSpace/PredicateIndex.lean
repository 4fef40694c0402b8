import OpenCog.AtomSpace.ClassServer

/-! The index of predicates: vectors of one fixed size, filled from the front, and a map from
handles to places in them. A write or a read outside a vector has no defined result. -/
namespace OpenCog

def maxPredicateIndices : Nat := 32

/-- `E` is the type of evaluators; a pointer to one may be null, and a handle undefined. -/
structure PredicateIndex (E : Type) where
  predicateHandles : Vector (Option Handle) maxPredicateIndices
  predicateEvaluators : Vector (Option E) maxPredicateIndices
  numberOfPredicateIndices : Nat
  predicateHandles2Indices : List (Option Handle × Nat)
  idx : Vector (List Handle) maxPredicateIndices

/-- The two exceptions of `addPredicateIndex`, with what their texts show. -/
inductive InvalidParam where
  | exceeded (max : Nat)
  | alreadyIndexed (ph : Option Handle)
  deriving DecidableEq

namespace PredicateIndex

variable {E : Type}

/-- The constructor. -/
def empty : PredicateIndex E where
  predicateHandles := .replicate _ none
  predicateEvaluators := .replicate _ none
  numberOfPredicateIndices := 0
  predicateHandles2Indices := []
  idx := .replicate _ []

/-- `predicateHandles2Indices.find`. -/
def find (s : PredicateIndex E) (ph : Option Handle) : Option Nat :=
  s.predicateHandles2Indices.lookup ph

/-- The next place of the vectors is filled. -/
def register (s : PredicateIndex E) (ph : Option Handle) (evaluator : Option E)
    (h : s.numberOfPredicateIndices < maxPredicateIndices) : PredicateIndex E where
  predicateHandles := s.predicateHandles.set s.numberOfPredicateIndices ph h
  predicateEvaluators := s.predicateEvaluators.set s.numberOfPredicateIndices evaluator h
  numberOfPredicateIndices := s.numberOfPredicateIndices + 1
  predicateHandles2Indices := (ph, s.numberOfPredicateIndices) :: s.predicateHandles2Indices
  idx := s.idx

/-- The new state, and the exception thrown. The size is compared before the handle is looked
up, and a number equal to it passes. -/
def addPredicateIndex (s : PredicateIndex E) (ph : Option Handle) (evaluator : Option E) :
    Option (PredicateIndex E × Option InvalidParam) :=
  if s.numberOfPredicateIndices > maxPredicateIndices then
    some (s, some (.exceeded maxPredicateIndices))
  else if (s.find ph).isSome then some (s, some (.alreadyIndexed ph))
  else if h : s.numberOfPredicateIndices < maxPredicateIndices then
    some (s.register ph evaluator h, none)
  else none

/-- A null pointer for a handle that is no index. -/
def getPredicateEvaluator (s : PredicateIndex E) (gpnHandle : Option Handle) : Option (Option E) :=
  match s.find gpnHandle with
  | none => some none
  | some index => s.predicateEvaluators[index]?

/-- The calls that came back, with or without an exception. -/
def addAll (calls : List (Option Handle × Option E)) : Option (PredicateIndex E) :=
  calls.foldlM (fun s c => (s.addPredicateIndex c.1 c.2).map Prod.fst) empty

/-! ## What the calls register -/

/-- The handles of the calls, counted once each. -/
def handles (calls : List (Option Handle × Option E)) : Finset (Option Handle) :=
  (calls.map Prod.fst).toFinset

/-- The places are given out in order, each to the first call with its handle. -/
structure Registers (s : PredicateIndex E) (calls : List (Option Handle × Option E)) : Prop where
  number : s.numberOfPredicateIndices = (handles calls).card
  known : ∀ ph, (s.find ph).isSome ↔ ph ∈ handles calls
  first : ∀ ph i, s.find ph = some i → i < s.numberOfPredicateIndices ∧
    s.predicateHandles[i]? = some ph ∧
    s.predicateEvaluators[i]? = (calls.find? fun c => c.1 == ph).map Prod.snd

theorem mem_handles {calls : List (Option Handle × Option E)} {ph : Option Handle} :
    ph ∈ handles calls ↔ (calls.find? fun c => c.1 == ph).isSome := by
  simp [handles]

theorem handles_append (calls : List (Option Handle × Option E)) (c : Option Handle × Option E) :
    handles (calls ++ [c]) = insert c.1 (handles calls) := by
  rw [handles, List.map_append, List.toFinset_append, Finset.union_comm]
  rfl

theorem registers_empty : Registers (empty : PredicateIndex E) [] where
  number := rfl
  known ph := by simp [find, empty, handles]
  first ph i h := by simp [find, empty] at h

/-- What a call with a handle already known, or with a new one, does below the bound. -/
theorem add_known {s : PredicateIndex E} {ph : Option Handle} (e : Option E)
    (hle : s.numberOfPredicateIndices ≤ maxPredicateIndices) (hk : (s.find ph).isSome) :
    s.addPredicateIndex ph e = some (s, some (.alreadyIndexed ph)) := by
  rw [addPredicateIndex, if_neg (Nat.not_lt.mpr hle), if_pos hk]

theorem add_new {s : PredicateIndex E} {ph : Option Handle} (e : Option E)
    (hlt : s.numberOfPredicateIndices < maxPredicateIndices) (hk : ¬ (s.find ph).isSome) :
    s.addPredicateIndex ph e = some (s.register ph e hlt, none) := by
  rw [addPredicateIndex, if_neg (Nat.not_lt.mpr hlt.le), if_neg hk, dif_pos hlt]

/-- With the vectors full, a new handle passes the check and is written behind them. -/
theorem add_full {s : PredicateIndex E} {ph : Option Handle} (e : Option E)
    (heq : s.numberOfPredicateIndices = maxPredicateIndices) (hk : ¬ (s.find ph).isSome) :
    s.addPredicateIndex ph e = none := by
  rw [addPredicateIndex, if_neg (Nat.not_lt.mpr heq.le), if_neg hk,
    dif_neg (Nat.not_lt.mpr heq.ge)]

theorem Registers.known_call {s : PredicateIndex E} {calls : List (Option Handle × Option E)}
    (hr : Registers s calls) {c : Option Handle × Option E} (hk : (s.find c.1).isSome) :
    Registers s (calls ++ [c]) := by
  have hmem := (hr.known c.1).mp hk
  have hsame : handles (calls ++ [c]) = handles calls := by
    rw [handles_append, Finset.insert_eq_of_mem hmem]
  refine ⟨by rw [hsame, hr.number], fun ph => by rw [hsame, hr.known], ?_⟩
  intro ph i hi
  obtain ⟨hlt, hph, he⟩ := hr.first ph i hi
  refine ⟨hlt, hph, ?_⟩
  have hfound : (s.find ph).isSome := by
    rw [hi]
    rfl
  rw [he, List.find?_append, Option.or_of_isSome (mem_handles.mp ((hr.known ph).mp hfound))]

theorem find_register (s : PredicateIndex E) (ph : Option Handle) (e : Option E)
    (hlt : s.numberOfPredicateIndices < maxPredicateIndices) (ph' : Option Handle) :
    (s.register ph e hlt).find ph' =
      if ph' = ph then some s.numberOfPredicateIndices else s.find ph' := by
  rw [find, register, List.lookup_cons]
  by_cases h : ph' = ph
  · simp [h]
  · rw [beq_eq_false_iff_ne.mpr h, if_neg h]
    rfl

theorem Registers.new_call {s : PredicateIndex E} {calls : List (Option Handle × Option E)}
    (hr : Registers s calls) {c : Option Handle × Option E} (hk : ¬ (s.find c.1).isSome)
    (hlt : s.numberOfPredicateIndices < maxPredicateIndices) :
    Registers (s.register c.1 c.2 hlt) (calls ++ [c]) := by
  have hnot : c.1 ∉ handles calls := fun h => hk ((hr.known c.1).mpr h)
  refine ⟨?_, ?_, ?_⟩
  · rw [handles_append, Finset.card_insert_of_notMem hnot, ← hr.number]
    rfl
  · intro ph
    rw [handles_append, Finset.mem_insert, ← hr.known, find_register]
    by_cases hph : ph = c.1
    · simp [hph]
    · simp [hph]
  · intro ph i hi
    rw [find_register] at hi
    by_cases hph : ph = c.1
    · rw [if_pos hph] at hi
      obtain rfl := Option.some.inj hi
      have hnone : calls.find? (fun d => d.1 == ph) = none := by
        rwa [← hph, mem_handles, Option.not_isSome_iff_eq_none] at hnot
      refine ⟨Nat.lt_succ_self _, ?_, ?_⟩
      · simp [register, hph, hlt]
      · rw [List.find?_append, hnone]
        simp [register, hph, hlt]
    · rw [if_neg hph] at hi
      obtain ⟨hi', hh, he⟩ := hr.first ph i hi
      have hne : s.numberOfPredicateIndices ≠ i := hi'.ne'
      refine ⟨Nat.lt_succ_of_lt hi', ?_, ?_⟩
      · rw [register, Vector.getElem?_set_ne _ hne, hh]
      · have hskip : [c].find? (fun d => d.1 == ph) = none := by simp [Ne.symm hph]
        rw [register, Vector.getElem?_set_ne _ hne, he, List.find?_append, hskip, Option.or_none]

/-! ## Runs -/

/-- A call comes back iff its handle is known or a place is free. -/
theorem Registers.add_isSome_iff {s : PredicateIndex E} {calls : List (Option Handle × Option E)}
    (hr : Registers s calls) (hle : s.numberOfPredicateIndices ≤ maxPredicateIndices)
    (c : Option Handle × Option E) :
    (s.addPredicateIndex c.1 c.2).isSome ↔
      (handles (calls ++ [c])).card ≤ maxPredicateIndices := by
  rw [handles_append]
  by_cases hk : (s.find c.1).isSome
  · rw [add_known _ hle hk, Finset.insert_eq_of_mem ((hr.known c.1).mp hk), ← hr.number]
    exact iff_of_true rfl hle
  · rw [Finset.card_insert_of_notMem fun h => hk ((hr.known c.1).mpr h), ← hr.number]
    by_cases hlt : s.numberOfPredicateIndices < maxPredicateIndices
    · rw [add_new _ hlt hk]
      exact iff_of_true rfl hlt
    · rw [add_full _ (by omega) hk]
      exact iff_of_false (by simp) hlt

theorem Registers.add {s : PredicateIndex E} {calls : List (Option Handle × Option E)}
    (hr : Registers s calls) (hle : s.numberOfPredicateIndices ≤ maxPredicateIndices)
    {c : Option Handle × Option E} {out : PredicateIndex E × Option InvalidParam}
    (h : s.addPredicateIndex c.1 c.2 = some out) : Registers out.1 (calls ++ [c]) := by
  by_cases hk : (s.find c.1).isSome
  · rw [add_known _ hle hk] at h
    rw [← Option.some.inj h]
    exact hr.known_call hk
  · by_cases hlt : s.numberOfPredicateIndices < maxPredicateIndices
    · rw [add_new _ hlt hk] at h
      rw [← Option.some.inj h]
      exact hr.new_call hk hlt
    · rw [add_full _ (by omega) hk] at h
      cases h

theorem addAll_concat (calls : List (Option Handle × Option E)) (c : Option Handle × Option E) :
    addAll (calls ++ [c]) =
      (addAll calls).bind fun s => (s.addPredicateIndex c.1 c.2).map Prod.fst := by
  simp [addAll, List.foldlM_append]

/-- All calls come back iff their handles have places, and then exactly these are registered. -/
theorem addAll_spec (calls : List (Option Handle × Option E)) :
    if (handles calls).card ≤ maxPredicateIndices then
      ∃ s, addAll calls = some s ∧ Registers s calls
    else addAll calls = none := by
  induction calls using List.reverseRecOn with
  | nil => exact ⟨empty, rfl, registers_empty⟩
  | append_singleton calls c ih =>
    have hmono : (handles calls).card ≤ (handles (calls ++ [c])).card := by
      rw [handles_append]
      exact Finset.card_le_card (Finset.subset_insert _ _)
    rw [addAll_concat]
    by_cases hle : (handles calls).card ≤ maxPredicateIndices
    · rw [if_pos hle] at ih
      obtain ⟨s, hs, hr⟩ := ih
      have hle' : s.numberOfPredicateIndices ≤ maxPredicateIndices := by rwa [hr.number]
      rw [hs, Option.bind_some]
      have hiff := hr.add_isSome_iff hle' c
      split
      · rename_i hcard
        obtain ⟨out, hout⟩ := Option.isSome_iff_exists.mp (hiff.mpr hcard)
        exact ⟨out.1, by rw [hout, Option.map_some], hr.add hle' hout⟩
      · rename_i hcard
        rw [Option.not_isSome_iff_eq_none.mp fun h => hcard (hiff.mp h), Option.map_none]
    · rw [if_neg hle] at ih
      rw [ih, if_neg (by omega), Option.bind_none]

theorem registers_of_addAll {calls : List (Option Handle × Option E)} {s : PredicateIndex E}
    (h : addAll calls = some s) :
    Registers s calls ∧ s.numberOfPredicateIndices ≤ maxPredicateIndices := by
  have hspec := addAll_spec calls
  split at hspec
  · rename_i hcard
    obtain ⟨s', hs', hr⟩ := hspec
    obtain rfl := Option.some.inj (h.symm.trans hs')
    exact ⟨hr, by rwa [hr.number]⟩
  · rw [hspec] at h
    cases h

/-- The evaluator found for a handle is the one of the first call with it. -/
theorem getPredicateEvaluator_addAll {calls : List (Option Handle × Option E)}
    {s : PredicateIndex E} (h : addAll calls = some s) (ph : Option Handle) :
    s.getPredicateEvaluator ph = some ((calls.find? fun c => c.1 == ph).bind Prod.snd) := by
  obtain ⟨hr, -⟩ := registers_of_addAll h
  have hknown := hr.known ph
  rw [mem_handles] at hknown
  unfold getPredicateEvaluator
  cases hf : s.find ph with
  | none =>
    rw [hf] at hknown
    have hnone : calls.find? (fun c => c.1 == ph) = none :=
      Option.not_isSome_iff_eq_none.mp fun hsome => absurd (hknown.mpr hsome) (by simp)
    rw [hnone, Option.bind_none]
  | some i =>
    obtain ⟨-, -, he⟩ := hr.first ph i hf
    rw [hf] at hknown
    obtain ⟨c, hc⟩ := Option.isSome_iff_exists.mp (hknown.mp rfl)
    simp only [he, hc, Option.map_some, Option.bind_some]

/-! ## The bound -/

/-- The promise for one call: what it writes is in the vectors, the number stays in its bound, and
an exception means that no place is left or that the handle is known, and changes nothing. -/
def Promised (s : PredicateIndex E) (c : Option Handle × Option E) : Prop :=
  ∃ out, s.addPredicateIndex c.1 c.2 = some out ∧
    out.1.numberOfPredicateIndices ≤ maxPredicateIndices ∧
    (out.2.isSome ↔ s.numberOfPredicateIndices = maxPredicateIndices ∨ (s.find c.1).isSome) ∧
    (out.2.isSome → out.1 = s)

/-- Every call keeps the promise in the state that the calls before it leave. -/
def Bounded (calls : List (Option Handle × Option E)) : Prop :=
  ∀ earlier c, earlier ++ [c] <+: calls → ∃ s, addAll earlier = some s ∧ Promised s c

theorem Registers.promised_iff {s : PredicateIndex E} {calls : List (Option Handle × Option E)}
    (hr : Registers s calls) (hle : s.numberOfPredicateIndices ≤ maxPredicateIndices)
    (c : Option Handle × Option E) :
    Promised s c ↔ (handles (calls ++ [c])).card ≤ maxPredicateIndices := by
  rw [← hr.add_isSome_iff hle]
  constructor
  · rintro ⟨out, hout, -⟩
    rw [hout]
    rfl
  · intro h
    by_cases hk : (s.find c.1).isSome
    · exact ⟨_, add_known _ hle hk, hle, by simp [hk], fun _ => rfl⟩
    · by_cases hlt : s.numberOfPredicateIndices < maxPredicateIndices
      · exact ⟨_, add_new _ hlt hk, hlt, by simp [hk, hlt.ne], by simp⟩
      · rw [add_full _ (by omega) hk] at h
        cases h

/-- The calls keep within the vectors iff their handles are no more than there are places. -/
theorem bounded_iff (calls : List (Option Handle × Option E)) :
    Bounded calls ↔ (handles calls).card ≤ maxPredicateIndices := by
  constructor
  · intro h
    cases calls using List.reverseRecOn with
    | nil => exact Nat.zero_le _
    | append_singleton calls c =>
      obtain ⟨s, hs, hp⟩ := h calls c (List.prefix_refl _)
      obtain ⟨hr, hle⟩ := registers_of_addAll hs
      exact (hr.promised_iff hle c).mp hp
  · intro h earlier c hpre
    have hmono : (handles (earlier ++ [c])).card ≤ maxPredicateIndices := by
      refine (Finset.card_le_card ?_).trans h
      intro ph hph
      rw [handles, List.mem_toFinset] at hph ⊢
      exact (hpre.map Prod.fst).subset hph
    have hcard : (handles earlier).card ≤ maxPredicateIndices := by
      rw [handles_append] at hmono
      exact (Finset.card_le_card (Finset.subset_insert _ _)).trans hmono
    have hspec := addAll_spec earlier
    rw [if_pos hcard] at hspec
    obtain ⟨s, hs, hr⟩ := hspec
    exact ⟨s, hs, (hr.promised_iff (by rwa [hr.number]) c).mpr hmono⟩

/-- So many calls, each with a handle of its own. -/
def distinctCalls (n : Nat) : List (Option Handle × Option Unit) :=
  (List.range n).map fun k => (some k, none)

/-- One handle more than there are places: the last call passes the check, and writes outside. -/
theorem not_bounded :
    (∃ s, addAll (distinctCalls 32) = some s ∧ s.numberOfPredicateIndices = 32 ∧
      s.addPredicateIndex (some 32) none = none) ∧ ¬ Bounded (distinctCalls 33) := by
  have hfull : ∃ s, addAll (distinctCalls 32) = some s ∧ s.numberOfPredicateIndices = 32 ∧
      s.addPredicateIndex (some 32) none = none := ⟨_, rfl, rfl, rfl⟩
  refine ⟨hfull, fun h => ?_⟩
  obtain ⟨s, hs, -, hnone⟩ := hfull
  obtain ⟨s', hs', out, hout, -⟩ := h (distinctCalls 32) (some 32, none) ⟨[], rfl⟩
  rw [← Option.some.inj (hs.symm.trans hs'), hnone] at hout
  cases hout

/-! ## The sets of the indices -/

/-- `insert(i, h)` of the base class; `at` throws outside the vector. -/
def insert (s : PredicateIndex E) (i : Nat) (h : Handle) : Option (PredicateIndex E) :=
  if hi : i < maxPredicateIndices then some { s with idx := s.idx.set i (s.idx[i].insert h) }
  else none

section Evaluate

-- the virtual function of the evaluators
variable (evaluate : E → Handle → Bool)

/-- One pass of the loop of `insertHandle`; a null evaluator has no defined result. -/
def checkIndex (h : Handle) (s : PredicateIndex E) (i : Nat) : Option (PredicateIndex E) :=
  match s.predicateEvaluators[i]? with
  | some (some evaluator) => if evaluate evaluator h then s.insert i h else some s
  | _ => none

def insertHandle (s : PredicateIndex E) (h : Handle) : Option (PredicateIndex E) :=
  (List.range s.numberOfPredicateIndices).foldlM (checkIndex evaluate h) s

def removeHandle (s : PredicateIndex E) (h : Handle) : PredicateIndex E :=
  { s with idx := s.idx.map fun set => set.erase h }

def getHandleSet (s : PredicateIndex E) (index : Nat) : Option (List Handle) := s.idx[index]?

/-- The predicate with this index is registered and accepts the handle. -/
def Accepts (s : PredicateIndex E) (i : Nat) (h : Handle) : Prop :=
  i < s.numberOfPredicateIndices ∧
    ∃ evaluator, s.predicateEvaluators[i]? = some (some evaluator) ∧ evaluate evaluator h = true

/-- The handle is in the set of this index. -/
def Holds (s : PredicateIndex E) (i : Nat) (h : Handle) : Prop :=
  ∃ set, s.getHandleSet i = some set ∧ h ∈ set

variable {evaluate}

theorem holds_insert {s s' : PredicateIndex E} {i : Nat} {h : Handle} (hs : s.insert i h = some s')
    (j : Nat) (h' : Handle) : Holds s' j h' ↔ Holds s j h' ∨ (h' = h ∧ j = i) := by
  unfold insert at hs
  split at hs
  · rename_i hi
    rw [← Option.some.inj hs]
    by_cases hj : j = i
    · subst hj
      simp [Holds, getHandleSet, hi, or_comm]
    · simp [Holds, getHandleSet, Vector.getElem?_set_ne _ (Ne.symm hj), hj]
  · cases hs

/-- A pass of the loop changes the sets only. -/
theorem checkIndex_frame {s s' : PredicateIndex E} {i : Nat} {h : Handle}
    (hs : checkIndex evaluate h s i = some s') :
    s'.numberOfPredicateIndices = s.numberOfPredicateIndices ∧
      s'.predicateEvaluators = s.predicateEvaluators := by
  unfold checkIndex at hs
  split at hs
  · split at hs
    · unfold insert at hs
      split at hs
      · rw [← Option.some.inj hs]
        exact ⟨rfl, rfl⟩
      · cases hs
    · rw [← Option.some.inj hs]
      exact ⟨rfl, rfl⟩
  · cases hs

theorem holds_checkIndex {s s' : PredicateIndex E} {i : Nat} {h : Handle}
    (hi : i < s.numberOfPredicateIndices) (hs : checkIndex evaluate h s i = some s') (j : Nat)
    (h' : Handle) :
    Holds s' j h' ↔ Holds s j h' ∨ (h' = h ∧ j = i ∧ Accepts evaluate s i h) := by
  unfold checkIndex at hs
  split at hs
  · rename_i evaluator hev
    split at hs
    · rename_i hyes
      have hacc : Accepts evaluate s i h := ⟨hi, evaluator, hev, hyes⟩
      rw [holds_insert hs]
      simp only [hacc, and_true]
    · rename_i hno
      have hacc : ¬ Accepts evaluate s i h := by
        rintro ⟨-, e, he, hyes⟩
        rw [hev] at he
        rw [← Option.some.inj (Option.some.inj he)] at hyes
        exact hno hyes
      rw [← Option.some.inj hs]
      simp only [hacc, and_false, or_false]
  · cases hs

theorem foldlM_checkIndex {h : Handle} {n : Nat} {s s' : PredicateIndex E}
    (hn : n ≤ s.numberOfPredicateIndices)
    (hs : (List.range n).foldlM (checkIndex evaluate h) s = some s') :
    (s'.numberOfPredicateIndices = s.numberOfPredicateIndices ∧
      s'.predicateEvaluators = s.predicateEvaluators) ∧
    ∀ j h', Holds s' j h' ↔ Holds s j h' ∨ (h' = h ∧ j < n ∧ Accepts evaluate s j h) := by
  induction n generalizing s' with
  | zero =>
    obtain rfl := Option.some.inj hs
    exact ⟨⟨rfl, rfl⟩, fun j h' => by simp⟩
  | succ n ih =>
    rw [List.range_succ, List.foldlM_append] at hs
    obtain ⟨t, ht, hlast⟩ := Option.bind_eq_some_iff.mp hs
    have hstep : checkIndex evaluate h t n = some s' := by simpa using hlast
    obtain ⟨⟨hnum, hev⟩, hholds⟩ := ih (by omega) ht
    obtain ⟨hnum', hev'⟩ := checkIndex_frame hstep
    refine ⟨⟨hnum'.trans hnum, hev'.trans hev⟩, fun j h' => ?_⟩
    have hacc : Accepts evaluate t n h ↔ Accepts evaluate s n h := by
      rw [Accepts, Accepts, hnum, hev]
    rw [holds_checkIndex (by omega) hstep, hholds, hacc, or_assoc]
    refine or_congr_right ?_
    constructor
    · rintro (⟨rfl, hj, ha⟩ | ⟨rfl, rfl, ha⟩)
      · exact ⟨rfl, by omega, ha⟩
      · exact ⟨rfl, by omega, ha⟩
    · rintro ⟨rfl, hj, ha⟩
      rcases Nat.lt_succ_iff_lt_or_eq.mp hj with hlt | rfl
      · exact .inl ⟨rfl, hlt, ha⟩
      · exact .inr ⟨rfl, rfl, ha⟩

/-- A handle enters the sets of the predicates that accept it, and no others. -/
theorem holds_insertHandle {s s' : PredicateIndex E} {h : Handle}
    (hs : s.insertHandle evaluate h = some s') (j : Nat) (h' : Handle) :
    Holds s' j h' ↔ Holds s j h' ∨ (h' = h ∧ Accepts evaluate s j h) := by
  rw [(foldlM_checkIndex (Nat.le_refl _) hs).2]
  refine or_congr_right (and_congr_right fun _ => and_iff_right_of_imp fun ha => ha.1)

/-- What the table does with its index of predicates. -/
inductive Call (E : Type) where
  | add (ph : Option Handle) (evaluator : Option E)
  | insert (h : Handle)
  | remove (h : Handle)

/-- A call that throws leaves the index as it is. -/
def call (evaluate : E → Handle → Bool) (s : PredicateIndex E) : Call E → Option (PredicateIndex E)
  | .add ph evaluator => (s.addPredicateIndex ph evaluator).map Prod.fst
  | .insert h => s.insertHandle evaluate h
  | .remove h => some (s.removeHandle h)

/-- The sets hold handles that their predicates accept. -/
def Sound (evaluate : E → Handle → Bool) (s : PredicateIndex E) : Prop :=
  ∀ i h, Holds s i h → Accepts evaluate s i h

theorem sound_register {s : PredicateIndex E} (hs : Sound evaluate s) (ph : Option Handle)
    (e : Option E) (hlt : s.numberOfPredicateIndices < maxPredicateIndices) :
    Sound evaluate (s.register ph e hlt) := by
  intro i h hold
  obtain ⟨hi, evaluator, hev, hyes⟩ := hs i h hold
  refine ⟨Nat.lt_succ_of_lt hi, evaluator, ?_, hyes⟩
  rw [register, Vector.getElem?_set_ne _ hi.ne', hev]

theorem sound_call {s s' : PredicateIndex E} (hs : Sound evaluate s) {c : Call E}
    (h : s.call evaluate c = some s') : Sound evaluate s' := by
  cases c with
  | add ph e =>
    obtain ⟨out, hout, rfl⟩ := Option.map_eq_some_iff.mp h
    unfold addPredicateIndex at hout
    split at hout
    · rw [← Option.some.inj hout]
      exact hs
    · split at hout
      · rw [← Option.some.inj hout]
        exact hs
      · split at hout
        · rw [← Option.some.inj hout]
          exact sound_register hs ph e _
        · cases hout
  | insert k =>
    obtain ⟨hnum, hev⟩ := (foldlM_checkIndex (Nat.le_refl _) h).1
    have hacc : ∀ i k', Accepts evaluate s i k' → Accepts evaluate s' i k' := by
      intro i k' ha
      rwa [Accepts, hnum, hev]
    intro i k' hold
    rcases (holds_insertHandle h i k').mp hold with hold | ⟨rfl, ha⟩
    · exact hacc i k' (hs i k' hold)
    · exact hacc i k' ha
  | remove k =>
    obtain rfl := Option.some.inj h
    rintro i k' ⟨set, hset, hmem⟩
    rw [getHandleSet, removeHandle, Vector.getElem?_map] at hset
    obtain ⟨set', hset', rfl⟩ := Option.map_eq_some_iff.mp hset
    exact hs i k' ⟨set', hset', List.mem_of_mem_erase hmem⟩

/-- Over every run, the set of an index holds handles that its predicate accepts. -/
theorem sound_of_run {calls : List (Call E)} {s : PredicateIndex E}
    (h : calls.foldlM (call evaluate) empty = some s) : Sound evaluate s := by
  induction calls using List.reverseRecOn generalizing s with
  | nil =>
    obtain rfl := Option.some.inj h
    rintro i k ⟨set, hset, hmem⟩
    obtain ⟨hi, rfl⟩ := Vector.getElem?_eq_some_iff.mp hset
    simp [empty] at hmem
  | append_singleton calls c ih =>
    rw [List.foldlM_append] at h
    obtain ⟨t, ht, hlast⟩ := Option.bind_eq_some_iff.mp h
    exact sound_call (ih ht) (by simpa using hlast)

end Evaluate

end PredicateIndex

end OpenCog
