import Mathlib.Data.List.Nodup
import Mathlib.Data.List.Perm.Subperm
import Mathlib.Data.List.Range
import Mathlib.Tactic.Common

/-! `lazy_selector`: draws from a range without drawing twice. An index that was drawn is linked
to the lowest one that was not, which is drawn in its place. -/
namespace OpenCog.Util

/-- `map` is one-to-many: a link leaves an index at most once. -/
structure LazySelector where
  n : Nat
  l : Nat
  map : List (Nat × Nat)

namespace LazySelector

/-- The constructor, which asserts that there is something to select. -/
def create (n : Nat) : Option LazySelector := if 0 < n then some ⟨n, 0, []⟩ else none

variable (s : LazySelector)

def empty : Bool := decide (s.n ≤ s.l)

def resetRange (n : Nat) : LazySelector := { s with n := n }

def isFree (map : List (Nat × Nat)) (i : Nat) : Bool := (map.lookup i).isNone

def countNFree : Nat := (List.range s.n).countP (isFree s.map)

/-- `do ++l while (!is_free(l))`; of as many indices as there are links and one more, one is
free. -/
def increaseTillFree (map : List (Nat × Nat)) : Nat → Nat → Nat
  | 0, l => l
  | fuel + 1, l => if isFree map (l + 1) then l + 1 else increaseTillFree map fuel (l + 1)

/-- All links to `src` go to `dst` from now on. -/
def modifyTarget (src dst : Nat) (map : List (Nat × Nat)) : List (Nat × Nat) :=
  map.map fun p => if p.2 = src then (p.1, dst) else p

/-- The index is a unique key. -/
def insertLink (p : Nat × Nat) (map : List (Nat × Nat)) : List (Nat × Nat) :=
  if isFree map p.1 then p :: map else map

/-- `operator()`, where `select` has returned `sel`. It asserts that the selector is not empty. -/
def call (sel : Nat) : Option (Nat × LazySelector) :=
  if s.empty then none
  else
    let res := (s.map.lookup sel).getD sel
    let l := if res = s.l then increaseTillFree s.map (s.map.length + 1) s.l else s.l
    some (res, { s with l := l, map := insertLink (res, l) (modifyTarget res l s.map) })

/-! ## What was drawn -/

/-- The links leave what was drawn, and lead to the lowest index that was not. -/
structure Drawn (s : LazySelector) (out : List Nat) : Prop where
  keys : ∀ i, isFree s.map i = false ↔ i ∈ out
  targets : ∀ p ∈ s.map, p.2 = s.l
  free : s.l ∉ out
  below : ∀ i < s.l, i ∈ out

variable {s : LazySelector} {out : List Nat} {map : List (Nat × Nat)}

theorem isFree_false_iff {i : Nat} : isFree map i = false ↔ ∃ p ∈ map, p.1 = i := by
  rw [isFree, Option.isNone_eq_false_iff, List.lookup_isSome_iff]
  simp only [beq_iff_eq]
  exact exists_congr fun p => and_congr_right fun _ => eq_comm

theorem lookup_mem {i t : Nat} (h : map.lookup i = some t) : (i, t) ∈ map := by
  induction map with
  | nil => cases h
  | cons p map ih =>
    obtain ⟨a, b⟩ := p
    by_cases e : i = a
    · subst e
      rw [List.lookup_cons_self] at h
      exact Option.some.inj h ▸ List.mem_cons_self
    · rw [List.lookup_cons, beq_false_of_ne e] at h
      exact List.mem_cons_of_mem _ (ih h)

/-- Not all of the indices that follow can have a link. -/
theorem exists_free (map : List (Nat × Nat)) (l : Nat) :
    ∃ k, k ≤ map.length ∧ isFree map (l + 1 + k) = true := by
  by_contra hn
  have hlinks : ∀ k ≤ map.length, l + 1 + k ∈ map.map Prod.fst := by
    intro k hk
    have hf : isFree map (l + 1 + k) = false := by
      by_contra hf
      exact hn ⟨k, hk, Bool.not_eq_false _ ▸ hf⟩
    obtain ⟨p, hp, e⟩ := isFree_false_iff.mp hf
    exact e ▸ List.mem_map_of_mem hp
  have hsub : (List.range' (l + 1) (map.length + 1)).Subperm (map.map Prod.fst) := by
    apply List.subperm_of_subset (List.nodup_range' ..)
    intro i hi
    obtain ⟨h₁, h₂⟩ := List.mem_range'_1.mp hi
    have hk := hlinks (i - (l + 1)) (by omega)
    rwa [Nat.add_sub_cancel' h₁] at hk
  have hlen := hsub.length_le
  rw [List.length_range', List.length_map] at hlen
  omega

/-- The first free index after `l`. -/
theorem increaseTillFree_spec {fuel l k : Nat} (hk : k < fuel)
    (hf : isFree map (l + 1 + k) = true) :
    l < increaseTillFree map fuel l ∧ isFree map (increaseTillFree map fuel l) = true ∧
      ∀ i, l < i → i < increaseTillFree map fuel l → isFree map i = false := by
  induction fuel generalizing l k with
  | zero => exact absurd hk (Nat.not_lt_zero k)
  | succ fuel ih =>
    unfold increaseTillFree
    by_cases hnext : isFree map (l + 1) = true
    · rw [if_pos hnext]
      exact ⟨Nat.lt_succ_self l, hnext, fun i h₁ h₂ => by omega⟩
    · rw [if_neg hnext]
      cases k with
      | zero => exact absurd hf hnext
      | succ k =>
        have hf' : isFree map (l + 1 + 1 + k) = true := by
          rwa [Nat.add_assoc (l + 1) 1 k, Nat.add_comm 1 k]
        obtain ⟨hlt, hfree, hbetween⟩ := ih (Nat.lt_of_succ_lt_succ hk) hf'
        refine ⟨Nat.lt_of_succ_lt hlt, hfree, fun i h₁ h₂ => ?_⟩
        by_cases e : i = l + 1
        · rw [e]
          exact Bool.not_eq_true _ ▸ hnext
        · exact hbetween i (by omega) h₂

theorem keys_modifyTarget (src dst : Nat) (map : List (Nat × Nat)) :
    (modifyTarget src dst map).map Prod.fst = map.map Prod.fst := by
  rw [modifyTarget, List.map_map]
  apply List.map_congr_left
  intro p _
  simp only [Function.comp_apply]
  split
  · rfl
  · rfl

theorem isFree_modifyTarget (src dst i : Nat) :
    isFree (modifyTarget src dst map) i = isFree map i := by
  have hiff : ∀ m : List (Nat × Nat), isFree m i = false ↔ i ∈ m.map Prod.fst := by
    intro m
    rw [isFree_false_iff, List.mem_map]
  rw [Bool.eq_iff_iff, ← not_iff_not, Bool.not_eq_true, Bool.not_eq_true, hiff, hiff,
    keys_modifyTarget]

theorem mem_insertLink {p q : Nat × Nat} (h : q ∈ insertLink p map) : q = p ∨ q ∈ map := by
  unfold insertLink at h
  split at h
  · exact List.mem_cons.mp h
  · exact .inr h

theorem isFree_insertLink {p : Nat × Nat} {i : Nat} :
    isFree (insertLink p map) i = false ↔ i = p.1 ∨ isFree map i = false := by
  unfold insertLink
  by_cases hf : isFree map p.1 = true
  · rw [if_pos hf, isFree_false_iff, isFree_false_iff, List.exists_mem_cons_iff]
    exact or_congr_left eq_comm
  · rw [if_neg hf]
    constructor
    · exact .inr
    · rintro (rfl | h)
      · exact Bool.not_eq_true _ ▸ hf
      · exact h

namespace Drawn

theorem start (n : Nat) : Drawn ⟨n, 0, []⟩ [] :=
  ⟨fun i => by simp [isFree], nofun, nofun, fun i hi => absurd hi (Nat.not_lt_zero i)⟩

theorem resetRange (h : Drawn s out) (n : Nat) : Drawn (s.resetRange n) out :=
  ⟨h.keys, h.targets, h.free, h.below⟩

theorem empty_iff (h : Drawn s out) : s.empty = true ↔ ∀ i < s.n, i ∈ out := by
  rw [LazySelector.empty, decide_eq_true_eq]
  constructor
  · exact fun hle i hi => h.below i (Nat.lt_of_lt_of_le hi hle)
  · intro hall
    by_contra hlt
    exact h.free (hall s.l (Nat.not_le.mp hlt))

/-- What is selected is drawn if it was not yet, else the lowest index that was not. -/
theorem res_eq (h : Drawn s out) (sel : Nat) :
    (s.map.lookup sel).getD sel = if sel ∈ out then s.l else sel := by
  cases hl : s.map.lookup sel with
  | none =>
    have hf : isFree s.map sel = true := by rw [isFree, hl]; rfl
    rw [if_neg fun ho => by rw [(h.keys sel).mpr ho] at hf; cases hf]
    rfl
  | some t =>
    have hf : isFree s.map sel = false := by rw [isFree, hl]; rfl
    rw [if_pos ((h.keys sel).mp hf)]
    exact h.targets (sel, t) (lookup_mem hl)

/-- A draw gives an index of the range that was not drawn before. -/
theorem call (h : Drawn s out) (hne : s.empty = false) {sel : Nat} (hsel : sel < s.n) :
    ∃ res s', s.call sel = some (res, s') ∧ res < s.n ∧ res ∉ out ∧ s'.n = s.n ∧
      Drawn s' (res :: out) := by
  have hl : s.l < s.n := by simpa [LazySelector.empty] using hne
  set res := if sel ∈ out then s.l else sel with hres
  set l := if res = s.l then increaseTillFree s.map (s.map.length + 1) s.l else s.l with hl'
  have hrange : res < s.n := by
    rw [hres]
    split
    · exact hl
    · exact hsel
  have hnew : res ∉ out := by
    rw [hres]
    split
    · exact h.free
    · assumption
  obtain ⟨k, hk, hfree⟩ := exists_free s.map s.l
  obtain ⟨hlt, hfree', hbetween⟩ := increaseTillFree_spec (Nat.lt_succ_of_le hk) hfree
  refine ⟨res, ⟨s.n, l, insertLink (res, l) (modifyTarget res l s.map)⟩, ?_, hrange, hnew, rfl, ?_⟩
  · rw [LazySelector.call, hne, if_neg Bool.false_ne_true, h.res_eq]
  · refine ⟨fun i => ?_, fun p hp => ?_, ?_, fun i hi => ?_⟩
    · rw [isFree_insertLink, isFree_modifyTarget, h.keys, List.mem_cons]
    · -- an old link led to the old lowest index, which is `res` if it has changed
      rcases mem_insertLink hp with rfl | hp
      · rfl
      · obtain ⟨q, hq, rfl⟩ := List.mem_map.mp hp
        have htarget := h.targets q hq
        by_cases e : q.2 = res
        · rw [if_pos e]
        · rw [if_neg e]
          change q.2 = l
          rw [hl', if_neg fun e' => e (htarget.trans e'.symm)]
          exact htarget
    · change l ∉ res :: out
      rw [List.mem_cons, not_or]
      by_cases e : res = s.l
      · rw [hl', if_pos e, e]
        refine ⟨Nat.ne_of_gt hlt, fun ho => ?_⟩
        rw [(h.keys _).mpr ho] at hfree'
        cases hfree'
      · rw [hl', if_neg e]
        exact ⟨Ne.symm e, h.free⟩
    · change i < l at hi
      rw [List.mem_cons]
      by_cases e : res = s.l
      · rw [hl', if_pos e] at hi
        rcases Nat.lt_trichotomy i s.l with hlow | heq | hhigh
        · exact .inr (h.below i hlow)
        · exact .inl (heq.trans e.symm)
        · exact .inr ((h.keys i).mp (hbetween i hhigh hi))
      · rw [hl', if_neg e] at hi
        exact .inr (h.below i hi)

theorem countNFree_eq (h : Drawn s out) :
    s.countNFree = (List.range s.n).countP fun i => decide (i ∉ out) := by
  unfold countNFree
  refine List.countP_congr fun i _ => ?_
  rw [decide_eq_true_eq, ← h.keys, Bool.not_eq_false]

end Drawn

/-! ## Runs -/

/-- A selector after draws and changes of its range, with what was drawn, the last one first.
It is asked only while it is not empty, and `select` returns an index of the range. -/
inductive Reachable : LazySelector → List Nat → Prop
  | start {n : Nat} {s : LazySelector} : create n = some s → Reachable s []
  | call {s s' : LazySelector} {out : List Nat} {sel res : Nat} : Reachable s out →
      s.empty = false → sel < s.n → s.call sel = some (res, s') → Reachable s' (res :: out)
  | resetRange {s : LazySelector} {out : List Nat} (n : Nat) : Reachable s out →
      Reachable (s.resetRange n) out

theorem drawn_of_create {n : Nat} (h : create n = some s) : Drawn s [] ∧ s.n = n := by
  unfold create at h
  split at h
  · obtain rfl := Option.some.inj h
    exact ⟨.start n, rfl⟩
  · cases h

theorem Reachable.drawn (h : Reachable s out) : Drawn s out := by
  induction h with
  | start hc => exact (drawn_of_create hc).1
  | @call s s' out sel res _ hne hsel hcall ih =>
    obtain ⟨res', s'', hcall', -, -, -, hdrawn⟩ := ih.call hne hsel
    obtain ⟨rfl, rfl⟩ := Prod.mk.inj (Option.some.inj (hcall.symm.trans hcall'))
    exact hdrawn
  | resetRange n _ ih => exact ih.resetRange n

/-- Calls in a row, with what they return. -/
def callAll : List Nat → LazySelector → Option (List Nat × LazySelector)
  | [], s => some ([], s)
  | sel :: sels, s =>
    (s.call sel).bind fun r => (callAll sels r.2).map fun q => (r.1 :: q.1, q.2)

/-- Draws from a fixed range, as long as there is something to draw. -/
theorem Drawn.callAll (h : Drawn s out) (hnodup : out.Nodup) (hrange : ∀ i ∈ out, i < s.n)
    {sels : List Nat} (hsels : ∀ sel ∈ sels, sel < s.n) (hlen : out.length + sels.length ≤ s.n) :
    ∃ drawn s', callAll sels s = some (drawn, s') ∧ drawn.length = sels.length ∧
      (drawn.reverse ++ out).Nodup ∧ ∀ i ∈ drawn, i < s.n := by
  induction sels generalizing s out with
  | nil => exact ⟨[], s, rfl, rfl, hnodup, nofun⟩
  | cons sel sels ih =>
    have hne : s.empty = false := by
      -- a list without repetitions that holds the whole range is as long as the range
      by_contra he
      have hall := h.empty_iff.mp (Bool.not_eq_false _ ▸ he)
      have hsub : (List.range s.n).Subperm out :=
        List.subperm_of_subset List.nodup_range fun i hi => hall i (List.mem_range.mp hi)
      have hle := hsub.length_le
      rw [List.length_range] at hle
      rw [List.length_cons] at hlen
      omega
    obtain ⟨res, s', hcall, hres, hnew, hn, hdrawn⟩ := h.call hne (hsels sel List.mem_cons_self)
    obtain ⟨drawn, s'', hrest, hcount, hnodup', hdrawn'⟩ :=
      ih hdrawn (List.nodup_cons.mpr ⟨hnew, hnodup⟩)
        (fun i hi => by
          rw [hn]
          rcases List.mem_cons.mp hi with rfl | hi
          · exact hres
          · exact hrange i hi)
        (fun x hx => hn ▸ hsels x (List.mem_cons_of_mem sel hx))
        (by simp only [List.length_cons] at hlen ⊢; omega)
    refine ⟨res :: drawn, s'', ?_, congrArg Nat.succ hcount, ?_, ?_⟩
    · rw [LazySelector.callAll, hcall, Option.bind_some, hrest, Option.map_some]
    · simpa using hnodup'
    · intro i hi
      rcases List.mem_cons.mp hi with rfl | hi
      · exact hres
      · exact hn ▸ hdrawn' i hi

/-- Every draw is new, the selector is empty when the whole range is drawn, and as many draws as
a fixed range has indices give each of them once. -/
theorem draws_without_replacement :
    (∀ s out, Reachable s out →
      (s.empty = false → ∀ sel < s.n,
        ∃ res s', s.call sel = some (res, s') ∧ res < s.n ∧ res ∉ out) ∧
      (s.empty = true ↔ ∀ i < s.n, i ∈ out)) ∧
    ∀ n s sels, create n = some s → sels.length = n → (∀ sel ∈ sels, sel < n) →
      ∃ drawn s', callAll sels s = some (drawn, s') ∧ drawn.Perm (List.range n) := by
  refine ⟨fun s out h => ⟨fun hne sel hsel => ?_, h.drawn.empty_iff⟩, ?_⟩
  · obtain ⟨res, s', hcall, hres, hnew, -, -⟩ := h.drawn.call hne hsel
    exact ⟨res, s', hcall, hres, hnew⟩
  · intro n s sels hc hlen hsels
    obtain ⟨hdrawn, hn⟩ := drawn_of_create hc
    subst hn
    obtain ⟨drawn, s', hcall, hcount, hnodup, hrange⟩ :=
      hdrawn.callAll List.nodup_nil nofun hsels (by simp [hlen])
    rw [List.append_nil, List.nodup_reverse] at hnodup
    refine ⟨drawn, s', hcall, ?_⟩
    have hsub : drawn.Subperm (List.range s.n) :=
      List.subperm_of_subset hnodup fun i hi => List.mem_range.mpr (hrange i hi)
    refine hsub.perm_of_length_le ?_
    rw [List.length_range, hcount, hlen]

/-- A range of three that one index was drawn from, and three draws in a row from one that is
new. -/
theorem draws_without_replacement_three :
    (∃ res s', (⟨3, 0, [(1, 0)]⟩ : LazySelector).call 1 = some (res, s') ∧ res < 3 ∧ res ∉ [1]) ∧
    ∃ drawn s', callAll [1, 1, 0] ⟨3, 0, []⟩ = some (drawn, s') ∧ drawn.Perm (List.range 3) :=
  ⟨(draws_without_replacement.1 ⟨3, 0, [(1, 0)]⟩ [1]
      (@Reachable.call ⟨3, 0, []⟩ _ [] 1 1 (.start (n := 3) rfl) rfl (by decide) rfl)).1 rfl 1
      (by decide),
    draws_without_replacement.2 3 ⟨3, 0, []⟩ [1, 1, 0] rfl rfl (by decide)⟩

end LazySelector

end OpenCog.Util
