import OpenCog.Lib.Undominated
import OpenCog.Util.SortedRanges
import Mathlib.Data.Prod.Lex
import Mathlib.Data.List.Forall2
import Mathlib.Data.List.Induction
import Mathlib.Data.List.Nodup
import Mathlib.Order.RelClasses

/-! `merge_nondominating`: candidates are compared with the members of a metapopulation by their
behavioural scores, and inserted into a set that is ordered by score and complexity. -/
namespace OpenCog.Moses

open OpenCog.Lib OpenCog.Util

variable {T S : Type}

/-- A tree with its behavioural score, and score and complexity. -/
structure BscoredComboTree (T S : Type) where
  tree : T
  bscore : List S
  score : S
  complexity : Int
  deriving DecidableEq

namespace Merging

variable [LinearOrder S]

/-- The loop of `dominates`; `none` is `indeterminate`. -/
def dominatesFrom : Option Bool → List S → List S → Option Bool
  | res, x :: xs, y :: ys =>
    if x < y then if res = some false then none else dominatesFrom (some true) xs ys
    else if y < x then if res = some true then none else dominatesFrom (some false) xs ys
    else dominatesFrom res xs ys
  | res, _, _ => res

def dominates (x y : List S) : Option Bool :=
  if x = [] then if y = [] then none else some false
  else if y = [] then some true
  else dominatesFrom none x y

/-- The order of the metapopulation, by `std::greater` on what tags the tree. -/
def key (m : BscoredComboTree T S) : S ×ₗ Int := toLex (m.score, m.complexity)

def keyCmp (a b : S ×ₗ Int) : Ordering := compare b a

instance : Std.TransCmp (@keyCmp S _) :=
  inferInstanceAs (Std.TransCmp fun a b : S ×ₗ Int => compare b a)

/-- The loop over the metapopulation: what is left of it, and whether the candidate is
`nondominated`. -/
def sweep (examined : T → Bool) (c : BscoredComboTree T S) :
    List (BscoredComboTree T S) → List (BscoredComboTree T S) × Bool
  | [] => ([], true)
  | m :: dst =>
    let keep := let s := sweep examined c dst; (m :: s.1, s.2)
    if examined m.tree then
      match dominates c.bscore m.bscore with
      | some true => sweep examined c dst
      | some false => (m :: dst, false)
      | none => keep
    else keep

def mergeCandidate (examined : T → Bool) (dst : List (BscoredComboTree T S))
    (c : BscoredComboTree T S) : List (BscoredComboTree T S) :=
  let s := sweep examined c dst
  if s.2 then insertSet keyCmp key c s.1 else s.1

def mergeNondominating [DecidableEq T] (candidates dst : List (BscoredComboTree T S)) (ignore : List T)
    (ignoreBscoreVisited : Bool) : List (BscoredComboTree T S) :=
  candidates.foldl (mergeCandidate fun tr => !ignoreBscoreVisited || decide (tr ∉ ignore)) dst

/-! ## Dominance -/

/-- Nowhere greater, and somewhere less: a behavioural score is a list of errors. -/
def Better (x y : List S) : Prop := List.Forall₂ (· ≤ ·) x y ∧ x ≠ y

theorem forall₂_le_antisymm {x y : List S} (h : List.Forall₂ (· ≤ ·) x y)
    (h' : List.Forall₂ (· ≤ ·) y x) : x = y := by
  induction h with
  | nil => rfl
  | cons hab _ ih =>
    cases h' with
    | cons hba h' => rw [le_antisymm hab hba, ih h']

theorem forall₂_le_trans {x y z : List S} (h : List.Forall₂ (· ≤ ·) x y)
    (h' : List.Forall₂ (· ≤ ·) y z) : List.Forall₂ (· ≤ ·) x z := by
  induction h generalizing z with
  | nil => exact h'
  | cons hab _ ih =>
    cases h' with
    | cons hbc h' => exact .cons (le_trans hab hbc) (ih h')

instance : IsStrictOrder (List S) Better where
  irrefl _ h := h.2 rfl
  trans x y z h h' := by
    refine ⟨forall₂_le_trans h.1 h'.1, ?_⟩
    rintro rfl
    exact h.2 (forall₂_le_antisymm h.1 h'.1)

theorem better_cons_of_lt {a b : S} {x y : List S} (h : a < b) :
    (Better (a :: x) (b :: y) ↔ List.Forall₂ (· ≤ ·) x y) ∧ ¬ Better (b :: y) (a :: x) := by
  simp [Better, h.le, h.not_ge, h.ne]

theorem better_cons_self {a : S} {x y : List S} : Better (a :: x) (a :: y) ↔ Better x y := by
  simp [Better]

/-- What the loop returns after it saw a difference, or none. -/
theorem dominatesFrom_spec {x y : List S} (hlen : x.length = y.length) :
    (∀ b, dominatesFrom none x y = some b ↔ if b then Better x y else Better y x) ∧
    (∀ b, dominatesFrom (some true) x y = some b ↔ b = true ∧ List.Forall₂ (· ≤ ·) x y) ∧
    (∀ b, dominatesFrom (some false) x y = some b ↔ b = false ∧ List.Forall₂ (· ≤ ·) y x) := by
  induction x generalizing y with
  | nil =>
    obtain rfl : y = [] := List.length_eq_zero_iff.mp hlen.symm
    simp [dominatesFrom, Better, eq_comm]
  | cons a x ih =>
    cases y with
    | nil => cases hlen
    | cons b y =>
      obtain ⟨hnone, htrue, hfalse⟩ := ih (Nat.succ.inj hlen)
      rcases lt_trichotomy a b with h | rfl | h
      · refine ⟨fun c => ?_, fun c => ?_, fun c => ?_⟩
        · rw [dominatesFrom, if_pos h, if_neg (by simp), htrue]
          cases c <;> simp [better_cons_of_lt h]
        · rw [dominatesFrom, if_pos h, if_neg (by simp), htrue]
          simp [h.le]
        · rw [dominatesFrom, if_pos h, if_pos rfl]
          simp [h.not_ge]
      · refine ⟨fun c => ?_, fun c => ?_, fun c => ?_⟩ <;>
          rw [dominatesFrom, if_neg (lt_irrefl a), if_neg (lt_irrefl a)]
        · rw [hnone, better_cons_self, better_cons_self]
        · rw [htrue, List.forall₂_cons, and_iff_right (le_refl a)]
        · rw [hfalse, List.forall₂_cons, and_iff_right (le_refl a)]
      · refine ⟨fun c => ?_, fun c => ?_, fun c => ?_⟩
        · rw [dominatesFrom, if_neg h.not_gt, if_pos h, if_neg (by simp), hfalse]
          cases c <;> simp [better_cons_of_lt h]
        · rw [dominatesFrom, if_neg h.not_gt, if_pos h, if_pos rfl]
          simp [h.not_ge]
        · rw [dominatesFrom, if_neg h.not_gt, if_pos h, if_neg (by simp), hfalse]
          simp [h.le]

/-- On scores of one length `dominates` tells which one is better, if any. -/
theorem dominates_spec {x y : List S} (hx : x ≠ []) (hlen : x.length = y.length) :
    (dominates x y = some true ↔ Better x y) ∧ (dominates x y = some false ↔ Better y x) := by
  have hy : y ≠ [] := by
    rintro rfl
    exact hx (List.length_eq_zero_iff.mp hlen)
  rw [dominates, if_neg hx, if_neg hy]
  exact ⟨(dominatesFrom_spec hlen).1 true, (dominatesFrom_spec hlen).1 false⟩

/-! ## Merging -/

/-- One element dominates another. -/
def Dominates (a b : BscoredComboTree T S) : Prop := Better a.bscore b.bscore

instance : IsStrictOrder (BscoredComboTree T S) Dominates where
  irrefl a := irrefl_of Better a.bscore
  trans _ _ _ h h' := IsTrans.trans (r := Better) _ _ _ h h'

/-- All behavioural scores have one length, which is not zero. -/
def Comparable (l : List (BscoredComboTree T S)) : Prop :=
  ∃ n ≠ 0, ∀ m ∈ l, m.bscore.length = n

def Antichain (l : List (BscoredComboTree T S)) : Prop := ∀ a ∈ l, ∀ b ∈ l, ¬ Dominates a b

variable {c m : BscoredComboTree T S} {dst l : List (BscoredComboTree T S)}

/-- Against an antichain a candidate is either rejected, and nothing is erased, or what it
dominates goes. -/
theorem sweep_spec (hcomp : ∀ m ∈ dst, c.bscore ≠ [] ∧ c.bscore.length = m.bscore.length) :
    ((∀ m ∈ dst, ¬ Dominates m c) →
      (sweep (fun _ => true) c dst).2 = true ∧
        ∀ m, m ∈ (sweep (fun _ => true) c dst).1 ↔ m ∈ dst ∧ ¬ Dominates c m) ∧
    ((∃ m ∈ dst, Dominates m c) → (∀ m ∈ dst, ¬ Dominates c m) →
      sweep (fun _ => true) c dst = (dst, false)) := by
  induction dst with
  | nil => simp [sweep]
  | cons d dst ih =>
    obtain ⟨hc, hlen⟩ := hcomp d List.mem_cons_self
    obtain ⟨htrue, hfalse⟩ := dominates_spec hc hlen
    obtain ⟨ihkeep, ihreject⟩ := ih fun m hm => hcomp m (List.mem_cons_of_mem d hm)
    rw [sweep, if_pos rfl]
    constructor
    · intro hnone
      have hd : ¬ Dominates d c := hnone d List.mem_cons_self
      obtain ⟨hkept, hmem⟩ := ihkeep fun m hm => hnone m (List.mem_cons_of_mem d hm)
      cases hdom : dominates c.bscore d.bscore with
      | none =>
        have hcd : ¬ Dominates c d := fun h => by rw [htrue.mpr h] at hdom; cases hdom
        refine ⟨hkept, fun m => ?_⟩
        simp only [List.mem_cons, hmem]
        constructor
        · rintro (rfl | ⟨hm, h⟩)
          · exact ⟨.inl rfl, hcd⟩
          · exact ⟨.inr hm, h⟩
        · rintro ⟨rfl | hm, h⟩
          · exact .inl rfl
          · exact .inr ⟨hm, h⟩
      | some b =>
        cases b with
        | false => exact absurd (hfalse.mp hdom) hd
        | true =>
          refine ⟨hkept, fun m => (hmem m).trans ?_⟩
          rw [List.mem_cons]
          constructor
          · exact fun ⟨hm, h⟩ => ⟨.inr hm, h⟩
          · rintro ⟨rfl | hm, h⟩
            · exact absurd (htrue.mp hdom) h
            · exact ⟨hm, h⟩
    · rintro ⟨m, hm, hmc⟩ hnone
      cases hdom : dominates c.bscore d.bscore with
      | none =>
        have hdc : ¬ Dominates d c := fun h => by rw [hfalse.mpr h] at hdom; cases hdom
        have hm' : m ∈ dst := (List.mem_cons.mp hm).resolve_left fun e => hdc (e ▸ hmc)
        simp only [ihreject ⟨m, hm', hmc⟩ fun m hm => hnone m (List.mem_cons_of_mem d hm)]
      | some b =>
        cases b with
        | false => rfl
        | true => exact absurd (htrue.mp hdom) (hnone d List.mem_cons_self)

theorem sweep_sublist (examined : T → Bool) (c : BscoredComboTree T S)
    (dst : List (BscoredComboTree T S)) : (sweep examined c dst).1.Sublist dst := by
  induction dst with
  | nil => exact List.Sublist.refl _
  | cons m dst ih =>
    rw [sweep]
    split
    · split
      · exact ih.cons m
      · exact List.Sublist.refl _
      · exact ih.cons_cons m
    · exact ih.cons_cons m

/-- The metapopulation is a set in the order of its keys. -/
def KeySet (dst : List (BscoredComboTree T S)) : Prop := Strict keyCmp (dst.map key)

theorem KeySet.mergeCandidate (h : KeySet dst) (examined : T → Bool)
    (c : BscoredComboTree T S) : KeySet (mergeCandidate examined dst c) := by
  have hsweep : KeySet (sweep examined c dst).1 :=
    h.sublist ((sweep_sublist examined c dst).map key)
  rw [Merging.mergeCandidate]
  split
  · exact strict_map_insertSet hsweep
  · exact hsweep

theorem KeySet.mergeNondominating [DecidableEq T] (h : KeySet dst) (ignore : List T) (visited : Bool)
    (candidates : List (BscoredComboTree T S)) :
    KeySet (mergeNondominating candidates dst ignore visited) := by
  induction candidates generalizing dst with
  | nil => exact h
  | cons c candidates ih => exact ih (h.mergeCandidate _ c)

theorem KeySet.eq_of_key_eq {a b : BscoredComboTree T S} (h : KeySet dst) (ha : a ∈ dst)
    (hb : b ∈ dst) (hkey : key a = key b) : a = b := by
  have hnodup : (dst.map key).Nodup := List.Pairwise.imp (fun hlt e => by
    rw [e, keyCmp, compare_eq_iff_eq.mpr rfl] at hlt
    cases hlt) h
  exact List.inj_on_of_nodup_map hnodup ha hb hkey

/-- No two different elements that nothing dominates have one score and complexity. -/
def DistinctKeys (l : List (BscoredComboTree T S)) : Prop :=
  ∀ a b, Undominated Dominates l a → Undominated Dominates l b → key a = key b → a = b

/-- The members are those of the list that nothing in it dominates. -/
def Front (l dst : List (BscoredComboTree T S)) : Prop :=
  ∀ m, m ∈ dst ↔ Undominated Dominates l m

theorem front_of_antichain (h : Antichain dst) : Front dst dst :=
  fun m => ⟨fun hm => ⟨hm, fun b hb => h b hb m hm⟩, fun hm => hm.1⟩

/-- Unless its key is taken, one candidate brings the front up to date. -/
theorem Front.mergeCandidate (h : Front l dst) (hcomp : Comparable (l ++ [c]))
    (hkeys : DistinctKeys (l ++ [c])) :
    Front (l ++ [c]) (mergeCandidate (fun _ => true) dst c) := by
  obtain ⟨n, hn, hlen⟩ := hcomp
  have hc : c.bscore.length = n := hlen c (by simp)
  have hne : c.bscore ≠ [] := fun e => hn (by rw [← hc, e]; rfl)
  obtain ⟨hkeep, hreject⟩ := @sweep_spec T S _ c dst fun m hm =>
    ⟨hne, hc.trans (hlen m (List.mem_append_left _ ((h m).mp hm).1)).symm⟩
  have hdom : (∃ b ∈ l, Dominates b c) ↔ ∃ m ∈ dst, Dominates m c := by
    rw [exists_mem_iff_exists_undominated]
    exact exists_congr fun m => and_congr_left' (h m).symm
  intro m
  rw [undominated_concat, ← h, Merging.mergeCandidate]
  by_cases hd : ∃ m ∈ dst, Dominates m c
  · obtain ⟨b, hb, hbc⟩ := hd
    have hnone : ∀ m ∈ dst, ¬ Dominates c m := fun m hm hcm =>
      ((h m).mp hm).2 b ((h b).mp hb).1 (IsTrans.trans _ _ _ hbc hcm)
    obtain ⟨d, hdl, hdc⟩ := hdom.mpr ⟨b, hb, hbc⟩
    rw [hreject ⟨b, hb, hbc⟩ hnone]
    simp only [Bool.false_eq_true, if_false]
    constructor
    · exact fun hm => .inl ⟨hm, hnone m hm⟩
    · rintro (⟨hm, -⟩ | ⟨-, hall⟩)
      · exact hm
      · exact absurd hdc (hall d hdl)
  · have hd' : ∀ m ∈ dst, ¬ Dominates m c := fun m hm hmc => hd ⟨m, hm, hmc⟩
    have hl : ∀ b ∈ l, ¬ Dominates b c := fun b hb hbc => hd (hdom.mp ⟨b, hb, hbc⟩)
    obtain ⟨htrue, hmem⟩ := hkeep hd'
    simp only [htrue, if_true]
    constructor
    · intro hm
      rcases mem_insertSet hm with rfl | hm
      · exact .inr ⟨rfl, hl⟩
      · exact .inl ((hmem m).mp hm)
    · rintro (hm | ⟨rfl, -⟩)
      · exact mem_insertSet_of_mem ((hmem m).mpr hm)
      · by_cases hin : m ∈ (sweep (fun _ => true) m dst).1
        · exact mem_insertSet_of_mem hin
        · refine mem_insertSet_new fun a ha he => hin ?_
          have hund : Undominated Dominates (l ++ [m]) a := by
            rw [undominated_concat, ← h]
            exact .inl ((hmem a).mp ha)
          have hund' : Undominated Dominates (l ++ [m]) m :=
            undominated_concat.mpr (.inr ⟨rfl, hl⟩)
          rw [keyCmp, compare_eq_iff_eq] at he
          exact hkeys a m hund hund' he ▸ ha

/-! ## A sequence of candidates -/

/-- What is left after each candidate is what nothing seen so far dominates, if and only if no two
different elements with one score and complexity are ever undominated together. -/
theorem front_iff [DecidableEq T] (dst candidates : List (BscoredComboTree T S)) (ignore : List T)
    (hset : KeySet dst) (hanti : Antichain dst) (hcomp : Comparable (dst ++ candidates)) :
    (∀ merged, merged <+: candidates →
      Front (dst ++ merged) (mergeNondominating merged dst ignore false)) ↔
    ∀ merged, merged <+: candidates → DistinctKeys (dst ++ merged) := by
  constructor
  · intro h merged hm a b ha hb hkey
    exact (hset.mergeNondominating ignore false merged).eq_of_key_eq ((h merged hm a).mpr ha)
      ((h merged hm b).mpr hb) hkey
  · intro h merged
    induction merged using List.reverseRecOn with
    | nil =>
      intro _
      rw [List.append_nil]
      exact front_of_antichain hanti
    | append_singleton merged c ih =>
      intro hm
      have hfront := ih ((List.prefix_append merged [c]).trans hm)
      obtain ⟨n, hn, hlen⟩ := hcomp
      have hcomp' : Comparable (dst ++ merged ++ [c]) := by
        refine ⟨n, hn, fun m hmem => hlen m ?_⟩
        rw [List.append_assoc] at hmem
        rcases List.mem_append.mp hmem with hmem | hmem
        · exact List.mem_append_left _ hmem
        · exact List.mem_append_right _ (hm.subset hmem)
      have hkeys := h (merged ++ [c]) hm
      rw [← List.append_assoc] at hkeys ⊢
      have hstep := hfront.mergeCandidate hcomp' hkeys
      rw [mergeNondominating, List.foldl_append, List.foldl_cons, List.foldl_nil]
      exact hstep

/-! ## Two candidates -/

/-- Wrong on the second of two inputs. -/
def wrongOnSecond (tree : String) (complexity : Int) : BscoredComboTree String Int :=
  ⟨tree, [0, 1], -1, complexity⟩

/-- Wrong on the first. -/
def wrongOnFirst (tree : String) (complexity : Int) : BscoredComboTree String Int :=
  ⟨tree, [1, 0], -1, complexity⟩

theorem front_iff_two :
    (∀ merged, merged <+: [wrongOnSecond "#1" (-1)] →
      Front ([wrongOnFirst "#2" (-2)] ++ merged)
        (mergeNondominating merged [wrongOnFirst "#2" (-2)] [] false)) ↔
    ∀ merged, merged <+: [wrongOnSecond "#1" (-1)] →
      DistinctKeys ([wrongOnFirst "#2" (-2)] ++ merged) :=
  front_iff _ _ [] (by simp [KeySet, Strict]) (by simp [Antichain, Dominates, Better])
    ⟨2, by decide, by simp [wrongOnFirst, wrongOnSecond]⟩

/-- Of two candidates that do not dominate each other the second is lost, as it has the score and
complexity of the first. -/
theorem second_lost : ¬ Front ([] ++ [wrongOnSecond "#1" (-1), wrongOnFirst "#2" (-1)])
    (mergeNondominating [wrongOnSecond "#1" (-1), wrongOnFirst "#2" (-1)] [] [] false) := by
  intro h
  have hlost : wrongOnFirst "#2" (-1) ∉
      mergeNondominating [wrongOnSecond "#1" (-1), wrongOnFirst "#2" (-1)] [] [] false := by
    decide +kernel
  refine hlost ((h _).mpr ⟨by simp, ?_⟩)
  simp [Dominates, Better, wrongOnFirst, wrongOnSecond]

end Merging

end OpenCog.Moses
