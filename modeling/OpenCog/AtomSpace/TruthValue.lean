import OpenCog.AtomSpace.AtomTable

/-! Truth values and how they are merged into a stored atom. Whatever kinds meet and in
whatever order, what is left is the union of the versions with the highest confidence for
each of them. -/
namespace OpenCog

inductive IndicatorType where
  | HYPOTHETICAL | CONTEXTUAL | UNKNOWN
  deriving DecidableEq

structure VersionHandle where
  indicator : IndicatorType
  substantive : Handle
  deriving DecidableEq

/-- The floats. Only their order is relied on, and that it is a linear one. -/
class Scalar (R : Type) extends LinearOrder R, Zero R, One R, Add R, Sub R, Mul R, Div R where
  KKK : R
  DEFAULT_K : R
  /-- The least width of an interval that is divided by. -/
  minWidth : R

/-- The classes of non-null truth values. The fields of an indefinite one that are negative
are not computed yet. -/
inductive TruthValue (R : Type) where
  | simple (mean count : R)
  | count (mean confidence count : R)
  | indefinite (L U confidenceLevel diff mean count confidence : R) (symmetric : Bool)
  | composite (primaryTV : TruthValue R) (versionedTVs : List (VersionHandle × TruthValue R))

namespace TruthValue

variable {R : Type} [Scalar R]

def countToConfidence (c : R) : R := c / (c + Scalar.KKK)

/-- `IndefiniteTruthValue::getCount`. -/
def indefiniteCount (L U count : R) : R :=
  if count < 0 then
    let W := max (U - L) Scalar.minWidth
    Scalar.DEFAULT_K * (1 - W) / W
  else count

def getConfidence : TruthValue R → R
  | .simple _ n => countToConfidence n
  | .count _ confidence _ => confidence
  | .indefinite L U _ _ _ n confidence _ =>
    if confidence < 0 then
      let c := indefiniteCount L U n
      c / (c + Scalar.DEFAULT_K)
    else confidence
  | .composite primaryTV _ => primaryTV.getConfidence

/-- The one with the higher confidence, the first of two equal ones. -/
def surer (tv other : TruthValue R) : TruthValue R :=
  if other.getConfidence > tv.getConfidence then other else tv

/-- The first loop of `CompositeTruthValue::merge`: the versions that are in both. -/
def mergeCommon (versionedTVs others : List (VersionHandle × TruthValue R)) :
    List (VersionHandle × TruthValue R) :=
  versionedTVs.map fun e => (e.1, ((others.lookup e.1).map e.2.surer).getD e.2)

/-- The second loop: the versions that are in the other one only. -/
def addMissing (versionedTVs others : List (VersionHandle × TruthValue R)) :
    List (VersionHandle × TruthValue R) :=
  others.foldl (fun tvs e => if (tvs.lookup e.1).isSome then tvs else tvs ++ [e]) versionedTVs

/-- `CompositeTruthValue::merge`. -/
def mergeComposite (primaryTV : TruthValue R) (versionedTVs : List (VersionHandle × TruthValue R)) :
    TruthValue R → TruthValue R
  | .composite otherPrimary others =>
    .composite (primaryTV.surer otherPrimary) (addMissing (mergeCommon versionedTVs others) others)
  | other => .composite (primaryTV.surer other) versionedTVs

/-- `TruthValue::merge`, which hands over to a composite argument. -/
def mergeBase (tv : TruthValue R) : TruthValue R → TruthValue R
  | .composite primaryTV versionedTVs => mergeComposite primaryTV versionedTVs tv
  | other => tv.surer other

/-- The virtual `merge`. Two count values accumulate their counts and average their means. -/
def merge : TruthValue R → TruthValue R → TruthValue R
  | .composite primaryTV versionedTVs, other => mergeComposite primaryTV versionedTVs other
  | .count mean confidence n, .count mean' confidence' n' =>
    .count ((mean * n + mean' * n') / (n + n'))
      (if confidence' > confidence then confidence' else confidence) (n + n')
  | tv, other => mergeBase tv other

/-- The versioned value under a version handle. -/
def findVersion : TruthValue R → VersionHandle → Option (TruthValue R)
  | .composite _ versionedTVs, vh => versionedTVs.lookup vh
  | _, _ => none

def versionConfidence (tv : TruthValue R) (vh : VersionHandle) : Option R :=
  (tv.findVersion vh).map getConfidence

/-! ## One merge -/

theorem surer_confidence (tv other : TruthValue R) :
    (tv.surer other).getConfidence = max tv.getConfidence other.getConfidence := by
  unfold surer
  split
  · rename_i h
    exact (max_eq_right h.le).symm
  · rename_i h
    exact (max_eq_left (not_lt.mp h)).symm

theorem mergeComposite_confidence (primaryTV : TruthValue R)
    (versionedTVs : List (VersionHandle × TruthValue R)) (other : TruthValue R) :
    (mergeComposite primaryTV versionedTVs other).getConfidence =
      max primaryTV.getConfidence other.getConfidence := by
  cases other <;> exact surer_confidence _ _

theorem mergeBase_confidence (tv other : TruthValue R) :
    (tv.mergeBase other).getConfidence = max tv.getConfidence other.getConfidence := by
  cases other with
  | composite primaryTV versionedTVs =>
    exact (mergeComposite_confidence primaryTV versionedTVs tv).trans (max_comm _ _)
  | _ => exact surer_confidence tv _

theorem merge_count_of_ne {mean confidence n : R} {other : TruthValue R}
    (h : ∀ mean' confidence' n', other ≠ .count mean' confidence' n') :
    (count mean confidence n).merge other = (count mean confidence n).mergeBase other := by
  cases other with
  | count => exact absurd rfl (h _ _ _)
  | _ => rfl

theorem merge_confidence (tv other : TruthValue R) :
    (tv.merge other).getConfidence = max tv.getConfidence other.getConfidence := by
  cases tv with
  | composite primaryTV versionedTVs => exact mergeComposite_confidence _ _ other
  | count mean confidence n =>
    cases other with
    | count mean' confidence' n' =>
      exact (max_def_lt confidence confidence').symm
    | _ =>
      rw [merge_count_of_ne (by simp)]
      exact mergeBase_confidence _ _
  | _ => exact mergeBase_confidence _ other

theorem lookup_mergeCommon (versionedTVs others : List (VersionHandle × TruthValue R))
    (vh : VersionHandle) : (mergeCommon versionedTVs others).lookup vh =
      (versionedTVs.lookup vh).map fun tv => ((others.lookup vh).map tv.surer).getD tv := by
  induction versionedTVs with
  | nil => rfl
  | cons e versionedTVs ih =>
    obtain ⟨key, tv⟩ := e
    rw [mergeCommon, List.map_cons, List.lookup_cons, List.lookup_cons]
    by_cases he : vh = key
    · subst he
      simp
    · simp only [beq_eq_false_iff_ne.mpr he]
      exact ih

omit [Scalar R] in
theorem lookup_addMissing (versionedTVs others : List (VersionHandle × TruthValue R))
    (vh : VersionHandle) : (addMissing versionedTVs others).lookup vh =
      (versionedTVs.lookup vh).or (others.lookup vh) := by
  unfold addMissing
  induction others generalizing versionedTVs with
  | nil => simp
  | cons e others ih =>
    obtain ⟨key, tv⟩ := e
    rw [List.foldl_cons, ih, List.lookup_cons]
    by_cases he : vh = key
    · subst he
      cases hl : versionedTVs.lookup vh <;> simp [hl, List.lookup_append]
    · simp only [beq_eq_false_iff_ne.mpr he]
      split
      · rfl
      · rw [List.lookup_append, List.lookup_cons]
        simp [beq_eq_false_iff_ne.mpr he]

theorem mergeComposite_version (primaryTV : TruthValue R)
    (versionedTVs : List (VersionHandle × TruthValue R)) (other : TruthValue R)
    (vh : VersionHandle) : (mergeComposite primaryTV versionedTVs other).versionConfidence vh =
      Option.merge max ((composite primaryTV versionedTVs).versionConfidence vh)
        (other.versionConfidence vh) := by
  cases other with
  | composite otherPrimary others =>
    simp only [mergeComposite, versionConfidence, findVersion, lookup_addMissing,
      lookup_mergeCommon]
    cases versionedTVs.lookup vh with
    | none => cases others.lookup vh <;> rfl
    | some tv =>
      cases others.lookup vh with
      | none => rfl
      | some other => exact congrArg some (surer_confidence tv other)
  | _ =>
    simp only [mergeComposite, versionConfidence, findVersion]
    cases versionedTVs.lookup vh <;> rfl

theorem mergeBase_version (tv other : TruthValue R) (hplain : tv.findVersion = fun _ => none)
    (vh : VersionHandle) : (tv.mergeBase other).versionConfidence vh =
      Option.merge max (tv.versionConfidence vh) (other.versionConfidence vh) := by
  have hnone : tv.versionConfidence vh = none := by rw [versionConfidence, hplain]; rfl
  cases other with
  | composite primaryTV versionedTVs =>
    rw [mergeBase, mergeComposite_version, hnone]
    cases (composite primaryTV versionedTVs).versionConfidence vh <;> rfl
  | _ =>
    change (tv.surer _).versionConfidence vh = _
    rw [hnone]
    unfold surer
    split
    · rfl
    · exact hnone

/-- For each version the confidence of a merge is the higher one, of those there are. -/
theorem merge_version (tv other : TruthValue R) (vh : VersionHandle) :
    (tv.merge other).versionConfidence vh =
      Option.merge max (tv.versionConfidence vh) (other.versionConfidence vh) := by
  cases tv with
  | composite primaryTV versionedTVs => exact mergeComposite_version _ _ other vh
  | count mean confidence n =>
    cases other with
    | count => rfl
    | _ =>
      rw [merge_count_of_ne (by simp)]
      exact mergeBase_version _ _ rfl vh
  | _ => exact mergeBase_version _ other rfl vh

/-! ## Merging one after another -/

/-- What a collection of truth values is merged to: all their versions, and for the primary
value and each version the highest confidence of the collection. -/
structure Merged (m : TruthValue R) (tvs : List (TruthValue R)) : Prop where
  versions : ∀ vh, (m.findVersion vh).isSome ↔ ∃ tv ∈ tvs, (tv.findVersion vh).isSome
  primary : IsGreatest {c | ∃ tv ∈ tvs, tv.getConfidence = c} m.getConfidence
  versioned : ∀ vh c, m.versionConfidence vh = some c →
    IsGreatest {c | ∃ tv ∈ tvs, tv.versionConfidence vh = some c} c

theorem version_isSome (tv : TruthValue R) (vh : VersionHandle) :
    (tv.versionConfidence vh).isSome = (tv.findVersion vh).isSome := by
  rw [versionConfidence, Option.isSome_map]

theorem Merged.single (tv : TruthValue R) : Merged tv [tv] where
  versions vh := by simp
  primary := ⟨⟨tv, List.mem_singleton_self tv, rfl⟩, fun c ⟨tv', htv, he⟩ => by
    rw [← he, List.mem_singleton.mp htv]⟩
  versioned vh c hc := ⟨⟨tv, List.mem_singleton_self tv, hc⟩, fun c' ⟨tv', htv, he⟩ => by
    rw [List.mem_singleton.mp htv, hc] at he
    exact (Option.some.inj he).ge⟩

/-- One more value. -/
theorem Merged.merge {m : TruthValue R} {tvs : List (TruthValue R)} (hm : Merged m tvs)
    (tv : TruthValue R) : Merged (m.merge tv) (tvs ++ [tv]) where
  versions vh := by
    rw [← version_isSome, merge_version]
    have hold := hm.versions vh
    rw [← version_isSome] at hold
    simp only [List.mem_append, List.mem_singleton, or_and_right, exists_or, exists_eq_left,
      ← hold, ← version_isSome tv]
    cases m.versionConfidence vh <;> cases tv.versionConfidence vh <;> simp
  primary := by
    rw [merge_confidence]
    have h := hm.primary.union (Merged.single tv).primary
    convert h using 1
    ext c
    simp only [List.mem_append, or_and_right, exists_or, Set.mem_ofPred_eq, Set.mem_union]
  versioned vh c hc := by
    rw [merge_version] at hc
    have hset : {c | ∃ x ∈ tvs ++ [tv], x.versionConfidence vh = some c} =
        {c | ∃ x ∈ tvs, x.versionConfidence vh = some c} ∪
          {c | ∃ x ∈ [tv], x.versionConfidence vh = some c} := by
      ext c
      simp only [List.mem_append, or_and_right, exists_or, Set.mem_ofPred_eq, Set.mem_union]
    -- a side without the version adds nothing
    have habsent : ∀ {n : TruthValue R} {l : List (TruthValue R)}, Merged n l →
        n.versionConfidence vh = none →
          {c | ∃ x ∈ l, x.versionConfidence vh = some c} = ∅ := by
      intro n l hn hnone
      apply Set.eq_empty_iff_forall_notMem.mpr
      rintro c ⟨x, hx, hxc⟩
      have hsome : (n.findVersion vh).isSome = true := by
        rw [hn.versions]
        exact ⟨x, hx, by rw [← version_isSome, hxc]; rfl⟩
      rw [← version_isSome, hnone] at hsome
      cases hsome
    rw [hset]
    cases hmv : m.versionConfidence vh with
    | none =>
      rw [hmv, Option.merge_none_left] at hc
      rw [habsent hm hmv, Set.empty_union]
      exact (Merged.single tv).versioned vh c hc
    | some a =>
      cases htv : tv.versionConfidence vh with
      | none =>
        rw [hmv, htv, Option.merge_none_right] at hc
        rw [habsent (Merged.single tv) htv, Set.union_empty]
        exact hm.versioned vh c (hmv.trans hc)
      | some b =>
        rw [hmv, htv] at hc
        obtain rfl := Option.some.inj hc
        exact (hm.versioned vh a hmv).union ((Merged.single tv).versioned vh b htv)

/-- The order of the collection is nothing to the result. -/
theorem Merged.perm {m : TruthValue R} {tvs tvs' : List (TruthValue R)} (hm : Merged m tvs)
    (hp : tvs.Perm tvs') : Merged m tvs' := by
  have hmem : ∀ tv, tv ∈ tvs' ↔ tv ∈ tvs := fun tv => hp.mem_iff.symm
  refine ⟨fun vh => ?_, ?_, fun vh c hc => ?_⟩
  · simpa only [hmem] using hm.versions vh
  · simpa only [hmem] using hm.primary
  · simpa only [hmem] using hm.versioned vh c hc

end TruthValue

/-! ## Merging into a stored atom -/

namespace TruthValue

variable {R : Type} [Scalar R]

/-- Truth values of atoms, with `NULL_TV` as the absent one; merging with it throws. -/
def ops : TruthOps (Option (TruthValue R)) where
  isNullTv tv := tv.isNone
  merge tv other := tv.bind fun tv => other.map tv.merge
  defaultTv := some (.simple 0 0)

/-- The same atom is added again with each of these values. -/
def mergeAll (s : AtomTable (Option (TruthValue R))) (h : Handle) (tvs : List (TruthValue R)) :
    AtomTable (Option (TruthValue R)) :=
  tvs.foldl (fun s tv => s.merge ops h (some tv)) s

theorem merge_stored {s : AtomTable (Option (TruthValue R))} {h : Handle}
    {a : Atom (Option (TruthValue R))} (hv : s.isValidHandle h = true)
    (ha : s.handleMap h = some a) (tv : TruthValue R) :
    (s.merge ops h (some tv)).isValidHandle h = true ∧
      (s.merge ops h (some tv)).handleMap h =
        some { a with truthValue := some ((a.truthValue.map (merge · tv)).getD tv) } := by
  have hmap : (s.merge ops h (some tv)).handleMap h =
      some { a with truthValue := some ((a.truthValue.map (merge · tv)).getD tv) } := by
    unfold AtomTable.merge AtomTable.modify
    simp only [hv, ops, Option.isNone_some, Bool.not_false, Bool.and_self, if_true, ha,
      Option.map_some]
    cases a.truthValue <;> rfl
  refine ⟨?_, hmap⟩
  have hlt : h < (s.merge ops h (some tv)).brkUuid := by
    rw [AtomTable.isValidHandle, Bool.and_eq_true, decide_eq_true_eq] at hv
    unfold AtomTable.merge
    split
    · exact hv.1
    · exact hv.1
  rw [AtomTable.isValidHandle, hmap, Option.isSome_some, Bool.and_true]
  exact decide_eq_true hlt

theorem mergeAll_merged {s : AtomTable (Option (TruthValue R))} {h : Handle}
    {a : Atom (Option (TruthValue R))} {m : TruthValue R} {seen tvs : List (TruthValue R)}
    (hv : s.isValidHandle h = true) (ha : s.handleMap h = some a) (hm : a.truthValue = some m)
    (hmerged : Merged m seen) :
    ∃ a' m', (mergeAll s h tvs).handleMap h = some a' ∧ a'.truthValue = some m' ∧
      Merged m' (seen ++ tvs) := by
  induction tvs generalizing s a m seen with
  | nil => exact ⟨a, m, ha, hm, by rwa [List.append_nil]⟩
  | cons tv tvs ih =>
    obtain ⟨hv', ha'⟩ := merge_stored hv ha tv
    rw [hm] at ha'
    obtain ⟨a', m', hstored, htv, hmerged'⟩ := ih hv' ha' rfl (hmerged.merge tv)
    refine ⟨a', m', hstored, htv, ?_⟩
    rwa [List.append_assoc] at hmerged'

/-- A collection of truth values, of which the atom may have one already, is merged into the
atom in any order: the versions are those of the collection, and the primary value and each
version have the highest confidence that the collection has for them. -/
theorem merging_is_order_free (s : AtomTable (Option (TruthValue R))) (h : Handle)
    (a : Atom (Option (TruthValue R))) (hv : s.isValidHandle h = true)
    (ha : s.handleMap h = some a) (collection order : List (TruthValue R))
    (hne : collection ≠ []) (hp : (a.truthValue.toList ++ order).Perm collection) :
    ∃ a' m, (mergeAll s h order).handleMap h = some a' ∧ a'.truthValue = some m ∧
      Merged m collection := by
  cases hcur : a.truthValue with
  | some tv =>
    rw [hcur] at hp
    obtain ⟨a', m, hstored, hm, hmerged⟩ := mergeAll_merged hv ha hcur (Merged.single tv)
    exact ⟨a', m, hstored, hm, hmerged.perm hp⟩
  | none =>
    rw [hcur] at hp
    cases order with
    | nil => exact absurd hp.symm.eq_nil hne
    | cons tv order =>
      obtain ⟨hv', ha'⟩ := merge_stored hv ha tv
      rw [hcur] at ha'
      obtain ⟨a', m, hstored, hm, hmerged⟩ := mergeAll_merged hv' ha' rfl (Merged.single tv)
      exact ⟨a', m, hstored, hm, hmerged.perm hp⟩

/-- Exact arithmetic with the constants of the code. -/
scoped instance : Scalar ℚ where
  KKK := 800
  DEFAULT_K := 2
  minWidth := 1 / 10000000

/-- A node that is known with confidence 1/9. -/
def oneNode : AtomTable (Option (TruthValue ℚ)) :=
  (AtomTable.empty.add ops (Atom.init ops CONCEPT_NODE (.node "dog") (some (.simple 1 100))) false).1

/-- A count value and then a composite one are merged into it. -/
theorem merging_into_oneNode :
    ∃ a' m, (mergeAll oneNode 1 [.count 1 (1 / 2) 10,
        .composite (.simple 0 0) [(⟨.CONTEXTUAL, 1⟩, .simple 1 200)]]).handleMap 1 = some a' ∧
      a'.truthValue = some m ∧
      Merged m [.composite (.simple 0 0) [(⟨.CONTEXTUAL, 1⟩, .simple 1 200)], .simple 1 100,
        .count 1 (1 / 2) 10] := by
  obtain ⟨a, ha, htv⟩ : ∃ a, oneNode.handleMap 1 = some a ∧
      a.truthValue = some (.simple 1 100) := ⟨_, rfl, rfl⟩
  apply merging_is_order_free oneNode 1 a rfl ha _ _ (List.cons_ne_nil _ _)
  rw [htv]
  exact @List.perm_append_comm _ [simple 1 100, count 1 (1 / 2) 10] [_]

end TruthValue

end OpenCog
