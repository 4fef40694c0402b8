import Mathlib
import OpenCog.Comboreduct.Combo.TypeTree

/-! `get_intersection`, with the reduction of types and the set of types in order of size that
it uses. How an application reduces is a parameter. -/
namespace OpenCog.Comboreduct.Combo.TypeTree

variable (reduceApplication : List TypeTree → TypeTree)

/-! ## Reduction -/

/-- The loop over a union: a type that inherits from one that is still there is erased. -/
def dropInherited (before : List TypeTree) : List TypeTree → List TypeTree
  | [] => before
  | t :: rest =>
    if (before ++ rest).any (inheritTypeTree t) then dropInherited before rest
    else dropInherited (before ++ [t]) rest

def unionOf : List TypeTree → TypeTree
  | [t] => t
  | ts => union ts

/-- `reduce_type_tree` without types for the arguments, which makes them unknown. -/
def reduceTypeTree : TypeTree → TypeTree
  | lambda is o =>
    if is = [] then reduceTypeTree o
    else lambda (is.attach.map fun i => reduceTypeTree i.1) (reduceTypeTree o)
  | application ts => reduceApplication ts
  | union ts => unionOf (dropInherited [] (ts.attach.map fun t => reduceTypeTree t.1))
  | argList t => argList (reduceTypeTree t)
  | elementary (.argument _) => unknown
  | elementary n => elementary n
  | unknown => unknown
  | illFormed => illFormed
termination_by t => sizeOf t
decreasing_by
  · simp only [lambda.sizeOf_spec]
    omega
  · have := List.sizeOf_lt_of_mem i.2
    simp only [lambda.sizeOf_spec]
    omega
  · simp only [lambda.sizeOf_spec]
    omega
  · have := List.sizeOf_lt_of_mem t.2
    simp only [union.sizeOf_spec]
    omega
  · simp only [argList.sizeOf_spec]
    omega

def isWellFormed : TypeTree → Bool
  | lambda is o => is.attach.all (fun i => isWellFormed i.1) && isWellFormed o
  | application ts => ts.attach.all fun t => isWellFormed t.1
  | union ts => ts.attach.all fun t => isWellFormed t.1
  | argList t => isWellFormed t
  | elementary _ => true
  | unknown => true
  | illFormed => false
termination_by t => sizeOf t
decreasing_by
  · have := List.sizeOf_lt_of_mem i.2
    simp only [lambda.sizeOf_spec]
    omega
  · simp only [lambda.sizeOf_spec]
    omega
  · have := List.sizeOf_lt_of_mem t.2
    simp only [application.sizeOf_spec]
    omega
  · have := List.sizeOf_lt_of_mem t.2
    simp only [union.sizeOf_spec]
    omega
  · simp only [argList.sizeOf_spec]
    omega

/-! ## The set of intersections -/

def elementaryRank : Elementary → Nat
  | .boolean => 4
  | .contin => 5
  | .actionResult => 6
  | .definiteObject => 7
  | .actionDefiniteObject => 8
  | .indefiniteObject => 9
  | .message => 10
  | .actionSymbol => 11
  | .wildCard => 12
  | .ann => 13
  | .argument n => 16 + n

/-- The number of a root in the enumeration of type nodes. -/
def rank : TypeTree → Nat
  | lambda _ _ => 0
  | application _ => 1
  | union _ => 2
  | argList _ => 3
  | elementary n => elementaryRank n
  | unknown => 14
  | illFormed => 15

def children : TypeTree → List TypeTree
  | lambda is o => is ++ [o]
  | application ts => ts
  | union ts => ts
  | argList t => [t]
  | _ => []

theorem sizeOf_children {s t : TypeTree} (h : s ∈ t.children) : sizeOf s < sizeOf t := by
  cases t with
  | lambda is o =>
    simp only [lambda.sizeOf_spec]
    rcases List.mem_append.mp h with h | h
    · have := List.sizeOf_lt_of_mem h
      omega
    · obtain rfl := List.mem_singleton.mp h
      omega
  | application ts | union ts =>
    have : s ∈ ts := h
    have := List.sizeOf_lt_of_mem this
    simp only [application.sizeOf_spec, union.sizeOf_spec]
    omega
  | argList t =>
    obtain rfl := List.mem_singleton.mp h
    simp only [argList.sizeOf_spec]
    omega
  | _ => cases h

def numNodes (t : TypeTree) : Nat :=
  (t.children.attach.map fun s => numNodes s.1).sum + 1
termination_by sizeOf t
decreasing_by exact sizeOf_children s.2

/-- The comparison of siblings, `cmp` of two of them given. -/
def cmpSiblings : (l₁ l₂ : List TypeTree) → (∀ s ∈ l₁, TypeTree → Ordering) → Ordering
  | [], [], _ => .eq
  | [], _ :: _, _ => .lt
  | _ :: _, [], _ => .gt
  | s₁ :: r₁, s₂ :: r₂, cmp =>
    (cmp s₁ List.mem_cons_self s₂).then
      (cmpSiblings r₁ r₂ fun s hs => cmp s (List.mem_cons_of_mem _ hs))

/-- `lexicographic_subtree_order` -/
def cmp (t₁ t₂ : TypeTree) : Ordering :=
  (compare t₁.rank t₂.rank).then
    (cmpSiblings t₁.children t₂.children fun s _ => cmp s)
termination_by sizeOf t₁
decreasing_by exact sizeOf_children ‹_›

/-- `size_tree_order` -/
def sizeLess (t₁ t₂ : TypeTree) : Bool :=
  if numNodes t₁ = numNodes t₂ then cmp t₁ t₂ = .lt else numNodes t₁ < numNodes t₂

/-- Insertion into a set in that order. -/
def insertType (t : TypeTree) : List TypeTree → List TypeTree
  | [] => [t]
  | s :: set =>
    if sizeLess t s then t :: s :: set
    else if sizeLess s t then s :: insertType t set
    else s :: set

/-! ## The intersection -/

def typeOfSet : List TypeTree → TypeTree
  | [] => illFormed
  | [t] => t
  | set => union set

def getIntersection (t₁ t₂ : TypeTree) : TypeTree :=
  if inheritTypeTree t₁ t₂ then t₁
  else if inheritTypeTree t₂ t₁ then t₂
  else match t₁, t₂ with
  | union ts₁, union ts₂ =>
    let inters := ts₁.attach.flatMap fun s₁ => ts₂.attach.map fun s₂ =>
      getIntersection s₁.1 s₂.1
    typeOfSet ((inters.filter isWellFormed).foldl (fun set t => insertType t set) [])
  | lambda is₁ o₁, lambda is₂ o₂ =>
    if is₁.length = is₂.length then
      reduceTypeTree reduceApplication
        (lambda (is₁.zipWith (fun s₁ s₂ => union [s₁, s₂]) is₂) (getIntersection o₁ o₂))
    else illFormed
  | unknown, _ => t₂
  | _, unknown => t₁
  | _, _ => illFormed
termination_by sizeOf t₁ + sizeOf t₂
decreasing_by
  · have h₁ := List.sizeOf_lt_of_mem s₁.2
    have h₂ := List.sizeOf_lt_of_mem s₂.2
    simp only [union.sizeOf_spec]
    omega
  · simp only [lambda.sizeOf_spec]
    omega

/-! ## Reduced types without variables -/

/-- A plain type without arguments in which every lambda has an input. -/
inductive Ground : TypeTree → Prop
  | lambda {is : List TypeTree} {o : TypeTree} :
      is ≠ [] → (∀ i ∈ is, Ground i) → Ground o → Ground (lambda is o)
  | union {ts : List TypeTree} : ts ≠ [] → (∀ t ∈ ts, Ground t) → Ground (union ts)
  | argList {t : TypeTree} : Ground t → Ground (argList t)
  | elementary {n : Elementary} : (∀ m, n ≠ .argument m) → Ground (elementary n)

variable {a b c s t r : TypeTree} {ts l is is₁ is₂ : List TypeTree} {o o₁ o₂ : TypeTree}

theorem Ground.plain (h : Ground t) : Plain t := by
  induction h with
  | lambda _ _ _ ihi iho => exact .lambda ihi iho
  | union hne _ ih => exact .union hne ih
  | argList _ ih => exact .argList ih
  | elementary _ => exact .elementary _

theorem reduce_lambda (h : is ≠ []) : reduceTypeTree reduceApplication (lambda is o) =
    lambda (is.map (reduceTypeTree reduceApplication)) (reduceTypeTree reduceApplication o) := by
  rw [reduceTypeTree, if_neg h, List.map_attach_eq_pmap, List.pmap_eq_map]

theorem reduce_union : reduceTypeTree reduceApplication (union ts) =
    unionOf (dropInherited [] (ts.map (reduceTypeTree reduceApplication))) := by
  rw [reduceTypeTree, List.map_attach_eq_pmap, List.pmap_eq_map]

theorem mem_dropInherited (h : t ∈ dropInherited l ts) : t ∈ l ∨ t ∈ ts := by
  induction ts generalizing l with
  | nil => exact .inl h
  | cons s ts ih =>
    rw [dropInherited] at h
    split at h
    · exact (ih h).imp_right (List.mem_cons_of_mem _)
    · rcases ih h with h | h
      · rcases List.mem_append.mp h with h | h
        · exact .inl h
        · obtain rfl := List.mem_singleton.mp h
          exact .inr List.mem_cons_self
      · exact .inr (List.mem_cons_of_mem _ h)

/-- Each type of the union inherits from one that is left. -/
theorem dropInherited_covers (hl : ∀ t ∈ l, Plain t) (hts : ∀ t ∈ ts, Plain t)
    (h : t ∈ l ∨ t ∈ ts) : ∃ s ∈ dropInherited l ts, inheritTypeTree t s = true := by
  induction ts generalizing l t with
  | nil =>
    have h : t ∈ l := by simpa using h
    exact ⟨t, h, inherits_refl (hl t h)⟩
  | cons x ts ih =>
    have hx := hts x List.mem_cons_self
    have hrest : ∀ t ∈ ts, Plain t := fun t ht => hts t (List.mem_cons_of_mem _ ht)
    rw [dropInherited]
    split
    · next hdrop =>
      obtain ⟨y, hy, hxy⟩ := List.any_eq_true.mp hdrop
      rw [List.mem_append] at hy
      have hkeep : t ∈ l ∨ t ∈ ts → ∃ s ∈ dropInherited l ts, inheritTypeTree t s = true :=
        ih hl hrest
      by_cases he : t = x
      · subst he
        obtain ⟨s, hs, hys⟩ := ih hl hrest hy
        have hyp : Plain y := hy.elim (hl y) (hrest y)
        have hsp : Plain s := (mem_dropInherited hs).elim (hl s) (hrest s)
        exact ⟨s, hs, inherits_trans hx hyp hsp hxy hys⟩
      · exact hkeep (h.imp_right fun h => (List.mem_cons.mp h).resolve_left he)
    · refine ih (fun t ht => ?_) hrest ?_
      · rcases List.mem_append.mp ht with ht | ht
        · exact hl t ht
        · exact List.mem_singleton.mp ht ▸ hx
      · rcases h with h | h
        · exact .inl (List.mem_append_left _ h)
        · rcases List.mem_cons.mp h with rfl | h
          · exact .inl (List.mem_append_right _ List.mem_cons_self)
          · exact .inr h

theorem unionOf_inherits :
    inheritTypeTree (unionOf ts) c = true ↔ ∀ t ∈ ts, inheritTypeTree t c = true := by
  unfold unionOf
  split
  · simp
  · exact union_inherits

theorem inherits_unionOf (ha : Plain a) (hs : s ∈ ts) (h : inheritTypeTree a s = true) :
    inheritTypeTree a (unionOf ts) = true := by
  unfold unionOf
  split
  · exact List.mem_singleton.mp hs ▸ h
  · exact inherits_union_of_mem ha hs h

theorem ground_unionOf (hne : ts ≠ []) (h : ∀ t ∈ ts, Ground t) : Ground (unionOf ts) := by
  unfold unionOf
  split
  · exact h _ List.mem_cons_self
  · exact .union hne h

/-- Reduction leaves an equal type. -/
theorem reduce_equal (h : Ground t) :
    Ground (reduceTypeTree reduceApplication t) ∧
    inheritTypeTree (reduceTypeTree reduceApplication t) t = true ∧
    inheritTypeTree t (reduceTypeTree reduceApplication t) = true := by
  induction h with
  | @lambda is o hne hi ho ihi iho =>
    obtain ⟨hground, hbelow, habove⟩ := iho
    rw [reduce_lambda _ hne]
    refine ⟨.lambda (by simpa using hne) ?_ hground,
      lambda_inherits.mpr ⟨List.length_map _, fun k s₁ s₂ h₁ h₂ => .inl ?_, hbelow⟩,
      lambda_inherits.mpr ⟨(List.length_map _).symm, fun k s₁ s₂ h₁ h₂ => .inl ?_, habove⟩⟩
    · rintro _ h
      obtain ⟨i, hi, rfl⟩ := List.mem_map.mp h
      exact (ihi i hi).1
    · rw [List.getElem?_map, h₂] at h₁
      obtain rfl := Option.some.inj h₁
      exact (ihi s₂ (List.mem_of_getElem? h₂)).2.2
    · rw [List.getElem?_map, h₁] at h₂
      obtain rfl := Option.some.inj h₂
      exact (ihi s₁ (List.mem_of_getElem? h₁)).2.1
  | @union ts hne hts ih =>
    rw [reduce_union]
    have hmap : ∀ t ∈ ts.map (reduceTypeTree reduceApplication), Ground t := by
      rintro _ h
      obtain ⟨t, ht, rfl⟩ := List.mem_map.mp h
      exact (ih t ht).1
    have hcover : ∀ t ∈ ts, ∃ s ∈ dropInherited [] (ts.map (reduceTypeTree reduceApplication)),
        inheritTypeTree (reduceTypeTree reduceApplication t) s = true := fun t ht =>
      dropInherited_covers nofun (fun t ht => (hmap t ht).plain)
        (.inr (List.mem_map_of_mem ht))
    have hmem : ∀ s ∈ dropInherited [] (ts.map (reduceTypeTree reduceApplication)),
        s ∈ ts.map (reduceTypeTree reduceApplication) := fun s hs =>
      (mem_dropInherited hs).resolve_left nofun
    refine ⟨ground_unionOf ?_ fun s hs => hmap s (hmem s hs), unionOf_inherits.mpr fun s hs => ?_,
      union_inherits.mpr fun t ht => ?_⟩
    · obtain ⟨t, ht⟩ := List.exists_mem_of_ne_nil _ hne
      obtain ⟨s, hs, -⟩ := hcover t ht
      exact List.ne_nil_of_mem hs
    · obtain ⟨t, ht, rfl⟩ := List.mem_map.mp (hmem s hs)
      exact inherits_union_of_mem (hmap _ (hmem _ hs)).plain ht (ih t ht).2.1
    · obtain ⟨s, hs, hts'⟩ := hcover t ht
      have hreduced := (ih t ht).1.plain
      exact inherits_unionOf (hts t ht).plain hs
        (inherits_trans (hts t ht).plain hreduced (hmap s (hmem s hs)).plain (ih t ht).2.2 hts')
  | argList _ ih =>
    rw [reduceTypeTree, argList_inherits, argList_inherits]
    exact ⟨.argList ih.1, ih.2⟩
  | @elementary n hn =>
    have hstay : reduceTypeTree reduceApplication (.elementary n) = .elementary n := by
      rw [reduceTypeTree]
      exact hn
    rw [hstay]
    exact ⟨.elementary hn, inherits_refl (.elementary n), inherits_refl (.elementary n)⟩

/-! ## Ill-formed results -/

/-- The type, or the output of the function that it is, is ill-formed. -/
inductive IllOutput : TypeTree → Prop
  | illFormed : IllOutput illFormed
  | lambda {is : List TypeTree} {o : TypeTree} : is ≠ [] → IllOutput o → IllOutput (lambda is o)

theorem IllOutput.not_wellFormed (h : IllOutput t) : isWellFormed t = false := by
  induction h with
  | illFormed => rw [isWellFormed]
  | lambda _ _ ih => rw [isWellFormed, ih, Bool.and_false]

theorem IllOutput.reduce (h : IllOutput t) : IllOutput (reduceTypeTree reduceApplication t) := by
  induction h with
  | illFormed =>
    rw [reduceTypeTree]
    exact .illFormed
  | lambda hne _ ih =>
    rw [reduce_lambda _ hne]
    exact .lambda (by simpa using hne) ih

/-! ## The lower bound -/

/-- A type below both, or no type. -/
def LowerBound (r a b : TypeTree) : Prop :=
  Ground r ∧ inheritTypeTree r a = true ∧ inheritTypeTree r b = true ∨ IllOutput r

theorem mem_insertType (h : r ∈ insertType t l) : r = t ∨ r ∈ l := by
  induction l with
  | nil => exact .inl (List.mem_singleton.mp h)
  | cons s l ih =>
    rw [insertType] at h
    split at h
    · exact List.mem_cons.mp h
    · split at h
      · rcases List.mem_cons.mp h with rfl | h
        · exact .inr List.mem_cons_self
        · exact (ih h).imp_right (List.mem_cons_of_mem _)
      · exact .inr h

theorem mem_foldl_insertType (h : r ∈ ts.foldl (fun set t => insertType t set) l) :
    r ∈ l ∨ r ∈ ts := by
  induction ts generalizing l with
  | nil => exact .inl h
  | cons t ts ih =>
    rcases ih h with h | h
    · rcases mem_insertType h with rfl | h
      · exact .inr List.mem_cons_self
      · exact .inl h
    · exact .inr (List.mem_cons_of_mem _ h)

theorem lowerBound_set (h : ∀ r ∈ ts, Ground r ∧ inheritTypeTree r a = true ∧
    inheritTypeTree r b = true) : LowerBound (typeOfSet ts) a b := by
  unfold typeOfSet
  split
  · exact .inr .illFormed
  · exact .inl (h _ List.mem_cons_self)
  · next hne _ =>
    exact .inl ⟨.union hne fun r hr => (h r hr).1, union_inherits.mpr fun r hr => (h r hr).2.1,
      union_inherits.mpr fun r hr => (h r hr).2.2⟩

theorem lowerBound_lambda (hlen : is₁.length = is₂.length)
    (ha : Ground (.lambda is₁ o₁)) (hb : Ground (.lambda is₂ o₂)) (h : LowerBound r o₁ o₂) :
    LowerBound (reduceTypeTree reduceApplication
      (lambda (is₁.zipWith (fun s₁ s₂ => union [s₁, s₂]) is₂) r)) (lambda is₁ o₁)
      (lambda is₂ o₂) := by
  have hpa := ha.plain
  have hpb := hb.plain
  cases ha with | lambda hne hi₁ ho₁ =>
  cases hb with | lambda _ hi₂ ho₂ =>
  have hin : ∀ u ∈ is₁.zipWith (fun s₁ s₂ => union [s₁, s₂]) is₂, Ground u := by
    intro u hu
    obtain ⟨k, hk⟩ := List.mem_iff_getElem?.mp hu
    obtain ⟨x, y, hx, hy, rfl⟩ := List.getElem?_zipWith_eq_some.mp hk
    refine .union (List.cons_ne_nil _ _) fun t ht => ?_
    rcases List.mem_cons.mp ht with rfl | ht
    · exact hi₁ _ (List.mem_of_getElem? hx)
    · exact List.mem_singleton.mp ht ▸ hi₂ _ (List.mem_of_getElem? hy)
  have hne' : is₁.zipWith (fun s₁ s₂ => union [s₁, s₂]) is₂ ≠ [] := by
    intro hnil
    have := congrArg List.length hnil
    rw [List.length_zipWith, hlen, Nat.min_self, List.length_nil] at this
    exact hne (List.length_eq_zero_iff.mp (hlen.trans this))
  rcases h with ⟨hr, h₁, h₂⟩ | hill
  · have hground : Ground (.lambda (is₁.zipWith (fun s₁ s₂ => union [s₁, s₂]) is₂) r) :=
      .lambda hne' hin hr
    obtain ⟨hreduced, hbelow, -⟩ := reduce_equal reduceApplication hground
    refine .inl ⟨hreduced, inherits_trans hreduced.plain hground.plain hpa hbelow ?_,
      inherits_trans hreduced.plain hground.plain hpb hbelow ?_⟩
    · refine lambda_inherits.mpr ⟨by simp [hlen], fun k u s hu hs => .inl ?_, h₁⟩
      obtain ⟨x, y, hx, -, rfl⟩ := List.getElem?_zipWith_eq_some.mp hu
      obtain rfl := Option.some.inj (hx.symm.trans hs)
      have hx := (hi₁ _ (List.mem_of_getElem? hx)).plain
      exact inherits_union_of_mem hx List.mem_cons_self (inherits_refl hx)
    · refine lambda_inherits.mpr ⟨by simp [hlen], fun k u s hu hs => .inl ?_, h₂⟩
      obtain ⟨x, y, -, hy, rfl⟩ := List.getElem?_zipWith_eq_some.mp hu
      obtain rfl := Option.some.inj (hy.symm.trans hs)
      have hy := (hi₂ _ (List.mem_of_getElem? hy)).plain
      exact inherits_union_of_mem hy (List.mem_cons_of_mem _ List.mem_cons_self)
        (inherits_refl hy)
  · exact .inr (IllOutput.reduce _ (.lambda hne' hill))

theorem lowerBound_of_size (n : Nat) (hsize : sizeOf a + sizeOf b ≤ n) (ha : Ground a)
    (hb : Ground b) : LowerBound (getIntersection reduceApplication a b) a b := by
  induction n generalizing a b with
  | zero =>
    have := sizeOf_pos a
    omega
  | succ n ih =>
    unfold getIntersection
    split
    · next hab => exact .inl ⟨ha, inherits_refl ha.plain, hab⟩
    split
    · next hba => exact .inl ⟨hb, hba, inherits_refl hb.plain⟩
    split
    · next ts₁ ts₂ _ _ =>
      simp only [union.sizeOf_spec] at hsize
      cases ha with | union _ hts₁ =>
      cases hb with | union _ hts₂ =>
      refine lowerBound_set fun r hr => ?_
      have hr := (mem_foldl_insertType hr).resolve_left (List.not_mem_nil)
      rw [List.mem_filter, List.mem_flatMap] at hr
      obtain ⟨⟨⟨s₁, hs₁⟩, -, hr⟩, hwell⟩ := hr
      obtain ⟨⟨s₂, hs₂⟩, -, rfl⟩ := List.mem_map.mp hr
      have hlt₁ := List.sizeOf_lt_of_mem hs₁
      have hlt₂ := List.sizeOf_lt_of_mem hs₂
      rcases ih (by omega) (hts₁ s₁ hs₁) (hts₂ s₂ hs₂) with ⟨hground, h₁, h₂⟩ | hill
      · exact ⟨hground, inherits_union_of_mem hground.plain hs₁ h₁,
          inherits_union_of_mem hground.plain hs₂ h₂⟩
      · rw [hill.not_wellFormed] at hwell
        cases hwell
    · next is₁ o₁ is₂ o₂ _ _ =>
      simp only [lambda.sizeOf_spec] at hsize
      split
      · next hlen =>
        refine lowerBound_lambda _ hlen ha hb ?_
        cases ha with | lambda _ _ ho₁ =>
        cases hb with | lambda _ _ ho₂ =>
        exact ih (by omega) ho₁ ho₂
      · exact .inr .illFormed
    · cases ha
    · cases hb
    · exact .inr .illFormed

/-- A well-formed intersection inherits from both types. -/
theorem getIntersection_inherits (ha : Ground a) (hb : Ground b)
    (h : isWellFormed (getIntersection reduceApplication a b) = true) :
    inheritTypeTree (getIntersection reduceApplication a b) a = true ∧
    inheritTypeTree (getIntersection reduceApplication a b) b = true := by
  rcases lowerBound_of_size reduceApplication _ (Nat.le_refl _) ha hb with ⟨-, hbelow⟩ | hill
  · exact hbelow
  · rw [hill.not_wellFormed] at h
    cases h

/-- `->(boolean contin)` and `->(action_result contin)` have an intersection below both. -/
theorem getIntersection_inherits_functions :
    inheritTypeTree (getIntersection application
      (lambda [elementary .boolean] (elementary .contin))
      (lambda [elementary .actionResult] (elementary .contin)))
      (lambda [elementary .boolean] (elementary .contin)) = true ∧
    inheritTypeTree (getIntersection application
      (lambda [elementary .boolean] (elementary .contin))
      (lambda [elementary .actionResult] (elementary .contin)))
      (lambda [elementary .actionResult] (elementary .contin)) = true := by
  refine getIntersection_inherits application
    (.lambda (by simp) (by simp [Ground.elementary]) (.elementary (by simp)))
    (.lambda (by simp) (by simp [Ground.elementary]) (.elementary (by simp))) ?_
  simp [getIntersection, inheritTypeTree, reduceTypeTree, dropInherited, unionOf, isUnknown,
    isWellFormed]

/-- The reduction turns `->(X)` into `X` and an argument into the unknown type. -/
theorem getIntersection_not_below :
    (Plain (lambda [lambda [] (elementary .boolean)] (elementary .contin)) ∧
      Plain (lambda [elementary .actionResult] (elementary .contin)) ∧
      isWellFormed (getIntersection application
        (lambda [lambda [] (elementary .boolean)] (elementary .contin))
        (lambda [elementary .actionResult] (elementary .contin))) = true ∧
      inheritTypeTree (getIntersection application
        (lambda [lambda [] (elementary .boolean)] (elementary .contin))
        (lambda [elementary .actionResult] (elementary .contin)))
        (lambda [lambda [] (elementary .boolean)] (elementary .contin)) = false) ∧
    (Plain (lambda [elementary .boolean] (elementary (.argument 0))) ∧
      Plain (lambda [elementary .contin] (elementary (.argument 0))) ∧
      isWellFormed (getIntersection application
        (lambda [elementary .boolean] (elementary (.argument 0)))
        (lambda [elementary .contin] (elementary (.argument 0)))) = true ∧
      inheritTypeTree (getIntersection application
        (lambda [elementary .boolean] (elementary (.argument 0)))
        (lambda [elementary .contin] (elementary (.argument 0))))
        (lambda [elementary .boolean] (elementary (.argument 0))) = false) := by
  refine ⟨⟨.lambda ?_ (.elementary _), .lambda ?_ (.elementary _), ?_, ?_⟩,
    ⟨.lambda ?_ (.elementary _), .lambda ?_ (.elementary _), ?_, ?_⟩⟩
  · intro i hi
    obtain rfl := List.mem_singleton.mp hi
    exact .lambda (fun _ h => nomatch h) (.elementary _)
  · simp [Plain.elementary]
  · simp [getIntersection, inheritTypeTree, reduceTypeTree, dropInherited, unionOf, isUnknown,
    isWellFormed]
  · simp [getIntersection, inheritTypeTree, reduceTypeTree, dropInherited, unionOf, isUnknown]
  · simp [Plain.elementary]
  · simp [Plain.elementary]
  · simp [getIntersection, inheritTypeTree, reduceTypeTree, dropInherited, unionOf, isUnknown,
    isWellFormed]
  · simp [getIntersection, inheritTypeTree, reduceTypeTree, dropInherited, unionOf, isUnknown]

end OpenCog.Comboreduct.Combo.TypeTree
