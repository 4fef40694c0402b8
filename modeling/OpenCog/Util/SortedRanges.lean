import Mathlib.Algebra.Order.BigOperators.Group.List
import Mathlib.Data.List.Perm.Basic
import Mathlib.Data.List.TakeWhile

/-! The set operations of `algorithm.h` on sorted ranges, and the ordered containers: what is
equivalent in the order is one element of a set and keeps its place in a multiset. -/
namespace OpenCog.Util

variable {β γ : Type} (cmp : β → β → Ordering)

/-- No element comes before the one in front of it. -/
def isSorted : List β → Bool
  | a :: b :: l => cmp b a != .lt && isSorted (b :: l)
  | _ => true

def Strict (l : List β) : Prop := l.Pairwise fun a b => cmp a b = .lt

/-- Into a multiset: behind what is equivalent. -/
def insertMultiset (key : γ → β) (x : γ) : List γ → List γ
  | [] => [x]
  | a :: l =>
    if cmp (key x) (key a) = .lt then x :: a :: l else a :: insertMultiset key x l

def sortRange (key : γ → β) (l : List γ) : List γ :=
  l.foldl (fun s x => insertMultiset cmp key x s) []

/-- Into a set: what is equivalent stays. -/
def insertSet (key : γ → β) (x : γ) : List γ → List γ
  | [] => [x]
  | a :: l =>
    match cmp (key x) (key a) with
    | .lt => x :: a :: l
    | .eq => a :: l
    | .gt => a :: insertSet key x l

def insertAll (key : γ → β) (s : List γ) (l : List γ) : List γ :=
  l.foldl (fun s x => insertSet cmp key x s) s

/-- What a cursor passes on its way to `b`. -/
def passed (key : γ → β) (b : β) (l : List γ) : List γ :=
  l.takeWhile fun a => cmp (key a) b == .lt

def reached (key : γ → β) (b : β) (l : List γ) : List γ :=
  l.dropWhile fun a => cmp (key a) b == .lt

/-- `erase_set_intersection`: one element for each of the second range. -/
def eraseIntersection : List β → List β → List β
  | l, [] => l
  | l, b :: m =>
    passed cmp id b l ++
      match reached cmp id b l with
      | [] => []
      | a :: l => if cmp a b = .eq then eraseIntersection l m else eraseIntersection (a :: l) m

/-- `erase_set_difference` -/
def eraseDifference : List β → List β → List β
  | [], _ => []
  | a :: l, m =>
    match reached cmp id a m with
    | [] => []
    | b :: m => if cmp a b = .eq then a :: eraseDifference l m else eraseDifference l (b :: m)

/-- `insert_set_complement`: what goes in is made by `new`. -/
def insertComplement (key : γ → β) (new : β → γ) : List γ → List β → List γ
  | l, [] => l
  | l, b :: m =>
    passed cmp key b l ++
      match reached cmp key b l with
      | [] => new b :: insertComplement key new [] m
      | a :: l =>
        if cmp (key a) b = .eq then a :: insertComplement key new l m
        else new b :: insertComplement key new (a :: l) m

/-- Not `has_empty_intersection`. -/
def hasCommon : List β → List β → Bool
  | _, [] => false
  | l, b :: m =>
    match reached cmp id b l with
    | [] => false
    | a :: l => cmp a b == .eq || hasCommon (a :: l) m

variable {cmp} {key : γ → β} {new : β → γ} {l s : List γ} {m k : List β} {x y : γ} {a b : β}

/-! ## Containers -/

theorem insertMultiset_perm : (insertMultiset cmp key x l).Perm (x :: l) := by
  induction l with
  | nil => exact .refl _
  | cons a l ih =>
    rw [insertMultiset]
    split
    · exact .refl _
    · exact (ih.cons a).trans (.swap x a l)

theorem foldl_insertMultiset_perm (l s : List γ) :
    (l.foldl (fun s x => insertMultiset cmp key x s) s).Perm (s ++ l) := by
  induction l generalizing s with
  | nil => simp
  | cons x l ih =>
    rw [List.foldl_cons]
    exact (ih _).trans ((insertMultiset_perm.append_right l).trans List.perm_middle.symm)

theorem sortRange_perm : (sortRange cmp key l).Perm l := by
  have h := @foldl_insertMultiset_perm _ _ cmp key l []
  rwa [List.nil_append] at h

theorem mem_insertSet (h : y ∈ insertSet cmp key x l) :
    y = x ∨ y ∈ l := by
  induction l with
  | nil => exact .inl (List.mem_singleton.mp h)
  | cons a l ih =>
    rw [insertSet] at h
    split at h
    · exact List.mem_cons.mp h
    · exact .inr h
    · rcases List.mem_cons.mp h with rfl | h
      · exact .inr List.mem_cons_self
      · exact (ih h).imp id (List.mem_cons_of_mem a)

theorem mem_insertAll (h : y ∈ insertAll cmp key s l) :
    y ∈ s ∨ y ∈ l := by
  induction l generalizing s with
  | nil => exact .inl h
  | cons x l ih =>
    rcases ih h with h | h
    · rcases mem_insertSet h with rfl | h
      · exact .inr List.mem_cons_self
      · exact .inl h
    · exact .inr (List.mem_cons_of_mem x h)

theorem strict_map_insertSet [Std.TransCmp cmp] (h : Strict cmp (l.map key)) :
    Strict cmp ((insertSet cmp key x l).map key) := by
  induction l with
  | nil => exact List.pairwise_singleton ..
  | cons a l ih =>
    rw [List.map_cons] at h
    obtain ⟨ha, hl⟩ := List.pairwise_cons.mp h
    rw [insertSet]
    split
    · next hx =>
      refine List.pairwise_cons.mpr ⟨fun y hy => ?_, h⟩
      rcases List.mem_cons.mp hy with rfl | hy
      · exact hx
      · exact Std.TransCmp.lt_trans hx (ha y hy)
    · exact h
    · next hx =>
      have hax : cmp (key a) (key x) = .lt := Std.OrientedCmp.lt_of_gt hx
      refine List.pairwise_cons.mpr ⟨fun y hy => ?_, ih hl⟩
      obtain ⟨z, hz, rfl⟩ := List.mem_map.mp hy
      rcases mem_insertSet hz with rfl | hz
      · exact hax
      · exact ha _ (List.mem_map_of_mem hz)

theorem strict_insertSet [Std.TransCmp cmp] {l : List β} {x : β}
    (h : Strict cmp l) : Strict cmp (insertSet cmp id x l) := by
  have hmap : Strict cmp ((insertSet cmp id x l).map id) :=
    strict_map_insertSet (by rwa [List.map_id])
  rwa [List.map_id] at hmap

/-- What is equivalent to nothing is inserted. -/
theorem mem_insertSet_new (h : ∀ a ∈ l, cmp (key x) (key a) ≠ .eq) : x ∈ insertSet cmp key x l := by
  induction l with
  | nil => exact List.mem_singleton_self x
  | cons a l ih =>
    rw [insertSet]
    split
    · exact List.mem_cons_self
    · next hx => exact absurd hx (h a List.mem_cons_self)
    · exact List.mem_cons_of_mem a (ih fun b hb => h b (List.mem_cons_of_mem a hb))

theorem strict_insertAll [Std.TransCmp cmp] {s : List β} (h : Strict cmp s) (l : List β) :
    Strict cmp (insertAll cmp id s l) := by
  induction l generalizing s with
  | nil => exact h
  | cons x l ih => exact ih (strict_insertSet h)

theorem mem_insertSet_of_mem (h : y ∈ l) : y ∈ insertSet cmp key x l := by
  induction l with
  | nil => cases h
  | cons a l ih =>
    rw [insertSet]
    split
    · exact List.mem_cons_of_mem x h
    · exact h
    · rcases List.mem_cons.mp h with rfl | h
      · exact List.mem_cons_self
      · exact List.mem_cons_of_mem a (ih h)

theorem mem_insertSet_self [Std.LawfulEqCmp cmp] {l : List β} {x : β} :
    x ∈ insertSet cmp id x l := by
  induction l with
  | nil => exact List.mem_singleton_self x
  | cons a l ih =>
    rw [insertSet]
    split
    · exact List.mem_cons_self
    · next h =>
      have hxa : x = a := Std.LawfulEqCmp.eq_of_compare h
      exact hxa ▸ List.mem_cons_self
    · exact List.mem_cons_of_mem a ih

theorem mem_insertAll_of_mem [Std.LawfulEqCmp cmp] {s l : List β} {x : β} (h : x ∈ s ∨ x ∈ l) :
    x ∈ insertAll cmp id s l := by
  induction l generalizing s with
  | nil => exact h.resolve_right (by simp)
  | cons a l ih =>
    refine ih ?_
    rcases h with h | h
    · exact .inl (mem_insertSet_of_mem h)
    · rcases List.mem_cons.mp h with rfl | h
      · exact .inl mem_insertSet_self
      · exact .inr h

theorem isSorted_cons {l : List β} :
    isSorted cmp (a :: l) = true ↔ (∀ b ∈ l.head?, cmp b a ≠ .lt) ∧ isSorted cmp l = true := by
  cases l with
  | nil => simp [isSorted]
  | cons b l => simp [isSorted]

theorem head_insertMultiset (h : y ∈ (insertMultiset cmp key x l).head?) :
    y = x ∨ y ∈ l.head? := by
  cases l with
  | nil => exact .inl (Option.mem_some.mp h).symm
  | cons a l =>
    rw [insertMultiset] at h
    split at h
    · exact .inl (Option.mem_some.mp h).symm
    · exact .inr h

theorem isSorted_insertMultiset [Std.OrientedCmp cmp] (h : isSorted cmp (l.map key) = true) :
    isSorted cmp ((insertMultiset cmp key x l).map key) = true := by
  induction l with
  | nil => rfl
  | cons a l ih =>
    obtain ⟨ha, hl⟩ := isSorted_cons.mp h
    rw [insertMultiset]
    split
    · next hx =>
      refine isSorted_cons.mpr ⟨fun b hb => ?_, h⟩
      rw [← Option.mem_some.mp hb]
      exact Std.OrientedCmp.not_lt_of_lt hx
    · next hx =>
      refine isSorted_cons.mpr ⟨fun b hb => ?_, ih hl⟩
      rw [List.head?_map] at hb
      obtain ⟨y, hy, rfl⟩ := Option.map_eq_some_iff.mp hb
      rcases head_insertMultiset hy with rfl | hy
      · exact hx
      · exact ha (key y) (by rw [List.head?_map]; exact Option.mem_map_of_mem key hy)

theorem isSorted_sortRange [Std.OrientedCmp cmp] :
    isSorted cmp ((sortRange cmp key l).map key) = true := by
  have go (l s : List γ) (hs : isSorted cmp (s.map key) = true) :
      isSorted cmp ((l.foldl (fun s x => insertMultiset cmp key x s) s).map key) = true := by
    induction l generalizing s with
    | nil => exact hs
    | cons x l ih => exact ih _ (isSorted_insertMultiset hs)
  exact go l [] rfl

/-! ## Sorted ranges -/

theorem passed_append_reached : passed cmp key b l ++ reached cmp key b l = l :=
  List.takeWhile_append_dropWhile

theorem lt_of_mem_passed (h : x ∈ passed cmp key b l) : cmp (key x) b = .lt :=
  beq_iff_eq.mp (List.mem_takeWhile_imp (p := fun a => cmp (key a) b == .lt) h)

theorem pairwise_of_isSorted [Std.TransCmp cmp] {l : List β}
    (h : isSorted cmp l = true) : l.Pairwise fun a b => (cmp a b).isLE := by
  induction l with
  | nil => exact .nil
  | cons a l ih =>
    obtain ⟨ha, hl⟩ := isSorted_cons.mp h
    cases l with
    | nil => exact List.pairwise_singleton ..
    | cons b l =>
      have hab : (cmp a b).isLE := by
        have hba := ha b rfl
        rw [@Std.OrientedCmp.eq_swap _ cmp] at hba
        cases h : cmp a b with
        | gt => exact (hba (by rw [h]; rfl)).elim
        | _ => rfl
      refine List.pairwise_cons.mpr ⟨fun y hy => ?_, ih hl⟩
      rcases List.mem_cons.mp hy with rfl | hy
      · exact hab
      · exact Std.TransCmp.isLE_trans hab (List.rel_of_pairwise_cons (ih hl) hy)

theorem eraseIntersection_sublist (l m : List β) : (eraseIntersection cmp l m).Sublist l := by
  induction m generalizing l with
  | nil => exact .refl l
  | cons b m ih =>
    rw [eraseIntersection]
    conv_rhs => rw [← @passed_append_reached _ _ cmp id l b]
    refine List.Sublist.append (.refl _) ?_
    split
    · next h => rw [h]
    · next a l' h =>
      rw [h]
      split
      · exact (ih l').cons a
      · exact ih (a :: l')

theorem mem_eraseIntersection [Std.LawfulEqCmp cmp] {l : List β} {x : β} (h : x ∈ l) :
    x ∈ eraseIntersection cmp l m ∨ x ∈ m := by
  induction m generalizing l with
  | nil => exact .inl h
  | cons b m ih =>
    rw [← @passed_append_reached _ _ cmp id l b] at h
    rw [eraseIntersection, List.mem_append]
    rcases List.mem_append.mp h with h | h
    · exact .inl (.inl h)
    · split
      · next he => rw [he] at h; cases h
      · next a l' he =>
        rw [he] at h
        split
        · next hab =>
          rcases List.mem_cons.mp h with rfl | h
          · exact .inr (Std.LawfulEqCmp.eq_of_compare hab ▸ List.mem_cons_self)
          · exact (ih h).imp .inr (List.mem_cons_of_mem b)
        · exact (ih h).imp .inr (List.mem_cons_of_mem b)

theorem reached_of_mem [Std.LawfulEqCmp cmp] {l : List β}
    (hl : l.Pairwise fun a b => (cmp a b).isLE) (hb : b ∈ l) :
    ∃ l', reached cmp id b l = b :: l' := by
  induction l with
  | nil => cases hb
  | cons a l ih =>
    obtain ⟨ha, hl⟩ := List.pairwise_cons.mp hl
    by_cases hab : cmp a b = .lt
    · have hb : b ∈ l := by
        rcases List.mem_cons.mp hb with rfl | hb
        · rw [@Std.ReflCmp.compare_self _ cmp] at hab
          cases hab
        · exact hb
      obtain ⟨l', h⟩ := ih hl hb
      exact ⟨l', by rw [← h, reached, List.dropWhile_cons_of_pos (by simp [hab]), reached]⟩
    · have hba : b = a := by
        rcases List.mem_cons.mp hb with rfl | hb
        · rfl
        · have hle := ha b hb
          cases h : cmp a b with
          | lt => exact (hab h).elim
          | eq => exact (Std.LawfulEqCmp.eq_of_compare h).symm
          | gt => rw [h] at hle; cases hle
      exact ⟨l, by rw [reached, List.dropWhile_cons_of_neg (by simp [hab]), hba]⟩

/-- Of a sorted range, one copy of each element of the set goes. -/
theorem eraseIntersection_perm [Std.OrientedCmp cmp] [Std.LawfulEqCmp cmp] {l : List β}
    (hl : l.Pairwise fun a b => (cmp a b).isLE) (hm : Strict cmp m) (hsub : m ⊆ l) :
    l.Perm (m ++ eraseIntersection cmp l m) := by
  induction m generalizing l with
  | nil => exact .refl _
  | cons b m ih =>
    obtain ⟨hb, hm⟩ := List.pairwise_cons.mp hm
    obtain ⟨l', hr⟩ := reached_of_mem hl (hsub List.mem_cons_self)
    have he : l = passed cmp id b l ++ b :: l' := by rw [← hr, passed_append_reached]
    have hl' : (b :: l').Pairwise fun a b => (cmp a b).isLE :=
      (he ▸ hl).sublist (List.sublist_append_right ..)
    have hsub' : m ⊆ l' := by
      intro x hx
      have hbx := hb x hx
      have hmem : x ∈ passed cmp id b l ++ b :: l' := he ▸ hsub (List.mem_cons_of_mem b hx)
      rcases List.mem_append.mp hmem with h | h
      · have hxb := lt_of_mem_passed h
        rw [id, @Std.OrientedCmp.eq_swap _ cmp, hbx] at hxb
        cases hxb
      · rcases List.mem_cons.mp h with rfl | h
        · rw [@Std.ReflCmp.compare_self _ cmp] at hbx
          cases hbx
        · exact h
    have hp := ih (List.pairwise_cons.mp hl').2 hm hsub'
    rw [eraseIntersection, hr]
    simp only [Std.ReflCmp.compare_self, if_true]
    calc l = passed cmp id b l ++ b :: l' := he
      _ |>.Perm (b :: (passed cmp id b l ++ l')) := List.perm_middle
      _ |>.Perm (b :: (passed cmp id b l ++ (m ++ eraseIntersection cmp l' m))) :=
        (hp.append_left _).cons b
      _ |>.Perm (b :: (m ++ (passed cmp id b l ++ eraseIntersection cmp l' m))) := by
        refine List.Perm.cons b ?_
        rw [← List.append_assoc, ← List.append_assoc]
        exact List.perm_append_comm.append_right _

theorem eraseDifference_sublist (l m : List β) : (eraseDifference cmp l m).Sublist l := by
  induction l generalizing m with
  | nil => exact .refl []
  | cons a l ih =>
    rw [eraseDifference]
    split
    · exact List.nil_sublist _
    · next b m' _ =>
      split
      · exact (ih m').cons_cons a
      · exact (ih (b :: m')).cons a

theorem mem_of_mem_eraseDifference [Std.LawfulEqCmp cmp] {l : List β} {x : β}
    (h : x ∈ eraseDifference cmp l m) : x ∈ m := by
  induction l generalizing m with
  | nil => cases h
  | cons a l ih =>
    have hsub : ∀ y ∈ reached cmp id a m, y ∈ m := fun y hy =>
      (List.dropWhile_sublist _).subset hy
    rw [eraseDifference] at h
    split at h
    · cases h
    · next b m' he =>
      rw [he] at hsub
      split at h
      · next hab =>
        rcases List.mem_cons.mp h with rfl | h
        · exact hsub x (Std.LawfulEqCmp.eq_of_compare hab ▸ List.mem_cons_self)
        · exact hsub x (List.mem_cons_of_mem b (ih h))
      · exact hsub x (ih h)

/-- The range is what it was, with new elements for some of the other range. -/
theorem insertComplement_perm (l : List γ) (m : List β) :
    ∃ k : List β, k.Sublist m ∧ (insertComplement cmp key new l m).Perm (l ++ k.map new) := by
  induction m generalizing l with
  | nil => exact ⟨[], .refl [], by simp [insertComplement]⟩
  | cons b m ih =>
    have he : passed cmp key b l ++ reached cmp key b l = l := passed_append_reached
    rw [insertComplement]
    split
    · next hr =>
      obtain ⟨k, hk, hp⟩ := ih []
      rw [hr] at he
      have := (hp.cons (new b)).append_left (passed cmp key b l)
      rw [List.append_nil] at he
      rw [he] at this ⊢
      exact ⟨b :: k, hk.cons_cons b, this⟩
    · next a l' hr =>
      rw [hr] at he
      split
      · obtain ⟨k, hk, hp⟩ := ih l'
        refine ⟨k, hk.cons b, ?_⟩
        have := (hp.cons a).append_left (passed cmp key b l)
        rwa [← List.cons_append, ← List.append_assoc, he] at this
      · obtain ⟨k, hk, hp⟩ := ih (a :: l')
        refine ⟨b :: k, hk.cons_cons b, ?_⟩
        have := ((hp.cons (new b)).trans List.perm_middle.symm).append_left (passed cmp key b l)
        rwa [← List.append_assoc, he] at this

theorem mem_insertComplement [Std.LawfulEqCmp cmp] (hnew : ∀ b, key (new b) = b) (hb : b ∈ m) :
    ∃ y ∈ insertComplement cmp key new l m, key y = b := by
  induction m generalizing l with
  | nil => cases hb
  | cons c m ih =>
    rw [insertComplement]
    split
    · rcases List.mem_cons.mp hb with rfl | hb
      · exact ⟨new b, by simp, hnew b⟩
      · obtain ⟨y, hy, he⟩ := ih (l := []) hb
        exact ⟨y, by simp [hy], he⟩
    · next a l' _ =>
      split
      · next hac =>
        rcases List.mem_cons.mp hb with rfl | hb
        · exact ⟨a, by simp, Std.LawfulEqCmp.eq_of_compare hac⟩
        · obtain ⟨y, hy, he⟩ := ih (l := l') hb
          exact ⟨y, by simp [hy], he⟩
      · rcases List.mem_cons.mp hb with rfl | hb
        · exact ⟨new b, by simp, hnew b⟩
        · obtain ⟨y, hy, he⟩ := ih (l := a :: l') hb
          exact ⟨y, by simp [hy], he⟩

theorem exists_of_hasCommon [Std.LawfulEqCmp cmp] {l : List β} (h : hasCommon cmp l m = true) :
    ∃ x ∈ l, x ∈ m := by
  induction m generalizing l with
  | nil => cases h
  | cons b m ih =>
    have hsub : ∀ y ∈ reached cmp id b l, y ∈ l := fun y hy =>
      (List.dropWhile_sublist _).subset hy
    rw [hasCommon] at h
    split at h
    · cases h
    · next a l' he =>
      rw [he] at hsub
      rw [Bool.or_eq_true, beq_iff_eq] at h
      rcases h with h | h
      · exact ⟨a, hsub a List.mem_cons_self,
          Std.LawfulEqCmp.eq_of_compare h ▸ List.mem_cons_self⟩
      · obtain ⟨x, hx, hm⟩ := ih h
        exact ⟨x, hsub x hx, List.mem_cons_of_mem b hm⟩

end OpenCog.Util
