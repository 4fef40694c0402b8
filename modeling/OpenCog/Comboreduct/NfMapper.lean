import OpenCog.Comboreduct.FlatNormalForm

/-! The mapper numbers the subtrees of a form, takes a form out of a tree and writes it
back. A literal it hands out is one it can create again (`addItem_spec`). -/
namespace OpenCog.Comboreduct

open Util
open Lib.Clauses

variable {α : Type}

/-- The subtree of a number; numbers start with 1. -/
def int2item (items : List (Subtree α)) : Nat → Option (Subtree α)
  | 0 => none
  | k + 1 => items[k]?

/-- A copy of what a literal stands for; only an argument can be negated. -/
def create (items : List (Subtree α)) (idx : Int) : Option (Subtree α) :=
  if idx < 0 then
    match int2item items (-idx).toNat with
    | some ⟨.argument a, children⟩ => some ⟨.argument a.negate, children⟩
    | _ => none
  else int2item items idx.toNat

variable {items items' ts : List (Subtree α)} {t : Subtree α} {l : Int} {k : Nat}
  {c : Clause} {f : Nf}

theorem int2item_mono (hp : items <+: items') (h : int2item items k = some t) :
    int2item items' k = some t := by
  cases k with
  | zero => cases h
  | succ k =>
    obtain ⟨more, rfl⟩ := hp
    rw [int2item] at h ⊢
    rw [List.getElem?_append_left (List.getElem?_eq_some_iff.1 h).1, h]

theorem create_of_neg {a : Argument} {children : Forest (Vertex α)}
    (h : int2item items k = some ⟨.argument a, children⟩) :
    create items (-k) = some ⟨.argument a.negate, children⟩ := by
  have hk : k ≠ 0 := by
    rintro rfl
    cases h
  rw [create, if_pos (by omega), neg_neg, Int.toNat_natCast, h]

theorem create_of_pos (h : int2item items k = some t) : create items k = some t := by
  rw [create, if_neg (by omega), Int.toNat_natCast, h]

/-- A literal creates the subtree of its number, or that argument negated. -/
theorem create_cases (h : create items l = some t) :
    (0 < l ∧ int2item items l.natAbs = some t) ∨
    (l < 0 ∧ ∃ a children, int2item items l.natAbs = some ⟨.argument a, children⟩ ∧
      t = ⟨.argument a.negate, children⟩) := by
  rw [create] at h
  by_cases hl : l < 0
  · rw [if_pos hl] at h
    have hn : (-l).toNat = l.natAbs := by omega
    rw [hn] at h
    split at h
    · rename_i a children he
      exact .inr ⟨hl, a, children, he, (Option.some.inj h).symm⟩
    · cases h
  · rw [if_neg hl] at h
    have hn : l.toNat = l.natAbs := by omega
    have h0 : l ≠ 0 := by
      rintro rfl
      cases h
    exact .inl ⟨by omega, hn ▸ h⟩

theorem create_mono (hp : items <+: items') (h : create items l = some t) :
    create items' l = some t := by
  rcases create_cases h with ⟨hl, hi⟩ | ⟨hl, a, children, hi, rfl⟩
  · have hn : ((l.natAbs : Nat) : Int) = l := by omega
    exact hn ▸ create_of_pos (int2item_mono hp hi)
  · have hn : (-(l.natAbs : Nat) : Int) = l := by omega
    exact hn ▸ create_of_neg (int2item_mono hp hi)

/-- The literals of the clause create the subtrees, and no others. -/
def Spells (items : List (Subtree α)) (c : Clause) (ts : List (Subtree α)) : Prop :=
  (∀ l ∈ c, ∃ t ∈ ts, create items l = some t) ∧ ∀ t ∈ ts, ∃ l ∈ c, create items l = some t

theorem Spells.mono (h : Spells items c ts) (hp : items <+: items') : Spells items' c ts := by
  refine ⟨fun l hl => ?_, fun t ht => ?_⟩
  · obtain ⟨t, ht, hc⟩ := h.1 l hl
    exact ⟨t, ht, create_mono hp hc⟩
  · obtain ⟨l, hl, hc⟩ := h.2 t ht
    exact ⟨l, hl, create_mono hp hc⟩

/-! ## Values of literals -/

section Values

variable {σ : Assignment α}

def itemValue (σ : Assignment α) (items : List (Subtree α)) (k : Nat) : Bool :=
  (int2item items k).any (eval σ)

def litValue (σ : Assignment α) (items : List (Subtree α)) (l : Int) : Prop :=
  if 0 < l then itemValue σ items l.natAbs = true else itemValue σ items l.natAbs = false

theorem valuation_litValue (σ : Assignment α) (items : List (Subtree α)) :
    Valuation (litValue σ items) := by
  intro l hl
  simp only [litValue, Int.natAbs_neg]
  by_cases h : 0 < l
  · rw [if_neg (by omega), if_pos h, Bool.not_eq_true]
  · rw [if_pos (by omega), if_neg h, Bool.not_eq_false]

theorem litValue_of_create (h : create items l = some t) :
    litValue σ items l ↔ eval σ t = true := by
  rw [litValue, itemValue]
  rcases create_cases h with ⟨hl, hi⟩ | ⟨hl, a, children, hi, rfl⟩
  · rw [if_pos hl, hi, Option.any_some]
  · rw [if_neg (by omega), hi, Option.any_some, eval_argument, eval_argument,
      Assignment.argument_negate, Bool.not_eq_true']

theorem Spells.conj (h : Spells items c ts) :
    Conj (litValue σ items) c ↔ ∀ t ∈ ts, eval σ t = true := by
  constructor
  · intro hv t ht
    obtain ⟨l, hl, hc⟩ := h.2 t ht
    exact (litValue_of_create hc).1 (hv l hl)
  · intro hv l hl
    obtain ⟨t, ht, hc⟩ := h.1 l hl
    exact (litValue_of_create hc).2 (hv t ht)

theorem Spells.disj (h : Spells items c ts) :
    Disj (litValue σ items) c ↔ ∃ t ∈ ts, eval σ t = true := by
  constructor
  · rintro ⟨l, hl, hv⟩
    obtain ⟨t, ht, hc⟩ := h.1 l hl
    exact ⟨t, ht, (litValue_of_create hc).1 hv⟩
  · rintro ⟨t, ht, hv⟩
    obtain ⟨l, hl, hc⟩ := h.2 t ht
    exact ⟨l, hl, (litValue_of_create hc).2 hv⟩

end Values

/-! ## Adding items -/

def insertItem (items : List (Subtree α)) (item : Subtree α) : List (Subtree α) × Int :=
  (items ++ [item], (items.length + 1 : Nat))

theorem insertItem_spec (items : List (Subtree α)) (t : Subtree α) :
    items <+: (insertItem items t).1 ∧
    create (insertItem items t).1 (insertItem items t).2 = some t := by
  refine ⟨List.prefix_append _ _, create_of_pos ?_⟩
  exact List.getElem?_concat_length ..

section Adding

variable [DecidableEq α]

def item2int (items : List (Subtree α)) (item : Subtree α) : Option Nat :=
  (items.idxOf? item).map (· + 1)

def addItem (items : List (Subtree α)) (item : Subtree α) : List (Subtree α) × Int :=
  match item2int items item with
  | some k => (items, k)
  | none =>
    match item.root with
    | .argument a =>
      match item2int items ⟨.argument a.negate, item.children⟩ with
      | some k => (items, -k)
      | none => insertItem items item
    | _ => insertItem items item

def addItems (items : List (Subtree α)) : List (Subtree α) → List (Subtree α) × List Int
  | [] => (items, [])
  | t :: ts =>
    let r := addItem items t
    let s := addItems r.1 ts
    (s.1, r.2 :: s.2)

/-- The children of the connective, or the subtree itself. -/
def members (junct : Vertex α) (t : Subtree α) : List (Subtree α) :=
  if t.root = junct then siblings t.children else [t]

def addNf (junct : Vertex α) (items : List (Subtree α)) :
    List (Subtree α) → List (Subtree α) × Nf
  | [] => (items, [])
  | t :: ts =>
    let r := addItems items (members junct t)
    let s := addNf junct r.1 ts
    (s.1, r.2.toFinset :: s.2)

def addCnf (ts : List (Subtree α)) : List (Subtree α) × Nf := addNf .logicalOr [] ts

def addDnf (ts : List (Subtree α)) : List (Subtree α) × Nf := addNf .logicalAnd [] ts

theorem int2item_of_item2int (h : item2int items t = some k) : int2item items k = some t := by
  obtain ⟨i, hi, rfl⟩ := Option.map_eq_some_iff.1 h
  obtain ⟨hlt, he, -⟩ := List.idxOf?_eq_some_iff.1 hi
  exact List.getElem?_eq_some_iff.2 ⟨hlt, he⟩

theorem addItem_spec (items : List (Subtree α)) (t : Subtree α) :
    items <+: (addItem items t).1 ∧ create (addItem items t).1 (addItem items t).2 = some t := by
  unfold addItem
  split
  · rename_i k hk
    exact ⟨List.prefix_rfl, create_of_pos (int2item_of_item2int hk)⟩
  · split
    · rename_i a ha
      split
      · rename_i k hk
        refine ⟨List.prefix_rfl, ?_⟩
        rw [create_of_neg (int2item_of_item2int hk), Argument.negate_negate, ← ha]
      · exact insertItem_spec items t
    · exact insertItem_spec items t

theorem addItems_spec (items ts : List (Subtree α)) :
    items <+: (addItems items ts).1 ∧
    Spells (addItems items ts).1 (addItems items ts).2.toFinset ts := by
  induction ts generalizing items with
  | nil => exact ⟨List.prefix_rfl, by simp [Spells, addItems]⟩
  | cons t ts ih =>
    obtain ⟨hp, hc⟩ := addItem_spec items t
    obtain ⟨hp', hs⟩ := ih (addItem items t).1
    refine ⟨hp.trans hp', fun l hl => ?_, fun u hu => ?_⟩
    · simp only [addItems, List.toFinset_cons, Finset.mem_insert] at hl
      rcases hl with rfl | hl
      · exact ⟨t, List.mem_cons_self .., create_mono hp' hc⟩
      · obtain ⟨u, hu, hcu⟩ := hs.1 l hl
        exact ⟨u, List.mem_cons_of_mem _ hu, hcu⟩
    · simp only [addItems, List.toFinset_cons, Finset.mem_insert]
      rcases List.mem_cons.1 hu with rfl | hu
      · exact ⟨_, .inl rfl, create_mono hp' hc⟩
      · obtain ⟨l, hl, hcl⟩ := hs.2 u hu
        exact ⟨l, .inr hl, hcl⟩

theorem addNf_spec (junct : Vertex α) (items ts : List (Subtree α)) :
    items <+: (addNf junct items ts).1 ∧
    (∀ c ∈ (addNf junct items ts).2, ∃ t ∈ ts,
      Spells (addNf junct items ts).1 c (members junct t)) ∧
    ∀ t ∈ ts, ∃ c ∈ (addNf junct items ts).2,
      Spells (addNf junct items ts).1 c (members junct t) := by
  induction ts generalizing items with
  | nil =>
    exact ⟨List.prefix_rfl, fun _ h => absurd h List.not_mem_nil,
      fun _ h => absurd h List.not_mem_nil⟩
  | cons t ts ih =>
    obtain ⟨hp, hs⟩ := addItems_spec items (members junct t)
    obtain ⟨hp', hf, ht⟩ := ih (addItems items (members junct t)).1
    refine ⟨hp.trans hp', fun c hc => ?_, fun u hu => ?_⟩
    · rcases List.mem_cons.1 hc with rfl | hc
      · exact ⟨t, List.mem_cons_self .., hs.mono hp'⟩
      · obtain ⟨u, hu, hcu⟩ := hf c hc
        exact ⟨u, List.mem_cons_of_mem _ hu, hcu⟩
    · rcases List.mem_cons.1 hu with rfl | hu
      · exact ⟨_, List.mem_cons_self .., hs.mono hp'⟩
      · obtain ⟨c, hc, hcu⟩ := ht u hu
        exact ⟨c, List.mem_cons_of_mem _ hc, hcu⟩

section Reading

variable {σ : Assignment α}

theorem eval_members_and (t : Subtree α) :
    (∀ u ∈ members .logicalAnd t, eval σ u = true) ↔ eval σ t = true := by
  obtain ⟨root, children⟩ := t
  rw [members]
  split
  · rename_i h
    obtain rfl : root = .logicalAnd := h
    exact eval_logicalAnd.symm
  · simp

theorem eval_members_or (t : Subtree α) :
    (∃ u ∈ members .logicalOr t, eval σ u = true) ↔ eval σ t = true := by
  obtain ⟨root, children⟩ := t
  rw [members]
  split
  · rename_i h
    obtain rfl : root = .logicalOr := h
    exact eval_logicalOr.symm
  · simp

theorem addDnf_value (σ : Assignment α) (ts : List (Subtree α)) :
    Dnf (litValue σ (addDnf ts).1) (addDnf ts).2 ↔ ∃ t ∈ ts, eval σ t = true := by
  obtain ⟨-, hf, ht⟩ := addNf_spec .logicalAnd [] ts
  constructor
  · rintro ⟨c, hc, hv⟩
    obtain ⟨t, hm, hs⟩ := hf c hc
    exact ⟨t, hm, (eval_members_and t).1 (hs.conj.1 hv)⟩
  · rintro ⟨t, hm, hv⟩
    obtain ⟨c, hc, hs⟩ := ht t hm
    exact ⟨c, hc, hs.conj.2 ((eval_members_and t).2 hv)⟩

theorem addCnf_value (σ : Assignment α) (ts : List (Subtree α)) :
    Cnf (litValue σ (addCnf ts).1) (addCnf ts).2 ↔ ∀ t ∈ ts, eval σ t = true := by
  obtain ⟨-, hf, ht⟩ := addNf_spec .logicalOr [] ts
  constructor
  · intro hv t hm
    obtain ⟨c, hc, hs⟩ := ht t hm
    exact (eval_members_or t).1 (hs.disj.1 (hv c hc))
  · intro hv c hc
    obtain ⟨t, hm, hs⟩ := hf c hc
    exact hs.disj.2 ((eval_members_or t).2 (hv t hm))

end Reading

end Adding

/-! ## Writing a form back -/

/-- What a clause appends to the children of the node. -/
def appendClause (items : List (Subtree α)) (junct : Vertex α) (c : Clause) :
    Option (List (Subtree α)) :=
  match listed c with
  | [] => some []
  | [k] => if k = 0 then some [] else (create items k).map fun t => [t]
  | ks => (ks.mapM (create items)).map fun ts => [⟨junct, ofSiblings ts⟩]

/-- A single child takes the place of the node. -/
def closeNode (junct : Vertex α) : List (Subtree α) → Subtree α
  | [] => ⟨.logicalFalse, .nil⟩
  | [t] => t
  | ts => ⟨junct, ofSiblings ts⟩

def extractCnf (items : List (Subtree α)) (f : Nf) : Option (Subtree α) :=
  (f.mapM (appendClause items .logicalOr)).map fun ts => closeNode .logicalAnd ts.flatten

/-- The children for the clauses, `none` inside when an empty clause is met. -/
def dnfChildren (items : List (Subtree α)) : Nf → Option (Option (List (Subtree α)))
  | [] => some (some [])
  | c :: f =>
    if c = ∅ then some none
    else do
      let ts ← appendClause items .logicalAnd c
      let r ← dnfChildren items f
      return r.map (ts ++ ·)

def extractDnf (items : List (Subtree α)) (f : Nf) : Option (Subtree α) :=
  (dnfChildren items f).map fun
    | none => ⟨.logicalTrue, .nil⟩
    | some ts => closeNode .logicalOr ts

def extractConjunction (items : List (Subtree α)) (c : Clause) : Option (Subtree α) :=
  match listed c with
  | [k] =>
    if k < 0 then
      match int2item items (-k).toNat with
      | some ⟨.argument a, _⟩ => some ⟨.argument a.negate, .nil⟩
      | _ => none
    else int2item items k.toNat
  | ks => (ks.mapM (create items)).map fun ts => ⟨.logicalAnd, ofSiblings ts⟩

section Writing

/-- Every literal of the clause creates a subtree. -/
def Creatable (items : List (Subtree α)) (c : Clause) : Prop :=
  ∀ l ∈ c, ∃ t, create items l = some t

theorem Creatable.zero_notMem (h : Creatable items c) : 0 ∉ c := by
  intro h0
  obtain ⟨t, ht⟩ := h 0 h0
  cases ht

theorem Spells.creatable (h : Spells items c ts) : Creatable items c := fun l hl =>
  let ⟨t, _, hc⟩ := h.1 l hl
  ⟨t, hc⟩

theorem Creatable.mapM {ls : List Int} (h : ∀ l ∈ ls, ∃ t, create items l = some t) :
    ∃ ts, ls.mapM (create items) = some ts ∧ Spells items ls.toFinset ts := by
  induction ls with
  | nil => exact ⟨[], rfl, by simp [Spells]⟩
  | cons l ls ih =>
    obtain ⟨t, ht⟩ := h l (List.mem_cons_self ..)
    obtain ⟨ts, hts, hs⟩ := ih fun k hk => h k (List.mem_cons_of_mem _ hk)
    refine ⟨t :: ts, ?_, fun k hk => ?_, fun u hu => ?_⟩
    · rw [List.mapM_cons, ht, hts]
      rfl
    · rw [List.toFinset_cons, Finset.mem_insert] at hk
      rcases hk with rfl | hk
      · exact ⟨t, List.mem_cons_self .., ht⟩
      · obtain ⟨u, hu, hc⟩ := hs.1 k hk
        exact ⟨u, List.mem_cons_of_mem _ hu, hc⟩
    · simp only [List.toFinset_cons, Finset.mem_insert]
      rcases List.mem_cons.1 hu with rfl | hu
      · exact ⟨l, .inl rfl, ht⟩
      · obtain ⟨k, hk, hc⟩ := hs.2 u hu
        exact ⟨k, .inr hk, hc⟩

theorem Creatable.mapM_listed (h : Creatable items c) :
    ∃ ts, (listed c).mapM (create items) = some ts ∧ Spells items c ts := by
  have hl : (listed c).toFinset = c := Finset.sort_toFinset ..
  obtain ⟨ts, hts, hs⟩ := Creatable.mapM fun l hl => h l (mem_listed.1 hl)
  exact ⟨ts, hts, hl ▸ hs⟩

theorem listed_eq_nil : listed c = [] ↔ c = ∅ := by
  rw [← List.length_eq_zero_iff, length_listed, Finset.card_eq_zero]

theorem listed_eq_singleton (h : listed c = [l]) : c = {l} := by
  have hl : (listed c).toFinset = c := Finset.sort_toFinset ..
  rw [← hl, h, List.toFinset_cons, List.toFinset_nil]
  rfl

/-- A clause that is not empty appends one child: a copy of its literal, or the connective
over the copies. -/
theorem appendClause_spec (junct : Vertex α) (h : Creatable items c) (hc : c ≠ ∅) :
    ∃ u, appendClause items junct c = some [u] ∧
      (Spells items c [u] ∨ ∃ ts, Spells items c ts ∧ u = ⟨junct, ofSiblings ts⟩) := by
  obtain ⟨ts, hts, hs⟩ := h.mapM_listed
  unfold appendClause
  split
  · rename_i hl
    exact absurd (listed_eq_nil.1 hl) hc
  · rename_i k hl
    obtain rfl := listed_eq_singleton hl
    obtain ⟨t, ht⟩ := h k (Finset.mem_singleton_self k)
    have hk : k ≠ 0 := by
      rintro rfl
      cases ht
    refine ⟨t, by rw [if_neg hk, ht]; rfl, .inl ?_⟩
    simp [Spells, ht]
  · exact ⟨⟨junct, ofSiblings ts⟩, by rw [hts]; rfl, .inr ⟨ts, hs, rfl⟩⟩

theorem appendClause_or (h : Creatable items c) (hc : c ≠ ∅) :
    ∃ u, appendClause items .logicalOr c = some [u] ∧
      ∀ σ, eval σ u = true ↔ Disj (litValue σ items) c := by
  obtain ⟨u, hu, hs | ⟨ts, hs, rfl⟩⟩ := appendClause_spec .logicalOr h hc
  · exact ⟨u, hu, fun σ => by simp [hs.disj]⟩
  · exact ⟨_, hu, fun σ => by simp [hs.disj]⟩

theorem appendClause_and (h : Creatable items c) (hc : c ≠ ∅) :
    ∃ u, appendClause items .logicalAnd c = some [u] ∧
      ∀ σ, eval σ u = true ↔ Conj (litValue σ items) c := by
  obtain ⟨u, hu, hs | ⟨ts, hs, rfl⟩⟩ := appendClause_spec .logicalAnd h hc
  · exact ⟨u, hu, fun σ => by simp [hs.conj]⟩
  · exact ⟨_, hu, fun σ => by simp [hs.conj]⟩

theorem eval_closeNode_and {σ : Assignment α} (h : ts ≠ []) :
    eval σ (closeNode .logicalAnd ts) = true ↔ ∀ t ∈ ts, eval σ t = true := by
  unfold closeNode
  split
  · exact absurd rfl h
  · simp
  · simp

theorem eval_closeNode_or {σ : Assignment α} :
    eval σ (closeNode .logicalOr ts) = true ↔ ∃ t ∈ ts, eval σ t = true := by
  unfold closeNode
  split <;> simp

theorem mapM_appendClause (h : ∀ c ∈ f, Creatable items c ∧ c ≠ ∅) :
    ∃ us : List (Subtree α),
      f.mapM (appendClause items .logicalOr) = some (us.map fun u => [u]) ∧
      us.length = f.length ∧
      ∀ σ, (∀ u ∈ us, eval σ u = true) ↔ Cnf (litValue σ items) f := by
  induction f with
  | nil => exact ⟨[], rfl, rfl, fun σ => by simp [Cnf]⟩
  | cons c f ih =>
    obtain ⟨hcr, hne⟩ := h c (List.mem_cons_self ..)
    obtain ⟨u, hu, hv⟩ := appendClause_or hcr hne
    obtain ⟨us, hus, hlen, hvs⟩ := ih fun d hd => h d (List.mem_cons_of_mem _ hd)
    refine ⟨u :: us, ?_, by rw [List.length_cons, List.length_cons, hlen], fun σ => ?_⟩
    · rw [List.mapM_cons, hu, hus]
      rfl
    · simp only [Cnf, List.forall_mem_cons, hv σ]
      exact and_congr_right fun _ => hvs σ

theorem extractCnf_spec (h : ∀ c ∈ f, Creatable items c ∧ c ≠ ∅) :
    ∃ us, extractCnf items f = some (closeNode .logicalAnd us) ∧ us.length = f.length ∧
      ∀ σ, (∀ u ∈ us, eval σ u = true) ↔ Cnf (litValue σ items) f := by
  obtain ⟨us, hus, hlen, hv⟩ := mapM_appendClause h
  refine ⟨us, ?_, hlen, hv⟩
  rw [extractCnf, hus, Option.map_some, List.flatten_eq_flatMap, List.flatMap_map]
  simp

theorem extractCnf_empty (h : ∀ c ∈ f, c = ∅) :
    extractCnf items f = some ⟨.logicalFalse, .nil⟩ := by
  have hm : ∃ us, f.mapM (appendClause items .logicalOr) = some us ∧ us.flatten = [] := by
    induction f with
    | nil => exact ⟨[], rfl, rfl⟩
    | cons c f ih =>
      obtain ⟨us, hus, hn⟩ := ih fun d hd => h d (List.mem_cons_of_mem _ hd)
      obtain rfl := h c (List.mem_cons_self ..)
      have h0 : appendClause items .logicalOr ∅ = some [] := by
        simp [appendClause, listed]
      exact ⟨[] :: us, by rw [List.mapM_cons, h0, hus]; rfl, hn⟩
  obtain ⟨us, hus, hn⟩ := hm
  rw [extractCnf, hus, Option.map_some, hn, closeNode]

theorem dnfChildren_spec (h : ∀ c ∈ f, Creatable items c) :
    (∅ ∈ f ∧ dnfChildren items f = some none) ∨
    ∃ us, dnfChildren items f = some (some us) ∧
      ∀ σ, (∃ u ∈ us, eval σ u = true) ↔ Dnf (litValue σ items) f := by
  induction f with
  | nil => exact .inr ⟨[], rfl, fun σ => by simp [Dnf]⟩
  | cons c f ih =>
    by_cases hc : c = ∅
    · exact .inl ⟨by simp [hc], by rw [dnfChildren, if_pos hc]⟩
    · obtain ⟨u, hu, hv⟩ := appendClause_and (h c (List.mem_cons_self ..)) hc
      rcases ih fun d hd => h d (List.mem_cons_of_mem _ hd) with ⟨he, hr⟩ | ⟨us, hr, hvs⟩
      · refine .inl ⟨List.mem_cons_of_mem _ he, ?_⟩
        rw [dnfChildren, if_neg hc, hu, hr]
        rfl
      · refine .inr ⟨u :: us, ?_, fun σ => ?_⟩
        · rw [dnfChildren, if_neg hc, hu, hr]
          rfl
        · simp only [Dnf, List.exists_mem_cons_iff, hv σ]
          exact or_congr_right (hvs σ)

theorem extractDnf_spec (h : ∀ c ∈ f, Creatable items c) :
    ∃ t, extractDnf items f = some t ∧
      ∀ σ, eval σ t = true ↔ Dnf (litValue σ items) f := by
  rcases dnfChildren_spec h with ⟨he, hr⟩ | ⟨us, hr, hv⟩
  · refine ⟨⟨.logicalTrue, .nil⟩, by rw [extractDnf, hr]; rfl, fun σ => ?_⟩
    exact iff_of_true rfl ⟨∅, he, fun l hl => absurd hl (Finset.notMem_empty l)⟩
  · refine ⟨closeNode .logicalOr us, by rw [extractDnf, hr]; rfl, fun σ => ?_⟩
    rw [eval_closeNode_or, hv]

theorem extractConjunction_one (h : Creatable items {l}) :
    ∃ t, extractConjunction items {l} = some t ∧
      ∀ σ, eval σ t = true ↔ litValue σ items l := by
  obtain ⟨u, hu⟩ := h l (Finset.mem_singleton_self l)
  have hl : listed {l} = [l] := Finset.sort_singleton ..
  simp only [extractConjunction, hl]
  rcases create_cases hu with ⟨hp, hi⟩ | ⟨hn, a, children, hi, rfl⟩
  · refine ⟨u, ?_, fun σ => (litValue_of_create hu).symm⟩
    rw [if_neg (by omega), ← hi]
    congr 1
    omega
  · refine ⟨⟨.argument a.negate, .nil⟩, ?_, fun σ => (litValue_of_create hu).symm⟩
    have hk : (-l).toNat = l.natAbs := by omega
    rw [if_pos hn, hk, hi]

theorem extractConjunction_many (h : Creatable items c) (hc : c.card ≠ 1) :
    ∃ ts, extractConjunction items c = some ⟨.logicalAnd, ofSiblings ts⟩ ∧
      Spells items c ts := by
  obtain ⟨ts, hts, hs⟩ := h.mapM_listed
  refine ⟨ts, ?_, hs⟩
  unfold extractConjunction
  split
  · rename_i k hl
    exact absurd (by rw [← length_listed, hl]; rfl) hc
  · rw [hts]
    rfl

end Writing

end OpenCog.Comboreduct
