import OpenCog.AtomSpace.NormalForm
import OpenCog.Time.TimeServer

/-! `Instantiator`: a copy of an expression with ground terms for its variables. The members
of the links are collected in one vector, which is saved around each link. -/
namespace OpenCog

open AtomTable AtomSpace

variable {TV σ : Type}

namespace Instantiator

section Walk

/-- The atom space and the shared vector. -/
structure Walk (TV σ : Type) where
  space : AtomSpace TV σ
  oset : List Handle

variable (cs : ClassServer) (ops : TruthOps TV) (slots : Slots TV σ)
  (executionLink : AtomSpace TV σ → List Handle → AtomSpace TV σ × Option Handle)
  (vmap : Handle → Option Handle)

/-- The recursion goes as deep as the expression. `none` where something throws. The flag
`did_exec`, which only a warning looks at, is left out. -/
def walkTree : Nat → Handle → Walk TV σ → Option (Walk TV σ)
  | 0, _, _ => none
  | n + 1, expr, w => do
    let a ← w.space.atomTable.handleMap expr
    match a.body with
    | .node _ =>
      let soln := if a.type = VARIABLE_NODE then (vmap expr).getD expr else expr
      some { w with oset := w.oset ++ [soln] }
    | .link members => do
      let saveOset := w.oset
      let w ← members.foldlM (fun w x => walkTree n x w) { w with oset := [] }
      if a.type = EXECUTION_LINK then
        let r := executionLink w.space w.oset
        some ⟨r.1, saveOset ++ r.2.toList⟩
      else
        let tv ← (w.space.atomTable.handleMap expr).map Atom.truthValue
        let r := w.space.addLink cs ops slots a.type w.oset tv
        r.2.map fun sh => ⟨r.1, saveOset ++ [sh]⟩

/-- The handle is absent for an absent expression. -/
def instantiate (fuel : Nat) (s : AtomSpace TV σ) (expr : Option Handle) :
    Option (AtomSpace TV σ × Option Handle) :=
  match expr with
  | none => some (s, none)
  | some expr =>
    (walkTree cs ops slots executionLink vmap fuel expr ⟨s, []⟩).map fun w =>
      (w.space, w.oset.head?)

end Walk

/-! ## Substitution -/

/-- The atom `x` of the table. -/
structure Record (table : AtomTable TV) (x : Handle) (t : TypeCode) (b : Body) : Prop where
  lt : x < table.brkUuid
  key : table.key x = some (t, b)

/-- A tree of atoms without execution links, at most `n` links deep. -/
inductive Expression (cs : ClassServer) (table : AtomTable TV) : Nat → Handle → Prop
  | node {n : Nat} {x : Handle} {t : TypeCode} {name : String} :
      Record table x t (.node name) → Expression cs table n x
  | link {n : Nat} {x : Handle} {t : TypeCode} {o : List Handle} :
      Record table x t (.link o) → cs.isA t LINK = true → t ≠ EXECUTION_LINK →
      (∀ y ∈ o, Expression cs table n y) → Expression cs table (n + 1) x

/-- `g` is the atom of `table` that equals the atom `x` of `source` with the variables that `V`
maps replaced, all at once. -/
inductive Replaced (cs : ClassServer) (V : Handle → Option Handle)
    (source table : AtomTable TV) : Handle → Handle → Prop
  | var {x g : Handle} {name : String} : Record source x VARIABLE_NODE (.node name) →
      V x = some g → Replaced cs V source table x g
  | node {x : Handle} {t : TypeCode} {name : String} : Record source x t (.node name) →
      (t = VARIABLE_NODE → V x = none) → Replaced cs V source table x x
  | link {x g : Handle} {t : TypeCode} {o o' p : List Handle} : Record source x t (.link o) →
      o.length = o'.length → (∀ a b, (a, b) ∈ o.zip o' → Replaced cs V source table a b) →
      SameMembers cs t o' p → Record table g t (.link p) → Replaced cs V source table x g

/-- `y` stands in the tree of `x`, or is `x`. -/
inductive Part (table : AtomTable TV) : Handle → Handle → Prop
  | self (x : Handle) : Part table x x
  | member {x y z : Handle} {t : TypeCode} {o : List Handle} : Record table x t (.link o) →
      y ∈ o → Part table y z → Part table x z

section Spaces
variable (cs : ClassServer) (ops : TruthOps TV) (slots : Slots TV σ)

/-- Calls lead from one space to the other, and the atoms of the first are still there. -/
structure Grown (s s' : AtomSpace TV σ) : Prop where
  ran : Ran cs ops slots s s'
  filed : Filed cs s'.atomTable
  kept : ∀ {x t b}, Record s.atomTable x t b → Record s'.atomTable x t b

/-- In a space reached from `s` a slot throws for the link that is to stand for a part of
`expr`, and which the table does not have yet. -/
def Refused (V : Handle → Option Handle) (s : AtomSpace TV σ) (expr : Handle) : Prop :=
  ∃ (s' : AtomSpace TV σ) (x : Handle) (t : TypeCode) (o o' : List Handle) (tv : TV),
    Grown cs ops slots s s' ∧ Part s.atomTable expr x ∧ Record s.atomTable x t (.link o) ∧
      o.length = o'.length ∧
      (∀ a b, (a, b) ∈ o.zip o' → Replaced cs V s.atomTable s'.atomTable a b) ∧
      s'.atomTable.linkIndex t (Atom.setOutgoingSet cs t o') = none ∧
      (slots.atomAdded (s'.atomTable.add ops
        (Atom.init ops t (.link (Atom.setOutgoingSet cs t o')) tv) true).1 s'.servers
        s'.atomTable.brkUuid).2 = false

end Spaces

section Records
variable {table : AtomTable TV} {x : Handle}

theorem isValidHandle_iff :
    table.isValidHandle x = true ↔ ∃ t b, Record table x t b := by
  simp only [isValidHandle, Bool.and_eq_true, decide_eq_true_eq, Option.isSome_iff_exists]
  constructor
  · rintro ⟨hlt, a, ha⟩
    exact ⟨a.type, a.body, hlt, key_of_some ha⟩
  · rintro ⟨t, b, hlt, hk⟩
    obtain ⟨a, ha, -, -⟩ := exists_of_key hk
    exact ⟨hlt, a, ha⟩

end Records

/-! ## Adding a link -/

section Adding
variable {cs : ClassServer} {ops : TruthOps TV} {slots : Slots TV σ}
  {V : Handle → Option Handle} {s s' : AtomSpace TV σ}

theorem ran_trans {a b c : AtomSpace TV σ} (h : Ran cs ops slots a b) (k : Ran cs ops slots b c) :
    Ran cs ops slots a c := by
  induction k with
  | start => exact h
  | step op _ e ih => exact .step op ih e

theorem Grown.refl (hs : Filed cs s.atomTable) : Grown cs ops slots s s := ⟨.start, hs, id⟩

theorem Grown.trans {a b c : AtomSpace TV σ} (h : Grown cs ops slots a b)
    (k : Grown cs ops slots b c) : Grown cs ops slots a c :=
  ⟨ran_trans h.ran k.ran, k.filed, fun hx => k.kept (h.kept hx)⟩

theorem sameMembers_setOutgoingSet (t : TypeCode) (o : List Handle) :
    SameMembers cs t o (Atom.setOutgoingSet cs t o) := by
  apply setOutgoingSet_eq_iff.mp
  exact (Atom.setOutgoingSet_idem cs t o).symm

theorem Record.thinned {a b : AtomTable TV} (e : Thinned a b) {x : Handle} {t : TypeCode}
    {body : Body} (h : Record a x t body) : Record b x t body :=
  ⟨by rw [e.brkUuid]; exact h.lt, by rw [e.key]; exact h.key⟩

theorem Record.add {table : AtomTable TV} {x : Handle} {t : TypeCode} {b : Body}
    (h : Record table x t b) (a : Atom TV) : Record (table.add ops a true).1 x t b := by
  obtain ⟨g, -, -, hthin, -⟩ | ⟨-, -, hthin⟩ | ⟨-, -, hbrk, hkey, -⟩ := add_cases ops table a
  · exact h.thinned hthin
  · exact h.thinned hthin
  · refine ⟨?_, ?_⟩
    · rw [hbrk]
      exact Nat.lt_succ_of_lt h.lt
    · rw [hkey, if_neg (Nat.ne_of_lt h.lt)]
      exact h.key

theorem atomTable_addAtom (a : Atom TV) :
    (s.payDefault.addAtom ops slots (some a)).1.atomTable = (s.atomTable.add ops a true).1 := by
  simp only [addAtom]
  split
  · rfl
  · rfl

theorem grown_addLink (hs : Filed cs s.atomTable) (t : TypeCode) (o : List Handle) (tv : TV) :
    Grown cs ops slots s (s.addLink cs ops slots t o tv).1 := by
  refine ⟨.step (.call (.addLink t o tv)) .start rfl, filed_addLink hs, ?_⟩
  intro x u b hx
  unfold addLink
  split
  · exact hx.thinned (thinned_merge ops _ _ tv)
  · cases Atom.newLink cs ops t o tv with
    | none => exact hx
    | some a =>
      rw [atomTable_addAtom]
      exact hx.add a

/-- A call of `addLink` returns the handle of the link, or a slot throws at the new one. -/
theorem addLink_spec (hs : Filed cs s.atomTable) {t : TypeCode} (ht : cs.isA t LINK = true)
    {o : List Handle} (ho : ∀ x ∈ o, s.atomTable.isValidHandle x = true) (tv : TV) :
    (∃ g, (s.addLink cs ops slots t o tv).2 = some g ∧
      Record (s.addLink cs ops slots t o tv).1.atomTable g t (.link (Atom.setOutgoingSet cs t o))) ∨
    (s.addLink cs ops slots t o tv).2 = none ∧
      s.atomTable.linkIndex t (Atom.setOutgoingSet cs t o) = none ∧
      (slots.atomAdded (s.atomTable.add ops
        (Atom.init ops t (.link (Atom.setOutgoingSet cs t o)) tv) true).1 s.servers
        s.atomTable.brkUuid).2 = false := by
  cases hres : (s.addLink cs ops slots t o tv).2 with
  | some g =>
    have hfiled : Filed cs (s.addLink cs ops slots t o tv).1.atomTable := filed_addLink hs
    obtain ⟨hk, hlt, -⟩ := hfiled t _ g (linkIndex_addLink hs hres)
    exact .inl ⟨g, rfl, hlt, hk⟩
  | none =>
    refine .inr ⟨rfl, ?_⟩
    cases hidx : s.atomTable.linkIndex t o with
    | some g =>
      rw [addLink_found hs hidx] at hres
      cases hres
    | none =>
      rw [addLink_new hidx, Atom.newLink, if_pos ht] at hres
      set a : Atom TV := Atom.init ops t (.link (Atom.setOutgoingSet cs t o)) tv with ha
      have hget : s.atomTable.getHandle a =
          s.atomTable.linkIndex t (Atom.setOutgoingSet cs t o) := by
        rw [getHandle_link _ rfl]
        exact hs.lookup_eq t _
      have hall : a.outgoing.all s.atomTable.isValidHandle = true :=
        List.all_eq_true.mpr fun x hx => ho x (Atom.mem_setOutgoingSet.mp hx)
      have hpaid : s.payDefault.atomTable = s.atomTable := rfl
      simp only [addAtom, hpaid] at hres
      cases hg : s.atomTable.getHandle a with
      | some h =>
        have hadd : (s.atomTable.add ops a true).2 = some h := by
          rw [AtomTable.add, hg]
        rw [hg, hadd] at hres
        cases hres
      | none =>
        have hadd : (s.atomTable.add ops a true).2 = some s.atomTable.brkUuid := by
          rw [AtomTable.add, hg]
          simp only [hall, if_true]
        rw [hg, hadd] at hres
        refine ⟨hget.symm.trans hg, ?_⟩
        simp only at hres
        split at hres
        · cases hres
        · next hflag => exact Bool.not_eq_true _ ▸ hflag

end Adding

/-! ## The walk -/

section Walking
variable {cs : ClassServer} {ops : TruthOps TV} {slots : Slots TV σ}
  {executionLink : AtomSpace TV σ → List Handle → AtomSpace TV σ × Option Handle}
  {V : Handle → Option Handle} {s : AtomSpace TV σ}

theorem Replaced.mono {source table table' : AtomTable TV}
    (kept : ∀ {x t b}, Record table x t b → Record table' x t b) {x g : Handle}
    (h : Replaced cs V source table x g) : Replaced cs V source table' x g := by
  induction h with
  | var hx hv => exact .var hx hv
  | node hx hv => exact .node hx hv
  | link hx hlen _ hsame hg ih => exact .link hx hlen ih hsame (kept hg)

/-- Ground terms that are atoms of the source are atoms of the result, and so is what replaces
an atom. -/
theorem Replaced.isValidHandle {source table : AtomTable TV}
    (kept : ∀ {x t b}, Record source x t b → Record table x t b)
    (hV : ∀ x g, V x = some g → source.isValidHandle g = true) {x g : Handle}
    (h : Replaced cs V source table x g) : table.isValidHandle g = true := by
  rw [isValidHandle_iff]
  cases h with
  | var _ hv =>
    obtain ⟨t, b, hg⟩ := isValidHandle_iff.mp (hV _ _ hv)
    exact ⟨t, b, kept hg⟩
  | node hx _ => exact ⟨_, _, kept hx⟩
  | link _ _ _ _ hg => exact ⟨_, _, hg⟩

theorem Expression.mono {table : AtomTable TV} {n m : Nat} {x : Handle}
    (h : Expression cs table n x) (hnm : n ≤ m) : Expression cs table m x := by
  induction h generalizing m with
  | node hx => exact .node hx
  | link hx ht hexec _ ih =>
    obtain ⟨k, rfl⟩ := Nat.exists_eq_add_of_lt hnm
    exact .link hx ht hexec fun y hy => ih y hy (by omega)

theorem walkTree_node {n : Nat} {x : Handle} {w : Walk TV σ} {t : TypeCode} {name : String}
    (hx : Record w.space.atomTable x t (.node name)) :
    walkTree cs ops slots executionLink V (n + 1) x w =
      some { w with oset := w.oset ++ [if t = VARIABLE_NODE then (V x).getD x else x] } := by
  obtain ⟨a, ha, rfl, hb⟩ := exists_of_key hx.key
  simp only [walkTree, ha, Option.bind_eq_bind, Option.bind_some, hb]

theorem walkTree_link {n : Nat} {x : Handle} {w : Walk TV σ} {t : TypeCode} {o : List Handle}
    (hx : Record w.space.atomTable x t (.link o)) (hexec : t ≠ EXECUTION_LINK) :
    walkTree cs ops slots executionLink V (n + 1) x w =
      (o.foldlM (fun w x => walkTree cs ops slots executionLink V n x w) { w with oset := [] }).bind
        fun u => ((u.space.atomTable.handleMap x).map Atom.truthValue).bind fun tv =>
          (u.space.addLink cs ops slots t u.oset tv).2.map fun sh =>
            ⟨(u.space.addLink cs ops slots t u.oset tv).1, w.oset ++ [sh]⟩ := by
  obtain ⟨a, ha, rfl, hb⟩ := exists_of_key hx.key
  simp only [walkTree, ha, Option.bind_eq_bind, Option.bind_some, hb, if_neg hexec]

/-- From every space that has grown out of `s` the walk of `x` pushes what replaces `x`, or a
slot throws. -/
def Walks (cs : ClassServer) (ops : TruthOps TV) (slots : Slots TV σ)
    (executionLink : AtomSpace TV σ → List Handle → AtomSpace TV σ × Option Handle)
    (V : Handle → Option Handle) (s : AtomSpace TV σ) (n : Nat) (x : Handle) : Prop :=
  ∀ w : Walk TV σ, Grown cs ops slots s w.space →
    (∃ space g, walkTree cs ops slots executionLink V n x w = some ⟨space, w.oset ++ [g]⟩ ∧
      Grown cs ops slots w.space space ∧ Replaced cs V s.atomTable space.atomTable x g) ∨
    walkTree cs ops slots executionLink V n x w = none ∧ Refused cs ops slots V s x

/-- The walk over members pushes one term for each, in their order. -/
theorem foldlM_walkTree {n : Nat} (o : List Handle)
    (ho : ∀ y ∈ o, Walks cs ops slots executionLink V s n y) (w : Walk TV σ)
    (hw : Grown cs ops slots s w.space) :
    (∃ space o', o.foldlM (fun w x => walkTree cs ops slots executionLink V n x w) w =
        some ⟨space, w.oset ++ o'⟩ ∧ Grown cs ops slots w.space space ∧ o.length = o'.length ∧
        ∀ a b, (a, b) ∈ o.zip o' → Replaced cs V s.atomTable space.atomTable a b) ∨
    o.foldlM (fun w x => walkTree cs ops slots executionLink V n x w) w = none ∧
      ∃ y ∈ o, Refused cs ops slots V s y := by
  induction o generalizing w with
  | nil =>
    refine .inl ⟨w.space, [], ?_, .refl hw.filed, rfl, ?_⟩
    · rw [List.append_nil]
      rfl
    · intro a b h
      cases h
  | cons x o ih =>
    rw [List.foldlM_cons]
    obtain ⟨space, g, hstep, hgrown, hg⟩ | ⟨hstep, href⟩ := ho x List.mem_cons_self w hw
    · rw [hstep]
      obtain ⟨space', o', hrest, hgrown', hlen, hall⟩ | ⟨hrest, y, hy, href⟩ :=
        ih (fun y hy => ho y (List.mem_cons_of_mem x hy)) ⟨space, w.oset ++ [g]⟩ (hw.trans hgrown)
      · refine .inl ⟨space', g :: o', ?_, hgrown.trans hgrown', ?_, ?_⟩
        · rw [List.append_cons w.oset g o']
          exact hrest
        · rw [List.length_cons, List.length_cons, hlen]
        · intro a b hab
          rw [List.zip_cons_cons, List.mem_cons] at hab
          rcases hab with e | hab
          · obtain ⟨rfl, rfl⟩ := Prod.mk.inj e
            exact hg.mono hgrown'.kept
          · exact hall a b hab
      · exact .inr ⟨hrest, y, List.mem_cons_of_mem x hy, href⟩
    · rw [hstep]
      exact .inr ⟨rfl, x, List.mem_cons_self, href⟩

theorem exists_mem_zip {α : Type} {o o' : List α} (hlen : o.length = o'.length) {b : α}
    (hb : b ∈ o') : ∃ a, (a, b) ∈ o.zip o' := by
  obtain ⟨i, hi, rfl⟩ := List.getElem_of_mem hb
  refine ⟨o[i], ?_⟩
  rw [← List.getElem_zip (h := by rw [List.length_zip]; omega)]
  exact List.getElem_mem _

/-- One link: its members were walked into an empty vector, and the saved one comes back. -/
theorem walks_link (hV : ∀ x g, V x = some g → s.atomTable.isValidHandle g = true) {n : Nat}
    {x : Handle} {t : TypeCode} {o : List Handle} (hx : Record s.atomTable x t (.link o))
    (ht : cs.isA t LINK = true) (hexec : t ≠ EXECUTION_LINK)
    (ho : ∀ y ∈ o, Walks cs ops slots executionLink V s n y) :
    Walks cs ops slots executionLink V s (n + 1) x := by
  intro w hw
  rw [walkTree_link (hw.kept hx) hexec]
  obtain ⟨space, o', hwalk, hgrown, hlen, hall⟩ | ⟨hwalk, y, hy, href⟩ :=
    foldlM_walkTree o ho { w with oset := [] } hw
  · have hs : Grown cs ops slots s space := hw.trans hgrown
    rw [hwalk, Option.bind_some, List.nil_append]
    obtain ⟨a, ha, -, -⟩ := exists_of_key (hs.kept hx).key
    rw [ha, Option.map_some, Option.bind_some]
    have hvalid : ∀ g ∈ o', space.atomTable.isValidHandle g = true := by
      intro g hg
      obtain ⟨y, hy⟩ := exists_mem_zip hlen hg
      exact (hall y g hy).isValidHandle hs.kept hV
    have hadd : Grown cs ops slots space (space.addLink cs ops slots t o' a.truthValue).1 :=
      grown_addLink hs.filed t o' a.truthValue
    obtain ⟨g, hres, hg⟩ | ⟨hres, hnew, hslot⟩ := addLink_spec hs.filed ht hvalid a.truthValue
    · refine .inl ⟨_, g, ?_, hgrown.trans hadd, ?_⟩
      · rw [hres, Option.map_some]
      · apply Replaced.link hx hlen _ (sameMembers_setOutgoingSet t o') hg
        exact fun a b hab => (hall a b hab).mono hadd.kept
    · refine .inr ⟨?_, space, x, t, o, o', a.truthValue, hs, .self x, hx, hlen, hall, hnew, hslot⟩
      rw [hres, Option.map_none]
  · refine .inr ⟨?_, ?_⟩
    · rw [hwalk, Option.bind_none]
    · obtain ⟨s', z, u, p, p', tv, hs', hpart, rest⟩ := href
      exact ⟨s', z, u, p, p', tv, hs', .member hx hy hpart, rest⟩

theorem walks (hV : ∀ x g, V x = some g → s.atomTable.isValidHandle g = true) {n : Nat}
    {x : Handle} (h : Expression cs s.atomTable n x) :
    Walks cs ops slots executionLink V s (n + 1) x := by
  induction h with
  | @node n x t name hx =>
    intro w hw
    refine .inl ⟨w.space, if t = VARIABLE_NODE then (V x).getD x else x, ?_, .refl hw.filed, ?_⟩
    · exact walkTree_node (hw.kept hx)
    · split
      · next e =>
        subst e
        cases hv : V x with
        | some g => exact .var hx hv
        | none => exact .node hx fun _ => hv
      · next e => exact .node hx fun e' => absurd e' e
  | link hx ht hexec _ ih => exact walks_link hV hx ht hexec ih

/-- In every space and for every map to atoms, instantiation of an expression without execution
links returns the atom that equals it with the mapped variables replaced, unless a slot throws
at a link it adds. -/
theorem instantiate_substitutes {servers : σ} {fundsSTI fundsLTI : Int}
    (r : Ran cs ops slots (opened servers fundsSTI fundsLTI) s)
    (hV : ∀ x g, V x = some g → s.atomTable.isValidHandle g = true) {n fuel : Nat}
    (hn : n < fuel) {expr : Handle} (h : Expression cs s.atomTable n expr) :
    (∃ s' g, instantiate cs ops slots executionLink V fuel s (some expr) = some (s', some g) ∧
      Grown cs ops slots s s' ∧ Replaced cs V s.atomTable s'.atomTable expr g) ∨
    instantiate cs ops slots executionLink V fuel s (some expr) = none ∧
      Refused cs ops slots V s expr := by
  obtain ⟨m, rfl⟩ := Nat.exists_eq_succ_of_ne_zero (Nat.ne_of_gt (Nat.zero_lt_of_lt hn))
  have hfiled : Filed cs s.atomTable := r.filed (filed_empty cs)
  have hwalks : Walks cs ops slots executionLink V s (m + 1) expr :=
    walks hV (h.mono (Nat.le_of_lt_succ hn))
  obtain ⟨s', g, hwalk, hgrown, hg⟩ | ⟨hwalk, href⟩ := hwalks ⟨s, []⟩ (.refl hfiled)
  · refine .inl ⟨s', g, ?_, hgrown, hg⟩
    simp only [instantiate, hwalk, Option.map_some, List.nil_append, List.head?_cons]
  · refine .inr ⟨?_, href⟩
    simp only [instantiate, hwalk, Option.map_none]

end Walking

/-! ## Instances -/

/-- The space with a variable, a node `a`, and the list of the variable, `a` and the list of the
variable: handles 1 to 4. -/
def nestedLists : AtomSpace Unit Unit :=
  let add := addLink .script unitOps noSlots
  (add (add (((opened () 100 7).addNode .script unitOps noSlots VARIABLE_NODE "$x" ()).1.addNode
    .script unitOps noSlots CONCEPT_NODE "a" ()).1 LIST_LINK [1] ()).1 LIST_LINK [1, 2, 3] ()).1

theorem ran_nestedLists : Ran .script unitOps noSlots (opened () 100 7) nestedLists :=
  .step (.call (.addLink LIST_LINK [1, 2, 3] ()))
    (.step (.call (.addLink LIST_LINK [1] ()))
      (.step (.call (.addNode CONCEPT_NODE "a" ()))
        (.step (.call (.addNode VARIABLE_NODE "$x" ())) .start rfl) rfl) rfl) rfl

/-- Nothing is executed. -/
def noExecution (s : AtomSpace TV σ) (_ : List Handle) : AtomSpace TV σ × Option Handle := (s, none)

def mapOne (x g : Handle) (h : Handle) : Option Handle := if h = x then some g else none

theorem mapOne_valid {table : AtomTable TV} {x g : Handle} (hg : table.isValidHandle g = true)
    (y h : Handle) (e : mapOne x g y = some h) : table.isValidHandle h = true := by
  unfold mapOne at e
  split at e
  · exact Option.some.inj e ▸ hg
  · cases e

theorem expression_nestedLists : Expression .script nestedLists.atomTable 2 4 := by
  have hvar : Record nestedLists.atomTable 1 VARIABLE_NODE (.node "$x") :=
    ⟨by decide +kernel, by decide +kernel⟩
  have hnode : Record nestedLists.atomTable 2 CONCEPT_NODE (.node "a") :=
    ⟨by decide +kernel, by decide +kernel⟩
  have hinner : Expression .script nestedLists.atomTable 1 3 :=
    .link (t := LIST_LINK) (o := [1]) ⟨by decide +kernel, by decide +kernel⟩ (by decide +kernel)
      (by decide) (by simpa using Expression.node hvar)
  refine .link (t := LIST_LINK) (o := [1, 2, 3]) ⟨by decide +kernel, by decide +kernel⟩
    (by decide +kernel) (by decide) ?_
  intro y hy
  simp only [List.mem_cons, List.not_mem_nil, or_false] at hy
  rcases hy with rfl | rfl | rfl
  · exact .node hvar
  · exact .node hnode
  · exact hinner

theorem instantiate_nestedLists :
    ∃ s' g, instantiate .script unitOps noSlots noExecution (mapOne 1 2) 3 nestedLists (some 4) =
        some (s', some g) ∧
      Grown .script unitOps noSlots nestedLists s' ∧
      Replaced .script (mapOne 1 2) nestedLists.atomTable s'.atomTable 4 g := by
  apply (instantiate_substitutes ran_nestedLists (mapOne_valid (by decide +kernel)) (by decide)
    expression_nestedLists).resolve_right
  rintro ⟨-, s', x, t, o, o', tv, -, -, -, -, -, -, hslot⟩
  cases hslot

example : (instantiate .script unitOps noSlots noExecution (mapOne 1 2) 3 nestedLists
    (some 4)).bind Prod.snd = some 6 := by decide +kernel

/-- Each expression has its instance under each map that `ok` admits. -/
def AllInstantiated (ops : TruthOps Unit) (slots : Slots Unit σ) (start : AtomSpace Unit σ)
    (ok : AtomSpace Unit σ → (Handle → Option Handle) → Prop) : Prop :=
  ∀ s, Ran .script ops slots start s → ∀ V, ok s V → ∀ n expr,
    Expression .script s.atomTable n expr →
      ∃ s' g, instantiate .script ops slots noExecution V (n + 1) s (some expr) =
        some (s', some g) ∧ Replaced .script V s.atomTable s'.atomTable expr g

/-- The space with a variable, a node, a time node whose name is no time, and the AtTimeLink of
the variable and the node: handles 1 to 4. -/
def unreadableTime : AtomSpace Unit TemporalTable :=
  let add := addNode .script unitOps TimeServer.slots
  (addLink .script unitOps TimeServer.slots (add (add (add (opened .empty 100 7) VARIABLE_NODE "$t"
    ()).1 CONCEPT_NODE "c" ()).1 TIME_NODE "5:3" ()).1 AT_TIME_LINK [1, 2] ()).1

theorem ran_unreadableTime :
    Ran .script unitOps TimeServer.slots (opened .empty 100 7) unreadableTime :=
  .step (.call (.addLink AT_TIME_LINK [1, 2] ()))
    (.step (.call (.addNode TIME_NODE "5:3" ()))
      (.step (.call (.addNode CONCEPT_NODE "c" ()))
        (.step (.call (.addNode VARIABLE_NODE "$t" ())) .start rfl) rfl) rfl) rfl

/-- A variable may be mapped to a handle without an atom, which `addLink` refuses; and the time
server throws at an AtTimeLink whose time it cannot read. -/
theorem not_allInstantiated :
    ¬ AllInstantiated unitOps noSlots (opened () 100 7) (fun _ _ => True) ∧
      ¬ AllInstantiated unitOps TimeServer.slots (opened .empty 100 7)
        (fun s V => ∀ x g, V x = some g → s.atomTable.isValidHandle g = true) := by
  refine ⟨?_, ?_⟩
  · intro hall
    obtain ⟨s', g, he, -⟩ := hall nestedLists ran_nestedLists (mapOne 1 9) trivial 2 4
      expression_nestedLists
    have hnone : (instantiate .script unitOps noSlots noExecution (mapOne 1 9) 3 nestedLists
        (some 4)).isNone = true := by decide +kernel
    rw [he] at hnone
    cases hnone
  · intro hall
    have hvar : Record unreadableTime.atomTable 1 VARIABLE_NODE (.node "$t") :=
      ⟨by decide +kernel, by decide +kernel⟩
    have hnode : Record unreadableTime.atomTable 2 CONCEPT_NODE (.node "c") :=
      ⟨by decide +kernel, by decide +kernel⟩
    have hexpr : Expression .script unreadableTime.atomTable 1 4 := by
      refine .link (t := AT_TIME_LINK) (o := [1, 2]) ⟨by decide +kernel, by decide +kernel⟩
        (by decide +kernel) (by decide) ?_
      intro y hy
      simp only [List.mem_cons, List.not_mem_nil, or_false] at hy
      rcases hy with rfl | rfl
      · exact .node hvar
      · exact .node hnode
    obtain ⟨s', g, he, -⟩ := hall unreadableTime ran_unreadableTime (mapOne 1 3)
      (mapOne_valid (by decide +kernel)) 1 4 hexpr
    have hnone : (instantiate .script unitOps TimeServer.slots noExecution (mapOne 1 3) 2
        unreadableTime (some 4)).isNone = true := by decide +kernel
    rw [he] at hnone
    cases hnone

end Instantiator

end OpenCog
