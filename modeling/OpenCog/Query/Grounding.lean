import OpenCog.Query.DefaultPatternMatchCB

/-! What a grounding is, without the engine: an atom that is a clause with its
bound variables replaced, and the looser reading under which a link of the clause
may stand for itself. -/
namespace OpenCog

section Relations
variable (G : AtomGraph) (bound : List Handle)

/-- `g` is `h` with every bound variable that `V` grounds replaced. -/
inductive Instance (V : SolnMap) : Handle → Handle → Prop
  | var {x g : Handle} : x ∈ bound → V x = some g → Instance V x g
  | node {x : Handle} : G.isNode x = true → (x ∈ bound → V x = none) → Instance V x x
  | link {h g : Handle} {t : TypeCode} {op og : List Handle} : (h ∈ bound → V h = none) →
      G.atom h = some (t, .link op) → G.atom g = some (t, .link og) → op.length = og.length →
      (∀ x y, (x, y) ∈ op.zip og → Instance V x y) → Instance V h g

/-- The same, but any atom that is no bound variable may be met by itself. -/
inductive Matches (V : SolnMap) : Handle → Handle → Prop
  | var {x g : Handle} : x ∈ bound → V x = some g → Matches V x g
  | same {x : Handle} : x ∉ bound → (G.atom x).isSome → Matches V x x
  | link {h g : Handle} {t : TypeCode} {op og : List Handle} : h ∉ bound →
      G.atom h = some (t, .link op) → G.atom g = some (t, .link og) → op.length = og.length →
      (∀ x y, (x, y) ∈ op.zip og → Matches V x y) → Matches V h g

/-- A bound variable stands in the tree of `h`. -/
def HasVar (h : Handle) : Prop := ∃ x ∈ bound, G.InTree h x

/-- Some link that holds a bound variable stands at the same place in both. -/
inductive Frozen : Handle → Handle → Prop
  | same {x : Handle} : x ∉ bound → G.isLink x = true → HasVar G bound x → Frozen x x
  | inside {h g x y : Handle} {t u : TypeCode} {op og : List Handle} :
      G.atom h = some (t, .link op) → G.atom g = some (u, .link og) → (x, y) ∈ op.zip og →
      Frozen x y → Frozen h g

/-- Some link that holds a variable which `V` grounds stands at the same place in both. -/
inductive Stale (V : SolnMap) : Handle → Handle → Prop
  | same {x v : Handle} : x ∉ bound → G.isLink x = true → v ∈ bound → V v ≠ none → G.InTree x v →
      Stale V x x
  | inside {h g x y : Handle} {t u : TypeCode} {op og : List Handle} :
      G.atom h = some (t, .link op) → G.atom g = some (u, .link og) → (x, y) ∈ op.zip og →
      Stale V x y → Stale V h g

/-- The atoms a comparison of `h` walks over when it enters the links that hold a
bound variable, and no others. -/
inductive Visited : Handle → Handle → Prop
  | self (h : Handle) : Visited h h
  | member {h x y : Handle} : h ∉ bound → HasVar G bound h → x ∈ G.outgoing h → Visited x y →
      Visited h y

/-- The groundings that `tree_compare` can record. -/
def Admissible (variableMatch : Handle → Handle → Bool) (V : SolnMap) : Prop :=
  ∀ x ∈ bound, ∀ g, V x = some g →
    G.isNode x = true ∧ G.isNode g = true ∧ g ∉ bound ∧ variableMatch x g = false

end Relations

namespace AtomGraph

variable {G : AtomGraph}

theorem isNode_of_atom {h : Handle} {t : TypeCode} {n : String} (e : G.atom h = some (t, .node n)) :
    G.isNode h = true := by
  simp [isNode, e]

theorem isLink_of_atom {h : Handle} {t : TypeCode} {o : List Handle}
    (e : G.atom h = some (t, .link o)) : G.isLink h = true := by
  simp [isLink, e]

theorem not_isNode_of_link {h : Handle} {t : TypeCode} {o : List Handle}
    (e : G.atom h = some (t, .link o)) : G.isNode h = false := by
  simp [isNode, e]

theorem node_or_link {h : Handle} (hs : (G.atom h).isSome) :
    (∃ t n, G.atom h = some (t, .node n)) ∨ ∃ t o, G.atom h = some (t, .link o) := by
  obtain ⟨⟨t, b⟩, e⟩ := Option.isSome_iff_exists.mp hs
  cases b with
  | node n => exact .inl ⟨t, n, e⟩
  | link o => exact .inr ⟨t, o, e⟩

theorem isNode_stored {h : Handle} (hn : G.isNode h = true) : (G.atom h).isSome := by
  unfold isNode at hn
  split at hn
  · rename_i e
    rw [e]
    rfl
  · cases hn

/-- Nothing stands below a node. -/
theorem InTree.eq_of_node {h x : Handle} (hn : G.isNode h = true) (hx : G.InTree h x) : x = h := by
  cases hx with
  | self => rfl
  | member hm _ =>
    obtain ⟨t, b, hb, hmem⟩ := mem_outgoing hm
    cases b with
    | node n => cases hmem
    | link o => rw [not_isNode_of_link hb] at hn; cases hn

theorem InTree.of_link {h x : Handle} {t : TypeCode} {o : List Handle}
    (e : G.atom h = some (t, .link o)) (hx : G.InTree h x) : x = h ∨ ∃ y ∈ o, G.InTree y x := by
  cases hx with
  | self => exact .inl rfl
  | member hm hy =>
    rw [outgoing_of_atom e] at hm
    exact .inr ⟨_, hm, hy⟩

theorem InTree.in_link {h x y : Handle} {t : TypeCode} {o : List Handle}
    (e : G.atom h = some (t, .link o)) (hy : y ∈ o) (hx : G.InTree y x) : G.InTree h x :=
  .member (by rw [outgoing_of_atom e]; exact hy) hx

end AtomGraph

section Facts
variable {G : AtomGraph} {bound : List Handle} {V V' : SolnMap}

theorem exists_zip_of_mem {op og : List Handle} (hlen : op.length = og.length) {x : Handle}
    (hx : x ∈ op) : ∃ y, (x, y) ∈ op.zip og := by
  obtain ⟨i, hi, rfl⟩ := List.getElem_of_mem hx
  have hi' : i < og.length := hlen ▸ hi
  have hz : i < (op.zip og).length := by rw [List.length_zip]; omega
  exact ⟨og[i], by rw [← List.getElem_zip (h := hz)]; exact List.getElem_mem hz⟩

theorem exists_zip_of_mem_right {op og : List Handle} (hlen : op.length = og.length) {y : Handle}
    (hy : y ∈ og) : ∃ x, (x, y) ∈ op.zip og := by
  obtain ⟨i, hi, rfl⟩ := List.getElem_of_mem hy
  have hi' : i < op.length := hlen ▸ hi
  have hz : i < (op.zip og).length := by rw [List.length_zip]; omega
  exact ⟨op[i], by rw [← List.getElem_zip (h := hz)]; exact List.getElem_mem hz⟩

theorem eq_of_mem_zip_self {o : List Handle} {x y : Handle} (h : (x, y) ∈ o.zip o) : x = y := by
  obtain ⟨i, hi, e⟩ := List.getElem_of_mem h
  rw [List.getElem_zip, Prod.mk.injEq] at e
  exact e.1.symm.trans e.2

theorem mem_zip_self {o : List Handle} {x : Handle} (h : x ∈ o) : (x, x) ∈ o.zip o := by
  obtain ⟨i, hi, rfl⟩ := List.getElem_of_mem h
  have hz : i < (o.zip o).length := by rw [List.length_zip]; omega
  rw [← List.getElem_zip (h := hz)]
  exact List.getElem_mem hz

/-- An atom that is walked over but not entered. -/
theorem Visited.eq_self {h a : Handle} (ha : Visited G bound h a)
    (hno : h ∈ bound ∨ ¬ HasVar G bound h) : a = h := by
  cases ha with
  | self => rfl
  | member hb hv _ _ => exact absurd hv (hno.resolve_left hb)

theorem not_hasVar_of_node {h : Handle} (hb : h ∉ bound)
    (hn : G.isNode h = true) : ¬ HasVar G bound h := by
  rintro ⟨x, hx, hin⟩
  obtain rfl := hin.eq_of_node hn
  exact hb hx

theorem Matches.mono {h g : Handle} (hext : ∀ x ∈ bound, ∀ g, V x = some g → V' x = some g)
    (hm : Matches G bound V h g) : Matches G bound V' h g := by
  induction hm with
  | var hx hv => exact .var hx (hext _ hx _ hv)
  | same hx hs => exact .same hx hs
  | link hn hp hg hlen _ ih => exact .link hn hp hg hlen ih

theorem Matches.stored {vm : Handle → Handle → Bool} {h g : Handle}
    (ha : Admissible G bound vm V) (hm : Matches G bound V h g) : (G.atom g).isSome := by
  cases hm with
  | var hx hg => exact AtomGraph.isNode_stored (ha _ hx _ hg).2.1
  | same _ hs => exact hs
  | link _ _ hg _ _ => exact Option.isSome_of_eq_some hg

/-- An atom without grounded variables is its own instance. -/
theorem Instance.refl {h : Handle} (hs : (G.atom h).isSome)
    (hn : ∀ v ∈ bound, G.InTree h v → V v = none) : Instance G bound V h h := by
  induction h using Nat.strong_induction_on with
  | _ h ih =>
    have hself : h ∈ bound → V h = none := fun hb => hn h hb (.self h)
    rcases AtomGraph.node_or_link hs with ⟨t, n, e⟩ | ⟨t, o, e⟩
    · exact .node (AtomGraph.isNode_of_atom e) hself
    · refine .link hself e e rfl fun x y hxy => ?_
      have hx : x ∈ o := (List.of_mem_zip hxy).1
      obtain rfl : x = y := eq_of_mem_zip_self hxy
      have hmem : x ∈ G.outgoing h := by rw [AtomGraph.outgoing_of_atom e]; exact hx
      exact ih x (AtomGraph.lt_of_mem_outgoing hmem) (AtomGraph.stored_of_mem_outgoing hmem)
        fun v hv hin => hn v hv (.member hmem hin)

/-- An atom that is its own instance holds no grounded variable. -/
theorem Instance.none_of_self {vm : Handle → Handle → Bool} (ha : Admissible G bound vm V)
    {x v : Handle} (hin : G.InTree x v) (h : Instance G bound V x x) (hv : v ∈ bound) :
    V v = none := by
  induction hin with
  | self =>
    cases h with
    | var _ hg => exact absurd hv (ha _ hv _ hg).2.2.1
    | node _ hnone => exact hnone hv
    | link hnone _ _ _ _ => exact hnone hv
  | @member x y v hm _ ih =>
    apply ih _ hv
    cases h with
    | var hx hg => exact absurd hx (ha _ hx _ hg).2.2.1
    | node hn _ =>
      obtain rfl := (AtomGraph.InTree.member hm (.self y)).eq_of_node hn
      exact absurd (AtomGraph.lt_of_mem_outgoing hm) (Nat.lt_irrefl _)
    | link _ hp hg _ hall =>
      rw [hp] at hg
      cases hg
      rw [AtomGraph.outgoing_of_atom hp] at hm
      exact hall y y (mem_zip_self hm)

/-- Where no link with a bound variable is met by itself, a match grounds every
variable of the clause. -/
theorem Matches.grounded {vm : Handle → Handle → Bool} {h g : Handle}
    (ha : Admissible G bound vm V) (hm : Matches G bound V h g) (hf : ¬ Frozen G bound h g) :
    ∀ x ∈ bound, G.InTree h x → ∃ y, V x = some y := by
  induction hm with
  | var hv hg =>
    intro x hx hin
    obtain rfl := hin.eq_of_node (ha _ hv _ hg).1
    exact ⟨_, hg⟩
  | same hv hs =>
    intro x hx hin
    rcases AtomGraph.node_or_link hs with ⟨t, n, e⟩ | ⟨t, o, e⟩
    · obtain rfl := hin.eq_of_node (AtomGraph.isNode_of_atom e)
      exact absurd hx hv
    · exact absurd (.same hv (AtomGraph.isLink_of_atom e) ⟨x, hx, hin⟩) hf
  | link hn hp hg hlen _ ih =>
    intro x hx hin
    rcases hin.of_link hp with rfl | ⟨y, hy, hin⟩
    · exact absurd hx hn
    · obtain ⟨z, hz⟩ := exists_zip_of_mem hlen hy
      exact ih y z hz (fun hfr => hf (.inside hp hg hz hfr)) x hx hin

/-- Where no link with a grounded variable is met by itself, it is the replacement of the
variables. -/
theorem Matches.toInstance {h g : Handle} (hm : Matches G bound V h g)
    (hf : ¬ Stale G bound V h g) : Instance G bound V h g := by
  induction hm with
  | var hv hg => exact .var hv hg
  | same hv hs =>
    rcases AtomGraph.node_or_link hs with ⟨t, n, e⟩ | ⟨t, o, e⟩
    · exact .node (AtomGraph.isNode_of_atom e) fun hb => absurd hb hv
    · refine .refl hs fun v hvar hin => ?_
      by_contra hsome
      exact hf (.same hv (AtomGraph.isLink_of_atom e) hvar hsome hin)
  | link hn hp hg hlen _ ih =>
    refine .link (fun hb => absurd hb hn) hp hg hlen fun x y hxy => ?_
    exact ih x y hxy fun hfr => hf (.inside hp hg hxy hfr)

theorem Stale.frozen {h g : Handle} (hs : Stale G bound V h g) : Frozen G bound h g := by
  induction hs with
  | same hx hlink hv _ hin => exact .same hx hlink ⟨_, hv, hin⟩
  | inside hp hg hxy _ ih => exact .inside hp hg hxy ih

/-- And there alone. -/
theorem Instance.not_stale {vm : Handle → Handle → Bool} (ha : Admissible G bound vm V)
    {h g : Handle} (hs : Stale G bound V h g) : ¬ Instance G bound V h g := by
  induction hs with
  | same _ _ hv hsome hin => exact fun h => hsome (h.none_of_self ha hin hv)
  | inside hp hg hxy _ ih =>
    intro h
    cases h with
    | var hb hV =>
      have hn := (ha _ hb _ hV).1
      rw [AtomGraph.not_isNode_of_link hp] at hn
      cases hn
    | node hn _ =>
      rw [AtomGraph.not_isNode_of_link hp] at hn
      cases hn
    | link _ hp' hg' _ hall =>
      rw [hp] at hp'
      rw [hg] at hg'
      cases hp'
      cases hg'
      exact ih (hall _ _ hxy)

theorem Matches.instance_iff {vm : Handle → Handle → Bool} (ha : Admissible G bound vm V)
    {h g : Handle} (hm : Matches G bound V h g) :
    Instance G bound V h g ↔ ¬ Stale G bound V h g :=
  ⟨fun hi hs => Instance.not_stale ha hs hi, hm.toInstance⟩

/-- Where no link with a bound variable is met by itself, it holds no bound variable. -/
theorem Matches.free {vm : Handle → Handle → Bool} {h g : Handle}
    (hnodes : ∀ x ∈ bound, G.isLink x = false) (ha : Admissible G bound vm V)
    (hm : Matches G bound V h g) (hf : ¬ Frozen G bound h g) :
    ∀ x ∈ bound, ¬ G.InTree g x := by
  induction hm with
  | var hv hg =>
    intro x hx hin
    obtain ⟨-, hnode, hnot, -⟩ := ha _ hv _ hg
    obtain rfl := hin.eq_of_node hnode
    exact hnot hx
  | same hv hs =>
    intro x hx hin
    rcases AtomGraph.node_or_link hs with ⟨t, n, e⟩ | ⟨t, o, e⟩
    · obtain rfl := hin.eq_of_node (AtomGraph.isNode_of_atom e)
      exact hv hx
    · exact hf (.same hv (AtomGraph.isLink_of_atom e) ⟨x, hx, hin⟩)
  | link hn hp hg hlen _ ih =>
    intro x hx hin
    rcases hin.of_link hg with rfl | ⟨y, hy, hin⟩
    · have := hnodes x hx
      rw [AtomGraph.isLink_of_atom hg] at this
      cases this
    · obtain ⟨z, hz⟩ := exists_zip_of_mem_right hlen hy
      exact ih z y hz (fun hfr => hf (.inside hp hg hz hfr)) x hx hin

end Facts

end OpenCog
