import OpenCog.Moses.ContinNeighbor
import OpenCog.Moses.LocalTrees

/-! The variables of a field set, and which raw fields are theirs. -/
namespace OpenCog.Moses.LocalStructure

open Util FieldSet

variable {O C : Type} {fs : FieldSet C} {trees : List (OntoTree O)} {vars : List (Variable O)}
  {v : Variable O} {base idx k : Nat} {pl : Place O}

theorem place_var (h : (places base vars)[idx]? = some pl) :
    ∃ k, vars[k]? = some pl.var ∧ pl.base = base + ((vars.take k).map Variable.size).sum := by
  induction vars generalizing base idx with
  | nil => cases h
  | cons u vs ih =>
    rcases place_cases h with ⟨-, rfl⟩ | ⟨j, rfl, hj⟩
    · exact ⟨0, rfl, rfl⟩
    · obtain ⟨k, hk, hbase⟩ := ih hj
      refine ⟨k + 1, hk, ?_⟩
      rw [hbase, List.take_succ_cons, List.map_cons, List.sum_cons, Nat.add_assoc]

/-- The trees of the ontological variables, in their order. -/
def HasTrees (fs : FieldSet C) (trees : List (OntoTree O)) : Prop :=
  expand (fs.ofKind 0) = trees.map OntoTree.spec

/-- `onto_to_raw_idx` -/
def ontoToRawIdx (trees : List (OntoTree O)) (idx : Nat) : Nat :=
  ((trees.take idx).map OntoTree.depth).sum

theorem sum_take_onto (trees : List (OntoTree O)) (k : Nat) :
    (((trees.take k).map Variable.onto).map Variable.size).sum = ontoToRawIdx trees k := by
  rw [List.map_map]
  rfl

theorem nOnto_eq (ht : HasTrees fs trees) : fs.nOnto = (trees.map OntoTree.depth).sum := by
  have hsum := sum_depth_expand (fs.ofKind 0)
  rw [ht, List.map_map] at hsum
  exact hsum.symm

theorem sum_contin (fs : FieldSet C) (k : Nat) :
    ((((fs.contin.take k).map fun c => Variable.contin (O := O) c.depth)).map Variable.size).sum =
      ((fs.contin.take k).map Spec.depth).sum := by
  rw [List.map_map]
  rfl

theorem sum_disc (l : List (Spec C)) :
    ((l.map fun d => Variable.disc (O := O) (discArity d)).map Variable.size).sum = l.length := by
  induction l with
  | nil => rfl
  | cons d l ih =>
    rw [List.map_cons, List.map_cons, List.sum_cons, ih, List.length_cons, Variable.size]
    omega

theorem size_onto (ht : HasTrees fs trees) :
    ((trees.map Variable.onto).map Variable.size).sum = fs.nOnto := by
  rw [nOnto_eq ht, List.map_map]
  rfl

/-- Which raw fields a variable has. -/
inductive Block (fs : FieldSet C) (trees : List (OntoTree O)) : Variable O → Nat → Prop
  | onto {k : Nat} {tr : OntoTree O} : trees[k]? = some tr →
      Block fs trees (.onto tr) (ontoToRawIdx trees k)
  | contin {k : Nat} {c : Spec C} : fs.contin[k]? = some c →
      Block fs trees (.contin c.depth) (fs.continToRawIdx k)
  | disc {j : Nat} {d : Spec C} : fs.discAndBits[j]? = some d →
      Block fs trees (.disc (discArity d)) (fs.discStart + j)

/-- So many raw fields are before the variable at a place of the list. -/
def fieldsBefore (vars : List (Variable O)) (k : Nat) : Nat :=
  ((vars.take k).map Variable.size).sum

theorem var_onto (fs : FieldSet C) {tr : OntoTree O} (h : trees[k]? = some tr) :
    (variablesOf fs trees)[k]? = some (.onto tr) ∧
      fieldsBefore (variablesOf fs trees) k = ontoToRawIdx trees k := by
  have hk := (List.getElem?_eq_some_iff.mp h).1
  unfold fieldsBefore variablesOf
  rw [List.append_assoc]
  constructor
  · rw [List.getElem?_append_left (by simpa using hk), List.getElem?_map, h, Option.map_some]
  · rw [List.take_append_of_le_length (by simpa using hk.le), ← List.map_take, sum_take_onto]

theorem fieldsBefore_trees (ht : HasTrees fs trees) (k : Nat) :
    fieldsBefore (variablesOf fs trees) (trees.length + k) = fs.nOnto +
      ((((fs.contin.map fun c => Variable.contin (O := O) (Spec.depth c)) ++
        fs.discAndBits.map fun d => Variable.disc (discArity d)).take k).map
          Variable.size).sum := by
  unfold fieldsBefore variablesOf
  rw [List.append_assoc, List.take_append, List.length_map, Nat.add_sub_cancel_left,
    List.take_of_length_le (by simp), List.map_append, List.sum_append, size_onto ht]

theorem var_contin (ht : HasTrees fs trees) {c : Spec C} (h : fs.contin[k]? = some c) :
    (variablesOf fs trees)[trees.length + k]? = some (.contin c.depth) ∧
      fieldsBefore (variablesOf fs trees) (trees.length + k) = fs.continToRawIdx k := by
  have hk := (List.getElem?_eq_some_iff.mp h).1
  constructor
  · unfold variablesOf
    rw [List.append_assoc, List.getElem?_append_right (by simp), List.length_map,
      Nat.add_sub_cancel_left, List.getElem?_append_left (by simpa using hk), List.getElem?_map, h,
      Option.map_some]
  · rw [fieldsBefore_trees ht, List.take_append_of_le_length (by simpa using hk.le),
      ← List.map_take, sum_contin]
    rfl

theorem var_disc (ht : HasTrees fs trees) {d : Spec C} (h : fs.discAndBits[k]? = some d) :
    (variablesOf fs trees)[trees.length + (fs.contin.length + k)]? =
        some (.disc (discArity d)) ∧
      fieldsBefore (variablesOf fs trees) (trees.length + (fs.contin.length + k)) =
        fs.discStart + k := by
  have hk := (List.getElem?_eq_some_iff.mp h).1
  have hcontin := sum_contin (O := O) fs fs.contin.length
  rw [List.take_length] at hcontin
  constructor
  · unfold variablesOf
    rw [List.append_assoc, List.getElem?_append_right (by simp), List.length_map,
      Nat.add_sub_cancel_left, List.getElem?_append_right (by simp), List.length_map,
      Nat.add_sub_cancel_left, List.getElem?_map, h, Option.map_some]
  · rw [fieldsBefore_trees ht, List.take_append, List.length_map, Nat.add_sub_cancel_left,
      List.take_of_length_le (by simp), List.map_append, List.sum_append, hcontin, ← List.map_take,
      sum_disc, List.length_take, Nat.min_eq_left hk.le, discStart, Nat.add_assoc]

theorem block_of_var (ht : HasTrees fs trees) (hk : (variablesOf fs trees)[k]? = some v) :
    Block fs trees v (fieldsBefore (variablesOf fs trees) k) := by
  have hlen : (variablesOf fs trees).length =
      trees.length + (fs.contin.length + fs.discAndBits.length) := by
    simp [variablesOf]
  have hlt := (List.getElem?_eq_some_iff.mp hk).1
  rw [hlen] at hlt
  by_cases h₁ : k < trees.length
  · obtain ⟨hv, hsum⟩ := var_onto fs (List.getElem?_eq_getElem h₁)
    obtain rfl := Option.some.inj (hk.symm.trans hv)
    exact hsum ▸ .onto (List.getElem?_eq_getElem h₁)
  · obtain ⟨k, rfl⟩ := Nat.exists_eq_add_of_le (Nat.not_lt.mp h₁)
    by_cases h₂ : k < fs.contin.length
    · obtain ⟨hv, hsum⟩ := var_contin ht (List.getElem?_eq_getElem h₂)
      obtain rfl := Option.some.inj (hk.symm.trans hv)
      exact hsum ▸ .contin (List.getElem?_eq_getElem h₂)
    · obtain ⟨j, rfl⟩ := Nat.exists_eq_add_of_le (Nat.not_lt.mp h₂)
      have hj : j < fs.discAndBits.length := by omega
      obtain ⟨hv, hsum⟩ := var_disc ht (List.getElem?_eq_getElem hj)
      obtain rfl := Option.some.inj (hk.symm.trans hv)
      exact hsum ▸ .disc (List.getElem?_eq_getElem hj)

/-- A raw field is at a level of a block. -/
theorem block_of_place (ht : HasTrees fs trees)
    (hpl : (places 0 (variablesOf fs trees))[idx]? = some pl) :
    Block fs trees pl.var pl.base ∧ pl.base + pl.level = idx ∧ pl.level < pl.var.size := by
  obtain ⟨k, hk, hbase⟩ := place_var hpl
  obtain ⟨hsum, hlt, -⟩ := place_index hpl
  rw [Nat.zero_add] at hbase hsum
  exact ⟨hbase ▸ block_of_var ht hk, hsum, hlt⟩

theorem place_of_fieldsBefore {i : Nat} (hk : vars[k]? = some v) (hi : i < v.size) :
    (places 0 vars)[fieldsBefore vars k + i]? = some ⟨v, fieldsBefore vars k, i⟩ := by
  have := @place_of_var _ _ _ 0 _ _ hk hi
  rwa [Nat.zero_add] at this

theorem size_variablesOf [LinearOrder C] {specs : List (Spec C)} (h : ofSpecs specs = some fs)
    (ht : HasTrees fs trees) : ((variablesOf fs trees).map Variable.size).sum = fs.rawSize := by
  have hdisc : (rawWidths fs.discAndBits).length = fs.discAndBits.length := by
    have hone : ∀ d ∈ fs.discAndBits, d.depth = 1 := by
      intro d hd
      obtain ⟨g, hg, rfl⟩ := mem_expand hd
      have hwhich : g.1.which = 2 := decide_eq_true_eq.mp (List.mem_filter.mp hg).2
      cases hs : g.1 with
      | onto => rw [hs] at hwhich; cases hwhich
      | contin => rw [hs] at hwhich; cases hwhich
      | disc => rfl
    rw [length_rawWidths, List.map_congr_left hone, List.map_const', List.sum_replicate, smul_eq_mul,
      Nat.mul_one]
  have hlen := congrArg List.length (fields_rawWidths h)
  rw [List.length_map, List.length_append, List.length_append, length_onto, length_rawWidths,
    hdisc] at hlen
  have hcontin := sum_contin (O := O) fs fs.contin.length
  rw [List.take_length] at hcontin
  unfold variablesOf
  rw [List.map_append, List.map_append, List.sum_append, List.sum_append, size_onto ht, sum_disc,
    hcontin, rawSize, hlen, Nat.add_assoc]

theorem size_pos_of_blocks (ht : HasTrees fs trees)
    (h : ∀ v base, Block fs trees v base → 0 < v.size) : ∀ v ∈ variablesOf fs trees, 0 < v.size := by
  intro v hv
  obtain ⟨k, hk⟩ := List.mem_iff_getElem?.mp hv
  exact h v _ (block_of_var ht hk)

/-- The raw fields of the variables are those of the field set. -/
theorem fieldsBefore_lt_rawSize [LinearOrder C] {specs : List (Spec C)} (h : ofSpecs specs = some fs)
    (ht : HasTrees fs trees) {i : Nat} (hk : (variablesOf fs trees)[k]? = some v)
    (hi : i < v.size) : fieldsBefore (variablesOf fs trees) k + i < fs.rawSize := by
  have hlt := (List.getElem?_eq_some_iff.mp (place_of_fieldsBefore hk hi)).1
  rwa [length_places, size_variablesOf h ht] at hlt

end OpenCog.Moses.LocalStructure
