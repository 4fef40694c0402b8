import OpenCog.AtomSpace.TableInvariant

/-! What a query reads of the atomspace, which does not change while it runs: the
type and body of each atom, the incoming sets and the type index. -/
namespace OpenCog

structure AtomGraph where
  atom : Handle → Option (TypeCode × Body)
  incoming : Handle → List Handle
  ofType : TypeCode → List Handle
  members : ∀ h t b, atom h = some (t, b) → ∀ x ∈ b.outgoing, (atom x).isSome ∧ x < h
  dual : ∀ x, (atom x).isSome → ∀ l,
    l ∈ incoming x ↔ ∃ t b, atom l = some (t, b) ∧ x ∈ b.outgoing
  typed : ∀ t h, h ∈ ofType t ↔ ∃ b, atom h = some (t, b)
  unique : ∀ h h' a, atom h = some a → atom h' = some a → h = h'

/-- The graph of a table between operations. -/
def AtomTable.graph {TV : Type} {cs : ClassServer} (s : AtomTable TV) (hs : s.Inv cs) :
    AtomGraph where
  atom h := if h ∈ s.atomSet then s.key h else none
  incoming := s.incoming
  ofType := s.typeIndex
  members h t b hb x hx := by
    by_cases hm : h ∈ s.atomSet
    · rw [if_pos hm] at hb
      obtain ⟨hxs, hlt⟩ := hs.members ⟨hm, hb⟩ x hx
      obtain ⟨u, c, hk⟩ := hs.live x hxs
      exact ⟨by rw [if_pos hxs, hk]; rfl, hlt⟩
    · rw [if_neg hm] at hb
      cases hb
  dual x hx l := by
    have hxs : x ∈ s.atomSet := by
      by_contra hn
      rw [if_neg hn] at hx
      cases hx
    rw [← List.count_pos_iff, hs.dual x hxs l]
    by_cases hl : l ∈ s.atomSet
    · obtain ⟨t, b, hk⟩ := hs.live l hl
      rw [if_pos hl, List.count_pos_iff, AtomTable.outgoing_of_key hk, if_pos hl, hk]
      exact ⟨fun h => ⟨t, b, rfl, h⟩, fun ⟨_, _, e, h⟩ => by
        obtain ⟨-, rfl⟩ := Prod.mk.injEq .. ▸ Option.some.inj e
        exact h⟩
    · rw [if_neg hl, if_neg hl]
      simp
  typed t h := by
    rw [hs.types]
    by_cases hm : h ∈ s.atomSet
    · rw [if_pos hm]
      exact ⟨fun ⟨b, hb⟩ => ⟨b, hb.2⟩, fun ⟨b, hb⟩ => ⟨b, hm, hb⟩⟩
    · rw [if_neg hm]
      exact ⟨fun ⟨b, hb⟩ => absurd hb.1 hm, fun ⟨b, hb⟩ => by cases hb⟩
  unique h h' a ha ha' := by
    have key_of : ∀ {x}, (if x ∈ s.atomSet then s.key x else none) = some a → s.Has x a.1 a.2 := by
      intro x hx
      split at hx
      · rename_i hm
        exact ⟨hm, hx⟩
      · cases hx
    obtain ⟨t, b⟩ := a
    cases b with
    | node n => exact Option.some.inj ((hs.nodes.mpr (key_of ha)).symm.trans
        (hs.nodes.mpr (key_of ha')))
    | link o => exact Option.some.inj ((hs.links.mpr (key_of ha)).symm.trans
        (hs.links.mpr (key_of ha')))

namespace AtomGraph

/-- The graph of atoms added in this order to an empty table. -/
def ofList (atoms : List (TypeCode × Body))
    (hv : ∀ i : Fin atoms.length, ∀ x ∈ (atoms.get i).2.outgoing, 0 < x ∧ x ≤ i)
    (hu : atoms.Nodup) : AtomGraph where
  atom h := if h = 0 then none else atoms[h - 1]?
  incoming x := (List.range' 1 atoms.length).filter fun l =>
    ((atoms[l - 1]?).map fun a => decide (x ∈ a.2.outgoing)).getD false
  ofType t := (List.range' 1 atoms.length).filter fun h =>
    ((atoms[h - 1]?).map fun a => decide (a.1 = t)).getD false
  members h t b hb x hx := by
    by_cases h0 : h = 0
    · rw [if_pos h0] at hb
      cases hb
    · rw [if_neg h0] at hb
      obtain ⟨hlt, hget⟩ := List.getElem?_eq_some_iff.mp hb
      have := hv ⟨h - 1, hlt⟩ x (by rw [List.get_eq_getElem, hget]; exact hx)
      have hx' : x - 1 < atoms.length := by lia
      refine ⟨?_, by lia⟩
      rw [if_neg (by lia), List.getElem?_eq_getElem hx']
      rfl
  dual x _ l := by
    simp only [List.mem_filter, List.mem_range'_1]
    by_cases h0 : l = 0
    · simp [h0]
    · rw [if_neg h0]
      cases hl : atoms[l - 1]? with
      | none => simp
      | some a =>
        obtain ⟨hlt, -⟩ := List.getElem?_eq_some_iff.mp hl
        have hrange : 1 ≤ l ∧ l < 1 + atoms.length := by lia
        simp only [hrange, and_self, true_and, Option.map_some, Option.getD_some,
          decide_eq_true_eq, Option.some.injEq]
        exact ⟨fun h => ⟨a.1, a.2, rfl, h⟩, fun ⟨_, _, e, h⟩ => by rw [e]; exact h⟩
  typed t h := by
    simp only [List.mem_filter, List.mem_range'_1]
    by_cases h0 : h = 0
    · simp [h0]
    · rw [if_neg h0]
      cases hl : atoms[h - 1]? with
      | none => simp
      | some a =>
        obtain ⟨hlt, -⟩ := List.getElem?_eq_some_iff.mp hl
        have hrange : 1 ≤ h ∧ h < 1 + atoms.length := by lia
        simp only [hrange, and_self, true_and, Option.map_some, Option.getD_some,
          decide_eq_true_eq, Option.some.injEq]
        exact ⟨fun e => ⟨a.2, by rw [← e]⟩, fun ⟨_, e⟩ => by rw [e]⟩
  unique h h' a ha ha' := by
    split at ha
    · cases ha
    · split at ha'
      · cases ha'
      · obtain ⟨hlt, -⟩ := List.getElem?_eq_some_iff.mp ha
        have := (List.getElem?_inj hlt hu).mp (ha.trans ha'.symm)
        lia

variable (G : AtomGraph)

def outgoing (h : Handle) : List Handle := ((G.atom h).map fun a => a.2.outgoing).getD []

def typeOf (h : Handle) : Option TypeCode := (G.atom h).map Prod.fst

/-- Stored, and a node. -/
def isNode (h : Handle) : Bool :=
  match G.atom h with
  | some (_, .node _) => true
  | _ => false

/-- Stored, and a link. -/
def isLink (h : Handle) : Bool :=
  match G.atom h with
  | some (_, .link _) => true
  | _ => false

/-- `x` stands in the tree below `h`, or is `h`. -/
inductive InTree : Handle → Handle → Prop
  | self (h : Handle) : InTree h h
  | member {h x y : Handle} : x ∈ G.outgoing h → InTree x y → InTree h y

variable {G}

theorem mem_outgoing {h x : Handle} (hx : x ∈ G.outgoing h) :
    ∃ t b, G.atom h = some (t, b) ∧ x ∈ b.outgoing := by
  unfold outgoing at hx
  cases hb : G.atom h with
  | none => rw [hb] at hx; cases hx
  | some a =>
    rw [hb] at hx
    exact ⟨a.1, a.2, rfl, hx⟩

theorem outgoing_of_atom {h : Handle} {t : TypeCode} {b : Body} (hb : G.atom h = some (t, b)) :
    G.outgoing h = b.outgoing := by
  simp [outgoing, hb]

theorem lt_of_mem_outgoing {h x : Handle} (hx : x ∈ G.outgoing h) : x < h := by
  obtain ⟨t, b, hb, hm⟩ := mem_outgoing hx
  exact (G.members h t b hb x hm).2

theorem stored_of_mem_outgoing {h x : Handle} (hx : x ∈ G.outgoing h) : (G.atom x).isSome := by
  obtain ⟨t, b, hb, hm⟩ := mem_outgoing hx
  exact (G.members h t b hb x hm).1

theorem mem_incoming {x l : Handle} (hx : (G.atom x).isSome) :
    l ∈ G.incoming x ↔ x ∈ G.outgoing l := by
  rw [G.dual x hx]
  constructor
  · rintro ⟨t, b, hb, hm⟩
    rw [outgoing_of_atom hb]
    exact hm
  · exact mem_outgoing

theorem InTree.le {h x : Handle} (hx : G.InTree h x) : x ≤ h := by
  induction hx with
  | self => exact Nat.le_refl _
  | member hm _ ih => exact Nat.le_trans ih (Nat.le_of_lt (lt_of_mem_outgoing hm))

theorem InTree.trans {a b c : Handle} (h₁ : G.InTree a b) (h₂ : G.InTree b c) : G.InTree a c := by
  induction h₁ with
  | self => exact h₂
  | member hm _ ih => exact .member hm (ih h₂)

theorem InTree.stored {h x : Handle} (hx : G.InTree h x) (hh : (G.atom h).isSome) :
    (G.atom x).isSome := by
  induction hx with
  | self => exact hh
  | member hm _ ih => exact ih (stored_of_mem_outgoing hm)

end AtomGraph

end OpenCog
