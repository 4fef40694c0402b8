import OpenCog.Persist.SavingLoading

/-! Saving and loading. The loaded atoms are the saved ones under the map from old to new
handles; whether the loaded table still finds its unordered links depends on the order in
which the dump lists their members. -/
namespace OpenCog

open AtomTable

variable {TV E : Type}

/-- A body under a map of handles. -/
def Body.rename (m : Handle → Handle) : Body → Body
  | .node name => .node name
  | .link o => .link (o.map m)

theorem AtomTable.WellTyped.rename {cs : ClassServer} {t : TypeCode} {b : Body}
    (h : WellTyped cs t b) (m : Handle → Handle) : WellTyped cs t (b.rename m) := by
  cases b with
  | node n => exact h
  | link o => exact ⟨h.1, by rw [List.length_map]; exact h.2⟩

namespace SavingLoading

/-! ## The order of the dump -/

section Order
variable {cs : ClassServer} {order : List Handle → List Handle} {s : AtomTable TV}

theorem mem_handles (hs : Inv cs s) (ho : ∀ l, (order l).Perm l) {type : TypeCode} {h : Handle} :
    h ∈ handles cs order s type ↔ ∃ t b, s.Has h t b ∧ cs.isA t type = true := by
  simp only [handles, List.mem_flatMap, List.mem_range]
  constructor
  · rintro ⟨t, ht, hm⟩
    split at hm
    · next hc =>
      rw [(ho _).mem_iff, List.mem_dedup] at hm
      obtain ⟨b, hb⟩ := hs.types.mp hm
      refine ⟨t, b, hb, ?_⟩
      rcases Bool.or_eq_true_iff.mp hc with he | he
      · rw [← of_decide_eq_true he]
        exact cs.isA_refl t (hs.typed hb).lt_nTypes
      · exact he
    · cases hm
  · rintro ⟨t, b, hb, ha⟩
    refine ⟨t, Nat.lt_succ_of_lt (hs.typed hb).lt_nTypes, ?_⟩
    rw [if_pos (by simp [ha]), (ho _).mem_iff, List.mem_dedup]
    exact hs.types.mpr ⟨b, hb⟩

theorem nodup_handles (hs : Inv cs s) (ho : ∀ l, (order l).Perm l) (type : TypeCode) :
    (handles cs order s type).Nodup := by
  rw [handles, List.nodup_flatMap]
  refine ⟨fun t _ => ?_, List.nodup_range.imp fun {t u} hne => ?_⟩
  · split
    · exact (ho _).nodup_iff.mpr (List.nodup_dedup _)
    · exact List.nodup_nil
  · intro h ht hu
    dsimp only at ht hu
    split at ht
    · split at hu
      · rw [(ho _).mem_iff, List.mem_dedup] at ht hu
        obtain ⟨b, hb⟩ := hs.types.mp ht
        obtain ⟨c, hc⟩ := hs.types.mp hu
        exact hne (Prod.mk.inj (Option.some.inj (hb.2.symm.trans hc.2))).1
      · cases hu
    · cases ht

end Order

/-! ## Loading what was saved -/

section Load
variable {cs : ClassServer} (names : TypeNames cs) (codec : TruthCodec TV E) (ops : TruthOps TV)
  {order : List Handle → List Handle} {s : AtomTable TV}

/-- The load after the atoms of `p` of the dump. -/
structure Copied (cs : ClassServer) (s : AtomTable TV) (m : Handle → Handle) (b₀ : Handle)
    (p : List Handle) (l : Loading TV) : Prop where
  inv : Inv cs l.table
  brkUuid : l.table.brkUuid = b₀ + p.length
  atoms : ∀ h, l.atoms h = if h ∈ p then some (some (m h)) else none
  stored : ∀ g, g ∈ l.table.atomSet ↔ ∃ h ∈ p, m h = g
  key : ∀ h ∈ p, ∀ {t b}, s.key h = some (t, b) → l.table.key (m h) = some (t, b.rename m)
  avOf : ∀ h ∈ p, l.table.avOf (m h) = s.avOf h

end Load

/-! ## What a loaded table owes the saved one -/

/-- The members an outgoing sequence may have, up to the map. -/
def SameMembers (cs : ClassServer) (m : Handle → Handle) (t : TypeCode) (o o' : List Handle) :
    Prop :=
  if cs.isA t UNORDERED_LINK then o'.Perm (o.map m) else o' = o.map m

structure Isomorphic (cs : ClassServer) (m : Handle → Handle) (s s' : AtomTable TV) : Prop where
  inj : ∀ g ∈ s.atomSet, ∀ h ∈ s.atomSet, m g = m h → g = h
  onto : ∀ g, g ∈ s'.atomSet ↔ ∃ h ∈ s.atomSet, m h = g
  node : ∀ {h t n}, s.Has h t (.node n) → s'.Has (m h) t (.node n)
  link : ∀ {h t o}, s.Has h t (.link o) → ∃ o', s'.Has (m h) t (.link o') ∧ SameMembers cs m t o o'
  avOf : ∀ h ∈ s.atomSet, s'.avOf (m h) = s.avOf h

/-- Adding a saved atom again gives the loaded one and no other atom, whatever the slots
of the atom space do. -/
structure Answers (cs : ClassServer) (ops : TruthOps TV) (m : Handle → Handle)
    (s s' : AtomTable TV) : Prop where
  addNode : ∀ {σ : Type} (slots : Slots TV σ) (sp : AtomSpace TV σ), sp.atomTable = s' →
    ∀ {h t n}, s.Has h t (.node n) → ∀ tv, (sp.addNode cs ops slots t n tv).2 = some (m h) ∧
      (sp.addNode cs ops slots t n tv).1.atomTable.atomSet = s'.atomSet
  addLink : ∀ {σ : Type} (slots : Slots TV σ) (sp : AtomSpace TV σ), sp.atomTable = s' →
    ∀ {h t o o'}, s.Has h t (.link o) → SameMembers cs m t o o' → ∀ tv,
      (sp.addLink cs ops slots t o' tv).2 = some (m h) ∧
      (sp.addLink cs ops slots t o' tv).1.atomTable.atomSet = s'.atomSet

/-- `save` and then `load` into `t₀`. -/
def RoundTrips (cs : ClassServer) (names : TypeNames cs) (codec : TruthCodec TV E)
    (ops : TruthOps TV) (order : List Handle → List Handle) (s t₀ : AtomTable TV) : Prop :=
  ∃ d l m, save cs names codec order s = some d ∧ load cs names codec ops d t₀ = some l ∧
    (∀ h ∈ s.atomSet, l.atoms h = some (some (m h))) ∧
    Isomorphic cs m s l.table ∧ Answers cs ops m s l.table

section AddAgain
variable {σ : Type} {cs : ClassServer} (ops : TruthOps TV) (slots : Slots TV σ)
  (sp : AtomSpace TV σ)

/-- A sequence the index does not have goes to the constructor. -/
theorem addLink_of_not_has (hs : Inv cs sp.atomTable) {t : TypeCode} {o : List Handle}
    (ht : cs.isA t LINK = true) (hn : ∀ h, ¬ sp.atomTable.Has h t (.link o)) (tv : TV) :
    sp.addLink cs ops slots t o tv = sp.payDefault.addAtom ops slots
      (some (.init ops t (.link (Atom.setOutgoingSet cs t o)) tv)) := by
  have hnone : sp.atomTable.getHandleBySeq t o = none := by
    cases hg : sp.atomTable.getHandleBySeq t o with
    | none => rfl
    | some h => exact absurd (hs.links.mp hg) (hn h)
  simp only [AtomSpace.addLink, hnone, Option.filter_none, Atom.newLink, ht, if_true]

theorem addLink_of_sorted (hs : Inv cs sp.atomTable) {h : Handle} {t : TypeCode}
    {o : List Handle} (hn : ∀ h, ¬ sp.atomTable.Has h t (.link o))
    (hh : sp.atomTable.Has h t (.link (Atom.setOutgoingSet cs t o))) (tv : TV) :
    (sp.addLink cs ops slots t o tv).2 = some h ∧
      (sp.addLink cs ops slots t o tv).1.atomTable.atomSet = sp.atomTable.atomSet := by
  have hget := (getHandle_iff (a := Atom.init ops t (.link (Atom.setOutgoingSet cs t o)) tv) hs
    (hs.typed hh)).mpr hh
  rw [addLink_of_not_has ops slots sp hs (hs.typed hh).1 hn]
  simp only [AtomSpace.addAtom, AtomSpace.payDefault, add, hget, atomSet_merge, and_self]

end AddAgain

/-! ## The round trip -/

section RoundTrip
variable {cs : ClassServer} (names : TypeNames cs) (codec : TruthCodec TV E) (ops : TruthOps TV)
  {order : List Handle → List Handle} {s : AtomTable TV}

theorem Copied.has {m : Handle → Handle} {b₀ : Handle} {p : List Handle} {l : Loading TV}
    (hc : Copied cs s m b₀ p l) {h : Handle} {t : TypeCode} {b : Body} (hp : h ∈ p)
    (hb : s.Has h t b) : l.table.Has (m h) t (b.rename m) :=
  ⟨(hc.stored _).mpr ⟨h, hp, rfl⟩, hc.key h hp hb.2⟩

end RoundTrip

/-! ## Concrete dumps -/

def withAtom (s : AtomTable Unit) (t : TypeCode) (b : Body) : AtomTable Unit :=
  (s.add unitOps (.init unitOps t b ()) true).1

def twoNodes (t u : TypeCode) : AtomTable Unit :=
  withAtom (withAtom empty t (.node "p")) u (.node "c")

end SavingLoading

end OpenCog
