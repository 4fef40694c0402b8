import OpenCog.Moses.KnobFields

/-! What a transformation makes of the exemplar: whatever the knobs were turned to before,
each one ends as the instance says, and nothing else is changed. -/
namespace OpenCog.Moses

open Util

variable {C O : Type}

/-- The vertex above a subtree in a setting. -/
def Setting.wrapper : Setting → Option (Vertex C O)
  | .absent => some .nullVertex
  | .present => none
  | .negated => some .logicalNot

/-- The exemplar with its subtrees in some settings and with some values. -/
def render (setting : Nat → Setting) (value : Nat → Option C) :
    Forest (Node (Vertex C O)) → Forest (Vertex C O)
  | .nil => .nil
  | .cons a c n =>
    let x := (value a.loc).elim a.data .contin
    match (setting a.loc).wrapper with
    | none => .cons x (render setting value c) (render setting value n)
    | some w => .cons w (.cons x (render setting value c) .nil) (render setting value n)

/-! ## Values in the exemplar -/

/-- The continuous values in their places. -/
def fill (value : Nat → Option C) : Forest (Node (Vertex C O)) → Forest (Node (Vertex C O))
  | .nil => .nil
  | .cons a c n =>
    .cons { a with data := (value a.loc).elim a.data .contin } (fill value c) (fill value n)

variable {base : Forest (Node (Vertex C O))} {value : Nat → Option C}
  {σ : Nat → Option (Node (Vertex C O))}

@[simp] theorem locs_fill : (fill value base).locs = base.locs := by
  induction base with
  | nil => rfl
  | cons a c n ihc ihn => simp only [fill, Forest.locs, ihc, ihn]

theorem setData_fill (i : Nat) (x : C) :
    (fill value base).setData i (.contin x) = fill (Function.update value i (some x)) base := by
  induction base with
  | nil => rfl
  | cons a c n ihc ihn =>
    simp only [fill, Forest.setData, ihc, ihn]
    by_cases ha : a.loc = i
    · subst ha
      simp only [if_pos, Function.update_self, Option.elim_some]
    · simp only [if_neg ha, Function.update_of_ne ha]

theorem copy_wrap_fill {setting : Nat → Setting}
    (h : ∀ i ∈ base.locs, (σ i).map Node.data = (setting i).wrapper) :
    ((fill value base).wrap σ).copy = render setting value base := by
  induction base with
  | nil => rfl
  | cons a c n ihc ihn =>
    have hc := ihc fun i hi => h i (by simp [Forest.locs, hi])
    have hn := ihn fun i hi => h i (by simp [Forest.locs, hi])
    have ha := h a.loc (by simp [Forest.locs])
    cases hσ : σ a.loc with
    | none =>
      rw [hσ, Option.map_none] at ha
      simp only [fill, Forest.wrap, hσ, render, ← ha, ← hc, ← hn, Forest.copy, Forest.map]
    | some w =>
      rw [hσ, Option.map_some] at ha
      simp only [fill, Forest.wrap, hσ, render, ← ha, ← hc, ← hn, Forest.copy, Forest.map]

/-! ## One knob -/

/-- The tree is the exemplar with its values, and wrappers in nodes of their own. -/
structure Dressed (base : Forest (Node (Vertex C O))) (value : Nat → Option C)
    (σ : Nat → Option (Node (Vertex C O))) (t : ComboTree C O) : Prop where
  nodes : t.nodes = (fill value base).wrap σ
  wrappers : base.Wrappers σ
  old : ∀ i ∈ base.locs, i < t.fresh
  oldWrapper : ∀ i w, σ i = some w → w.loc < t.fresh

/-- A knob for the subtree at a site knows whether it is wrapped, and by which node. -/
structure Seat (σ : Nat → Option (Node (Vertex C O))) (site : Nat) (k : LogicalSubtreeKnob) :
    Prop where
  wrapper : σ site = k.current.wrapper.map fun x => ⟨k.loc, x⟩
  loc : k.current = .present → k.loc = site

theorem Seat.congr {τ : Nat → Option (Node (Vertex C O))} {site : Nat} {k : LogicalSubtreeKnob}
    (h : Seat σ site k) (he : τ site = σ site) : Seat τ site k := ⟨he.trans h.wrapper, h.loc⟩

theorem seats_congr {τ : Nat → Option (Node (Vertex C O))} {sites : List Nat}
    {ks : List LogicalSubtreeKnob} (h : List.Forall₂ (Seat σ) sites ks)
    (he : ∀ i ∈ sites, τ i = σ i) : List.Forall₂ (Seat τ) sites ks := by
  induction h with
  | nil => exact .nil
  | cons hseat _ ih =>
    exact .cons (hseat.congr (he _ List.mem_cons_self))
      (ih fun i hi => he i (List.mem_cons_of_mem _ hi))

namespace Dressed

variable {t : ComboTree C O} {site : Nat} {k : LogicalSubtreeKnob}

theorem filled (h : Dressed base value σ t) : (fill value base).Wrappers σ :=
  ⟨by simpa using h.wrappers.nodup, by simpa using h.wrappers.apart, h.wrappers.inj⟩

theorem insertAbove (h : Dressed base value σ t) (hs : site ∈ base.locs) (hn : σ site = none)
    (x : Vertex C O) :
    Dressed base value (Function.update σ site (some ⟨t.fresh, x⟩)) (t.insertAbove site x).1 := by
  have hcase : ∀ i w, Function.update σ site (some ⟨t.fresh, x⟩) i = some w →
      (i = site ∧ w = ⟨t.fresh, x⟩) ∨ (i ≠ site ∧ σ i = some w) := by
    intro i w hi
    by_cases he : i = site
    · subst he
      rw [Function.update_self] at hi
      exact .inl ⟨rfl, (Option.some.inj hi).symm⟩
    · rw [Function.update_of_ne he] at hi
      exact .inr ⟨he, hi⟩
  constructor
  · rw [ComboTree.insertAbove, h.nodes]
    exact h.filled.insertAbove hn (fun j v hj he => h.wrappers.apart j v hj (he ▸ hs)) _
  · refine ⟨h.wrappers.nodup, fun i w hi => ?_, fun i j w w' hi hj he => ?_⟩
    · rcases hcase i w hi with ⟨-, rfl⟩ | ⟨-, hi⟩
      · exact fun hm => Nat.lt_irrefl _ (h.old _ hm)
      · exact h.wrappers.apart i w hi
    · rcases hcase i w hi with ⟨e, rfl⟩ | ⟨-, h₁⟩
      · rcases hcase j w' hj with ⟨e', -⟩ | ⟨-, h₂⟩
        · exact e.trans e'.symm
        · exact absurd (h.oldWrapper j w' h₂) (by rw [← he]; exact Nat.lt_irrefl _)
      · rcases hcase j w' hj with ⟨-, rfl⟩ | ⟨-, h₂⟩
        · exact absurd (h.oldWrapper i w h₁) (by rw [he]; exact Nat.lt_irrefl _)
        · exact h.wrappers.inj i j w w' h₁ h₂ he
  · exact fun i hi => Nat.lt_succ_of_lt (h.old i hi)
  · intro i w hi
    rcases hcase i w hi with ⟨-, rfl⟩ | ⟨-, hi⟩
    · exact Nat.lt_succ_self _
    · exact Nat.lt_succ_of_lt (h.oldWrapper i w hi)

/-- A wrapper changed or taken away makes no new node. -/
theorem rewrap (h : Dressed base value σ t) {v : Option (Node (Vertex C O))} {t' : ComboTree C O}
    (hv : ∀ w, v = some w → ∃ w', σ site = some w' ∧ w.loc = w'.loc)
    (hf : t'.fresh = t.fresh)
    (hn : t'.nodes = (fill value base).wrap (Function.update σ site v)) :
    Dressed base value (Function.update σ site v) t' := by
  have hcase : ∀ i w, Function.update σ site v i = some w → ∃ w', σ i = some w' ∧ w.loc = w'.loc := by
    intro i w hi
    by_cases he : i = site
    · subst he
      rw [Function.update_self] at hi
      exact hv w hi
    · rw [Function.update_of_ne he] at hi
      exact ⟨w, hi, rfl⟩
  constructor
  · exact hn
  · refine ⟨h.wrappers.nodup, fun i w hi => ?_, fun i j w w' hi hj he => ?_⟩
    · obtain ⟨w₀, h₀, e₀⟩ := hcase i w hi
      exact e₀ ▸ h.wrappers.apart i w₀ h₀
    · obtain ⟨w₀, h₀, e₀⟩ := hcase i w hi
      obtain ⟨w₁, h₁, e₁⟩ := hcase j w' hj
      exact h.wrappers.inj i j w₀ w₁ h₀ h₁ (e₀ ▸ e₁ ▸ he)
  · rw [hf]
    exact h.old
  · intro i w hi
    obtain ⟨w₀, h₀, e₀⟩ := hcase i w hi
    rw [hf, e₀]
    exact h.oldWrapper i w₀ h₀

theorem setWrapper (h : Dressed base value σ t) {w : Node (Vertex C O)} (hw : σ site = some w)
    (x : Vertex C O) :
    Dressed base value (Function.update σ site (some { w with data := x })) (t.setData w.loc x) := by
  refine h.rewrap (fun v hv => ⟨w, hw, ?_⟩) rfl ?_
  · rw [← Option.some.inj hv]
  · rw [ComboTree.setData, h.nodes]
    exact h.filled.setWrapper hw x

theorem unwrap (h : Dressed base value σ t) (hs : site ∈ base.locs) {w : Node (Vertex C O)}
    (hw : σ site = some w) :
    ∃ t', t.eraseFlattened w.loc = some (t', site) ∧
      Dressed base value (Function.update σ site none) t' := by
  have hafter := h.filled.after_unwrap hw none
  rw [locs_fill, if_pos hs, ← h.nodes] at hafter
  refine ⟨_, by simp only [ComboTree.eraseFlattened, hafter]; rfl, ?_⟩
  refine h.rewrap (fun w hw => by cases hw) rfl ?_
  rw [← h.filled.unwrap hw, h.nodes]

theorem setValue (h : Dressed base value σ t) {c : ContinKnob C} (hc : c.loc ∈ base.locs) (x : C) :
    Dressed base (Function.update value c.loc (some x)) σ (c.turn t x) := by
  refine ⟨?_, h.wrappers, h.old, h.oldWrapper⟩
  rw [ContinKnob.turn, ComboTree.setData, h.nodes, ← setData_fill]
  exact Forest.Wrappers.setData (fun j v hj he => h.wrappers.apart j v hj (he ▸ hc)) _

/-- A turned knob has the setting asked for, and no other knob notices. -/
theorem turn (h : Dressed base value σ t) (hs : site ∈ base.locs) (hk : Seat σ site k)
    {v : Nat} {s : Setting} (hset : Setting.ofNat? (k.mapIdx v) = some s) :
    ∃ k' t' w, k.turn t v = some (k', t') ∧ Dressed base value (Function.update σ site w) t' ∧
      Seat (Function.update σ site w) site k' ∧ k'.current = s ∧ k'.default = k.default ∧
      k'.disallowed = k.disallowed := by
  unfold LogicalSubtreeKnob.turn
  simp only [hset]
  have hwrap := hk.wrapper
  by_cases hcur : s = k.current
  · refine ⟨k, t, σ site, if_pos hcur, ?_, ?_, hcur.symm, rfl, rfl⟩
    · rwa [Function.update_eq_self]
    · rwa [Function.update_eq_self]
  rw [if_neg hcur]
  cases s with
  | absent =>
    by_cases hneg : k.current = .negated
    · rw [hneg] at hwrap
      rw [if_pos hneg]
      exact ⟨_, _, _, rfl, h.setWrapper hwrap _, ⟨Function.update_self .., fun h => by cases h⟩,
        rfl, rfl, rfl⟩
    · have hpres : k.current = .present := by
        cases hc : k.current <;> simp_all
      rw [hpres] at hwrap
      rw [if_neg hneg, hk.loc hpres]
      exact ⟨_, _, _, rfl, h.insertAbove hs hwrap _,
        ⟨Function.update_self .., fun h => by cases h⟩, rfl, rfl, rfl⟩
  | present =>
    obtain ⟨w, hw⟩ : ∃ x, k.current.wrapper (C := C) (O := O) = some x := by
      cases hc : k.current with
      | absent => exact ⟨_, rfl⟩
      | present => exact absurd hc.symm hcur
      | negated => exact ⟨_, rfl⟩
    rw [hw] at hwrap
    obtain ⟨t', ht', hd⟩ := h.unwrap hs hwrap
    simp only [ht', Option.map_some]
    exact ⟨_, _, _, rfl, hd, ⟨Function.update_self .., fun _ => rfl⟩, rfl, rfl, rfl⟩
  | negated =>
    by_cases hpres : k.current = .present
    · have hloc := hk.loc hpres
      rw [hpres] at hwrap
      rw [if_pos hpres, hloc]
      exact ⟨_, _, _, rfl, h.insertAbove hs hwrap _,
        ⟨Function.update_self .., fun h => by cases h⟩, rfl, rfl, rfl⟩
    · have habs : k.current = .absent := by
        cases hc : k.current <;> simp_all
      rw [habs] at hwrap
      rw [if_neg hpres]
      exact ⟨_, _, _, rfl, h.setWrapper hwrap _, ⟨Function.update_self .., fun h => by cases h⟩,
        rfl, rfl, rfl⟩

end Dressed

/-! ## All knobs -/

/-- The setting that raw values, from one on, give the subtree at a node. -/
def settingAt (read : Nat → Option Nat) : Nat → List Nat → List LogicalSubtreeKnob → Nat → Setting
  | raw, site :: sites, k :: ks, i =>
    if site = i then ((read raw).bind fun v => Setting.ofNat? (k.mapIdx v)).getD .present
    else settingAt read (raw + 1) sites ks i
  | _, _, _, _ => .present

theorem settingAt_of_notMem (read : Nat → Option Nat) (raw : Nat) {sites : List Nat}
    (ks : List LogicalSubtreeKnob) {i : Nat} (h : i ∉ sites) :
    settingAt read raw sites ks i = .present := by
  induction sites generalizing raw ks with
  | nil => cases ks <;> rfl
  | cons site sites ih =>
    obtain ⟨h₁, h₂⟩ := not_or.mp (mt List.mem_cons.mpr h)
    cases ks with
    | nil => rfl
    | cons k ks => rw [settingAt, if_neg (Ne.symm h₁), ih _ _ h₂]

/-- The knobs read settings only. -/
def Turned (k k' : LogicalSubtreeKnob) : Prop :=
  k'.default = k.default ∧ k'.disallowed = k.disallowed

theorem Turned.mapIdx {k k' : LogicalSubtreeKnob} (h : Turned k k') : k'.mapIdx = k.mapIdx := by
  funext v
  rw [LogicalSubtreeKnob.mapIdx, LogicalSubtreeKnob.mapIdx, h.1, h.2]

theorem Turned.arity {k k' : LogicalSubtreeKnob} (h : Turned k k') : k'.arity = k.arity := by
  rw [LogicalSubtreeKnob.arity, LogicalSubtreeKnob.arity, h.2]

theorem settingAt_turned (read : Nat → Option Nat) {ks ks' : List LogicalSubtreeKnob}
    (h : List.Forall₂ Turned ks ks') (raw : Nat) (sites : List Nat) :
    settingAt read raw sites ks' = settingAt read raw sites ks := by
  funext i
  induction h generalizing raw sites with
  | nil => rfl
  | cons hk _ ih =>
    cases sites with
    | nil => rfl
    | cons site sites => rw [settingAt, settingAt, hk.mapIdx, ih]

theorem arity_turned {ks ks' : List LogicalSubtreeKnob} (h : List.Forall₂ Turned ks ks') :
    ks'.map LogicalSubtreeKnob.arity = ks.map LogicalSubtreeKnob.arity := by
  induction h with
  | nil => rfl
  | cons hk _ ih => rw [List.map_cons, List.map_cons, hk.arity, ih]

theorem fieldsOf_turned {ks ks' : List LogicalSubtreeKnob} (h : List.Forall₂ Turned ks ks')
    [LinearOrder C] (contin : List (ContinKnob C)) : fieldsOf ks' contin = fieldsOf ks contin := by
  have hspec : ∀ ks : List LogicalSubtreeKnob, ks.map (LogicalSubtreeKnob.spec (C := C)) =
      (ks.map LogicalSubtreeKnob.arity).map fun a => .disc (Fin.ofNat (2 ^ 32) a) := by
    intro ks
    rw [List.map_map]
    rfl
  rw [fieldsOf, fieldsOf, hspec, hspec, arity_turned h]

theorem default_turned {ks ks' : List LogicalSubtreeKnob} (h : List.Forall₂ Turned ks ks')
    (hd : ∀ k ∈ ks, k.default ≤ 1) : ∀ k ∈ ks', k.default ≤ 1 := by
  induction h with
  | nil => exact hd
  | cons hk _ ih =>
    intro k hm
    rcases List.mem_cons.mp hm with rfl | hm
    · rw [hk.1]
      exact hd _ List.mem_cons_self
    · exact ih (fun k hk => hd k (List.mem_cons_of_mem _ hk)) k hm

/-- The setting of a value in range is one of the three. -/
theorem mapIdx_lt {k : LogicalSubtreeKnob} (hd : k.default ≤ 1) {v : Nat} (hv : v < k.arity) :
    Setting.ofNat? (k.mapIdx v) ≠ none := by
  have key : ∀ b : Fin 8, ∀ d < 2, ∀ v < 3 - bitCount (BitVec.ofFin b),
      Setting.ofNat? (LogicalSubtreeKnob.mapIdx ⟨0, .absent, d, BitVec.ofFin b⟩ v) ≠ none := by
    decide
  have := key k.disallowed.toFin k.default (Nat.lt_succ_of_le hd) v hv
  exact this

theorem turnDiscs_eq_none {ks : List LogicalSubtreeKnob} {vs : List Nat} {t : ComboTree C O}
    (hlen : ks.length = vs.length)
    (h : ∃ k v, (k, v) ∈ ks.zip vs ∧ Setting.ofNat? (k.mapIdx v) = none) :
    Representation.turnDiscs ks vs t = none := by
  induction ks generalizing vs t with
  | nil =>
    obtain ⟨k, v, hm, -⟩ := h
    cases hm
  | cons k ks ih =>
    cases vs with
    | nil => cases hlen
    | cons v vs =>
      rw [Representation.turnDiscs]
      obtain ⟨k₀, v₀, hm, hz⟩ := h
      rcases List.mem_cons.mp hm with he | hm
      · obtain ⟨rfl, rfl⟩ := Prod.mk.inj he
        simp only [LogicalSubtreeKnob.turn, hz, Option.bind_none]
      · cases hk : k.turn t v with
        | none => rfl
        | some p =>
          rw [Option.bind_some]
          dsimp only
          rw [ih (Nat.succ.inj hlen) ⟨k₀, v₀, hm, hz⟩, Option.map_none]

theorem turnDiscs_dressed {ks : List LogicalSubtreeKnob} {sites : List Nat} {raw : Nat → Nat}
    {read : Nat → Option Nat} {start : Nat} {t : ComboTree C O} (h : Dressed base value σ t)
    (hnodup : sites.Nodup) (hin : ∀ n ∈ sites, n ∈ base.locs)
    (hseats : List.Forall₂ (Seat σ) sites ks)
    (hread : ∀ j < ks.length, read (start + j) = some (raw (start + j)))
    (hset : ∀ k v, (k, v) ∈ ks.zip ((List.range' start ks.length).map raw) →
      Setting.ofNat? (k.mapIdx v) ≠ none) :
    ∃ ks' t' σ', Representation.turnDiscs ks ((List.range' start ks.length).map raw) t =
        some (ks', t') ∧
      Dressed base value σ' t' ∧ List.Forall₂ (Seat σ') sites ks' ∧ List.Forall₂ Turned ks ks' ∧
      (∀ i ∉ sites, σ' i = σ i) ∧
      ∀ i ∈ sites, (σ' i).map Node.data = (settingAt read start sites ks i).wrapper := by
  induction ks generalizing sites σ t start with
  | nil =>
    cases hseats
    exact ⟨[], t, σ, rfl, h, .nil, .nil, fun _ _ => rfl, fun i hi => by cases hi⟩
  | cons k ks ih =>
    obtain ⟨site, sites, hseat, hrest, rfl⟩ := List.forall₂_cons_right_iff.mp hseats
    obtain ⟨hsite, hnodup⟩ := List.nodup_cons.mp hnodup
    rw [List.length_cons, List.range'_succ, List.map_cons] at hset ⊢
    obtain ⟨s, hs⟩ := Option.ne_none_iff_exists'.mp (hset k (raw start) (by simp))
    obtain ⟨k₁, t₁, w, hk₁, hd₁, hseat₁, hcur, hdef, hdis⟩ :=
      h.turn (hin site List.mem_cons_self) hseat hs
    have hother : List.Forall₂ (Seat (Function.update σ site w)) sites ks := by
      refine seats_congr hrest fun n hn => ?_
      have hne : n ≠ site := fun he => hsite (he ▸ hn)
      rw [Function.update_of_ne hne]
    have hread' : ∀ j < ks.length, read (start + 1 + j) = some (raw (start + 1 + j)) := by
      intro j hj
      have := hread (j + 1) (Nat.succ_lt_succ hj)
      rwa [Nat.add_comm j 1, ← Nat.add_assoc] at this
    obtain ⟨ks', t', σ', hrun, hd, hs', hturned, hoff, hon⟩ := ih hd₁ hnodup
      (fun n hn => hin n (List.mem_cons_of_mem _ hn)) hother hread'
      (fun k' v hm => hset k' v (List.mem_cons_of_mem _ hm))
    have hkeep : σ' site = Function.update σ site w site := hoff site hsite
    refine ⟨k₁ :: ks', t', σ', ?_, hd, .cons (hseat₁.congr hkeep) hs', .cons ⟨hdef, hdis⟩ hturned,
      ?_, ?_⟩
    · rw [Representation.turnDiscs, hk₁, Option.bind_some]
      dsimp only
      rw [hrun, Option.map_some]
    · intro i hi
      obtain ⟨h₁, h₂⟩ := not_or.mp (mt List.mem_cons.mpr hi)
      rw [hoff i h₂, Function.update_of_ne h₁]
    · intro i hi
      by_cases he : site = i
      · subst he
        have hr := hread 0 (Nat.succ_pos _)
        rw [Nat.add_zero] at hr
        rw [settingAt, if_pos rfl, hr, Option.bind_some, hs, Option.getD_some, hkeep,
          hseat₁.wrapper, hcur, Option.map_map]
        cases s <;> rfl
      · rw [settingAt, if_neg he]
        exact hon i ((List.mem_cons.mp hi).resolve_left (Ne.symm he))

section Contin
variable [Add C] [Sub C] [Mul C] [Div C] [OfNat C 2] {fs : FieldSet C} {inst : FieldSet.Instance}

/-- The value that the fields from one on, read by the knob's own spec, give a node. -/
def valueAt (fs : FieldSet C) (inst : FieldSet.Instance) : Nat → List (ContinKnob C) → Nat → Option C
  | _, [], _ => none
  | raw, k :: ks, i =>
    if k.loc = i then fs.decode inst raw k.spec else valueAt fs inst (raw + k.depth) ks i

theorem valueAt_of_notMem (raw : Nat) {ks : List (ContinKnob C)} {i : Nat}
    (h : ∀ k ∈ ks, k.loc ≠ i) : valueAt fs inst raw ks i = none := by
  induction ks generalizing raw with
  | nil => rfl
  | cons k ks ih =>
    rw [valueAt, if_neg (h k List.mem_cons_self), ih _ fun k hk => h k (List.mem_cons_of_mem _ hk)]

/-- The values of the knobs in turn. -/
def decodeAll (fs : FieldSet C) (inst : FieldSet.Instance) : Nat → List (ContinKnob C) → Option (List C)
  | _, [] => some []
  | raw, k :: ks =>
    (fs.decode inst raw k.spec).bind fun x =>
      (decodeAll fs inst (raw + k.depth) ks).map fun xs => x :: xs

theorem continValues_eq {contin : List (ContinKnob C)} (hz : fs.nOnto = 0)
    (hc : fs.contin = contin.map ContinKnob.spec) :
    fs.continValues inst = decodeAll fs inst 0 contin := by
  have key : ∀ (ks : List (ContinKnob C)) (raw : Nat),
      (List.range ks.length).mapM (fun idx => (ks.map ContinKnob.spec)[idx]?.bind
        (fs.decode inst (raw + (((ks.map ContinKnob.spec).take idx).map Spec.depth).sum))) =
      decodeAll fs inst raw ks := by
    intro ks
    induction ks with
    | nil => exact fun raw => rfl
    | cons k ks ih =>
      intro raw
      have hdepth : k.spec.depth = k.depth := rfl
      have hsucc : ∀ idx, ((k :: ks).map ContinKnob.spec)[idx + 1]?.bind
          (fs.decode inst
            (raw + ((((k :: ks).map ContinKnob.spec).take (idx + 1)).map Spec.depth).sum)) =
          (ks.map ContinKnob.spec)[idx]?.bind
            (fs.decode inst
              (raw + k.depth + (((ks.map ContinKnob.spec).take idx).map Spec.depth).sum)) := by
        intro idx
        simp only [List.map_cons, List.getElem?_cons_succ, List.take_succ_cons, List.sum_cons,
          hdepth, Nat.add_assoc]
      have hzero : ((k :: ks).map ContinKnob.spec)[0]?.bind
          (fs.decode inst (raw + ((((k :: ks).map ContinKnob.spec).take 0).map Spec.depth).sum)) =
          fs.decode inst raw k.spec := rfl
      rw [List.length_cons, List.range_succ_eq_map, List.mapM_cons, List.mapM_map, decodeAll,
        ← ih (raw + k.depth)]
      simp only [Function.comp_def, Nat.succ_eq_add_one, hsucc, hzero]
      cases fs.decode inst raw k.spec with
      | none => rfl
      | some x =>
        cases (List.range ks.length).mapM fun idx => (ks.map ContinKnob.spec)[idx]?.bind
            (fs.decode inst
              (raw + k.depth + (((ks.map ContinKnob.spec).take idx).map Spec.depth).sum)) with
        | none => rfl
        | some xs => rfl
  rw [← key contin 0, FieldSet.continValues, hc, List.length_map]
  unfold FieldSet.getContin FieldSet.continToRawIdx
  rw [hz, hc]

theorem turnContins_dressed {ks : List (ContinKnob C)} {raw : Nat} {xs : List C} {t : ComboTree C O}
    (h : Dressed base value σ t) (hnodup : (ks.map ContinKnob.loc).Nodup)
    (hin : ∀ k ∈ ks, k.loc ∈ base.locs) (hxs : decodeAll fs inst raw ks = some xs) :
    ∃ t' value', Representation.turnContins ks xs t = some t' ∧ Dressed base value' σ t' ∧
      (∀ i, (∀ k ∈ ks, k.loc ≠ i) → value' i = value i) ∧
      ∀ k ∈ ks, value' k.loc = valueAt fs inst raw ks k.loc := by
  induction ks generalizing raw xs t value with
  | nil =>
    obtain rfl := Option.some.inj hxs
    exact ⟨t, value, rfl, h, fun _ _ => rfl, fun k hk => by cases hk⟩
  | cons k ks ih =>
    rw [decodeAll] at hxs
    obtain ⟨x, hx, hrest⟩ := Option.bind_eq_some_iff.mp hxs
    obtain ⟨xs', hxs', rfl⟩ := Option.map_eq_some_iff.mp hrest
    obtain ⟨hk, hnodup⟩ := List.nodup_cons.mp hnodup
    have hne : ∀ k' ∈ ks, k'.loc ≠ k.loc := fun k' hk' he => hk (he ▸ List.mem_map_of_mem hk')
    obtain ⟨t', value', hrun, hd, hoff, hon⟩ :=
      ih (h.setValue (hin k List.mem_cons_self) x) hnodup
        (fun k' hk' => hin k' (List.mem_cons_of_mem _ hk')) hxs'
    refine ⟨t', value', hrun, hd, fun i hi => ?_, fun k' hk' => ?_⟩
    · rw [hoff i fun k' hk' => hi k' (List.mem_cons_of_mem _ hk'),
        Function.update_of_ne (Ne.symm (hi k List.mem_cons_self))]
    · rw [valueAt]
      by_cases he : k.loc = k'.loc
      · rw [if_pos he, hx, ← he, hoff k.loc hne, Function.update_self]
      · rw [if_neg he]
        refine hon k' ((List.mem_cons.mp hk').resolve_left ?_)
        rintro rfl
        exact he rfl

theorem walk_defined {fs : FieldSet C} {inst : FieldSet.Instance} (e : C) {n raw : Nat}
    (h : ∀ i, raw ≤ i → i < raw + n → ∃ v < 3, fs.getRaw inst i = some v) (s : ContinStepper C) :
    fs.walk inst e n raw s ≠ none := by
  induction n generalizing raw s with
  | zero => exact Option.some_ne_none _
  | succ n ih =>
    obtain ⟨v, hv, hr⟩ := h raw (Nat.le_refl _) (by omega)
    have hnext : ∀ i, raw + 1 ≤ i → i < raw + 1 + n → ∃ v < 3, fs.getRaw inst i = some v :=
      fun i h₁ h₂ => h i (by omega) (by omega)
    rw [FieldSet.walk, hr]
    match v, hv with
    | 0, _ => exact Option.some_ne_none _
    | 1, _ => exact ih hnext _
    | 2, _ => exact ih hnext _

theorem decodeAll_defined {fs : FieldSet C} {inst : FieldSet.Instance} {ks : List (ContinKnob C)} {raw : Nat}
    (h : ∀ i, raw ≤ i → i < raw + (ks.map ContinKnob.depth).sum →
      ∃ v < 3, fs.getRaw inst i = some v) : decodeAll fs inst raw ks ≠ none := by
  induction ks generalizing raw with
  | nil => exact Option.some_ne_none _
  | cons k ks ih =>
    rw [List.map_cons, List.sum_cons] at h
    obtain ⟨x, hx⟩ := Option.ne_none_iff_exists'.mp
      (walk_defined (n := k.depth) k.expansion (fun i h₁ h₂ => h i h₁ (by omega)) ⟨k.mean, true, true, k.stepSize⟩)
    obtain ⟨xs, hxs⟩ := Option.ne_none_iff_exists'.mp
      (ih fun i (h₁ : raw + k.depth ≤ i) h₂ => h i (by omega) (by omega))
    have hx : fs.decode inst raw k.spec = some x := hx
    rw [decodeAll, hx, Option.bind_some, hxs, Option.map_some]
    exact Option.some_ne_none _

end Contin

/-! ## Whole runs -/

namespace Representation


variable {r r' : Representation C O} {sites : List Nat}

/-- What stays the same while knobs are turned. -/
structure Same (r r' : Representation C O) : Prop where
  disc : List.Forall₂ Turned r.disc r'.disc
  contin : r'.contin = r.contin
  fields : r'.fields = r.fields
  simplifyCandidate : r'.simplifyCandidate = r.simplifyCandidate

/-- The values of an instance are in range. -/
structure Admits (r : Representation C O) (inst : FieldSet.Instance) : Prop where
  contin : ∀ i < r.fields.discStart, ∀ v, r.fields.getRaw inst i = some v → v < 3
  disc : ∀ j k, r.disc[j]? = some k → ∀ v, r.fields.getRaw inst (r.fields.discStart + j) = some v →
    v < k.arity

theorem Same.admits (h : Same r r') {inst : FieldSet.Instance} (ha : r.Admits inst) : r'.Admits inst := by
  refine ⟨?_, fun j k' hk' v hv => ?_⟩
  · rw [h.fields]
    exact ha.contin
  · rw [h.fields] at hv
    obtain ⟨hj, rfl⟩ := List.getElem?_eq_some_iff.mp hk'
    have hj' : j < r.disc.length := by rwa [h.disc.length_eq]
    have ht := h.disc.get hj' hj
    simp only [List.get_eq_getElem] at ht
    rw [ht.arity]
    exact ha.disc j _ (List.getElem?_eq_getElem hj') v hv

section Runs
variable [Add C] [Sub C] [Mul C] [Div C] [OfNat C 2]

/-- The exemplar as an instance says. -/
def told (r : Representation C O) (base : Forest (Node (Vertex C O))) (sites : List Nat)
    (inst : FieldSet.Instance) : Forest (Vertex C O) :=
  render (settingAt (r.fields.getRaw inst) r.fields.discStart sites r.disc)
    (valueAt r.fields inst 0 r.contin) base

theorem Same.told (h : Same r r') (inst : FieldSet.Instance) :
    r'.told base sites inst = r.told base sites inst := by
  rw [Representation.told, Representation.told, h.fields, h.contin, settingAt_turned _ h.disc]

variable [LinearOrder C]

/-- An exemplar with its knobs: those for subtrees stand at distinct sites, turned to
anything, the continuous ones at distinct nodes, with any values, and the fields are
those of the knobs. -/
structure Standing (base : Forest (Node (Vertex C O))) (sites : List Nat)
    (r : Representation C O) : Prop where
  dressed : ∃ value σ, Dressed base value σ r.exemplar ∧ List.Forall₂ (Seat σ) sites r.disc ∧
    (∀ i ∉ sites, σ i = none) ∧ ∀ i, (∀ k ∈ r.contin, k.loc ≠ i) → value i = none
  sites_nodup : sites.Nodup
  sites_in : ∀ n ∈ sites, n ∈ base.locs
  contin_nodup : (r.contin.map ContinKnob.loc).Nodup
  contin_in : ∀ k ∈ r.contin, k.loc ∈ base.locs
  order : InOrder r.disc r.contin
  fields : fieldsOf r.disc r.contin = some r.fields
  default : ∀ k ∈ r.disc, k.default ≤ 1

/-- One transformation ends as the instance says, from whatever the knobs were turned to;
it is defined if the values are in range. -/
theorem Standing.transform (h : Standing base sites r) {inst : FieldSet.Instance}
    (hlen : inst.length = r.fields.packedWidth) :
    (∀ r', r.transform inst = some r' → Standing base sites r' ∧ Same r r' ∧
      r'.exemplar.nodes.copy = r.told base sites inst) ∧
    (r.Admits inst → r.transform inst ≠ none) := by
  obtain ⟨hkind, hc, hd, -⟩ := fieldsOf_specs h.fields h.order
  obtain ⟨raw, vs, bs, hraw, hvs, hbs, happ⟩ := fieldsOf_values h.fields h.order hlen
  obtain ⟨m, b, hf, -, hstart, hcount, -⟩ := fieldsOf_layout h.fields h.order
  have hsize : r.fields.rawSize = r.fields.discStart + r.disc.length := by
    rw [FieldSet.rawSize, hf, List.length_append, length_fieldRun, length_fieldRun, hcount]
  have hz : r.fields.nOnto = 0 := by
    rw [FieldSet.nOnto, FieldSet.ofKind, ofKind_zero hkind]
    rfl
  have hds : r.fields.discStart = (r.contin.map ContinKnob.depth).sum := by
    rw [FieldSet.discStart, hz, hc, List.map_map, Nat.zero_add]
    rfl
  have hread : ∀ j < r.disc.length,
      r.fields.getRaw inst (r.fields.discStart + j) = some (raw (r.fields.discStart + j)) :=
    fun j hj => hraw _ (by omega)
  obtain ⟨value, σ, hdr, hseats, hnone, hvalue⟩ := h.dressed
  have heq : r.transform inst = (decodeAll r.fields inst 0 r.contin).bind fun xs =>
      (turnContins r.contin xs r.exemplar).bind fun t =>
        (turnDiscs r.disc (vs ++ bs) t).map fun p => { r with exemplar := p.2, disc := p.1 } := by
    unfold Representation.transform
    rw [continValues_eq hz hc, hvs, hbs]
    cases decodeAll r.fields inst 0 r.contin with
    | none => rfl
    | some xs =>
      cases hx : turnContins r.contin xs r.exemplar with
      | none => simp [hx]
      | some t => cases hy : turnDiscs r.disc (vs ++ bs) t <;> simp [hx, hy]
  cases hxs : decodeAll r.fields inst 0 r.contin with
  | none =>
    rw [heq, hxs]
    refine ⟨fun r' hr' => ?_, fun ha => absurd hxs (decodeAll_defined fun i _ hi => ?_)⟩
    · cases hr'
    · have hi : i < r.fields.discStart := by omega
      exact ⟨raw i, ha.contin i hi _ (hraw i (by omega)), hraw i (by omega)⟩
  | some xs =>
    obtain ⟨t₁, value₁, hrun₁, hdr₁, hoff₁, hon₁⟩ :=
      turnContins_dressed hdr h.contin_nodup h.contin_in hxs
    have hvalue₁ : value₁ = valueAt r.fields inst 0 r.contin := by
      funext i
      by_cases hi : ∃ k ∈ r.contin, k.loc = i
      · obtain ⟨k, hk, rfl⟩ := hi
        exact hon₁ k hk
      · have hi : ∀ k ∈ r.contin, k.loc ≠ i := fun k hk he => hi ⟨k, hk, he⟩
        rw [hoff₁ i hi, hvalue i hi, valueAt_of_notMem 0 hi]
    rw [heq, hxs, Option.bind_some, hrun₁, Option.bind_some, happ]
    by_cases hset : ∃ k v, (k, v) ∈ r.disc.zip
        ((List.range' r.fields.discStart r.disc.length).map raw) ∧
        Setting.ofNat? (k.mapIdx v) = none
    · rw [turnDiscs_eq_none (by simp) hset]
      refine ⟨fun r' hr' => ?_, fun ha => ?_⟩
      · cases hr'
      · obtain ⟨k, v, hm, hz⟩ := hset
        obtain ⟨j, hj⟩ := List.mem_iff_getElem?.mp hm
        obtain ⟨hk, hv⟩ := List.getElem?_zip_eq_some.mp hj
        obtain ⟨hlt, rfl⟩ := List.getElem?_eq_some_iff.mp hk
        rw [List.getElem?_map, List.getElem?_range' hlt, Option.map_some, Nat.one_mul] at hv
        have hv : r.fields.getRaw inst (r.fields.discStart + j) = some v := (hread j hlt).trans hv
        exact absurd hz (mapIdx_lt (h.default _ (List.getElem_mem hlt)) (ha.disc j _ hk v hv))
    · obtain ⟨ks', t', σ', hrun, hdr', hseats', hturned, hoff, hon⟩ :=
        turnDiscs_dressed hdr₁ h.sites_nodup h.sites_in hseats hread
          (fun k v hm hz => hset ⟨k, v, hm, hz⟩)
      rw [hrun]
      refine ⟨fun r' hr' => ?_, fun _ => Option.some_ne_none _⟩
      obtain rfl := Option.some.inj hr'
      have hsame : Same r { r with exemplar := t', disc := ks' } := ⟨hturned, rfl, rfl, rfl⟩
      refine ⟨⟨⟨value₁, σ', hdr', hseats', fun i hi => (hoff i hi).trans (hnone i hi), ?_⟩,
        h.sites_nodup, h.sites_in, h.contin_nodup, h.contin_in, ?_, ?_, ?_⟩, hsame, ?_⟩
      · intro i hi
        rw [hvalue₁, valueAt_of_notMem 0 hi]
      · refine ⟨?_, h.order.contin⟩
        rw [← List.pairwise_map (R := fun a b => b ≤ a), arity_turned hturned, List.pairwise_map]
        exact h.order.disc
      · exact (fieldsOf_turned hturned _).trans h.fields
      · exact default_turned hturned h.default
      · rw [hdr'.nodes, hvalue₁]
        refine copy_wrap_fill fun i _ => ?_
        by_cases hi : i ∈ sites
        · exact hon i hi
        · rw [hoff i hi, hnone i hi, settingAt_of_notMem _ _ _ hi]
          rfl

/-- Whatever came before, after the last instance the exemplar is the original one with
its knobs turned as that instance says, and so is what the clean exemplar is made of. -/
theorem exemplar_forgets_history (h : Standing base sites r) {insts : List FieldSet.Instance}
    {inst : FieldSet.Instance} (hlen : ∀ i ∈ insts ++ [inst], i.length = r.fields.packedWidth) :
    (∀ r', r.transforms (insts ++ [inst]) = some r' →
      r'.exemplar.nodes.copy = r.told base sites inst ∧
      ∀ reduce, r'.getCleanExemplar reduce =
        if reduce then r.simplifyCandidate (cleanReduce (r.told base sites inst))
        else cleanReduce (r.told base sites inst)) ∧
    ((∀ i ∈ insts ++ [inst], r.Admits i) → ∃ r', r.transforms (insts ++ [inst]) = some r') := by
  induction insts generalizing r with
  | nil =>
    obtain ⟨hstep, hdef⟩ := h.transform (hlen inst (by simp))
    have hrun : r.transforms ([] ++ [inst]) = r.transform inst := by
      rw [List.nil_append, transforms, List.foldlM_cons]
      cases r.transform inst <;> rfl
    rw [hrun]
    refine ⟨fun r' hr' => ?_, fun ha => Option.ne_none_iff_exists'.mp (hdef (ha inst (by simp)))⟩
    obtain ⟨-, hsame, hcopy⟩ := hstep r' hr'
    refine ⟨hcopy, fun reduce => ?_⟩
    rw [getCleanExemplar, hcopy, hsame.simplifyCandidate]
  | cons i insts ih =>
    obtain ⟨hstep, hdef⟩ := h.transform (hlen i (by simp))
    have hrun : r.transforms (i :: insts ++ [inst]) =
        (r.transform i).bind fun r₁ => r₁.transforms (insts ++ [inst]) := by
      rw [List.cons_append, transforms, List.foldlM_cons]
      rfl
    have hmem : ∀ j ∈ insts ++ [inst], j ∈ i :: insts ++ [inst] := fun j hj =>
      List.mem_cons_of_mem i hj
    have hlen' : ∀ r₁, r.transform i = some r₁ →
        ∀ j ∈ insts ++ [inst], j.length = r₁.fields.packedWidth := by
      intro r₁ h₁ j hj
      rw [(hstep r₁ h₁).2.1.fields]
      exact hlen j (hmem j hj)
    rw [hrun]
    refine ⟨fun r' hr' => ?_, fun ha => ?_⟩
    · obtain ⟨r₁, h₁, hr'⟩ := Option.bind_eq_some_iff.mp hr'
      have hsame := (hstep r₁ h₁).2.1
      have := (ih (hstep r₁ h₁).1 (hlen' r₁ h₁)).1 r' hr'
      rwa [hsame.told, hsame.simplifyCandidate] at this
    · obtain ⟨r₁, h₁⟩ := Option.ne_none_iff_exists'.mp (hdef (ha i (by simp)))
      have hsame := (hstep r₁ h₁).2.1
      obtain ⟨r', hr'⟩ := (ih (hstep r₁ h₁).1 (hlen' r₁ h₁)).2 fun j hj =>
        hsame.admits (ha j (hmem j hj))
      exact ⟨r', by rw [h₁, Option.bind_some, hr']⟩

end Runs

/-! A conjunction of a literal, of a disjunction that is absent and holds a negated literal,
and of a term with a constant. -/

def sampleBase : Forest (Node (Vertex Nat Nat)) :=
  .cons ⟨0, .logicalAnd⟩
    (.cons ⟨1, .other 1⟩ .nil
      (.cons ⟨2, .logicalOr⟩ (.cons ⟨3, .other 2⟩ .nil .nil)
        (.cons ⟨4, .other 0⟩ (.cons ⟨5, .contin 3⟩ .nil .nil) .nil))) .nil

def sampleWrappers : Nat → Option (Node (Vertex Nat Nat))
  | 2 => some ⟨6, .nullVertex⟩
  | 3 => some ⟨7, .logicalNot⟩
  | _ => none

def sample : Representation Nat Nat where
  exemplar := { nodes := sampleBase.wrap sampleWrappers, fresh := 8 }
  disc := [⟨1, .present, 1, 0#3⟩, ⟨6, .absent, 0, 0#3⟩, ⟨7, .negated, 0, 2#3⟩]
  contin := [⟨5, 3, 1, 1, 1⟩]
  fields :=
    { fields := [⟨2, 0, 0⟩, ⟨2, 0, 2⟩, ⟨2, 0, 4⟩, ⟨1, 0, 6⟩],
      specs := [(.contin 3 1 1 1, 1), (.disc 3, 2), (.disc 2, 1)] }
  simplifyCandidate := id

theorem sample_standing : Standing sampleBase [1, 2, 3] sample := by
  have hσ : ∀ i w, sampleWrappers i = some w → (i = 2 ∧ w.loc = 6) ∨ (i = 3 ∧ w.loc = 7) := by
    intro i w h
    unfold sampleWrappers at h
    split at h
    · exact .inl ⟨rfl, by rw [← Option.some.inj h]⟩
    · exact .inr ⟨rfl, by rw [← Option.some.inj h]⟩
    · cases h
  refine ⟨⟨fun _ => none, sampleWrappers, ⟨rfl, ⟨by decide, ?_, ?_⟩, by decide, ?_⟩, ?_, ?_, ?_⟩,
    by decide, by decide, by decide, by decide, ⟨by decide, by decide⟩, rfl, by decide⟩
  · intro i w h
    rcases hσ i w h with ⟨-, e⟩ | ⟨-, e⟩ <;> rw [e] <;> decide
  · intro i j w w' h h' he
    rcases hσ i w h with ⟨rfl, e⟩ | ⟨rfl, e⟩ <;> rcases hσ j w' h' with ⟨rfl, e'⟩ | ⟨rfl, e'⟩ <;>
      first | rfl | omega
  · intro i w h
    show w.loc < 8
    rcases hσ i w h with ⟨-, e⟩ | ⟨-, e⟩ <;> omega
  · exact .cons ⟨rfl, fun _ => rfl⟩ (.cons ⟨rfl, nofun⟩ (.cons ⟨rfl, nofun⟩ .nil))
  · intro i hi
    cases h : sampleWrappers i with
    | none => rfl
    | some w =>
      rcases hσ i w h with ⟨rfl, -⟩ | ⟨rfl, -⟩ <;> exact absurd hi (by decide)
  · exact fun _ _ => rfl

theorem sample_admits {inst : FieldSet.Instance} {a b c d : Nat}
    (h : (List.range 4).map (sample.fields.getRaw inst) = [some a, some b, some c, some d])
    (ha : a < 3) (hb : b < 3) (hc : c < 3) (hd : d < 2) : sample.Admits inst := by
  obtain ⟨h₀, h₁, h₂, h₃⟩ : sample.fields.getRaw inst 0 = some a ∧
      sample.fields.getRaw inst 1 = some b ∧ sample.fields.getRaw inst 2 = some c ∧
      sample.fields.getRaw inst 3 = some d := by
    simpa [List.range_succ] using h
  have hstart : sample.fields.discStart = 1 := by decide
  refine ⟨fun i hi v hv => ?_, fun j k hk v hv => ?_⟩
  · rw [hstart, Nat.lt_one_iff] at hi
    subst hi
    rw [h₀] at hv
    obtain rfl := Option.some.inj hv
    exact ha
  · rw [hstart] at hv
    match j, hk with
    | 0, hk =>
      obtain rfl := Option.some.inj hk
      obtain rfl := Option.some.inj (h₁.symm.trans hv)
      exact hb
    | 1, hk =>
      obtain rfl := Option.some.inj hk
      obtain rfl := Option.some.inj (h₂.symm.trans hv)
      exact hc
    | 2, hk =>
      obtain rfl := Option.some.inj hk
      obtain rfl := Option.some.inj (h₃.symm.trans hv)
      exact hd

theorem forgets_history_of_sample :
    ∃ r', sample.transforms [[89#32], [34#32]] = some r' ∧
      r'.exemplar.nodes.copy = sample.told sampleBase [1, 2, 3] [34#32] := by
  have hlen : ∀ i ∈ [[89#32]] ++ [[34#32]], i.length = sample.fields.packedWidth := by decide
  have hadm : ∀ i ∈ [[89#32]] ++ [[34#32]], sample.Admits i := by
    intro i hi
    rcases List.mem_pair.mp hi with rfl | rfl
    · exact sample_admits (a := 1) (b := 2) (c := 1) (d := 1) (by decide) (by decide) (by decide)
        (by decide) (by decide)
    · exact sample_admits (a := 2) (b := 0) (c := 2) (d := 0) (by decide) (by decide) (by decide)
        (by decide) (by decide)
  obtain ⟨hsome, hdef⟩ := exemplar_forgets_history sample_standing hlen
  obtain ⟨r', hr'⟩ := hdef hadm
  exact ⟨r', hr', (hsome r' hr').1⟩

end Representation

end OpenCog.Moses
