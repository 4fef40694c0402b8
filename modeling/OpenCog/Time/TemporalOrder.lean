import OpenCog.Time.TimeAgreement

/-! Temporals as values: their names, the order `compareTo` puts on them and the functors of
the hash tables. The order is right up to the temporals whose upper bound wraps. -/
namespace OpenCog.Temporal

/-! ## Names -/

theorem getTimeNodeName_injective : Function.Injective getTimeNodeName := by
  intro t u h
  have hread : getFromTimeNodeName t.getTimeNodeName = getFromTimeNodeName u.getTimeNodeName :=
    congrArg getFromTimeNodeName h
  rw [getFromTimeNodeName_getTimeNodeName, getFromTimeNodeName_getTimeNodeName] at hread
  exact Option.some.inj hread

/-- Whatever the constructor accepts comes back from its name, so no two temporals share
a time node. -/
theorem time_node_names_are_faithful :
    (∀ (a b : Nat) (normal : Bool), (init a b normal).bind
        (fun t => getFromTimeNodeName t.getTimeNodeName) = init a b normal) ∧
    (∀ t : Temporal, getFromTimeNodeName t.getTimeNodeName = some t) ∧
    Function.Injective getTimeNodeName := by
  refine ⟨fun a b normal => ?_, getFromTimeNodeName_getTimeNodeName, getTimeNodeName_injective⟩
  cases h : init a b normal with
  | none => rfl
  | some t => exact getFromTimeNodeName_getTimeNodeName t

example : (init 5 2 true).map getTimeNodeName = some "5:2:1".toList := by decide

/-! ## Order -/

/-- `hashTemporal`: the hash of the first field alone. -/
def hashTemporal (hash : Nat → Int) (t : Temporal) : Int := hash t.a

/-- `equalTemporal`: the hash tables compare by order, not by `==`. -/
def equalTemporal (t u : Temporal) : Bool := t.compareTo u = 0

/-- A normal distribution whose mean and variance do not fit 64 bits together. The check of
`init` adds in 64 bits too, so it sees only what is left of the sum. -/
def Wraps (t : Temporal) : Prop := t.normal = true ∧ ULONG_SIZE ≤ t.a + t.b

instance (t : Temporal) : Decidable t.Wraps := inferInstanceAs (Decidable (_ ∧ _))

theorem lower_eq_of_normal {t : Temporal} (h : t.normal = true) : t.getLowerBound + t.b = t.a := by
  have hs := t.sane
  rw [if_pos h] at hs
  rw [getLowerBound, if_pos h]
  exact Nat.sub_add_cancel hs.1

theorem upper_eq_of_normal {t : Temporal} (h : t.normal = true) :
    t.getUpperBound = t.a + t.b ↔ ¬ t.Wraps := by
  rw [getUpperBound, if_pos h, Wraps]
  constructor
  · intro he hw
    have := Nat.mod_lt (t.a + t.b) (show 0 < ULONG_SIZE by decide)
    omega
  · intro hw
    apply Nat.mod_eq_of_lt
    have : ¬ ULONG_SIZE ≤ t.a + t.b := fun hle => hw ⟨h, hle⟩
    omega

theorem bounds_of_interval {t : Temporal} (h : t.normal = false) :
    t.getLowerBound = t.a ∧ t.getUpperBound = t.b ∧ t.a ≤ t.b := by
  have hs := t.sane
  rw [if_neg (by simp [h])] at hs
  exact ⟨by simp [getLowerBound, h], by simp [getUpperBound, h], hs⟩

theorem lower_le_upper {t : Temporal} (hw : ¬ t.Wraps) : t.getLowerBound ≤ t.getUpperBound := by
  cases h : t.normal with
  | false =>
    obtain ⟨hl, hu, hle⟩ := bounds_of_interval h
    omega
  | true =>
    have hl := lower_eq_of_normal h
    have hu := (upper_eq_of_normal h).mpr hw
    omega

@[ext] theorem ext {t u : Temporal} (ha : t.a = u.a) (hb : t.b = u.b)
    (hn : t.normal = u.normal) : t = u := by
  cases t
  cases u
  simp_all

/-- Without the wrapped ones the key of the order tells temporals apart. -/
theorem rank_injective {t u : Temporal} (ht : ¬ t.Wraps) (hu : ¬ u.Wraps)
    (h : t.rank = u.rank) : t = u := by
  simp only [rank, toLex_inj, Prod.mk.injEq] at h
  obtain ⟨hlow, hup, hkind⟩ := h
  have hn : t.normal = u.normal := by
    cases htn : t.normal <;> cases hun : u.normal <;> simp [htn, hun] at hkind ⊢
  cases htn : t.normal with
  | false =>
    obtain ⟨htl, htu, -⟩ := bounds_of_interval htn
    obtain ⟨hul, huu, -⟩ := bounds_of_interval (hn ▸ htn)
    exact ext (by omega) (by omega) hn
  | true =>
    have hun : u.normal = true := hn ▸ htn
    have htl := lower_eq_of_normal htn
    have hul := lower_eq_of_normal hun
    have htu := (upper_eq_of_normal htn).mpr ht
    have huu := (upper_eq_of_normal hun).mpr hu
    exact ext (by omega) (by omega) hn

theorem compareTo_nonpos (t u : Temporal) : t.compareTo u ≤ 0 ↔ t.rank ≤ u.rank := by
  rw [← not_lt, compareTo_pos, not_lt]

/-- What is asked of a collection of accepted temporals: the bounds are computed in range and
in order, `compareTo` is a total order whose ties are the equal ones, and what the hash
tables hold equal hashes equally. -/
structure OrderedOn (hash : Nat → Int) (accepted : Set Temporal) : Prop where
  bounds : ∀ t ∈ accepted, t.getLowerBound ≤ t.getUpperBound
  unwrapped : ∀ t ∈ accepted, t.normal = true →
    t.getLowerBound + t.b = t.a ∧ t.getUpperBound = t.a + t.b
  antisymm : ∀ x ∈ accepted, ∀ y ∈ accepted, x.compareTo y ≤ 0 → y.compareTo x ≤ 0 → x = y
  reversed : ∀ x ∈ accepted, ∀ y ∈ accepted, x.compareTo y < 0 ↔ 0 < y.compareTo x
  trans : ∀ x ∈ accepted, ∀ y ∈ accepted, ∀ z ∈ accepted,
    x.compareTo y ≤ 0 → y.compareTo z ≤ 0 → x.compareTo z ≤ 0
  total : ∀ x ∈ accepted, ∀ y ∈ accepted, x.compareTo y ≤ 0 ∨ y.compareTo x ≤ 0
  zero : ∀ x ∈ accepted, ∀ y ∈ accepted, x.compareTo y = 0 ↔ x = y
  hashes : ∀ x ∈ accepted, ∀ y ∈ accepted, equalTemporal x y = true →
    hashTemporal hash x = hashTemporal hash y

theorem compareTo_zero_iff {x y : Temporal} (hx : ¬ x.Wraps) (hy : ¬ y.Wraps) :
    x.compareTo y = 0 ↔ x = y := by
  rw [compareTo_eq_zero]
  exact ⟨rank_injective hx hy, fun h => h ▸ rfl⟩

theorem orderedOn_of_unwrapped {hash : Nat → Int} {accepted : Set Temporal}
    (h : ∀ t ∈ accepted, ¬ t.Wraps) : OrderedOn hash accepted where
  bounds t ht := lower_le_upper (h t ht)
  unwrapped t ht hn := ⟨lower_eq_of_normal hn, (upper_eq_of_normal hn).mpr (h t ht)⟩
  antisymm x hx y hy hxy hyx := by
    rw [compareTo_nonpos] at hxy hyx
    exact rank_injective (h x hx) (h y hy) (le_antisymm hxy hyx)
  reversed x _ y _ := by rw [compareTo_neg, compareTo_pos]
  trans x _ y _ z _ hxy hyz := by
    rw [compareTo_nonpos] at hxy hyz ⊢
    exact le_trans hxy hyz
  total x _ y _ := by
    rw [compareTo_nonpos, compareTo_nonpos]
    exact le_total _ _
  zero x hx y hy := compareTo_zero_iff (h x hx) (h y hy)
  hashes x hx y hy he := by
    have heq := (compareTo_zero_iff (h x hx) (h y hy)).mp (of_decide_eq_true he)
    rw [heq]

/-- `compareTo` is the order it is documented to be on exactly the collections without a
wrapped normal distribution. -/
theorem ordered_iff_unwrapped (hash : Nat → Int) (accepted : Set Temporal) :
    OrderedOn hash accepted ↔ ∀ t ∈ accepted, ¬ t.Wraps := by
  constructor
  · intro h t ht hw
    exact (upper_eq_of_normal hw.1).mp (h.unwrapped t ht hw.1).2 hw
  · exact orderedOn_of_unwrapped

/-- Mean 2⁶⁴ − 1 and variance 1: the sum the constructor checks is 0. The lower bound is then
above the upper one; mean and variance 2⁶³ tie with the distribution at 0. -/
theorem wrapped_normal_accepted :
    (∃ t, init (ULONG_SIZE - 1) 1 true = some t ∧ t.getUpperBound = 0 ∧
      t.getLowerBound = ULONG_SIZE - 2) ∧
    (∃ t u, init (ULONG_SIZE / 2) (ULONG_SIZE / 2) true = some t ∧ init 0 0 true = some u ∧
      t.compareTo u = 0 ∧ t ≠ u) ∧
    ¬ ∀ hash : Nat → Int, OrderedOn hash {t | init t.a t.b t.normal = some t} := by
  refine ⟨⟨⟨ULONG_SIZE - 1, 1, true, by decide, by decide, by decide⟩, rfl, by decide, by decide⟩,
    ⟨⟨ULONG_SIZE / 2, ULONG_SIZE / 2, true, by decide, by decide, by decide⟩,
      ⟨0, 0, true, by decide, by decide, by decide⟩, rfl, rfl, by decide, by decide⟩, ?_⟩
  intro h
  have hb := (h fun _ => 0).bounds
    ⟨ULONG_SIZE - 1, 1, true, by decide, by decide, by decide⟩ (init_eq _)
  exact absurd hb (by decide)

end OpenCog.Temporal
