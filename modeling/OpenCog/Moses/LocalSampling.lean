import OpenCog.Moses.LocalLeaves

/-! A whole model learned and sampled: along an order in which each raw field comes after those it
is split on, every value is one that a row has behind the same values before it. -/
namespace OpenCog.Moses.LocalStructure

open Util

variable {P : Partition Row} {rows rows' : List Row} {idx : Nat} {t t' : DTree} {ts ts' : List DTree}
  {x y m tmp : Row} {draw : Rat} {draws : Nat → Rat}

/-! ## Learning -/

/-- The leaves hold what was routed to them. -/
structure Learnt (rows : List Row) (idx : Nat) (t t' : DTree) : Prop where
  splits : SameSplits t t'
  room : ∀ x ∈ rows, Room idx t 0 x
  leaf : ∀ p d, leafAt t 0 p = some d →
    leafAt t' 0 p = some (tally (d.length - 1) idx (rows.filter fun x => route x t 0 = p))

theorem Learnt.perm (h : Learnt rows idx t t') (hperm : rows.Perm rows') :
    Learnt rows' idx t t' := by
  refine ⟨h.splits, fun x hx => h.room x (hperm.mem_iff.mpr hx), fun p d hd => ?_⟩
  rw [h.leaf p d hd, tally_perm (hperm.filter _)]

theorem SameSplits.leafAt {f f' : DTree} {k : Nat} {p d' : List Nat} (h : SameSplits f f')
    (hd : leafAt f' k p = some d') : ∃ d, leafAt f k p = some d := by
  induction h generalizing k p with
  | nil => cases hd
  | @leaf d d₁ n n' _ ih =>
    cases k with
    | zero =>
      cases p with
      | nil => exact ⟨d, rfl⟩
      | cons b p => cases hd
    | succ k => exact ih hd
  | @split d c c' n n' hc hs _ ihc ihn =>
    cases k with
    | zero =>
      cases p with
      | nil =>
        rw [LocalStructure.leafAt, if_neg (by rw [hs.count]; exact hc)] at hd
        cases hd
      | cons b p => exact ihc hd
    | succ k => exact ihn hd

/-- The sum of a leaf is the number of rows routed to it. -/
theorem Learnt.total (h : Learnt rows idx t t') {p d : List Nat} (hd : leafAt t' 0 p = some d) :
    d.getLast? = some (rows.countP fun x => route x t' 0 = p) := by
  obtain ⟨d₀, hd₀⟩ := h.splits.leafAt hd
  rw [h.leaf p d₀ hd₀] at hd
  obtain rfl := Option.some.inj hd
  rw [tally, List.getLast?_concat, List.countP_eq_length_filter]
  simp only [h.splits.route]

/-- One tree before learning. -/
def Single (t : DTree) : Prop := Formed t ∧ t.count = 1

theorem recLearn_single (ht : Single t) (hroom : ∀ x ∈ rows, Room idx t 0 x) :
    ∃ t' rows', recLearn P idx t [rows] = some (t', rows') ∧ rows'.Perm rows ∧
      Learnt rows idx t t' := by
  obtain ⟨t', rows', hrun, hperm, hsame, hleaf⟩ := @recLearn_spec P idx t [rows] ht.1
    (by rw [ht.2]; rfl) fun k l hl x hx => by
      cases k with
      | zero =>
        obtain rfl := Option.some.inj hl
        exact hroom x hx
      | succ k => cases hl
  rw [List.flatten_singleton] at hperm
  exact ⟨t', rows', hrun, hperm, hsame, hroom, fun p d hd => hleaf 0 rows p d rfl hd⟩

theorem probsLearning_spec (hts : ∀ t ∈ ts, Single t)
    (hroom : ∀ i t, ts[i]? = some t → ∀ x ∈ rows, Room (idx + i) t 0 x) :
    ∃ ts', probsLearning P idx ts rows = some ts' ∧ ts'.length = ts.length ∧
      ∀ i t, ts[i]? = some t → ∃ t', ts'[i]? = some t' ∧ Learnt rows (idx + i) t t' := by
  induction ts generalizing idx rows with
  | nil => exact ⟨[], rfl, rfl, nofun⟩
  | cons t ts ih =>
    obtain ⟨t', rows', hrun, hperm, hlearnt⟩ := recLearn_single (P := P)
      (hts t List.mem_cons_self) (hroom 0 t rfl)
    obtain ⟨ts', hrest, hlen, hall⟩ := @ih rows' (idx + 1)
      (fun t ht => hts t (List.mem_cons_of_mem _ ht)) fun i t ht x hx => by
        rw [Nat.add_assoc, Nat.add_comm 1]
        exact hroom (i + 1) t ht x (hperm.mem_iff.mp hx)
    refine ⟨t' :: ts', ?_, by rw [List.length_cons, List.length_cons, hlen], fun i u hu => ?_⟩
    · rw [probsLearning, Nat.add_zero] at *
      rw [hrun, Option.bind_some, hrest, Option.map_some]
    · cases i with
      | zero =>
        obtain rfl := Option.some.inj hu
        exact ⟨t', rfl, hlearnt⟩
      | succ i =>
        obtain ⟨u', hu', hl⟩ := hall i u hu
        rw [Nat.add_assoc, Nat.add_comm 1] at hl
        exact ⟨u', hu', hl.perm hperm⟩

theorem length_probsLearning (h : probsLearning P idx ts rows = some ts') :
    ts'.length = ts.length := by
  induction ts generalizing idx rows ts' with
  | nil =>
    obtain rfl := Option.some.inj h
    rfl
  | cons t ts ih =>
    obtain ⟨r, -, h⟩ := Option.bind_eq_some_iff.mp h
    obtain ⟨next, hnext, rfl⟩ := Option.map_eq_some_iff.mp h
    rw [List.length_cons, List.length_cons, ih hnext]

/-- Learning finds room for all values. -/
theorem probsLearning_room (hts : ∀ t ∈ ts, Single t)
    (h : probsLearning P idx ts rows = some ts') :
    ∀ i t, ts[i]? = some t → ∀ x ∈ rows, Room (idx + i) t 0 x := by
  induction ts generalizing idx rows ts' with
  | nil => nofun
  | cons t ts ih =>
    obtain ⟨r, hr, h⟩ := Option.bind_eq_some_iff.mp h
    obtain ⟨next, hnext, -⟩ := Option.map_eq_some_iff.mp h
    have ht := hts t List.mem_cons_self
    have hroom := recLearn_room ht.1 hr 0 rows (by rw [ht.2]; exact Nat.one_pos) rfl
    obtain ⟨t', rows', hrun, hperm, -⟩ := recLearn_single (P := P) ht hroom
    obtain rfl := Option.some.inj (hr.symm.trans hrun)
    intro i u hu x hx
    cases i with
    | zero =>
      obtain rfl := Option.some.inj hu
      exact hroom x hx
    | succ i =>
      have := ih (fun t ht => hts t (List.mem_cons_of_mem _ ht)) hnext i u hu x
        (hperm.mem_iff.mpr hx)
      rwa [Nat.add_assoc, Nat.add_comm 1] at this

/-! ## Sampling one value -/

/-- The same values from `lo` up to the index. -/
def Agrees (lo idx : Nat) (z m : Row) : Prop := ∀ q, lo ≤ q → q < idx → z q = m q

/-- Values that a row has lead to a leaf, in which every value is behind these values in some row. -/
def Linked (rows : List Row) (t : DTree) (lo idx : Nat) : Prop :=
  ∀ m, ∀ y ∈ rows, Agrees lo idx y m → Within m t 0 ∧ route y t 0 = route m t 0 ∧
    ∀ x ∈ rows, route x t 0 = route m t 0 → ∃ z ∈ rows, Agrees lo idx z m ∧ z idx = x idx

variable {lo : Nat}

theorem Room.small {l : List Row} {p d : List Nat} (hleaf : leafAt t 0 p = some d)
    (h : ∀ x ∈ l, Room idx t 0 x) :
    ∀ x ∈ l.filter (fun x => route x t 0 = p), x idx < d.length - 1 := by
  intro x hx
  obtain ⟨hx, hp⟩ := List.mem_filter.mp hx
  obtain ⟨d', hd', hlt⟩ := h x hx
  rw [of_decide_eq_true hp, hleaf] at hd'
  obtain rfl := Option.some.inj hd'
  omega

theorem sample_linked (hl : Learnt rows idx t t') (hk : Linked rows t lo idx) (hy : y ∈ rows)
    (hagree : Agrees lo idx y m) (h0 : 0 ≤ draw) (h1 : draw < 1) :
    ∃ v, sample draw m t' 0 = some v ∧ ∃ z ∈ rows, Agrees lo idx z m ∧ z idx = v := by
  obtain ⟨hin, hroute, hvalues⟩ := hk m y hy hagree
  obtain ⟨d, hd, -⟩ := hl.room y hy
  rw [hroute] at hd
  have hmem : y ∈ rows.filter fun x => route x t 0 = route m t 0 :=
    List.mem_filter.mpr ⟨hy, decide_eq_true hroute⟩
  obtain ⟨v, hv, x, hx, hxv⟩ := sampleLeaf_tally (List.ne_nil_of_mem hmem) (Room.small hd hl.room)
    h0 h1
  refine ⟨v, ?_, ?_⟩
  · rw [sample_within (hl.splits.within.mpr hin), hl.splits.route, hl.leaf _ d hd,
      Option.bind_some, hv]
  · obtain ⟨hx, hr⟩ := List.mem_filter.mp hx
    obtain ⟨z, hz, hza, hzx⟩ := hvalues x hx (of_decide_eq_true hr)
    exact ⟨z, hz, hza, hzx.trans hxv⟩

/-! ## Sampling all of them -/

/-- Some row has the sampled values from `lo` up to and with the index. -/
def Occurs (rows : List Row) (lo idx : Nat) (m : Row) : Prop :=
  ∃ z ∈ rows, Agrees lo (idx + 1) z m

/-- Each raw field comes after those it is split on. -/
structure Ordered (start : Nat → Nat) (done todo : List Nat) : Prop where
  nodup : (done ++ todo).Nodup
  closed : ∀ idx ∈ done, ∀ q, start idx ≤ q → q ≤ idx → q ∈ done
  after : ∀ pre idx post, todo = pre ++ idx :: post → start idx < idx →
    start (idx - 1) ≤ start idx ∧ idx - 1 ∈ done ++ pre

variable {start : Nat → Nat} {done todo : List Nat}

theorem Ordered.step (h : Ordered start done (idx :: todo)) :
    Ordered start (done ++ [idx]) todo := by
  refine ⟨by simpa using h.nodup, fun i hi q hlo hhi => ?_, fun pre i post hpost hlt => ?_⟩
  · rw [List.mem_append, List.mem_singleton] at hi ⊢
    rcases hi with hi | rfl
    · exact .inl (h.closed i hi q hlo hhi)
    · by_cases e : q = i
      · exact .inr e
      · obtain ⟨hle, hmem⟩ := h.after [] i todo rfl (by omega)
        rw [List.append_nil] at hmem
        exact .inl (h.closed (i - 1) hmem q (by omega) (by omega))
  · obtain ⟨hle, hmem⟩ := h.after (idx :: pre) i post (by rw [hpost, List.cons_append]) hlt
    exact ⟨hle, by simpa using hmem⟩

theorem Agrees.update_of_notMem {z : Row} {v : Nat} (h : Agrees lo (idx + 1) z m) {i : Nat}
    (hi : ∀ q, lo ≤ q → q ≤ idx → q ≠ i) : Agrees lo (idx + 1) z (Function.update m i v) := by
  intro q hlo hhi
  rw [Function.update_of_ne (hi q hlo (by omega))]
  exact h q hlo hhi

/-- Every value sampled occurs behind the values sampled before it. -/
theorem sampleAll_spec (hne : rows ≠ []) (hdraws : ∀ i, 0 ≤ draws i ∧ draws i < 1)
    (htrees : ∀ idx ∈ todo, ∃ t t', ts[idx]? = some t' ∧ Learnt rows idx t t' ∧
      Linked rows t (start idx) idx)
    (ho : Ordered start done todo) (hdone : ∀ idx ∈ done, Occurs rows (start idx) idx m) :
    ∃ tmp, sampleAll ts draws todo m = some tmp ∧
      ∀ idx ∈ done ++ todo, Occurs rows (start idx) idx tmp := by
  induction todo generalizing done m with
  | nil => exact ⟨m, rfl, by simpa using hdone⟩
  | cons idx todo ih =>
    obtain ⟨t, t', ht', hl, hk⟩ := htrees idx List.mem_cons_self
    have hnew : idx ∉ done := fun hmem =>
      (List.nodup_append.mp ho.nodup).2.2 idx hmem idx List.mem_cons_self rfl
    obtain ⟨y, hy, hagree⟩ : ∃ y ∈ rows, Agrees (start idx) idx y m := by
      by_cases hlt : start idx < idx
      · obtain ⟨hle, hmem⟩ := ho.after [] idx todo rfl hlt
        rw [List.append_nil] at hmem
        obtain ⟨y, hy, hagree⟩ := hdone (idx - 1) hmem
        exact ⟨y, hy, fun q hlo hhi => hagree q (hle.trans hlo) (by omega)⟩
      · obtain ⟨y, hy⟩ := List.exists_mem_of_ne_nil rows hne
        exact ⟨y, hy, fun q hlo hhi => by omega⟩
    obtain ⟨v, hv, z, hz, hza, hzv⟩ :=
      sample_linked hl hk hy hagree (hdraws idx).1 (hdraws idx).2
    obtain ⟨tmp, hrun, hall⟩ := @ih (Function.update m idx v) (done ++ [idx])
      (fun i hi => htrees i (List.mem_cons_of_mem _ hi)) ho.step fun i hi => by
        rw [List.mem_append, List.mem_singleton] at hi
        rcases hi with hi | rfl
        · obtain ⟨w, hw, hwa⟩ := hdone i hi
          refine ⟨w, hw, hwa.update_of_notMem fun q hlo hhi => ?_⟩
          rintro rfl
          exact hnew (ho.closed i hi q hlo hhi)
        · refine ⟨z, hz, fun q hlo hhi => ?_⟩
          by_cases e : q = i
          · rw [e, Function.update_self, hzv]
          · rw [Function.update_of_ne e]
            exact hza q hlo (by omega)
    refine ⟨tmp, ?_, by simpa using hall⟩
    rw [sampleAll, ht', Option.bind_some, hv, Option.bind_some, hrun]

/-- What is sampled for an index whose tree is a leaf. -/
theorem sampleAll_leaf {d : List Nat} (hrun : sampleAll ts draws todo m = some tmp)
    (hnd : todo.Nodup) (hleaf : ts[idx]? = some (.cons d .nil .nil)) :
    (idx ∈ todo → ∃ v, sampleLeaf (draws idx) d = some v ∧ tmp idx = v) ∧
      (idx ∉ todo → tmp idx = m idx) := by
  induction todo generalizing m with
  | nil =>
    obtain rfl := Option.some.inj hrun
    exact ⟨nofun, fun _ => rfl⟩
  | cons i todo ih =>
    rw [sampleAll] at hrun
    obtain ⟨v, hv, hrun⟩ := Option.bind_eq_some_iff.mp hrun
    obtain ⟨hi, hnd⟩ := List.nodup_cons.mp hnd
    obtain ⟨hin, hout⟩ := ih hrun hnd
    by_cases e : i = idx
    · subst e
      rw [hleaf, Option.bind_some] at hv
      refine ⟨fun _ => ⟨v, hv, ?_⟩, fun h => absurd List.mem_cons_self h⟩
      rw [hout hi, Function.update_self]
    · refine ⟨fun h => hin ((List.mem_cons.mp h).resolve_left (Ne.symm e)), fun h => ?_⟩
      rw [hout fun hmem => h (List.mem_cons_of_mem _ hmem), Function.update_of_ne (Ne.symm e)]

end OpenCog.Moses.LocalStructure
