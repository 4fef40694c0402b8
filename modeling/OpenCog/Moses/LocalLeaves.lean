import OpenCog.Moses.LocalStructure

/-! The leaves of a tree of counts: which rows reach them, what learning counts in them and what is
sampled from them. -/
namespace OpenCog.Moses.LocalStructure

open Util

variable {P : Partition Row} {idx : Nat} {f f' : DTree} {parts : List (List Row)} {l l' : List Row}
  {x m : Row} {k a v : Nat} {d d' : List Nat} {p : List Nat} {draw : Rat}

/-! ## Leaves -/

/-- The children that a row is led to, from one of some siblings on. -/
def route (x : Row) : DTree → Nat → List Nat
  | .nil, _ => []
  | .cons _ _ n, k + 1 => route x n k
  | .cons d c _, 0 =>
    if c.count = 0 then []
    else min (x (d.headD 0)) (c.count - 1) :: route x c (min (x (d.headD 0)) (c.count - 1))

def leafAt : DTree → Nat → List Nat → Option (List Nat)
  | .nil, _, _ => none
  | .cons _ _ n, k + 1, p => leafAt n k p
  | .cons d c _, 0, [] => if c.count = 0 then some d else none
  | .cons _ c _, 0, b :: p => leafAt c b p

/-- The leaf that a row reaches has a place for its value. -/
def Room (idx : Nat) (f : DTree) (k : Nat) (x : Row) : Prop :=
  ∃ d, leafAt f k (route x f k) = some d ∧ x idx + 1 < d.length

/-- Every node on the way has a child for the value. -/
def Within (x : Row) : DTree → Nat → Prop
  | .nil, _ => False
  | .cons _ _ n, k + 1 => Within x n k
  | .cons d c _, 0 =>
    c.count = 0 ∨ ∃ srcIdx, d = [srcIdx] ∧ x srcIdx < c.count ∧ Within x c (x srcIdx)

/-- Before learning. -/
inductive Formed : DTree → Prop
  | nil : Formed .nil
  | leaf {n : DTree} (a : Nat) : Formed n → Formed (.cons (List.replicate (a + 1) 0) .nil n)
  | split {c n : DTree} (srcIdx : Nat) : c.count ≠ 0 → Formed c → Formed n →
      Formed (.cons [srcIdx] c n)

/-- Only what the leaves hold differs. -/
inductive SameSplits : DTree → DTree → Prop
  | nil : SameSplits .nil .nil
  | leaf {d d' : List Nat} {n n' : DTree} : SameSplits n n' →
      SameSplits (.cons d .nil n) (.cons d' .nil n')
  | split {d : List Nat} {c c' n n' : DTree} : c.count ≠ 0 → SameSplits c c' → SameSplits n n' →
      SameSplits (.cons d c n) (.cons d c' n')

theorem leafAt_lt (h : leafAt f k p = some d) : k < f.count := by
  induction f generalizing k with
  | nil => cases h
  | cons d' c n _ ihn =>
    cases k with
    | zero => exact Nat.succ_pos _
    | succ k => exact Nat.succ_lt_succ (ihn h)

theorem SameSplits.count (h : SameSplits f f') : f'.count = f.count := by
  induction h with
  | nil => rfl
  | leaf _ ih => rw [Forest.count, Forest.count, ih]
  | split _ _ _ _ ih => rw [Forest.count, Forest.count, ih]

theorem SameSplits.route (h : SameSplits f f') (x : Row) (k : Nat) :
    route x f' k = route x f k := by
  induction h generalizing k with
  | nil => rfl
  | leaf _ ih =>
    cases k with
    | zero => rfl
    | succ k => exact ih k
  | split _ hc _ ihc ihn =>
    cases k with
    | zero => rw [LocalStructure.route, LocalStructure.route, hc.count, ihc]
    | succ k => exact ihn k

theorem SameSplits.within (h : SameSplits f f') : Within x f' k ↔ Within x f k := by
  induction h generalizing k with
  | nil => rfl
  | leaf _ ih =>
    cases k with
    | zero => exact iff_of_true (.inl rfl) (.inl rfl)
    | succ k => exact ih
  | split _ hc _ ihc ihn =>
    cases k with
    | zero => simp only [Within, hc.count, ihc]
    | succ k => exact ihn

theorem formed_leaves (n k : Nat) : Formed (leaves (n + 1) k) := by
  induction k with
  | zero => exact .nil
  | succ k ih => exact .leaf n ih

theorem count_leaves (n k : Nat) : (leaves n k).count = k := by
  induction k with
  | zero => rfl
  | succ k ih => rw [leaves, Forest.count, ih]

theorem leafAt_leaves {n j : Nat} (h : k < j) :
    leafAt (leaves n j) k [] = some (List.replicate n 0) := by
  induction j generalizing k with
  | zero => cases h
  | succ j ih =>
    cases k with
    | zero => rfl
    | succ k => exact ih (Nat.lt_of_succ_lt_succ h)

theorem route_leaves (x : Row) (n j k : Nat) : route x (leaves n j) k = [] := by
  induction j generalizing k with
  | zero => rfl
  | succ j ih =>
    cases k with
    | zero => rfl
    | succ k => exact ih k

theorem within_leaves {n j : Nat} (h : k < j) : Within x (leaves n j) k := by
  induction j generalizing k with
  | zero => cases h
  | succ j ih =>
    cases k with
    | zero => exact .inl rfl
    | succ k => exact ih (Nat.lt_of_succ_lt_succ h)

/-! ## One leaf -/

/-- How often each value occurs, and how many rows there are. -/
def tally (a idx : Nat) (l : List Row) : List Nat :=
  (List.range a).map (fun v => l.countP fun x => x idx = v) ++ [l.length]

theorem tally_perm (h : l.Perm l') : tally a idx l = tally a idx l' := by
  have hcount : (fun v => l.countP fun x => decide (x idx = v)) =
      fun v => l'.countP fun x => decide (x idx = v) := funext fun _ => h.countP_eq _
  rw [tally, tally, h.length_eq, hcount]

theorem countAll_room (h : countAll idx l d = some d') : ∀ x ∈ l, x idx + 1 < d.length := by
  induction l generalizing d with
  | nil => nofun
  | cons y l ih =>
    rw [countAll] at h
    split at h
    · next hy =>
      intro x hx
      rcases List.mem_cons.mp hx with rfl | hx
      · exact hy
      · simpa using ih h x hx
    · cases h

theorem countAll_spec (h : ∀ x ∈ l, x idx + 1 < d.length) :
    ∃ d', countAll idx l d = some d' ∧ d'.length = d.length ∧
      ∀ v, d'[v]? = d[v]?.map (· + l.countP fun x => x idx = v) := by
  induction l generalizing d with
  | nil => exact ⟨d, rfl, rfl, fun v => by simp⟩
  | cons y l ih =>
    obtain ⟨d', hrun, hlen, hat⟩ := @ih (d.modify (y idx) (· + 1)) fun x hx => by
      simpa using h x (List.mem_cons_of_mem y hx)
    refine ⟨d', ?_, by simpa using hlen, fun v => ?_⟩
    · rw [countAll, if_pos (h y List.mem_cons_self), hrun]
    · rw [hat, List.getElem?_modify, List.countP_cons]
      by_cases e : y idx = v
      · cases d[v]? with
        | none => rfl
        | some c => simp [e]; omega
      · simp [e]

theorem sum_indicator (a v : Nat) :
    ((List.range a).map fun w => if v = w then 1 else 0).sum = if v < a then 1 else 0 := by
  induction a with
  | zero => rfl
  | succ a ih =>
    rw [List.range_succ, List.map_append, List.sum_append, ih, List.map_singleton,
      List.sum_singleton]
    split <;> split <;> split <;> omega

theorem sum_counts (h : ∀ x ∈ l, x idx < a) :
    ((List.range a).map fun v => l.countP fun x => x idx = v).sum = l.length := by
  induction l with
  | nil => simp
  | cons y l ih =>
    have hcons : ((List.range a).map fun v => (y :: l).countP fun x => x idx = v) =
        (List.range a).map fun v =>
          (l.countP fun x => x idx = v) + if y idx = v then 1 else 0 := by
      simp only [List.countP_cons, decide_eq_true_eq]
    rw [hcons, List.sum_map_add, ih fun x hx => h x (List.mem_cons_of_mem y hx), sum_indicator,
      if_pos (h y List.mem_cons_self), List.length_cons]

/-- A leaf of zeros is filled with the tally. -/
theorem learnLeaf_spec (h : ∀ x ∈ l, x idx < a) :
    learnLeaf idx l (List.replicate (a + 1) 0) = some (tally a idx l) := by
  obtain ⟨d, hrun, hlen, hat⟩ := @countAll_spec idx l (List.replicate (a + 1) 0)
    fun x hx => by simpa using h x hx
  rw [List.length_replicate] at hlen
  have hlast : l.countP (fun x => x idx = a) = 0 := by
    rw [List.countP_eq_zero]
    intro x hx
    have := h x hx
    simp only [decide_eq_true_eq]
    omega
  have hd : d = (List.range a).map (fun v => l.countP fun x => x idx = v) ++ [0] := by
    refine List.ext_getElem? fun v => ?_
    rw [hat, List.getElem?_replicate]
    rcases Nat.lt_trichotomy v a with hv | rfl | hv
    · rw [if_pos (by omega), List.getElem?_append_left (by simpa using hv)]
      simp [hv]
    · rw [if_pos (Nat.lt_succ_self v), List.getElem?_append_right (by simp)]
      simp [hlast]
    · rw [if_neg (by omega), List.getElem?_eq_none (by simp; omega)]
      rfl
  rw [learnLeaf, hrun, Option.map_some, hlen, hd, List.dropLast_concat, sum_counts h, tally,
    List.set_append_right _ _ (by simp)]
  simp

theorem learnLeaf_room (h : learnLeaf idx l d = some d') : ∀ x ∈ l, x idx + 1 < d.length := by
  obtain ⟨_, hrun, -⟩ := Option.map_eq_some_iff.mp h
  exact countAll_room hrun

/-! ## Learning -/

theorem recLearn_spec (hf : Formed f) (hlen : parts.length = f.count)
    (hroom : ∀ k l, parts[k]? = some l → ∀ x ∈ l, Room idx f k x) :
    ∃ f' rows, recLearn P idx f parts = some (f', rows) ∧ rows.Perm parts.flatten ∧
      SameSplits f f' ∧ ∀ k l p d, parts[k]? = some l → leafAt f k p = some d →
        leafAt f' k p = some (tally (d.length - 1) idx (l.filter fun x => route x f k = p)) := by
  induction hf generalizing parts with
  | nil =>
    obtain rfl := List.length_eq_zero_iff.mp hlen
    exact ⟨.nil, [], rfl, .refl _, .nil, nofun⟩
  | @leaf n a _ ih =>
    obtain ⟨l, ls, rfl⟩ := List.exists_cons_of_length_eq_add_one hlen
    obtain ⟨n', rows, hrun, hperm, hsame, hleaf⟩ := ih (Nat.succ.inj hlen)
      fun k l hl => hroom (k + 1) l hl
    have hsmall : ∀ x ∈ l, x idx < a := by
      intro x hx
      obtain ⟨d, hd, hlt⟩ := hroom 0 l rfl x hx
      obtain rfl := Option.some.inj hd
      simpa using hlt
    refine ⟨.cons (tally a idx l) .nil n', l ++ rows, ?_, ?_, .leaf hsame,
      fun k l' p d hl' hd => ?_⟩
    · rw [recLearn, if_pos Forest.count_nil, learnLeaf_spec hsmall]
      simp [hrun]
    · rw [List.flatten_cons]
      exact hperm.append_left l
    · cases k with
      | zero =>
        obtain rfl := Option.some.inj hl'
        cases p with
        | nil =>
          obtain rfl := Option.some.inj hd
          have hall : (l.filter fun x => route x (.cons (List.replicate (a + 1) 0) .nil n) 0 = []) = l :=
            List.filter_eq_self.mpr fun x _ => rfl
          rw [hall, List.length_replicate]
          rfl
        | cons b p => cases hd
      | succ k => exact hleaf k l' p d hl' hd
  | @split c n srcIdx hc _ _ ihc ihn =>
    obtain ⟨l, ls, rfl⟩ := List.exists_cons_of_length_eq_add_one hlen
    obtain ⟨n', rows, hrun, hperm, hsame, hleaf⟩ := ihn (Nat.succ.inj hlen)
      fun k l hl => hroom (k + 1) l hl
    have hroute (x : Row) : route x (.cons [srcIdx] c n) 0 =
        min (x srcIdx) (c.count - 1) :: route x c (min (x srcIdx) (c.count - 1)) := if_neg hc
    obtain ⟨c', crows, hcrun, hcperm, hcsame, hcleaf⟩ :=
      @ihc (nWayPartition P (fun x => x srcIdx) c.count l)
        (length_nWayPartition (Nat.pos_of_ne_zero hc) l) fun k part hpart x hx => by
          obtain ⟨hx, hk⟩ := List.mem_filter.mp ((perm_of_nWayPartition hpart).mem_iff.mp hx)
          obtain ⟨d, hd, hlt⟩ := hroom 0 l rfl x hx
          rw [hroute, of_decide_eq_true hk] at hd
          exact ⟨d, hd, hlt⟩
    refine ⟨.cons [srcIdx] c' n', crows ++ rows, ?_, ?_, .split hc hcsame hsame,
      fun k l' p d hl' hd => ?_⟩
    · rw [recLearn, if_neg hc]
      simp [hcrun, hrun]
    · rw [List.flatten_cons]
      exact (hcperm.trans (flatten_nWayPartition _ _)).append hperm
    · cases k with
      | zero =>
        obtain rfl := Option.some.inj hl'
        cases p with
        | nil => simp [leafAt, hc] at hd
        | cons b p =>
          have hb : b < (nWayPartition P (fun x => x srcIdx) c.count l).length := by
            rw [length_nWayPartition (Nat.pos_of_ne_zero hc)]
            exact leafAt_lt hd
          have hpart := List.getElem?_eq_getElem hb
          have hin := hcleaf b _ p d hpart hd
          have hfilter := ((perm_of_nWayPartition hpart).filter fun x => route x c b = p)
          rw [List.filter_filter] at hfilter
          rw [leafAt, hin, tally_perm hfilter]
          refine congrArg (fun q => some (tally _ _ (l.filter q))) (funext fun x => ?_)
          rw [hroute, ← Bool.decide_and]
          refine decide_eq_decide.mpr ⟨fun ⟨hp, hb⟩ => ?_, fun h => ?_⟩
          · rw [hb, hp]
          · obtain ⟨hb, hp⟩ := List.cons.inj h
            exact ⟨hb ▸ hp, hb⟩
      | succ k => exact hleaf k l' p d hl' hd

theorem recLearn_room (hf : Formed f) {r : DTree × List Row}
    (h : recLearn P idx f parts = some r) :
    ∀ k l, k < f.count → parts[k]? = some l → ∀ x ∈ l, Room idx f k x := by
  induction hf generalizing parts r with
  | nil => nofun
  | @leaf n a _ ih =>
    cases parts with
    | nil => cases h
    | cons l ls =>
      rw [recLearn, if_pos Forest.count_nil] at h
      obtain ⟨here, hhere, h⟩ := Option.bind_eq_some_iff.mp h
      obtain ⟨d', hd', -⟩ := Option.map_eq_some_iff.mp hhere
      obtain ⟨next, hnext, -⟩ := Option.map_eq_some_iff.mp h
      intro k l' hk hl' x hx
      cases k with
      | zero =>
        obtain rfl := Option.some.inj hl'
        exact ⟨_, rfl, learnLeaf_room hd' x hx⟩
      | succ k => exact ih hnext k l' (Nat.lt_of_succ_lt_succ hk) hl' x hx
  | @split c n srcIdx hc _ _ ihc ihn =>
    cases parts with
    | nil => cases h
    | cons l ls =>
      rw [recLearn, if_neg hc] at h
      obtain ⟨here, hhere, h⟩ := Option.bind_eq_some_iff.mp h
      rw [List.head?_cons, Option.bind_some] at hhere
      obtain ⟨r', hr', -⟩ := Option.map_eq_some_iff.mp hhere
      obtain ⟨next, hnext, -⟩ := Option.map_eq_some_iff.mp h
      intro k l' hk hl' x hx
      cases k with
      | zero =>
        obtain rfl := Option.some.inj hl'
        have hpos := Nat.pos_of_ne_zero hc
        have hb : min (x srcIdx) (c.count - 1) < c.count := by omega
        have hb' : min (x srcIdx) (c.count - 1) <
            (nWayPartition P (fun x => x srcIdx) c.count l).length := by
          rwa [length_nWayPartition hpos]
        have hpart := List.getElem?_eq_getElem hb'
        have hmem := (perm_of_nWayPartition hpart).mem_iff.mpr
          (List.mem_filter.mpr ⟨hx, decide_eq_true rfl⟩)
        obtain ⟨d, hd, hlt⟩ := ihc hr' _ _ hb hpart x hmem
        exact ⟨d, by rw [route, if_neg hc]; exact hd, hlt⟩
      | succ k => exact ihn hnext k l' (Nat.lt_of_succ_lt_succ hk) hl' x hx

/-! ## Sampling -/

theorem counts_nonneg : ∀ q ∈ ((List.range a).map fun v => l.countP fun x => x idx = v).map
    Int.ofNat, 0 ≤ q := by
  intro q hq
  obtain ⟨c, -, rfl⟩ := List.mem_map.mp hq
  exact Int.natCast_nonneg c

theorem counts_sum (h : ∀ x ∈ l, x idx < a) :
    (((List.range a).map fun v => l.countP fun x => x idx = v).map Int.ofNat).sum = l.length := by
  rw [← sum_counts h]
  exact (Nat.cast_list_sum _).symm

/-- A value that was counted is sampled from a tally. -/
theorem sampleLeaf_tally (hne : l ≠ []) (h : ∀ x ∈ l, x idx < a) (h0 : 0 ≤ draw) (h1 : draw < 1) :
    ∃ v, sampleLeaf draw (tally a idx l) = some v ∧ ∃ x ∈ l, x idx = v := by
  have hlen := List.length_pos_iff.mpr hne
  have hsum := counts_sum h
  obtain ⟨v, q, hv, hq, hpos⟩ := rouletteSelect_spec counts_nonneg
    (by rw [hsum]; exact_mod_cast hlen) h0 h1
  refine ⟨v, ?_, ?_⟩
  · rw [sampleLeaf, tally, List.getLast?_concat, Option.bind_some, if_pos hlen, List.map_append]
    apply rouletteFrom_append
    rw [rouletteSelect, hsum] at hv
    exact_mod_cast hv
  · rw [List.getElem?_map, List.getElem?_map] at hq
    by_cases hva : v < a
    · rw [List.getElem?_range hva] at hq
      obtain rfl := Option.some.inj hq
      obtain ⟨x, hx, hxv⟩ := List.countP_pos_iff.mp (Int.ofNat_lt.mp hpos)
      exact ⟨x, hx, of_decide_eq_true hxv⟩
    · rw [List.getElem?_eq_none (by simpa using hva)] at hq
      cases hq

/-- A draw of one is past every value. -/
theorem sampleLeaf_one (hne : l ≠ []) (h : ∀ x ∈ l, x idx < a) :
    sampleLeaf 1 (tally a idx l) = some a := by
  have hlen := List.length_pos_iff.mpr hne
  rw [sampleLeaf, tally, List.getLast?_concat, Option.bind_some, if_pos hlen, List.map_append,
    mul_one, Int.floor_natCast, rouletteFrom_past counts_nonneg (counts_sum h).le, counts_sum h,
    sub_self]
  simp [rouletteFrom, hne]

theorem sample_within (h : Within m f k) :
    sample draw m f k = (leafAt f k (route m f k)).bind (sampleLeaf draw) := by
  induction f generalizing k with
  | nil => cases h
  | cons d c n ihc ihn =>
    cases k with
    | succ k => exact ihn h
    | zero =>
      by_cases hc : c.count = 0
      · simp [sample, route, leafAt, hc]
      · rcases h with hz | ⟨srcIdx, rfl, hlt, hin⟩
        · exact absurd hz hc
        · have hmin : min (m srcIdx) (c.count - 1) = m srcIdx := by omega
          rw [sample, if_neg hc, route, if_neg hc, List.headD_cons, hmin, leafAt]
          simp only [if_pos hlt]
          exact ihc hin

end OpenCog.Moses.LocalStructure
