import OpenCog.Lib.SparseIndex
import OpenCog.Time.TemporalTable

/-! The sorted list of times and its index table: what binary search may read and
where it ends, and how insertions and removals keep the table usable. -/
namespace OpenCog

theorem Temporal.compareTo_mono {t u : Temporal} (h : t.rank ≤ u.rank) (v : Temporal) :
    t.compareTo v ≤ u.compareTo v := by
  have ht := t.compareTo_range v
  have hu := u.compareTo_range v
  rcases lt_trichotomy u.rank v.rank with hlt | heq | hgt
  · have := (t.compareTo_neg v).mpr (lt_of_le_of_lt h hlt)
    omega
  · have h0 := (u.compareTo_eq_zero v).mpr heq
    have : ¬ 0 < t.compareTo v := fun hp => absurd ((t.compareTo_pos v).mp hp)
      (not_lt_of_ge (heq ▸ h))
    omega
  · have := (u.compareTo_pos v).mpr hgt
    omega

namespace Cell

def rank (c : Cell) : ℕ ×ₗ ℕ ×ₗ ℕ := c.time.rank

end Cell

/-! ## Sorted lists of cells -/

namespace TemporalEntry

/-- `TemporalEntry::add` on a sorted list: nothing if the time is there, else the
list with the new cell in its place. -/
theorem add_spec (new : Cell) {cs : List Cell} (sorted : cs.Pairwise (Cell.rank · < Cell.rank ·)) :
    (∃ c ∈ cs, c.rank = new.rank) ∧ add new cs = cs ∨
      (∀ c ∈ cs, c.rank ≠ new.rank) ∧ (add new cs).Perm (new :: cs) ∧
        (add new cs).Pairwise (Cell.rank · < Cell.rank ·) := by
  induction cs with
  | nil => exact .inr ⟨by simp, List.Perm.refl _, List.pairwise_singleton _ _⟩
  | cons c cs ih =>
    obtain ⟨hc, hcs⟩ := List.pairwise_cons.mp sorted
    unfold add
    by_cases heq : c.time.compareTo new.time = 0
    · rw [if_pos heq]
      exact .inl ⟨⟨c, List.mem_cons_self, (Temporal.compareTo_eq_zero _ _).mp heq⟩, rfl⟩
    have hne : c.rank ≠ new.rank := mt (Temporal.compareTo_eq_zero _ _).mpr heq
    rw [if_neg heq]
    by_cases hgt : 0 < c.time.compareTo new.time
    · have hlt : new.rank < c.rank := (Temporal.compareTo_pos _ _).mp hgt
      rw [if_pos hgt]
      refine .inr ⟨?_, List.Perm.refl _, List.pairwise_cons.mpr ⟨?_, sorted⟩⟩
      · intro x hx
        rcases List.mem_cons.mp hx with rfl | hx
        · exact hne
        · exact ne_of_gt (lt_trans hlt (hc x hx))
      · intro x hx
        rcases List.mem_cons.mp hx with rfl | hx
        · exact hlt
        · exact lt_trans hlt (hc x hx)
    · have hlt : c.rank < new.rank :=
        lt_of_le_of_ne (not_lt.mp (mt (Temporal.compareTo_pos _ _).mpr hgt)) hne
      rw [if_neg hgt]
      rcases ih hcs with ⟨⟨x, hx, he⟩, hsame⟩ | ⟨hno, hperm, hsorted⟩
      · exact .inl ⟨⟨x, List.mem_cons_of_mem c hx, he⟩, by rw [hsame]⟩
      · refine .inr ⟨?_, ?_, List.pairwise_cons.mpr ⟨?_, hsorted⟩⟩
        · intro x hx
          rcases List.mem_cons.mp hx with rfl | hx
          · exact hne
          · exact hno x hx
        · exact (hperm.cons c).trans (List.Perm.swap new c cs)
        · intro x hx
          rcases List.mem_cons.mp (hperm.mem_iff.mp hx) with rfl | hx
          · exact hlt
          · exact hc x hx

theorem sorted_add (new : Cell) {cs : List Cell} (sorted : cs.Pairwise (Cell.rank · < Cell.rank ·)) :
    (add new cs).Pairwise (Cell.rank · < Cell.rank ·) := by
  rcases add_spec new sorted with ⟨-, h⟩ | ⟨-, -, h⟩
  · rw [h]; exact sorted
  · exact h

/-- From any cell that is not after the new time the insertion is the same. -/
theorem addFrom_eq {start new : Cell} {cs : List Cell}
    (sorted : cs.Pairwise (Cell.rank · < Cell.rank ·)) (hs : start ∈ cs)
    (hle : start.rank ≤ new.rank) : addFrom start new cs = some (add new cs) := by
  induction cs with
  | nil => cases hs
  | cons c cs ih =>
    obtain ⟨hc, hcs⟩ := List.pairwise_cons.mp sorted
    unfold addFrom
    by_cases e : c = start
    · subst e
      rw [if_pos rfl, if_neg (mt (Temporal.compareTo_pos _ _).mp (not_lt_of_ge hle))]
    · have hmem : start ∈ cs := (List.mem_cons.mp hs).resolve_left (Ne.symm e)
      have hlt : c.time.rank < new.time.rank := lt_of_lt_of_le (hc start hmem) hle
      have hneg := (Temporal.compareTo_neg _ _).mpr hlt
      rw [if_neg e, ih hcs hmem, Option.map_some]
      conv_rhs => rw [add]
      rw [if_neg (by omega), if_neg (by omega)]

end TemporalEntry

namespace TemporalTable

theorem unlink_eq {t : Temporal} {c : Cell} {cs : List Cell}
    (sorted : cs.Pairwise (Cell.rank · < Cell.rank ·)) (hc : c ∈ cs) (he : c.rank = t.rank) :
    unlink t cs = some (c, cs.erase c) := by
  induction cs with
  | nil => cases hc
  | cons x xs ih =>
    obtain ⟨hx, hxs⟩ := List.pairwise_cons.mp sorted
    unfold unlink
    by_cases e : x = c
    · subst e
      rw [if_pos ((Temporal.compareTo_eq_zero _ _).mpr he), List.erase_cons_head]
    · have hmem : c ∈ xs := (List.mem_cons.mp hc).resolve_left (Ne.symm e)
      have hneg := (Temporal.compareTo_neg x.time t).mpr (lt_of_lt_of_eq (hx c hmem) he)
      rw [if_neg (by omega), if_neg (by omega), ih hxs hmem, Option.map_some,
        List.erase_cons_tail (by simpa using e)]

theorem unlinkAfter_eq {t : Temporal} {c previous : Cell} {cs : List Cell}
    (sorted : cs.Pairwise (Cell.rank · < Cell.rank ·)) (hc : c ∈ cs) (he : c.rank = t.rank)
    (hp : previous ∈ cs) (hlt : previous.rank < c.rank) :
    unlinkAfter previous t cs = some (some (c, cs.erase c)) := by
  induction cs with
  | nil => cases hc
  | cons x xs ih =>
    obtain ⟨hx, hxs⟩ := List.pairwise_cons.mp sorted
    have hxc : x ≠ c := by
      rintro rfl
      rcases List.mem_cons.mp hp with rfl | hp
      · exact lt_irrefl _ hlt
      · exact lt_asymm hlt (hx previous hp)
    have hmem : c ∈ xs := (List.mem_cons.mp hc).resolve_left (Ne.symm hxc)
    have herase : (x :: xs).erase c = x :: xs.erase c :=
      List.erase_cons_tail (by simpa using hxc)
    unfold unlinkAfter
    by_cases e : x = previous
    · rw [if_pos e, unlink_eq hxs hmem he, herase]
      rfl
    · rw [if_neg e, ih hxs hmem ((List.mem_cons.mp hp).resolve_left (Ne.symm e)), herase]
      rfl

/-! ## Reading the table -/

variable {s : TemporalTable}

/-- The index table is a sparse index of the sorted list. -/
def Indexed (s : TemporalTable) : Prop :=
  SparseIndex.Inv Cell.rank PENDING_UPDATE_RATE_THRESHOLD s.sortedTemporalList s.temporalIndexTable
    s.pendingUpdateCount

theorem slot_eq (live : ∀ c ∈ s.temporalIndexTable, c ∈ s.sortedTemporalList) {i : Int} (hi : 0 ≤ i) :
    s.slot i = s.temporalIndexTable[i.toNat]? := by
  simp only [slot, if_pos hi]
  cases hg : s.temporalIndexTable[i.toNat]? with
  | none => rfl
  | some c => simp [live c (List.mem_of_getElem? hg)]

/-- The sign of the time a slot points to, against `t`. -/
def signAt (s : TemporalTable) (t : Temporal) (i : Int) : Int :=
  ((s.temporalIndexTable[i.toNat]?).map fun c => c.time.compareTo t).getD 0

theorem signAt_eq {t : Temporal} {i : Int} {c : Cell} (h : s.temporalIndexTable[i.toNat]? = some c) :
    s.signAt t i = c.time.compareTo t := by
  simp [signAt, h]

theorem exists_slot {i : Int} (h0 : 0 ≤ i) (hi : i < s.indexTableCount) :
    ∃ c, s.temporalIndexTable[i.toNat]? = some c := by
  have hi' : i < s.temporalIndexTable.length := hi
  have : i.toNat < s.temporalIndexTable.length := by omega
  exact ⟨_, List.getElem?_eq_getElem this⟩

/-- On an ordered table of live cells the search succeeds, with no read outside
it and none of a freed cell. -/
theorem getTemporalIndexTablePos_spec
    (live : ∀ c ∈ s.temporalIndexTable, c ∈ s.sortedTemporalList)
    (ordered : s.temporalIndexTable.Pairwise (Cell.rank · ≤ Cell.rank ·))
    (hne : s.temporalIndexTable ≠ []) (t : Temporal) :
    ∃ pos, s.getTemporalIndexTablePos t = some pos ∧
      BinarySearch.Found (s.signAt t) s.indexTableCount pos := by
  have hpos : 0 < s.indexTableCount := List.length_pos_iff.mpr hne
  refine BinarySearch.loop_spec ?_ ?_ _ _ _ (le_refl 0) (by omega) (by omega) (by omega) (by omega)
    (by omega)
  · intro i h0 hi
    obtain ⟨c, hc⟩ := exists_slot h0 hi
    rw [slot_eq live h0, hc, signAt_eq hc]
    rfl
  · intro i j h0 hij hj
    obtain ⟨c, hc⟩ := exists_slot h0 (show i < s.indexTableCount by omega)
    obtain ⟨d, hd⟩ := exists_slot (show 0 ≤ j by omega) hj
    rw [signAt_eq hc, signAt_eq hd]
    apply Temporal.compareTo_mono
    by_cases e : i.toNat = j.toNat
    · rw [e, hd, Option.some.injEq] at hc
      rw [hc]
    · obtain ⟨hi', hc'⟩ := List.getElem?_eq_some_iff.mp hc
      obtain ⟨hj', hd'⟩ := List.getElem?_eq_some_iff.mp hd
      rw [← hc', ← hd']
      exact List.pairwise_iff_getElem.mp ordered i.toNat j.toNat hi' hj' (by omega)

theorem slotHas_eq (live : ∀ c ∈ s.temporalIndexTable, c ∈ s.sortedTemporalList) {t : Temporal}
    {i : Int} {c : Cell} (hi : 0 ≤ i) (hc : s.temporalIndexTable[i.toNat]? = some c) :
    s.slotHas i t = some (decide (c.time.compareTo t = 0)) := by
  rw [slotHas, if_neg (by omega), slot_eq live hi, hc]
  rfl

/-- Where the search may start: nowhere, or at a live cell not after `t`. -/
theorem getPreviousTemporalEntry_spec
    (live : ∀ c ∈ s.temporalIndexTable, c ∈ s.sortedTemporalList)
    (ordered : s.temporalIndexTable.Pairwise (Cell.rank · ≤ Cell.rank ·))
    (hne : s.temporalIndexTable ≠ []) (t : Temporal) :
    ∃ previous, s.getPreviousTemporalEntry t = some previous ∧
      ∀ c, previous = some c → c ∈ s.sortedTemporalList ∧ c.rank ≤ t.rank := by
  obtain ⟨pos, hpos, hf⟩ := getTemporalIndexTablePos_spec live ordered hne t
  have hup := hf.up
  unfold getPreviousTemporalEntry
  simp only [hpos, Option.bind_eq_bind, Option.bind_some]
  by_cases h0 : pos < 0
  · exact ⟨none, by simp [slotHas, h0], by simp⟩
  obtain ⟨c, hc⟩ := exists_slot (show 0 ≤ pos by omega) hup
  have hle : c.rank ≤ t.rank := by
    have := hf.here (by omega)
    rw [signAt_eq hc] at this
    exact not_lt.mp (mt (Temporal.compareTo_pos _ _).mpr (by omega))
  rw [slotHas_eq live (by omega) hc]
  simp only [Option.bind_some]
  by_cases heq : c.time.compareTo t = 0
  · simp only [heq, decide_true, if_true]
    by_cases h1 : pos - 1 < 0
    · exact ⟨none, by simp [h1], by simp⟩
    · obtain ⟨d, hd⟩ := exists_slot (show 0 ≤ pos - 1 by omega)
        (show pos - 1 < s.indexTableCount by omega)
      refine ⟨some d, by rw [if_neg h1, slot_eq live (by omega), hd]; rfl, ?_⟩
      rintro x hx
      obtain rfl := Option.some.inj hx
      refine ⟨live _ (List.mem_of_getElem? hd), le_trans ?_ hle⟩
      obtain ⟨hi', hd'⟩ := List.getElem?_eq_some_iff.mp hd
      obtain ⟨hj', hc'⟩ := List.getElem?_eq_some_iff.mp hc
      rw [← hc', ← hd']
      exact List.pairwise_iff_getElem.mp ordered _ _ hi' hj' (by omega)
  · simp only [heq, decide_false, Bool.false_eq_true, if_false, h0]
    refine ⟨some c, by rw [slot_eq live (by omega), hc]; rfl, ?_⟩
    rintro x hx
    obtain rfl := Option.some.inj hx
    exact ⟨live _ (List.mem_of_getElem? hc), hle⟩

/-! ## Rebuilding -/

theorem Indexed.table_ne_nil (h : Indexed s) (hne : s.sortedTemporalList ≠ []) :
    s.temporalIndexTable ≠ [] :=
  SparseIndex.Inv.table_ne_nil h (by decide) hne

/-- One more update pending, and a rebuild if that is too many. -/
theorem countPending_spec (hcount : s.getCount = s.sortedTemporalList.length)
    (hfits : s.temporalIndexTable.length ≤ s.indexTableSize)
    (h : SparseIndex.Core Cell.rank s.sortedTemporalList s.temporalIndexTable
      (s.pendingUpdateCount + 1)) :
    Indexed s.countPending ∧
      s.countPending.temporalIndexTable.length ≤ s.countPending.indexTableSize ∧
      s.countPending.sortedTemporalList = s.sortedTemporalList := by
  have hcount' : getCount { s with pendingUpdateCount := s.pendingUpdateCount + 1 } =
      s.sortedTemporalList.length := hcount
  unfold countPending
  simp only [hcount']
  by_cases htest : s.sortedTemporalList.length / (s.pendingUpdateCount + 1) <
      PENDING_UPDATE_RATE_THRESHOLD
  · simp only [htest, if_true, updateIndexTable, List.take_length]
    refine ⟨?_, ?_, trivial⟩
    · exact SparseIndex.Inv.rebuilt _ h.sorted
    · split <;> omega
  · simp only [htest, if_false]
    exact ⟨h.settle htest, hfits, trivial⟩

theorem countPending_frame (s : TemporalTable) :
    s.countPending.handleMap = s.handleMap ∧ s.countPending.tailHandleMap = s.tailHandleMap ∧
      s.countPending.temporalMap = s.temporalMap ∧ s.countPending.nextAddr = s.nextAddr := by
  simp only [countPending]
  split <;> exact ⟨rfl, rfl, rfl, rfl⟩

/-! ## Adding a time -/

theorem addSorted_spec (h : Indexed s) (t : Temporal) :
    ∃ previous, s.addSorted t =
        some ({ s with
          sortedTemporalList := TemporalEntry.add ⟨s.nextAddr, t⟩ s.sortedTemporalList
          nextAddr := s.nextAddr + 1 }, previous) ∧
      ∀ c, previous = some c →
        c ∈ TemporalEntry.add ⟨s.nextAddr, t⟩ s.sortedTemporalList ∧ c.rank ≤ t.rank := by
  set new : Cell := ⟨s.nextAddr, t⟩ with hnew
  have hrank : new.rank = t.rank := rfl
  have sorted := TemporalEntry.sorted_add new h.sorted
  have hkeep : ∀ c ∈ s.sortedTemporalList, c ∈ TemporalEntry.add new s.sortedTemporalList := by
    intro c hc
    rcases TemporalEntry.add_spec new h.sorted with ⟨-, he⟩ | ⟨-, hperm, -⟩
    · rw [he]; exact hc
    · exact hperm.mem_iff.mpr (List.mem_cons_of_mem new hc)
  have hhas : ∃ c ∈ TemporalEntry.add new s.sortedTemporalList, c.rank = t.rank := by
    rcases TemporalEntry.add_spec new h.sorted with ⟨⟨c, hc, hr⟩, he⟩ | ⟨-, hperm, -⟩
    · exact ⟨c, by rw [he]; exact hc, hr⟩
    · exact ⟨new, hperm.mem_iff.mpr List.mem_cons_self, hrank⟩
  unfold addSorted
  by_cases hcount : 0 < s.indexTableCount
  · have hne : s.temporalIndexTable ≠ [] := List.length_pos_iff.mp hcount
    obtain ⟨previous, hp, hspec⟩ := getPreviousTemporalEntry_spec h.live h.ordered hne t
    simp only [hcount, if_true, hp, Option.bind_eq_bind, Option.bind_some]
    cases previous with
    | none =>
      refine ⟨_, rfl, ?_⟩
      intro c hc
      -- the head of a sorted list that holds the time is not after it
      obtain ⟨d, hd, hr⟩ := hhas
      change (TemporalEntry.add new s.sortedTemporalList).head? = some c at hc
      cases hl : TemporalEntry.add new s.sortedTemporalList with
      | nil => rw [hl] at hc; cases hc
      | cons x xs =>
        rw [hl] at hc hd sorted
        obtain rfl := Option.some.inj hc
        refine ⟨List.mem_cons_self, ?_⟩
        rcases List.mem_cons.mp hd with rfl | hd
        · exact le_of_eq hr
        · exact hr ▸ le_of_lt ((List.pairwise_cons.mp sorted).1 d hd)
    | some c =>
      obtain ⟨hc, hle⟩ := hspec c rfl
      have hadd : TemporalEntry.addFrom c ⟨s.nextAddr, t⟩ s.sortedTemporalList =
          some (TemporalEntry.add new s.sortedTemporalList) :=
        TemporalEntry.addFrom_eq h.sorted hc hle
      simp only [hadd, Option.bind_some]
      refine ⟨_, rfl, ?_⟩
      intro d hd
      obtain rfl := Option.some.inj hd
      exact ⟨hkeep _ hc, hle⟩
  · simp only [hcount, if_false]
    exact ⟨none, rfl, by simp⟩

theorem find?_rank {cs : List Cell} {e : Cell} {t : Temporal}
    (sorted : cs.Pairwise (Cell.rank · < Cell.rank ·)) (he : e ∈ cs) (hr : e.rank = t.rank) :
    cs.find? (fun c => decide (c.time.compareTo t = 0)) = some e := by
  induction cs with
  | nil => cases he
  | cons c cs ih =>
    obtain ⟨hc, hcs⟩ := List.pairwise_cons.mp sorted
    rcases List.mem_cons.mp he with rfl | he
    · have : e.time.compareTo t = 0 := (Temporal.compareTo_eq_zero _ _).mpr hr
      simp [this]
    · have hlt := (Temporal.compareTo_neg c.time t).mpr (lt_of_lt_of_eq (hc e he) hr)
      have : c.time.compareTo t ≠ 0 := by omega
      simpa [this] using ih hcs he

/-- The rest of a list from one of its cells on. -/
theorem dropWhile_ne {cs : List Cell} {p : Cell} (hp : p ∈ cs) :
    ∃ pre post, cs = pre ++ p :: post ∧ cs.dropWhile (fun c => decide (c ≠ p)) = p :: post := by
  induction cs with
  | nil => cases hp
  | cons c cs ih =>
    by_cases e : c = p
    · subst e
      exact ⟨[], cs, rfl, by simp⟩
    · obtain ⟨pre, post, rfl, hd⟩ := ih ((List.mem_cons.mp hp).resolve_left (Ne.symm e))
      exact ⟨c :: pre, post, rfl, by simpa [e] using hd⟩

theorem findFrom_eq {previous e : Cell} {t : Temporal}
    (sorted : s.sortedTemporalList.Pairwise (Cell.rank · < Cell.rank ·))
    (hp : previous ∈ s.sortedTemporalList) (hle : previous.rank ≤ t.rank)
    (he : e ∈ s.sortedTemporalList) (hr : e.rank = t.rank) :
    s.findFrom (some previous) t = some e := by
  obtain ⟨pre, post, hsplit, hdrop⟩ := dropWhile_ne hp
  simp only [findFrom, Option.bind_eq_bind, Option.bind_some, hdrop]
  rw [hsplit] at sorted he
  obtain ⟨-, hpost, hcross⟩ := List.pairwise_append.mp sorted
  apply find?_rank hpost _ hr
  rcases List.mem_append.mp he with he | he
  · exact absurd (hcross e he previous List.mem_cons_self) (not_lt_of_ge (hr ▸ hle))
  · exact he

/-! ## Removing a time -/

theorem replaceRun_eq {old new : Cell} {k : Nat} {rest : List Cell}
    (hrest : ∀ x ∈ rest, x.rank ≠ old.rank) :
    replaceRun old new (List.replicate k old ++ rest) = (List.replicate k new ++ rest, k) := by
  induction k with
  | zero =>
    cases rest with
    | nil => rfl
    | cons x xs =>
      have : old.time.compareTo x.time ≠ 0 := fun e =>
        hrest x List.mem_cons_self ((Temporal.compareTo_eq_zero _ _).mp e).symm
      simp [replaceRun, this]
  | succ k ih =>
    have : old.time.compareTo old.time = 0 := (Temporal.compareTo_eq_zero _ _).mpr rfl
    simp only [List.replicate_succ, List.cons_append, replaceRun, this, if_true, ih]

/-- After the index has let go of `c`, the table is an index of the list without
it, and the position returned is before `c`. -/
structure Released (s s' : TemporalTable) (c : Cell) (pos : Int) : Prop where
  frame : s' = { s with temporalIndexTable := s'.temporalIndexTable }
  core : SparseIndex.Core Cell.rank (s.sortedTemporalList.erase c) s'.temporalIndexTable
    s.pendingUpdateCount
  gone : c ∉ s'.temporalIndexTable
  shorter : s'.temporalIndexTable.length ≤ s.temporalIndexTable.length
  before : 0 ≤ pos → ∃ p, s'.slot pos = some p ∧ p ∈ s.sortedTemporalList ∧ p.rank < c.rank

/-- The last entry of the part of the table before `c`. -/
theorem slot_before {table pre : List Cell} {c : Cell} {post : List Cell} (hcells : table = pre ++ post)
    (live : ∀ x ∈ table, x ∈ s.sortedTemporalList) (hpre : ∀ x ∈ pre, x.rank < c.rank)
    (h0 : (0 : Int) ≤ pre.length - 1) :
    ∃ p, slot { s with temporalIndexTable := table } (pre.length - 1) = some p ∧
      p ∈ s.sortedTemporalList ∧ p.rank < c.rank := by
  have hlt : pre.length - 1 < pre.length := by omega
  have hget : table[((pre.length : Int) - 1).toNat]? = some pre[pre.length - 1] := by
    have : ((pre.length : Int) - 1).toNat = pre.length - 1 := by omega
    rw [this, hcells, List.getElem?_append_left hlt, List.getElem?_eq_getElem hlt]
  refine ⟨pre[pre.length - 1], ?_, ?_, hpre _ (List.getElem_mem hlt)⟩
  · have hslot := slot_eq (s := { s with temporalIndexTable := table }) live h0
    rw [hslot]
    exact hget
  · apply live
    rw [hcells]
    exact List.mem_append_left _ (List.getElem_mem hlt)

/-- The table around one of the entries of `c`: smaller ones, copies of `c`, and
greater ones. -/
structure Around (s : TemporalTable) (c : Cell) (i : Nat) (pre : List Cell) (k₁ k₂ : Nat)
    (post : List Cell) : Prop where
  take : s.temporalIndexTable.take i = pre ++ List.replicate k₁ c
  drop : s.temporalIndexTable.drop (i + 1) = List.replicate k₂ c ++ post
  table : s.temporalIndexTable = pre ++ (List.replicate k₁ c ++ c :: (List.replicate k₂ c ++ post))
  index : i = pre.length + k₁
  below : ∀ x ∈ pre, x.rank < c.rank
  above : ∀ x ∈ post, c.rank < x.rank

theorem exists_around (h : Indexed s) {c : Cell} {i : Nat} (hc : c ∈ s.sortedTemporalList)
    (hi : s.temporalIndexTable[i]? = some c) : ∃ pre k₁ k₂ post, Around s c i pre k₁ k₂ post := by
  obtain ⟨pre, k₁, k₂, post, htake, hdrop, hpre, hpost⟩ := h.split_at hc hi
  obtain ⟨hlt, hget⟩ := List.getElem?_eq_some_iff.mp hi
  refine ⟨pre, k₁, k₂, post, htake, hdrop, ?_, ?_, hpre, hpost⟩
  · have hsplit : s.temporalIndexTable =
        s.temporalIndexTable.take i ++ c :: s.temporalIndexTable.drop (i + 1) := by
      rw [← hget, List.getElem_cons_drop, List.take_append_drop]
    rw [hsplit, htake, hdrop, List.append_assoc]
  · have := congrArg List.length htake
    simp only [List.length_take, List.length_append, List.length_replicate] at this
    omega

section Release
variable {c : Cell} {i : Nat} {pre post : List Cell} {k₁ k₂ : Nat}

/-- With a successor in the list every entry of `c` is redirected to it. -/
theorem released_redirect (h : Indexed s) (ha : Around s c i pre k₁ k₂ post) {next : Cell}
    {front back : List Cell} (hlist : s.sortedTemporalList = front ++ c :: next :: back) :
    Released s
      { s with temporalIndexTable :=
          (replaceIndexTablePosition s.temporalIndexTable i c next).1 } c
      (replaceIndexTablePosition s.temporalIndexTable i c next).2 := by
  have hc : c ∈ s.sortedTemporalList := by rw [hlist]; simp
  have hn : next ∈ s.sortedTemporalList := by rw [hlist]; simp
  have sorted := h.sorted
  rw [hlist] at sorted
  obtain ⟨-, htail, hcross⟩ := List.pairwise_append.mp sorted
  obtain ⟨hafter, hback⟩ := List.pairwise_cons.mp htail
  have hlt : c.rank < next.rank := hafter next List.mem_cons_self
  have hne : next ≠ c := fun e => lt_irrefl _ (e ▸ hlt)
  have hbefore : replaceRun c next (s.temporalIndexTable.take i).reverse =
      (List.replicate k₁ next ++ pre.reverse, k₁) := by
    rw [ha.take, List.reverse_append, List.reverse_replicate]
    apply replaceRun_eq
    intro x hx
    exact ne_of_lt (ha.below x (List.mem_reverse.mp hx))
  have hafter' : replaceRun c next (s.temporalIndexTable.drop (i + 1)) =
      (List.replicate k₂ next ++ post, k₂) := by
    rw [ha.drop]
    exact replaceRun_eq fun x hx => ne_of_gt (ha.above x hx)
  have hreplace : replaceIndexTablePosition s.temporalIndexTable i c next =
      (pre ++ (List.replicate k₁ next ++ next :: (List.replicate k₂ next ++ post)),
        (pre.length : Int) - 1) := by
    simp only [replaceIndexTablePosition, hbefore, hafter', List.reverse_append,
      List.reverse_reverse, List.reverse_replicate, List.append_assoc, Prod.mk.injEq, true_and]
    have := ha.index
    omega
  have hmap : s.temporalIndexTable.map (fun x => if x = c then next else x) =
      pre ++ (List.replicate k₁ next ++ next :: (List.replicate k₂ next ++ post)) := by
    have hkeep : ∀ l : List Cell, (∀ x ∈ l, x ≠ c) →
        l.map (fun x => if x = c then next else x) = l := by
      intro l hl
      conv_rhs => rw [← List.map_id l]
      apply List.map_congr_left
      intro x hx
      simp [hl x hx]
    rw [ha.table]
    simp only [List.map_append, List.map_replicate, List.map_cons, if_true]
    rw [hkeep pre fun x hx e => lt_irrefl _ (e ▸ ha.below x hx),
      hkeep post fun x hx e => lt_irrefl _ (e ▸ ha.above x hx)]
  have hlive : ∀ x ∈ s.temporalIndexTable.map (fun x => if x = c then next else x),
      x ∈ s.sortedTemporalList := by
    intro x hx
    obtain ⟨y, hy, rfl⟩ := List.mem_map.mp hx
    split
    · exact hn
    · exact h.live y hy
  rw [hmap] at hlive
  rw [hreplace]
  refine ⟨rfl, ?_, ?_, ?_, fun h0 => slot_before rfl hlive ha.below h0⟩
  · rw [← hmap]
    refine h.toCore.redirect (List.perm_cons_erase hc) List.erase_sublist
      ((List.mem_erase_of_ne hne).mpr hn) hlt ?_
    intro x hx hcx
    rw [hlist] at hx
    rcases List.mem_append.mp hx with hx | hx
    · exact absurd hcx (lt_asymm (hcross x hx c List.mem_cons_self))
    · rcases List.mem_cons.mp hx with rfl | hx
      · exact absurd hcx (lt_irrefl _)
      · rcases List.mem_cons.mp hx with rfl | hx
        · exact le_refl _
        · exact le_of_lt ((List.pairwise_cons.mp hback).1 x hx)
  · change c ∉ pre ++ (List.replicate k₁ next ++ next :: (List.replicate k₂ next ++ post))
    rw [← hmap]
    intro hm
    obtain ⟨y, -, hy⟩ := List.mem_map.mp hm
    split at hy
    · exact hne hy
    · rename_i hyc; exact hyc hy
  · change (pre ++ (List.replicate k₁ next ++ next :: (List.replicate k₂ next ++ post))).length ≤ _
    rw [← hmap, List.length_map]

/-- Without one the entries of `c` are the last and are dropped. -/
theorem released_drop (h : Indexed s) (ha : Around s c i pre k₁ k₂ post) {front : List Cell}
    (hlist : s.sortedTemporalList = front ++ [c]) :
    Released s
      { s with temporalIndexTable :=
          ((s.temporalIndexTable.take i).reverse.dropWhile (· = c)).reverse } c
      ((((s.temporalIndexTable.take i).reverse.dropWhile (· = c)).reverse.length : Int) - 1) := by
  have hc : c ∈ s.sortedTemporalList := by rw [hlist]; simp
  have hpost : post = [] := by
    apply List.eq_nil_iff_forall_not_mem.mpr
    intro x hx
    have hlt := ha.above x hx
    have hm : x ∈ s.sortedTemporalList := h.live x (by rw [ha.table]; simp [hx])
    have sorted := h.sorted
    rw [hlist] at hm sorted
    rcases List.mem_append.mp hm with hm | hm
    · exact lt_asymm hlt ((List.pairwise_append.mp sorted).2.2 x hm c List.mem_cons_self)
    · exact lt_irrefl _ (List.mem_singleton.mp hm ▸ hlt)
  have hnoc : ∀ x ∈ pre, x ≠ c := fun x hx e => lt_irrefl _ (e ▸ ha.below x hx)
  have hkept : ((s.temporalIndexTable.take i).reverse.dropWhile (· = c)).reverse = pre := by
    rw [ha.take, List.reverse_append, List.reverse_replicate]
    have hrun : (List.replicate k₁ c ++ pre.reverse).dropWhile (fun x => decide (x = c)) =
        pre.reverse := by
      rw [List.dropWhile_append_of_pos (by simp)]
      cases hp : pre.reverse with
      | nil => rfl
      | cons x xs =>
        have : x ≠ c := hnoc x (by rw [← List.mem_reverse, hp]; exact List.mem_cons_self)
        simp [this]
    rw [hrun, List.reverse_reverse]
  have hfilter : s.temporalIndexTable.filter (· ≠ c) = pre := by
    rw [ha.table, hpost]
    simp only [List.filter_append, List.filter_replicate, List.filter_cons, ne_eq, not_true,
      decide_false, Bool.false_eq_true, if_false, List.append_nil]
    exact List.filter_eq_self.mpr fun x hx => by simpa using hnoc x hx
  have hlive : ∀ x ∈ pre, x ∈ s.sortedTemporalList :=
    fun x hx => h.live x (by rw [ha.table]; exact List.mem_append_left _ hx)
  rw [hkept]
  refine ⟨rfl, ?_, fun hm => hnoc c hm rfl, ?_,
    fun h0 => slot_before (List.append_nil pre).symm hlive ha.below h0⟩
  · have := h.toCore.drop (List.perm_cons_erase hc) List.erase_sublist
    rwa [hfilter] at this
  · change pre.length ≤ _
    rw [ha.table, List.length_append]
    omega

end Release

theorem releaseIndex_spec (h : Indexed s) {c : Cell} {t : Temporal} (hc : c ∈ s.sortedTemporalList)
    (hr : c.rank = t.rank) :
    ∃ s' pos, s.releaseIndex t = some (s', pos) ∧ Released s s' c pos := by
  have hne := h.table_ne_nil (List.ne_nil_of_mem hc)
  obtain ⟨pos, hpos, hf⟩ := getTemporalIndexTablePos_spec h.live h.ordered hne t
  have hup := hf.up
  unfold releaseIndex
  simp only [hpos, Option.bind_eq_bind, Option.bind_some]
  -- without an entry of this time the table stays as it is
  have hstay : (∀ x ∈ s.temporalIndexTable, x ≠ c) →
      (0 ≤ pos → ∃ p, s.temporalIndexTable[pos.toNat]? = some p ∧ p.rank < c.rank) →
      Released s s c pos := by
    intro hno hbefore
    have hsame : s.temporalIndexTable.filter (· ≠ c) = s.temporalIndexTable :=
      List.filter_eq_self.mpr fun x hx => by simpa using hno x hx
    have hcore := h.toCore.drop (List.perm_cons_erase hc) List.erase_sublist
    rw [hsame] at hcore
    refine ⟨rfl, hcore, fun hm => hno c hm rfl, Nat.le_refl _, ?_⟩
    intro h0
    obtain ⟨p, hp, hlt⟩ := hbefore h0
    exact ⟨p, by rw [slot_eq h.live h0, hp], h.live p (List.mem_of_getElem? hp), hlt⟩
  have habove : (s.signAt t pos ≠ 0 ∨ pos = -1) → ∀ (j : Nat) x, pos < j →
      s.temporalIndexTable[j]? = some x → x ≠ c := by
    intro hside j x hj hx e
    obtain ⟨hlt, -⟩ := List.getElem?_eq_some_iff.mp hx
    have := hf.after hside j hj (by simpa [indexTableCount] using hlt)
    rw [signAt_eq (show s.temporalIndexTable[(j : Int).toNat]? = some x from hx), e] at this
    exact lt_irrefl _ (hr ▸ (Temporal.compareTo_pos _ _).mp this)
  by_cases h0 : pos < 0
  · have hminus : pos = -1 := by have := hf.low; omega
    refine ⟨s, pos, by simp [slotHas, h0], hstay ?_ (fun h1 => absurd h1 (by omega))⟩
    intro x hx
    obtain ⟨j, hj, he⟩ := List.getElem_of_mem hx
    exact habove (.inr hminus) j x (by omega) (by rw [List.getElem?_eq_getElem hj, he])
  obtain ⟨d, hd⟩ := exists_slot (show 0 ≤ pos by omega) hup
  rw [slotHas_eq h.live (by omega) hd]
  simp only [Option.bind_some]
  by_cases heq : d.time.compareTo t = 0
  · obtain rfl : d = c := SparseIndex.eq_of_rank h.sorted (h.live d (List.mem_of_getElem? hd)) hc
      (((Temporal.compareTo_eq_zero _ _).mp heq).trans hr.symm)
    obtain ⟨pre, k₁, k₂, post, ha⟩ := exists_around h hc hd
    obtain ⟨front, back, hlist, hrest⟩ := dropWhile_ne hc
    have hslot : s.slot pos = some d := by rw [slot_eq h.live (by omega), hd]
    simp only [heq, decide_true, if_true, hslot, Option.bind_some, hrest, List.tail_cons]
    cases back with
    | nil => exact ⟨_, _, rfl, released_drop h ha hlist⟩
    | cons next back => exact ⟨_, _, rfl, released_redirect h ha hlist⟩
  · have hsign : s.signAt t pos ≠ 0 := by rwa [signAt_eq hd]
    have hlt : d.rank < c.rank := by
      have := hf.here (by omega)
      rw [signAt_eq hd] at this
      exact hr ▸ (Temporal.compareTo_neg _ _).mp (by omega)
    refine ⟨s, pos, by simp [heq], hstay ?_ (fun _ => ⟨d, hd, hlt⟩)⟩
    intro x hx e
    obtain ⟨j, hj, he⟩ := List.getElem_of_mem hx
    by_cases hjp : pos < j
    · exact habove (.inl hsign) j x hjp (by rw [List.getElem?_eq_getElem hj, he]) e
    · -- entries up to the position are no later than the one there
      obtain ⟨hp', hd'⟩ := List.getElem?_eq_some_iff.mp hd
      by_cases hje : j = pos.toNat
      · subst hje
        rw [he, e] at hd'
        exact lt_irrefl _ (hd' ▸ hlt)
      · have := List.pairwise_iff_getElem.mp h.ordered j pos.toNat hj hp' (by omega)
        rw [he, hd', e] at this
        exact lt_irrefl _ (lt_of_le_of_lt this hlt)

/-- Removing a time that is in the list: its cell goes, and the rest stays
indexed. -/
theorem removeFromSortedEntries_spec (h : Indexed s) {c : Cell} {t : Temporal}
    (hc : c ∈ s.sortedTemporalList) (hr : c.rank = t.rank)
    (hcount : s.getCount + 1 = s.sortedTemporalList.length)
    (hfits : s.temporalIndexTable.length ≤ s.indexTableSize) :
    ∃ s', s.removeFromSortedEntries t = some s' ∧ Indexed s' ∧
      s'.sortedTemporalList = s.sortedTemporalList.erase c ∧
      s'.temporalIndexTable.length ≤ s'.indexTableSize ∧ s'.handleMap = s.handleMap ∧
      s'.tailHandleMap = s.tailHandleMap ∧ s'.temporalMap = s.temporalMap ∧
      s'.nextAddr = s.nextAddr := by
  obtain ⟨s₁, pos, hrel, r⟩ := releaseIndex_spec h hc hr
  have hlist : s₁.sortedTemporalList = s.sortedTemporalList := by rw [r.frame]
  have hunlink : s₁.unlinkAt pos t = some (some (c, s.sortedTemporalList.erase c)) := by
    rw [unlinkAt, hlist]
    by_cases h0 : pos < 0
    · rw [if_pos h0, unlink_eq h.sorted hc hr]
    · obtain ⟨p, hslot, hp, hlt⟩ := r.before (by omega)
      rw [if_neg h0, hslot]
      exact unlinkAfter_eq h.sorted hc hr hp hlt
  have hlast : s₁.temporalIndexTable.getLast? ≠ some c :=
    fun e => r.gone (List.mem_of_getLast? e)
  set s₂ : TemporalTable := { s₁ with sortedTemporalList := s.sortedTemporalList.erase c } with hs₂
  have hpending : s₂.pendingUpdateCount = s.pendingUpdateCount := by rw [hs₂, r.frame]
  have hsize : s₂.indexTableSize = s.indexTableSize := by rw [hs₂, r.frame]
  have hmap : s₂.temporalMap = s.temporalMap := by rw [hs₂, r.frame]
  have hlen : s₂.getCount = s₂.sortedTemporalList.length := by
    have : s₂.getCount = s.getCount := by rw [getCount, hmap]; rfl
    rw [this, hs₂, List.length_erase_of_mem hc]
    omega
  obtain ⟨hidx, hfit, hsame⟩ := countPending_spec hlen (by
      rw [hsize]
      exact Nat.le_trans r.shorter hfits) (by
      rw [hpending]
      exact r.core.mono (Nat.le_succ _))
  have hframe := countPending_frame s₂
  refine ⟨s₂.countPending, ?_, hidx, hsame, hfit, ?_, ?_, ?_, ?_⟩
  · simp only [removeFromSortedEntries, hrel, Option.bind_eq_bind, Option.bind_some, hunlink, hlast,
      if_false]
    rfl
  · rw [hframe.1, hs₂, r.frame]
  · rw [hframe.2.1, hs₂, r.frame]
  · rw [hframe.2.2.1, hmap]
  · rw [hframe.2.2.2, hs₂, r.frame]

end TemporalTable

end OpenCog
