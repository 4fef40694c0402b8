import OpenCog.Time.TimeIndex

/-! The pairs of the table. Every operation is described by what it does to the
relation of the time map; the lists of the handles follow it. -/
namespace OpenCog

namespace TemporalTable

/-- The pair is in the set of its time. -/
def InMap (s : TemporalTable) (h : Handle) (t : Temporal) : Prop :=
  ∃ handles, (t, handles) ∈ s.temporalMap ∧ h ∈ handles

/-- The time side: the index, and the map with one non-empty set per time. -/
structure TimesOk (s : TemporalTable) : Prop where
  indexed : Indexed s
  fits : s.temporalIndexTable.length ≤ s.indexTableSize
  keys : (s.temporalMap.map Prod.fst).Perm (s.sortedTemporalList.map Cell.time)
  sets : ∀ e ∈ s.temporalMap, e.2.Nodup ∧ e.2 ≠ []

/-- The handle side: sorted lists of times whose sets hold the handle. -/
structure ListsOk (s : TemporalTable) : Prop where
  sorted : ∀ h, (s.handleMap h).Pairwise (Cell.rank · < Cell.rank ·)
  listed : ∀ h, ∀ c ∈ s.handleMap h, s.InMap h c.time

/-! ## The map as a relation -/

section Map
variable {s : TemporalTable}

theorem TimesOk.count (h : TimesOk s) : s.getCount = s.sortedTemporalList.length := by
  have := h.keys.length_eq
  rwa [List.length_map, List.length_map] at this

theorem TimesOk.distinct (h : TimesOk s) :
    s.temporalMap.Pairwise fun e f => e.1.rank ≠ f.1.rank := by
  have hlist : (s.sortedTemporalList.map Cell.time).Pairwise fun t u => t.rank ≠ u.rank :=
    List.pairwise_map.mpr (h.indexed.sorted.imp fun hlt => ne_of_lt hlt)
  have hkeys : (s.temporalMap.map Prod.fst).Pairwise fun t u => t.rank ≠ u.rank :=
    (List.Perm.pairwise_iff (R := fun t u : Temporal => t.rank ≠ u.rank)
      (fun e => Ne.symm e) h.keys).mpr hlist
  rwa [List.pairwise_map] at hkeys

theorem eq_of_key {m : List (Temporal × List Handle)}
    (hm : m.Pairwise fun e f => e.1.rank ≠ f.1.rank) {e f : Temporal × List Handle} (he : e ∈ m)
    (hf : f ∈ m) (hr : e.1.rank = f.1.rank) : e = f := by
  induction m with
  | nil => cases he
  | cons x xs ih =>
    obtain ⟨hx, hxs⟩ := List.pairwise_cons.mp hm
    rcases List.mem_cons.mp he with rfl | he'
    · rcases List.mem_cons.mp hf with rfl | hf'
      · rfl
      · exact absurd hr (hx f hf')
    · rcases List.mem_cons.mp hf with rfl | hf'
      · exact absurd hr.symm (hx e he')
      · exact ih hxs he' hf'

theorem lookup_mem {t : Temporal} {e : Temporal × List Handle} (hl : s.lookup t = some e) :
    e ∈ s.temporalMap ∧ e.1.rank = t.rank := by
  refine ⟨List.mem_of_find?_eq_some hl, ?_⟩
  have := List.find?_some hl
  exact (Temporal.compareTo_eq_zero _ _).mp (by simpa using this)

theorem lookup_none {t : Temporal} (hl : s.lookup t = none) :
    ∀ e ∈ s.temporalMap, e.1.rank ≠ t.rank := by
  intro e he hr
  have := List.find?_eq_none.mp hl e he
  simp [(Temporal.compareTo_eq_zero _ _).mpr hr] at this

theorem TimesOk.lookup_eq (h : TimesOk s) {t : Temporal} {e : Temporal × List Handle}
    (he : e ∈ s.temporalMap) (hr : e.1.rank = t.rank) : s.lookup t = some e := by
  cases hl : s.lookup t with
  | none => exact absurd hr (lookup_none hl e he)
  | some f =>
    obtain ⟨hf, hfr⟩ := lookup_mem hl
    rw [eq_of_key h.distinct he hf (hr.trans hfr.symm)]

theorem mem_eraseKey {t : Temporal} {m : List (Temporal × List Handle)}
    {e : Temporal × List Handle} : e ∈ eraseKey t m ↔ e ∈ m ∧ e.1.rank ≠ t.rank := by
  simp [eraseKey, Temporal.compareTo_eq_zero]

theorem eraseKey_eq_self {t : Temporal} {m : List (Temporal × List Handle)}
    (h : ∀ e ∈ m, e.1.rank ≠ t.rank) : eraseKey t m = m := by
  refine List.filter_eq_self.mpr fun e he => ?_
  simpa [Temporal.compareTo_eq_zero] using h e he

/-- Without the entry of a time, the map has all the other entries. -/
theorem perm_eraseKey {t : Temporal} {m : List (Temporal × List Handle)}
    (hm : m.Pairwise fun e f => e.1.rank ≠ f.1.rank) {e : Temporal × List Handle} (he : e ∈ m)
    (hr : e.1.rank = t.rank) : m.Perm (e :: eraseKey t m) := by
  induction m with
  | nil => cases he
  | cons x xs ih =>
    obtain ⟨hx, hxs⟩ := List.pairwise_cons.mp hm
    rcases List.mem_cons.mp he with rfl | he
    · have : eraseKey t (e :: xs) = xs := by
        have hdrop : ¬ e.1.compareTo t ≠ 0 := by simpa [Temporal.compareTo_eq_zero] using hr
        rw [eraseKey, List.filter_cons, if_neg (by simpa using hdrop)]
        exact eraseKey_eq_self fun f hf hfr => hx f hf (hr.trans hfr.symm)
      rw [this]
    · have hne : x.1.compareTo t ≠ 0 := by
        rw [ne_eq, Temporal.compareTo_eq_zero, ← hr]
        exact hx e he
      have : eraseKey t (x :: xs) = x :: eraseKey t xs := by
        rw [eraseKey, List.filter_cons, if_pos (by simpa using hne), eraseKey]
      rw [this]
      exact ((ih hxs he).cons x).trans (List.Perm.swap e x _)

theorem InMap.eq_of_rank (ok : TimesOk s) {g h : Handle} {t u : Temporal} (ht : s.InMap g t)
    (hu : s.InMap h u) (hr : t.rank = u.rank) : t = u := by
  obtain ⟨a, ha, -⟩ := ht
  obtain ⟨b, hb, -⟩ := hu
  exact congrArg Prod.fst (eq_of_key ok.distinct ha hb hr)

/-- The sorted list has a cell for every time with a set. -/
theorem TimesOk.cell (ok : TimesOk s) {e : Temporal × List Handle} (he : e ∈ s.temporalMap) :
    ∃ c ∈ s.sortedTemporalList, c.time = e.1 :=
  List.mem_map.mp (ok.keys.mem_iff.mp (List.mem_map_of_mem he))

end Map

/-! ## Adding -/

section Add
variable {s : TemporalTable}

/-- The key the code goes on with: the one in the map if there is one. -/
def internalKey (s : TemporalTable) (t : Temporal) : Temporal := ((s.lookup t).map Prod.fst).getD t

theorem TimesOk.internalKey_cases (ok : TimesOk s) (t : Temporal) :
    (s.internalKey t).rank = t.rank ∧
      ((∃ handles, (s.internalKey t, handles) ∈ s.temporalMap ∧
          s.lookup (s.internalKey t) = some (s.internalKey t, handles)) ∨
        s.lookup (s.internalKey t) = none ∧
          ∀ e ∈ s.temporalMap, e.1.rank ≠ (s.internalKey t).rank) := by
  cases hl : s.lookup t with
  | none =>
    have hkey : s.internalKey t = t := by simp [internalKey, hl]
    rw [hkey]
    exact ⟨rfl, .inr ⟨hl, lookup_none hl⟩⟩
  | some e =>
    obtain ⟨he, hr⟩ := lookup_mem hl
    have hkey : s.internalKey t = e.1 := by simp [internalKey, hl]
    rw [hkey]
    exact ⟨hr, .inl ⟨e.2, he, ok.lookup_eq he rfl⟩⟩

/-- What `add` does to the two maps of pairs. -/
structure Added (s s' : TemporalTable) (h : Handle) (key : Temporal) : Prop where
  inMap : ∀ g u, s'.InMap g u ↔ s.InMap g u ∨ g = h ∧ u = key
  lists : s'.handleMap = Function.update s.handleMap h
    (addToList (s.handleMap h) (s.tailHandleMap h) ⟨s.nextAddr + 1, key⟩).1
  tails : s'.tailHandleMap = Function.update s.tailHandleMap h
    (addToList (s.handleMap h) (s.tailHandleMap h) ⟨s.nextAddr + 1, key⟩).2

theorem Added.of_eq {s s₁ s₂ : TemporalTable} {h : Handle} {key : Temporal} (a : Added s s₁ h key)
    (hm : s₂.temporalMap = s₁.temporalMap) (hl : s₂.handleMap = s₁.handleMap)
    (ht : s₂.tailHandleMap = s₁.tailHandleMap) : Added s s₂ h key := by
  refine ⟨?_, hl.trans a.lists, ht.trans a.tails⟩
  intro g u
  rw [← a.inMap g u, InMap, hm, InMap]

/-- Putting `h` into the set of `key`, in a map whose key for that time it is. -/
theorem inMap_insert {m : List (Temporal × List Handle)} (h : Handle) {key : Temporal}
    {old : List Handle} (hold : ∀ g, g ∈ old ↔ ∃ handles, (key, handles) ∈ m ∧ g ∈ handles)
    (hkey : ∀ e ∈ m, e.1.rank = key.rank → e.1 = key) (g : Handle) (u : Temporal) :
    (∃ handles, (u, handles) ∈ (key, old.insert h) :: eraseKey key m ∧ g ∈ handles) ↔
      (∃ handles, (u, handles) ∈ m ∧ g ∈ handles) ∨ g = h ∧ u = key := by
  constructor
  · rintro ⟨handles, hm, hg⟩
    rcases List.mem_cons.mp hm with e | hm
    · obtain ⟨rfl, rfl⟩ := Prod.mk.injEq .. ▸ e
      rcases List.mem_insert_iff.mp hg with rfl | hg
      · exact .inr ⟨rfl, rfl⟩
      · exact .inl ((hold g).mp hg)
    · exact .inl ⟨handles, (mem_eraseKey.mp hm).1, hg⟩
  · rintro (⟨handles, hm, hg⟩ | ⟨rfl, rfl⟩)
    · by_cases hr : u.rank = key.rank
      · obtain rfl := hkey _ hm hr
        exact ⟨_, List.mem_cons_self, List.mem_insert_of_mem ((hold g).mpr ⟨handles, hm, hg⟩)⟩
      · exact ⟨handles, List.mem_cons_of_mem _ (mem_eraseKey.mpr ⟨hm, hr⟩), hg⟩
    · exact ⟨_, List.mem_cons_self, List.mem_insert_self⟩

theorem last_le {cs : List Cell} (ordered : cs.Pairwise (Cell.rank · ≤ Cell.rank ·)) {d : Cell}
    (hd : cs[cs.length - 1]? = some d) : ∀ x ∈ cs, x.rank ≤ d.rank := by
  intro x hx
  obtain ⟨i, hi, rfl⟩ := List.getElem_of_mem hx
  obtain ⟨hj, rfl⟩ := List.getElem?_eq_some_iff.mp hd
  by_cases e : i = cs.length - 1
  · subst e
    exact le_refl _
  · exact List.pairwise_iff_getElem.mp ordered i _ hi hj (by omega)

/-- The writes of `add` before the index is looked after. -/
def linked (s : TemporalTable) (h : Handle) (key : Temporal) : TemporalTable :=
  addToMaps { s with
    sortedTemporalList := TemporalEntry.add ⟨s.nextAddr, key⟩ s.sortedTemporalList
    nextAddr := s.nextAddr + 1 } h key

theorem TimesOk.added_linked (ok : TimesOk s) (h : Handle) (t : Temporal) :
    Added s (s.linked h (s.internalKey t)) h (s.internalKey t) := by
  refine ⟨?_, rfl, rfl⟩
  have hlookup : ((s.linked h (s.internalKey t)).temporalMap) =
      (s.internalKey t, (((s.lookup (s.internalKey t)).map Prod.snd).getD []).insert h) ::
        eraseKey (s.internalKey t) s.temporalMap := rfl
  intro g u
  rw [InMap, hlookup]
  obtain ⟨-, ⟨handles, hmem, hl⟩ | ⟨hl, hno⟩⟩ := ok.internalKey_cases t
  · refine inMap_insert h ?_ (fun e he hr => ?_) g u
    · intro g'
      rw [hl]
      refine ⟨fun hg => ⟨handles, hmem, hg⟩, ?_⟩
      rintro ⟨handles', hmem', hg⟩
      have := eq_of_key ok.distinct hmem hmem' rfl
      rw [Prod.mk.injEq] at this
      exact this.2 ▸ hg
    · exact congrArg Prod.fst (eq_of_key ok.distinct he hmem hr)
  · refine inMap_insert h ?_ (fun e he hr => absurd hr (hno e he)) g u
    intro g'
    rw [hl]
    refine ⟨fun hg => absurd hg List.not_mem_nil, ?_⟩
    rintro ⟨handles', hmem', -⟩
    exact absurd rfl (hno _ hmem')

theorem sets_linked (ok : TimesOk s) (h : Handle) (key : Temporal) :
    ∀ e ∈ (s.linked h key).temporalMap, e.2.Nodup ∧ e.2 ≠ [] := by
  intro e he
  have hold : (((s.lookup key).map Prod.snd).getD []).Nodup := by
    cases hl : s.lookup key with
    | none => exact List.nodup_nil
    | some f => exact (ok.sets f (lookup_mem hl).1).1
  rcases List.mem_cons.mp he with rfl | he
  · exact ⟨hold.insert, List.ne_nil_of_mem List.mem_insert_self⟩
  · exact ok.sets e (mem_eraseKey.mp he).1

/-- A time that is there already: list and index stay as they are. -/
theorem TimesOk.linked_old (ok : TimesOk s) (h : Handle) {key : Temporal} {handles : List Handle}
    (hmem : (key, handles) ∈ s.temporalMap) :
    TimesOk (s.linked h key) ∧ (s.linked h key).getCount = s.getCount := by
  have hlist : (s.linked h key).sortedTemporalList = s.sortedTemporalList := by
    obtain ⟨c, hc, he⟩ := ok.cell hmem
    rcases TemporalEntry.add_spec ⟨s.nextAddr, key⟩ ok.indexed.sorted with ⟨-, hsame⟩ | ⟨hno, -, -⟩
    · exact hsame
    · exact absurd (congrArg Temporal.rank he) (hno c hc)
  have hkeys : ((s.linked h key).temporalMap.map Prod.fst).Perm (s.temporalMap.map Prod.fst) :=
    ((perm_eraseKey ok.distinct hmem rfl).map Prod.fst).symm
  refine ⟨⟨?_, ok.fits, ?_, sets_linked ok h key⟩, ?_⟩
  · rw [Indexed, hlist]
    exact ok.indexed
  · rw [hlist]
    exact hkeys.trans ok.keys
  · have := hkeys.length_eq
    rwa [List.length_map, List.length_map] at this

/-- What is left to prove of a new time once the index has been looked after. -/
theorem TimesOk.linked_new (ok : TimesOk s) (h : Handle) {key : Temporal}
    (hno : ∀ e ∈ s.temporalMap, e.1.rank ≠ key.rank) :
    (s.linked h key).sortedTemporalList.Perm (⟨s.nextAddr, key⟩ :: s.sortedTemporalList) ∧
      (s.linked h key).sortedTemporalList.Pairwise (Cell.rank · < Cell.rank ·) ∧
      ((s.linked h key).temporalMap.map Prod.fst).Perm
        ((s.linked h key).sortedTemporalList.map Cell.time) ∧
      (s.linked h key).getCount = s.getCount + 1 := by
  have hcells : ∀ c ∈ s.sortedTemporalList, c.rank ≠ key.rank := by
    intro c hc hr
    obtain ⟨e, he, hk⟩ := List.mem_map.mp (ok.keys.mem_iff.mpr (List.mem_map_of_mem hc))
    exact hno e he (hk ▸ hr)
  have hmap : (s.linked h key).temporalMap.map Prod.fst = key :: s.temporalMap.map Prod.fst := by
    change key :: (eraseKey key s.temporalMap).map Prod.fst = _
    rw [eraseKey_eq_self hno]
  rcases TemporalEntry.add_spec ⟨s.nextAddr, key⟩ ok.indexed.sorted with
    ⟨⟨c, hc, hr⟩, -⟩ | ⟨-, hperm, hsorted⟩
  · exact absurd hr (hcells c hc)
  · refine ⟨hperm, hsorted, ?_, ?_⟩
    · rw [hmap]
      exact (ok.keys.cons key).trans (hperm.map Cell.time).symm
    · have := congrArg List.length hmap
      rwa [List.length_map, List.length_cons, List.length_map] at this

theorem fitsLast_spec (live : ∀ c ∈ s.temporalIndexTable, c ∈ s.sortedTemporalList)
    (ordered : s.temporalIndexTable.Pairwise (Cell.rank · ≤ Cell.rank ·)) (previous : Option Cell)
    (t : Temporal) :
    s.fitsLast previous t = some false ∨
      s.fitsLast previous t = some true ∧ previous.isSome ∧
        s.temporalIndexTable.length < s.indexTableSize ∧
        ∀ x ∈ s.temporalIndexTable, x.rank ≤ t.rank := by
  unfold fitsLast
  by_cases hp : previous.isSome ∧ 0 < s.indexTableCount ∧ s.indexTableCount < s.indexTableSize
  · rw [if_pos hp]
    obtain ⟨d, hd⟩ := exists_slot (s := s) (show (0 : Int) ≤ s.indexTableCount - 1 by omega)
      (by omega)
    rw [slot_eq live (by omega), hd]
    by_cases hgt : 0 < t.compareTo d.time
    · refine .inr ⟨by simp [hgt], hp.1, hp.2.2, ?_⟩
      have hlast : s.temporalIndexTable[s.temporalIndexTable.length - 1]? = some d := by
        rw [← hd]
        congr 1
        change s.temporalIndexTable.length - 1 = ((s.temporalIndexTable.length : Int) - 1).toNat
        omega
      intro x hx
      exact le_of_lt (lt_of_le_of_lt (last_le ordered hlast x hx)
        ((Temporal.compareTo_pos _ _).mp hgt))
    · exact .inl (by simp [hgt])
  · rw [if_neg hp]
    exact .inl rfl

/-- The new time in the index: at its end, or pending. -/
def entered (s : TemporalTable) (previous : Option Cell) (t : Temporal) : Option TemporalTable :=
  (s.fitsLast previous t).bind fun fits =>
    if fits then (s.findFrom previous t).bind fun newEntry =>
      some { s with temporalIndexTable := s.temporalIndexTable ++ [newEntry] }
    else some s.countPending

theorem add_eq {h : Handle} {t : Temporal} {previous : Option Cell}
    (hsorted : s.addSorted (s.internalKey t) = some ({ s with
      sortedTemporalList := TemporalEntry.add ⟨s.nextAddr, s.internalKey t⟩ s.sortedTemporalList
      nextAddr := s.nextAddr + 1 }, previous)) :
    s.add h (some t) =
      if (s.linked h (s.internalKey t)).getCount = s.getCount then
        some (s.linked h (s.internalKey t))
      else (s.linked h (s.internalKey t)).entered previous (s.internalKey t) := by
  unfold TemporalTable.add
  change (s.addSorted (s.internalKey t) >>= _) = _
  rw [hsorted]
  rfl

/-- Adding never fails, and keeps the time side. -/
theorem TimesOk.add (ok : TimesOk s) (h : Handle) (t : Temporal) :
    ∃ s', s.add h (some t) = some s' ∧ TimesOk s' ∧ Added s s' h (s.internalKey t) := by
  obtain ⟨previous, hsorted, hprev⟩ := addSorted_spec ok.indexed (s.internalKey t)
  have hadded := ok.added_linked h t
  rw [add_eq hsorted]
  obtain ⟨-, ⟨handles, hmem, -⟩ | ⟨-, hno⟩⟩ := ok.internalKey_cases t
  · obtain ⟨hok, hcount⟩ := ok.linked_old h hmem
    rw [if_pos hcount]
    exact ⟨_, rfl, hok, hadded⟩
  · obtain ⟨hperm, sorted, hkeys, hcount⟩ := ok.linked_new h hno
    rw [if_neg (by omega)]
    have hsets := sets_linked ok h (s.internalKey t)
    have hfits : (s.linked h (s.internalKey t)).temporalIndexTable.length ≤
        (s.linked h (s.internalKey t)).indexTableSize := ok.fits
    have hcore : SparseIndex.Core Cell.rank (s.linked h (s.internalKey t)).sortedTemporalList
        (s.linked h (s.internalKey t)).temporalIndexTable
        ((s.linked h (s.internalKey t)).pendingUpdateCount + 1) :=
      ok.indexed.toCore.insert hperm sorted
    have happend : ∀ last : ∀ x ∈ s.temporalIndexTable, x.rank ≤ (s.internalKey t).rank,
        SparseIndex.Inv Cell.rank PENDING_UPDATE_RATE_THRESHOLD
          (s.linked h (s.internalKey t)).sortedTemporalList
          (s.temporalIndexTable ++ [⟨s.nextAddr, s.internalKey t⟩]) s.pendingUpdateCount :=
      fun last => SparseIndex.Inv.append ok.indexed hperm sorted last
    have hnew : (⟨s.nextAddr, s.internalKey t⟩ : Cell) ∈
        (s.linked h (s.internalKey t)).sortedTemporalList :=
      hperm.mem_iff.mpr List.mem_cons_self
    have hlen : (s.linked h (s.internalKey t)).getCount =
        (s.linked h (s.internalKey t)).sortedTemporalList.length := by
      rw [hcount, hperm.length_eq, ok.count, List.length_cons]
    rcases fitsLast_spec hcore.live hcore.ordered previous (s.internalKey t) with
      hlast | ⟨hlast, hsome, hroom, hle⟩
    · obtain ⟨hidx, hfit, hsame⟩ := countPending_spec hlen hfits hcore
      obtain ⟨hl, ht, hm, -⟩ := countPending_frame (s.linked h (s.internalKey t))
      refine ⟨_, by rw [entered, hlast]; rfl, ⟨hidx, hfit, ?_, ?_⟩, hadded.of_eq hm hl ht⟩
      · rw [hm, hsame]
        exact hkeys
      · rw [hm]
        exact hsets
    · obtain ⟨p, rfl⟩ := Option.isSome_iff_exists.mp hsome
      obtain ⟨hp, hple⟩ := hprev p rfl
      have hfind := findFrom_eq sorted hp hple hnew rfl
      refine ⟨{ s.linked h (s.internalKey t) with
          temporalIndexTable := s.temporalIndexTable ++ [⟨s.nextAddr, s.internalKey t⟩] },
        ?_, ⟨happend hle, ?_, hkeys, hsets⟩, hadded.of_eq rfl rfl rfl⟩
      · simp only [entered, hlast, Option.bind_some, if_true, hfind]
        rfl
      · rw [List.length_append, List.length_singleton]
        exact hroom

end Add

/-! ## The list of the handle -/

/-- Every pair of the map is in the list of its handle. -/
def Paired (s : TemporalTable) : Prop := ∀ h t, s.InMap h t → ∃ c ∈ s.handleMap h, c.time = t

/-- A recorded tail is the last cell of its list. -/
def TailOk (cells : List Cell) (tail : Option Cell) : Prop :=
  ∀ c, tail = some c → c ∈ cells ∧ ∀ x ∈ cells, x.rank ≤ c.rank

section Lists
variable {s s' : TemporalTable}

theorem mem_add {new : Cell} {cells : List Cell}
    (sorted : cells.Pairwise (Cell.rank · < Cell.rank ·)) :
    (∀ x ∈ TemporalEntry.add new cells, x ∈ cells ∨ x = new) ∧
      (∀ x ∈ cells, x ∈ TemporalEntry.add new cells) ∧
      ∃ x ∈ TemporalEntry.add new cells, x.rank = new.rank := by
  rcases TemporalEntry.add_spec new sorted with ⟨⟨c, hc, hr⟩, he⟩ | ⟨-, hperm, -⟩
  · rw [he]
    exact ⟨fun x hx => .inl hx, fun x hx => hx, c, hc, hr⟩
  · refine ⟨fun x hx => ?_, fun x hx => hperm.mem_iff.mpr (List.mem_cons_of_mem new hx),
      new, hperm.mem_iff.mpr List.mem_cons_self, rfl⟩
    rcases List.mem_cons.mp (hperm.mem_iff.mp hx) with rfl | hx
    · exact .inr rfl
    · exact .inl hx

theorem addFrom_none {start new : Cell} {cells : List Cell} (hs : start ∉ cells) :
    TemporalEntry.addFrom start new cells = none := by
  induction cells with
  | nil => rfl
  | cons c cs ih =>
    obtain ⟨hne, hcs⟩ := not_or.mp (mt List.mem_cons.mpr hs)
    rw [TemporalEntry.addFrom, if_neg (Ne.symm hne), ih hcs]
    rfl

theorem tailOk_getLast? {cells : List Cell} (sorted : cells.Pairwise (Cell.rank · < Cell.rank ·)) :
    TailOk cells cells.getLast? := by
  intro c hc
  refine ⟨List.mem_of_getLast? hc, last_le (sorted.imp le_of_lt) ?_⟩
  rwa [← List.getLast?_eq_getElem?]

theorem TailOk.getLast?_eq {cells : List Cell} {tail : Option Cell}
    (sorted : cells.Pairwise (Cell.rank · < Cell.rank ·)) (h : TailOk cells tail) {c : Cell}
    (hc : tail = some c) : cells.getLast? = some c := by
  obtain ⟨hm, hle⟩ := h c hc
  cases hl : cells.getLast? with
  | none => rw [List.getLast?_eq_none_iff.mp hl] at hm; cases hm
  | some d =>
    obtain ⟨hd, hge⟩ := tailOk_getLast? sorted d hl
    rw [SparseIndex.eq_of_rank sorted hd hm (le_antisymm (hle d hd) (hge c hm))]

/-- Either the cell went into the list, or the tail was no cell of the list. -/
theorem addToList_cells {cells : List Cell} (sorted : cells.Pairwise (Cell.rank · < Cell.rank ·))
    (tail : Option Cell) (new : Cell) :
    (addToList cells tail new).1 = TemporalEntry.add new cells ∨
      (addToList cells tail new).1 = cells ∧ ∃ c, tail = some c ∧ c ∉ cells := by
  cases tail with
  | none => exact .inl rfl
  | some c =>
    unfold addToList
    by_cases hgt : 0 < new.time.compareTo c.time
    · have hlt : c.rank < new.rank := (Temporal.compareTo_pos _ _).mp hgt
      simp only [hgt, if_true]
      by_cases hc : c ∈ cells
      · rw [TemporalEntry.addFrom_eq sorted hc (le_of_lt hlt)]
        exact .inl rfl
      · rw [addFrom_none hc]
        exact .inr ⟨rfl, c, rfl, hc⟩
    · simp only [hgt, if_false]
      exact .inl trivial

/-- With a good tail nothing is lost, and the new tail is good. -/
theorem TailOk.addToList {cells : List Cell} {tail : Option Cell}
    (sorted : cells.Pairwise (Cell.rank · < Cell.rank ·)) (h : TailOk cells tail) (new : Cell) :
    (addToList cells tail new).1 = TemporalEntry.add new cells ∧
      TailOk (TemporalEntry.add new cells) (addToList cells tail new).2 := by
  have hlast := tailOk_getLast? (TemporalEntry.sorted_add new sorted)
  cases tail with
  | none => exact ⟨rfl, hlast⟩
  | some c =>
    obtain ⟨hc, hmax⟩ := h c rfl
    unfold TemporalTable.addToList
    by_cases hgt : 0 < new.time.compareTo c.time
    · have hlt : c.rank < new.rank := (Temporal.compareTo_pos _ _).mp hgt
      simp only [hgt, if_true, TemporalEntry.addFrom_eq sorted hc (le_of_lt hlt)]
      exact ⟨trivial, hlast⟩
    · simp only [hgt, if_false]
      refine ⟨trivial, ?_⟩
      intro d hd
      obtain rfl := Option.some.inj hd
      refine ⟨(mem_add sorted).2.1 _ hc, fun x hx => ?_⟩
      rcases (mem_add sorted).1 x hx with hx | rfl
      · exact hmax x hx
      · exact not_lt.mp (mt (Temporal.compareTo_pos _ _).mpr hgt)

/-- Adding keeps the lists sorted and listed, even where it loses the new cell. -/
theorem Added.listsOk {h : Handle} {key : Temporal} (hl : ListsOk s) (a : Added s s' h key) :
    ListsOk s' := by
  have hcells := addToList_cells (hl.sorted h) (s.tailHandleMap h) ⟨s.nextAddr + 1, key⟩
  refine ⟨fun g => ?_, fun g c hc => ?_⟩
  · rw [a.lists]
    by_cases e : g = h
    · subst e
      rw [Function.update_self]
      rcases hcells with he | ⟨he, -⟩
      · rw [he]
        exact TemporalEntry.sorted_add _ (hl.sorted g)
      · rw [he]
        exact hl.sorted g
    · rw [Function.update_of_ne e]
      exact hl.sorted g
  · rw [a.inMap]
    rw [a.lists] at hc
    by_cases e : g = h
    · subst e
      rw [Function.update_self] at hc
      rcases hcells with he | ⟨he, -⟩
      · rw [he] at hc
        rcases (mem_add (hl.sorted g)).1 c hc with hc | rfl
        · exact .inl (hl.listed g c hc)
        · exact .inr ⟨rfl, rfl⟩
      · rw [he] at hc
        exact .inl (hl.listed g c hc)
    · rw [Function.update_of_ne e] at hc
      exact .inl (hl.listed g c hc)

/-- With good tails it loses nothing. -/
theorem Added.paired {h : Handle} {key : Temporal} (ok' : TimesOk s') (hl : ListsOk s)
    (hp : Paired s) (ht : ∀ g, TailOk (s.handleMap g) (s.tailHandleMap g)) (a : Added s s' h key) :
    Paired s' ∧ ∀ g, TailOk (s'.handleMap g) (s'.tailHandleMap g) := by
  obtain ⟨hcells, htail⟩ := (ht h).addToList (hl.sorted h) ⟨s.nextAddr + 1, key⟩
  have hown : s'.handleMap h = TemporalEntry.add ⟨s.nextAddr + 1, key⟩ (s.handleMap h) := by
    rw [a.lists, Function.update_self, hcells]
  have hother : ∀ g, g ≠ h → s'.handleMap g = s.handleMap g := by
    intro g e
    rw [a.lists, Function.update_of_ne e]
  obtain ⟨-, hkeep, x, hx, hr⟩ := @mem_add ⟨s.nextAddr + 1, key⟩ _ (hl.sorted h)
  refine ⟨?_, fun g => ?_⟩
  · intro g u hm
    rcases (a.inMap g u).mp hm with hm | ⟨rfl, rfl⟩
    · obtain ⟨c, hc, he⟩ := hp g u hm
      by_cases e : g = h
      · subst e
        exact ⟨c, by rw [hown]; exact hkeep c hc, he⟩
      · exact ⟨c, by rw [hother g e]; exact hc, he⟩
    · refine ⟨x, by rw [hown]; exact hx, ?_⟩
      rw [← hown] at hx
      exact InMap.eq_of_rank ok' ((a.listsOk hl).listed g x hx) hm hr
  · by_cases e : g = h
    · subst e
      rw [hown, a.tails, Function.update_self]
      exact htail
    · rw [hother g e, a.tails, Function.update_of_ne e]
      exact ht g

end Lists

end TemporalTable

end OpenCog
