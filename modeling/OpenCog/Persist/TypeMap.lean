import OpenCog.Persist.SavingLoading

/-! The concordance of type names and codes between the server and an SQL database. A type takes
its own number in the database where this is free, or else the lowest number that is. -/
namespace OpenCog

/-- The names of the current types, each with one code below `NOTYPE`. -/
structure CurrentTypes (cs : ClassServer) extends TypeNames cs where
  nTypes_le : cs.nTypes ≤ NOTYPE
  typeName_getType : ∀ name t, getType name = some t → t < cs.nTypes ∧ typeName t = name

namespace AtomStorage

def TYPEMAP_SZ : Nat := 65536

/-- A row of `TypeCodes`. -/
structure TypeCodesRow where
  type : Int
  typename : String

/-- The three arrays of `AtomStorage`, which have `TYPEMAP_SZ` places each. -/
structure TypeMaps where
  typeMapWasLoaded : Bool
  loadingTypemap : Int → TypeCode
  storingTypemap : TypeCode → Int
  dbTypename : Int → Option String

variable {cs : ClassServer} (types : CurrentTypes cs)

/-- `classserver().getType`. -/
def realType (tname : String) : TypeCode := (types.getType tname).getD NOTYPE

/-- `dbval` has to be an index of the arrays. -/
def setTypemap (m : TypeMaps) (dbval : Int) (tname : String) : Option TypeMaps :=
  if 0 ≤ dbval ∧ dbval < TYPEMAP_SZ then
    let realtype := realType types tname
    some { m with
      loadingTypemap := Function.update m.loadingTypemap dbval realtype
      storingTypemap := Function.update m.storingTypemap realtype dbval
      dbTypename := Function.update m.dbTypename dbval (some tname) }
  else none

/-- The lowest code without a name; `abort` where there is none. -/
def unusedCode (m : TypeMaps) : Option Int :=
  ((List.range TYPEMAP_SZ).find? fun sqid : Nat => (m.dbTypename sqid).isNone).map Int.ofNat

/-- The code under which a type is recorded that the table does not know. -/
def sqlId (m : TypeMaps) (t : TypeCode) : Option Int :=
  if m.dbTypename t ≠ none ∧ m.loadingTypemap t ≠ t then unusedCode m else some t

/-- One turn of the loop over the types. The database inserts what it `accepts`: it refuses a
statement that the buffer cut off, and the program goes on. -/
def recordType (accepts : TypeCodesRow → Bool) (s : TypeMaps × List TypeCodesRow) (t : TypeCode) :
    Option (TypeMaps × List TypeCodesRow) :=
  if s.1.storingTypemap t = -1 then do
    let tname := types.typeName t
    let sqid ← sqlId s.1 t
    let m ← setTypemap types s.1 sqid tname
    some (m, if accepts ⟨sqid, tname⟩ then s.2 ++ [⟨sqid, tname⟩] else s.2)
  else some s

/-- The table before and after are the rows that `TypeCodes` holds, in the order in which the
database returns them. -/
def setupTypemap (accepts : TypeCodesRow → Bool) (m : TypeMaps) (table : List TypeCodesRow) :
    Option (TypeMaps × List TypeCodesRow) :=
  if m.typeMapWasLoaded then some (m, table)
  else do
    let m := TypeMaps.mk true (fun _ => NOTYPE) (fun _ => -1) (fun _ => none)
    let m ← table.foldlM (fun m row => setTypemap types m row.type row.typename) m
    (List.range cs.nTypes).foldlM (recordType types accepts) (m, table)

/-! ## The concordance -/

/-- Each name has one code, and the arrays say what the names do. -/
structure Concordance (m : TypeMaps) : Prop where
  code : ∀ c name, m.dbTypename c = some name → 0 ≤ c ∧ c < TYPEMAP_SZ
  unique : ∀ c c' name, m.dbTypename c = some name → m.dbTypename c' = some name → c = c'
  loading : ∀ c name, m.dbTypename c = some name → m.loadingTypemap c = realType types name
  storing : ∀ t < cs.nTypes, ∀ c, 0 ≤ c →
    (m.storingTypemap t = c ↔ m.dbTypename c = some (types.typeName t))
  absent : ∀ t < cs.nTypes, m.storingTypemap t < 0 → m.storingTypemap t = -1

variable {types} {m m' : TypeMaps} {c : Int} {name : String} {t : TypeCode}

theorem realType_typeName (ht : t < cs.nTypes) : realType types (types.typeName t) = t := by
  rw [realType, types.getType_typeName t ht, Option.getD_some]

/-- The type of a name is the one that has it. -/
theorem realType_eq_iff (ht : t < cs.nTypes) :
    realType types name = t ↔ name = types.typeName t := by
  constructor
  · intro h
    cases hg : types.getType name with
    | none =>
      rw [realType, hg, Option.getD_none] at h
      have := types.nTypes_le
      lia
    | some t' =>
      rw [realType, hg, Option.getD_some] at h
      subst t'
      exact (types.typeName_getType name t hg).2.symm
  · rintro rfl
    exact realType_typeName ht

theorem setTypemap_isSome (hc : 0 ≤ c ∧ c < TYPEMAP_SZ) :
    ∃ m', setTypemap types m c name = some m' := by
  rw [setTypemap, if_pos hc]
  exact ⟨_, rfl⟩

/-- What `setTypemap` writes. -/
theorem setTypemap_eq_some (h : setTypemap types m c name = some m') :
    (0 ≤ c ∧ c < TYPEMAP_SZ) ∧
      (∀ c', m'.dbTypename c' = if c' = c then some name else m.dbTypename c') ∧
      (∀ c', m'.loadingTypemap c' = if c' = c then realType types name else m.loadingTypemap c') ∧
      ∀ t, m'.storingTypemap t = if t = realType types name then c else m.storingTypemap t := by
  rw [setTypemap] at h
  split at h
  · next hc =>
    obtain rfl := Option.some.inj h
    exact ⟨hc, fun _ => Function.update_apply .., fun _ => Function.update_apply ..,
      fun _ => Function.update_apply ..⟩
  · cases h

/-- A new name under a new code. -/
theorem Concordance.setTypemap (hm : Concordance types m)
    (h : setTypemap types m c name = some m') (hc : m.dbTypename c = none)
    (hname : ∀ c', m.dbTypename c' ≠ some name) : Concordance types m' := by
  obtain ⟨hrange, hdb, hload, hstore⟩ := setTypemap_eq_some h
  refine ⟨?_, ?_, ?_, ?_, ?_⟩
  · intro d n hd
    rw [hdb] at hd
    split at hd
    · next e => exact e ▸ hrange
    · exact hm.code d n hd
  · intro d d' n hd hd'
    rw [hdb] at hd hd'
    by_cases e : d = c <;> by_cases e' : d' = c
    · rw [e, e']
    · rw [if_pos e] at hd
      rw [if_neg e', ← hd] at hd'
      exact absurd hd' (hname d')
    · rw [if_pos e'] at hd'
      rw [if_neg e, ← hd'] at hd
      exact absurd hd (hname d)
    · rw [if_neg e] at hd
      rw [if_neg e'] at hd'
      exact hm.unique d d' n hd hd'
  · intro d n hd
    rw [hdb] at hd
    rw [hload]
    by_cases e : d = c
    · rw [if_pos e] at hd ⊢
      rw [Option.some.inj hd]
    · rw [if_neg e] at hd ⊢
      exact hm.loading d n hd
  · intro t ht d hd
    rw [hstore, hdb]
    by_cases et : t = realType types name
    · have en : name = types.typeName t := (realType_eq_iff ht).mp et.symm
      rw [if_pos et]
      by_cases e : d = c
      · simp [e, en]
      · rw [if_neg e, ← en]
        exact ⟨fun e' => absurd e'.symm e, fun h => absurd h (hname d)⟩
    · rw [if_neg et]
      by_cases e : d = c
      · subst d
        rw [if_pos rfl, hm.storing t ht c hd, hc]
        constructor
        · intro h; cases h
        · intro h
          exact absurd ((realType_eq_iff ht).mpr (Option.some.inj h)).symm et
      · rw [if_neg e]
        exact hm.storing t ht d hd
  · intro t ht hneg
    rw [hstore] at hneg ⊢
    split at hneg
    · exact absurd hneg (by lia)
    · next e => rw [if_neg e]; exact hm.absent t ht hneg

theorem unusedCode_spec (h : unusedCode m = some c) : m.dbTypename c = none := by
  obtain ⟨i, hi, rfl⟩ := Option.map_eq_some_iff.mp h
  have hnone := List.find?_some hi
  exact Option.isNone_iff_eq_none.mp hnone

/-- As long as fewer names than codes are used there is an unused code. -/
theorem Concordance.unusedCode_isSome (hm : Concordance types m) {names : Finset String}
    (hnames : ∀ c name, m.dbTypename c = some name → name ∈ names)
    (hcard : names.card < TYPEMAP_SZ) : ∃ c, unusedCode m = some c := by
  rw [← Option.isSome_iff_exists, unusedCode, Option.isSome_map, List.find?_isSome]
  by_contra hnone
  have hused : ∀ i < TYPEMAP_SZ, ∃ name, m.dbTypename i = some name := by
    intro i hi
    rw [← Option.ne_none_iff_exists']
    intro hi'
    exact hnone ⟨i, List.mem_range.mpr hi, Option.isNone_iff_eq_none.mpr hi'⟩
  let f : Nat → String := fun i => (m.dbTypename i).getD ""
  have hf : ∀ i < TYPEMAP_SZ, m.dbTypename i = some (f i) := by
    intro i hi
    obtain ⟨name, h⟩ := hused i hi
    simp only [f, h, Option.getD_some]
  have hle : (Finset.range TYPEMAP_SZ).card ≤ names.card := by
    apply Finset.card_le_card_of_injOn f
    · intro i hi
      exact hnames i _ (hf i (Finset.mem_range.mp hi))
    · intro i hi j hj e
      have hj' := hf j (Finset.mem_range.mp hj)
      rw [← show f i = f j from e] at hj'
      exact Int.ofNat.inj (hm.unique _ _ _ (hf i (Finset.mem_range.mp hi)) hj')
  rw [Finset.card_range] at hle
  lia

/-- Where the names of the table and of the types fit, a type that is not known finds a code. -/
theorem Concordance.sqlId_spec (hm : Concordance types m) {names : Finset String}
    (hnames : ∀ c name, m.dbTypename c = some name → name ∈ names)
    (hcard : names.card ≤ TYPEMAP_SZ) (ht : t < cs.nTypes) (hin : types.typeName t ∈ names)
    (hnew : ∀ c, m.dbTypename c ≠ some (types.typeName t)) :
    ∃ c, sqlId m t = some c ∧ m.dbTypename c = none ∧ 0 ≤ c ∧ c < TYPEMAP_SZ := by
  have hsz : (t : Int) < TYPEMAP_SZ := by
    have := types.nTypes_le
    simp only [NOTYPE, TYPEMAP_SZ] at *
    lia
  rw [sqlId]
  split
  · have hlt : (names.erase (types.typeName t)).card < TYPEMAP_SZ := by
      rw [Finset.card_erase_of_mem hin]
      have := Finset.card_pos.mpr ⟨_, hin⟩
      lia
    have herase : ∀ c name, m.dbTypename c = some name →
        name ∈ names.erase (types.typeName t) := by
      intro c name h
      refine Finset.mem_erase.mpr ⟨?_, hnames c name h⟩
      rintro rfl
      exact hnew c h
    obtain ⟨c, hc⟩ := hm.unusedCode_isSome herase hlt
    refine ⟨c, hc, unusedCode_spec hc, ?_⟩
    obtain ⟨i, hi, rfl⟩ := Option.map_eq_some_iff.mp hc
    have := List.mem_range.mp (List.mem_of_find?_eq_some hi)
    exact ⟨Int.natCast_nonneg i, by simpa using this⟩
  · next h =>
    refine ⟨t, rfl, ?_, Int.natCast_nonneg t, hsz⟩
    by_contra hne
    have hload : m.loadingTypemap t = t := by
      by_contra hl
      exact h ⟨hne, hl⟩
    obtain ⟨name, hname⟩ := Option.ne_none_iff_exists'.mp hne
    rw [hm.loading _ _ hname, realType_eq_iff ht] at hload
    exact hnew t (hload ▸ hname)

/-! ## The run -/

/-- The arrays before anything was read. -/
theorem concordance_empty : Concordance types
    ⟨true, fun _ => NOTYPE, fun _ => -1, fun _ => none⟩ := by
  refine ⟨?_, ?_, ?_, ?_, ?_⟩
  · intro c name h; cases h
  · intro c c' name h; cases h
  · intro c name h; cases h
  · intro t _ c hc
    simp only [reduceCtorEq, iff_false]
    lia
  · intro t _ _; rfl

/-- Reading the table adds its rows. -/
theorem Concordance.readTable {table : List TypeCodesRow} (hm : Concordance types m)
    (hrange : ∀ row ∈ table, 0 ≤ row.type ∧ row.type < TYPEMAP_SZ)
    (hcodes : (table.map (·.type)).Nodup) (hnames : (table.map (·.typename)).Nodup)
    (hfree : ∀ row ∈ table, m.dbTypename row.type = none ∧
      ∀ c, m.dbTypename c ≠ some row.typename) :
    ∃ m', table.foldlM (fun m row => AtomStorage.setTypemap types m row.type row.typename) m =
        some m' ∧ Concordance types m' ∧
      ∀ c name, m'.dbTypename c = some name ↔
        m.dbTypename c = some name ∨ ⟨c, name⟩ ∈ table := by
  induction table generalizing m with
  | nil => exact ⟨m, rfl, hm, by simp⟩
  | cons row table ih =>
    rw [List.map_cons, List.nodup_cons] at hcodes hnames
    obtain ⟨hc, hn⟩ := hfree row List.mem_cons_self
    obtain ⟨m₁, h₁⟩ := @setTypemap_isSome _ types m _ row.typename
      (hrange row List.mem_cons_self)
    obtain ⟨-, hdb, -, -⟩ := setTypemap_eq_some h₁
    have hfree₁ : ∀ r ∈ table, m₁.dbTypename r.type = none ∧
        ∀ c, m₁.dbTypename c ≠ some r.typename := by
      intro r hr
      obtain ⟨hrc, hrn⟩ := hfree r (List.mem_cons_of_mem _ hr)
      have hct : r.type ≠ row.type := fun e => hcodes.1 (e ▸ List.mem_map_of_mem hr)
      have hnt : row.typename ≠ r.typename := fun e => hnames.1 (e ▸ List.mem_map_of_mem hr)
      refine ⟨by rw [hdb, if_neg hct, hrc], fun c => ?_⟩
      rw [hdb]
      split
      · simpa using hnt
      · exact hrn c
    obtain ⟨m', h', hm', hiff⟩ := ih (hm.setTypemap h₁ hc hn)
      (fun r hr => hrange r (List.mem_cons_of_mem _ hr)) hcodes.2 hnames.2 hfree₁
    refine ⟨m', ?_, hm', fun c name => ?_⟩
    · rw [List.foldlM_cons, h₁]
      exact h'
    · rw [hiff, hdb, List.mem_cons]
      split
      · next e =>
        subst e
        rw [hc]
        obtain ⟨type, typename⟩ := row
        simp only [Option.some.injEq, TypeCodesRow.mk.injEq, true_and, reduceCtorEq, false_or,
          eq_comm]
      · next e =>
        have hne : (⟨c, name⟩ : TypeCodesRow) ≠ row := fun he => e (he ▸ rfl)
        simp [hne]

/-- While the types are recorded: the rows of the database have their names in the arrays, and
the first of them are those that were read. -/
structure Recording (table : List TypeCodesRow) (names : Finset String)
    (s : TypeMaps × List TypeCodesRow) : Prop where
  concordance : Concordance types s.1
  within : ∀ c name, s.1.dbTypename c = some name → name ∈ names
  rows : ∀ row ∈ s.2, s.1.dbTypename row.type = some row.typename
  first : table <+: s.2
  codes : (s.2.map (·.type)).Nodup
  typenames : (s.2.map (·.typename)).Nodup

variable {table : List TypeCodesRow} {names : Finset String} {s : TypeMaps × List TypeCodesRow}
  {accepts : TypeCodesRow → Bool}

/-- Setting a new name under a new code, with the row inserted or not. -/
theorem Recording.setTypemap (h : @Recording cs types table names s)
    (hm' : AtomStorage.setTypemap types s.1 c name = some m') (hfree : s.1.dbTypename c = none)
    (hnew : ∀ c, s.1.dbTypename c ≠ some name) (hin : name ∈ names) (b : Bool) :
    @Recording cs types table names (m', if b then s.2 ++ [⟨c, name⟩] else s.2) ∧
      m'.dbTypename c = some name ∧
      ∀ d n, s.1.dbTypename d = some n → m'.dbTypename d = some n := by
  obtain ⟨-, hdb, -, -⟩ := setTypemap_eq_some hm'
  have hget : m'.dbTypename c = some name := by rw [hdb, if_pos rfl]
  have hkeep : ∀ d n, s.1.dbTypename d = some n → m'.dbTypename d = some n := by
    intro d n hd
    have hne : d ≠ c := by
      rintro rfl
      rw [hfree] at hd
      cases hd
    rw [hdb, if_neg hne, hd]
  have hwithin : ∀ d n, m'.dbTypename d = some n → n ∈ names := by
    intro d n hd
    rw [hdb] at hd
    split at hd
    · exact Option.some.inj hd ▸ hin
    · exact h.within d n hd
  have hconc := h.concordance.setTypemap hm' hfree hnew
  refine ⟨?_, hget, hkeep⟩
  cases b with
  | false =>
    exact ⟨hconc, hwithin, fun row hr => hkeep _ _ (h.rows row hr), h.first, h.codes,
      h.typenames⟩
  | true =>
    refine ⟨hconc, hwithin, ?_, h.first.trans (List.prefix_append _ _), ?_, ?_⟩
    · intro row hr
      rcases List.mem_append.mp hr with hr | hr
      · exact hkeep _ _ (h.rows row hr)
      · obtain rfl := List.mem_singleton.mp hr
        exact hget
    · have hc : c ∉ s.2.map (·.type) := by
        intro hc
        obtain ⟨row, hr, rfl⟩ := List.mem_map.mp hc
        rw [h.rows row hr] at hfree
        cases hfree
      rw [if_pos rfl, List.map_append, List.map_singleton, ← List.concat_eq_append]
      exact h.codes.concat hc
    · have hn : name ∉ s.2.map (·.typename) := by
        intro hn
        obtain ⟨row, hr, rfl⟩ := List.mem_map.mp hn
        exact hnew _ (h.rows row hr)
      rw [if_pos rfl, List.map_append, List.map_singleton, ← List.concat_eq_append]
      exact h.typenames.concat hn

/-- Recording one type keeps all that was there and gives the type a code. -/
theorem Recording.recordType (h : @Recording cs types table names s) (ht : t < cs.nTypes)
    (hin : types.typeName t ∈ names) (hcard : names.card ≤ TYPEMAP_SZ) :
    ∃ s', recordType types accepts s t = some s' ∧ @Recording cs types table names s' ∧
      (∃ c, s'.1.dbTypename c = some (types.typeName t)) ∧
      ∀ c name, s.1.dbTypename c = some name → s'.1.dbTypename c = some name := by
  rw [AtomStorage.recordType]
  split
  · next hneg =>
    have hnew : ∀ c, s.1.dbTypename c ≠ some (types.typeName t) := by
      intro c hc
      have hpos := (h.concordance.code c _ hc).1
      have := (h.concordance.storing t ht c hpos).mpr hc
      lia
    obtain ⟨c, hc, hfree, hrange⟩ := h.concordance.sqlId_spec h.within hcard ht hin hnew
    obtain ⟨m', hm'⟩ := @setTypemap_isSome _ types s.1 c (types.typeName t) hrange
    obtain ⟨hrec, hget, hkeep⟩ := h.setTypemap hm' hfree hnew hin
      (accepts ⟨c, types.typeName t⟩)
    refine ⟨_, ?_, hrec, ⟨c, hget⟩, hkeep⟩
    simp only [hc, hm', Option.bind_eq_bind, Option.bind_some]
  · next hneg =>
    refine ⟨s, rfl, h, ⟨s.1.storingTypemap t, ?_⟩, fun _ _ hc => hc⟩
    have hpos : 0 ≤ s.1.storingTypemap t := by
      by_contra hlt
      exact hneg (h.concordance.absent t ht (by lia))
    exact (h.concordance.storing t ht _ hpos).mp rfl

theorem Recording.recordTypes (ts : List TypeCode) (h : @Recording cs types table names s)
    (hts : ∀ t ∈ ts, t < cs.nTypes ∧ types.typeName t ∈ names) (hcard : names.card ≤ TYPEMAP_SZ) :
    ∃ s', ts.foldlM (AtomStorage.recordType types accepts) s = some s' ∧
      @Recording cs types table names s' ∧
      (∀ t ∈ ts, ∃ c, s'.1.dbTypename c = some (types.typeName t)) ∧
      ∀ c name, s.1.dbTypename c = some name → s'.1.dbTypename c = some name := by
  induction ts generalizing s with
  | nil => exact ⟨s, rfl, h, by simp, fun _ _ hc => hc⟩
  | cons t ts ih =>
    obtain ⟨ht, hin⟩ := hts t List.mem_cons_self
    obtain ⟨s₁, h₁, hrec, ⟨c, hc⟩, hkeep⟩ := 
      @Recording.recordType _ _ _ _ _ _ accepts h ht hin hcard
    obtain ⟨s', h', hrec', hall, hkeep'⟩ :=
      ih hrec fun t' ht' => hts t' (List.mem_cons_of_mem _ ht')
    refine ⟨s', ?_, hrec', ?_, fun d name hd => hkeep' d name (hkeep d name hd)⟩
    · rw [List.foldlM_cons, h₁]
      exact h'
    · intro t' ht'
      rcases List.mem_cons.mp ht' with rfl | ht'
      · exact ⟨c, hkeep' c _ hc⟩
      · exact hall t' ht'

/-- The names of the current types. -/
def currentNames (types : CurrentTypes cs) : List String :=
  (List.range cs.nTypes).map types.typeName

/-- What the concordance is for: storing and loading agree on the current types, no code of the
table changes its name, and no row takes a code or a name twice. -/
structure Reconciled (types : CurrentTypes cs) (table : List TypeCodesRow) (m : TypeMaps)
    (table' : List TypeCodesRow) : Prop where
  valid : ∀ t < cs.nTypes, 0 ≤ m.storingTypemap t ∧ m.storingTypemap t < TYPEMAP_SZ
  inverse : ∀ t < cs.nTypes, m.loadingTypemap (m.storingTypemap t) = t
  injective : ∀ t < cs.nTypes, ∀ t' < cs.nTypes, m.storingTypemap t = m.storingTypemap t' → t = t'
  stored : ∀ row ∈ table, m.loadingTypemap row.type = (types.getType row.typename).getD NOTYPE
  inserted : ∃ rows, table' = table ++ rows
  codes : (table'.map (·.type)).Nodup
  typenames : (table'.map (·.typename)).Nodup

/-- `setup_typemap`, on a table that holds each code and each name once and with room for the
current types, neither overflows nor writes outside the arrays, and reconciles the two. -/
theorem setupTypemap_reconciles (types : CurrentTypes cs) (accepts : TypeCodesRow → Bool)
    (m : TypeMaps) (table : List TypeCodesRow) (hfirst : m.typeMapWasLoaded = false)
    (hrange : ∀ row ∈ table, 0 ≤ row.type ∧ row.type < TYPEMAP_SZ)
    (hcodes : (table.map (·.type)).Nodup) (hnames : (table.map (·.typename)).Nodup)
    (hfits : (table.map (·.typename) ++ currentNames types).toFinset.card ≤ TYPEMAP_SZ) :
    ∃ m' table', setupTypemap types accepts m table = some (m', table') ∧
      Reconciled types table m' table' := by
  obtain ⟨m₁, h₁, hconc, hiff⟩ := (@concordance_empty cs types).readTable hrange hcodes hnames
    (by simp)
  have hrec : @Recording cs types table
      (table.map (·.typename) ++ currentNames types).toFinset (m₁, table) := by
    refine ⟨hconc, ?_, ?_, List.prefix_refl _, hcodes, hnames⟩
    · intro c name h
      rcases (hiff c name).mp h with h | h
      · cases h
      · rw [List.mem_toFinset]
        exact List.mem_append_left _ (List.mem_map_of_mem h)
    · intro row hr
      exact (hiff _ _).mpr (.inr hr)
  have hts : ∀ t ∈ List.range cs.nTypes, t < cs.nTypes ∧
      types.typeName t ∈ (table.map (·.typename) ++ currentNames types).toFinset := by
    intro t ht
    refine ⟨List.mem_range.mp ht, ?_⟩
    rw [List.mem_toFinset]
    exact List.mem_append_right _ (List.mem_map_of_mem ht)
  obtain ⟨⟨m', table'⟩, h', hrec', hall, hkeep⟩ :=
    @Recording.recordTypes _ _ _ _ _ accepts _ hrec hts hfits
  have hstored : ∀ t < cs.nTypes,
      m'.dbTypename (m'.storingTypemap t) = some (types.typeName t) := by
    intro t ht
    obtain ⟨c, hc⟩ := hall t (List.mem_range.mpr ht)
    have hpos := (hrec'.concordance.code c _ hc).1
    rw [(hrec'.concordance.storing t ht c hpos).mpr hc]
    exact hc
  refine ⟨m', table', ?_, ?_, ?_, ?_, ?_, ?_, hrec'.codes, hrec'.typenames⟩
  · rw [setupTypemap, hfirst]
    simp only [Bool.false_eq_true, if_false, Option.bind_eq_bind, h₁, Option.bind_some]
    exact h'
  · intro t ht
    exact hrec'.concordance.code _ _ (hstored t ht)
  · intro t ht
    rw [hrec'.concordance.loading _ _ (hstored t ht), realType_typeName ht]
  · intro t ht t' ht' e
    have hn := hstored t ht
    rw [e, hstored t' ht'] at hn
    have := (@realType_eq_iff _ types _ _ ht).mpr (Option.some.inj hn)
    rw [realType_typeName ht'] at this
    exact this.symm
  · intro row hr
    exact hrec'.concordance.loading _ _ (hkeep _ _ ((hiff _ _).mpr (.inr hr)))
  · obtain ⟨rows, h⟩ := hrec'.first
    exact ⟨rows, h.symm⟩

/-! ## An older numbering -/

/-- The types that every server has. -/
def basicTypes : ClassServer where
  nTypes := 3
  isA t p := decide (t < 3) && (t == p || p == ATOM)
  isA_refl := by decide
  isA_lt t p h := by simpa using (Bool.and_eq_true_iff.mp h).1
  node_isA_atom t h := by rw [(Bool.and_eq_true_iff.mp h).1]; simp
  link_isA_atom t h := by rw [(Bool.and_eq_true_iff.mp h).1]; simp
  node_not_link t h := by
    simp only [NODE, LINK, ATOM, Bool.and_eq_true, Bool.or_eq_true, beq_iff_eq] at *
    obtain ⟨-, rfl | h⟩ := h
    · rfl
    · cases h

def basicNames : CurrentTypes basicTypes where
  typeName t := ["Atom", "Node", "Link"].getD t ""
  getType name := ["Atom", "Node", "Link"].idxOf? name
  getType_typeName := by decide
  nTypes_le := by decide
  typeName_getType name t h := by
    obtain ⟨ht, hname, -⟩ := List.findIdx?_eq_some_iff_getElem.mp h
    refine ⟨ht, ?_⟩
    rw [List.getD_eq_getElem _ _ ht]
    simpa using hname

/-- The arrays of a new store. -/
def initialMaps : TypeMaps := ⟨false, fun _ => NOTYPE, fun _ => 0, fun _ => none⟩

/-- Of the types of the server only `Link` is known, and has the number that `Node` has now. -/
def olderTable : List TypeCodesRow := [⟨1, "Link"⟩, ⟨7, "Thing"⟩]

theorem setupTypemap_reconciles_older :
    ∃ m' table', setupTypemap basicNames (fun _ => true) initialMaps olderTable =
      some (m', table') ∧ Reconciled basicNames olderTable m' table' :=
  setupTypemap_reconciles basicNames (fun _ => true) initialMaps olderTable rfl (by decide)
    (by decide) (by decide) (Nat.le_trans (List.toFinset_card_le _) (by decide))

end AtomStorage

end OpenCog
