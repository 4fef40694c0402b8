import OpenCog.AtomSpace.Deferred
import OpenCog.Persist.SqlTexts
import OpenCog.Persist.TypeMap

/-! All atoms of a table through an SQL database: `store` and `load`. Numbers are printed and read
in decimal; the columns of a truth value stand together. An operation has no result where the
program throws, reads a null pointer or reads behind the end of a text. -/
namespace OpenCog

variable {TV E : Type}

namespace AtomStorage
open Lines

/-! ## The database -/

/-- A row of `Atoms`. -/
structure Row (E : Type) where
  uuid : Nat
  type : Int
  tv : E
  height : Nat
  name : Option (List Char)
  outgoing : Option (List Handle)

structure Database (E : Type) where
  atoms : List (Row E)
  typeCodes : List TypeCodesRow
  maxUuid : Nat
  maxHeight : Nat

/-- What is up to the database: which types it records, and the order of the rows it returns. -/
structure Sql (E : Type) where
  accepts : TypeCodesRow → Bool
  atomOrder : List (Row E) → List (Row E)
  codeOrder : List TypeCodesRow → List TypeCodesRow
  atomOrder_perm : ∀ rows, (atomOrder rows).Perm rows
  codeOrder_perm : ∀ rows, (codeOrder rows).Perm rows

namespace Database

/-- The tables as `atom.sql` makes them. -/
def created : Database E := ⟨[], [], 501, 0⟩

def select (sql : Sql E) (db : Database E) (p : Row E → Bool) : List (Row E) :=
  sql.atomOrder (db.atoms.filter p)

theorem mem_select {sql : Sql E} {db : Database E} {p : Row E → Bool} {r : Row E} :
    r ∈ db.select sql p ↔ r ∈ db.atoms ∧ p r = true := by
  rw [select, (sql.atomOrder_perm _).mem_iff, List.mem_filter]

def getMaxObservedUUID (db : Database E) : Nat := (db.atoms.map Row.uuid).foldl max 0

def getMaxObservedHeight (db : Database E) : Nat := (db.atoms.map Row.height).foldl max 0

end Database

/-- The numbers 0, `step`, 2 `step` and so on up to `last`. -/
def bounds (step last : Nat) : List Nat := (List.range (last / step + 1)).map (step * ·)

def STEP : Nat := 12003
def USTEP : Nat := 12003

def uuidOf (r : Row E) : Handle := strtoul (Nat.toDigits 10 r.uuid)

/-! ## Storing -/

/-- The state of an `AtomStorage`. -/
structure Storage where
  maps : TypeMaps
  localIdCacheIsInited : Bool
  localIdCache : List Handle
  maxHeight : Nat

def Storage.opened : Storage := ⟨initialMaps, false, [], 0⟩

section Store
variable {cs : ClassServer} (types : CurrentTypes cs) (codec : TruthCodec TV E) (sql : Sql E)

def getIds (st : Storage) (db : Database E) : Storage :=
  if st.localIdCacheIsInited then st
  else { st with
    localIdCacheIsInited := true
    localIdCache := (bounds USTEP db.maxUuid).flatMap fun lo =>
      (db.select sql fun r => decide (lo < r.uuid) && decide (r.uuid ≤ lo + USTEP)).map uuidOf }

/-- `setup_typemap`, the first time. -/
def setup (p : Storage × Database E) : Option (Storage × Database E) :=
  if p.1.maps.typeMapWasLoaded then some p
  else do
    let (maps, codes) ← setupTypemap types sql.accepts p.1.maps (sql.codeOrder p.2.typeCodes)
    some ({ p.1 with maps }, { p.2 with typeCodes := codes })

/-- The distance to the farthest node; a handle without an atom counts as one. -/
def getHeight (s : AtomTable TV) : Nat → Handle → Option Nat
  | 0, _ => none
  | fuel + 1, h =>
    match s.bodyOf h with
    | some (.link o) => do
      let ds ← (Body.link o).targets.mapM (getHeight s fuel)
      some (ds.foldl max 0 + 1)
    | _ => some 0

/-- The row that the INSERT of an atom makes; none where the statement has an error. -/
def newRow (maps : TypeMaps) (h : Handle) (a : Atom TV) (height : Nat) : Option (Row E) :=
  match a.body with
  | .node name =>
    (readQuoted (quoteName name.toList)).map fun n =>
      { uuid := h, type := maps.storingTypemap a.type, tv := codec.write a.truthValue,
        height := 0, name := some n, outgoing := none }
  | .link o => some
      { uuid := h, type := maps.storingTypemap a.type, tv := codec.write a.truthValue,
        height, name := none,
        outgoing := if (Body.link o).arity = 0 then none
          else some (readArray (osetToString o (Body.link o).arity)) }

/-- Only the truth value of an atom that is in the database is stored again. -/
def doStoreSingleAtom (h : Handle) (a : Atom TV) (height : Nat) (p : Storage × Database E) :
    Option (Storage × Database E) := do
  let (st, db) ← setup types sql p
  if h ∈ st.localIdCache then
    let atoms := db.atoms.map fun r =>
      if r.uuid = h then { r with tv := codec.write a.truthValue } else r
    some (st, { db with atoms })
  else
    let maxHeight := match a.body with
      | .node _ => st.maxHeight
      | .link _ => max st.maxHeight height
    some ({ st with maxHeight, localIdCache := h :: st.localIdCache },
      { db with atoms := db.atoms ++ (newRow codec st.maps h a height).toList })

def storeSingleAtom (s : AtomTable TV) (p : Storage × Database E) (h : Handle) :
    Option (Storage × Database E) := do
  let a ← s.handleMap h
  let height ← getHeight s (s.brkUuid + 1) h
  doStoreSingleAtom types codec sql h a height (getIds sql p.1 p.2, p.2)

/-- The hash set of the table is gone through in an order of its own. -/
def store (order : List Handle → List Handle) (s : AtomTable TV) (st : Storage)
    (db : Database E) : Option (Storage × Database E) := do
  let st := getIds sql { st with maxHeight := 0 } db
  let p ← setup types sql (st, { db with maxUuid := s.brkUuid })
  let (st, db) ← (order s.atomSet).foldlM (storeSingleAtom types codec sql s) p
  let maxHeight := max st.maxHeight db.getMaxObservedHeight
  some ({ st with maxHeight }, { db with maxHeight, maxUuid := db.getMaxObservedUUID })

end Store

/-! ## Loading -/

/-- The columns of the row at hand that may be NULL: their buffers. The one of the outgoing set
holds nothing yet, or an array from its beginning. -/
structure Response where
  name : List Char
  outlist : List Char
  opened : outlist.head? ≠ some '}'
  short : outlist.length < DEFAULT_VARCHAR_SIZE

namespace Response

/-- A NULL leaves the buffer as it was. -/
def outlistOf (rp : Response) (outgoing : Option (List Handle)) : List Char :=
  (outgoing.map fun o => cut (arrayText o)).getD rp.outlist

theorem outlistOf_opened (rp : Response) (outgoing : Option (List Handle)) :
    (rp.outlistOf outgoing).head? ≠ some '}' := by
  cases outgoing with
  | none => exact rp.opened
  | some o =>
    have hhead : (rp.outlistOf (some o)).head? = some '{' := rfl
    rw [hhead]
    decide

theorem outlistOf_short (rp : Response) (outgoing : Option (List Handle)) :
    (rp.outlistOf outgoing).length < DEFAULT_VARCHAR_SIZE := by
  cases outgoing with
  | none => exact rp.short
  | some o => exact length_cut_lt _

def fetch (rp : Response) (r : Row E) : Response where
  name := (r.name.map cut).getD rp.name
  outlist := rp.outlistOf r.outgoing
  opened := rp.outlistOf_opened r.outgoing
  short := rp.outlistOf_short r.outgoing

end Response

structure Loader (TV : Type) where
  storage : Storage
  response : Response
  table : AtomTable TV

section Load
variable (cs : ClassServer) (codec : TruthCodec TV E) (ops : TruthOps TV) (sql : Sql E)

/-- A height of -1 stands for one that is not known. -/
def newAtom (realtype : TypeCode) (height : Int) (rp : Response) : Option (Atom TV) :=
  if height = 0 ∨ height = -1 ∧ cs.isA realtype NODE = true then
    Atom.newNode cs ops realtype (String.ofList rp.name) ops.defaultTv
  else do
    let outvec ← readOutlist rp.outlist
    Atom.newLink cs ops realtype outvec ops.defaultTv

/-- `makeAtom`; an unknown type gives a null pointer. -/
def makeAtom (height : Int) (r : Row E) (l : Loader TV) : Option (Loader TV) := do
  let h := uuidOf r
  let realtype := l.storage.maps.loadingTypemap (atoi (printInt r.type))
  if realtype = NOTYPE then none
  else
    let table ← match l.table.handleMap h with
      | some _ => some l.table
      | none => do
        let a ← newAtom cs ops realtype height l.response
        -- TLB::addAtom
        some { l.table with handleMap := Function.update l.table.handleMap h (some a) }
    some { l with
      table := table.modify h fun a => { a with truthValue := codec.read r.tv }
      storage := { l.storage with localIdCache := h :: l.storage.localIdCache } }

def loadAllAtomsCb (l : Loader TV) (row : Nat × Row E) : Option (Loader TV) := do
  let l ← makeAtom cs codec ops row.1 row.2 { l with response := l.response.fetch row.2 }
  let (table, h) := l.table.addKnown ops (uuidOf row.2) true
  if h.isSome then some { l with table } else none

/-- The rows as the loops over heights and uuids come to them. -/
def loadRows (maxHeight maxNrec : Nat) (db : Database E) : List (Nat × Row E) :=
  (List.range (maxHeight + 1)).flatMap fun hei =>
    (bounds STEP maxNrec).flatMap fun lo =>
      (db.select sql fun r =>
        decide (r.height = hei) && decide (lo < r.uuid) && decide (r.uuid ≤ lo + STEP)).map (hei, ·)

variable {cs} in
def load (types : CurrentTypes cs) (st : Storage) (db : Database E) (rp : Response) (table : AtomTable TV) :
    Option (Loader TV) := do
  -- TLB::reserve_range
  let table := { table with brkUuid := max table.brkUuid (db.maxUuid + 1) }
  let (st, db) ← setup types sql ({ st with maxHeight := db.maxHeight }, db)
  (loadRows sql st.maxHeight db.maxUuid db).foldlM (loadAllAtomsCb cs codec ops)
    ⟨st, rp, table⟩

end Load

/-! ## Types -/

section Types
variable {cs : ClassServer} {types : CurrentTypes cs} {m m' : TypeMaps} {t : TypeCode}
  {accepts : TypeCodesRow → Bool}

/-- The type has its own number in the database. -/
structure Known (types : CurrentTypes cs) (m : TypeMaps) (t : TypeCode) : Prop where
  name : m.dbTypename t = some (types.typeName t)
  loading : m.loadingTypemap t = t
  storing : m.storingTypemap t = t

/-- No other type has it. -/
def Own (types : CurrentTypes cs) (m : TypeMaps) : Prop :=
  ∀ t < cs.nTypes, Known types m t ∨ m.dbTypename t = none ∧ m.storingTypemap t = -1

/-- The table has no other rows. -/
def OwnRows (types : CurrentTypes cs) (rows : List TypeCodesRow) : Prop :=
  ∀ row ∈ rows, ∃ t < cs.nTypes, row = ⟨t, types.typeName t⟩

theorem Own.setTypemap (hm : Own types m) (ht : t < cs.nTypes) :
    ∃ m', setTypemap types m t (types.typeName t) = some m' ∧ Own types m' ∧ Known types m' t ∧
      ∀ u < cs.nTypes, Known types m u → Known types m' u := by
  have hrange : (0 : Int) ≤ t ∧ (t : Int) < TYPEMAP_SZ := by
    have hn := types.nTypes_le
    have hcast : (t : Int) < (65536 : Nat) := Int.ofNat_lt.mpr (Nat.lt_of_lt_of_le ht (by
      simp only [NOTYPE] at hn
      omega))
    exact ⟨Int.natCast_nonneg t, hcast⟩
  obtain ⟨m', h'⟩ := @setTypemap_isSome _ types m _ (types.typeName t) hrange
  obtain ⟨-, hdb, hload, hstore⟩ := setTypemap_eq_some h'
  rw [realType_typeName ht] at hstore
  have hself : Known types m' t := by
    refine ⟨?_, ?_, ?_⟩
    · rw [hdb, if_pos rfl]
    · rw [hload, if_pos rfl, realType_typeName ht]
    · rw [hstore, if_pos rfl]
  have hkept : ∀ u, u ≠ t → m'.dbTypename u = m.dbTypename u ∧
      m'.loadingTypemap u = m.loadingTypemap u ∧ m'.storingTypemap u = m.storingTypemap u := by
    intro u hu
    have hu' : (u : Int) ≠ t := fun e => hu (Int.ofNat.inj e)
    exact ⟨by rw [hdb, if_neg hu'], by rw [hload, if_neg hu'], by rw [hstore, if_neg hu]⟩
  have hknown : ∀ u < cs.nTypes, Known types m u → Known types m' u := by
    intro u _ hk
    by_cases e : u = t
    · exact e ▸ hself
    · obtain ⟨h₁, h₂, h₃⟩ := hkept u e
      exact ⟨h₁.trans hk.name, h₂.trans hk.loading, h₃.trans hk.storing⟩
  refine ⟨m', h', fun u hu => ?_, hself, hknown⟩
  by_cases e : u = t
  · exact .inl (e ▸ hself)
  · obtain ⟨h₁, -, h₃⟩ := hkept u e
    rcases hm u hu with hk | hn
    · exact .inl (hknown u hu hk)
    · exact .inr ⟨h₁.trans hn.1, h₃.trans hn.2⟩

theorem Own.readTable {rows : List TypeCodesRow} (hm : Own types m) (hrows : OwnRows types rows) :
    ∃ m', rows.foldlM (fun m row => AtomStorage.setTypemap types m row.type row.typename) m =
      some m' ∧ Own types m' := by
  induction rows generalizing m with
  | nil => exact ⟨m, rfl, hm⟩
  | cons row rows ih =>
    obtain ⟨t, ht, rfl⟩ := hrows row List.mem_cons_self
    obtain ⟨m₁, h₁, hm₁, -, -⟩ := hm.setTypemap ht
    obtain ⟨m', h', hm'⟩ := ih hm₁ fun r hr => hrows r (List.mem_cons_of_mem _ hr)
    refine ⟨m', ?_, hm'⟩
    rw [List.foldlM_cons, h₁]
    exact h'

theorem Own.recordType {rows : List TypeCodesRow} (hm : Own types m) (hrows : OwnRows types rows)
    (ht : t < cs.nTypes) : ∃ m' rows', recordType types accepts (m, rows) t = some (m', rows') ∧
      Own types m' ∧ OwnRows types rows' ∧ Known types m' t ∧
      ∀ u < cs.nTypes, Known types m u → Known types m' u := by
  rw [AtomStorage.recordType]
  rcases hm t ht with hk | ⟨hname, hneg⟩
  · have hpos : (m.storingTypemap t) ≠ -1 := by
      rw [hk.storing]
      omega
    rw [if_neg hpos]
    exact ⟨m, rows, rfl, hm, hrows, hk, fun _ _ h => h⟩
  · have hid : sqlId m t = some (t : Int) := by
      rw [sqlId, if_neg]
      exact fun h => h.1 hname
    obtain ⟨m', h', hm', hk, hkept⟩ := hm.setTypemap ht
    refine ⟨m', if accepts ⟨t, types.typeName t⟩ then rows ++ [⟨t, types.typeName t⟩] else rows,
      ?_, hm', ?_, hk, hkept⟩
    · rw [if_pos hneg]
      dsimp only
      rw [hid, Option.bind_eq_bind, Option.bind_some, h', Option.bind_eq_bind, Option.bind_some]
    · split
      · intro row hr
        rcases List.mem_append.mp hr with hr | hr
        · exact hrows row hr
        · exact ⟨t, ht, List.mem_singleton.mp hr⟩
      · exact hrows

/-- Where the table holds the types under their own numbers, all of them get these. -/
theorem setupTypemap_own {rows : List TypeCodesRow} (hrows : OwnRows types rows)
    (hfirst : m.typeMapWasLoaded = false) : ∃ m' rows',
      setupTypemap types accepts m rows = some (m', rows') ∧ OwnRows types rows' ∧
      ∀ t < cs.nTypes, Known types m' t := by
  have hnone : Own types ⟨true, fun _ => NOTYPE, fun _ => -1, fun _ => none⟩ :=
    fun _ _ => .inr ⟨rfl, rfl⟩
  obtain ⟨m₁, h₁, hm₁⟩ := hnone.readTable hrows
  have hall : ∀ ts : List TypeCode, (∀ t ∈ ts, t < cs.nTypes) → ∀ m rows, Own types m →
      OwnRows types rows → ∃ m' rows', ts.foldlM (recordType types accepts) (m, rows) =
        some (m', rows') ∧ OwnRows types rows' ∧
        ∀ t < cs.nTypes, t ∈ ts ∨ Known types m t → Known types m' t := by
    intro ts
    induction ts with
    | nil => exact fun _ m rows _ hr => ⟨m, rows, rfl, hr, fun t _ h => h.resolve_left List.not_mem_nil⟩
    | cons t ts ih =>
      intro hts m rows hm hr
      obtain ⟨m₂, rows₂, h₂, hm₂, hr₂, hk, hkept⟩ :=
        @Own.recordType _ _ _ _ accepts _ hm hr (hts t List.mem_cons_self)
      obtain ⟨m', rows', h', hr', hall⟩ :=
        ih (fun u hu => hts u (List.mem_cons_of_mem t hu)) m₂ rows₂ hm₂ hr₂
      refine ⟨m', rows', by rw [List.foldlM_cons, h₂]; exact h', hr', fun u hu h => hall u hu ?_⟩
      rcases h with h | h
      · rcases List.mem_cons.mp h with rfl | h
        · exact .inr hk
        · exact .inl h
      · exact .inr (hkept u hu h)
  obtain ⟨m', rows', h', hr', hknown⟩ :=
    hall (List.range cs.nTypes) (fun t ht => List.mem_range.mp ht) m₁ rows hm₁ hrows
  refine ⟨m', rows', ?_, hr', fun t ht => hknown t ht (.inl (List.mem_range.mpr ht))⟩
  rw [setupTypemap, hfirst]
  simp only [Bool.false_eq_true, if_false, Option.bind_eq_bind, h₁, Option.bind_some]
  exact h'

end Types

end AtomStorage

end OpenCog
