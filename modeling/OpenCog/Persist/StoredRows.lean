import OpenCog.AtomSpace.FilterSet
import OpenCog.AtomSpace.NameTarget
import OpenCog.Persist.AtomStorage

/-! What `store` leaves in an empty database: one row for each atom, with its height, as long as
the name makes a statement; and the rows in the order of the loops of `load`. -/
namespace OpenCog

variable {TV E : Type}

namespace AtomStorage
open AtomTable Lines

variable {cs : ClassServer} {s : AtomTable TV} {h x : Handle}

/-- A table of atoms: each is what a constructor makes, no two are equal, and the members of a
link come before it. -/
structure Tabled (cs : ClassServer) (s : AtomTable TV) : Prop where
  nodup : s.atomSet.Nodup
  given : ∀ h ∈ s.atomSet, 0 < h ∧ h < s.brkUuid
  live : ∀ h ∈ s.atomSet, ∃ t b, s.key h = some (t, b) ∧ cs.isA t b.kind = true
  named : ∀ h ∈ s.atomSet, ∀ t name, s.key h = some (t, .node name) → NoNul name
  normal : ∀ h ∈ s.atomSet, ∀ t o, s.key h = some (t, .link o) → Atom.setOutgoingSet cs t o = o
  members : ∀ h ∈ s.atomSet, ∀ x ∈ s.outgoing h, x ∈ s.atomSet ∧ x < h
  unique : ∀ g ∈ s.atomSet, ∀ h ∈ s.atomSet, s.key g = s.key h → g = h

/-! ## Heights -/

def heightOf (s : AtomTable TV) (h : Handle) : Nat := (getHeight s (s.brkUuid + 1) h).getD 0

theorem bodyOf_of_key {t : TypeCode} {b : Body} (hk : s.key h = some (t, b)) :
    s.bodyOf h = some b := by
  rw [bodyOf_eq, hk]
  rfl

theorem getHeight_node {t : TypeCode} {name : String} (hk : s.key h = some (t, .node name))
    (fuel : Nat) : getHeight s (fuel + 1) h = some 0 := by
  rw [getHeight, bodyOf_of_key hk]

theorem getHeight_link {t : TypeCode} {o : List Handle} (hk : s.key h = some (t, .link o))
    (fuel : Nat) : getHeight s (fuel + 1) h =
      ((Body.link o).targets.mapM (getHeight s fuel)).map fun ds => ds.foldl max 0 + 1 := by
  rw [getHeight, bodyOf_of_key hk]
  exact (Option.map_eq_bind).symm

theorem targetsOf_of_key {t : TypeCode} {b : Body} (hk : s.key h = some (t, b)) :
    s.targetsOf h = b.targets := by
  rw [targetsOf_eq, hk]
  rfl

theorem mem_outgoing_of_target {t : TypeCode} {b : Body} (hk : s.key h = some (t, b))
    (hx : x ∈ b.targets) : x ∈ s.outgoing h := by
  rw [outgoing_of_key hk]
  exact List.mem_of_mem_take hx

/-- The recursion ends, and does not need the whole bound. -/
theorem Tabled.getHeight_isSome (ht : Tabled cs s) (hm : h ∈ s.atomSet) :
    ∃ d, ∀ fuel, h < fuel → getHeight s fuel h = some d := by
  induction h using Nat.strong_induction_on with
  | _ h ih =>
    obtain ⟨t, b, hk, -⟩ := ht.live h hm
    cases b with
    | node name =>
      refine ⟨0, fun fuel hf => ?_⟩
      obtain ⟨fuel, rfl⟩ := Nat.exists_eq_succ_of_ne_zero (Nat.ne_of_gt (Nat.zero_lt_of_lt hf))
      exact getHeight_node hk fuel
    | link o =>
      have hall : ∀ x ∈ (Body.link o).targets, ∃ d, ∀ fuel, x < fuel →
          getHeight s fuel x = some d := by
        intro x hx
        obtain ⟨hxm, hlt⟩ := ht.members h hm x (mem_outgoing_of_target hk hx)
        exact ih x hlt hxm
      choose! d hd using hall
      refine ⟨((Body.link o).targets.map d).foldl max 0 + 1, fun fuel hf => ?_⟩
      obtain ⟨fuel, rfl⟩ := Nat.exists_eq_succ_of_ne_zero (Nat.ne_of_gt (Nat.zero_lt_of_lt hf))
      have hmap : (Body.link o).targets.mapM (getHeight s fuel) =
          some ((Body.link o).targets.map d) := by
        refine mapM_eq_some_map _ fun x hx => ?_
        have hlt := (ht.members h hm x (mem_outgoing_of_target hk hx)).2
        exact hd x hx fuel (Nat.lt_of_lt_of_le hlt (Nat.le_of_lt_succ hf))
      rw [getHeight_link hk, hmap]
      rfl

theorem Tabled.getHeight (ht : Tabled cs s) (hm : h ∈ s.atomSet) {fuel : Nat} (hf : h < fuel) :
    getHeight s fuel h = some (heightOf s h) := by
  obtain ⟨d, hd⟩ := ht.getHeight_isSome hm
  have hbound : h < s.brkUuid + 1 := Nat.lt_succ_of_lt (ht.given h hm).2
  rw [heightOf, hd _ hf, hd _ hbound, Option.getD_some]

theorem Tabled.heightOf_node (ht : Tabled cs s) (hm : h ∈ s.atomSet) {t : TypeCode} {name : String}
    (hk : s.key h = some (t, .node name)) : heightOf s h = 0 :=
  Option.some.inj ((ht.getHeight hm (Nat.lt_succ_self h)).symm.trans (getHeight_node hk h))

theorem Tabled.heightOf_link (ht : Tabled cs s) (hm : h ∈ s.atomSet) {t : TypeCode}
    {o : List Handle} (hk : s.key h = some (t, .link o)) :
    heightOf s h = ((Body.link o).targets.map (heightOf s)).foldl max 0 + 1 := by
  have hmap : (Body.link o).targets.mapM (AtomStorage.getHeight s h) =
      some ((Body.link o).targets.map (heightOf s)) := by
    refine mapM_eq_some_map _ fun x hx => ?_
    obtain ⟨hxm, hlt⟩ := ht.members h hm x (mem_outgoing_of_target hk hx)
    exact ht.getHeight hxm hlt
  have hlink := getHeight_link hk h
  rw [hmap, Option.map_some, ht.getHeight hm (Nat.lt_succ_self h)] at hlink
  exact Option.some.inj hlink

/-- A link is higher than its members. -/
theorem Tabled.heightOf_lt (ht : Tabled cs s) (hm : h ∈ s.atomSet) (hx : x ∈ s.targetsOf h) :
    heightOf s x < heightOf s h := by
  obtain ⟨t, b, hk, -⟩ := ht.live h hm
  rw [targetsOf_of_key hk] at hx
  cases b with
  | node name => exact absurd hx (List.not_mem_nil ∘ List.mem_of_mem_take)
  | link o =>
    rw [ht.heightOf_link hm hk]
    exact Nat.lt_succ_of_le ((SortedLists.foldl_max_spec _ 0).2.1 _ (List.mem_map_of_mem hx))

/-! ## Rows -/

/-- Storing gives each type its own number. -/
def plainMaps : TypeMaps := ⟨true, fun _ => NOTYPE, fun t => t, fun _ => none⟩

def rowOf (codec : TruthCodec TV E) (s : AtomTable TV) (h : Handle) : Option (Row E) :=
  (s.handleMap h).bind fun a => newRow codec plainMaps h a (heightOf s h)

theorem newRow_congr {codec : TruthCodec TV E} {m m' : TypeMaps} {a : Atom TV} {d : Nat}
    (hm : m.storingTypemap a.type = m'.storingTypemap a.type) :
    newRow codec m h a d = newRow codec m' h a d := by
  unfold newRow
  rw [hm]

section Rows
variable {codec : TruthCodec TV E} {r : Row E}

theorem uuid_of_rowOf (hr : rowOf codec s h = some r) : r.uuid = h := by
  obtain ⟨a, -, hr⟩ := Option.bind_eq_some_iff.mp hr
  unfold newRow at hr
  split at hr
  · obtain ⟨n, -, rfl⟩ := Option.map_eq_some_iff.mp hr
    rfl
  · obtain rfl := Option.some.inj hr
    rfl

theorem rowOf_node {t : TypeCode} {name : String} (hk : s.key h = some (t, .node name))
    (hr : rowOf codec s h = some r) : r.type = t ∧ r.height = 0 ∧
      ∃ n, readQuoted (quoteName name.toList) = some n ∧ r.name = some n ∧ r.outgoing = none := by
  obtain ⟨a, ha, rfl, hb⟩ := exists_of_key hk
  rw [rowOf, ha, Option.bind_some, newRow, hb] at hr
  obtain ⟨n, hn, rfl⟩ := Option.map_eq_some_iff.mp hr
  exact ⟨rfl, rfl, n, hn, rfl, rfl⟩

theorem rowOf_link {t : TypeCode} {o : List Handle} (hk : s.key h = some (t, .link o)) :
    ∃ r, rowOf codec s h = some r ∧ r.type = t ∧ r.height = heightOf s h ∧
      r.name = none ∧ r.outgoing = if (Body.link o).arity = 0 then none
        else some (readArray (osetToString o (Body.link o).arity)) := by
  obtain ⟨a, ha, rfl, hb⟩ := exists_of_key hk
  have hrow : rowOf codec s h = some
      { uuid := h, type := plainMaps.storingTypemap a.type, tv := codec.write a.truthValue,
        height := heightOf s h, name := none,
        outgoing := if (Body.link o).arity = 0 then none
          else some (readArray (osetToString o (Body.link o).arity)) } := by
    rw [rowOf, ha, Option.bind_some, newRow, hb]
  exact ⟨_, hrow, rfl, rfl, rfl, rfl⟩

theorem Tabled.rowOf_spec (ht : Tabled cs s) (hm : h ∈ s.atomSet) (hr : rowOf codec s h = some r) :
    r.height = heightOf s h ∧ ∀ t b, s.key h = some (t, b) → r.type = t := by
  obtain ⟨t, b, hk, -⟩ := ht.live h hm
  have hkey : ∀ u c, s.key h = some (u, c) → u = t := by
    intro u c hu
    exact (congrArg Prod.fst (Option.some.inj (hk.symm.trans hu))).symm
  cases b with
  | node name =>
    obtain ⟨htype, hh, -⟩ := rowOf_node hk hr
    refine ⟨hh.trans (ht.heightOf_node hm hk).symm, fun u c hc => ?_⟩
    rw [htype, hkey u c hc]
  | link o =>
    obtain ⟨r', hr', htype, hh, -⟩ := @rowOf_link _ _ _ _ codec _ _ hk
    obtain rfl := Option.some.inj (hr.symm.trans hr')
    refine ⟨hh, fun u c hc => ?_⟩
    rw [htype, hkey u c hc]

end Rows

/-! ## The run of `store` -/

section Store
variable {types : CurrentTypes cs} {codec : TruthCodec TV E} {sql : Sql E} {done : List Handle}
  {p p' : Storage × Database E}

/-- While the atoms are stored. -/
structure Storing (types : CurrentTypes cs) (codec : TruthCodec TV E) (s : AtomTable TV)
    (done : List Handle) (p : Storage × Database E) : Prop where
  inited : p.1.localIdCacheIsInited = true
  cache : ∀ h, h ∈ p.1.localIdCache ↔ h ∈ done
  maps : p.1.maps.typeMapWasLoaded = true → ∀ t < cs.nTypes, Known types p.1.maps t
  codes : OwnRows types p.2.typeCodes
  atoms : p.2.atoms = done.filterMap (rowOf codec s)

theorem setup_known (hcodes : OwnRows types p.2.typeCodes)
    (hmaps : p.1.maps.typeMapWasLoaded = true → ∀ t < cs.nTypes, Known types p.1.maps t) :
    ∃ maps codes, setup types sql p =
        some ({ p.1 with maps := maps }, { p.2 with typeCodes := codes }) ∧
      OwnRows types codes ∧ ∀ t < cs.nTypes, Known types maps t := by
  unfold setup
  split
  · next hloaded => exact ⟨p.1.maps, p.2.typeCodes, rfl, hcodes, hmaps hloaded⟩
  · next hfirst =>
    have hordered : OwnRows types (sql.codeOrder p.2.typeCodes) :=
      fun row hr => hcodes row ((sql.codeOrder_perm _).mem_iff.mp hr)
    obtain ⟨maps, codes, h, hown, hknown⟩ :=
      @setupTypemap_own _ types p.1.maps sql.accepts _ hordered (Bool.eq_false_iff.mpr hfirst)
    refine ⟨maps, codes, ?_, hown, hknown⟩
    rw [h]
    rfl

theorem Storing.storeSingleAtom (ht : Tabled cs s) (hm : h ∈ s.atomSet) (hn : h ∉ done)
    (hp : Storing types codec s done p) :
    ∃ p', storeSingleAtom types codec sql s p h = some p' ∧
      Storing types codec s (done ++ [h]) p' := by
  obtain ⟨t, b, hk, hkind⟩ := ht.live h hm
  obtain ⟨a, ha, rfl, -⟩ := exists_of_key hk
  obtain ⟨maps, codes, hset, hown, hknown⟩ := @setup_known _ _ types sql p hp.codes hp.maps
  have hrow : newRow codec maps h a (heightOf s h) = rowOf codec s h := by
    rw [rowOf, ha, Option.bind_some]
    exact newRow_congr (hknown a.type (cs.isA_lt _ _ hkind)).storing
  have hids : getIds sql p.1 p.2 = p.1 := by
    rw [getIds, if_pos hp.inited]
  have hnew : h ∉ p.1.localIdCache := fun hc => hn ((hp.cache h).mp hc)
  obtain ⟨maxHeight, hstep⟩ : ∃ maxHeight, AtomStorage.storeSingleAtom types codec sql s p h =
      some ({ p.1 with maps := maps, maxHeight := maxHeight, localIdCache := h :: p.1.localIdCache },
        { p.2 with typeCodes := codes, atoms := p.2.atoms ++ (rowOf codec s h).toList }) := by
    unfold AtomStorage.storeSingleAtom doStoreSingleAtom
    simp only [ha, ht.getHeight hm (Nat.lt_succ_of_lt (ht.given h hm).2), hids, hset, if_neg hnew,
      Option.bind_eq_bind, Option.bind_some, hrow]
    exact ⟨_, rfl⟩
  refine ⟨_, hstep, hp.inited, fun g => ?_, fun _ => hknown, hown, ?_⟩
  · rw [List.mem_cons, List.mem_append, List.mem_singleton, hp.cache g, or_comm]
  · simp only [hp.atoms, List.filterMap_append, List.filterMap_cons, List.filterMap_nil]
    cases rowOf codec s h with
    | none => rfl
    | some r => rfl

/-- What is in the database afterwards. -/
structure StoredAs (types : CurrentTypes cs) (codec : TruthCodec TV E) (s : AtomTable TV)
    (db : Database E) : Prop where
  atoms : db.atoms.Perm (s.atomSet.filterMap (rowOf codec s))
  codes : OwnRows types db.typeCodes
  height : ∀ r ∈ db.atoms, r.height ≤ db.maxHeight
  uuid : ∀ r ∈ db.atoms, r.uuid ≤ db.maxUuid

end Store

/-! ## The rows in the order of `load` -/

theorem exists_bound {step last n : Nat} (hn : 0 < n) (hlast : n ≤ last) (hstep : 0 < step) :
    ∃ lo ∈ bounds step last, lo < n ∧ n ≤ lo + step := by
  refine ⟨step * ((n - 1) / step), ?_, ?_, ?_⟩
  · refine List.mem_map.mpr ⟨(n - 1) / step, List.mem_range.mpr ?_, rfl⟩
    exact Nat.lt_succ_of_le (Nat.div_le_div_right (Nat.le_trans (Nat.sub_le n 1) hlast))
  · have := Nat.mul_div_le (n - 1) step
    omega
  · have := Nat.lt_mul_div_succ (n - 1) hstep
    rw [Nat.mul_add, Nat.mul_one] at this
    omega

/-- A number is between two bounds only once. -/
theorem bound_unique {step last n lo lo' : Nat} (hlo : lo ∈ bounds step last)
    (hlo' : lo' ∈ bounds step last) (h : lo < n ∧ n ≤ lo + step)
    (h' : lo' < n ∧ n ≤ lo' + step) : lo = lo' := by
  obtain ⟨i, -, rfl⟩ := List.mem_map.mp hlo
  obtain ⟨j, -, rfl⟩ := List.mem_map.mp hlo'
  have hij : i < j + 1 := by
    by_contra hle
    have := Nat.mul_le_mul_left step (Nat.le_of_not_lt hle)
    rw [Nat.mul_add] at this
    omega
  have hji : j < i + 1 := by
    by_contra hle
    have := Nat.mul_le_mul_left step (Nat.le_of_not_lt hle)
    rw [Nat.mul_add] at this
    omega
  rw [Nat.le_antisymm (Nat.le_of_lt_succ hij) (Nat.le_of_lt_succ hji)]

section Order
variable {sql : Sql E} {db : Database E} {maxHeight maxNrec : Nat}

theorem mem_loadRows {row : Nat × Row E} : row ∈ loadRows sql maxHeight maxNrec db ↔
    row.2 ∈ db.atoms ∧ row.1 = row.2.height ∧ row.2.height ≤ maxHeight ∧
      ∃ lo ∈ bounds STEP maxNrec, lo < row.2.uuid ∧ row.2.uuid ≤ lo + STEP := by
  simp only [loadRows, List.mem_flatMap, List.mem_range, List.mem_map, Database.mem_select,
    Bool.and_eq_true, decide_eq_true_eq, Nat.lt_succ_iff]
  constructor
  · rintro ⟨hei, hle, lo, hlo, r, ⟨hr, ⟨⟨rfl, hlt⟩, hup⟩⟩, rfl⟩
    exact ⟨hr, rfl, hle, lo, hlo, hlt, hup⟩
  · rintro ⟨hr, he, hle, lo, hlo, hlt, hup⟩
    exact ⟨row.2.height, hle, lo, hlo, row.2, ⟨hr, ⟨rfl, hlt⟩, hup⟩, Prod.ext he.symm rfl⟩

/-- The rows come by their heights. -/
theorem loadRows_sorted :
    (loadRows sql maxHeight maxNrec db).Pairwise fun a b => a.1 ≤ b.1 := by
  have hheight : ∀ hei row, row ∈ ((bounds STEP maxNrec).flatMap fun lo =>
      (db.select sql fun r => decide (r.height = hei) && decide (lo < r.uuid) &&
        decide (r.uuid ≤ lo + STEP)).map (hei, ·)) → row.1 = hei := by
    intro hei row hrow
    obtain ⟨lo, -, hrow⟩ := List.mem_flatMap.mp hrow
    obtain ⟨r, -, rfl⟩ := List.mem_map.mp hrow
    rfl
  refine List.pairwise_flatMap.mpr ⟨fun hei _ => ?_, ?_⟩
  · refine List.pairwise_of_forall_mem_list fun a ha b hb => ?_
    rw [hheight hei a ha, hheight hei b hb]
  · refine List.pairwise_lt_range.imp ?_
    intro i j hij a ha b hb
    rw [hheight i a ha, hheight j b hb]
    exact Nat.le_of_lt hij

theorem loadRows_nodup (hnd : db.atoms.Nodup) : (loadRows sql maxHeight maxNrec db).Nodup := by
  refine List.nodup_flatMap.mpr ⟨fun hei _ => List.nodup_flatMap.mpr ⟨fun lo _ => ?_, ?_⟩, ?_⟩
  · refine List.Nodup.map (fun a b e => congrArg Prod.snd e) ?_
    exact (sql.atomOrder_perm _).nodup_iff.mpr (hnd.filter _)
  · refine List.Pairwise.imp_of_mem ?_ ((List.nodup_range).map fun i j e =>
      Nat.eq_of_mul_eq_mul_left (by decide : 0 < STEP) e)
    intro lo lo' hlo hlo' hne row hrow hrow'
    obtain ⟨r, hr, rfl⟩ := List.mem_map.mp hrow
    obtain ⟨r', hr', e⟩ := List.mem_map.mp hrow'
    obtain rfl := congrArg Prod.snd e
    have hin := (Database.mem_select.mp hr).2
    have hin' := (Database.mem_select.mp hr').2
    simp only [Bool.and_eq_true, decide_eq_true_eq] at hin hin'
    exact hne (bound_unique hlo hlo' ⟨hin.1.2, hin.2⟩ ⟨hin'.1.2, hin'.2⟩)
  · refine List.nodup_range.imp ?_
    intro i j hne row hrow hrow'
    obtain ⟨lo, -, hrow⟩ := List.mem_flatMap.mp hrow
    obtain ⟨lo', -, hrow'⟩ := List.mem_flatMap.mp hrow'
    obtain ⟨r, -, rfl⟩ := List.mem_map.mp hrow
    obtain ⟨r', -, e⟩ := List.mem_map.mp hrow'
    exact hne (congrArg Prod.fst e).symm

end Order

/-- The handles of the rows in the order in which `load` adds their atoms. -/
def addedHandles (sql : Sql E) (db : Database E) : List Handle :=
  (loadRows sql db.maxHeight db.maxUuid db).map fun row => uuidOf row.2

section Added
variable {types : CurrentTypes cs} {codec : TruthCodec TV E} {sql : Sql E} {db : Database E}
  {row : Nat × Row E} {r : Row E}

theorem StoredAs.mem_atoms (hd : StoredAs types codec s db) :
    r ∈ db.atoms ↔ ∃ h ∈ s.atomSet, rowOf codec s h = some r := by
  rw [hd.atoms.mem_iff, List.mem_filterMap]

/-- The handle of an atom is printed and read back. -/
theorem StoredAs.uuidOf_row (hd : StoredAs types codec s db) (ht : Tabled cs s)
    (hbrk : s.brkUuid ≤ 2 ^ 64) (hr : r ∈ db.atoms) :
    uuidOf r = r.uuid ∧ r.uuid ∈ s.atomSet ∧ rowOf codec s r.uuid = some r := by
  obtain ⟨h, hm, hrow⟩ := hd.mem_atoms.mp hr
  obtain rfl := uuid_of_rowOf hrow
  have hlt : r.uuid < 2 ^ 64 := Nat.lt_of_lt_of_le (ht.given _ hm).2 hbrk
  refine ⟨?_, hm, hrow⟩
  rw [uuidOf, ← List.append_nil (Nat.toDigits 10 r.uuid)]
  exact strtoul_toDigits hlt (by simp)

theorem StoredAs.mem_loadRows (hd : StoredAs types codec s db) (ht : Tabled cs s) :
    row ∈ loadRows sql db.maxHeight db.maxUuid db ↔
      row.2 ∈ db.atoms ∧ row.1 = heightOf s row.2.uuid := by
  have hrow : row.2 ∈ db.atoms → row.2.height = heightOf s row.2.uuid ∧ 0 < row.2.uuid := by
    intro hr
    obtain ⟨h, hm, hrow⟩ := hd.mem_atoms.mp hr
    obtain rfl := uuid_of_rowOf hrow
    exact ⟨(ht.rowOf_spec hm hrow).1, (ht.given _ hm).1⟩
  rw [AtomStorage.mem_loadRows]
  constructor
  · rintro ⟨hr, he, -⟩
    exact ⟨hr, he.trans (hrow hr).1⟩
  · rintro ⟨hr, he⟩
    exact ⟨hr, he.trans (hrow hr).1.symm, hd.height _ hr,
      exists_bound (hrow hr).2 (hd.uuid _ hr) (by decide)⟩

theorem StoredAs.addedHandles_nodup (hd : StoredAs types codec s db) (ht : Tabled cs s)
    (hbrk : s.brkUuid ≤ 2 ^ 64) : (addedHandles sql db).Nodup := by
  have hatoms : db.atoms.Nodup := hd.atoms.nodup_iff.mpr
    (ht.nodup.filterMap fun g h r hg hh => (uuid_of_rowOf hg).symm.trans (uuid_of_rowOf hh))
  refine (List.nodup_map_iff_inj_on (loadRows_nodup hatoms)).mpr fun a ha b hb e => ?_
  obtain ⟨har, hah⟩ := (hd.mem_loadRows ht).mp ha
  obtain ⟨hbr, hbh⟩ := (hd.mem_loadRows ht).mp hb
  obtain ⟨hau, -, hrow⟩ := hd.uuidOf_row ht hbrk har
  obtain ⟨hbu, -, hrow'⟩ := hd.uuidOf_row ht hbrk hbr
  have huuid : a.2.uuid = b.2.uuid := hau.symm.trans (e.trans hbu)
  have hsame : a.2 = b.2 := by
    rw [huuid, hrow'] at hrow
    exact (Option.some.inj hrow).symm
  exact Prod.ext (by rw [hah, hbh, huuid]) hsame

/-- Where all atoms have rows, the rows of the members of a link come before its own. -/
theorem StoredAs.members_first (hd : StoredAs types codec s db) (ht : Tabled cs s)
    (hbrk : s.brkUuid ≤ 2 ^ 64) (hrows : ∀ h ∈ s.atomSet, rowOf codec s h ≠ none)
    {pre post : List (Nat × Row E)}
    (hsplit : loadRows sql db.maxHeight db.maxUuid db = pre ++ row :: post) :
    ∀ x ∈ s.targetsOf (uuidOf row.2), x ∈ pre.map fun row => uuidOf row.2 := by
  intro x hx
  have hrow : row ∈ loadRows sql db.maxHeight db.maxUuid db := by
    rw [hsplit]
    simp
  obtain ⟨hr, hh⟩ := (hd.mem_loadRows ht).mp hrow
  obtain ⟨hu, hm, -⟩ := hd.uuidOf_row ht hbrk hr
  rw [hu] at hx
  obtain ⟨t, b, hk, -⟩ := ht.live _ hm
  have hxo : x ∈ s.outgoing row.2.uuid :=
    mem_outgoing_of_target hk (targetsOf_of_key hk ▸ hx)
  have hxm := (ht.members _ hm x hxo).1
  have hlt := ht.heightOf_lt hm hx
  obtain ⟨rx, hrx⟩ := Option.ne_none_iff_exists'.mp (hrows x hxm)
  have hux := uuid_of_rowOf hrx
  have hdb : rx ∈ db.atoms := hd.mem_atoms.mpr ⟨x, hxm, hrx⟩
  have hin : (heightOf s x, rx) ∈ loadRows sql db.maxHeight db.maxUuid db :=
    (hd.mem_loadRows ht).mpr ⟨hdb, by rw [hux]⟩
  have hsorted := @loadRows_sorted _ sql db db.maxHeight db.maxUuid
  rw [hsplit] at hin hsorted
  rcases List.mem_append.mp hin with hpre | hlate
  · exact List.mem_map.mpr ⟨_, hpre, (hd.uuidOf_row ht hbrk hdb).1.trans hux⟩
  · -- a row from here on is at least as high as the link
    have hle : row.1 ≤ heightOf s x := by
      rcases List.mem_cons.mp hlate with e | hpost
      · rw [← e]
      · exact (List.pairwise_cons.mp (List.pairwise_append.mp hsorted).2.1).1 _ hpost
    rw [hh] at hle
    exact absurd hlt (Nat.not_lt.mpr hle)

end Added

end AtomStorage

end OpenCog
