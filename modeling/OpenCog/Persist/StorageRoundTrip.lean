import OpenCog.Persist.RoundTrip
import OpenCog.Persist.StoredRows

/-! Storing a table and loading it again: exactly the tables whose links have members, and whose
names and outgoing sets fit into the buffers and the quotes, come back. -/
namespace OpenCog

variable {TV E : Type}

namespace AtomStorage
open AtomTable Lines

variable {cs : ClassServer} {s t : AtomTable TV} {h : Handle} {ps : List Handle}

/-- What the columns of a row and their buffers carry without loss. -/
def Fits : Body → Prop
  | .node name => name.toList.length < DEFAULT_VARCHAR_SIZE ∧
      ¬ DOLLAR_TAG <:+: name.toList ++ DOLLAR_TAG.dropLast
  | .link o => o ≠ [] ∧ (arrayText o).length < DEFAULT_VARCHAR_SIZE

/-- The other table has the atoms of the table under their handles, and each was added after the
members it has. -/
structure RoundTrip (s t : AtomTable TV) (added : List Handle) : Prop where
  atomSet : ∀ h, h ∈ t.atomSet ↔ h ∈ s.atomSet
  key : ∀ h ∈ s.atomSet, t.key h = s.key h
  ordered : ∀ pre h post, added = pre ++ h :: post → ∀ x ∈ s.outgoing h, x ∈ pre

/-! ## What `add` does to records -/

theorem merge_frame (ops : TruthOps TV) (s : AtomTable TV) (h : Handle) (tv : TV) :
    (s.merge ops h tv).key = s.key ∧ (s.merge ops h tv).typeIndex = s.typeIndex := by
  unfold AtomTable.merge
  split
  · exact ⟨key_modify s h (fun _ => rfl) (fun _ => rfl), rfl⟩
  · exact ⟨rfl, rfl⟩

/-- No record is made, and no handle but that of the atom is filed. -/
theorem addKnown_frame (ops : TruthOps TV) (s : AtomTable TV) (h : Handle) (direct : Bool) :
    (∀ g k, (s.addKnown ops h direct).1.key g = some k → s.key g = some k) ∧
      ∀ c, ∀ g ∈ (s.addKnown ops h direct).1.typeIndex c, g ∈ s.typeIndex c ∨ g = h := by
  have hself : (∀ g k, s.key g = some k → s.key g = some k) ∧
      ∀ c, ∀ g ∈ s.typeIndex c, g ∈ s.typeIndex c ∨ g = h :=
    ⟨fun _ _ hk => hk, fun _ _ hg => .inl hg⟩
  unfold addKnown
  cases ha : s.handleMap h with
  | none => exact hself
  | some a =>
    simp only
    split
    · exact hself
    · cases hfound : s.getHandle a with
      | some g =>
        obtain ⟨hkey, hindex⟩ := merge_frame ops s g a.truthValue
        refine ⟨fun x k hk => ?_, fun c x hx => .inl (hindex ▸ hx)⟩
        have hne : x ≠ h := by
          rintro rfl
          simp [key] at hk
        rw [← hkey, ← hk]
        simp [key, hne]
      | none =>
        simp only
        generalize (if s.holdsEqual a = true then s.atomSet else h :: s.atomSet) = set
        split
        · set s₁ : AtomTable TV := insertHandle { s with size := s.size + 1, atomSet := set } h a
            with hs₁
          have same := (enter_incoming s₁ h a.body.targets direct).1
          have same' : SameKeys s₁ _ := same.toSameKeys.trans (sameKeys_modify _ h
            (f := fun a => { a with inTable := true }) (fun _ => rfl) fun _ => rfl)
          refine ⟨fun x k hk => ?_, fun c x hx => ?_⟩
          · rw [same'.key] at hk
            exact hk
          · rw [same'.typeIndex] at hx
            exact (Index.mem_insertAt.mp hx).imp_right And.right
        · exact hself

/-! ## A table that is loaded -/

/-- The atoms `ps` have been loaded. -/
structure Rebuilt (s t : AtomTable TV) (ps : List Handle) : Prop where
  waiting : Waiting t []
  brk : ∀ h ∈ s.atomSet, h < t.brkUuid
  within : ∀ h ∈ ps, h ∈ s.atomSet
  key : ∀ h, t.key h = if h ∈ ps then s.key h else none
  atomSet : ∀ h, h ∈ t.atomSet ↔ h ∈ ps
  filed : ∀ c, ∀ h ∈ t.typeIndex c, h ∈ ps
  lookup : ∀ k, t.lookup k ≠ none → ∃ h ∈ ps, (s.key h).map fileKey = some k

theorem Rebuilt.empty {b : Handle} (hb : ∀ h ∈ s.atomSet, h < b) :
    Rebuilt s { (AtomTable.empty : AtomTable TV) with brkUuid := b } [] := by
  refine ⟨⟨List.nodup_nil, rfl, fun _ _ => rfl, ?_, ?_, ?_, ?_, ?_, ?_, List.Pairwise.nil⟩, hb, ?_,
    fun _ => rfl, fun _ => Iff.rfl, fun _ _ hh => hh, ?_⟩
  · intro h hh
    cases hh
  · intro h hh
    exact absurd rfl hh
  · rintro l (hl | hl)
    · cases hl
    · cases hl
  · intro h hh
    cases hh
  · intro h hh
    cases hh
  · intro h hh
    cases hh
  · intro h hh
    cases hh
  · rintro ⟨u, b⟩ hk
    cases b with
    | node name => exact absurd rfl hk
    | link o => exact absurd rfl hk

theorem Rebuilt.isStored (hr : Rebuilt s t ps) (g : Handle) : t.isStored g = true ↔ g ∈ ps := by
  constructor
  · intro hst
    rw [isStored_eq] at hst
    cases hk : t.key g with
    | none =>
      rw [hk] at hst
      cases hst
    | some k =>
      rw [hk, Option.map_some, Option.getD_some, decide_eq_true_eq] at hst
      exact hr.filed _ g hst
  · exact fun hg => hr.waiting.filed g ((hr.atomSet g).mpr hg)

theorem Tabled.fileKey_eq (ht : Tabled cs s) (hm : h ∈ s.atomSet) {k : TypeCode × Body}
    (hk : s.key h = some k) : fileKey k = k := by
  obtain ⟨u, b⟩ := k
  cases b with
  | node name =>
    unfold fileKey
    simp only [cStr_of_noNul (ht.named h hm u name hk)]
  | link o => rfl

theorem length_lt_of_fits {o : List Handle} (ho : ∀ x ∈ o, x < 2 ^ 64) (hf : Fits (.link o)) :
    o.length < 65536 := by
  have hlen := (mem_of_readOutlist (readOutlist_arrayText hf.1 ho)).2
  have hsize : DEFAULT_VARCHAR_SIZE < 65536 := by decide
  exact Nat.lt_trans hlen (Nat.lt_trans hf.2 hsize)

/-- Everything in the table fits. -/
structure Storable (cs : ClassServer) (s : AtomTable TV) : Prop extends Tabled cs s where
  addressed : s.brkUuid ≤ 2 ^ 64
  fits : ∀ h ∈ s.atomSet, ∀ t b, s.key h = some (t, b) → Fits b

theorem Storable.length_lt (hs : Storable cs s) (hm : h ∈ s.atomSet) {u : TypeCode} {b : Body}
    (hk : s.key h = some (u, b)) : b.outgoing.length < 65536 := by
  cases b with
  | node name => exact Nat.zero_lt_succ _
  | link o =>
    refine length_lt_of_fits (fun x hx => ?_) (hs.fits h hm u _ hk)
    have hxm := (hs.members h hm x (by rw [outgoing_of_key hk]; exact hx)).1
    exact Nat.lt_of_lt_of_le (hs.given x hxm).2 hs.addressed

/-- Atoms that the hash set takes for equal are the same. -/
theorem Storable.eq_of_alike (hs : Storable cs s) {g : Handle} (hg : g ∈ s.atomSet)
    (hm : h ∈ s.atomSet) (hal : s.alike g h = true) : g = h := by
  obtain ⟨u, b, c, hb, hc, hsame⟩ := alike_iff.mp hal
  have hbody : b = c := by
    cases b with
    | node n =>
      cases c with
      | link p => cases hsame
      | node m =>
        simp only [Body.sameAs, beq_iff_eq] at hsame
        rw [hsame]
    | link o =>
      cases c with
      | node m => cases hsame
      | link p =>
        have hso := hs.length_lt hg hb
        have hsp := hs.length_lt hm hc
        simp only [Body.sameAs, Bool.and_eq_true, beq_iff_eq, Body.targets_of_lt hso,
          Body.targets_of_lt hsp] at hsame
        exact congrArg Body.link hsame.2
  exact hs.unique g hg h hm (by rw [hb, hc, hbody])

section Step
variable {a : Atom TV} {ops : TruthOps TV}

def withRecord (t : AtomTable TV) (h : Handle) (a : Atom TV) : AtomTable TV :=
  { t with handleMap := Function.update t.handleMap h (some a) }

theorem withRecord_key (t : AtomTable TV) (h : Handle) (a : Atom TV) (g : Handle) :
    (withRecord t h a).key g = if g = h then some (a.type, a.body) else t.key g := by
  unfold withRecord key
  by_cases e : g = h
  · simp [e]
  · simp [e]

/-- The new record waits to be added. -/
theorem Rebuilt.register (hs : Storable cs s) (hr : Rebuilt s t ps) (hm : h ∈ s.atomSet)
    (hn : h ∉ ps) (hmem : ∀ x ∈ s.outgoing h, x ∈ ps) (hk : s.key h = some (a.type, a.body))
    (hin : a.inTable = false) : Waiting (withRecord t h a) [h] := by
  have hself : (withRecord t h a).handleMap h = some a := Function.update_self _ _ _
  have hother : ∀ g, g ≠ h → (withRecord t h a).handleMap g = t.handleMap g :=
    fun g e => Function.update_of_ne e _ _
  have hrecord : ∀ x ∈ ps, t.handleMap x ≠ none := by
    intro x hx
    obtain ⟨u, b, hb, -⟩ := hs.live x (hr.within x hx)
    rw [handleMap_ne_none, hr.key, if_pos hx, hb]
    exact Option.some_ne_none _
  have hkept : ∀ x, t.handleMap x ≠ none → (withRecord t h a).handleMap x ≠ none := by
    intro x hx
    by_cases e : x = h
    · rw [e, hself]
      exact Option.some_ne_none a
    · rwa [hother x e]
  have hstored : ∀ g, (withRecord t h a).isStored g = true ↔ g ∈ ps := by
    intro g
    by_cases e : g = h
    · subst e
      refine iff_of_false (fun hst => ?_) hn
      rw [isStored_eq, withRecord_key, if_pos rfl, Option.map_some, Option.getD_some,
        decide_eq_true_eq] at hst
      exact hn (hr.filed _ g hst)
    · rw [← hr.isStored g, isStored_eq, isStored_eq, withRecord_key, if_neg e]
      rfl
  have hbrk : h < t.brkUuid := hr.brk h hm
  have hout : (withRecord t h a).outgoing h = s.outgoing h := by
    rw [outgoing_eq, withRecord_key, if_pos rfl, outgoing_eq, hk]
  refine ⟨List.nodup_singleton h, hr.waiting.orphans, ?_, ?_, ?_, ?_, ?_, ?_, ?_,
    List.pairwise_singleton _ h⟩
  · intro g hg
    have e : g ≠ h := by
      rintro rfl
      exact absurd hbrk (Nat.not_lt.mpr hg)
    rw [hother g e]
    exact hr.waiting.fresh g hg
  · intro g hg
    exact (hstored g).mpr ((hr.atomSet g).mp hg)
  · intro g hsome hmark
    by_cases e : g = h
    · exact .inr (List.mem_singleton.mpr e)
    · rw [hother g e] at hsome
      have hmark' : t.marked g = false := by
        rw [← hmark, marked, marked, hother g e]
      rcases hr.waiting.unmarked g hsome hmark' with hst | hnil
      · exact .inl ((hstored g).mpr ((hr.isStored g).mp hst))
      · exact absurd hnil List.not_mem_nil
  · intro l hl x hx
    by_cases e : l = h
    · subst e
      have hxo : x ∈ s.outgoing l := by
        rw [targetsOf_of_key ((withRecord_key t l a l).trans (if_pos rfl))] at hx
        exact mem_outgoing_of_target hk hx
      exact ⟨(hs.members l hm x hxo).2, hkept x (hrecord x (hmem x hxo))⟩
    · have hst : t.isStored l = true := by
        rcases hl with hl | hl
        · exact (hr.isStored l).mpr ((hstored l).mp hl)
        · exact absurd (List.mem_singleton.mp hl) e
      rw [targetsOf_eq, withRecord_key, if_neg e, ← targetsOf_eq] at hx
      obtain ⟨hlt, hsome⟩ := hr.waiting.below l (.inl hst) x hx
      exact ⟨hlt, hkept x hsome⟩
  · intro g hg
    obtain rfl := List.mem_singleton.mp hg
    refine ⟨by rw [hself]; exact Option.some_ne_none a, by simp [linked, hself, hin], ?_⟩
    exact Bool.eq_false_iff.mpr fun hst => hn ((hstored g).mp hst)
  · intro l hl x hx
    obtain rfl := List.mem_singleton.mp hl
    rw [hout] at hx
    rw [isValidHandle, Bool.and_eq_true, decide_eq_true_eq, Option.isSome_iff_ne_none]
    exact ⟨hr.brk x (hs.members l hm x hx).1, hkept x (hrecord x (hmem x hx))⟩
  · intro g hg k hkey
    obtain rfl := List.mem_singleton.mp hg
    rw [withRecord_key, if_pos rfl] at hkey
    have hkg : s.key g = some k := hk.trans hkey
    by_contra hsome
    obtain ⟨g', hg', hk'⟩ := hr.lookup (fileKey k) hsome
    obtain ⟨k', hk₁, hk₂⟩ := Option.map_eq_some_iff.mp hk'
    rw [hs.fileKey_eq (hr.within g' hg') hk₁, hs.fileKey_eq hm hkg] at hk₂
    have e := hs.unique g' (hr.within g' hg') g hm (by rw [hk₁, hkg, hk₂])
    exact hn (e ▸ hg')

theorem Rebuilt.add (hs : Storable cs s) (hr : Rebuilt s t ps) (hm : h ∈ s.atomSet)
    (hn : h ∉ ps) (hmem : ∀ x ∈ s.outgoing h, x ∈ ps) (hk : s.key h = some (a.type, a.body))
    (hin : a.inTable = false) :
    ∃ t', (withRecord t h a).addKnown ops h true = (t', some h) ∧ Rebuilt s t' (ps ++ [h]) := by
  have hw := hr.register hs hm hn hmem hk hin
  obtain ⟨t', he, hent⟩ := hw.addKnown ops true
  have hkey : ∀ g, t'.key g = if g ∈ ps ++ [h] then s.key g else none := by
    intro g
    rw [hent.key, withRecord_key, hr.key]
    by_cases e : g = h
    · simp [e, hk]
    · simp [e]
  refine ⟨t', he, hw.enter hent, ?_, ?_, hkey, ?_, ?_, ?_⟩
  · intro g hg
    rw [hent.brkUuid]
    exact hr.brk g hg
  · intro g hg
    rcases List.mem_append.mp hg with hg | hg
    · exact hr.within g hg
    · exact List.mem_singleton.mp hg ▸ hm
  · intro g
    have hset : (withRecord t h a).atomSet = t.atomSet := rfl
    rw [hent.atomSet, hset, hr.atomSet, List.mem_append, List.mem_singleton]
    refine or_congr_right ⟨And.left, ?_⟩
    rintro rfl
    refine ⟨rfl, fun k hkin => ?_⟩
    have hkp : k ∈ ps := by simpa [hr.atomSet] using hkin
    refine Bool.eq_false_iff.mpr fun hal => ?_
    have hsame : s.alike k g = true := by
      have hkg : k ≠ g := fun e => hn (e ▸ hkp)
      rw [alike, withRecord_key, withRecord_key, if_neg hkg, if_pos rfl, hr.key, if_pos hkp,
        ← hk] at hal
      exact hal
    exact hn (hs.eq_of_alike (hr.within k hkp) hm hsame ▸ hkp)
  · intro c g hg
    have hframe := (addKnown_frame ops (withRecord t h a) h true).2 c g
    rw [he] at hframe
    rcases hframe hg with hg | rfl
    · exact List.mem_append_left _ (hr.filed c g hg)
    · exact List.mem_append_right _ (List.mem_singleton_self g)
  · intro k hsome
    by_cases e : some k = ((withRecord t h a).key h).map fileKey
    · refine ⟨h, List.mem_append_right _ (List.mem_singleton_self h), ?_⟩
      rw [e, withRecord_key, if_pos rfl, hk]
    · rw [hent.lookup k e] at hsome
      obtain ⟨g, hg, hgk⟩ := hr.lookup k hsome
      exact ⟨g, List.mem_append_left _ hg, hgk⟩

end Step

/-! ## A row that is loaded -/

section Load
variable {types : CurrentTypes cs} {codec : TruthCodec TV E} {ops : TruthOps TV} {sql : Sql E}
  {db : Database E} {r : Row E} {row : Nat × Row E}

theorem cut_arrayText (rp : Response) {o : List Handle} (ho : ∀ x ∈ o, x < 2 ^ 64)
    (hf : Fits (.link o)) : readOutlist (rp.outlistOf (some o)) = some o := by
  have hcut : rp.outlistOf (some o) = arrayText o := cut_of_fits hf.2
  rw [hcut, readOutlist_arrayText hf.1 ho]

/-- From a row and its buffers the atom is made again. -/
theorem Storable.newAtom_of_row (hs : Storable cs s) (hm : h ∈ s.atomSet)
    (hr : rowOf codec s h = some r) {u : TypeCode} {b : Body} (hk : s.key h = some (u, b))
    (rp : Response) : ∃ a, newAtom cs ops u (heightOf s h) (rp.fetch r) = some a ∧ a.type = u ∧
      a.body = b ∧ a.inTable = false := by
  obtain ⟨u', b', hk', hkind⟩ := hs.live h hm
  obtain ⟨rfl, rfl⟩ := Prod.mk.inj (Option.some.inj (hk'.symm.trans hk))
  have hfits := hs.fits h hm _ _ hk
  cases b' with
  | node name =>
    obtain ⟨-, -, n, hn, hname, -⟩ := rowOf_node hk hr
    obtain rfl := Option.some.inj ((readQuoted_of_free hfits.2).symm.trans hn)
    have hbuf : (rp.fetch r).name = name.toList := by
      simp only [Response.fetch, hname, Option.map_some, Option.getD_some]
      exact cut_of_fits hfits.1
    refine ⟨Atom.init ops u' (.node name) ops.defaultTv, ?_, rfl, rfl, rfl⟩
    rw [newAtom, if_pos (.inl (by rw [hs.heightOf_node hm hk]; rfl)), hbuf, String.ofList_toList,
      Atom.newNode]
    exact if_pos hkind
  | link o =>
    obtain ⟨r', hr', -, -, -, hout⟩ := @rowOf_link _ _ _ _ codec _ _ hk
    obtain rfl := Option.some.inj (hr.symm.trans hr')
    have hlen := hs.length_lt hm hk
    have ho : ∀ x ∈ o, x < 2 ^ 64 := by
      intro x hx
      have hxm := (hs.members h hm x (by rw [outgoing_of_key hk]; exact hx)).1
      exact Nat.lt_of_lt_of_le (hs.given x hxm).2 hs.addressed
    have harity : (Body.link o).arity = o.length := Nat.mod_eq_of_lt hlen
    have hpos : o.length ≠ 0 := fun e => hfits.1 (List.length_eq_zero_iff.mp e)
    rw [harity, if_neg hpos, readArray_osetToString, List.take_length] at hout
    have hread : readOutlist (rp.fetch r).outlist = some o := by
      simp only [Response.fetch, hout]
      exact cut_arrayText rp ho hfits
    have hheight : ¬ ((heightOf s h : Int) = 0 ∨
        (heightOf s h : Int) = -1 ∧ cs.isA u' NODE = true) := by
      rw [hs.heightOf_link hm hk]
      omega
    refine ⟨Atom.init ops u' (.link o) ops.defaultTv, ?_, rfl, rfl, rfl⟩
    rw [newAtom, if_neg hheight, hread, Option.bind_eq_bind, Option.bind_some, Atom.newLink,
      hs.normal h hm u' o hk]
    exact if_pos hkind

theorem withRecord_modify (t : AtomTable TV) (h : Handle) (a : Atom TV) (f : Atom TV → Atom TV) :
    (withRecord t h a).modify h f = withRecord t h (f a) := by
  unfold withRecord AtomTable.modify
  congr 1
  funext g
  by_cases e : g = h
  · subst e
    simp
  · simp [e]

/-- A row whose atom is not there yet, while its members are. -/
theorem Rebuilt.loadRow (hs : Storable cs s) (hd : StoredAs types codec s db) {l : Loader TV}
    (hr : Rebuilt s l.table ps) (hknown : ∀ u < cs.nTypes, Known types l.storage.maps u)
    (hrow : row ∈ loadRows sql db.maxHeight db.maxUuid db) (hn : uuidOf row.2 ∉ ps)
    (hmem : ∀ x ∈ s.outgoing (uuidOf row.2), x ∈ ps) :
    ∃ l', loadAllAtomsCb cs codec ops l row = some l' ∧ Rebuilt s l'.table (ps ++ [uuidOf row.2]) ∧
      l'.storage.maps = l.storage.maps := by
  obtain ⟨hatom, hheight⟩ := (hd.mem_loadRows hs.toTabled).mp hrow
  obtain ⟨hu, hm, hrowOf⟩ := hd.uuidOf_row hs.toTabled hs.addressed hatom
  rw [← hu] at hm hrowOf hheight
  set h := uuidOf row.2 with hh
  obtain ⟨u, b, hk, hkind⟩ := hs.live h hm
  have hlt : u < cs.nTypes := cs.isA_lt _ _ hkind
  have htype : l.storage.maps.loadingTypemap (atoi (printInt row.2.type)) = u := by
    rw [atoi_printInt, (hs.rowOf_spec hm hrowOf).2 u b hk, (hknown u hlt).loading]
  have hreal : u ≠ NOTYPE := Nat.ne_of_lt (Nat.lt_of_lt_of_le hlt types.nTypes_le)
  obtain ⟨a, hnew, rfl, rfl, hin⟩ := @Storable.newAtom_of_row _ _ _ _ _ codec ops _ hs
    hm hrowOf _ _ hk l.response
  have hnone : l.table.handleMap h = none := by
    rw [← not_not (a := l.table.handleMap h = none), ← ne_eq, handleMap_ne_none, hr.key, if_neg hn]
    exact fun hne => hne rfl
  obtain ⟨t', hadd, hr'⟩ := @Rebuilt.add _ _ _ _ _ _ { a with truthValue := codec.read row.2.tv } ops
    hs hr hm hn hmem hk hin
  have hmake : makeAtom cs codec ops row.1 row.2 { l with response := l.response.fetch row.2 } =
      some ⟨{ l.storage with localIdCache := h :: l.storage.localIdCache },
        l.response.fetch row.2,
        withRecord l.table h { a with truthValue := codec.read row.2.tv }⟩ := by
    unfold makeAtom
    simp only [← hh, htype, if_neg hreal, hnone, hheight, hnew, Option.bind_eq_bind,
      Option.bind_some]
    exact congrArg some (congrArg (Loader.mk _ _) (withRecord_modify l.table h a _))
  refine ⟨⟨{ l.storage with localIdCache := h :: l.storage.localIdCache },
    l.response.fetch row.2, t'⟩, ?_, hr', rfl⟩
  unfold loadAllAtomsCb
  rw [hmake]
  simp only [Option.bind_eq_bind, Option.bind_some, ← hh, hadd, Option.isSome_some, if_true]

theorem Rebuilt.loadRows (hs : Storable cs s) (hd : StoredAs types codec s db)
    (post : List (Nat × Row E)) {pre : List (Nat × Row E)} {l : Loader TV}
    (hsplit : loadRows sql db.maxHeight db.maxUuid db = pre ++ post)
    (hrows : ∀ h ∈ s.atomSet, rowOf codec s h ≠ none)
    (hr : Rebuilt s l.table (pre.map fun row => uuidOf row.2))
    (hknown : ∀ u < cs.nTypes, Known types l.storage.maps u) :
    ∃ l', post.foldlM (loadAllAtomsCb cs codec ops) l = some l' ∧
      Rebuilt s l'.table (addedHandles sql db) := by
  induction post generalizing pre l with
  | nil =>
    rw [List.append_nil] at hsplit
    exact ⟨l, rfl, by rw [addedHandles, hsplit]; exact hr⟩
  | cons row post ih =>
    have hrow : row ∈ AtomStorage.loadRows sql db.maxHeight db.maxUuid db := by
      rw [hsplit]
      simp
    obtain ⟨hu, hm, -⟩ := hd.uuidOf_row hs.toTabled hs.addressed
      ((hd.mem_loadRows hs.toTabled).mp hrow).1
    rw [← hu] at hm
    have hn : uuidOf row.2 ∉ pre.map fun row => uuidOf row.2 := by
      have hnd := @StoredAs.addedHandles_nodup _ _ _ _ types codec sql db hd hs.toTabled hs.addressed
      rw [addedHandles, hsplit, List.map_append, List.map_cons, List.nodup_append] at hnd
      exact fun hpre => hnd.2.2 _ hpre _ List.mem_cons_self rfl
    have hmem : ∀ x ∈ s.outgoing (uuidOf row.2), x ∈ pre.map fun row => uuidOf row.2 := by
      intro x hx
      obtain ⟨u, b, hk, -⟩ := hs.live _ hm
      refine hd.members_first hs.toTabled hs.addressed hrows hsplit x ?_
      rw [targetsOf_of_key hk, Body.targets_of_lt (hs.length_lt hm hk), ← outgoing_of_key hk]
      exact hx
    obtain ⟨l₁, h₁, hr₁, hmaps⟩ := @Rebuilt.loadRow _ _ _ _ _ types codec ops
      sql db row hs hd l hr hknown hrow hn hmem
    obtain ⟨l', h', hr'⟩ := @ih (pre ++ [row]) l₁ (by rw [hsplit, List.append_assoc]; rfl)
      (by rw [List.map_append]; exact hr₁) (by rw [hmaps]; exact hknown)
    refine ⟨l', ?_, hr'⟩
    rw [List.foldlM_cons, h₁]
    exact h'

/-- Each record was made from its row and the buffers at that time. -/
def Made (cs : ClassServer) (ops : TruthOps TV) (sql : Sql E) (db : Database E)
    (t : AtomTable TV) : Prop :=
  ∀ h k, t.key h = some k → ∃ row ∈ AtomStorage.loadRows sql db.maxHeight db.maxUuid db,
    uuidOf row.2 = h ∧ ∃ u rp a, newAtom cs ops u row.1 (Response.fetch rp row.2) = some a ∧
      k = (a.type, a.body)

theorem key_setTruthValue (t : AtomTable TV) (h : Handle) (tv : TV) (g : Handle) :
    (t.modify h fun a => { a with truthValue := tv }).key g = t.key g :=
  congrFun (key_modify t h (f := fun a => { a with truthValue := tv }) (fun _ => rfl)
    fun _ => rfl) g

theorem Made.loadRow {l l' : Loader TV} (hmade : Made cs ops sql db l.table)
    (hrow : row ∈ AtomStorage.loadRows sql db.maxHeight db.maxUuid db)
    (hstep : loadAllAtomsCb cs codec ops l row = some l') : Made cs ops sql db l'.table := by
  obtain ⟨l₁, h₁, hstep⟩ := Option.bind_eq_some_iff.mp hstep
  have hl' : l'.table = (l₁.table.addKnown ops (uuidOf row.2) true).1 := by
    simp only at hstep
    split at hstep
    · obtain rfl := Option.some.inj hstep
      rfl
    · cases hstep
  have hmade₁ : Made cs ops sql db l₁.table := by
    unfold makeAtom at h₁
    simp only at h₁
    split at h₁
    · cases h₁
    · intro h k hk
      cases hold : l.table.handleMap (uuidOf row.2) with
      | some a =>
        rw [hold] at h₁
        obtain rfl := Option.some.inj h₁
        exact hmade h k ((key_setTruthValue l.table _ _ h).symm.trans hk)
      | none =>
        rw [hold] at h₁
        obtain ⟨a, hnew, h₁⟩ := Option.bind_eq_some_iff.mp h₁
        obtain rfl := Option.some.inj h₁
        have hk' := (key_setTruthValue (withRecord l.table (uuidOf row.2) a) _ _ h).symm.trans hk
        rw [withRecord_key] at hk'
        by_cases e : h = uuidOf row.2
        · rw [if_pos e] at hk'
          exact ⟨row, hrow, e.symm, _, _, a, hnew, (Option.some.inj hk').symm⟩
        · rw [if_neg e] at hk'
          exact hmade h k hk'
  intro h k hk
  rw [hl'] at hk
  exact hmade₁ h k ((addKnown_frame ops l₁.table (uuidOf row.2) true).1 h k hk)

/-- An atom that comes back fits. -/
theorem Made.fits (ht : Tabled cs s) (hbrk : s.brkUuid ≤ 2 ^ 64) (hd : StoredAs types codec s db)
    (hmade : Made cs ops sql db t) (hm : h ∈ s.atomSet) {u : TypeCode} {b : Body}
    (hk : s.key h = some (u, b)) (hback : t.key h = s.key h) : Fits b := by
  obtain ⟨row, hrow, rfl, u', rp, a, hnew, hka⟩ := hmade h (u, b) (hback.trans hk)
  obtain ⟨rfl, rfl⟩ := Prod.mk.inj hka
  obtain ⟨hatom, hheight⟩ := (hd.mem_loadRows ht).mp hrow
  obtain ⟨hu, -, hr⟩ := hd.uuidOf_row ht hbrk hatom
  rw [← hu] at hr hheight
  cases hb : a.body with
  | node name =>
    rw [hb] at hk
    obtain ⟨-, -, n, hn, hname, -⟩ := rowOf_node hk hr
    rw [newAtom, if_pos (.inl (by rw [hheight, ht.heightOf_node hm hk]; rfl)), Atom.newNode] at hnew
    split at hnew
    · obtain rfl := Option.some.inj hnew
      have hbuf : (rp.fetch row.2).name = cut n := by
        simp only [Response.fetch, hname, Option.map_some, Option.getD_some]
      have hcut : name.toList = cut n := by
        have hbody := Body.node.inj hb
        rw [← hbody, String.toList_ofList, hbuf]
      have hle : name.toList.length ≤ n.length := by
        rw [hcut]
        exact List.length_take_le' _ _
      have hfree := readQuoted_eq_some hn hle
      obtain rfl := Option.some.inj ((readQuoted_of_free hfree).symm.trans hn)
      exact ⟨fits_of_cut_eq hcut.symm, hfree⟩
    · cases hnew
  | link o =>
    rw [hb] at hk
    obtain ⟨r, hr', -, -, -, hout⟩ := @rowOf_link _ _ _ _ codec _ _ hk
    obtain rfl := Option.some.inj (hr.symm.trans hr')
    have hneg : ¬ ((row.1 : Int) = 0 ∨ (row.1 : Int) = -1 ∧ cs.isA u' NODE = true) := by
      rw [hheight, ht.heightOf_link hm hk]
      omega
    rw [newAtom, if_neg hneg] at hnew
    obtain ⟨outvec, hread, hnew⟩ := Option.bind_eq_some_iff.mp hnew
    rw [Atom.newLink] at hnew
    split at hnew
    · obtain rfl := Option.some.inj hnew
      have ho : Atom.setOutgoingSet cs u' outvec = o := Body.link.inj hb
      have hlen : o.length = outvec.length := by
        rw [← ho, Atom.length_setOutgoingSet]
      have hshort : o.length < DEFAULT_VARCHAR_SIZE := by
        rw [hlen]
        exact Nat.lt_trans (mem_of_readOutlist hread).2 (rp.fetch row.2).short
      have hsize : DEFAULT_VARCHAR_SIZE < 65536 := by decide
      have harity : (Body.link o).arity = o.length :=
        Nat.mod_eq_of_lt (Nat.lt_trans hshort hsize)
      by_cases hempty : o = []
      · -- the buffer does not begin with the end of an array
        rw [hempty] at hlen
        obtain rfl := List.length_eq_zero_iff.mp hlen.symm
        exact absurd (readOutlist_eq_nil hread) (rp.fetch row.2).opened
      · have hpos : o.length ≠ 0 := fun e => hempty (List.length_eq_zero_iff.mp e)
        rw [harity, if_neg hpos, readArray_osetToString, List.take_length] at hout
        have hbuf : (rp.fetch row.2).outlist = cut (arrayText o) := by
          simp only [Response.fetch, hout]
          rfl
        rw [hbuf] at hread
        exact ⟨hempty, fits_of_mem_cut (mem_of_readOutlist hread).1⟩
    · cases hnew

theorem Made.loadRows (rows : List (Nat × Row E)) {l l' : Loader TV}
    (hrows : ∀ row ∈ rows, row ∈ AtomStorage.loadRows sql db.maxHeight db.maxUuid db)
    (hmade : Made cs ops sql db l.table)
    (hrun : rows.foldlM (loadAllAtomsCb cs codec ops) l = some l') : Made cs ops sql db l'.table := by
  induction rows generalizing l with
  | nil =>
    obtain rfl := Option.some.inj hrun
    exact hmade
  | cons row rows ih =>
    rw [List.foldlM_cons] at hrun
    obtain ⟨l₁, h₁, hrun⟩ := Option.bind_eq_some_iff.mp hrun
    exact ih (fun r hr => hrows r (List.mem_cons_of_mem row hr))
      (hmade.loadRow (hrows row List.mem_cons_self) h₁) hrun

end Load

/-! ## Tables that runs reach -/

/-- Handles are given out from 1 on, and records have no others. -/
def Given (s : AtomTable TV) : Prop := 0 < s.brkUuid ∧ ∀ g k, s.key g = some k → 0 < g

section Runs
variable {ops : TruthOps TV} {s' : AtomTable TV}

theorem Given.thinned (hs : Given s) (e : Thinned s s') : Given s' := by
  refine ⟨e.brkUuid ▸ hs.1, fun g k hk => ?_⟩
  rw [e.key] at hk
  exact hs.2 g k hk

theorem Given.deleteAtom (hs : Given s) (he : s.deleteAtom h = some s') : Given s' := by
  unfold AtomTable.deleteAtom at he
  cases ha : s.handleMap h with
  | none => simp [ha] at he
  | some a =>
    simp only [ha] at he
    split at he
    · obtain rfl := Option.some.inj he
      refine ⟨hs.1, fun g k hg => ?_⟩
      have e : g ≠ h := fun e => by simp [key, e] at hg
      exact hs.2 g k (by simpa [key, e] using hg)
    · cases he

theorem Given.deleteAll (hs : Given s) (xs : List Handle)
    (he : xs.foldlM AtomTable.deleteAtom s = some s') : Given s' :=
  Fold.foldlM_keeps Given (fun _ _ _ ht hstep => ht.deleteAtom hstep) xs hs he

theorem Given.addNew (hs : Given s) {a : Option (Atom TV)} (he : s.addNew ops a = some s') :
    Given s' := by
  obtain ⟨x, -, he⟩ := Option.bind_eq_some_iff.mp he
  simp only at he
  split at he
  · obtain rfl := Option.some.inj he
    obtain ⟨-, -, -, hthin, -⟩ | ⟨-, -, hthin⟩ | ⟨-, -, hbrk, hkey, -⟩ := add_cases ops s x
    · exact hs.thinned hthin
    · exact hs.thinned hthin
    · refine ⟨by rw [hbrk]; exact Nat.succ_pos _, fun g k hk => ?_⟩
      rw [hkey] at hk
      split at hk
      · next e => exact e ▸ hs.1
      · exact hs.2 g k hk
  · cases he

end Runs

/-! ## The round trip -/

/-- Storing into an empty database, and loading from it in another process. -/
def RoundTrips (types : CurrentTypes cs) (codec : TruthCodec TV E) (ops : TruthOps TV)
    (sql : Sql E) (order : List Handle → List Handle) (rp : Response) (s : AtomTable TV) : Prop :=
  ∃ st db l, store types codec sql order s Storage.opened Database.created = some (st, db) ∧
    load codec ops sql types Storage.opened db rp empty = some l ∧
    RoundTrip s l.table (addedHandles sql db)

end AtomStorage

end OpenCog
