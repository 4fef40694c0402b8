import OpenCog.AtomSpace.Funds
import OpenCog.Time.TimeServer
import OpenCog.Time.TemporalRuns

/-! The time server against the atoms. Its pairs are those of the stored AtTimeLinks as
long as no removal takes one of two AtTimeLinks of the same atom and time. -/
namespace OpenCog

variable {TV : Type}

namespace Temporal

/-! ## Names -/

theorem init_eq (t : Temporal) : init t.a t.b t.normal = some t :=
  dif_pos ⟨t.a_lt, t.b_lt, t.sane⟩

theorem digits_ne_colon (n : Nat) : ∀ c ∈ Nat.toDigits 10 n, decide (c ≠ ':') = true := by
  intro c hc
  have := Lines.isDigit_of_mem hc
  refine decide_eq_true ?_
  rintro rfl
  exact absurd this (by decide)

theorem nextToken_digits (n : Nat) (rest : List Char) :
    nextToken (Nat.toDigits 10 n ++ ':' :: rest) = some rest := by
  rw [nextToken, List.dropWhile_append_of_pos (digits_ne_colon n)]
  rfl

theorem nextToken_none (n : Nat) : nextToken (Nat.toDigits 10 n) = none := by
  rw [nextToken, List.dropWhile_eq_nil_iff.mpr (digits_ne_colon n)]

theorem strtoul_digits {n : Nat} (hn : n < ULONG_SIZE) : Lines.strtoul (Nat.toDigits 10 n) = n := by
  have := Lines.strtoul_toDigits (t := []) hn (by simp)
  rwa [List.append_nil] at this

/-- The name of a time is read as that time. -/
theorem getFromTimeNodeName_getTimeNodeName (t : Temporal) :
    getFromTimeNodeName t.getTimeNodeName = some t := by
  have ha : ∀ rest, Lines.strtoul (Nat.toDigits 10 t.a ++ ':' :: rest) = t.a := fun rest =>
    Lines.strtoul_toDigits t.a_lt (by simp)
  have hb : ∀ rest, Lines.strtoul (Nat.toDigits 10 t.b ++ ':' :: rest) = t.b := fun rest =>
    Lines.strtoul_toDigits t.b_lt (by simp)
  have h := t.init_eq
  unfold getTimeNodeName
  by_cases hn : t.normal = true
  · have hone : Lines.strtol ['1'] = 1 := by decide
    rw [hn] at h
    rw [if_pos hn, getFromTimeNodeName, ha, nextToken_digits]
    simp only [hb, nextToken_digits, hone]
    exact h
  · rw [Bool.not_eq_true] at hn
    rw [hn] at h
    rw [if_neg (by simp [hn])]
    by_cases he : t.a = t.b
    · rw [if_pos he, getFromTimeNodeName, strtoul_digits t.a_lt, nextToken_none]
      simpa only [he] using h
    · rw [if_neg he, getFromTimeNodeName, ha, nextToken_digits]
      simpa only [strtoul_digits t.b_lt, nextToken_none] using h

end Temporal

namespace TemporalTable

/-! ## One pair in, one pair out -/

/-- A table in which lists, sets and tails are one relation. -/
structure Sound (s : TemporalTable) : Prop where
  times : TimesOk s
  lists : ListsOk s
  paired : Paired s
  tails : ∀ h, TailOk (s.handleMap h) (s.tailHandleMap h)

theorem sound_empty : Sound empty :=
  ⟨timesOk_empty, listsOk_empty, fun _ _ ⟨_, hm, _⟩ => absurd hm List.not_mem_nil,
    fun _ _ hc => by cases hc⟩

variable {s : TemporalTable}

/-- The pair that comes in has the time under the key that is there already. -/
theorem Sound.add_returns (hs : Sound s) (h : Handle) (t : Temporal) :
    ∃ s', s.add h (some t) = some s' ∧ Sound s' ∧
      ∀ g u, s'.InMap g u ↔ s.InMap g u ∨ g = h ∧ u = s.internalKey t := by
  obtain ⟨s', he, ok', ha⟩ := hs.times.add h t
  obtain ⟨hpaired, htails⟩ := ha.paired ok' hs.lists hs.paired hs.tails
  exact ⟨s', he, ⟨ok', ha.listsOk hs.lists, hpaired, htails⟩, fun g u => ha.inMap g u⟩

theorem Sound.add (hs : Sound s) {h : Handle} {t : Temporal}
    (hkey : ∀ g u, s.InMap g u → u.rank = t.rank → u = t) :
    ∃ s', s.add h (some t) = some s' ∧ Sound s' ∧
      ∀ g u, s'.InMap g u ↔ s.InMap g u ∨ g = h ∧ u = t := by
  have ht : s.internalKey t = t := by
    unfold internalKey
    cases hl : s.lookup t with
    | none => rfl
    | some e =>
      obtain ⟨hmem, hr⟩ := lookup_mem hl
      obtain ⟨g, hg⟩ := List.exists_mem_of_ne_nil _ (hs.times.sets e hmem).2
      exact hkey g e.1 ⟨e.2, hmem, hg⟩ hr
  simpa only [ht] using hs.add_returns h t

theorem Sound.remove (hs : Sound s) {h : Handle} (hh : h ≠ UNDEFINED) (t : Temporal) :
    ∃ s' result, s.remove h (some t) .EXACT = some (s', result) ∧ Sound s' ∧
      ∀ g u, s'.InMap g u ↔ s.InMap g u ∧ ¬ (g = h ∧ u = t) := by
  have hspares : Spares s (.remove h (some t) .EXACT) := by
    rw [Spares, if_neg hh]
    intro _ hp
    cases hp
  obtain ⟨s₁, h₁, ok', hl', hkeep⟩ := apply_spec hs.times hs.lists (.remove h (some t) .EXACT)
  obtain ⟨hpaired, htails⟩ := hkeep hs.paired hs.tails hspares
  obtain ⟨s', result, he, -, hr, -⟩ := removeHandle_spec hs.times hs.lists h (some t) .EXACT
  have hremove : s.remove h (some t) .EXACT = some (s', result) := by
    rw [TemporalTable.remove, if_neg hh, he]
  obtain rfl : s' = s₁ := by
    rw [apply, hremove] at h₁
    exact Option.some.inj h₁
  refine ⟨s', result, hremove, ⟨ok', hl', hpaired, htails⟩, fun g u => ?_⟩
  have hlist := removeHandle_exact he
  by_cases e : g = h
  · subst e
    rw [hr.own, hlist]
    constructor
    · rintro ⟨hm, hkept⟩
      obtain ⟨c, hc, rfl⟩ := hkept (hs.paired g u hm)
      exact ⟨hm, fun hne => (mem_remove.mp hc).2 hne.2⟩
    · rintro ⟨hm, hne⟩
      refine ⟨hm, ?_⟩
      rintro ⟨c, hc, he⟩
      exact ⟨c, mem_remove.mpr ⟨hc, fun e => hne ⟨rfl, he ▸ e⟩⟩, he⟩
  · rw [hr.others g u e]
    exact ⟨fun hm => ⟨hm, fun h' => e h'.1⟩, And.left⟩

end TemporalTable

/-! ## AtTimeLinks -/

namespace TimeServer
open AtomTable TemporalTable

/-- `l` is an AtTimeLink of `h` at the time `t`. -/
def Times (s : AtomTable TV) (l h : Handle) (t : Temporal) : Prop :=
  ∃ n name, s.key l = some (AT_TIME_LINK, .link [n, h]) ∧ s.key n = some (TIME_NODE, .node name) ∧
    Temporal.getFromTimeNodeName (cStr name).toList = some t

/-- Every AtTimeLink has a TimeNode with a name that can be read, and a timed atom. -/
def WellTimed (s : AtomTable TV) : Prop :=
  ∀ l, s.isStored l = true → s.typeOf l = some AT_TIME_LINK → ∃ h t, Times s l h t

/-- Times of AtTimeLinks that compare equal are equal. -/
def Separate (s : AtomTable TV) : Prop :=
  ∀ ⦃k l g h t u⦄, s.isStored k = true → s.isStored l = true → Times s k g t → Times s l h u →
    t.rank = u.rank → t = u

/-- A removal of `h` takes all AtTimeLinks of an atom and a time, or none. -/
def SparesTwins (s : AtomTable TV) (h : Handle) (recursive : Bool) : Prop :=
  ∀ ⦃k l g t⦄, s.Falls h recursive k → Times s k g t → s.isStored l = true → Times s l g t →
    s.Falls h recursive l

section Links
variable {s s' : AtomTable TV} {l h : Handle} {t : Temporal}

theorem Times.typeOf (ht : Times s l h t) : s.typeOf l = some AT_TIME_LINK := by
  obtain ⟨n, name, hk, -, -⟩ := ht
  rw [typeOf_eq, hk]
  rfl

theorem Times.targetsOf (ht : Times s l h t) : ∃ n, s.targetsOf l = [n, h] := by
  obtain ⟨n, name, hk, -, -⟩ := ht
  exact ⟨n, by rw [targetsOf_eq, hk]; rfl⟩

theorem Times.unique {h' : Handle} {t' : Temporal} (ht : Times s l h t) (ht' : Times s l h' t') :
    h = h' ∧ t = t' := by
  obtain ⟨n, name, hk, hn, hp⟩ := ht
  obtain ⟨n', name', hk', hn', hp'⟩ := ht'
  cases hk.symm.trans hk'
  cases hn.symm.trans hn'
  exact ⟨rfl, Option.some.inj (hp.symm.trans hp')⟩

/-- A link is read from its own record and those of its targets. -/
theorem Times.congr (hl : s'.key l = s.key l) (hx : ∀ x ∈ s.targetsOf l, s'.key x = s.key x)
    (ht : Times s l h t) : Times s' l h t := by
  obtain ⟨n, hn⟩ := ht.targetsOf
  obtain ⟨n', name, hk, hkn, hp⟩ := ht
  have htargets : s.targetsOf l = [n', h] := by rw [targetsOf_eq, hk]; rfl
  exact ⟨n', name, hl.trans hk, (hx n' (by simp [htargets])).trans hkn, hp⟩

theorem times_congr (hl : s'.key l = s.key l) (hx : ∀ x ∈ s.targetsOf l, s'.key x = s.key x) :
    Times s' l h t ↔ Times s l h t := by
  have htargets : s'.targetsOf l = s.targetsOf l := by rw [targetsOf_eq, targetsOf_eq, hl]
  exact ⟨Times.congr hl.symm fun x hx' => (hx x (htargets ▸ hx')).symm, Times.congr hl hx⟩

end Links

/-! ## The slots -/

section Slots
variable {s : AtomTable TV} {m : TemporalTable} {l h : Handle} {t : Temporal}

theorem atomAdded_timed (ht : Times s l h t) : atomAdded s m l = m.add h (some t) := by
  obtain ⟨n, name, hk, hn, hp⟩ := ht
  obtain ⟨a, ha, hta, hb⟩ := exists_of_key hk
  obtain ⟨c, hc, htc, hcb⟩ := exists_of_key hn
  have harity : (Body.link [n, h]).arity = 2 := rfl
  simp [atomAdded, ha, hta, hb, harity, Atom.outgoing, Body.outgoing, hc, htc, timeOf, getName, hcb,
    hp]

theorem atomAdded_other {a : Atom TV} (ha : s.handleMap l = some a) (ht : a.type ≠ AT_TIME_LINK) :
    atomAdded s m l = some m := by
  simp [atomAdded, ha, ht]

theorem atomRemoved_timed (ht : Times s l h t) :
    atomRemoved s m l = (m.remove h (some t) .EXACT).map Prod.fst := by
  obtain ⟨n, name, hk, hn, hp⟩ := ht
  obtain ⟨a, ha, hta, hb⟩ := exists_of_key hk
  obtain ⟨c, hc, htc, hcb⟩ := exists_of_key hn
  have harity : (Body.link [n, h]).arity = 2 := rfl
  simp [atomRemoved, ha, hta, hb, harity, Atom.outgoing, Body.outgoing, hc, htc, timeOf, getName, hcb,
    hp]

theorem atomRemoved_other {a : Atom TV} (ha : s.handleMap l = some a) (ht : a.type ≠ AT_TIME_LINK) :
    atomRemoved s m l = some m := by
  simp [atomRemoved, ha, ht]

/-- The slot of an AtTimeLink takes its pair out, and other slots do nothing. -/
theorem atomRemoved_returns (hm : Sound m) {a : Atom TV} (ha : s.handleMap l = some a)
    (htimed : s.typeOf l = some AT_TIME_LINK → ∃ h t, Times s l h t ∧ h ≠ UNDEFINED) :
    ∃ m', atomRemoved s m l = some m' ∧ Sound m' ∧
      ∀ h t, m'.InMap h t ↔ m.InMap h t ∧ ¬ Times s l h t := by
  by_cases hty : a.type = AT_TIME_LINK
  · obtain ⟨h, t, ht, hh⟩ := htimed (by simp [typeOf, ha, hty])
    obtain ⟨m', result, hm', hsound, hpairs⟩ := hm.remove hh t
    refine ⟨m', by rw [atomRemoved_timed ht, hm']; rfl, hsound, fun k u => ?_⟩
    rw [hpairs]
    refine and_congr_right fun _ => not_congr ⟨?_, fun hku => ?_⟩
    · rintro ⟨rfl, rfl⟩
      exact ht
    · obtain ⟨rfl, rfl⟩ := ht.unique hku
      exact ⟨rfl, rfl⟩
  · refine ⟨m, atomRemoved_other ha hty, hm, fun k u => ?_⟩
    refine ⟨fun hku => ⟨hku, fun ht => hty ?_⟩, And.left⟩
    simpa [typeOf, ha] using ht.typeOf

end Slots

/-- The time server has the pairs of the stored AtTimeLinks. -/
structure Agrees (s : AtomSpace TV TemporalTable) : Prop where
  linked : Linked s.atomTable
  clean : ∀ g, s.atomTable.isStored g = true → s.atomTable.marked g = false
  timed : WellTimed s.atomTable
  handles : s.atomTable.brkUuid ≤ UNDEFINED
  sound : Sound s.servers
  agree : ∀ h t, s.servers.InMap h t ↔
    ∃ l, s.atomTable.isStored l = true ∧ Times s.atomTable l h t

/-! ## Adding -/

/-- What an addition of type `t` leaves: the same atoms, or one more that the slots saw. -/
inductive Extends {σ : Type} (slots : Slots TV σ) (s s' : AtomSpace TV σ) (t : TypeCode) : Prop
  | same (linked : Linked s'.atomTable) (unchanged : Unchanged s.atomTable s'.atomTable)
      (servers : s'.servers = s.servers)
  | new (a : Atom TV) (linked : Linked s'.atomTable) (type : a.type = t)
      (clean : a.markedForRemoval = false) (grown : Grown s.atomTable s'.atomTable a)
      (servers : s'.servers = (slots.atomAdded s'.atomTable s.servers s.atomTable.brkUuid).1)

section Adding
variable {σ : Type} (cs : ClassServer) (ops : TruthOps TV) (slots : Slots TV σ)
  {s : AtomSpace TV σ}

theorem addAtom_extends (hs : Linked s.atomTable) {t : TypeCode} (a : Option (Atom TV))
    (ha : ∀ x, a = some x → x.incoming = [] ∧ x.markedForRemoval = false ∧ x.type = t) :
    Extends slots s (s.payDefault.addAtom ops slots a).1 t := by
  cases a with
  | none => exact .same hs ((SameKeys.refl _).unchanged rfl rfl) rfl
  | some a =>
    obtain ⟨hin, hclean, htype⟩ := ha a rfl
    obtain ⟨hl, hcases⟩ := hs.add ops hin
    simp only [AtomSpace.addAtom]
    rcases hcases with ⟨h, hres, hget, hu⟩ | ⟨hres, hu⟩ | ⟨hres, hget, -, hgrown⟩
    · have hget' : s.payDefault.atomTable.getHandle a = some h := hget
      rw [hget']
      exact .same hl hu rfl
    · have hres' : (s.payDefault.atomTable.add ops a true).2 = none := hres
      rw [hres']
      split
      · next e => cases e
      · exact .same hl hu rfl
    · have hres' : (s.payDefault.atomTable.add ops a true).2 = some s.atomTable.brkUuid := hres
      have hget' : s.payDefault.atomTable.getHandle a = none := hget
      rw [hget', hres']
      exact .new a hl htype hclean hgrown rfl

theorem merge_extends (hs : Linked s.atomTable) (h : Handle) (tvn : TV) (t : TypeCode) :
    Extends slots s { s with atomTable := s.atomTable.merge ops h tvn } t := by
  obtain ⟨hl, hu⟩ := hs.merge ops h tvn
  exact .same hl hu rfl

theorem addNode_extends (hs : Linked s.atomTable) (t : TypeCode) (name : String) (tvn : TV) :
    Extends slots s (s.addNode cs ops slots t name tvn).1 t := by
  unfold AtomSpace.addNode
  split
  · exact merge_extends ops slots hs _ tvn t
  · refine addAtom_extends ops slots hs _ fun x hx => ?_
    unfold Atom.newNode at hx
    split at hx
    · obtain rfl := Option.some.inj hx
      exact ⟨rfl, rfl, rfl⟩
    · cases hx

theorem addLink_extends (hs : Linked s.atomTable) (t : TypeCode) (outgoing : List Handle)
    (tvn : TV) : Extends slots s (s.addLink cs ops slots t outgoing tvn).1 t := by
  unfold AtomSpace.addLink
  split
  · exact merge_extends ops slots hs _ tvn t
  · refine addAtom_extends ops slots hs _ fun x hx => ?_
    unfold Atom.newLink at hx
    split at hx
    · obtain rfl := Option.some.inj hx
      exact ⟨rfl, rfl, rfl⟩
    · cases hx

theorem Extends.linked {s' : AtomSpace TV σ} {t : TypeCode} (he : Extends slots s s' t) :
    Linked s'.atomTable := by
  cases he with
  | same hl => exact hl
  | new _ hl => exact hl

theorem Extends.brkUuid_le {s' : AtomSpace TV σ} {t : TypeCode} (he : Extends slots s s' t) :
    s.atomTable.brkUuid ≤ s'.atomTable.brkUuid := by
  cases he with
  | same _ hu _ => exact hu.brkUuid.ge
  | new _ _ _ _ hg _ =>
    rw [hg.brkUuid]
    exact Nat.le_succ _

end Adding

section Agree
variable {s s' : AtomSpace TV TemporalTable}

/-- Nothing was added. -/
theorem Agrees.of_unchanged (ha : Agrees s) (hl : Linked s'.atomTable)
    (hu : Unchanged s.atomTable s'.atomTable) (hservers : s'.servers = s.servers) : Agrees s' := by
  have htimes : ∀ l h t, Times s'.atomTable l h t ↔ Times s.atomTable l h t := fun l h t =>
    times_congr (congrFun hu.key l) fun x _ => congrFun hu.key x
  refine ⟨hl, ?_, ?_, hu.brkUuid.trans_le ha.handles, hservers ▸ ha.sound, ?_⟩
  · rw [hu.stored, hu.marked]
    exact ha.clean
  · intro l hst hty
    rw [hu.stored] at hst
    rw [typeOf_eq, hu.key, ← typeOf_eq] at hty
    simpa only [htimes] using ha.timed l hst hty
  · intro h t
    simpa only [hservers, hu.stored, htimes] using ha.agree h t

/-- The AtTimeLinks of before keep their atoms and times. -/
theorem times_of_grown {T T' : AtomTable TV} {a : Atom TV} (hg : Grown T T' a) (hl : Linked T)
    {l : Handle} (hst : T.isStored l = true) (h : Handle) (t : Temporal) :
    Times T' l h t ↔ Times T l h t :=
  times_congr (hg.key_stored hl hst) fun x hx => hg.key_old hl (hl.below l hst x hx).2

/-- A new atom of another type is none of the slot's business. -/
theorem Agrees.grow_other (ha : Agrees s) {a : Atom TV} (hl : Linked s'.atomTable)
    (hclean : a.markedForRemoval = false) (hg : Grown s.atomTable s'.atomTable a)
    (hservers : s'.servers = (slots.atomAdded s'.atomTable s.servers s.atomTable.brkUuid).1)
    (hhandles : s'.atomTable.brkUuid ≤ UNDEFINED) (hat : a.type ≠ AT_TIME_LINK) : Agrees s' := by
  obtain ⟨b, hb, hbt, -⟩ := exists_of_key hg.key_new
  have hserver : s'.servers = s.servers := by
    rw [hservers]
    simp only [slots, atomAdded_other hb (hbt ▸ hat)]
  have hold : ∀ l, s'.atomTable.isStored l = true →
      s'.atomTable.typeOf l = some AT_TIME_LINK → s.atomTable.isStored l = true := by
    intro l hst hty
    refine ((hg.stored_iff l).mp hst).resolve_right ?_
    rintro rfl
    rw [hg.typeOf_new] at hty
    exact hat (Option.some.inj hty)
  refine ⟨hl, fun _ => hg.clean ha.clean hclean, fun l hst hty => ?_, hhandles,
    hserver ▸ ha.sound, fun h u => ?_⟩
  · have hst' := hold l hst hty
    rw [typeOf_eq, hg.key_stored ha.linked hst', ← typeOf_eq] at hty
    obtain ⟨h, u, hl⟩ := ha.timed l hst' hty
    exact ⟨h, u, (times_of_grown hg ha.linked hst' h u).mpr hl⟩
  · rw [hserver, ha.agree]
    constructor
    · rintro ⟨l, hst, hl⟩
      exact ⟨l, (hg.stored_iff l).mpr (.inl hst),
        (times_of_grown hg ha.linked hst h u).mpr hl⟩
    · rintro ⟨l, hst, hl⟩
      have hst' := hold l hst hl.typeOf
      exact ⟨l, hst', (times_of_grown hg ha.linked hst' h u).mp hl⟩

/-- The slot puts the pair of a new AtTimeLink in. -/
theorem Agrees.grow_timed (ha : Agrees s) {a : Atom TV} (hl : Linked s'.atomTable)
    (hclean : a.markedForRemoval = false) (hg : Grown s.atomTable s'.atomTable a)
    (hservers : s'.servers = (slots.atomAdded s'.atomTable s.servers s.atomTable.brkUuid).1)
    (hhandles : s'.atomTable.brkUuid ≤ UNDEFINED) (hat : a.type = AT_TIME_LINK)
    (htimed : WellTimed s'.atomTable) (hsep : Separate s'.atomTable) : Agrees s' := by
  have hstored := hg.stored_iff
  have htimes : ∀ l h t, s.atomTable.isStored l = true →
      (Times s'.atomTable l h t ↔ Times s.atomTable l h t) := fun l h t hst =>
    times_of_grown hg ha.linked hst h t
  obtain ⟨h, u, hnew⟩ := htimed s.atomTable.brkUuid ((hstored _).mpr (.inr rfl)) (by
    rw [hg.typeOf_new, hat])
  obtain ⟨m, hm, hsound, hpairs⟩ := ha.sound.add (h := h) (t := u) fun g v hgv hr => by
    obtain ⟨l, hst, hl⟩ := (ha.agree g v).mp hgv
    exact hsep ((hstored l).mpr (.inl hst)) ((hstored _).mpr (.inr rfl))
      ((htimes l g v hst).mpr hl) hnew hr
  have hserver : s'.servers = m := by
    rw [hservers]
    simp only [slots, atomAdded_timed hnew, hm]
  refine ⟨hl, fun _ => hg.clean ha.clean hclean, htimed, hhandles, hserver ▸ hsound,
    fun g v => ?_⟩
  rw [hserver, hpairs, ha.agree]
  constructor
  · rintro (⟨l, hst, hl⟩ | ⟨rfl, rfl⟩)
    · exact ⟨l, (hstored l).mpr (.inl hst), (htimes l g v hst).mpr hl⟩
    · exact ⟨_, (hstored _).mpr (.inr rfl), hnew⟩
  · rintro ⟨l, hst, hl⟩
    rcases (hstored l).mp hst with hst | rfl
    · exact .inl ⟨l, hst, (htimes l g v hst).mp hl⟩
    · exact .inr (hl.unique hnew)

theorem Agrees.extends (ha : Agrees s) {t : TypeCode} (he : Extends slots s s' t)
    (hhandles : s'.atomTable.brkUuid ≤ UNDEFINED)
    (htime : t = AT_TIME_LINK → WellTimed s'.atomTable ∧ Separate s'.atomTable) : Agrees s' := by
  cases he with
  | same hl hu hservers => exact ha.of_unchanged hl hu hservers
  | new a hl htype hclean hg hservers =>
    by_cases hat : a.type = AT_TIME_LINK
    · obtain ⟨htimed, hsep⟩ := htime (htype ▸ hat)
      exact ha.grow_timed hl hclean hg hservers hhandles hat htimed hsep
    · exact ha.grow_other hl hclean hg hservers hhandles hat

end Agree

/-! ## Removing -/

section Removing
variable {s : AtomSpace TV TemporalTable}

/-- The extracted atoms go from the last to the first: a link before its targets, which
its slot still reads. -/
theorem removeExtractedHandles_pairs (hs : List Handle) {s : AtomSpace TV TemporalTable}
    (hl : Linked s.atomTable) (hsound : Sound s.servers) (hnd : hs.Nodup)
    (hres : ∀ g ∈ hs, s.atomTable.handleMap g ≠ none ∧ s.atomTable.isStored g = false ∧
      s.atomTable.incoming g = [])
    (horder : hs.Pairwise fun g l => g ∉ s.atomTable.targetsOf l)
    (htimed : ∀ g ∈ hs, s.atomTable.typeOf g = some AT_TIME_LINK → ∃ h t,
      Times s.atomTable g h t ∧ h ≠ UNDEFINED) :
    ∃ s', s.removeExtractedHandles slots hs = some (s', true) ∧ Linked s'.atomTable ∧
      Sound s'.servers ∧ s'.atomTable.brkUuid = s.atomTable.brkUuid ∧
      s'.atomTable.typeIndex = s.atomTable.typeIndex ∧
      (∀ g, s'.atomTable.handleMap g = if g ∈ hs then none else s.atomTable.handleMap g) ∧
      ∀ h t, s'.servers.InMap h t ↔
        s.servers.InMap h t ∧ ¬ ∃ l ∈ hs, Times s.atomTable l h t := by
  induction hs generalizing s with
  | nil => exact ⟨s, rfl, hl, hsound, rfl, rfl, by simp, by simp⟩
  | cons g hs ih =>
    obtain ⟨hg, hnd⟩ := List.nodup_cons.mp hnd
    obtain ⟨hfirst, horder⟩ := List.pairwise_cons.mp horder
    obtain ⟨hsome, hst, hin⟩ := hres g List.mem_cons_self
    obtain ⟨a, ha⟩ := Option.ne_none_iff_exists'.mp hsome
    obtain ⟨m, hm, hsound', hpairs⟩ := atomRemoved_returns hsound ha (htimed g List.mem_cons_self)
    obtain ⟨table, hdel, hl', hbrk, hother, htype, hgone⟩ := hl.deleteAtom hsome hst hin
    have hkey : ∀ x, x ≠ g → table.key x = s.atomTable.key x := fun x e => by
      simp only [key, hother x e]
    have htimes : ∀ l ∈ hs, ∀ h t, Times table l h t ↔ Times s.atomTable l h t := by
      intro l hmem h t
      refine times_congr (hkey l ?_) fun x hx => hkey x ?_
      · rintro rfl
        exact hg hmem
      · rintro rfl
        exact hfirst l hmem hx
    have hne : ∀ l ∈ hs, l ≠ g := fun l hmem e => hg (e ▸ hmem)
    have hres' : ∀ l ∈ hs, table.handleMap l ≠ none ∧ table.isStored l = false ∧
        table.incoming l = [] := by
      intro l hmem
      obtain ⟨h₁, h₂, h₃⟩ := hres l (List.mem_cons_of_mem g hmem)
      refine ⟨by rwa [hother l (hne l hmem)], ?_, ?_⟩
      · simpa only [isStored, hother l (hne l hmem), htype] using h₂
      · simpa only [incoming, hother l (hne l hmem)] using h₃
    have horder' : hs.Pairwise fun x l => x ∉ table.targetsOf l := by
      refine horder.imp_of_mem fun {x l} _ hmem hx => ?_
      rwa [targetsOf_eq, hkey l (hne l hmem), ← targetsOf_eq]
    have htimed' : ∀ l ∈ hs, table.typeOf l = some AT_TIME_LINK → ∃ h t,
        Times table l h t ∧ h ≠ UNDEFINED := by
      intro l hmem hty
      simp only [typeOf, hother l (hne l hmem)] at hty
      obtain ⟨h, t, ht, hh⟩ := htimed l (List.mem_cons_of_mem g hmem) hty
      exact ⟨h, t, (htimes l hmem h t).mpr ht, hh⟩
    obtain ⟨s', he, hl₂, hsound₂, hbrk₂, htype₂, hmap₂, hpairs₂⟩ := ih
      (s := { s with atomTable := table, servers := m }) hl' hsound' hnd hres' horder' htimed'
    refine ⟨s', ?_, hl₂, hsound₂, hbrk₂.trans hbrk, htype₂.trans htype, fun x => ?_, fun h t => ?_⟩
    · have hslot : slots.atomRemoved s.atomTable s.servers g = (m, true) := by
        simp only [slots, hm]
      simp only [AtomSpace.removeExtractedHandles, hslot, if_true, hdel, Option.bind_eq_bind,
        Option.bind_some, he]
    · rw [hmap₂]
      by_cases e : x = g
      · simp [e, hgone]
      · simp [e, hother x e]
    · rw [hpairs₂, hpairs]
      simp only [List.mem_cons, exists_eq_or_imp, not_or]
      rw [and_assoc]
      refine and_congr_right fun _ => and_congr_right fun _ => not_congr ?_
      exact exists_congr fun l => and_congr_right fun hmem => htimes l hmem h t

/-- What is left of the atoms, of their keys and of the pairs determines the agreement. -/
theorem Agrees.of_taken (ha : Agrees s) {h : Handle} {recursive : Bool} {table : AtomTable TV}
    {res : List Handle} (hx : Taken s.atomTable table h recursive res)
    (hspares : SparesTwins s.atomTable h recursive) {s' : AtomSpace TV TemporalTable}
    (hl : Linked s'.atomTable) (hsound : Sound s'.servers)
    (hbrk : s'.atomTable.brkUuid = table.brkUuid)
    (htype : s'.atomTable.typeIndex = table.typeIndex)
    (hmap : ∀ g, s'.atomTable.handleMap g = if g ∈ res then none else table.handleMap g)
    (hpairs : ∀ k t, s'.servers.InMap k t ↔
      s.servers.InMap k t ∧ ¬ ∃ l ∈ res, Times s.atomTable l k t) :
    Agrees s' ∧ s'.atomTable.brkUuid = s.atomTable.brkUuid ∧
      ∀ g, s'.atomTable.key g = s.atomTable.key g ∨ s'.atomTable.key g = none := by
  have hfalls : ∀ g, g ∈ res ↔ s.atomTable.Falls h recursive g := fun g => hx.mem_iff ha.clean
  have hkey : ∀ g, g ∉ res → s'.atomTable.key g = s.atomTable.key g := by
    intro g hg
    rw [← hx.key]
    simp only [key, hmap, if_neg hg]
  have hstored : ∀ g, s'.atomTable.isStored g = true ↔
      s.atomTable.isStored g = true ∧ g ∉ res := by
    intro g
    rw [← hx.stored_iff]
    by_cases hg : g ∈ res
    · have : table.isStored g = true ↔ False :=
        iff_false_intro fun h' => ((hx.stored_iff g).mp h').2 hg
      rw [this]
      simp [isStored, hmap, hg]
    · simp only [isStored, hmap, if_neg hg, htype]
  have htimes : ∀ l, s'.atomTable.isStored l = true → ∀ k t,
      Times s'.atomTable l k t ↔ Times s.atomTable l k t := by
    intro l hst k t
    obtain ⟨hst₀, hn⟩ := (hstored l).mp hst
    refine times_congr (hkey l hn) fun x hx' => hkey x fun hm => ?_
    exact hx.not_target hm ((hx.stored_iff l).mpr ⟨hst₀, hn⟩) hx'
  refine ⟨⟨hl, fun g hst => ?_, fun l hst hty => ?_, ?_, hsound, fun k t => ?_⟩,
    hbrk.trans hx.brkUuid, fun g => ?_⟩
  · obtain ⟨hst₀, hn⟩ := (hstored g).mp hst
    by_contra hm
    rw [Bool.not_eq_false] at hm
    have hm' : table.marked g = true := by simpa only [marked, hmap, if_neg hn] using hm
    have := ha.clean g hst₀
    rw [hx.unmarked g ((hx.stored_iff g).mpr ⟨hst₀, hn⟩) hm'] at this
    cases this
  · obtain ⟨hst₀, hn⟩ := (hstored l).mp hst
    rw [typeOf_eq, hkey l hn, ← typeOf_eq] at hty
    obtain ⟨k, t, ht⟩ := ha.timed l hst₀ hty
    exact ⟨k, t, (htimes l hst k t).mpr ht⟩
  · rw [hbrk, hx.brkUuid]
    exact ha.handles
  · rw [hpairs, ha.agree]
    constructor
    · rintro ⟨⟨l, hst, ht⟩, hnot⟩
      have hst' := (hstored l).mpr ⟨hst, fun hm => hnot ⟨l, hm, ht⟩⟩
      exact ⟨l, hst', (htimes l hst' k t).mpr ht⟩
    · rintro ⟨l, hst, ht⟩
      obtain ⟨hst₀, hn⟩ := (hstored l).mp hst
      rw [htimes l hst] at ht
      refine ⟨⟨l, hst₀, ht⟩, ?_⟩
      rintro ⟨l', hm, ht'⟩
      exact hn ((hfalls l).mpr (hspares ((hfalls l').mp hm) ht' hst₀ ht))
  · by_cases hg : g ∈ res
    · exact .inr (by simp [key, hmap, hg])
    · exact .inl (hkey g hg)

/-- A removal that spares no twin keeps the agreement, and no slot throws. -/
theorem Agrees.removeAtom (ha : Agrees s) {h : Handle} {recursive : Bool}
    (hspares : SparesTwins s.atomTable h recursive) :
    ∃ s' removed, s.removeAtom slots h recursive = some (s', some removed) ∧ Agrees s' ∧
      s'.atomTable.brkUuid = s.atomTable.brkUuid ∧
      ∀ g, s'.atomTable.key g = s.atomTable.key g ∨ s'.atomTable.key g = none := by
  obtain ⟨table, res, he, hx⟩ := extract_takes (s.atomTable.brkUuid + 1) s.atomTable h recursive
    ha.linked ⟨Nat.succ_pos _, by lia⟩
  have htimes : ∀ l k t, Times table l k t ↔ Times s.atomTable l k t := fun l k t =>
    times_congr (congrFun hx.key l) fun x _ => congrFun hx.key x
  simp only [AtomSpace.removeAtom, he, Option.bind_eq_bind, Option.bind_some]
  split
  · next hnil =>
    subst hnil
    exact ⟨_, false, rfl, ha.of_taken hx hspares hx.linked ha.sound rfl rfl (by simp) (by simp)⟩
  · have hav : ∀ g ∈ res, table.avOf g ≠ none := by
      intro g hg
      obtain ⟨a, ha⟩ := Option.ne_none_iff_exists'.mp (hx.record hg)
      simp [avOf, ha]
    rw [AtomSpace.refund_all hav]
    simp only [Option.bind_some]
    obtain ⟨s', hrem, hl, hsound, hbrk, htype, hmap, hpairs⟩ := removeExtractedHandles_pairs
      res.reverse (s := { atomTable := table, servers := s.servers
                          fundsSTI := s.fundsSTI + (res.map fun g =>
                            ((table.avOf g).map AttentionValue.sti).getD 0).sum
                          fundsLTI := s.fundsLTI + (res.map fun g =>
                            ((table.avOf g).map AttentionValue.lti).getD 0).sum })
      hx.linked ha.sound (List.nodup_reverse.mpr hx.nodup) (by
        intro g hg
        rw [List.mem_reverse] at hg
        refine ⟨hx.record hg, ?_, hx.bare g hg⟩
        rw [hx.stored]
        simp [hg]) (by
        rw [List.pairwise_reverse]
        refine hx.order.imp fun {g l} hm => ?_
        rwa [targetsOf_eq, hx.key, ← targetsOf_eq]) (by
        intro g hg hty
        rw [List.mem_reverse] at hg
        rw [typeOf_eq, hx.key, ← typeOf_eq] at hty
        obtain ⟨k, t, ht⟩ := ha.timed g (hx.was g hg) hty
        refine ⟨k, t, (htimes g k t).mpr ht, ?_⟩
        obtain ⟨n, hn⟩ := ht.targetsOf
        have hlt := ha.linked.lt_brk (ha.linked.below g (hx.was g hg) k (by simp [hn])).2
        exact Nat.ne_of_lt (Nat.lt_of_lt_of_le hlt ha.handles))
    rw [hrem]
    refine ⟨s', true, rfl, ha.of_taken hx hspares hl hsound hbrk htype (fun g => ?_) fun k t => ?_⟩
    · rw [hmap]
      simp only [List.mem_reverse]
    · rw [hpairs]
      simp only [List.mem_reverse, htimes]

/-- The link found and, when nothing refers to it any more, its TimeNode. -/
theorem Agrees.removeEntry (ha : Agrees s) {removeNodes recursive : Bool}
    {pair : Handle × Temporal} (hspares : ∀ l, s.getAtTimeLink pair = some (some l) →
      SparesTwins s.atomTable l recursive)
    {s' : AtomSpace TV TemporalTable} {removed : Option Bool}
    (he : s.removeEntry removeNodes recursive pair = some (s', removed)) :
    Agrees s' ∧ s'.atomTable.brkUuid = s.atomTable.brkUuid := by
  simp only [AtomSpace.removeEntry, Option.bind_eq_bind, Option.bind_eq_some_iff] at he
  obtain ⟨found, hfound, he⟩ := he
  cases found with
  | none =>
    cases he
    exact ⟨ha, rfl⟩
  | some l =>
    simp only [Option.bind_eq_some_iff] at he
    obtain ⟨a, -, n, -, he⟩ := he
    split at he
    · next hlink =>
      obtain ⟨s₁, removed₁, h₁, ha₁, hbrk₁, hkey₁⟩ := ha.removeAtom (hspares l hfound)
      rw [h₁, Option.bind_some] at he
      dsimp only at he
      split at he
      · -- a TimeNode is no AtTimeLink
        have hnode : SparesTwins s₁.atomTable n false := by
          rintro k k' g t ⟨-, hk⟩ ht - -
          obtain ⟨rfl, -⟩ : k = n ∧ s₁.atomTable.incoming n = [] := hk
          have hty := ht.typeOf
          have htn := hlink.2.2
          rw [typeOf_eq] at hty htn
          rcases hkey₁ k with hk | hk
          · rw [hk, htn] at hty
            exact absurd (Option.some.inj hty) (by decide)
          · rw [hk] at hty
            cases hty
        obtain ⟨s₂, removed₂, h₂, ha₂, hbrk₂, -⟩ := ha₁.removeAtom hnode
        rw [h₂, Option.bind_some] at he
        cases he
        exact ⟨ha₂, hbrk₂.trans hbrk₁⟩
      · cases he
        exact ⟨ha₁, hbrk₁⟩
    · cases he
      exact ⟨ha, rfl⟩

end Removing

/-! ## Runs -/

/-- The additions and the removals of an atom space. -/
inductive TimeOp (TV : Type) where
  | addNode (t : TypeCode) (name : String) (tvn : TV)
  | addLink (t : TypeCode) (outgoing : List Handle) (tvn : TV)
  | addTimeInfo (h : Handle) (t : Temporal) (tv : TV)
  | addTimeInfoTimestamp (h : Handle) (timestamp : Nat) (tv : TV)
  | removeAtom (h : Handle) (recursive : Bool)
  | removeTimeInfo (h : Handle) (t : Option Temporal) (criterion : TemporalRelationship)
      (removeDisconnectedTimeNodes recursive : Bool)

section Runs
variable (cs : ClassServer) (ops : TruthOps TV) (NULL_TV : TV)

/-- The space after a call, whether it returns or throws; `none` is a call that follows a
null or freed pointer. -/
def apply (s : AtomSpace TV TemporalTable) : TimeOp TV → Option (AtomSpace TV TemporalTable)
  | .addNode t name tvn => some (s.addNode cs ops slots t name tvn).1
  | .addLink t outgoing tvn => some (s.addLink cs ops slots t outgoing tvn).1
  | .addTimeInfo h t tv => some (s.addTimeInfo cs ops NULL_TV h t tv).1
  | .addTimeInfoTimestamp h timestamp tv =>
    some (s.addTimeInfoTimestamp cs ops NULL_TV h timestamp tv).1
  | .removeAtom h recursive => (s.removeAtom slots h recursive).map Prod.fst
  | .removeTimeInfo h t criterion removeNodes recursive =>
    (s.removeTimeInfo h t criterion removeNodes recursive).map Prod.fst

inductive Reachable
    (ok : AtomSpace TV TemporalTable → TimeOp TV → AtomSpace TV TemporalTable → Prop)
    (start : AtomSpace TV TemporalTable) : AtomSpace TV TemporalTable → Prop
  | start : Reachable ok start start
  | step {s s' : AtomSpace TV TemporalTable} (op : TimeOp TV) (r : Reachable ok start s)
      (h : ok s op s') (e : apply cs ops NULL_TV s op = some s') : Reachable ok start s'

/-- Every AtTimeLink has the form AtTimeLink(TimeNode n, h) with a name n that can be
read, and no handle is as large as the undefined one. -/
def InForm (_ : AtomSpace TV TemporalTable) (_ : TimeOp TV) (s' : AtomSpace TV TemporalTable) :
    Prop :=
  WellTimed s'.atomTable ∧ s'.atomTable.brkUuid ≤ UNDEFINED

/-- The removals of the loop, each in the space that the ones before leave. -/
def EntriesSpare (removeNodes recursive : Bool) :
    List (Handle × Temporal) → AtomSpace TV TemporalTable → Prop
  | [], _ => True
  | pair :: pairs, s =>
    (∀ l, s.getAtTimeLink pair = some (some l) → SparesTwins s.atomTable l recursive) ∧
      ∀ s' removed, s.removeEntry removeNodes recursive pair = some (s', removed) →
        EntriesSpare removeNodes recursive pairs s'

/-- No removal takes one of two AtTimeLinks of the same atom and time. -/
def Spares (s : AtomSpace TV TemporalTable) : TimeOp TV → Prop
  | .removeAtom h recursive => SparesTwins s.atomTable h recursive
  | .removeTimeInfo h t criterion removeNodes recursive =>
    ∀ pairs, s.servers.get h t criterion = some pairs → EntriesSpare removeNodes recursive pairs s
  | _ => True

/-- A step in form after which times that compare equal are equal, and that spares twins. -/
def Careful (s : AtomSpace TV TemporalTable) (op : TimeOp TV) (s' : AtomSpace TV TemporalTable) :
    Prop :=
  InForm s op s' ∧ Separate s'.atomTable ∧ Spares s op

variable {cs ops NULL_TV} {s s' : AtomSpace TV TemporalTable}

theorem Agrees.removeEntries {removeNodes recursive : Bool} {pairs : List (Handle × Temporal)}
    (ha : Agrees s) (hspares : EntriesSpare removeNodes recursive pairs s) {result : Bool}
    {removed : Option Bool}
    (he : s.removeEntries removeNodes recursive pairs result = some (s', removed)) : Agrees s' := by
  induction pairs generalizing s result with
  | nil =>
    cases he
    exact ha
  | cons pair pairs ih =>
    simp only [AtomSpace.removeEntries, Option.bind_eq_bind, Option.bind_eq_some_iff] at he
    obtain ⟨⟨s₁, removed₁⟩, h₁, he⟩ := he
    obtain ⟨ha₁, -⟩ := ha.removeEntry hspares.1 h₁
    cases removed₁ with
    | none =>
      cases he
      exact ha₁
    | some removed₁ => exact ih ha₁ (hspares.2 s₁ _ h₁) he

theorem Agrees.addTimeInfoNamed (ha : Agrees s) {h : Handle} {timeNodeName : List Char} {tv : TV}
    (he : (s.addTimeInfoNamed cs ops NULL_TV h timeNodeName tv).1 = s')
    (hform : WellTimed s'.atomTable ∧ s'.atomTable.brkUuid ≤ UNDEFINED)
    (hsep : Separate s'.atomTable) : Agrees s' := by
  have hne : TIME_NODE ≠ AT_TIME_LINK := by decide
  have hnode := addNode_extends cs ops slots ha.linked TIME_NODE (String.ofList timeNodeName) NULL_TV
  unfold AtomSpace.addTimeInfoNamed at he
  cases hadd : s.addNode cs ops slots TIME_NODE (String.ofList timeNodeName) NULL_TV with
  | mk s₁ result =>
    rw [hadd] at he hnode
    cases result with
    | none =>
      obtain rfl : s₁ = s' := he
      exact ha.extends hnode hform.2 fun e => absurd e hne
    | some n =>
      have hlink := addLink_extends cs ops slots hnode.linked AT_TIME_LINK [n, h] tv
      rw [show (s₁.addLink cs ops slots AT_TIME_LINK [n, h] tv).1 = s' from he] at hlink
      have ha₁ := ha.extends hnode (hlink.brkUuid_le.trans hform.2) fun e => absurd e hne
      exact ha₁.extends hlink hform.2 fun _ => ⟨hform.1, hsep⟩

theorem Agrees.step (ha : Agrees s) {op : TimeOp TV} (h : Careful s op s')
    (e : apply cs ops NULL_TV s op = some s') : Agrees s' := by
  obtain ⟨hform, hsep, hspares⟩ := h
  cases op with
  | addNode t name tvn =>
    obtain rfl := Option.some.inj e
    exact ha.extends (addNode_extends cs ops slots ha.linked t name tvn) hform.2
      fun _ => ⟨hform.1, hsep⟩
  | addLink t outgoing tvn =>
    obtain rfl := Option.some.inj e
    exact ha.extends (addLink_extends cs ops slots ha.linked t outgoing tvn) hform.2
      fun _ => ⟨hform.1, hsep⟩
  | addTimeInfo h t tv =>
    have e := Option.some.inj e
    unfold AtomSpace.addTimeInfo at e
    split at e
    · exact ha.addTimeInfoNamed e hform hsep
    · exact e ▸ ha
  | addTimeInfoTimestamp h timestamp tv =>
    have e := Option.some.inj e
    unfold AtomSpace.addTimeInfoTimestamp at e
    split at e
    · exact ha.addTimeInfoNamed e hform hsep
    · exact e ▸ ha
  | removeAtom h recursive =>
    obtain ⟨s₁, removed, he, ha₁, -, -⟩ := ha.removeAtom hspares
    simp only [apply, he, Option.map_some, Option.some.injEq] at e
    exact e ▸ ha₁
  | removeTimeInfo h t criterion removeNodes recursive =>
    simp only [apply, AtomSpace.removeTimeInfo, Option.bind_eq_bind, Option.map_eq_some_iff,
      Option.bind_eq_some_iff] at e
    obtain ⟨⟨s₁, removed⟩, ⟨pairs, hget, he⟩, rfl⟩ := e
    exact ha.removeEntries (hspares pairs hget) he

theorem agrees_opened (fundsSTI fundsLTI : Int) :
    Agrees (AtomSpace.opened TemporalTable.empty fundsSTI fundsLTI : AtomSpace TV TemporalTable) := by
  have hnone : ∀ g, isStored (AtomTable.empty : AtomTable TV) g = false := fun _ => rfl
  refine ⟨linked_empty, fun g hg => ?_, fun l hl => ?_, ?_, sound_empty, fun h t => ?_⟩
  · exact absurd hg (by simp [AtomSpace.opened, hnone])
  · exact absurd hl (by simp [AtomSpace.opened, hnone])
  · change 1 ≤ UNDEFINED
    decide
  · constructor
    · rintro ⟨handles, hm, -⟩
      exact absurd hm List.not_mem_nil
    · rintro ⟨l, hl, -⟩
      exact absurd hl (by simp [AtomSpace.opened, hnone])

theorem Reachable.agrees {start : AtomSpace TV TemporalTable} (hs : Agrees start)
    (r : Reachable cs ops NULL_TV Careful start s) : Agrees s := by
  induction r with
  | start => exact hs
  | step op _ h e ih => exact ih.step h e

/-- The pairs a client reads from the time server, those of one atom and all of them,
are those of the stored AtTimeLinks. -/
structure InAgreement (s : AtomSpace TV TemporalTable) : Prop where
  ofHandle : ∀ h, h ≠ UNDEFINED → ∃ pairs, s.servers.get h none .EXACT = some pairs ∧
    ∀ t, (h, t) ∈ pairs ↔ ∃ l, s.atomTable.isStored l = true ∧ Times s.atomTable l h t
  all : ∃ pairs, s.servers.get UNDEFINED none .EXACT = some pairs ∧
    ∀ h t, (h, t) ∈ pairs ↔ ∃ l, s.atomTable.isStored l = true ∧ Times s.atomTable l h t

theorem Agrees.inAgreement (ha : Agrees s) : InAgreement s := by
  refine ⟨fun h hh => ⟨s.servers.getOfHandle h, by rw [TemporalTable.get, if_neg hh], fun t => ?_⟩, ?_⟩
  · rw [← ha.agree, getOfHandle, List.mem_map]
    constructor
    · rintro ⟨c, hc, e⟩
      cases e
      exact ha.sound.lists.listed h c hc
    · intro hm
      obtain ⟨c, hc, rfl⟩ := ha.sound.paired h t hm
      exact ⟨c, hc, rfl⟩
  · obtain ⟨pairs, hall, hmem⟩ := getAll_spec ha.sound.times
    exact ⟨pairs, hall, fun h t => (hmem h t).trans (ha.agree h t)⟩

/-- Along every run in which no two AtTimeLinks have different times that compare equal,
and no removal takes one of two AtTimeLinks of the same atom and time, the time server
and the atoms agree. -/
theorem time_server_agrees_along_runs (fundsSTI fundsLTI : Int)
    (r : Reachable cs ops NULL_TV Careful (AtomSpace.opened TemporalTable.empty fundsSTI fundsLTI) s) :
    InAgreement s :=
  (r.agrees (agrees_opened fundsSTI fundsLTI)).inAgreement

end Runs

/-! ## Two names of one time -/

/-- The timed atom and the time of an AtTimeLink. -/
def timesOf (s : AtomTable TV) (l : Handle) : Option (Handle × Temporal) :=
  match s.key l with
  | some (t, .link [n, h]) =>
    match s.key n with
    | some (u, .node name) =>
      if t = AT_TIME_LINK ∧ u = TIME_NODE then
        (Temporal.getFromTimeNodeName (cStr name).toList).map (h, ·)
      else none
    | _ => none
  | _ => none

theorem timesOf_iff {s : AtomTable TV} {l h : Handle} {t : Temporal} :
    timesOf s l = some (h, t) ↔ Times s l h t := by
  constructor
  · intro he
    unfold timesOf at he
    split at he
    · next u n k hk =>
      split at he
      · next v name hn =>
        split at he
        · next hty =>
          obtain ⟨rfl, rfl⟩ := hty
          obtain ⟨t', ht', e⟩ := Option.map_eq_some_iff.mp he
          cases e
          exact ⟨n, name, hk, hn, ht'⟩
        · cases he
      · cases he
    · cases he
  · rintro ⟨n, name, hk, hn, hp⟩
    simp [timesOf, hk, hn, hp]

/-- In a small space the form is a matter of evaluation. -/
theorem form_of_check {s : AtomTable TV} (hl : Linked s) (t₀ : Temporal)
    (h : ∀ l < s.brkUuid, s.isStored l = true → s.typeOf l = some AT_TIME_LINK →
      ((timesOf s l).map Prod.snd) = some t₀) : WellTimed s ∧ Separate s := by
  have hlt : ∀ l, s.isStored l = true → l < s.brkUuid := by
    intro l hst
    obtain ⟨a, ha, -⟩ := exists_of_isStored hst
    exact hl.lt_brk (by rw [ha]; simp)
  constructor
  · intro l hst hty
    obtain ⟨p, hp, -⟩ := Option.map_eq_some_iff.mp (h l (hlt l hst) hst hty)
    exact ⟨p.1, p.2, timesOf_iff.mp hp⟩
  · have hone : ∀ l g t, s.isStored l = true → Times s l g t → t = t₀ := by
      intro l g t hst ht
      have := h l (hlt l hst) hst ht.typeOf
      rw [timesOf_iff.mpr ht] at this
      exact Option.some.inj this
    intro k l g h' t u hk hl' ht hu _
    rw [hone k g t hk ht, hone l h' u hl' hu]

abbrev Space := AtomSpace Unit TemporalTable

def anOps : TruthOps Unit := ⟨fun _ => false, fun _ _ => (), ()⟩

def withNode (s : Space) (t : TypeCode) (name : String) : Space :=
  (s.addNode .script anOps slots t name ()).1

def withAtTimeLink (s : Space) (timeNode h : Handle) : Space :=
  (s.addLink .script anOps slots AT_TIME_LINK [timeNode, h] ()).1

/-- A concept at the time 5, named twice. -/
def twins : Space :=
  withAtTimeLink (withNode (withAtTimeLink (withNode (withNode (AtomSpace.opened .empty 0 0)
    CONCEPT_NODE "c") TIME_NODE "5") 2 1) TIME_NODE "05") 4 1

def five : Temporal := instant 5 (by decide)

theorem step_node {s : Space} {ok : Space → TimeOp Unit → Space → Prop} {start : Space}
    (r : Reachable .script anOps () ok start s) (t : TypeCode) (name : String)
    (h : ok s (.addNode t name ()) (withNode s t name)) :
    Reachable .script anOps () ok start (withNode s t name) :=
  r.step (.addNode t name ()) h rfl

theorem linked_withNode {s : Space} (hs : Linked s.atomTable) (t : TypeCode) (name : String) :
    Linked (withNode s t name).atomTable :=
  (addNode_extends .script anOps slots hs t name ()).linked

theorem linked_withAtTimeLink {s : Space} (hs : Linked s.atomTable) (n h : Handle) :
    Linked (withAtTimeLink s n h).atomTable :=
  (addLink_extends .script anOps slots hs AT_TIME_LINK [n, h] ()).linked

/-- Additions in form, all at the time 5. -/
theorem careful_of_check {s s' : Space} {op : TimeOp Unit} (hl : Linked s'.atomTable)
    (hop : Spares s op) (hbrk : s'.atomTable.brkUuid ≤ UNDEFINED)
    (h : ∀ l < s'.atomTable.brkUuid, s'.atomTable.isStored l = true →
      s'.atomTable.typeOf l = some AT_TIME_LINK →
      ((timesOf s'.atomTable l).map Prod.snd) = some five) : Careful s op s' := by
  obtain ⟨htimed, hsep⟩ := form_of_check hl five h
  exact ⟨⟨htimed, hbrk⟩, hsep, hop⟩

theorem reachable_twins :
    Linked twins.atomTable ∧
      Reachable .script anOps () Careful (AtomSpace.opened .empty 0 0) twins := by
  have l₀ : Linked (AtomSpace.opened .empty 0 0 : Space).atomTable := linked_empty
  have l₁ := linked_withNode l₀ CONCEPT_NODE "c"
  have l₂ := linked_withNode l₁ TIME_NODE "5"
  have l₃ := linked_withAtTimeLink l₂ 2 1
  have l₄ := linked_withNode l₃ TIME_NODE "05"
  have l₅ := linked_withAtTimeLink l₄ 4 1
  refine ⟨l₅, ?_⟩
  have r₁ := step_node .start CONCEPT_NODE "c"
    (careful_of_check l₁ trivial (by decide +kernel) (by decide +kernel))
  have r₂ := step_node r₁ TIME_NODE "5"
    (careful_of_check l₂ trivial (by decide +kernel) (by decide +kernel))
  have r₃ := r₂.step (.addLink AT_TIME_LINK [2, 1] ())
    (careful_of_check l₃ trivial (by decide +kernel) (by decide +kernel)) rfl
  have r₄ := step_node r₃ TIME_NODE "05"
    (careful_of_check l₄ trivial (by decide +kernel) (by decide +kernel))
  exact r₄.step (.addLink AT_TIME_LINK [4, 1] ())
    (careful_of_check l₅ trivial (by decide +kernel) (by decide +kernel)) rfl

theorem agreement_of_twins : InAgreement twins ∧
    ∃ pairs, twins.servers.get 1 none .EXACT = some pairs ∧ pairs = [(1, five)] :=
  ⟨time_server_agrees_along_runs 0 0 reachable_twins.2, _, rfl, by decide +kernel⟩

/-- The second of the two AtTimeLinks is removed. -/
def oneLeft : Space := ((twins.removeAtom slots 5 false).map Prod.fst).getD twins

/-- The pair goes with the removed AtTimeLink, and the other one is still stored. -/
theorem pair_lost_with_twin :
    ¬ ∀ s : Space, Reachable .script anOps () InForm (AtomSpace.opened .empty 0 0) s →
      InAgreement s := by
  intro hall
  have r : Reachable .script anOps () InForm (AtomSpace.opened .empty 0 0) twins := by
    have weaken : ∀ {s : Space}, Reachable .script anOps () Careful (AtomSpace.opened .empty 0 0) s →
        Reachable .script anOps () InForm (AtomSpace.opened .empty 0 0) s := by
      intro s r
      induction r with
      | start => exact .start
      | step op _ h e ih => exact ih.step op h.1 e
    exact weaken reachable_twins.2
  obtain ⟨s', result, he, hc⟩ := AtomSpace.removeAtom_conserves slots reachable_twins.1 5 false
  obtain rfl : oneLeft = s' := by simp [oneLeft, he]
  have htimed := (form_of_check hc.linked five (by decide +kernel)).1
  have r' := r.step (.removeAtom 5 false) ⟨htimed, by decide +kernel⟩
    (by simp only [apply, he, Option.map_some])
  obtain ⟨pairs, hget, hmem⟩ := (hall _ r').ofHandle 1 (by decide)
  have hstored : oneLeft.atomTable.isStored 3 = true := by decide +kernel
  have hlink : Times oneLeft.atomTable 3 1 five := timesOf_iff.mp (by decide +kernel)
  have hin := (hmem five).mpr ⟨3, hstored, hlink⟩
  have hnone : oneLeft.servers.get 1 none .EXACT = some [] := by decide +kernel
  rw [hnone] at hget
  cases hget
  exact absurd hin List.not_mem_nil

end TimeServer

end OpenCog
