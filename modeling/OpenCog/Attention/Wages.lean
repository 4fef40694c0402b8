import OpenCog.Attention.ImportanceUpdating

/-! Who pays the wages: an agent is debited what the atom has been given so far, rent
included. As long as no value is narrowed, runs are those of unbounded integers. -/
namespace OpenCog.Attention

/-! ## Without narrowing -/

section Narrowing
variable {narrow narrow' : Int → Int}

theorem Purse.set_congr (p : Purse) (avh : Holder) {v : Int} (h : narrow v = narrow' v) :
    p.set narrow avh v = p.set narrow' avh v := by
  simp only [Purse.set, h]

variable {minds : Nat → Agent} {due : ℚ → Int → ℚ × Int} {h : Handle}

theorem payWages_unstimulated {n : Nat} (hzero : (minds n).totalStimulus = 0) (w : ℚ)
    (agents : List (Nat × ℚ)) (x : Int) (p : Purse) :
    payWages narrow minds due h ((n, w) :: agents) x p = payWages narrow minds due h agents x p :=
  if_pos hzero

theorem payWages_stimulated {n : Nat} (hstim : (minds n).totalStimulus ≠ 0) (w : ℚ)
    (agents : List (Nat × ℚ)) (x : Int) (p : Purse) :
    payWages narrow minds due h ((n, w) :: agents) x p = payWages narrow minds due h agents
      (pay narrow n (due w ((minds n).getAtomStimulus h)) x p).1
      (pay narrow n (due w ((minds n).getAtomStimulus h)) x p).2 :=
  if_neg hstim

theorem pay_noted (n : Nat) (d : ℚ × Int) (x : Int) (p : Purse) :
    p.noted <:+ (pay narrow n d x p).2.noted :=
  ((List.suffix_cons _ _).trans (List.suffix_cons _ _)).trans (List.suffix_cons _ _)

theorem pay_congr {n : Nat} {d : ℚ × Int} {x : Int} {p : Purse}
    (hnoted : ∀ v ∈ (pay narrow n d x p).2.noted, narrow v = narrow' v) :
    pay narrow n d x p = pay narrow' n d x p := by
  obtain ⟨hset, hnoted⟩ := List.forall_mem_cons.mp hnoted
  obtain ⟨hsum, hnoted⟩ := List.forall_mem_cons.mp hnoted
  obtain ⟨htrunc, -⟩ := List.forall_mem_cons.mp hnoted
  unfold pay
  simp only [htrunc] at hsum hset ⊢
  simp only [hsum] at hset ⊢
  rw [Purse.set_congr _ _ hset]

theorem payWages_noted (agents : List (Nat × ℚ)) (x : Int) (p : Purse) :
    p.noted <:+ (payWages narrow minds due h agents x p).2.noted := by
  induction agents generalizing x p with
  | nil => exact List.suffix_refl _
  | cons a agents ih =>
    by_cases hzero : (minds a.1).totalStimulus = 0
    · rw [payWages_unstimulated hzero]
      exact ih x p
    · rw [payWages_stimulated hzero]
      exact (pay_noted _ _ x p).trans (ih _ _)

/-- Two conversions that agree on the values noted give the same result. -/
theorem payWages_congr (agents : List (Nat × ℚ)) (x : Int) (p : Purse)
    (hnoted : ∀ v ∈ (payWages narrow minds due h agents x p).2.noted, narrow v = narrow' v) :
    payWages narrow minds due h agents x p = payWages narrow' minds due h agents x p := by
  induction agents generalizing x p with
  | nil => rfl
  | cons a agents ih =>
    by_cases hzero : (minds a.1).totalStimulus = 0
    · rw [payWages_unstimulated hzero] at hnoted
      rw [payWages_unstimulated hzero, payWages_unstimulated hzero]
      exact ih x p hnoted
    · rw [payWages_stimulated hzero] at hnoted
      have hpay := pay_congr fun v hv => hnoted v ((payWages_noted agents _ _).subset hv)
      rw [payWages_stimulated hzero, payWages_stimulated hzero, ih _ _ hnoted, hpay]

theorem updateAtom_noted (rent : Int → Int) (agents : List (Nat × ℚ)) (p : Purse) :
    p.noted <:+ (updateAtom narrow minds due rent agents p h).noted :=
  ((List.suffix_cons (-rent (p.holds (.atom h))) p.noted).trans
    (payWages_noted agents _ (p.note (-rent (p.holds (.atom h)))))).trans (List.suffix_cons _ _)

theorem updateAtom_congr {rent : Int → Int} {agents : List (Nat × ℚ)} {p : Purse}
    (hnoted : ∀ v ∈ (updateAtom narrow minds due rent agents p h).noted, narrow v = narrow' v) :
    updateAtom narrow minds due rent agents p h = updateAtom narrow' minds due rent agents p h := by
  obtain ⟨hlast, hnoted⟩ := List.forall_mem_cons.mp hnoted
  have hrent := hnoted (-rent (p.holds (.atom h)))
    ((payWages_noted agents _ (p.note (-rent (p.holds (.atom h))))).subset List.mem_cons_self)
  have hpay := payWages_congr agents _ _ hnoted
  simp only [hrent] at hpay hlast
  simp only [hpay] at hlast
  unfold updateAtom
  simp only [hrent, hpay]
  exact Purse.set_congr _ _ hlast

end Narrowing

/-! ## What is due, modulo the narrowing -/

/-- What the stimulated agents owe an atom. -/
def dues (minds : Nat → Agent) (due : ℚ → Int → ℚ × Int) (h : Handle) (agents : List (Nat × ℚ)) :
    List (Nat × Int) :=
  (agents.filter fun a => (minds a.1).totalStimulus ≠ 0).map fun a =>
    (a.1, truncate (due a.2 ((minds a.1).getAtomStimulus h)).1 *
      (due a.2 ((minds a.1).getAtomStimulus h)).2)

/-- What they are debited: each the sum of an amount and of all that is due up to it. -/
def debits : Int → List (Nat × Int) → List (Nat × Int)
  | _, [] => []
  | x, (n, d) :: ds => (n, x + d) :: debits (x + d) ds

/-- What one agent is debited in all. -/
def debitOf (n : Nat) (ds : List (Nat × Int)) : Int := ((ds.filter (·.1 = n)).map Prod.snd).sum

theorem debitOf_cons (n : Nat) (d : Nat × Int) (ds : List (Nat × Int)) :
    debitOf n (d :: ds) = (if d.1 = n then d.2 else 0) + debitOf n ds := by
  unfold debitOf
  rw [List.filter_cons]
  by_cases h : d.1 = n
  · simp [h]
  · simp [h]

theorem debitOf_of_notMem {n : Nat} {ds : List (Nat × Int)} (h : n ∉ ds.map Prod.fst) :
    debitOf n ds = 0 := by
  have hnil : ds.filter (·.1 = n) = [] := by
    rw [List.filter_eq_nil_iff]
    intro d hd he
    exact h (List.mem_map.mpr ⟨d, hd, of_decide_eq_true he⟩)
  rw [debitOf, hnil]
  rfl

theorem map_fst_debits (x : Int) (ds : List (Nat × Int)) :
    (debits x ds).map Prod.fst = ds.map Prod.fst := by
  induction ds generalizing x with
  | nil => rfl
  | cons d ds ih => rw [debits, List.map_cons, List.map_cons, ih]

theorem debitOf_of_mem {d : Nat × Int} {ds : List (Nat × Int)} (hnodup : (ds.map Prod.fst).Nodup)
    (hd : d ∈ ds) : debitOf d.1 ds = d.2 := by
  induction ds with
  | nil => cases hd
  | cons e ds ih =>
    rw [List.map_cons, List.nodup_cons] at hnodup
    rw [debitOf_cons]
    rcases List.mem_cons.mp hd with rfl | hd
    · rw [if_pos rfl, debitOf_of_notMem hnodup.1, add_zero]
    · have hne : e.1 ≠ d.1 := fun he => hnodup.1 (he ▸ List.mem_map_of_mem hd)
      rw [if_neg hne, zero_add, ih hnodup.2 hd]

theorem eq_of_debitOf {ds es : List (Nat × Int)} (hkeys : ds.map Prod.fst = es.map Prod.fst)
    (hnodup : (es.map Prod.fst).Nodup) (h : ∀ e ∈ es, debitOf e.1 ds = e.2) : ds = es := by
  induction es generalizing ds with
  | nil => exact List.map_eq_nil_iff.mp hkeys
  | cons e es ih =>
    cases ds with
    | nil => cases hkeys
    | cons d ds =>
      rw [List.map_cons, List.map_cons, List.cons.injEq] at hkeys
      rw [List.map_cons, List.nodup_cons] at hnodup
      obtain ⟨he, hes⟩ := List.forall_mem_cons.mp h
      have hfirst : debitOf e.1 ds = 0 := debitOf_of_notMem (hkeys.2 ▸ hnodup.1)
      rw [debitOf_cons, if_pos hkeys.1, hfirst, add_zero] at he
      rw [Prod.ext hkeys.1 he, ih hkeys.2 hnodup.2 fun e' he' => ?_]
      have hne : d.1 ≠ e'.1 := fun k =>
        hnodup.1 (hkeys.1 ▸ k ▸ List.mem_map_of_mem he')
      rw [← hes e' he', debitOf_cons, if_neg hne, zero_add]

/-- The debits are the dues only if they start from nothing and only the last is not zero. -/
theorem debits_eq_self_iff {x : Int} {ds : List (Nat × Int)} :
    debits x ds = ds ↔ ds = [] ∨ x = 0 ∧ ∀ d ∈ ds.dropLast, d.2 = 0 := by
  induction ds generalizing x with
  | nil => simp [debits]
  | cons d ds ih =>
    have hhead : debits x (d :: ds) = d :: ds ↔ x = 0 ∧ debits (x + d.2) ds = ds := by
      rw [debits, List.cons.injEq, Prod.ext_iff]
      simp
    rw [hhead]
    cases ds with
    | nil => simp [debits]
    | cons e ds =>
      rw [List.dropLast_cons_of_ne_nil (List.cons_ne_nil e ds), List.forall_mem_cons]
      constructor
      · rintro ⟨rfl, hrest⟩
        rw [zero_add] at hrest
        rcases ih.mp hrest with hnil | ⟨hd, hrest⟩
        · cases hnil
        · exact .inr ⟨rfl, hd, hrest⟩
      · rintro (hnil | ⟨rfl, hd, hrest⟩)
        · cases hnil
        · exact ⟨rfl, ih.mpr (.inr ⟨by rw [hd]; rfl, hrest⟩)⟩

section Modulo
variable {narrow : Int → Int} {m : Int} {minds : Nat → Agent} {due : ℚ → Int → ℚ × Int} {h : Handle}

theorem pay_modEq (hn : Narrowing narrow m) (n : Nat) (d : ℚ × Int) {x y : Int}
    (hxy : x ≡ y [ZMOD m]) (p : Purse) :
    (pay narrow n d x p).1 ≡ y + truncate d.1 * d.2 [ZMOD m] ∧
      (∀ g, (pay narrow n d x p).2.holds (.atom g) = p.holds (.atom g)) ∧
      (∀ k, (pay narrow n d x p).2.holds (.agent k) ≡
        p.holds (.agent k) - (if n = k then y + truncate d.1 * d.2 else 0) [ZMOD m]) ∧
      (pay narrow n d x p).2.funds ≡ p.funds + (y + truncate d.1 * d.2) [ZMOD m] := by
  have hsum : narrow (x + narrow (truncate d.1) * d.2) ≡ y + truncate d.1 * d.2 [ZMOD m] :=
    (hn.modEq _).trans (hxy.add ((hn.modEq _).mul_right _))
  have hleft : narrow (p.holds (.agent n) - narrow (x + narrow (truncate d.1) * d.2)) ≡
      p.holds (.agent n) - (y + truncate d.1 * d.2) [ZMOD m] :=
    (hn.modEq _).trans ((Int.ModEq.refl _).sub hsum)
  refine ⟨hsum, fun g => Purse.holds_set_of_ne _ _ _ _ (by simp), fun k => ?_, ?_⟩
  · by_cases hk : n = k
    · subst hk
      rw [if_pos rfl, pay, Purse.holds_set_self]
      exact hleft
    · rw [if_neg hk, sub_zero, pay, Purse.holds_set_of_ne _ _ _ _ (by simpa using Ne.symm hk)]
      exact Int.ModEq.refl _
  · have hfunds := ((Int.ModEq.refl (p.holds (.agent n))).sub hleft).add_left p.funds
    rw [sub_sub_cancel] at hfunds
    exact hfunds

/-- What the atom is given, and what the agents are debited for it. -/
theorem payWages_modEq (hn : Narrowing narrow m) (agents : List (Nat × ℚ)) {x y : Int}
    (hxy : x ≡ y [ZMOD m]) (p : Purse) :
    (payWages narrow minds due h agents x p).1 ≡
        y + ((dues minds due h agents).map Prod.snd).sum [ZMOD m] ∧
      (∀ g, (payWages narrow minds due h agents x p).2.holds (.atom g) = p.holds (.atom g)) ∧
      (∀ n, (payWages narrow minds due h agents x p).2.holds (.agent n) ≡
        p.holds (.agent n) - debitOf n (debits y (dues minds due h agents)) [ZMOD m]) ∧
      (payWages narrow minds due h agents x p).2.funds ≡
        p.funds + ((debits y (dues minds due h agents)).map Prod.snd).sum [ZMOD m] := by
  induction agents generalizing x y p with
  | nil => simpa [payWages, dues, debits, debitOf] using hxy
  | cons a agents ih =>
    by_cases hzero : (minds a.1).totalStimulus = 0
    · have hdues : dues minds due h (a :: agents) = dues minds due h agents := by
        simp [dues, hzero]
      rw [payWages_unstimulated hzero, hdues]
      exact ih hxy p
    · have hdues : dues minds due h (a :: agents) =
          (a.1, truncate (due a.2 ((minds a.1).getAtomStimulus h)).1 *
            (due a.2 ((minds a.1).getAtomStimulus h)).2) :: dues minds due h agents := by
        simp [dues, hzero]
      obtain ⟨hx, hatom, hagent, hfund⟩ :=
        pay_modEq hn a.1 (due a.2 ((minds a.1).getAtomStimulus h)) hxy p
      rw [payWages_stimulated hzero, hdues, debits]
      obtain ⟨hsum, hatoms, hagents, hfunds⟩ := ih hx
        (pay narrow a.1 (due a.2 ((minds a.1).getAtomStimulus h)) x p).2
      refine ⟨?_, fun g => (hatoms g).trans (hatom g), fun n => ?_, ?_⟩
      · rw [List.map_cons, List.sum_cons, ← add_assoc]
        exact hsum
      · rw [debitOf_cons, ← sub_sub]
        exact (hagents n).trans ((hagent n).sub_right _)
      · rw [List.map_cons, List.sum_cons, ← add_assoc]
        exact hfunds.trans (hfund.add_right _)

/-- One atom: it is given the dues less the rent, narrowed. -/
theorem updateAtom_modEq (hn : Narrowing narrow m) (rent : Int → Int) (agents : List (Nat × ℚ))
    (p : Purse) :
    (∀ g, (updateAtom narrow minds due rent agents p h).holds (.atom g) =
      if g = h then narrow (p.holds (.atom h) + ((dues minds due h agents).map Prod.snd).sum -
        rent (p.holds (.atom h))) else p.holds (.atom g)) ∧
      (∀ n, (updateAtom narrow minds due rent agents p h).holds (.agent n) ≡ p.holds (.agent n) -
        debitOf n (debits (-rent (p.holds (.atom h))) (dues minds due h agents)) [ZMOD m]) ∧
      (updateAtom narrow minds due rent agents p h).funds ≡ p.funds + rent (p.holds (.atom h)) -
        ((dues minds due h agents).map Prod.snd).sum +
        ((debits (-rent (p.holds (.atom h))) (dues minds due h agents)).map Prod.snd).sum [ZMOD m] := by
  obtain ⟨hsum, hatoms, hagents, hfunds⟩ := @payWages_modEq narrow m minds due h hn agents _ _
    (hn.modEq (-rent (p.holds (.atom h)))) (p.note (-rent (p.holds (.atom h))))
  have hstored : narrow (p.holds (.atom h) + (payWages narrow minds due h agents
      (narrow (-rent (p.holds (.atom h)))) (p.note (-rent (p.holds (.atom h))))).1) =
      narrow (p.holds (.atom h) + ((dues minds due h agents).map Prod.snd).sum -
        rent (p.holds (.atom h))) := by
    rw [add_sub_assoc, sub_eq_neg_add]
    exact hn.congr (hsum.add_left _)
  unfold updateAtom
  refine ⟨fun g => ?_, fun n => ?_, ?_⟩
  · by_cases hg : g = h
    · subst hg
      rw [Purse.holds_set_self, if_pos rfl]
      exact hstored
    · rw [Purse.holds_set_of_ne _ _ _ _ (by simpa using hg), hatoms, if_neg hg]
      rfl
  · rw [Purse.holds_set_of_ne _ _ _ _ (by simp)]
    exact hagents n
  · rw [Purse.funds_set, hatoms, hstored]
    have hstep := hfunds.add ((Int.ModEq.refl (p.holds (.atom h))).sub (hn.modEq
      (p.holds (.atom h) + ((dues minds due h agents).map Prod.snd).sum -
        rent (p.holds (.atom h)))))
    have heq : p.funds + ((debits (-rent (p.holds (.atom h))) (dues minds due h agents)).map
        Prod.snd).sum + (p.holds (.atom h) - (p.holds (.atom h) +
          ((dues minds due h agents).map Prod.snd).sum - rent (p.holds (.atom h)))) =
        p.funds + rent (p.holds (.atom h)) - ((dues minds due h agents).map Prod.snd).sum +
          ((debits (-rent (p.holds (.atom h))) (dues minds due h agents)).map Prod.snd).sum := by
      ring
    exact hstep.trans (heq ▸ Int.ModEq.refl _)

end Modulo

/-! ## Who pays -/

/-- The atom is given the dues less the rent, each agent pays what it owes, and the rent
goes to the funds. -/
structure PaysFairly (p p' : Purse) (h : Handle) (rent : Int) (owed : List (Nat × Int)) : Prop where
  atom : p'.holds (.atom h) = p.holds (.atom h) + (owed.map Prod.snd).sum - rent
  payers : ∀ d ∈ owed, p'.holds (.agent d.1) = p.holds (.agent d.1) - d.2
  others : ∀ n, n ∉ owed.map Prod.fst → p'.holds (.agent n) = p.holds (.agent n)
  funds : p'.funds = p.funds + rent

/-- No agent owes anything, or there is no rent and only the last one owes something. -/
def OnlyLastOwes (rent : Int) (owed : List (Nat × Int)) : Prop :=
  owed = [] ∨ rent = 0 ∧ ∀ d ∈ owed.dropLast, d.2 = 0

theorem dues_nodup {minds : Nat → Agent} {due : ℚ → Int → ℚ × Int} {h : Handle}
    {agents : List (Nat × ℚ)} (hn : (agents.map Prod.fst).Nodup) :
    ((dues minds due h agents).map Prod.fst).Nodup := by
  rw [dues, List.map_map]
  exact hn.sublist (List.filter_sublist.map _)

theorem updateAtom_paysFairly_iff {minds : Nat → Agent} {due : ℚ → Int → ℚ × Int}
    {rent : Int → Int} {agents : List (Nat × ℚ)} {p : Purse} {h : Handle}
    (hn : (agents.map Prod.fst).Nodup)
    (hfits : ∀ v ∈ (updateAtom toShort minds due rent agents p h).noted, Fits v) :
    PaysFairly p (updateAtom toShort minds due rent agents p h) h (rent (p.holds (.atom h)))
        (dues minds due h agents) ↔
      OnlyLastOwes (rent (p.holds (.atom h))) (dues minds due h agents) := by
  have hexact : updateAtom toShort minds due rent agents p h =
      updateAtom id minds due rent agents p h :=
    updateAtom_congr fun v hv => toShort_eq_self_iff.mpr (hfits v hv)
  rw [hexact]
  obtain ⟨hatoms, hagents, hfunds⟩ := @updateAtom_modEq id 0 minds due h .id rent agents p
  simp only [Int.modEq_zero_iff] at hagents hfunds
  set r := rent (p.holds (.atom h))
  set owed := dues minds due h agents
  have hnodup : (owed.map Prod.fst).Nodup := dues_nodup hn
  have hzero : -r = 0 ↔ r = 0 := by omega
  rw [OnlyLastOwes, ← hzero, ← debits_eq_self_iff]
  have hkeys := map_fst_debits (-r) owed
  constructor
  · intro hfair
    refine eq_of_debitOf hkeys hnodup fun d hd => ?_
    have hpaid := hagents d.1
    rw [hfair.payers d hd] at hpaid
    omega
  · intro hself
    rw [hself] at hagents hfunds
    refine ⟨?_, fun d hd => ?_, fun n hn => ?_, ?_⟩
    · rw [hatoms h, if_pos rfl, id_eq]
    · rw [hagents, debitOf_of_mem hnodup hd]
    · rw [hagents, debitOf_of_notMem hn]
      omega
    · rw [hfunds]
      omega

namespace ImportanceUpdatingAgent

/-- As long as nothing is narrowed, the agents that owe the wages pay them and the rent goes
to the funds exactly where at most the last stimulated agent owes something and, if one
does, no rent is charged. -/
theorem wagesPaid_iff {u : ImportanceUpdatingAgent} {libm : Libm} {l : Lobe} {agents : List Nat}
    (hn : agents.Nodup) {stiWages ltiWages : List ℚ} (hsti : stiWages.length = agents.length)
    (hlti : ltiWages.length = agents.length) {h : Handle}
    (hfitsSTI : ∀ v ∈ (u.updateAtomSTI toShort libm l (agents.zip stiWages) l.sti h).noted, Fits v)
    (hfitsLTI : ∀ v ∈ (u.updateAtomLTI toShort l (agents.zip ltiWages) l.lti h).noted, Fits v) :
    (PaysFairly l.sti (u.updateAtomSTI toShort libm l (agents.zip stiWages) l.sti h) h
          (u.calculateSTIRent libm l (l.sti.holds (.atom h)))
          (dues l.minds (stiDue u.stiAtomWage) h (agents.zip stiWages)) ∧
        PaysFairly l.lti (u.updateAtomLTI toShort l (agents.zip ltiWages) l.lti h) h u.ltiAtomRent
          (dues l.minds (ltiDue u.ltiAtomWage) h (agents.zip ltiWages))) ↔
      OnlyLastOwes (u.calculateSTIRent libm l (l.sti.holds (.atom h)))
          (dues l.minds (stiDue u.stiAtomWage) h (agents.zip stiWages)) ∧
        OnlyLastOwes u.ltiAtomRent (dues l.minds (ltiDue u.ltiAtomWage) h (agents.zip ltiWages)) := by
  have hkeys : ∀ wages : List ℚ, wages.length = agents.length →
      ((agents.zip wages).map Prod.fst).Nodup := by
    intro wages hlen
    rw [List.map_fst_zip hlen.ge]
    exact hn
  exact and_congr (updateAtom_paysFairly_iff (hkeys stiWages hsti) hfitsSTI)
    (updateAtom_paysFairly_iff (hkeys ltiWages hlti) hfitsLTI)

/-- One atom without importance, and agents of 200 each that gave it a stimulus of 5. -/
def stimulatedLobe (minds : Nat → Agent) : Lobe where
  sti := ⟨fun avh => if avh = .atom 1 then 0 else 200, 10000, []⟩
  lti := ⟨fun avh => if avh = .atom 1 then 0 else 200, 10000, []⟩
  attentionalFocusBoundary := 1
  maxSTI := ⟨0, 0, 1 / 2⟩
  minSTI := ⟨0, 0, 1 / 2⟩
  atoms := [1]
  atoms_nodup := by decide
  isNode _ := true
  minds := minds

def stimulating : Agent := ⟨5, fun h => if h = 1 then some 5 else none⟩

def noLibm : Libm := ⟨fun _ => 1, fun _ => 0⟩

def rentFree : ImportanceUpdatingAgent := { initial with ltiAtomRent := 0 }

/-- One agent, and no rent: it pays the wage of 10 in both kinds. -/
theorem wagesPaid_one_agent :
    PaysFairly (stimulatedLobe fun _ => stimulating).sti
        (rentFree.updateAtomSTI toShort noLibm (stimulatedLobe fun _ => stimulating) ([1].zip [2])
          (stimulatedLobe fun _ => stimulating).sti 1) 1
        (rentFree.calculateSTIRent noLibm (stimulatedLobe fun _ => stimulating)
          ((stimulatedLobe fun _ => stimulating).sti.holds (.atom 1)))
        (dues (stimulatedLobe fun _ => stimulating).minds (stiDue rentFree.stiAtomWage) 1
          ([1].zip [2])) ∧
      PaysFairly (stimulatedLobe fun _ => stimulating).lti
        (rentFree.updateAtomLTI toShort (stimulatedLobe fun _ => stimulating) ([1].zip [2])
          (stimulatedLobe fun _ => stimulating).lti 1) 1 rentFree.ltiAtomRent
        (dues (stimulatedLobe fun _ => stimulating).minds (ltiDue rentFree.ltiAtomWage) 1
          ([1].zip [2])) :=
  (@wagesPaid_iff rentFree noLibm (stimulatedLobe fun _ => stimulating) [1] (List.nodup_singleton 1)
    [2] [2] rfl rfl 1 (by decide +kernel) (by decide +kernel)).mpr
    ⟨.inr ⟨by decide +kernel, by decide +kernel⟩, .inr ⟨by decide +kernel, by decide +kernel⟩⟩

/-- Of two agents that owe 10 each the second is debited 20, with no value narrowed. -/
theorem not_wagesPaid :
    (∀ v ∈ (initial.updateAtomSTI toShort noLibm (stimulatedLobe fun _ => stimulating)
        ([1, 2].zip [2, 2]) (stimulatedLobe fun _ => stimulating).sti 1).noted, Fits v) ∧
      (∀ v ∈ (initial.updateAtomLTI toShort (stimulatedLobe fun _ => stimulating)
        ([1, 2].zip [2, 2]) (stimulatedLobe fun _ => stimulating).lti 1).noted, Fits v) ∧
      ¬ (PaysFairly (stimulatedLobe fun _ => stimulating).sti
          (initial.updateAtomSTI toShort noLibm (stimulatedLobe fun _ => stimulating)
            ([1, 2].zip [2, 2]) (stimulatedLobe fun _ => stimulating).sti 1) 1
          (initial.calculateSTIRent noLibm (stimulatedLobe fun _ => stimulating)
            ((stimulatedLobe fun _ => stimulating).sti.holds (.atom 1)))
          (dues (stimulatedLobe fun _ => stimulating).minds (stiDue initial.stiAtomWage) 1
            ([1, 2].zip [2, 2])) ∧
        PaysFairly (stimulatedLobe fun _ => stimulating).lti
          (initial.updateAtomLTI toShort (stimulatedLobe fun _ => stimulating)
            ([1, 2].zip [2, 2]) (stimulatedLobe fun _ => stimulating).lti 1) 1 initial.ltiAtomRent
          (dues (stimulatedLobe fun _ => stimulating).minds (ltiDue initial.ltiAtomWage) 1
            ([1, 2].zip [2, 2]))) := by
  refine ⟨by decide +kernel, by decide +kernel, fun h => ?_⟩
  have hsecond := h.1.payers (2, 10) (by decide +kernel)
  revert hsecond
  decide +kernel

end ImportanceUpdatingAgent

end OpenCog.Attention
