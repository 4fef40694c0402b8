import OpenCog.Attention.Overflow

/-! What atoms and agents hold when the funds are checked, said of the importance before the
run: for runs of shorts and for those of unbounded integers. -/
namespace OpenCog.Attention

/-! ## Values that are stored -/

/-- All that is held has gone through the conversion. -/
def Settled (narrow : Int → Int) (p : Purse) : Prop := ∀ avh, narrow (p.holds avh) = p.holds avh

section Settled
variable {narrow : Int → Int} {m : Int} {p : Purse}

theorem Settled.set (hn : Narrowing narrow m) (hp : Settled narrow p) (avh : Holder) (v : Int) :
    Settled narrow (p.set narrow avh v) := by
  intro avh'
  by_cases h : avh' = avh
  · subst h
    rw [Purse.holds_set_self, hn.idem]
  · rw [Purse.holds_set_of_ne _ _ _ _ h, hp]

theorem Settled.updateAgent (hn : Narrowing narrow m) (hp : Settled narrow p) (W : Int) (n : Nat) :
    Settled narrow (updateAgent narrow W p n) := by
  unfold Attention.updateAgent
  by_cases hc : p.holds (.agent n) < W * 100
  · simp only [hc, if_true]
    exact Settled.set hn (p := p.note _) hp _ _
  · simp only [hc, if_false]
    exact hp.set hn _ _

theorem Settled.calculateWages (hn : Narrowing narrow m) (hp : Settled narrow p)
    (minds : Nat → Agent) (W : Int) (agents : List Nat) :
    Settled narrow (calculateWages narrow minds W agents p).2 := by
  induction agents generalizing p with
  | nil => exact hp
  | cons n agents ih => exact ih (hp.updateAgent hn W n)

theorem Settled.payWages (hn : Narrowing narrow m) (hp : Settled narrow p) {minds : Nat → Agent}
    {due : ℚ → Int → ℚ × Int} {h : Handle} (wages : List (Nat × ℚ)) (x : Int) :
    Settled narrow (payWages narrow minds due h wages x p).2 := by
  induction wages generalizing x p with
  | nil => exact hp
  | cons a wages ih =>
    by_cases hzero : (minds a.1).totalStimulus = 0
    · rw [payWages_unstimulated hzero]
      exact ih hp x
    · rw [payWages_stimulated hzero]
      exact ih (Settled.set hn (p := (p.note _).note _) hp _ _) _

theorem Settled.updateAtom (hn : Narrowing narrow m) (hp : Settled narrow p) {minds : Nat → Agent}
    {due : ℚ → Int → ℚ × Int} {rent : Int → Int} (wages : List (Nat × ℚ)) (h : Handle) :
    Settled narrow (updateAtom narrow minds due rent wages p h) :=
  (Settled.payWages hn (p := p.note _) hp wages _).set hn _ _

theorem Settled.enforceCap (hn : Narrowing narrow m) (hp : Settled narrow p) (cap : Int)
    (h : Handle) : Settled narrow (enforceCap narrow cap p h) := by
  unfold Attention.enforceCap
  by_cases hhigh : cap < p.holds (.atom h)
  · simp only [hhigh, if_true]
    exact hp.set hn _ _
  · by_cases hlow : p.holds (.atom h) < -cap
    · simp only [hhigh, hlow, if_true, if_false]
      exact hp.set hn _ _
    · simp only [hhigh, hlow, if_false]
      exact hp

theorem Settled.start (hp : Settled narrow p) : Settled narrow (Purse.start p) := hp

end Settled

/-! ## Top-ups -/

/-- The agents are topped up. -/
def topUp (narrow : Int → Int) (W : Int) (agents : List Nat) (holds : Holder → Int) : Holder → Int
  | .atom h => holds (.atom h)
  | .agent n =>
    if n ∈ agents then narrow (max (holds (.agent n)) (W * 100)) else holds (.agent n)

section TopUp
variable {narrow : Int → Int} {m : Int} {p : Purse}

theorem updateAgent_holds (hn : Narrowing narrow m) (W : Int) (n : Nat) (p : Purse) :
    (updateAgent narrow W p n).holds =
      Function.update p.holds (.agent n) (narrow (max (p.holds (.agent n)) (W * 100))) := by
  unfold updateAgent
  by_cases hc : p.holds (.agent n) < W * 100
  · have htop : narrow (p.holds (.agent n) + narrow (W * 100 - p.holds (.agent n))) =
        narrow (W * 100) := by
      refine hn.congr (((hn.modEq _).add_left _).trans ?_)
      rw [add_sub_cancel]
    simp only [hc, if_true, Purse.set, Purse.holds_note, max_eq_right hc.le, htop]
  · simp only [hc, if_false, Purse.set, max_eq_left (not_lt.mp hc), add_zero]

/-- Agents that are topped up twice have what one top-up gives. -/
theorem topUp_idem (hn : Narrowing narrow m) {c W : Int} (hc : narrow c = c) :
    narrow (max (narrow (max c W)) W) = narrow (max c W) := by
  rcases le_total c W with hle | hle
  · rw [max_eq_right hle]
    rcases le_total (narrow W) W with hnarrow | hnarrow
    · rw [max_eq_right hnarrow]
    · rw [max_eq_left hnarrow, hn.idem]
  · rw [max_eq_left hle, hc, max_eq_left hle, hc]

theorem topUp_cons (hn : Narrowing narrow m) (W : Int) (n : Nat) (agents : List Nat)
    {holds : Holder → Int} (hc : narrow (holds (.agent n)) = holds (.agent n)) :
    topUp narrow W agents
        (Function.update holds (.agent n) (narrow (max (holds (.agent n)) (W * 100)))) =
      topUp narrow W (n :: agents) holds := by
  funext avh
  cases avh with
  | atom h => simp [topUp]
  | agent k =>
    by_cases hk : k = n
    · subst hk
      simp [topUp, topUp_idem hn hc]
    · simp [topUp, hk]

theorem calculateWages_holds (hn : Narrowing narrow m) (hp : Settled narrow p)
    (minds : Nat → Agent) (W : Int) (agents : List Nat) :
    (calculateWages narrow minds W agents p).2.holds = topUp narrow W agents p.holds := by
  induction agents generalizing p with
  | nil =>
    funext avh
    cases avh <;> simp [calculateWages, topUp]
  | cons n agents ih =>
    rw [calculateWages, ih (hp.updateAgent hn W n), updateAgent_holds hn, topUp_cons hn W n agents (hp _)]

theorem calculateWages_wages (hn : Narrowing narrow m) (hp : Settled narrow p)
    (minds : Nat → Agent) (W : Int) (agents : List Nat) :
    (calculateWages narrow minds W agents p).1 =
      agents.map fun n => if (minds n).totalStimulus = 0 then 0
        else (narrow (max (p.holds (.agent n)) (W * 100)) : ℚ) / (minds n).totalStimulus := by
  induction agents generalizing p with
  | nil => rfl
  | cons n agents ih =>
    rw [calculateWages, ih (hp.updateAgent hn W n), updateAgent_holds hn, List.map_cons]
    refine congrArg₂ List.cons ?_ (List.map_congr_left fun k _ => ?_)
    · rw [wageForAgent, updateAgent_holds hn, Function.update_self]
    · by_cases hk : k = n
      · subst hk
        rw [Function.update_self, topUp_idem hn (hp _)]
      · rw [Function.update_of_ne (by simpa using hk)]

end TopUp

/-! ## Wages, rent and caps -/

/-- The importance after `enforceCap`. -/
def clamp (cap v : Int) : Int := if cap < v then cap else if v < -cap then -cap else v

theorem enforceCap_holds {narrow : Int → Int} {m : Int} (hn : Narrowing narrow m) (p : Purse)
    (h : Handle) : (enforceCap narrow stiCap p h).holds =
      Function.update p.holds (.atom h) (clamp stiCap (p.holds (.atom h))) := by
  have hcap : narrow stiCap = stiCap := hn.fits (by decide)
  have hnegcap : narrow (-stiCap) = -stiCap := hn.fits (by decide)
  unfold enforceCap clamp
  by_cases hhigh : stiCap < p.holds (.atom h)
  · simp only [hhigh, if_true, Purse.set, hcap]
  · by_cases hlow : p.holds (.atom h) < -stiCap
    · simp only [hhigh, hlow, if_true, if_false, Purse.set, hnegcap]
    · simp only [hhigh, hlow, if_false, Function.update_eq_self]

theorem debitOf_append (n : Nat) (bills bills' : List (Nat × Int)) :
    debitOf n (bills ++ bills') = debitOf n bills + debitOf n bills' := by
  simp [debitOf]

namespace ImportanceUpdatingAgent
variable (u : ImportanceUpdatingAgent) (libm : Libm) (l : Lobe) (wages : List (Nat × ℚ))

/-- What the agents are debited for an atom of importance `c`. -/
def billsFor (c : Int) (h : Handle) : List (Nat × Int) :=
  debits (-u.calculateSTIRent libm l c) (dues l.minds (stiDue u.stiAtomWage) h wages)

/-- The importance of the atom after wages and rent. -/
def exchanged (c : Int) (h : Handle) : Int :=
  c + ((dues l.minds (stiDue u.stiAtomWage) h wages).map Prod.snd).sum -
    u.calculateSTIRent libm l c

variable {u libm l wages} {narrow : Int → Int} {m : Int} {p : Purse} {h : Handle}

theorem updateSTIOf_atom (hn : Narrowing narrow m) (g : Handle) :
    (u.updateSTIOf narrow libm l wages p h).holds (.atom g) =
      if g = h then clamp stiCap (narrow (u.exchanged libm l wages (p.holds (.atom h)) h))
      else p.holds (.atom g) := by
  obtain ⟨hatoms, -, -⟩ := @updateAtom_modEq narrow m l.minds (stiDue u.stiAtomWage) h hn
    (u.calculateSTIRent libm l) wages p
  rw [updateSTIOf, enforceCap_holds hn]
  by_cases hg : g = h
  · subst hg
    rw [Function.update_self, if_pos rfl, updateAtomSTI, hatoms, if_pos rfl, exchanged]
  · rw [Function.update_of_ne (by simpa using hg), if_neg hg, updateAtomSTI, hatoms, if_neg hg]

theorem updateSTIOf_agent (hn : Narrowing narrow m) (n : Nat) :
    (u.updateSTIOf narrow libm l wages p h).holds (.agent n) ≡
      p.holds (.agent n) - debitOf n (u.billsFor libm l wages (p.holds (.atom h)) h) [ZMOD m] := by
  obtain ⟨-, hagents, -⟩ := @updateAtom_modEq narrow m l.minds (stiDue u.stiAtomWage) h hn
    (u.calculateSTIRent libm l) wages p
  rw [updateSTIOf, enforceCap_holds hn, Function.update_of_ne (by simp)]
  exact hagents n

theorem updateSTIOf_later (hn : Narrowing narrow m) {h : Handle} {hs : List Handle} (hnot : h ∉ hs)
    {c : Handle → Int} (hc : ∀ g ∈ hs, p.holds (.atom g) = c g) :
    ∀ g ∈ hs, (u.updateSTIOf narrow libm l wages p h).holds (.atom g) = c g := by
  intro g hg
  have hne : g ≠ h := fun hgh => hnot (hgh ▸ hg)
  rw [updateSTIOf_atom hn, if_neg hne, hc g hg]

/-- All atoms, each updated from the importance it had at first. -/
theorem updateAtoms_modEq (hn : Narrowing narrow m) {hs : List Handle} (hnodup : hs.Nodup)
    {c : Handle → Int} (hc : ∀ h ∈ hs, p.holds (.atom h) = c h) :
    (∀ g, (hs.foldl (u.updateSTIOf narrow libm l wages) p).holds (.atom g) =
        if g ∈ hs then clamp stiCap (narrow (u.exchanged libm l wages (c g) g))
        else p.holds (.atom g)) ∧
      ∀ n, (hs.foldl (u.updateSTIOf narrow libm l wages) p).holds (.agent n) ≡ p.holds (.agent n) -
        debitOf n (hs.flatMap fun h => u.billsFor libm l wages (c h) h) [ZMOD m] := by
  induction hs generalizing p with
  | nil => simp [debitOf]
  | cons h hs ih =>
    obtain ⟨hnot, hnodup⟩ := List.nodup_cons.mp hnodup
    obtain ⟨hfirst, hrest⟩ := List.forall_mem_cons.mp hc
    obtain ⟨hatoms, hagents⟩ := ih hnodup (updateSTIOf_later hn hnot hrest)
    refine ⟨fun g => ?_, fun n => ?_⟩
    · rw [List.foldl_cons, hatoms, updateSTIOf_atom hn, hfirst]
      by_cases hg : g = h
      · subst hg
        simp [hnot]
      · simp [hg]
    · have hbilled := (@updateSTIOf_agent u libm l wages narrow m p h hn n).sub_right
        (debitOf n (hs.flatMap fun h => u.billsFor libm l wages (c h) h))
      rw [List.foldl_cons, List.flatMap_cons, debitOf_append, ← sub_sub, ← hfirst]
      exact (hagents n).trans hbilled

end ImportanceUpdatingAgent

/-! ## Nothing is created or lost -/

/-- The funds and what the holders have. -/
def Purse.total (holders : Finset Holder) (p : Purse) : Int :=
  p.funds + ∑ avh ∈ holders, p.holds avh

section Total
variable {narrow : Int → Int} {holders : Finset Holder} {p : Purse}

theorem total_note (v : Int) : (p.note v).total holders = p.total holders := rfl

theorem total_set {avh : Holder} (h : avh ∈ holders) (v : Int) :
    (p.set narrow avh v).total holders = p.total holders := by
  have hsum := Finset.sum_update_of_mem h p.holds (narrow v)
  have hold := Finset.sum_sdiff (f := p.holds) (Finset.singleton_subset_iff.mpr h)
  rw [Finset.sum_singleton] at hold
  simp only [Purse.total, Purse.set, hsum]
  omega

theorem total_updateAgent {W : Int} {n : Nat} (h : Holder.agent n ∈ holders) :
    (updateAgent narrow W p n).total holders = p.total holders := by
  unfold updateAgent
  by_cases hc : p.holds (.agent n) < W * 100
  · simp only [hc, if_true, total_set h, total_note]
  · simp only [hc, if_false, total_set h]

theorem total_calculateWages {minds : Nat → Agent} {W : Int} {agents : List Nat}
    (h : ∀ n ∈ agents, Holder.agent n ∈ holders) :
    (calculateWages narrow minds W agents p).2.total holders = p.total holders := by
  induction agents generalizing p with
  | nil => rfl
  | cons n agents ih =>
    obtain ⟨hn, hrest⟩ := List.forall_mem_cons.mp h
    rw [calculateWages, ih hrest, total_updateAgent hn]

theorem total_payWages {minds : Nat → Agent} {due : ℚ → Int → ℚ × Int} {g : Handle}
    {wages : List (Nat × ℚ)} {x : Int} (h : ∀ a ∈ wages, Holder.agent a.1 ∈ holders) :
    (payWages narrow minds due g wages x p).2.total holders = p.total holders := by
  induction wages generalizing x p with
  | nil => rfl
  | cons a wages ih =>
    obtain ⟨ha, hrest⟩ := List.forall_mem_cons.mp h
    by_cases hzero : (minds a.1).totalStimulus = 0
    · rw [payWages_unstimulated hzero, ih hrest]
    · rw [payWages_stimulated hzero, ih hrest, pay, total_set ha, total_note, total_note]

theorem total_enforceCap {cap : Int} {g : Handle} (h : Holder.atom g ∈ holders) :
    (enforceCap narrow cap p g).total holders = p.total holders := by
  unfold enforceCap
  by_cases hhigh : cap < p.holds (.atom g)
  · simp only [hhigh, if_true, total_set h]
  · by_cases hlow : p.holds (.atom g) < -cap
    · simp only [hhigh, hlow, if_true, if_false, total_set h]
    · simp only [hhigh, hlow, if_false]

namespace ImportanceUpdatingAgent
variable {u : ImportanceUpdatingAgent} {libm : Libm} {l : Lobe}

theorem total_updateSTIOf {wages : List (Nat × ℚ)} {g : Handle}
    (hagents : ∀ a ∈ wages, Holder.agent a.1 ∈ holders) (hg : Holder.atom g ∈ holders) :
    (u.updateSTIOf narrow libm l wages p g).total holders = p.total holders := by
  rw [updateSTIOf, total_enforceCap hg, updateAtomSTI, updateAtom, total_set hg,
    total_payWages hagents, total_note]

/-- Wages, rent and caps move importance between the funds, the agents and the atoms, and
values that are narrowed are no exception. -/
theorem total_stiBeforeTax {agents : List Nat} (hagents : ∀ n ∈ agents, Holder.agent n ∈ holders)
    (hatoms : ∀ g ∈ u.getHandlesToUpdate l, Holder.atom g ∈ holders) :
    (u.stiBeforeTax narrow libm l agents p).total holders = p.total holders := by
  have hwages := @total_calculateWages narrow holders p l.minds u.stiAtomWage agents hagents
  have hpayers : ∀ a ∈ agents.zip (calculateWages narrow l.minds u.stiAtomWage agents p).1,
      Holder.agent a.1 ∈ holders := fun a ha => hagents _ (List.of_mem_zip ha).1
  refine List.foldlRecOn (motive := fun q : Purse => q.total holders = p.total holders) _ _ hwages ?_
  intro q hq g hg
  rw [total_updateSTIOf hpayers (hatoms g hg), hq]

end ImportanceUpdatingAgent

end Total

/-! ## When the funds are checked -/

namespace ImportanceUpdatingAgent
variable (narrow : Int → Int) (u : ImportanceUpdatingAgent) (libm : Libm) (l : Lobe)
  (agents : List Nat)

/-- What an agent holds when the wages are calculated. -/
def balance (n : Nat) : Int := topUp narrow u.stiAtomWage agents l.sti.holds (.agent n)

/-- The agents with the wages they pay. -/
def payers : List (Nat × ℚ) :=
  agents.map fun n => (n, if (l.minds n).totalStimulus = 0 then 0
    else (balance narrow u l agents n : ℚ) / (l.minds n).totalStimulus)

def bills : List (Nat × Int) := (u.getHandlesToUpdate l).flatMap fun h =>
  u.billsFor libm l (payers narrow u l agents) (l.sti.holds (.atom h)) h

/-- The importance of an atom after wages and rent. -/
def exchangedOf (h : Handle) : Int :=
  u.exchanged libm l (payers narrow u l agents) (l.sti.holds (.atom h)) h

/-- What atoms and agents hold when the funds are checked. -/
def heldAtCheck : Holder → Int
  | .atom h => clamp stiCap (narrow (exchangedOf narrow u libm l agents h))
  | .agent n => narrow (balance narrow u l agents n - debitOf n (bills narrow u libm l agents))

def holders : Finset Holder :=
  (agents.map Holder.agent ++ (u.getHandlesToUpdate l).map Holder.atom).toFinset

/-- The funds that are checked. -/
def fundsAtCheck : Int :=
  l.sti.funds + ∑ avh ∈ u.holders l agents, (l.sti.holds avh - heldAtCheck narrow u libm l agents avh)

variable {narrow u libm l agents} {m : Int}

theorem nodup_handles : (u.getHandlesToUpdate l).Nodup := by
  unfold getHandlesToUpdate
  split
  · exact l.atoms_nodup
  · exact l.atoms_nodup.filter _

theorem balance_of_mem {n : Nat} (h : n ∈ agents) : balance narrow u l agents n =
    narrow (max (l.sti.holds (.agent n)) (u.stiAtomWage * 100)) := if_pos h

section Stored
variable (hn : Narrowing narrow m) (hp : Settled narrow l.sti)
include hn hp

theorem zip_wages : agents.zip (calculateWages narrow l.minds u.stiAtomWage agents
    (Purse.start l.sti)).1 = payers narrow u l agents := by
  have hzip := @List.zip_map' Nat Nat ℚ id (fun n => if (l.minds n).totalStimulus = 0 then (0 : ℚ)
    else (narrow (max (l.sti.holds (.agent n)) (u.stiAtomWage * 100)) : ℚ) /
      (l.minds n).totalStimulus) agents
  rw [List.map_id] at hzip
  rw [calculateWages_wages hn hp.start]
  refine hzip.trans (List.map_congr_left fun n hmem => ?_)
  rw [balance_of_mem hmem]
  rfl

theorem stiBeforeTax_eq : u.stiBeforeTax narrow libm l agents (Purse.start l.sti) =
    (u.getHandlesToUpdate l).foldl (u.updateSTIOf narrow libm l (payers narrow u l agents))
      (calculateWages narrow l.minds u.stiAtomWage agents (Purse.start l.sti)).2 := by
  rw [stiBeforeTax, ← zip_wages hn hp]

theorem settled_stiBeforeTax :
    Settled narrow (u.stiBeforeTax narrow libm l agents (Purse.start l.sti)) := by
  refine List.foldlRecOn (motive := fun q : Purse => Settled narrow q) _ _
    (hp.start.calculateWages hn _ _ _) fun q hq g _ => ?_
  exact (hq.updateAtom hn _ g).enforceCap hn stiCap g

theorem stiBeforeTax_atom {h : Handle} (hh : h ∈ u.getHandlesToUpdate l) :
    (u.stiBeforeTax narrow libm l agents (Purse.start l.sti)).holds (.atom h) =
      heldAtCheck narrow u libm l agents (.atom h) := by
  obtain ⟨hatoms, -⟩ := @updateAtoms_modEq u libm l (payers narrow u l agents) narrow m
    (calculateWages narrow l.minds u.stiAtomWage agents (Purse.start l.sti)).2 hn _ nodup_handles
    (fun h => l.sti.holds (.atom h)) (fun h _ => by rw [calculateWages_holds hn hp.start]; rfl)
  rw [stiBeforeTax_eq hn hp, hatoms, if_pos hh]
  rfl

theorem stiBeforeTax_agent (n : Nat) :
    (u.stiBeforeTax narrow libm l agents (Purse.start l.sti)).holds (.agent n) =
      heldAtCheck narrow u libm l agents (.agent n) := by
  obtain ⟨-, hagents⟩ := @updateAtoms_modEq u libm l (payers narrow u l agents) narrow m
    (calculateWages narrow l.minds u.stiAtomWage agents (Purse.start l.sti)).2 hn _ nodup_handles
    (fun h => l.sti.holds (.atom h)) (fun h _ => by rw [calculateWages_holds hn hp.start]; rfl)
  rw [← settled_stiBeforeTax hn hp, stiBeforeTax_eq hn hp, hn.congr (hagents n),
    calculateWages_holds hn hp.start]
  rfl

theorem stiBeforeTax_funds :
    (u.stiBeforeTax narrow libm l agents (Purse.start l.sti)).funds =
      fundsAtCheck narrow u libm l agents := by
  have htotal := @total_stiBeforeTax narrow (u.holders l agents) (Purse.start l.sti) u libm l agents
    (fun n hmem => by simp [holders, hmem]) (fun g hg => by simp [holders, hg])
  have hheld : ∀ avh ∈ u.holders l agents,
      (u.stiBeforeTax narrow libm l agents (Purse.start l.sti)).holds avh =
        heldAtCheck narrow u libm l agents avh := by
    intro avh havh
    cases avh with
    | atom h => exact stiBeforeTax_atom hn hp (by simpa [holders] using havh)
    | agent n => exact stiBeforeTax_agent hn hp n
  rw [Purse.total, Purse.total, Finset.sum_congr rfl hheld] at htotal
  rw [fundsAtCheck, Finset.sum_sub_distrib, ← add_sub_assoc]
  exact eq_sub_of_add_eq htotal

end Stored

end ImportanceUpdatingAgent

end OpenCog.Attention
