import OpenCog.Query.Grounding

/-! What `tree_compare` does: it touches the variable groundings alone, a success
is a match under the groundings it leaves, and it succeeds on every instance. -/
namespace OpenCog

open Backtrack (Outcome foreach foreachPair foreachPair_cons)

/-- The callback compares as the default one does, and accepts the absence of an
optional clause. -/
structure DefaultMatching (G : AtomGraph)
    (restrictions : DefaultPatternMatchCB.VariableTypeMap) (cb : PatternMatchCallback) : Prop where
  node : cb.nodeMatch = DefaultPatternMatchCB.nodeMatch
  var : cb.variableMatch = DefaultPatternMatchCB.variableMatch G restrictions
  link : cb.linkMatch = DefaultPatternMatchCB.linkMatch G
  absent : ∀ h, cb.optionalClauseMatch h none = false

theorem DefaultPatternMatchCB.defaultMatching (G : AtomGraph) (restrictions : VariableTypeMap)
    (solution : List Solution → Solution → Bool) :
    DefaultMatching G restrictions (callback G restrictions solution) :=
  ⟨rfl, rfl, rfl, fun _ => rfl⟩

namespace Search

/-- Only the variable groundings and their stack may differ. -/
def OnlyVars (s s' : Search) : Prop :=
  s' = { s with varGrounding := s'.varGrounding, varSolutnStack := s'.varSolutnStack }

theorem OnlyVars.refl (s : Search) : OnlyVars s s := rfl

theorem OnlyVars.trans {s s₁ s₂ : Search} (h₁ : OnlyVars s s₁) (h₂ : OnlyVars s₁ s₂) :
    OnlyVars s s₂ := by
  unfold OnlyVars at *
  rw [h₂, h₁]

@[simp] theorem ground_self (s : Search) (hp hg : Handle) :
    (s.ground hp hg).varGrounding hp = some hg := Function.update_self ..

theorem onlyVars_ground (s : Search) (hp hg : Handle) : OnlyVars s (s.ground hp hg) := rfl
theorem onlyVars_pushVars (s : Search) : OnlyVars s s.pushVars := rfl
theorem onlyVars_popVars (s : Search) : OnlyVars s s.popVars := rfl
theorem onlyVars_popTopVars (s : Search) : OnlyVars s s.popTopVars := rfl

end Search

namespace PatternMatchEngine

variable {G : AtomGraph} {cb : PatternMatchCallback} {p : Pattern}

/-! ## What it touches -/

/-- The groundings alone, and the stack is as before unless the call was cut
short. -/
def Framed (s : Search) (r : Search × Outcome) : Prop :=
  s.OnlyVars r.1 ∧ (r.2 = .no ∨ r.2 = .yes → r.1.varSolutnStack = s.varSolutnStack)

theorem Framed.refl (s : Search) (o : Outcome) : Framed s (s, o) := ⟨.refl s, fun _ => rfl⟩

theorem framed_ground (s : Search) (hp hg : Handle) (o : Outcome) : Framed s (s.ground hp hg, o) :=
  ⟨rfl, fun _ => rfl⟩

theorem framed_closeLinks {s : Search} {r : Search × Outcome} (hp hg : Handle)
    (h : Framed s.pushVars r) : Framed s (closeLinks hp hg r) := by
  obtain ⟨s₁, o⟩ := r
  obtain ⟨honly, hstack⟩ := h
  cases o with
  | no => exact ⟨s.onlyVars_pushVars.trans (honly.trans rfl),
      fun _ => congrArg List.tail (hstack (.inl rfl))⟩
  | yes => exact ⟨s.onlyVars_pushVars.trans (honly.trans rfl),
      fun _ => congrArg List.tail (hstack (.inr rfl))⟩
  | crashed => exact ⟨s.onlyVars_pushVars.trans honly, by simp [closeLinks]⟩
  | spent => exact ⟨s.onlyVars_pushVars.trans honly, by simp [closeLinks]⟩

theorem framed_foreachPair {f : Handle → Handle → Search → Search × Outcome}
    (hf : ∀ a b s, Framed s (f a b s)) (as bs : List Handle) (s : Search) :
    Framed s (foreachPair f as bs s) := by
  induction as generalizing bs s with
  | nil => cases bs <;> exact .refl s _
  | cons a as ih =>
    cases bs with
    | nil => exact .refl s _
    | cons b bs =>
      rw [foreachPair_cons]
      by_cases hn : (f a b s).2 = .no
      · rw [if_pos hn]
        obtain ⟨honly, hstack⟩ := ih bs (f a b s).1
        exact ⟨(hf a b s).1.trans honly, fun e => (hstack e).trans ((hf a b s).2 (.inl hn))⟩
      · rw [if_neg hn]
        exact hf a b s

theorem framed_compareVariable (hp hg : Handle) (s : Search) :
    Framed s (compareVariable G cb p hp hg s) := by
  unfold compareVariable
  split
  · exact .refl s _
  · split
    · exact .refl s _
    · split
      · exact framed_ground s hp hg _
      · exact .refl s _

theorem framed_treeCompare (n : Nat) (hp hg : Handle) (s : Search) :
    Framed s (treeCompare G cb p n hp hg s) := by
  induction n generalizing hp hg s with
  | zero => exact .refl s _
  | succ n ih =>
    unfold treeCompare
    split
    · split
      · exact framed_compareVariable hp hg s
      · split
        · exact framed_ground s hp hg _
        · split
          · split
            · exact .refl s _
            · exact framed_closeLinks hp hg (framed_foreachPair ih _ _ _)
          · split
            · exact .refl s _
            · exact framed_ground s hp hg _
          · exact .refl s _
    · exact .refl s _

/-! ## A success is a match -/

theorem compareVariable_no {hp hg : Handle} {s s' : Search}
    (h : compareVariable G cb p hp hg s = (s', .no)) :
    hg ∉ p.boundVars ∧ (s.varGrounding hp = some hg ∧ s' = s ∨
      s.varGrounding hp = none ∧ G.isNode hp = true ∧ G.isNode hg = true ∧
        cb.variableMatch hp hg = false ∧ s' = s.ground hp hg) := by
  unfold compareVariable at h
  split at h
  · simp at h
  · rename_i hb
    refine ⟨hb, ?_⟩
    split at h
    · rename_i gnd hgnd
      split at h
      · rename_i e
        exact .inl ⟨by rw [hgnd, e], by simpa using h.symm⟩
      · simp at h
    · rename_i hnone
      split at h
      · rename_i hall
        simp only [Bool.and_eq_true, Bool.not_eq_true'] at hall
        exact .inr ⟨hnone, hall.1.1, hall.1.2, hall.2, by simpa using h.symm⟩
      · simp at h

theorem closeLinks_no {hp hg : Handle} {r : Search × Outcome} {s' : Search}
    (h : closeLinks hp hg r = (s', .no)) :
    ∃ s₁, r = (s₁, .no) ∧ s' = (s₁.ground hp hg).popVars := by
  obtain ⟨s₁, o⟩ := r
  cases o with
  | no => exact ⟨s₁, rfl, (congrArg Prod.fst h).symm⟩
  | yes => cases congrArg Prod.snd h
  | crashed => cases congrArg Prod.snd h
  | spent => cases congrArg Prod.snd h

/-- The ways a comparison can succeed. -/
theorem treeCompare_no {n : Nat} {hp hg : Handle} {s s' : Search}
    (h : treeCompare G cb p (n + 1) hp hg s = (s', .no)) :
    (G.atom hp).isSome ∧ (G.atom hg).isSome ∧
    (hp ∈ p.boundVars ∧ compareVariable G cb p hp hg s = (s', .no) ∨
      hp ∉ p.boundVars ∧ hp = hg ∧ s' = s.ground hp hg ∨
      hp ∉ p.boundVars ∧ (∃ tp tg op og s₁, G.atom hp = some (tp, .link op) ∧
        G.atom hg = some (tg, .link og) ∧ cb.linkMatch hp hg = false ∧
        foreachPair (treeCompare G cb p n) op og s.pushVars = (s₁, .no) ∧
        s' = (s₁.ground hp hg).popVars) ∨
      hp ∉ p.boundVars ∧ G.isNode hp = true ∧ cb.nodeMatch hp hg = false ∧
        s' = s.ground hp hg) := by
  unfold treeCompare at h
  split at h
  · rename_i tp bp tg bg ep eg
    refine ⟨by rw [ep]; rfl, by rw [eg]; rfl, ?_⟩
    split at h
    · rename_i hb
      exact .inl ⟨hb, h⟩
    · rename_i hb
      split at h
      · rename_i e
        exact .inr (.inl ⟨hb, e.1, (congrArg Prod.fst h).symm⟩)
      · split at h
        · split at h
          · simp at h
          · rename_i hl
            obtain ⟨s₁, hs₁, e⟩ := closeLinks_no h
            exact .inr (.inr (.inl ⟨hb, tp, tg, _, _, s₁, ep, eg, by simpa using hl, hs₁, e⟩))
        · split at h
          · simp at h
          · rename_i hn
            exact .inr (.inr (.inr ⟨hb, AtomGraph.isNode_of_atom ep, by simpa using hn,
              (congrArg Prod.fst h).symm⟩))
        · simp at h
  · simp at h

/-- Groundings of bound variables stay, and every record stays a record. -/
structure Grown (G : AtomGraph) (p : Pattern) (vm : Handle → Handle → Bool) (V V' : SolnMap) :
    Prop where
  kept : ∀ x ∈ p.boundVars, ∀ g, V x = some g → V' x = some g
  recorded : ∀ a, V a ≠ none → V' a ≠ none
  admissible : Admissible G p.boundVars vm V → Admissible G p.boundVars vm V'

section Grown
variable {vm : Handle → Handle → Bool} {V V₁ V₂ : SolnMap} {hp hg : Handle}

theorem Grown.refl (V : SolnMap) : Grown G p vm V V := ⟨fun _ _ _ h => h, fun _ h => h, id⟩

theorem Grown.trans (h₁ : Grown G p vm V V₁) (h₂ : Grown G p vm V₁ V₂) : Grown G p vm V V₂ :=
  ⟨fun x hx g h => h₂.kept x hx g (h₁.kept x hx g h), fun a h => h₂.recorded a (h₁.recorded a h),
    h₂.admissible ∘ h₁.admissible⟩

theorem Grown.update_atom (hb : hp ∉ p.boundVars) :
    Grown G p vm V (Function.update V hp (some hg)) := by
  have hother : ∀ x ∈ p.boundVars, Function.update V hp (some hg) x = V x := by
    intro x hx
    exact Function.update_of_ne (fun e : x = hp => hb (e ▸ hx)) _ _
  refine ⟨fun x hx g h => (hother x hx).trans h, fun a h => ?_, fun ha x hx g h => ?_⟩
  · by_cases e : a = hp
    · rw [e, Function.update_self]
      exact Option.some_ne_none _
    · rw [Function.update_of_ne e]
      exact h
  · rw [hother x hx] at h
    exact ha x hx g h

theorem Grown.update_variable (hnone : V hp = none) (hnp : G.isNode hp = true)
    (hng : G.isNode hg = true) (hnb : hg ∉ p.boundVars) (hvm : vm hp hg = false) :
    Grown G p vm V (Function.update V hp (some hg)) := by
  have hother : ∀ x, V x ≠ none → Function.update V hp (some hg) x = V x := by
    intro x hx
    exact Function.update_of_ne (fun e : x = hp => hx (e ▸ hnone)) _ _
  refine ⟨fun x _ g h => (hother x (by simp [h])).trans h, fun a h => by rwa [hother a h], ?_⟩
  intro ha x hx g h
  by_cases e : x = hp
  · subst e
    rw [Function.update_self, Option.some.injEq] at h
    exact h ▸ ⟨hnp, hng, hnb, hvm⟩
  · rw [Function.update_of_ne e] at h
    exact ha x hx g h

end Grown

/-- What a success leaves behind. -/
structure Compared (G : AtomGraph) (p : Pattern) (vm : Handle → Handle → Bool) (hp hg : Handle)
    (V V' : SolnMap) : Prop where
  grown : Grown G p vm V V'
  found : Matches G p.boundVars V' hp hg
  visited : ¬ Frozen G p.boundVars hp hg → ∀ a, Visited G p.boundVars hp a → V' a ≠ none

theorem Compared.mono {vm : Handle → Handle → Bool} {hp hg : Handle} {V V₁ V₂ : SolnMap}
    (h : Compared G p vm hp hg V V₁) (hg' : Grown G p vm V₁ V₂) : Compared G p vm hp hg V V₂ :=
  ⟨h.grown.trans hg', h.found.mono hg'.kept, fun hf a ha => hg'.recorded a (h.visited hf a ha)⟩

theorem foreachPair_compared {vm : Handle → Handle → Bool}
    {f : Handle → Handle → Search → Search × Outcome}
    (hf : ∀ a b s s', f a b s = (s', .no) → Compared G p vm a b s.varGrounding s'.varGrounding)
    {as bs : List Handle} {s s' : Search} (h : foreachPair f as bs s = (s', .no)) :
    as.length = bs.length ∧ Grown G p vm s.varGrounding s'.varGrounding ∧
      ∀ a b, (a, b) ∈ as.zip bs → Compared G p vm a b s.varGrounding s'.varGrounding := by
  induction as generalizing bs s with
  | nil =>
    cases bs with
    | nil =>
      obtain rfl : s = s' := congrArg Prod.fst h
      exact ⟨rfl, .refl _, by simp⟩
    | cons b bs => cases congrArg Prod.snd h
  | cons a as ih =>
    cases bs with
    | nil => cases congrArg Prod.snd h
    | cons b bs =>
      rw [foreachPair_cons] at h
      by_cases hn : (f a b s).2 = .no
      · rw [if_pos hn] at h
        have hfirst := hf a b s (f a b s).1 (Prod.ext rfl hn)
        obtain ⟨hlen, hgrown, hall⟩ := ih h
        refine ⟨by simp [hlen], hfirst.grown.trans hgrown, fun x y hxy => ?_⟩
        rw [List.zip_cons_cons] at hxy
        rcases List.mem_cons.mp hxy with e | hxy
        · obtain ⟨rfl, rfl⟩ := Prod.mk.injEq .. ▸ e
          exact hfirst.mono hgrown
        · obtain ⟨hg, hm, hv⟩ := hall x y hxy
          exact ⟨hfirst.grown.trans hg, hm, hv⟩
      · rw [if_neg hn] at h
        exact absurd (congrArg Prod.snd h) hn

theorem typeOf_eq_of_linkMatch {hp hg : Handle}
    (h : DefaultPatternMatchCB.linkMatch G hp hg = false) : G.typeOf hp = G.typeOf hg := by
  unfold DefaultPatternMatchCB.linkMatch at h
  split at h
  · rename_i e
    rw [e]
  · split at h
    · cases h
    · simpa using h

theorem compared_same {vm : Handle → Handle → Bool} {h : Handle} (hb : h ∉ p.boundVars)
    (hs : (G.atom h).isSome) (V : SolnMap) :
    Compared G p vm h h V (Function.update V h (some h)) := by
  refine ⟨.update_atom hb, .same hb hs, fun hf a ha => ?_⟩
  have hnovar : ¬ HasVar G p.boundVars h := by
    rcases AtomGraph.node_or_link hs with ⟨t, m, e⟩ | ⟨t, o, e⟩
    · exact not_hasVar_of_node hb (AtomGraph.isNode_of_atom e)
    · exact fun hv => hf (.same hb (AtomGraph.isLink_of_atom e) hv)
  rw [ha.eq_self (.inr hnovar), Function.update_self]
  exact Option.some_ne_none _

theorem treeCompare_compared {restrictions : DefaultPatternMatchCB.VariableTypeMap}
    (hd : DefaultMatching G restrictions cb) {n : Nat} {hp hg : Handle} {s s' : Search}
    (h : treeCompare G cb p n hp hg s = (s', .no)) :
    Compared G p cb.variableMatch hp hg s.varGrounding s'.varGrounding := by
  induction n generalizing hp hg s s' with
  | zero => cases congrArg Prod.snd h
  | succ n ih =>
    obtain ⟨hsp, hsg, ⟨hb, h⟩ | ⟨hb, rfl, rfl⟩ | ⟨hb, tp, tg, op, og, s₁, ep, eg, hl, hs₁, rfl⟩ |
      ⟨hb, hnode, hmatch, rfl⟩⟩ := treeCompare_no h
    · obtain ⟨hnb, ⟨hgnd, rfl⟩ | ⟨hnone, hnp, hng, hvm, rfl⟩⟩ := compareVariable_no h
      · refine ⟨.refl _, .var hb hgnd, fun _ a ha => ?_⟩
        simp [ha.eq_self (.inl hb), hgnd]
      · refine ⟨.update_variable hnone hnp hng hnb hvm, .var hb (Search.ground_self ..),
          fun _ a ha => ?_⟩
        simp [ha.eq_self (.inl hb)]
    · exact compared_same hb hsp _
    · obtain ⟨hlen, hgrown, hall⟩ := foreachPair_compared (fun a b s s' => ih) hs₁
      have hup : Grown G p cb.variableMatch s₁.varGrounding
          (Function.update s₁.varGrounding hp (some hg)) := .update_atom hb
      obtain rfl : tp = tg := by
        rw [hd.link] at hl
        have := typeOf_eq_of_linkMatch hl
        simpa [AtomGraph.typeOf, ep, eg] using this
      refine ⟨hgrown.trans hup, .link hb ep eg hlen fun x y hxy => ((hall x y hxy).mono hup).found,
        fun hf a ha => ?_⟩
      cases ha with
      | self => simp [Search.popVars]
      | member _ _ hx hvis =>
        rw [AtomGraph.outgoing_of_atom ep] at hx
        obtain ⟨y, hxy⟩ := exists_zip_of_mem hlen hx
        exact ((hall _ y hxy).mono hup).visited (fun hfr => hf (.inside ep eg hxy hfr)) a hvis
    · obtain rfl : hp = hg := by
        rw [hd.node] at hmatch
        simpa [DefaultPatternMatchCB.nodeMatch] using hmatch
      exact compared_same hb hsp _

/-! ## It ends -/

theorem compareVariable_ends (hp hg : Handle) (s : Search) :
    (compareVariable G cb p hp hg s).2 = .no ∨ (compareVariable G cb p hp hg s).2 = .yes := by
  unfold compareVariable
  split
  · exact .inr rfl
  · split
    · split
      · exact .inl rfl
      · exact .inr rfl
    · split
      · exact .inl rfl
      · exact .inr rfl

theorem closeLinks_snd (hp hg : Handle) (r : Search × Outcome) :
    (closeLinks hp hg r).2 = r.2 := by
  obtain ⟨s, o⟩ := r
  cases o <;> rfl

/-- Handles descend along the comparison, and only a link with a member that has
no partner stops it. -/
theorem treeCompare_avoids {o : Outcome} (hyes : o ≠ .yes) (hno : o ≠ .no) {n : Nat} {hp hg : Handle}
    (hn : hp < n) (hcrash : o = .crashed → (G.atom hp).isSome ∧ (G.atom hg).isSome ∧
      ∀ a b, cb.linkMatch a b = false → (G.outgoing a).length = (G.outgoing b).length)
    (s : Search) : (treeCompare G cb p n hp hg s).2 ≠ o := by
  induction n generalizing hp hg s with
  | zero => exact absurd hn (Nat.not_lt_zero _)
  | succ n ih =>
    unfold treeCompare
    split
    · rename_i tp bp tg bg ep eg
      split
      · rcases @compareVariable_ends G cb p hp hg s with h | h
        · exact h ▸ Ne.symm hno
        · exact h ▸ Ne.symm hyes
      · split
        · exact Ne.symm hno
        · split
          · rename_i op og _ _
            split
            · exact Ne.symm hyes
            · rename_i hl
              rw [closeLinks_snd]
              refine Backtrack.foreachPair_avoids hno (fun h => ?_) (fun a ha b hb s => ?_) _
              · have := (hcrash h).2.2 hp hg (by simpa using hl)
                rwa [AtomGraph.outgoing_of_atom ep, AtomGraph.outgoing_of_atom eg] at this
              · have ha' : a ∈ G.outgoing hp := by rw [AtomGraph.outgoing_of_atom ep]; exact ha
                have hb' : b ∈ G.outgoing hg := by rw [AtomGraph.outgoing_of_atom eg]; exact hb
                have hlt := AtomGraph.lt_of_mem_outgoing ha'
                exact ih (by lia) (fun h => ⟨AtomGraph.stored_of_mem_outgoing ha',
                  AtomGraph.stored_of_mem_outgoing hb', (hcrash h).2.2⟩) s
          · split
            · exact Ne.symm hyes
            · exact Ne.symm hno
          · exact Ne.symm hyes
    · rename_i hnone
      intro h
      obtain ⟨hsp, hsg, -⟩ := hcrash h.symm
      obtain ⟨⟨tp, bp⟩, ep⟩ := Option.isSome_iff_exists.mp hsp
      obtain ⟨⟨tg, bg⟩, eg⟩ := Option.isSome_iff_exists.mp hsg
      exact hnone tp bp tg bg ep eg

/-! ## It finds instances -/

/-- The groundings so far are those of `σ`. -/
def Within (p : Pattern) (σ V : SolnMap) : Prop :=
  ∀ x ∈ p.boundVars, ∀ g, V x = some g → σ x = some g

theorem Within.update_atom {σ V : SolnMap} {hp : Handle} (hb : hp ∉ p.boundVars) (hg : Handle)
    (h : Within p σ V) : Within p σ (Function.update V hp (some hg)) := by
  intro x hx g hv
  rw [Function.update_of_ne (fun e : x = hp => hb (e ▸ hx))] at hv
  exact h x hx g hv

theorem linkMatch_of_same {hp hg : Handle} {t : TypeCode} {op og : List Handle}
    (ep : G.atom hp = some (t, .link op)) (eg : G.atom hg = some (t, .link og))
    (hlen : op.length = og.length) : DefaultPatternMatchCB.linkMatch G hp hg = false := by
  have hp' : G.outgoing hp = op := AtomGraph.outgoing_of_atom ep
  have hg' : G.outgoing hg = og := AtomGraph.outgoing_of_atom eg
  simp [DefaultPatternMatchCB.linkMatch, DefaultPatternMatchCB.arity, hp', hg', hlen,
    AtomGraph.typeOf, ep, eg]

/-- On an instance under `σ` the comparison succeeds, and grounds no variable in
another way. -/
theorem treeCompare_instance {restrictions : DefaultPatternMatchCB.VariableTypeMap}
    (hd : DefaultMatching G restrictions cb) {σ : SolnMap}
    (hσ : Admissible G p.boundVars cb.variableMatch σ) {n : Nat} {hp hg : Handle} (hn : hp < n)
    (hi : Instance G p.boundVars σ hp hg)
    (htotal : ∀ x ∈ p.boundVars, G.InTree hp x → σ x ≠ none) {s : Search}
    (hs : Within p σ s.varGrounding) :
    ∃ s', treeCompare G cb p n hp hg s = (s', .no) ∧ Within p σ s'.varGrounding := by
  induction n generalizing hp hg s with
  | zero => exact absurd hn (Nat.not_lt_zero _)
  | succ n ih =>
    unfold treeCompare
    cases hi with
    | var hb hv =>
      obtain ⟨hnp, hng, hnb, hvm⟩ := hσ hp hb hg hv
      obtain ⟨⟨tp, bp⟩, ep⟩ := Option.isSome_iff_exists.mp (AtomGraph.isNode_stored hnp)
      obtain ⟨⟨tg, bg⟩, eg⟩ := Option.isSome_iff_exists.mp (AtomGraph.isNode_stored hng)
      simp only [ep, eg, hb, if_true, compareVariable, hnb, if_false]
      cases hgnd : s.varGrounding hp with
      | some gnd =>
        have := hs hp hb gnd hgnd
        rw [hv, Option.some.injEq] at this
        exact ⟨s, by simp [this], hs⟩
      | none =>
        refine ⟨s.ground hp hg, by simp [hnp, hng, hvm], fun x hx g h => ?_⟩
        by_cases e : x = hp
        · subst e
          rw [Search.ground_self, Option.some.injEq] at h
          exact h ▸ hv
        · exact hs x hx g ((Function.update_of_ne e ..).symm.trans h)
    | node hnode hfree =>
      have hb : hp ∉ p.boundVars := fun hb => htotal hp hb (.self hp) (hfree hb)
      obtain ⟨⟨tp, bp⟩, ep⟩ := Option.isSome_iff_exists.mp (AtomGraph.isNode_stored hnode)
      have hm : cb.nodeMatch hp hp = false := by simp [hd.node, DefaultPatternMatchCB.nodeMatch]
      refine ⟨s.ground hp hp, ?_, hs.update_atom hb hp⟩
      simp only [ep, hb, if_false]
      split
      · rfl
      · cases bp with
        | node m => simp [hm]
        | link o => rw [AtomGraph.not_isNode_of_link ep] at hnode; cases hnode
    | @link _ _ t op og hfree ep eg hlen hall =>
      have hb : hp ∉ p.boundVars := fun hb => htotal hp hb (.self hp) (hfree hb)
      have hm : cb.linkMatch hp hg = false := by rw [hd.link]; exact linkMatch_of_same ep eg hlen
      simp only [ep, eg, hb, if_false, hm, Bool.false_eq_true]
      split
      · exact ⟨_, rfl, hs.update_atom hb hg⟩
      · have hpairs : ∃ s', foreachPair (treeCompare G cb p n) op og s.pushVars = (s', .no) ∧
            Within p σ s'.varGrounding := by
          refine Backtrack.foreachPair_reaches hlen (fun x y hxy s hs => ?_) hs
          have hx : x ∈ G.outgoing hp := by
            rw [AtomGraph.outgoing_of_atom ep]
            exact (List.of_mem_zip hxy).1
          have hlt := AtomGraph.lt_of_mem_outgoing hx
          exact ih (by lia) (hall x y hxy) (fun v hv hin => htotal v hv (.member hx hin)) hs
        obtain ⟨s₁, hs₁, hw⟩ := hpairs
        exact ⟨_, by rw [hs₁]; rfl, hw.update_atom hb hg⟩

end PatternMatchEngine

end OpenCog
