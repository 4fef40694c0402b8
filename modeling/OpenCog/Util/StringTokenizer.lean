import OpenCog.Lib.Splitting

/-! The string tokenizer: two positions, both 0 before the first call, and a search for
the delimiter from the later one on. -/
namespace OpenCog

open Splitting

/-- `stop` is the field `end`. -/
structure StringTokenizer where
  str : List Char
  delimiter : List Char
  start : Nat
  stop : Nat
  deriving DecidableEq

namespace StringTokenizer

/-- `string::find`; `none` is `npos`. -/
def find (s d : List Char) (pos : Nat) : Option Nat :=
  if pos ≤ s.length then (firstAt d (s.drop pos)).map (pos + ·) else none

/-- `string::substr` throws past the end. -/
def substr (s : List Char) (pos n : Nat) : Option (List Char) :=
  if pos ≤ s.length then some ((s.drop pos).take n) else none

def make (str delimiter : List Char) : StringTokenizer :=
  { str, delimiter, start := 0, stop := 0 }

def delimiterSize (t : StringTokenizer) : Nat := t.delimiter.length

/-- The `do` loop; `none` where it throws or has not ended. -/
def scan : Nat → StringTokenizer → Option (StringTokenizer × List Char)
  | 0, _ => none
  | fuel + 1, t =>
    let start := t.stop + t.delimiterSize
    if start = t.str.length then some ({ t with start := start, stop := start }, [])
    else do
      let stop := (find t.str t.delimiter start).getD t.str.length
      let token ← substr t.str start (stop - start)
      if token = t.delimiter ∨ stop = start then scan fuel { t with start := start, stop := stop }
      else some ({ t with start := start, stop := stop }, token)

/-- `none` where an assertion fails. -/
def nextToken (t : StringTokenizer) : Option (StringTokenizer × List Char) :=
  if t.str = [] ∨ t.delimiter = [] then none
  else if t.stop = t.str.length then some (t, [])
  else if t.start = 0 ∧ t.stop = 0 then do
    let stop := (find t.str t.delimiter 0).getD t.str.length
    let token ← substr t.str t.start (stop - t.start)
    some ({ t with stop := stop }, token)
  else scan (t.str.length + 1) t

/-- The results of successive calls. -/
def tokens : Nat → StringTokenizer → Option (List (List Char))
  | 0, _ => some []
  | n + 1, t => do
    let (t, token) ← t.nextToken
    let rest ← tokens n t
    some (token :: rest)

/-- However often it is called, the words come in order, and then empty strings. -/
def Tokenises (s d : List Char) : Prop :=
  ∀ n, (make s d).tokens n = some ((List.range n).map fun i => (words d s).getD i [])

/-! ## Calls on a tokenizer -/

/-- Which words are still to come: none at the end, else those behind the delimiter that
the last token ended at. -/
def Awaits (t : StringTokenizer) (ws : List (List Char)) : Prop :=
  t.str ≠ [] ∧ t.delimiter ≠ [] ∧
    (t.stop = t.str.length ∧ ws = [] ∨
      0 < t.stop ∧ t.stop + t.delimiter.length ≤ t.str.length ∧
        ws = words t.delimiter (t.str.drop (t.stop + t.delimiter.length)))

theorem find_eq {s d : List Char} {pos : Nat} (h : pos ≤ s.length) :
    find s d pos = (firstAt d (s.drop pos)).map (pos + ·) := if_pos h

theorem substr_eq {s : List Char} {pos n : Nat} (h : pos ≤ s.length) :
    substr s pos n = some ((s.drop pos).take n) := if_pos h

/-- A token lies before the delimiter, so it is not the delimiter itself. -/
theorem take_ne_delimiter {s d : List Char} {i : Nat} (h : firstAt d s = some i)
    (hi : i ≠ 0) : s.take i ≠ d := by
  intro e
  have hprefix : d <+: s := by
    rw [← e]
    exact List.take_prefix i s
  rw [firstAt_eq_zero_iff.mpr hprefix] at h
  exact hi (Option.some.inj h).symm

theorem ne_delimiter_of_firstAt_eq_none {s d : List Char} (h : firstAt d s = none) : s ≠ d := by
  rintro rfl
  rw [firstAt_eq_zero_iff.mpr (List.prefix_refl s)] at h
  cases h

/-- The loop passes the empty fields and returns the next word. -/
theorem scan_spec (fuel : Nat) {t : StringTokenizer} {ws : List (List Char)}
    (hd : t.delimiter ≠ []) (hstop : t.stop + t.delimiter.length ≤ t.str.length)
    (hws : ws = words t.delimiter (t.str.drop (t.stop + t.delimiter.length)))
    (hfuel : t.str.length < fuel + t.stop) :
    ∃ t', t.scan fuel = some (t', ws.headD []) ∧ t'.Awaits ws.tail := by
  have hpos := List.length_pos_iff.mpr hd
  induction fuel generalizing t with
  | zero => omega
  | succ fuel ih =>
    have hne : t.str ≠ [] := by
      rw [← List.length_pos_iff]
      omega
    simp only [scan]
    rw [show t.delimiterSize = t.delimiter.length from rfl]
    by_cases hend : t.stop + t.delimiter.length = t.str.length
    · rw [if_pos hend]
      rw [hend, List.drop_length, words_nil] at hws
      subst hws
      exact ⟨_, rfl, hne, hd, .inl ⟨hend, rfl⟩⟩
    · rw [if_neg hend, find_eq hstop, substr_eq hstop]
      set start := t.stop + t.delimiter.length with hstart
      have hlen : (t.str.drop start).length = t.str.length - start := List.length_drop
      cases hfirst : firstAt t.delimiter (t.str.drop start) with
      | none =>
        -- the last field
        have hrest : t.str.drop start ≠ [] := by
          rw [← List.length_pos_iff]
          omega
        rw [words_of_firstAt_eq_none hfirst hrest] at hws
        have htake : (t.str.drop start).take (t.str.length - start) = t.str.drop start := by
          rw [← hlen, List.take_length]
        have hgo : ¬ (t.str.drop start = t.delimiter ∨ t.str.length = start) := by
          rintro (e | e)
          · exact ne_delimiter_of_firstAt_eq_none hfirst e
          · omega
        simp only [Option.map_none, Option.getD_none, Option.bind_eq_bind, Option.bind_some, htake,
          if_neg hgo]
        rw [hws]
        exact ⟨_, rfl, hne, hd, .inl ⟨rfl, rfl⟩⟩
      | some i =>
        have hle := firstAt_le hd hfirst
        rw [words_of_firstAt hd hfirst, List.drop_drop, List.drop_drop] at hws
        simp only [Option.map_some, Option.getD_some, Option.bind_eq_bind, Option.bind_some,
          Nat.add_sub_cancel_left]
        by_cases hi : i = 0
        · rw [if_pos (.inr (by omega))]
          rw [if_pos hi] at hws
          subst hi
          exact ih (t := { t with start := start, stop := start + 0 }) hd (by simp only; omega) hws
            (by simp only; omega) hpos
        · have hgo : ¬ ((t.str.drop start).take i = t.delimiter ∨ start + i = start) := by
            rintro (e | e)
            · exact take_ne_delimiter hfirst hi e
            · omega
          rw [if_neg hgo]
          rw [if_neg hi] at hws
          rw [hws]
          refine ⟨_, rfl, hne, hd, .inr ⟨by simp only; omega, by simp only; omega, ?_⟩⟩
          exact congrArg (fun j => words t.delimiter (t.str.drop j))
            (Nat.add_assoc start i t.delimiter.length).symm

/-- A call returns the next word, or the empty string where none is left. -/
theorem nextToken_spec {t : StringTokenizer} {ws : List (List Char)} (h : t.Awaits ws) :
    ∃ t', t.nextToken = some (t', ws.headD []) ∧ t'.Awaits ws.tail := by
  obtain ⟨hne, hd, hcases⟩ := h
  have hgiven : ¬ (t.str = [] ∨ t.delimiter = []) := by tauto
  have hpos := List.length_pos_iff.mpr hd
  unfold nextToken
  rw [if_neg hgiven]
  rcases hcases with ⟨hstop, rfl⟩ | ⟨hstop, hle, hws⟩
  · rw [if_pos hstop]
    exact ⟨t, rfl, hne, hd, .inl ⟨hstop, rfl⟩⟩
  · rw [if_neg (by omega), if_neg (by omega)]
    exact scan_spec _ hd hle hws (by omega)

theorem tokens_of_awaits {t : StringTokenizer} {ws : List (List Char)} (h : t.Awaits ws) (n : Nat) :
    t.tokens n = some ((List.range n).map fun i => ws.getD i []) := by
  induction n generalizing t ws with
  | zero => rfl
  | succ n ih =>
    obtain ⟨t', hnext, h'⟩ := nextToken_spec h
    have htail : ∀ i, ws.tail.getD i [] = ws.getD (i + 1) [] := by
      cases ws <;> simp
    have hhead : ws.headD [] = ws.getD 0 [] := by
      cases ws <;> rfl
    simp only [tokens, hnext, Option.bind_eq_bind, Option.bind_some, ih h', List.range_succ_eq_map,
      List.map_cons, List.map_map, Function.comp_def, htail, hhead]

/-- The first call where the string does not start with the delimiter. -/
theorem nextToken_make {s d : List Char} (hs : s ≠ []) (hd : d ≠ []) (hstart : ¬ d <+: s) :
    ∃ t', (make s d).nextToken = some (t', (words d s).headD []) ∧ t'.Awaits (words d s).tail := by
  have hgiven : ¬ (s = [] ∨ d = []) := by tauto
  have hpos := List.length_pos_iff.mpr hs
  unfold nextToken
  simp only [make]
  rw [if_neg hgiven, if_neg (by omega), if_pos ⟨trivial, trivial⟩, find_eq (Nat.zero_le _),
    substr_eq (Nat.zero_le _), List.drop_zero]
  cases hfirst : firstAt d s with
  | none =>
    rw [words_of_firstAt_eq_none hfirst hs]
    refine ⟨{ make s d with stop := s.length }, ?_, hs, hd, .inl ⟨rfl, rfl⟩⟩
    simp [make]
  | some i =>
    have hi : i ≠ 0 := by
      rintro rfl
      exact hstart (firstAt_eq_zero_iff.mp hfirst)
    rw [words_of_firstAt hd hfirst, if_neg hi]
    refine ⟨{ make s d with stop := i }, ?_, hs, hd, .inr ⟨?_, firstAt_le hd hfirst, rfl⟩⟩
    · simp [make]
    · exact Nat.pos_of_ne_zero hi

/-- A string that starts with the delimiter leaves the tokenizer as it was. -/
theorem nextToken_of_prefix {s d : List Char} (hs : s ≠ []) (hd : d ≠ []) (hstart : d <+: s) :
    (make s d).nextToken = some (make s d, []) := by
  have hgiven : ¬ (s = [] ∨ d = []) := by tauto
  have hpos := List.length_pos_iff.mpr hs
  unfold nextToken
  simp only [make]
  rw [if_neg hgiven, if_neg (by omega), if_pos ⟨trivial, trivial⟩, find_eq (Nat.zero_le _),
    substr_eq (Nat.zero_le _), List.drop_zero, firstAt_eq_zero_iff.mpr hstart]
  rfl

theorem tokens_of_startsWith {s d : List Char} (hs : s ≠ []) (hd : d ≠ []) (hstart : d <+: s) (n : Nat) :
    (make s d).tokens n = some (List.replicate n []) := by
  induction n with
  | zero => rfl
  | succ n ih =>
    simp only [tokens, nextToken_of_prefix hs hd hstart, Option.bind_eq_bind, Option.bind_some, ih,
      List.replicate_succ]

/-- The words are returned exactly where the string does not start with the delimiter or
has no words at all. -/
theorem tokenises_iff {s d : List Char} (hs : s ≠ []) (hd : d ≠ []) :
    Tokenises s d ↔ ¬ d <+: s ∨ words d s = [] := by
  by_cases hstart : d <+: s
  · constructor
    · intro h
      have hone := h 1
      rw [tokens_of_startsWith hs hd hstart] at hone
      refine .inr ?_
      cases hw : words d s with
      | nil => rfl
      | cons w ws =>
        have hmem : w ∈ words d s := by
          rw [hw]
          exact List.mem_cons_self
        rw [hw] at hone
        have hempty : w = [] := by simpa using hone.symm
        have hfull := (List.mem_filter.mp hmem).2
        rw [hempty] at hfull
        cases hfull
    · rintro (h | h) n
      · exact absurd hstart h
      · rw [tokens_of_startsWith hs hd hstart, h]
        simp
  · refine ⟨fun _ => .inl hstart, fun _ n => ?_⟩
    cases n with
    | zero => rfl
    | succ n =>
      obtain ⟨t', hnext, h'⟩ := nextToken_make hs hd hstart
      have htail : ∀ i, (words d s).tail.getD i [] = (words d s).getD (i + 1) [] := by
        cases words d s <;> simp
      have hhead : (words d s).headD [] = (words d s).getD 0 [] := by
        cases words d s <;> rfl
      simp only [tokens, hnext, Option.bind_eq_bind, Option.bind_some, tokens_of_awaits h',
        List.range_succ_eq_map, List.map_cons, List.map_map, Function.comp_def, htail, hhead]

theorem tokenises_two_words : Tokenises "a, , b".toList ", ".toList :=
  (tokenises_iff (by decide) (by decide)).mpr (.inl (by decide))

/-- A space in front hides the word. -/
theorem not_tokenises : ¬ Tokenises " a".toList " ".toList := by
  intro h
  have htwo := h 1
  revert htwo
  decide

end StringTokenizer

end OpenCog
