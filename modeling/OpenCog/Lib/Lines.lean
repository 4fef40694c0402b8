import Mathlib

/-! Texts as lists of characters: lines as `getline` takes them, and numbers as
`printf` prints and `atoi` reads them. -/
namespace Lines

/-- The lines of a stream. A last line is taken even without its end, unless it is
empty. -/
def getlines (t : List Char) : List (List Char) :=
  if (t.splitOn '\n').getLast? = some [] then (t.splitOn '\n').dropLast else t.splitOn '\n'

/-- A line is added to a text, behind a line end unless it is the first. -/
def appendLine (first : Bool) (text line : List Char) : List Char :=
  if first then text ++ line else text ++ '\n' :: line

/-- Without its last line end. -/
def chomp (t : List Char) : List Char := if t.getLast? = some '\n' then t.dropLast else t

theorem intercalate_cons {α : Type} (c : α) (l : List α) (ls : List (List α)) :
    [c].intercalate (l :: ls) = l ++ (ls.map (c :: ·)).flatten := by
  induction ls generalizing l with
  | nil => simp
  | cons l' ls ih => rw [List.intercalate_cons_cons, ih]; simp

def printInt : Int → List Char
  | .ofNat n => Nat.toDigits 10 n
  | .negSucc n => '-' :: Nat.toDigits 10 (n + 1)

/-- The digits at the front. -/
def readDigits (t : List Char) : Nat := Nat.ofDigitChars 10 (t.takeWhile Char.isDigit) 0

def atoi (t : List Char) : Int :=
  match t.dropWhile Char.isWhitespace with
  | '-' :: t => -(readDigits t : Int)
  | '+' :: t => readDigits t
  | t => readDigits t

def isSpace (c : Char) : Bool :=
  c = ' ' || c = '\t' || c = '\n' || c = '\x0b' || c = '\x0c' || c = '\r'

/-- The sign at the front, and the digits behind it. -/
def readSigned (t : List Char) : Bool × Nat :=
  match t.dropWhile isSpace with
  | '-' :: t => (true, readDigits t)
  | '+' :: t => (false, readDigits t)
  | t => (false, readDigits t)

/-- Base ten into an unsigned long: 0 without digits, the greatest number for one that
does not fit, and a minus sign wraps. -/
def strtoul (t : List Char) : Nat :=
  let (negative, n) := readSigned t
  if 2 ^ 64 ≤ n then 2 ^ 64 - 1 else if negative then (2 ^ 64 - n) % 2 ^ 64 else n

/-- Behind the blanks and the sign at the front. -/
def afterSign (t : List Char) : List Char :=
  match t.dropWhile isSpace with
  | '-' :: t => t
  | '+' :: t => t
  | t => t

/-- Where `strtoul` stops reading: at the start when there are no digits. -/
def strtoulEnd (t : List Char) : List Char :=
  if (afterSign t).takeWhile Char.isDigit = [] then t else (afterSign t).dropWhile Char.isDigit

/-- Base ten into a long, clamped at both ends. -/
def strtol (t : List Char) : Int :=
  let (negative, n) := readSigned t
  if negative then max (-(n : Int)) (-2 ^ 63) else min (n : Int) (2 ^ 63 - 1)

theorem isDigit_of_mem {n : Nat} {c : Char} (h : c ∈ Nat.toDigits 10 n) : c.isDigit = true :=
  Nat.isDigit_of_mem_toDigits (by decide) (by decide) h

theorem readDigits_toDigits (n : Nat) : readDigits (Nat.toDigits 10 n) = n := by
  rw [readDigits, List.takeWhile_eq_self_iff.mpr fun c hc => isDigit_of_mem hc,
    Nat.ofDigitChars_ten_toDigits]

theorem ne_of_isDigit {c : Char} (h : c.isDigit = true) :
    c.isWhitespace = false ∧ c ≠ '-' ∧ c ≠ '+' ∧ c ≠ ' ' ∧ c ≠ '\n' ∧ c ≠ '\r' := by
  refine ⟨?_, ?_, ?_, ?_, ?_, ?_⟩
  · by_contra hw
    simp only [Char.isWhitespace, Bool.not_eq_false, Bool.or_eq_true, decide_eq_true_eq] at hw
    rcases hw with ((rfl | rfl) | rfl) | rfl <;> exact absurd h (by decide)
  all_goals
    rintro rfl
    exact absurd h (by decide)

theorem atoi_printInt (n : Int) : atoi (printInt n) = n := by
  cases n with
  | ofNat n =>
    obtain ⟨c, cs, e⟩ := List.exists_cons_of_ne_nil (@Nat.toDigits_ne_nil n 10)
    have hc := ne_of_isDigit (isDigit_of_mem (e ▸ List.mem_cons_self : c ∈ Nat.toDigits 10 n))
    have hread := readDigits_toDigits n
    rw [printInt, atoi, e, List.dropWhile_cons_of_neg (by simp [hc.1])]
    rw [e] at hread
    split
    · rename_i h
      exact absurd (List.cons.inj h).1 hc.2.1
    · rename_i h
      exact absurd (List.cons.inj h).1 hc.2.2.1
    · rw [hread]
      rfl
  | negSucc n =>
    rw [printInt, atoi, List.dropWhile_cons_of_neg (by decide)]
    simp only [readDigits_toDigits]
    rfl

theorem isSpace_of_isDigit {c : Char} (h : c.isDigit = true) : isSpace c = false := by
  by_contra hs
  simp only [isSpace, Bool.not_eq_false, Bool.or_eq_true, decide_eq_true_eq] at hs
  rcases hs with ((((rfl | rfl) | rfl) | rfl) | rfl) | rfl <;> exact absurd h (by decide)

/-- Printed digits are read up to the first character that is none. -/
theorem readSigned_toDigits (n : Nat) {t : List Char} (ht : ∀ c ∈ t.head?, c.isDigit = false) :
    readSigned (Nat.toDigits 10 n ++ t) = (false, n) := by
  have hread : readDigits (Nat.toDigits 10 n ++ t) = n := by
    have hrest : t.takeWhile Char.isDigit = [] := by
      cases t with
      | nil => rfl
      | cons c t => exact List.takeWhile_cons_of_neg (by simp [ht c rfl])
    rw [readDigits, List.takeWhile_append_of_pos fun c hc => isDigit_of_mem hc, hrest,
      List.append_nil, Nat.ofDigitChars_ten_toDigits]
  obtain ⟨c, cs, e⟩ := List.exists_cons_of_ne_nil (@Nat.toDigits_ne_nil n 10)
  have hdigit := isDigit_of_mem (e ▸ List.mem_cons_self : c ∈ Nat.toDigits 10 n)
  have hc := ne_of_isDigit hdigit
  rw [e, List.cons_append] at hread ⊢
  rw [readSigned, List.dropWhile_cons_of_neg (by simp [isSpace_of_isDigit hdigit])]
  split
  · rename_i h
    exact absurd (List.cons.inj h).1 hc.2.1
  · rename_i h
    exact absurd (List.cons.inj h).1 hc.2.2.1
  · rw [hread]

theorem strtoul_toDigits {n : Nat} (hn : n < 2 ^ 64) {t : List Char}
    (ht : ∀ c ∈ t.head?, c.isDigit = false) : strtoul (Nat.toDigits 10 n ++ t) = n := by
  rw [strtoul, readSigned_toDigits n ht]
  simp only [if_neg (Nat.not_le.mpr hn), Bool.false_eq_true, if_false]

theorem afterSign_suffix (t : List Char) : afterSign t <:+ t := by
  refine List.IsSuffix.trans ?_ (List.dropWhile_suffix isSpace)
  unfold afterSign
  split
  · rename_i h
    rw [h]
    exact List.suffix_cons _ _
  · rename_i h
    rw [h]
    exact List.suffix_cons _ _
  · exact List.suffix_refl _

/-- `strtoul` stops in what it was given. -/
theorem strtoulEnd_suffix (t : List Char) : strtoulEnd t <:+ t := by
  unfold strtoulEnd
  split
  · exact List.suffix_refl t
  · exact (List.dropWhile_suffix _).trans (afterSign_suffix t)

theorem afterSign_cons_of_isDigit {c : Char} (h : c.isDigit = true) (t : List Char) :
    afterSign (c :: t) = c :: t := by
  have hc := ne_of_isDigit h
  rw [afterSign, List.dropWhile_cons_of_neg (by simp [isSpace_of_isDigit h])]
  split
  · rename_i e
    exact absurd (List.cons.inj e).1 hc.2.1
  · rename_i e
    exact absurd (List.cons.inj e).1 hc.2.2.1
  · rfl

theorem strtoulEnd_toDigits (n : Nat) {t : List Char} (ht : ∀ c ∈ t.head?, c.isDigit = false) :
    strtoulEnd (Nat.toDigits 10 n ++ t) = t := by
  have hrest : t.dropWhile Char.isDigit = t := by
    cases t with
    | nil => rfl
    | cons c t => exact List.dropWhile_cons_of_neg (by simp [ht c rfl])
  obtain ⟨c, cs, e⟩ := List.exists_cons_of_ne_nil (@Nat.toDigits_ne_nil n 10)
  have hdigit := isDigit_of_mem (e ▸ List.mem_cons_self : c ∈ Nat.toDigits 10 n)
  have hdrop : (Nat.toDigits 10 n ++ t).dropWhile Char.isDigit = t := by
    rw [List.dropWhile_append_of_pos fun c hc => isDigit_of_mem hc, hrest]
  rw [e, List.cons_append] at hdrop ⊢
  rw [strtoulEnd, afterSign_cons_of_isDigit hdigit, if_neg, hdrop]
  rw [List.takeWhile_cons_of_pos hdigit]
  exact List.cons_ne_nil _ _

end Lines
