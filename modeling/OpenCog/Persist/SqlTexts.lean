import OpenCog.AtomSpace.Atom
import OpenCog.Lib.Lines
import OpenCog.Lib.Quoting

/-! The texts that go to the database and come from it, as the sequences of their chars: names in
dollar quotes, outgoing sets as array literals, and the loop over the array text of a row. -/
namespace OpenCog

namespace AtomStorage
open Lines Quoting

/-! ## Names -/

def DOLLAR_TAG : List Char := ['$', 'o', 'c', 'p', '$']

theorem dollarTag_ne_nil : DOLLAR_TAG ≠ [] := List.cons_ne_nil _ _

def quoteName (name : List Char) : List Char :=
  ' ' :: (DOLLAR_TAG ++ (name ++ (DOLLAR_TAG ++ [' '])))

/-- The database reads a quoted text up to the first tag. More than blanks behind it is an error in
the statement. -/
def readQuoted (t : List Char) : Option (List Char) :=
  if DOLLAR_TAG <+: t.dropWhile (· = ' ') then do
    let (name, rest) ← cutAt DOLLAR_TAG ((t.dropWhile (· = ' ')).drop DOLLAR_TAG.length)
    if rest.all (· = ' ') then some name else none
  else none

theorem readQuoted_quoteName (name : List Char) : readQuoted (quoteName name) =
    (cutAt DOLLAR_TAG (name ++ (DOLLAR_TAG ++ [' ']))).bind fun q =>
      if q.2.all (· = ' ') then some q.1 else none := by
  have hdrop : (quoteName name).dropWhile (· = ' ') =
      DOLLAR_TAG ++ (name ++ (DOLLAR_TAG ++ [' '])) := rfl
  rw [readQuoted, hdrop, if_pos (List.prefix_append _ _), List.drop_left]
  rfl

/-- A name is read as it was written if it does not hold the tag, also not together with the
beginning of the closing one. -/
theorem readQuoted_of_free {name : List Char} (h : ¬ DOLLAR_TAG <:+: name ++ DOLLAR_TAG.dropLast) :
    readQuoted (quoteName name) = some name := by
  rw [readQuoted_quoteName, (cutAt_quoted_iff dollarTag_ne_nil name [' ']).mpr h]
  rfl

/-- Else it is read as a shorter name, if the statement is one at all. -/
theorem readQuoted_eq_some {name n : List Char} (h : readQuoted (quoteName name) = some n)
    (hlen : name.length ≤ n.length) : ¬ DOLLAR_TAG <:+: name ++ DOLLAR_TAG.dropLast := by
  rw [readQuoted_quoteName] at h
  obtain ⟨⟨p, r⟩, hq, he⟩ := Option.bind_eq_some_iff.mp h
  split at he
  · obtain rfl := Option.some.inj he
    obtain ⟨p', r', hq', hle⟩ := @cutAt_isSome _ _ DOLLAR_TAG name [' ']
    obtain ⟨rfl, rfl⟩ := Prod.mk.inj (Option.some.inj (hq.symm.trans hq'))
    have happ := cutAt_append hq
    obtain ⟨rfl, htail⟩ := List.append_inj happ (Nat.le_antisymm hlen hle)
    obtain rfl := List.append_cancel_left htail
    exact (cutAt_quoted_iff dollarTag_ne_nil _ _).mp hq
  · cases he

/-! ## Outgoing sets -/

/-- The loop runs to the arity, and writes a separator before all handles but the first. -/
def osetToString (out : List Handle) (arity : Nat) : List Char :=
  ['\x27', '{'] ++ [',', ' '].intercalate ((out.take arity).map (Nat.toDigits 10)) ++ ['}', '\x27']

/-- The database reads the numbers between the commas; blanks have no meaning. -/
def readArray (t : List Char) : List Handle :=
  let inner := t.filter fun c => c.isDigit || c = ','
  if inner = [] then [] else (inner.splitOn ',').map readDigits

/-- An array is printed as `{a,b,c}`. -/
def arrayText (out : List Handle) : List Char :=
  '{' :: ([','].intercalate (out.map (Nat.toDigits 10)) ++ ['}'])

theorem filter_intercalate {ls : List (List Char)} (h : ∀ l ∈ ls, ∀ c ∈ l, c.isDigit = true) :
    ([',', ' '].intercalate ls).filter (fun c => c.isDigit || c = ',') = [','].intercalate ls := by
  have hself : ∀ l ∈ ls, l.filter (fun c => c.isDigit || c = ',') = l := by
    intro l hl
    refine List.filter_eq_self.mpr fun c hc => ?_
    rw [h l hl c hc, Bool.true_or]
  induction ls with
  | nil => rfl
  | cons l ls ih =>
    cases ls with
    | nil => simpa using hself l List.mem_cons_self
    | cons l' ls =>
      rw [List.intercalate_cons_cons, List.intercalate_cons_cons, List.filter_append,
        List.filter_append, hself l List.mem_cons_self,
        ih (fun l hl => h l (List.mem_cons_of_mem _ hl)) fun l hl =>
          hself l (List.mem_cons_of_mem _ hl)]
      rfl

theorem isDigit_of_mem_digits {o : List Handle} {l : List Char}
    (hl : l ∈ o.map (Nat.toDigits 10)) {c : Char} (hc : c ∈ l) : c.isDigit = true := by
  obtain ⟨n, -, rfl⟩ := List.mem_map.mp hl
  exact isDigit_of_mem hc

theorem readArray_of_filter {t : List Char} {o : List Handle}
    (h : t.filter (fun c => c.isDigit || c = ',') = [','].intercalate (o.map (Nat.toDigits 10))) :
    readArray t = o := by
  rw [readArray, h]
  cases o with
  | nil => rfl
  | cons x o =>
    have hne : [','].intercalate ((x :: o).map (Nat.toDigits 10)) ≠ [] := by
      rw [List.map_cons, intercalate_cons]
      exact fun e => Nat.toDigits_ne_nil (List.append_eq_nil_iff.mp e).1
    have hcomma : ∀ l ∈ (x :: o).map (Nat.toDigits 10), ',' ∉ l := fun l hl hc =>
      absurd (isDigit_of_mem_digits hl hc) (by decide)
    simp only [if_neg hne]
    rw [List.splitOn_intercalate ',' hcomma (by simp), List.map_map]
    exact (List.map_congr_left fun n _ => readDigits_toDigits n).trans (List.map_id _)

theorem readArray_osetToString (out : List Handle) (arity : Nat) :
    readArray (osetToString out arity) = out.take arity := by
  refine readArray_of_filter ?_
  rw [osetToString, List.filter_append, List.filter_append,
    filter_intercalate fun l hl c hc => isDigit_of_mem_digits hl hc]
  exact List.append_nil _

/-- The loop over the array text of a row. It reads on behind the end of a text that does not close
the array. -/
def readOutlist (t : List Char) : Option (List Handle) :=
  match t with
  | [] => none
  | c :: t => if c = '}' then some [] else (readOutlist (strtoulEnd t)).map (strtoul t :: ·)
termination_by t.length
decreasing_by exact Nat.lt_succ_of_le (strtoulEnd_suffix t).length_le

theorem readOutlist_cons {c : Char} (hc : c ≠ '}') (t : List Char) :
    readOutlist (c :: t) = (readOutlist (strtoulEnd t)).map (strtoul t :: ·) := by
  rw [readOutlist, if_neg hc]

theorem readOutlist_close (t : List Char) : readOutlist ('}' :: t) = some [] := by
  rw [readOutlist, if_pos rfl]

/-- A number of the array, and what follows it. -/
theorem readOutlist_number {c : Char} (hc : c ≠ '}') {n : Nat} (hn : n < 2 ^ 64) {t : List Char}
    (ht : ∀ d ∈ t.head?, d.isDigit = false) :
    readOutlist (c :: (Nat.toDigits 10 n ++ t)) = (readOutlist t).map (n :: ·) := by
  rw [readOutlist_cons hc, strtoulEnd_toDigits n ht, strtoul_toDigits hn ht]

theorem readOutlist_numbers (out : List Handle) (hout : ∀ h ∈ out, h < 2 ^ 64) :
    readOutlist ((out.map fun h => ',' :: Nat.toDigits 10 h).flatten ++ ['}']) = some out := by
  induction out with
  | nil => exact readOutlist_close []
  | cons h out ih =>
    have hrest : ∀ d ∈ ((out.map fun h => ',' :: Nat.toDigits 10 h).flatten ++ ['}']).head?,
        d.isDigit = false := by
      cases out with
      | nil =>
        rintro d hd
        obtain rfl : '}' = d := by simpa using hd
        rfl
      | cons g out =>
        rintro d hd
        obtain rfl : ',' = d := by simpa using hd
        rfl
    rw [List.map_cons, List.flatten_cons, List.append_assoc, List.cons_append,
      readOutlist_number (by decide) (hout h List.mem_cons_self) hrest,
      ih fun g hg => hout g (List.mem_cons_of_mem h hg)]
    rfl

/-- The handles of an array that is not empty are read back; in an empty one the loop reads a
handle of its own. -/
theorem readOutlist_arrayText {out : List Handle} (hne : out ≠ []) (hout : ∀ h ∈ out, h < 2 ^ 64) :
    readOutlist (arrayText out) = some out := by
  obtain ⟨h, rest, rfl⟩ := List.exists_cons_of_ne_nil hne
  have hnumbers := readOutlist_numbers (h :: rest) hout
  have htext : arrayText (h :: rest) = '{' ::
      (Nat.toDigits 10 h ++ ((rest.map fun h => ',' :: Nat.toDigits 10 h).flatten ++ ['}'])) := by
    rw [arrayText, List.map_cons, intercalate_cons, List.append_assoc, List.map_map]
    rfl
  rw [List.map_cons, List.flatten_cons, List.append_assoc, List.cons_append,
    readOutlist_cons (by decide)] at hnumbers
  rw [htext, readOutlist_cons (by decide), hnumbers]

theorem mem_of_readOutlist {t : List Char} {out : List Handle} (h : readOutlist t = some out) :
    '}' ∈ t ∧ out.length < t.length := by
  induction t using readOutlist.induct generalizing out with
  | case1 => rw [readOutlist] at h; cases h
  | case2 t =>
    rw [readOutlist_close] at h
    obtain rfl := Option.some.inj h
    exact ⟨List.mem_cons_self, Nat.succ_pos _⟩
  | case3 c t e ih =>
    rw [readOutlist_cons e] at h
    obtain ⟨rest, hrest, rfl⟩ := Option.map_eq_some_iff.mp h
    obtain ⟨hmem, hlt⟩ := ih hrest
    have hsuffix := strtoulEnd_suffix t
    refine ⟨List.mem_cons_of_mem c (hsuffix.subset hmem), ?_⟩
    have := hsuffix.length_le
    rw [List.length_cons, List.length_cons]
    omega

/-- No handle is read only where the text closes the array at once. -/
theorem readOutlist_eq_nil {t : List Char} (h : readOutlist t = some []) : t.head? = some '}' := by
  cases t with
  | nil => rw [readOutlist] at h; cases h
  | cons c t =>
    by_cases e : c = '}'
    · rw [e]
      rfl
    · rw [readOutlist_cons e] at h
      obtain ⟨rest, -, hr⟩ := Option.map_eq_some_iff.mp h
      cases hr

/-! ## Bound buffers -/

def DEFAULT_VARCHAR_SIZE : Nat := 4040

/-- What a buffer takes of a text, with the NUL behind it. -/
def cut (t : List Char) : List Char := t.take (DEFAULT_VARCHAR_SIZE - 1)

theorem cut_of_fits {t : List Char} (h : t.length < DEFAULT_VARCHAR_SIZE) : cut t = t :=
  List.take_of_length_le (Nat.le_sub_one_of_lt h)

theorem length_cut_lt (t : List Char) : (cut t).length < DEFAULT_VARCHAR_SIZE := by
  have : (cut t).length ≤ DEFAULT_VARCHAR_SIZE - 1 := List.length_take_le _ _
  exact Nat.lt_of_le_of_lt this (by decide)

theorem fits_of_cut_eq {t : List Char} (h : cut t = t) : t.length < DEFAULT_VARCHAR_SIZE :=
  h ▸ length_cut_lt t

/-- The end of an array text is in the buffer only where all of it is. -/
theorem fits_of_mem_cut {out : List Handle} (h : '}' ∈ cut (arrayText out)) :
    (arrayText out).length < DEFAULT_VARCHAR_SIZE := by
  by_contra hlong
  have hsplit : arrayText out = ('{' :: [','].intercalate (out.map (Nat.toDigits 10))) ++ ['}'] := rfl
  have hle : DEFAULT_VARCHAR_SIZE - 1 ≤
      ('{' :: [','].intercalate (out.map (Nat.toDigits 10))).length := by
    rw [hsplit, List.length_append] at hlong
    simp only [List.length_cons, List.length_nil] at hlong ⊢
    omega
  rw [cut, hsplit, List.take_append_of_le_length hle] at h
  have hbody : '}' ∉ '{' :: [','].intercalate (out.map (Nat.toDigits 10)) := by
    rw [List.mem_cons, not_or]
    refine ⟨by decide, ?_⟩
    cases out with
    | nil => exact List.not_mem_nil
    | cons x rest =>
      rw [List.map_cons, intercalate_cons, List.mem_append, not_or]
      refine ⟨fun hm => absurd (isDigit_of_mem hm) (by decide), fun hm => ?_⟩
      obtain ⟨l, hl, hc⟩ := List.mem_flatten.mp hm
      obtain ⟨d, hd, rfl⟩ := List.mem_map.mp hl
      obtain ⟨n, -, rfl⟩ := List.mem_map.mp hd
      rcases List.mem_cons.mp hc with e | hc
      · exact absurd e (by decide)
      · exact absurd (isDigit_of_mem hc) (by decide)
  exact hbody (List.mem_of_mem_take h)

end AtomStorage

end OpenCog
