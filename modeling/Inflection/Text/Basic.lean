/-! # Texts

How texts are cut and joined, put in order, trimmed and taken apart into lines, and how numerals in
them are read. -/

namespace Inflection

/-- A run of characters; positions and lengths count characters. -/
abbrev Text := List Char

namespace Text

/-- The parts of a text before and after the first place where `sep` stands in it. -/
def cut? (sep : Text) : Text → Option (Text × Text)
  | [] => if sep.isEmpty then some ([], []) else none
  | c :: t =>
    match sep.isPrefixOf? (c :: t) with
    | some after => some ([], after)
    | none => (cut? sep t).map fun (before, after) => (c :: before, after)

theorem eq_append_of_isPrefixOf? {a t r : Text} (h : a.isPrefixOf? t = some r) : t = a ++ r := by
  induction a generalizing t with
  | nil =>
    have h : some t = some r := h
    cases h
    rfl
  | cons x a ih =>
    cases t with
    | nil => cases h
    | cons y t =>
      have h : (if x == y then a.isPrefixOf? t else none) = some r := h
      split at h
      next e => rw [beq_iff_eq] at e; rw [ih h, e, List.cons_append]
      next => cases h

/-- Nothing is lost where a text is cut. -/
theorem eq_append_of_cut? {sep t before after : Text} (h : cut? sep t = some (before, after)) :
    t = before ++ sep ++ after := by
  induction t generalizing before with
  | nil =>
    simp only [cut?] at h
    split at h
    next e => cases h; simpa using List.isEmpty_iff.1 e
    next => cases h
  | cons c t ih =>
    simp only [cut?] at h
    split at h
    next e => cases h; exact eq_append_of_isPrefixOf? e
    next =>
      obtain ⟨⟨b, a⟩, hb, e⟩ := Option.map_eq_some_iff.1 h
      cases e
      rw [ih hb, List.cons_append, List.cons_append]

theorem length_lt_of_cut? {sep t before after : Text} (ne : sep ≠ [])
    (h : cut? sep t = some (before, after)) : after.length < t.length := by
  have := List.length_pos_iff.2 ne
  simp only [eq_append_of_cut? h, List.length_append]
  omega

/-- Whether `sub` stands somewhere in `t`. -/
def occursIn (sub t : Text) : Bool := (cut? sub t).isSome

/-- The parts of a text between the places where `sep` stands, found from the left. An empty
separator cuts nothing. -/
def split (sep t : Text) : List Text :=
  match h : cut? sep t with
  | none => [t]
  | some (before, after) =>
    if ne : sep = [] then [t]
    else
      have := length_lt_of_cut? ne h
      before :: split sep after
termination_by t.length

/-- The text with `new` in every place where `old` stands, found from the left. -/
def replace (old new t : Text) : Text := new.intercalate (split old t)

/-- The text with each character `c` mapped to `d`. -/
def exchange (c d : Char) (t : Text) : Text := t.map fun x => if x = c then d else x

/-- Puts a character before the first of some texts. -/
def consFirst (c : Char) : List Text → List Text
  | [] => [[c]]
  | t :: ts => (c :: t) :: ts

/-- The fault of a position before the first character. One that takes more than 64 bits is told
apart from the others. -/
inductive Outside where
  | outside
  | tooFar
deriving DecidableEq, Repr

namespace Outside

/-- The fault of the position at a distance before the end. -/
def ofDistance (n : Nat) : Outside := if n ≤ 0x8000000000000000 then .outside else .tooFar

def message : Outside → String
  | .outside => "string index out of range"
  | .tooFar => "cannot fit 'int' into an index-sized integer"

end Outside

/-- What is read from a position on. A negative position counts from the end, and what follows the
last character then is the whole text. -/
def readFrom (t : Text) : (position : Int) → Except Outside Text
  | .ofNat n => .ok (t.drop n)
  | .negSucc n =>
    if n < t.length then .ok (t.drop (t.length - (n + 1)) ++ t) else .error (.ofDistance (n + 1))

/-- The order of texts by their code points. -/
def precedes : Text → Text → Bool
  | [], _ => true
  | _ :: _, [] => false
  | c :: s, d :: t => if c = d then precedes s t else c < d

theorem precedes_total (s t : Text) : precedes s t || precedes t s := by
  fun_induction precedes s t with
  | case1 => rfl
  | case2 => rfl
  | case3 _ _ _ ih => simpa [precedes] using ih
  | case4 c _ d _ h =>
    have := Char.le_total c d
    grind [precedes, Char.le_antisymm, Char.not_lt]

theorem precedes_refl (t : Text) : precedes t t := by
  simpa using precedes_total t t

theorem precedes_antisymm {s t : Text} (h : precedes s t) (h' : precedes t s) : s = t := by
  fun_induction precedes s t with
  | case1 t => cases t <;> simp_all [precedes]
  | case2 => cases h
  | case3 _ _ _ ih => simp_all [precedes]
  | case4 _ _ _ _ ne => grind [precedes, Char.lt_asymm]

theorem precedes_trans {s t u : Text} (h : precedes s t) (h' : precedes t u) : precedes s u := by
  fun_induction precedes s t generalizing u with
  | case1 => rfl
  | case2 => cases h
  | case3 _ _ _ ih => cases u <;> grind [precedes]
  | case4 _ _ _ _ ne =>
    cases u with
    | nil => cases h'
    | cons e u => grind [precedes, Char.lt_trans, Char.lt_asymm]

/-! ## White space and trimming -/

/-- Whether a character is white space: a control that moves the writing position, one of the four
information separators, or a separator of any width. -/
def isSpace (c : Char) : Bool :=
  let n := c.toNat
  (0x09 ≤ n && n ≤ 0x0d) || (0x1c ≤ n && n ≤ 0x20) || n == 0x85 || n == 0xa0 || n == 0x1680 ||
    (0x2000 ≤ n && n ≤ 0x200a) || n == 0x2028 || n == 0x2029 || n == 0x202f || n == 0x205f ||
    n == 0x3000

/-- The text without the longest end whose characters all satisfy `p`; it is not copied if nothing
is dropped. -/
def dropRight (p : Char → Bool) (t : Text) : Text :=
  if t.getLast?.any p then (t.reverse.dropWhile p).reverse else t

theorem dropRight_eq (p : Char → Bool) (t : Text) :
    dropRight p t = (t.reverse.dropWhile p).reverse := by
  rw [dropRight, ← List.head?_reverse]
  split
  next => rfl
  next h =>
    match ht : t.reverse with
    | [] => simpa using ht
    | c :: r =>
      have hc : p c = false := by simpa [ht] using h
      rw [List.dropWhile_cons_of_neg (by simp [hc]), ← ht, List.reverse_reverse]

/-- The text without white space at either end. -/
def trim (t : Text) : Text := dropRight isSpace (t.dropWhile isSpace)

/-- Whether there is nothing but white space. -/
def isBlank (t : Text) : Bool := t.all isSpace

/-- The text without the line breaks at its end. -/
def chomp (t : Text) : Text := dropRight (fun c => c = '\r' || c = '\n') t

/-! ## Lines -/

/-- The text with a line feed for each carriage return, and for each pair of the two. -/
def unifyBreaks : Text → Text
  | [] => []
  | '\r' :: '\n' :: t => '\n' :: unifyBreaks t
  | '\r' :: t => '\n' :: unifyBreaks t
  | c :: t => c :: unifyBreaks t

/-- Whether a character ends a line: the controls that start a new line, page or section of the
paper or the data, and the separators of lines and paragraphs. -/
def isBreak (c : Char) : Bool :=
  c = '\n' || c = '\x0b' || c = '\x0c' || c = '\x1c' || c = '\x1d' || c = '\x1e' || c = '\u0085' ||
    c = '\u2028' || c = '\u2029'

/-- The lines of a text, without their breaks. A break at the end of the text starts no line. -/
def lines : Text → List Text
  | [] => []
  | c :: t => if isBreak c then [] :: lines t else consFirst c (lines t)

/-- The lines one below the other, each ended by a line feed. -/
def unlines (ls : List Text) : Text := ls.flatMap (· ++ ['\n'])

/-! ## Decimal digits of all scripts

Every script that writes numbers in decimal places has its ten digits in one run of code points,
from zero to nine. -/

/-- The zeros of the scripts with decimal digits. -/
def zeros : List Nat := [
    0x30, 0x660, 0x6f0, 0x7c0, 0x966, 0x9e6, 0xa66, 0xae6, 0xb66, 0xbe6,
    0xc66, 0xce6, 0xd66, 0xde6, 0xe50, 0xed0, 0xf20, 0x1040, 0x1090, 0x17e0,
    0x1810, 0x1946, 0x19d0, 0x1a80, 0x1a90, 0x1b50, 0x1bb0, 0x1c40, 0x1c50, 0xa620,
    0xa8d0, 0xa900, 0xa9d0, 0xa9f0, 0xaa50, 0xabf0, 0xff10, 0x104a0, 0x10d30, 0x11066,
    0x110f0, 0x11136, 0x111d0, 0x112f0, 0x11450, 0x114d0, 0x11650, 0x116c0, 0x11730, 0x118e0,
    0x11950, 0x11c50, 0x11d50, 0x11da0, 0x16a60, 0x16ac0, 0x16b50, 0x1d7ce, 0x1d7d8, 0x1d7e2,
    0x1d7ec, 0x1d7f6, 0x1e140, 0x1e2f0, 0x1e950, 0x1fbf0]

/-- The value of a decimal digit of any script. -/
def digit? (c : Char) : Option Nat :=
  (zeros.find? fun z => z ≤ c.toNat && c.toNat < z + 10).map (c.toNat - ·)

/-! ## Numerals -/

/-- The values of one or more digits, any two of which may be set off by an underscore. -/
def digits? : Text → Option (List Nat)
  | [] => none
  | [c] => (digit? c).map ([·])
  | c :: '_' :: t => do return (← digit? c) :: (← digits? t)
  | c :: t => do return (← digit? c) :: (← digits? t)

/-- The most digits that a numeral may have. -/
def maxDigits : Nat := 4300

/-- The number that some digits write in decimal places, unless there are too many. -/
def natural? (t : Text) : Option Nat := do
  let ds ← digits? t
  if maxDigits < ds.length then none
  return ds.foldl (fun n d => 10 * n + d) 0

/-- White space that may surround a numeral; information separators may not. -/
def isNumeralSpace (c : Char) : Bool := isSpace c && !(0x1c ≤ c.toNat && c.toNat ≤ 0x1f)

/-- The integer that a numeral with at most one sign writes. -/
def integer? (t : Text) : Option Int :=
  match dropRight isNumeralSpace (t.dropWhile isNumeralSpace) with
  | '+' :: t => (natural? t).map Int.ofNat
  | '-' :: t => (natural? t).map fun n => -Int.ofNat n
  | t => (natural? t).map Int.ofNat

end Text

end Inflection
