import Inflection.Noted

/-! # Patterns: what a rule accepts

A pattern is a row of elements. It is written as it matches: brackets enclose slots, all other
characters stand for themselves. A bracket that encloses nothing, or that none closes, stands for
itself too, and is reported. -/

namespace Inflection

/-- One element of the left-hand side of a rule. -/
inductive Element where
  /-- A character that stands for itself. -/
  | literal (char : Char)
  /-- Any run of characters. -/
  | wildcard (name : Text)
  /-- One of the alternatives. -/
  | choice (name : Text) (alternatives : List Text)
  /-- One of the alternatives, or nothing. -/
  | optional (name : Text) (alternatives : List Text)
deriving DecidableEq, Repr

namespace Element

/-- The name to which an element binds what it took. -/
def name? : Element → Option Text
  | .literal _ => none
  | .wildcard n | .choice n _ | .optional n _ => some n

@[simp] theorem name?_literal (c : Char) : (literal c).name? = none := rfl
@[simp] theorem name?_wildcard (n : Text) : (wildcard n).name? = some n := rfl
@[simp] theorem name?_choice (n : Text) (as : List Text) : (choice n as).name? = some n := rfl
@[simp] theorem name?_optional (n : Text) (as : List Text) : (optional n as).name? = some n := rfl

end Element

/-- A pattern is matched from its first element on; after the last one, the text has to end. -/
abbrev Pattern := List Element

namespace Pattern

/-- The names that a match binds, each once. -/
def names (p : Pattern) : List Text := (p.filterMap Element.name?).eraseDups

@[simp] theorem mem_names {p : Pattern} {n : Text} : n ∈ p.names ↔ ∃ e ∈ p, e.name? = some n := by
  simp [names]

/-- The places in a pattern, the end included. -/
def places (p : Pattern) : Nat := p.length + 1

end Pattern

/-! ## Slots -/

abbrev Groups := Table Text (List Text)

/-- What stands between the brackets of a slot. -/
inductive Slot where
  | named (name : Text)
  /-- A star: the next number in order is its name. -/
  | numbered
  | group (optional : Bool) (name : Text)
  | inline (optional : Bool) (alternatives : List Text)
deriving DecidableEq, Repr

namespace Slot

/-- Reads what stands between two brackets, if anything does. A question mark makes a slot
optional, a number sign names a group, and an exclamation mark or a blank makes a list. -/
def read : Text → Option Slot
  | [] => none
  | '?' :: '#' :: t => some (.group true ('#' :: t))
  | '?' :: t => some (.inline true (t.splitOn ' '))
  | '#' :: t => some (.group false ('#' :: t))
  | '!' :: t => some (.inline false (t.splitOn ' '))
  | t =>
    if ' ' ∈ t then some (.inline false (t.splitOn ' '))
    else if t = ['*'] then some .numbered
    else some (.named t)

/-- Whether a slot takes a number, and with it the name of that number. -/
def isCounted : Slot → Bool
  | .named _ => false
  | _ => true

/-- The number of a slot as a name. -/
def numeral (n : Nat) : Text := (toString n).toList

/-- The alternatives of a group, none if it is unknown. -/
def lookUp (groups : Groups) (source group : Text) : Noted (List Text) :=
  match groups.get? group with
  | some alternatives => pure alternatives
  | none => do
    Noted.report (.unknownGroup group) source
    return []

/-- An element under the given name that takes one of the alternatives, or nothing if it may. -/
def alternation (optional : Bool) (name : Text) (alternatives : List Text) : Element :=
  if optional then .optional name alternatives else .choice name alternatives

/-- The element that a slot stands for, if its number is `n`. -/
def toElement (groups : Groups) (source : Text) (n : Nat) : Slot → Noted Element
  | .named name => pure (.wildcard name)
  | .numbered => pure (.wildcard (numeral n))
  | .group optional name => alternation optional (numeral n) <$> lookUp groups source name
  | .inline optional alternatives => pure (alternation optional (numeral n) alternatives)

end Slot

/-! ## Written patterns -/

namespace Pattern

/-- Reads the rest of a pattern, which starts at `position` and whose next number is `n`. -/
def readFrom (groups : Groups) (source : Text) (position n : Nat) : Text → Noted Pattern
  | [] => pure []
  | c :: t =>
    if c = '[' then
      match h : Text.cut? [']'] t with
      | none => do
        Noted.report (.unclosedSlot (c :: t)) source
        (.literal c :: ·) <$> readFrom groups source (position + 1) n t
      | some (body, rest) =>
        match Slot.read body with
        | none => do
          Noted.report (.emptySlot position) source
          (.literal c :: ·) <$> readFrom groups source (position + 1) n t
        | some slot => do
          have := Text.length_lt_of_cut? (by simp) h
          let element ← slot.toElement groups source n
          let next := if slot.isCounted then n + 1 else n
          (element :: ·) <$> readFrom groups source (position + body.length + 2) next rest
    else (.literal c :: ·) <$> readFrom groups source (position + 1) n t
termination_by t => t.length

/-- Reads a written pattern; slots are numbered from one on. -/
def read (groups : Groups) (source written : Text) : Noted Pattern := do
  let p ← readFrom groups source 0 1 written
  Noted.note (.patternRead written p.places)
  return p

end Pattern

end Inflection
