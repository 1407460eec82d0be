import Inflection.Rule.Basic
import Inflection.Text.Basic

/-! # Rule files

A line defines a group of alternatives, holds a rule, or holds nothing. The two sides of a rule are
set off by a tab, and the alternatives of its right-hand side by double bars; a rule without a
right-hand side deletes what it matches.

A rule is written for the part of a form that it changes. Unless a number sign anchors it there,
its left-hand side is padded with a wildcard at either end, and its right-hand sides copy what the
two take. -/

namespace Inflection

/-! ## Padding -/

namespace Padding

def startSlot : Text := "[§start]".toList

def endSlot : Text := "[§end]".toList

/-- How a right-hand side refers to the start of a form: by the wildcard that the left-hand side
begins with, if it does, and by nothing if it is anchored. -/
def startReference : Text → Text
  | [] | '#' :: _ => []
  | '[' :: '*' :: ']' :: _ => "[1]".toList
  | '[' :: c :: t =>
    if c = '#' || c = '!' || c = '?' then startSlot
    else
      match Text.cut? [']'] (c :: t) with
      | some (body, _) => if ' ' ∈ body then startSlot else '[' :: body ++ [']']
      | none => startSlot
  | _ => startSlot

def isAnchoredAtEnd (lhs : Text) : Bool := lhs.getLast? = some '#'

/-- The text without a number sign at its start and one at its end. -/
def dropAnchors (lhs : Text) : Text :=
  let t := match lhs with
    | '#' :: t => t
    | t => t
  if isAnchoredAtEnd t then t.dropLast else t

def padLeft (lhs : Text) : Text :=
  if startReference lhs = startSlot then startSlot ++ lhs else lhs

def padRight (lhs : Text) : Text := if isAnchoredAtEnd lhs then lhs else lhs ++ endSlot

/-- The left-hand side, padded where it is not anchored. -/
def padPattern (lhs : Text) : Text := dropAnchors (padRight (padLeft lhs))

/-- A right-hand side that copies what the padding of its left-hand side takes. -/
def padTemplate (lhs rhs : Text) : Text :=
  let start := startReference lhs
  (if start.occursIn rhs then rhs else start ++ rhs) ++
    (if isAnchoredAtEnd lhs then [] else endSlot)

end Padding

/-! ## Lines -/

namespace Groups

/-- Reads the definition of a group: its name and its alternatives stand in the second and the
third of three fields, the alternatives between brackets. -/
def ofLine? (line : Text) : Option (Text × List Text) :=
  match line.splitOn '\t' with
  | [_, name, '(' :: inner] =>
    if inner.getLast? = some ')' then some (name, inner.dropLast.splitOn ' ') else none
  | _ => none

/-- Reads the definition of a group, or reports the line. -/
def readDefinition (line : Text) : Noted (Option (Text × List Text)) :=
  match ofLine? line with
  | some definition => pure (some definition)
  | none => do
    Noted.report (.malformedDefinition line)
    return none

end Groups

/-- What a line of a rule file holds. -/
inductive RuleLine where
  /-- A comment, or nothing but white space. -/
  | nothing
  | definition
  | replacement (target : Text) (alternatives : List Text)
  | pattern (lhs : Text) (rhs : List Text)
  | malformed
deriving DecidableEq, Repr

namespace RuleLine

/-- Tells the two kinds of rules apart. -/
def ofSides (lhs : Text) (rhs : List Text) : RuleLine :=
  match lhs with
  | '*' :: target => .replacement target rhs
  | _ => .pattern lhs rhs

/-- Reads a line that does not end in a line break. -/
def read (line : Text) : RuleLine :=
  if "#def".toList.isPrefixOf line then .definition
  else if line.isBlank || "//".toList.isPrefixOf line then .nothing
  else
    match line.splitOn '\t' with
    | [lhs] => ofSides lhs [[]]
    | [lhs, rhs] => ofSides lhs (Text.split " || ".toList rhs)
    | _ => .malformed

end RuleLine

namespace Rule

/-- Reads a line: the groups that are known below it, and the rule on it. -/
def readLine (budget : Budget) (groups : Groups) (line : Text) : Noted (Groups × Option Rule) :=
  let line := line.chomp
  match RuleLine.read line with
  | .nothing => pure (groups, none)
  | .definition => do
    match ← Groups.readDefinition line with
    | some (name, alternatives) => return (groups.put name alternatives, none)
    | none => return (groups, none)
  | .malformed => do
    Noted.report (.malformedRule line)
    return (groups, none)
  | .replacement target alternatives =>
    pure (groups, some (.replacement (.ofAlternatives line target alternatives)))
  | .pattern lhs rhs => do
    let rule ← PatternRule.read groups line (Padding.padPattern lhs)
      (rhs.map (Padding.padTemplate lhs)) budget
    return (groups, some (.pattern rule))

/-- Reads lines from the top, each with the groups defined above it. -/
def readLines (budget : Budget) : Groups → List Text → Noted (Groups × List Rule)
  | groups, [] => pure (groups, [])
  | groups, line :: lines => do
    let (groups, rule?) ← readLine budget groups line
    (fun (groups, rules) => (groups, rule?.toList ++ rules)) <$> readLines budget groups lines

/-- The rules of a file, in order. -/
def ofLines (budget : Budget) (groups : Groups) (lines : List Text) : Noted (List Rule) := do
  let (groups, rules) ← readLines budget groups lines
  Noted.note (.rulesRead rules.length groups.length)
  return rules

end Rule

end Inflection
