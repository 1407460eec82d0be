import Inflection.Affix
import Inflection.Gloss

/-! # Paradigms: the inflections of a part of speech

A line of a paradigm file holds the label of a part of speech between brackets, the expression for
what comes before a word on its left, and the one for what comes after it on its right. -/

namespace Inflection

structure Paradigm where
  prefixes : List Text
  suffixes : List Text
deriving DecidableEq, Repr

namespace Paradigm

/-- The paradigm that two written expressions describe. -/
def ofExpressions (left right : Text) : Noted Paradigm := do
  let prefixes ← Affix.expand left
  let suffixes ← Affix.expand right
  return { prefixes, suffixes }

/-- The paradigm with the given affixes and the empty ones. -/
def ofAffixes (prefixes suffixes : List Text) : Paradigm where
  prefixes := distinct Text.precedes ([] :: prefixes)
  suffixes := distinct Text.precedes ([] :: suffixes)

/-- A word between two affixes. -/
def inflect (word before after : Text) : Text :=
  Text.trim (before ++ ' ' :: word ++ ' ' :: after)

/-- The glosses that a word can take, each once. -/
def glosses (p : Paradigm) (word : Text) : List Text :=
  distinct Text.precedes
    (p.prefixes.flatMap fun before => p.suffixes.map (inflect word before))

end Paradigm

/-- The label of a part of speech, and the written expressions to its left and right. -/
structure ParadigmLine where
  left : Text
  pos : Text
  right : Text
deriving DecidableEq, Repr

namespace ParadigmLine

/-- Reads a line; the first opening bracket has to come before the first closing one. -/
def read (line : Text) : Option ParadigmLine := do
  let (left, rest) ← Text.cut? ['['] line
  if ']' ∈ left then none
  let (pos, right) ← Text.cut? [']'] rest
  return { left, pos, right }

end ParadigmLine

/-- The paradigms of a language, and the labels that their expressions mention. -/
structure Inventory where
  paradigms : Table Text Paradigm := []
  labels : List Text := []
deriving DecidableEq, Repr

namespace Inventory

/-- Adds what a line holds. Of two lines for one part of speech, the later one counts. -/
def addLine (i : Inventory) (line : Text) : Noted Inventory :=
  let line := line.chomp
  if line.isBlank then pure i
  else
    match ParadigmLine.read line with
    | none => do
      Noted.report (.malformedParadigm line)
      return i
    | some l => do
      let paradigm ← Paradigm.ofExpressions l.left l.right
      return {
        paradigms := i.paradigms.put l.pos paradigm
        labels := Affix.labels l.left ++ Affix.labels l.right ++ i.labels }

/-- The inventory of some lines, with each label once. -/
def ofLines (lines : List Text) : Noted Inventory := do
  let i ← lines.foldlM addLine {}
  let i := { i with labels := distinct Text.precedes i.labels }
  Noted.note (.paradigmsRead i.paradigms.length i.labels.length)
  return i

/-- Finds forms that a label of the inventory is left in; nothing, if it has no paradigm. -/
def finder (i : Inventory) : GlossFinder :=
  if i.paradigms.isEmpty then .nothing else .ofLabels i.labels

end Inventory

end Inflection
