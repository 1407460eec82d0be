import Inflection.Generator

/-! # Unfolding a lexicon into its forms

An entry of a lexicon names a headword, its part of speech and its meaning. It unfolds into one
line for each form that its inflections take: the form without markers, the form, what stands
before the headword in the glosses, the meaning, and what stands after the headword. -/

namespace Inflection

/-- A line of a lexicon: three fields with tabs between them. -/
structure Entry where
  headword : Text
  pos : Text
  meaning : Text
deriving DecidableEq, Repr

def Entry.read (line : Text) : Option Entry :=
  match line.splitOn '\t' with
  | [headword, pos, meaning] => some { headword, pos, meaning }
  | _ => none

/-- A form with the columns that describe it. -/
structure FormLine where
  form : Text
  before : List Text
  meaning : Text
  after : List Text
deriving DecidableEq, Repr

namespace FormLine

/-- A form without its markers. -/
def unmarked (form : Text) : Text := form.filter (!isMarker ·)

/-- Whether a text shows a plain boundary or an infix slot. -/
def isMarked (t : Text) : Bool := t.contains '|' || Text.occursIn ['<', '>'] t

/-- The line as it is written: five fields, with slashes between the parts of several glosses. -/
def write (l : FormLine) : Text :=
  ['\t'].intercalate
    [unmarked l.form, l.form, ['/'].intercalate l.before, l.meaning, ['/'].intercalate l.after]

/-- The unmarked form that a written line begins with, if the line shows a boundary. -/
def markedForm? (line : Text) : Option Text :=
  if isMarked line then (Text.cut? ['\t'] line).map Prod.fst else none

end FormLine

namespace Entry

/-- What stands before and after the headword in a gloss. -/
def splitGloss (e : Entry) (gloss : Text) : Noted (Option (Text × Text)) :=
  match Text.cut? e.headword gloss with
  | some parts => pure (some parts)
  | none => do
    Noted.note (.headwordMissing e.headword gloss)
    return none

/-- The line for one of the forms of some words. -/
def describe (e : Entry) (words : List GlossedWord) (form : Text) : Noted FormLine := do
  let glosses := (words.filter (·.form = form)).map GlossedWord.gloss
  let parts ← Noted.each e.splitGloss (glosses.mergeSort Text.precedes)
  let parts := parts.filterMap id
  let l : FormLine :=
    { form, before := parts.map Prod.fst, meaning := e.meaning, after := parts.map Prod.snd }
  Noted.note (.lineWritten l.write)
  return l

/-- The lines for all forms of an entry, in the order of the forms. -/
def unfold (g : Generator) (e : Entry) : Noted (List FormLine) := do
  let words ← g.inflections e.headword e.pos
  Noted.each (e.describe words) (distinct Text.precedes (words.map GlossedWord.form))

end Entry

namespace Lexicon

/-- Unfolds a line, unless its headword is a form that is known already. The forms that show a
boundary are known afterwards. -/
def unfoldLine (g : Generator) (known : List Text) (line : Text) :
    Noted (List Text × List FormLine) :=
  match Entry.read line with
  | none => do
    Noted.note (.malformedEntry line)
    return (known, [])
  | some e =>
    if known.contains e.headword then do
      Noted.note (.knownForm e.headword)
      return (known, [])
    else do
      let ls ← e.unfold g
      let marked := (ls.map FormLine.form).filter FormLine.isMarked
      return (marked.map FormLine.unmarked ++ known, ls)

/-- Unfolds lines from the top, each with the forms known above it. -/
def unfoldLines (g : Generator) : (known lines : List Text) → Noted (List FormLine)
  | _, [] => pure []
  | known, line :: lines => do
    let (known, ls) ← unfoldLine g known line
    (ls ++ ·) <$> unfoldLines g known lines

/-- Why a lexicon was not unfolded. -/
inductive Failure where
  | unreadable (error : ReadError)
  | unwritable (error : AccessError)
deriving DecidableEq, Repr

/-- The lines to be kept of what has been written before. -/
def previousLines (tree : FileTree) (output : Path) (append : Bool) :
    Except Failure (List Text) :=
  if append then
    match tree.contains output with
    | .error e => .error (.unwritable e)
    | .ok false => .ok []
    | .ok true =>
      match tree.readLines output with
      | .error e => .error (.unreadable e)
      | .ok lines => .ok (lines.filter (· ≠ []))
  else .ok []

/-- Unfolds the lexicon at one path into a file at another, below the lines that are kept of it,
and counts the lines that are new. Both paths are read before anything is written. -/
def unfold (g : Generator) (tree : FileTree) (input output : Path) (append : Bool) :
    Noted (Except Failure Nat × FileTree) :=
  match previousLines tree output append, tree.readLines input, tree.writable output with
  | .error e, _, _ => pure (.error e, tree)
  | .ok _, .error e, _ => pure (.error (.unreadable e), tree)
  | .ok _, .ok _, .error e => pure (.error (.unwritable e), tree)
  | .ok previous, .ok lines, .ok place => do
    previous.forM fun l => Noted.note (.lineWritten l)
    let ls ← unfoldLines g (previous.filterMap FormLine.markedForm?) (lines.filter (· ≠ []))
    Noted.note (.formsWritten ls.length output.toText)
    return (.ok ls.length, tree.write place (Text.unlines (previous ++ ls.map FormLine.write)))

end Lexicon

end Inflection
