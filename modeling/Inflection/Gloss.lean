import Inflection.Text.Basic

/-! # Glosses and their forms

A gloss names a lemma and its inflections; its form is what has been realized of it so far. The
morphemes of both are set off from each other by markers. In a gloss that has not been typed yet, a
blank stands for whichever marker belongs there, and rules type the blanks as they match. A form
that still holds the label of an inflection, or markers side by side with nothing between them, has
not been realized completely. -/

namespace Inflection

/-! ## Boundary markers -/

/-- The markers: plain, clitic, and the two halves of an infix slot. -/
def isMarker (c : Char) : Bool := c = '|' || c = '&' || c = '<' || c = '>'

/-- What stands for a marker not chosen yet. -/
def blank : Char := ' '

@[simp] theorem isMarker_blank : isMarker blank = false := rfl

/-! ## Words with their glosses -/

structure GlossedWord where
  gloss : Text
  form : Text
deriving DecidableEq, Repr

namespace GlossedWord

/-- A gloss that nothing has been realized of. -/
def ofGloss (gloss : Text) : GlossedWord := ⟨gloss, gloss⟩

/-- The gloss and the form, with a tab between them. -/
def line (w : GlossedWord) : Text := w.gloss ++ '\t' :: w.form

/-- The order by gloss, then by form. -/
def precedes (v w : GlossedWord) : Bool :=
  if v.gloss = w.gloss then Text.precedes v.form w.form else Text.precedes v.gloss w.gloss

end GlossedWord

namespace Gloss

/-- What the entries of a trace write into one blank after the other. The opening half of an infix
slot brings the closing half along, and uses up the entry after it. -/
def fillers : List Text → List Text
  | [] => []
  | ['<'] :: [] => [['<', '>']]
  | ['<'] :: _ :: trace => ['<', '>'] :: fillers trace
  | m :: trace => m :: fillers trace

/-- Writes one filler into each blank from the left, as long as there are both. -/
def fillBlanks : List Text → Text → Text
  | [], t => t
  | _, [] => []
  | f :: fs, c :: t => if c = blank then f ++ fillBlanks fs t else c :: fillBlanks (f :: fs) t

/-- Types the blanks of a gloss with the entries of a trace. -/
def fill (trace : List Text) (gloss : Text) : Text := fillBlanks (fillers trace) gloss

@[simp] theorem fillBlanks_nil (t : Text) : fillBlanks [] t = t := by cases t <;> rfl

@[simp] theorem fill_nil (gloss : Text) : fill [] gloss = gloss := fillBlanks_nil gloss

end Gloss

/-! ## What is not realized yet -/

/-- What to look for in a form. -/
inductive GlossFinder where
  | nothing
  /-- Any of the labels, earlier ones first, or a run of markers. -/
  | anyOf (labels : List Text)
deriving DecidableEq, Repr

namespace GlossFinder

/-- Longer labels come first, so that none hides behind one that it starts with. -/
def isBefore (a b : Text) : Bool :=
  if a.length = b.length then Text.precedes a b else b.length < a.length

/-- Looks for labels in which an underscore stands for a blank. -/
def ofLabels (labels : List Text) : GlossFinder :=
  .anyOf ((labels.mergeSort isBefore).map (Text.exchange '_' ' '))

/-- The longest run of markers at the start of a text, if it holds at least two. -/
def markerRun? (t : Text) : Option Text :=
  let run := t.takeWhile isMarker
  if 2 ≤ run.length then some run else none

/-- What is found at the start of a text. -/
def findHere? (labels : List Text) (t : Text) : Option Text :=
  (labels.find? (·.isPrefixOf t)).or (markerRun? t)

/-- The first place where something is found, and what it is. -/
def findFirst? (labels : List Text) : Text → Option (Nat × Text)
  | [] => (findHere? labels []).map (0, ·)
  | c :: t =>
    match findHere? labels (c :: t) with
    | some found => some (0, found)
    | none => (findFirst? labels t).map fun (i, found) => (i + 1, found)

def find? : GlossFinder → Text → Option (Nat × Text)
  | .nothing, _ => none
  | .anyOf labels, t => findFirst? labels t

/-- Whether anything is found in a form. -/
def finds (f : GlossFinder) (form : Text) : Bool := (f.find? form).isSome

end GlossFinder

end Inflection
