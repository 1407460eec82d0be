import Inflection.Noted

/-! # Templates: what a rule writes -/

namespace Inflection

inductive Piece where
  | text (run : Text)
  | reference (name : Text)
deriving DecidableEq, Repr

namespace Piece

/-- The name a piece refers to. -/
def name? : Piece → Option Text
  | .text _ => none
  | .reference n => some n

@[simp] theorem name?_text (t : Text) : (text t).name? = none := rfl
@[simp] theorem name?_reference (n : Text) : (reference n).name? = some n := rfl

/-- A piece as it is written. -/
def write : Piece → Text
  | .text t => t
  | .reference n => '[' :: n ++ [']']

end Piece

abbrev Template := List Piece

namespace Template

def write (t : Template) : Text := t.flatMap Piece.write

/-- The names a template refers to, in order. -/
def references (t : Template) : List Text := t.filterMap Piece.name?

def isBracket (c : Char) : Bool := c = '[' || c = ']'

theorem length_lt_of_dropWhile {p : Char → Bool} {t rest : Text} {c : Char}
    (h : t.dropWhile p = c :: rest) : rest.length < t.length := by
  have := (List.dropWhile_sublist p (l := t)).length_le
  rw [h, List.length_cons] at this
  omega

/-- Reads a template: a name between brackets is a reference, and an opening bracket that starts
none is a text of its own. -/
def read : Text → Template
  | [] => []
  | c :: t =>
    if c = '[' then
      match h : t.dropWhile (!isBracket ·) with
      | ']' :: rest =>
        have := length_lt_of_dropWhile h
        .reference (t.takeWhile (!isBracket ·)) :: read rest
      | _ => .text [c] :: read t
    else
      have := (List.dropWhile_sublist (· != '[') (l := t)).length_le
      .text (c :: t.takeWhile (· != '[')) :: read (t.dropWhile (· != '['))
termination_by t => t.length

/-- The references of some templates to names that are not `bound`, in order. -/
def strays (bound : List Text) (ts : List Template) : List Text :=
  (ts.flatMap references).filter (· ∉ bound)

/-- Reads the templates of a rule and reports each reference to a name that is not `bound`. -/
def readAll (bound : List Text) (source : Text) (written : List Text) : Noted (List Template) := do
  let templates := written.map read
  (strays bound templates).forM fun name => Noted.report (.unbound name) source
  return templates

/-- Writes a piece under bindings; a name without a value contributes nothing and is reported. -/
def expandPiece (bindings : Bindings) (source : Text) : Piece → Noted Text
  | .text t => pure t
  | .reference n =>
    match bindings.get? n with
    | some v => pure v
    | none => do
      Noted.report (.missing n) source
      return []

/-- The text that a template gives under bindings. -/
def expand (bindings : Bindings) (source : Text) (t : Template) : Noted Text :=
  List.flatten <$> Noted.each (expandPiece bindings source) t

end Template

end Inflection
