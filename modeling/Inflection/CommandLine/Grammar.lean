import Inflection.Text.Basic

/-! # Arguments and their grammar

Arguments are options and positional arguments in any order. An option is known by its names; a
positional argument by its place. A long option may be cut short as long as it stays unique; its
value follows it, or is attached after an equals sign. A text may be attached to a short option
without one. Two dashes end the options. -/

namespace Inflection

/-! ## What arguments may be given -/

namespace CommandLine

/-- Why reading stops early. -/
inductive Stop where
  | help
  | misuse
deriving DecidableEq, Repr

/-- What an option does: `σ` is what it sets. -/
inductive Action (σ : Type) where
  | help
  | flag (setting : σ)
  /-- The option takes a value, which has to be acceptable. -/
  | value (setting : σ) (accepts : Text → Bool)

structure OptionForm (σ : Type) where
  names : List Text
  action : Action σ

/-- How many arguments a positional one stands for. -/
inductive Arity where
  | one
  | many
  /-- One argument with all that follows it, options included. -/
  | rest
deriving DecidableEq, Repr

structure Grammar (σ : Type) where
  options : List (OptionForm σ)
  positionals : List Arity

namespace Grammar

variable {σ : Type}

/-- The action of an option with exactly this name. -/
def action? (g : Grammar σ) (name : Text) : Option (Action σ) :=
  (g.options.find? (·.names.contains name)).map OptionForm.action

/-- The names of all options, with what they do. -/
def names (g : Grammar σ) : List (Text × Action σ) :=
  g.options.flatMap fun o => o.names.map (·, o.action)

end Grammar

/-! ## Arguments, one by one -/

variable {σ : Type}

/-- An option as it was met: what it does, its name, and the text attached to it, if any. -/
structure Occurrence (σ : Type) where
  action : Action σ
  name : Text
  attached : Option Text

namespace Occurrence

/-- Whether the name of an option is one dash and one character. -/
def isShort (o : Occurrence σ) : Bool := o.name[1]? ≠ some '-'

end Occurrence

inductive Token (σ : Type) where
  | argument (written : Text)
  /-- The two dashes that end the options. -/
  | separator
  | option (written : Text) (occurrence : Occurrence σ)
  | unknown (written : Text)

namespace Token

def isSeparator : Token σ → Bool
  | .separator => true
  | _ => false

def isOption : Token σ → Bool
  | .option .. | .unknown _ => true
  | _ => false

/-- A token as it was written. -/
def written : Token σ → Text
  | .argument t | .option t _ | .unknown t => t
  | .separator => ['-', '-']

end Token

namespace Grammar

/-- The options that a text which is no option's name can be meant for. -/
def candidates (g : Grammar σ) (t : Text) : List (Occurrence σ) :=
  match t with
  | '-' :: '-' :: _ =>
    let (stem, attached) := match Text.cut? ['='] t with
      | some (stem, value) => (stem, some value)
      | none => (t, none)
    (g.names.filter fun (name, _) => stem.isPrefixOf name).map fun (name, action) =>
      ⟨action, name, attached⟩
  | _ =>
    g.names.filterMap fun (name, action) =>
      if name = t.take 2 then some ⟨action, name, some (t.drop 2)⟩
      else if t.isPrefixOf name then some ⟨action, name, none⟩
      else none

end Grammar

/-- Whether a text is a dash before a number; such a text is no option. -/
def isNegative (t : Text) : Bool :=
  match t with
  | '-' :: t =>
    let isDigit (c : Char) : Bool := (Text.digit? c).isSome
    let t := if t.getLast? = some '\n' then t.dropLast else t
    match t.dropWhile isDigit with
    | [] => !t.isEmpty
    | '.' :: decimals => !decimals.isEmpty && decimals.all isDigit
    | _ => false
  | _ => false

namespace Grammar

/-- Reads one argument before the separator. -/
def token (g : Grammar σ) (t : Text) : Except Stop (Token σ) :=
  if t = [] ∨ t.head? ≠ some '-' ∨ t = ['-'] then .ok (.argument t)
  else
    match g.action? t with
    | some action => .ok (.option t ⟨action, t, none⟩)
    | none =>
      match (Text.cut? ['='] t).bind fun (name, value) =>
        (g.action? name).map fun action => Occurrence.mk action name (some value) with
      | some occurrence => .ok (.option t occurrence)
      | none =>
        match g.candidates t with
        | [occurrence] => .ok (.option t occurrence)
        | _ :: _ :: _ => .error .misuse
        | [] => .ok (if isNegative t || t.contains ' ' then .argument t else .unknown t)

/-- Reads all arguments. -/
def tokens (g : Grammar σ) : List Text → Except Stop (List (Token σ))
  | [] => .ok []
  | t :: ts =>
    if t = ['-', '-'] then .ok (.separator :: ts.map .argument)
    else do return (← g.token t) :: (← g.tokens ts)

end Grammar

end CommandLine

end Inflection
