import Inflection.Gloss
import Inflection.Pattern.Basic
import Inflection.Pattern.Match
import Inflection.Template

/-! # Rules -/

namespace Inflection

/-- A rule that changes the forms its pattern accepts, once for each of its templates. -/
structure PatternRule where
  name : Text
  /-- The pattern as it was written. -/
  written : Text
  pattern : Pattern
  templates : List Template
  budget : Budget := {}
deriving DecidableEq, Repr

/-- A rule that replaces a text wherever it stands, once for each of its alternatives. -/
structure ReplacementRule where
  name : Text
  target : Text
  alternatives : List Text
deriving DecidableEq, Repr

inductive Rule where
  | pattern (rule : PatternRule)
  | replacement (rule : ReplacementRule)
deriving DecidableEq, Repr

/-- What a rule makes of a word: the gloss as far as it is typed now, the form that was matched,
and one form for each alternative. -/
structure Realization where
  gloss : Text
  matched : Text
  outputs : List Text
deriving DecidableEq, Repr

/-- The words that a realization offers. -/
def Realization.words (r : Realization) : List GlossedWord := r.outputs.map (⟨r.gloss, ·⟩)

namespace PatternRule

/-- Reads a rule; one without a name is known by its pattern. -/
def read (groups : Groups) (name written : Text) (templates : List Text) (budget : Budget) :
    Noted PatternRule := do
  let name := if name.isEmpty then written else name
  let pattern ← Pattern.read groups name written
  let templates ← Template.readAll pattern.names name templates
  return { name, written, pattern, templates, budget }

/-- Applies the rule, unless its pattern refuses the form or the search for a match is given up. -/
def apply (r : PatternRule) (w : GlossedWord) : Noted (Option Realization) :=
  match r.pattern.search r.budget w.form {} with
  | (.error limit, _) => do
    Noted.report (.exhausted limit) r.name
    return none
  | (.ok false, _) => pure none
  | (.ok true, found) => do
    let outputs ← Noted.each (Template.expand found.bindings r.name) r.templates
    Noted.note (.ruleMatched r.name w.form found.bindings found.trace outputs)
    return some ⟨Gloss.fill (found.trace.map ([·])) w.gloss, w.form, outputs⟩

def label (r : PatternRule) : String := "MorphRule(" ++ r.name.quoted ++ ")"

end PatternRule

namespace ReplacementRule

/-- A rule without a name is known by its target, after a star. -/
def ofAlternatives (name target : Text) (alternatives : List Text) : ReplacementRule :=
  { name := if name.isEmpty then '*' :: target else name, target, alternatives }

/-- Applies the rule, unless its target is empty or does not stand in the form. -/
def apply (r : ReplacementRule) (w : GlossedWord) : Option Realization :=
  if r.target.isEmpty || !r.target.occursIn w.form then none
  else some ⟨w.gloss, w.form, r.alternatives.map fun a => Text.replace r.target a w.form⟩

def label (r : ReplacementRule) : String := "ReplaceRule(" ++ r.name.quoted ++ ")"

end ReplacementRule

namespace Rule

def name : Rule → Text
  | .pattern r => r.name
  | .replacement r => r.name

def label : Rule → String
  | .pattern r => r.label
  | .replacement r => r.label

def apply : Rule → GlossedWord → Noted (Option Realization)
  | .pattern r, w => r.apply w
  | .replacement r, w => pure (r.apply w)

end Rule

/-- A rule that has a name and nothing else; it cannot be applied. -/
structure UnwrittenRule where
  name : Text := "<?>".toList
deriving DecidableEq, Repr

namespace UnwrittenRule

/-- The refusal to apply a rule that is not written. -/
inductive Refusal where
  | unwritten
deriving DecidableEq, Repr

def Refusal.message : Refusal → String
  | .unwritten => ""

def apply (_ : UnwrittenRule) (_ : GlossedWord) : Except Refusal Realization := .error .unwritten

def label (r : UnwrittenRule) : String := "Rule(" ++ r.name.quoted ++ ")"

end UnwrittenRule

end Inflection
