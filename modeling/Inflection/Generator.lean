import Inflection.Collection
import Inflection.File.Tree
import Inflection.Paradigm
import Inflection.Rule.Line

/-! # Generation

Words are pushed through the rules in order. Each rule is offered all words at once: one that it
applies to gives way to the words the rule makes of it, and one that it does not apply to passes
unchanged. What has not been realized completely at the end is dropped. -/

namespace Inflection

namespace Rule

/-- The words that come out where a word is offered to a rule. -/
def offer (r : Rule) (w : GlossedWord) : Noted (List GlossedWord) := do
  match ← r.apply w with
  | some realization => return realization.words
  | none => return [w]

/-- Offers all words to a rule. -/
def wave (r : Rule) (ws : List GlossedWord) : Noted (List GlossedWord) :=
  (fun outs => distinct GlossedWord.precedes outs.flatten) <$> Noted.each r.offer ws

/-- Offers all words to one rule after the other. -/
def cascade (rules : List Rule) (ws : List GlossedWord) : Noted (List GlossedWord) :=
  rules.foldlM (fun ws r => r.wave ws) ws

end Rule

structure Generator where
  rules : List Rule
  paradigms : Table Text Paradigm := []
  /-- Finds what marks a form as not realized. -/
  unrealized : GlossFinder := .nothing
deriving DecidableEq, Repr

namespace Generator

/-- The generator with the paradigms of an inventory. -/
def withInventory (rules : List Rule) (i : Inventory) : Generator where
  rules
  paradigms := i.paradigms
  unrealized := i.finder

/-- The words that are realized completely once all rules have been offered the given ones. -/
def generate (g : Generator) (ws : List GlossedWord) : Noted (List GlossedWord) := do
  let candidates ← Rule.cascade g.rules (distinct GlossedWord.precedes ws)
  let realized := candidates.filter fun w => !g.unrealized.finds w.form
  Noted.note (.generated realized.length candidates.length)
  return realized

/-- The glosses that a word can take. One of an unknown part of speech takes none but itself. -/
def glosses (g : Generator) (word pos : Text) : Noted (List Text) :=
  match g.paradigms.get? pos with
  | some paradigm => pure (paradigm.glosses word)
  | none => do
    Noted.report (.unknownPartOfSpeech pos) word
    return [word]

/-- The realized words of all glosses that a word can take. -/
def inflections (g : Generator) (word pos : Text) : Noted (List GlossedWord) := do
  let glosses ← g.glosses word pos
  let words ← Noted.each (fun gloss => g.generate [.ofGloss gloss]) glosses
  return distinct GlossedWord.precedes words.flatten

end Generator

/-! ## Generators from files -/

namespace Rule

/-- The rules in a file. -/
def load (tree : FileTree) (budget : Budget) (path : Text) :
    Noted (Except ReadError (List Rule)) := do
  Noted.note (.rulesOpened path)
  match tree.readLines (.ofText path) with
  | .error e => return .error e
  | .ok lines => return .ok (← ofLines budget [] lines)

end Rule

namespace Inventory

/-- The paradigms in a file. -/
def load (tree : FileTree) (path : Text) : Noted (Except ReadError Inventory) := do
  Noted.note (.paradigmsOpened path)
  match tree.readLines (.ofText path) with
  | .error e => return .error e
  | .ok lines => return .ok (← ofLines lines)

end Inventory

namespace Generator

/-- The generator with the rules in one file and the paradigms in another, if there is one. -/
def load (tree : FileTree) (budget : Budget) (rules : Text) (paradigms : Option Text) :
    Noted (Except ReadError Generator) := do
  match ← Rule.load tree budget rules with
  | .error e => return .error e
  | .ok rules =>
    match paradigms with
    | none => return .ok { rules }
    | some path =>
      match ← Inventory.load tree path with
      | .error e => return .error e
      | .ok inventory => return .ok (withInventory rules inventory)

end Generator

end Inflection
