import Inflection.Generator
import Mathlib.Data.List.Basic

/-!
# What is noted where words are generated

While it generates words, a generator reports problems, tells of the rules that have matched, and
counts what is realized.  Whatever else is noted where a lexicon is unfolded is noted there.
-/

namespace Inflection

namespace Noted

variable {α β : Type} {P : Event → Prop}

/-- All that is noted has a property. -/
def Only (P : Event → Prop) (x : Noted α) : Prop := ∀ event ∈ x.events, P event

theorem only_pure (a : α) : Only P (pure a) := List.forall_mem_nil _

theorem only_note {event : Event} (h : P event) : Only P (note event) :=
  List.forall_mem_singleton.2 h

theorem Only.bind {x : Noted α} {f : α → Noted β} (hx : x.Only P) (hf : (f x.value).Only P) :
    Only P (x >>= f) := List.forall_mem_append.2 ⟨hx, hf⟩

theorem Only.map {x : Noted α} (hx : x.Only P) (f : α → β) : Only P (f <$> x) := hx

theorem Only.each {f : α → Noted β} {l : List α} (h : ∀ a ∈ l, (f a).Only P) :
    Only P (each f l) := by
  intro event hevent
  rw [events_each, List.mem_flatMap] at hevent
  obtain ⟨a, ha, hevent⟩ := hevent
  exact h a ha event hevent

theorem Only.foldlM {f : β → α → Noted β} (h : ∀ b a, (f b a).Only P) (l : List α) (b : β) :
    Only P (l.foldlM f b) := by
  induction l generalizing b with
  | nil => exact only_pure b
  | cons a l ih => exact (h b a).bind (ih _)

end Noted

open Noted

/-- An event that the generation of words brings about. -/
def Event.OfGeneration : Event → Prop
  | .reported _ | .ruleMatched .. | .generated .. => True
  | _ => False

/-- Writing a template reports references without a value. -/
theorem Template.only_expand (bindings : Bindings) (source : Text) (t : Template) :
    (expand bindings source t).Only Event.OfGeneration := by
  refine .map (.each fun piece _ => ?_) _
  unfold expandPiece
  split
  next => exact only_pure _
  next =>
    split
    next => exact only_pure _
    next => exact (only_note trivial).bind (only_pure _)

namespace Rule

theorem only_apply (r : Rule) (w : GlossedWord) : (r.apply w).Only Event.OfGeneration := by
  cases r with
  | pattern r =>
    show (r.apply w).Only _
    unfold PatternRule.apply
    split
    next => exact (only_note trivial).bind (only_pure _)
    next => exact only_pure _
    next found _ =>
      have hexpand := Only.each fun t (_ : t ∈ r.templates) =>
        Template.only_expand found.bindings r.name t
      exact hexpand.bind ((only_note trivial).bind (only_pure _))
  | replacement r => exact only_pure _

theorem only_offer (r : Rule) (w : GlossedWord) : (r.offer w).Only Event.OfGeneration := by
  refine (r.only_apply w).bind ?_
  split
  next => exact only_pure _
  next => exact only_pure _

theorem only_cascade (rules : List Rule) (ws : List GlossedWord) :
    (cascade rules ws).Only Event.OfGeneration :=
  .foldlM (fun _ r => .map (.each fun w _ => r.only_offer w) _) rules ws

end Rule

namespace Generator

variable (g : Generator)

theorem only_generate (ws : List GlossedWord) : (g.generate ws).Only Event.OfGeneration :=
  (Rule.only_cascade _ _).bind ((only_note trivial).bind (only_pure _))

theorem only_glosses (word pos : Text) : (g.glosses word pos).Only Event.OfGeneration := by
  unfold glosses
  split
  next => exact only_pure _
  next => exact (only_note trivial).bind (only_pure _)

/-- The inflections of a word are generated, and nothing else is noted on the way. -/
theorem only_inflections (word pos : Text) : (g.inflections word pos).Only Event.OfGeneration :=
  (g.only_glosses word pos).bind
    (.bind (.each fun gloss _ => g.only_generate [.ofGloss gloss]) (only_pure _))

end Generator

end Inflection
