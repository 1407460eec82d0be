import Inflection.Proofs.Gloss.Filled
import Inflection.Proofs.Pattern.FirstDerivation
import Inflection.Proofs.Pattern.Typed
import Inflection.Rule.Basic

/-!
# What an application of a rule comes to
-/

namespace Inflection

namespace PatternRule

variable {r : PatternRule} {w : GlossedWord}

/-- What a rule makes of a word under what its search has found. -/
def realize (r : PatternRule) (w : GlossedWord) (found : Progress) : Realization where
  gloss := Gloss.fill (found.trace.map ([·])) w.gloss
  matched := w.form
  outputs := r.templates.map fun t => (Template.expand found.bindings r.name t).value

/-- A rule that applies has found a match, and realizes what that found. -/
theorem value_apply_eq_some_iff {z : Realization} :
    (r.apply w).value = some z ↔
      ∃ found, r.pattern.search r.budget w.form {} = (.ok true, found) ∧ z = r.realize w found := by
  unfold apply
  rcases r.pattern.search r.budget w.form {} with ⟨_ | _ | _, found⟩
  · simp
  · simp
  · simp [realize, eq_comm]

/-- A rule that applies takes the form by its first derivation, and types the gloss with the markers
that this records. -/
theorem exists_isFirst_of_apply {z : Realization} (hz : (r.apply w).value = some z) :
    ∃ ms, r.pattern.IsFirst w.form ms ∧
      (r.pattern.search r.budget w.form {}).2.trace = markersOf ms ∧
      z.gloss = Gloss.fill ((markersOf ms).map ([·])) w.gloss := by
  obtain ⟨found, hfound, rfl⟩ := value_apply_eq_some_iff.1 hz
  obtain ⟨ms, hfirst, -, htrace⟩ := Pattern.exists_isFirst_of_search hfound
  rw [List.append_nil] at htrace
  refine ⟨ms, hfirst, ?_, ?_⟩
  · rw [hfound, htrace]
  · rw [← htrace]
    rfl

end PatternRule

/-- A replacement leaves the gloss alone. -/
theorem ReplacementRule.eq_of_apply {r : ReplacementRule} {w : GlossedWord} {z : Realization}
    (hz : r.apply w = some z) :
    z = ⟨w.gloss, w.form, r.alternatives.map fun a => Text.replace r.target a w.form⟩ := by
  unfold apply at hz
  split at hz
  next => cases hz
  next => exact (Option.some.inj hz).symm

/-- A rule that applies types some of the first blanks of the gloss, if any. -/
theorem Rule.exists_retyped_of_apply {r : Rule} {w : GlossedWord} {z : Realization}
    (hz : (r.apply w).value = some z) : ∃ k, Gloss.Retyped k w.gloss z.gloss := by
  cases r with
  | pattern r =>
    obtain ⟨ms, ⟨⟨rest, htakes, -⟩, -⟩, -, hgloss⟩ := PatternRule.exists_isFirst_of_apply hz
    rw [hgloss]
    exact Gloss.retyped_fill htakes.isMarker_of_mem_markersOf w.gloss
  | replacement r =>
    obtain rfl := ReplacementRule.eq_of_apply hz
    exact ⟨0, .rest⟩

end Inflection
