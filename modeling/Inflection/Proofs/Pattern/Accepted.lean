import Inflection.Proofs.Pattern.BudgetLaw
import Inflection.Proofs.Pattern.FirstDerivation

/-!
# Acceptance

A pattern accepts a text if the search for it succeeds within every budget that is large enough.
How large that is depends on the course of the search; that it is enough does not, so acceptance is
nothing but having a derivation.
-/

namespace Inflection

namespace Pattern

variable {p : Pattern} {t : Text}

/-- The search succeeds within every budget that is large enough. -/
def Accepts (p : Pattern) (t : Text) : Prop :=
  ∃ steps depth : Nat, ∀ b : Budget, steps ≤ b.maxSteps → depth ≤ b.maxDepth →
    (p.search b t {}).1 = .ok true

/-- A budget that covers all visits is not exceeded. -/
theorem search_ne_error {b : Budget} (hsteps : ((p.explore t).visits : Int) ≤ b.maxSteps)
    (hdepth : ((p.explore t).deepest : Int) ≤ b.maxDepth) (limit : Limit) :
    (p.search b t {}).1 ≠ .error limit := by
  have hsearch : (p.search b t {}).1 = (p.explore t).answer Empty.elim := by
    rw [search_eq_under, Exploration.under_of_le id b Empty.elim rfl rfl
      (explore_depths_ne_nil p t) ⟨hsteps, hdepth⟩]
  rw [hsearch, Exploration.answer]
  rcases (p.explore t).outcome with d | found
  · exact d.elim
  · rintro ⟨⟩

theorem accepts_iff : p.Accepts t ↔ ∃ ms, p.Derives t ms := by
  constructor
  · rintro ⟨steps, depth, h⟩
    have htrue := h ⟨steps, depth⟩ (Int.le_refl _) (Int.le_refl _)
    rcases hr : p.search ⟨steps, depth⟩ t {} with ⟨r, s⟩
    rw [hr] at htrue
    obtain rfl : r = .ok true := htrue
    obtain ⟨ms, hfirst, -⟩ := exists_isFirst_of_search hr
    exact ⟨ms, hfirst.1⟩
  · rintro ⟨ms, hms⟩
    refine ⟨(p.explore t).visits, (p.explore t).deepest, fun b hsteps hdepth => ?_⟩
    obtain ⟨found, ms', hfound, -⟩ := exists_search_eq hms (search_ne_error hsteps hdepth)
    rw [hfound]

/-- A search that fails within one budget succeeds within none. -/
theorem not_accepts_of_search {b : Budget} (h : (p.search b t {}).1 = .ok false) :
    ¬ p.Accepts t := by
  rw [accepts_iff]
  rintro ⟨ms, hms⟩
  rcases hr : p.search b t {} with ⟨r, s⟩
  rw [hr] at h
  obtain rfl : r = .ok false := h
  exact not_derives_of_search hr ms hms

end Pattern

end Inflection
