import Inflection.Collection
import Inflection.Gloss
import Mathlib.Data.List.Basic

/-!
# Collections that are kept in order

The members of a collection determine the list that it is kept as: it is in order, and no member
stands in it twice.  So it matters neither in which order members come in nor how often.
-/

namespace Inflection

/-- Any two members are in order one way round, and in both ways only if they are equal. -/
structure IsOrder {α : Type} (isBefore : α → α → Bool) : Prop where
  total : ∀ a b, isBefore a b || isBefore b a
  antisymm : ∀ a b, isBefore a b → isBefore b a → a = b
  trans : ∀ a b c, isBefore a b → isBefore b c → isBefore a c

theorem Text.isOrder_precedes : IsOrder Text.precedes where
  total := precedes_total
  antisymm _ _ := precedes_antisymm
  trans _ _ _ := precedes_trans

namespace GlossedWord

theorem precedes_iff {v w : GlossedWord} :
    precedes v w ↔
      Text.precedes v.gloss w.gloss ∧ (v.gloss = w.gloss → Text.precedes v.form w.form) := by
  unfold precedes
  by_cases h : v.gloss = w.gloss
  · simp [h, Text.precedes_refl]
  · simp [h]

theorem isOrder_precedes : IsOrder precedes where
  total v w := by
    rw [Bool.or_eq_true, precedes_iff, precedes_iff]
    by_cases h : v.gloss = w.gloss
    · have hgloss := Text.precedes_refl w.gloss
      have hform := Text.precedes_total v.form w.form
      simp_all
    · have hgloss := Text.precedes_total v.gloss w.gloss
      simp_all [Ne.symm h]
  antisymm v w hvw hwv := by
    rw [precedes_iff] at hvw hwv
    have hgloss := Text.precedes_antisymm hvw.1 hwv.1
    have hform := Text.precedes_antisymm (hvw.2 hgloss) (hwv.2 hgloss.symm)
    cases v
    cases w
    exact congrArg₂ mk hgloss hform
  trans u v w huv hvw := by
    rw [precedes_iff] at huv hvw ⊢
    refine ⟨Text.precedes_trans huv.1 hvw.1, fun h => ?_⟩
    have hgloss : u.gloss = v.gloss := Text.precedes_antisymm huv.1 (h ▸ hvw.1)
    exact Text.precedes_trans (huv.2 hgloss) (hvw.2 (hgloss.symm.trans h))

end GlossedWord

variable {α : Type} [DecidableEq α] {isBefore : α → α → Bool}

/-- Dropping repetitions from a list that is in order leaves it in order. -/
theorem pairwise_foldr_keepFirst (ho : IsOrder isBefore) {l : List α}
    (hl : l.Pairwise (isBefore · ·)) :
    (l.foldr keepFirst []).Pairwise (fun a b => isBefore a b ∧ a ≠ b) := by
  induction l with
  | nil => exact .nil
  | cons a l ih =>
    obtain ⟨ha, hl⟩ := List.pairwise_cons.1 hl
    replace ih := ih hl
    rw [List.foldr_cons, keepFirst]
    split_ifs with hfirst
    · exact ih
    · refine List.pairwise_cons.2 ⟨fun b hb => ⟨ha b (mem_foldr_keepFirst.1 hb), ?_⟩, ih⟩
      rintro rfl
      -- A member that stands further back would come both before and after the first one.
      rcases hrest : l.foldr keepFirst [] with _ | ⟨b, rest⟩
      · rw [hrest] at hb
        cases hb
      · have hab := ha b (mem_foldr_keepFirst.1 (hrest ▸ List.mem_cons_self))
        rw [hrest] at hb hfirst ih
        have hne : a ≠ b := by
          rintro rfl
          exact hfirst rfl
        obtain ⟨hba, -⟩ := (List.pairwise_cons.1 ih).1 a (List.mem_of_ne_of_mem hne hb)
        exact hne (ho.antisymm a b hab hba)

theorem pairwise_distinct (ho : IsOrder isBefore) (l : List α) :
    (distinct isBefore l).Pairwise (fun a b => isBefore a b ∧ a ≠ b) :=
  pairwise_foldr_keepFirst ho (List.pairwise_mergeSort ho.trans ho.total l)

/-- A collection is known by its members. -/
theorem distinct_congr (ho : IsOrder isBefore) {l l' : List α} (h : ∀ a, a ∈ l ↔ a ∈ l') :
    distinct isBefore l = distinct isBefore l' := by
  have hl := pairwise_distinct ho l
  have hl' := pairwise_distinct ho l'
  have hperm : (distinct isBefore l).Perm (distinct isBefore l') := by
    refine (List.perm_ext_iff_of_nodup (hl.imp And.right) (hl'.imp And.right)).2 fun a => ?_
    rw [mem_distinct, mem_distinct]
    exact h a
  exact hperm.eq_of_pairwise (fun a b _ _ hab hba => ho.antisymm a b hab.1 hba.1) hl hl'

end Inflection
