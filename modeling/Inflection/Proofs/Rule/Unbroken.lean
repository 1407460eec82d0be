import Inflection.Proofs.Rule.Applied
import Inflection.Proofs.Rule.Compiled
import Inflection.Proofs.Template.Reading
import Inflection.Proofs.Text.Unbroken

/-!
# Rules write no line breaks

A rule writes what it has matched and what it was written with, so if neither holds a line break,
then no form and no gloss that comes out of it does.
-/

namespace Inflection

open Text (Unbroken unbroken_nil unbroken_append unbroken_cons)

/-! ## What is written for a match -/

/-- What a template writes is made of its runs and of what names are bound to. -/
theorem Template.unbroken_expand {t : Template} (ht : ∀ run, .text run ∈ t → Unbroken run)
    {bindings : Bindings} (hbindings : ∀ n v, bindings.get? n = some v → Unbroken v)
    (source : Text) : Unbroken (expand bindings source t).value := by
  show Unbroken ((Noted.each (expandPiece bindings source) t).value).flatten
  rw [Noted.value_each, Text.unbroken_flatten, List.forall_mem_map]
  intro piece hpiece
  cases piece with
  | text run => exact ht run hpiece
  | reference n =>
    unfold expandPiece
    dsimp only
    split
    next v hv => exact hbindings n v hv
    next => exact unbroken_nil

/-- Typing the blanks of a gloss writes markers into it. -/
theorem Gloss.Retyped.unbroken {k : Nat} {t u : Text} (h : Retyped k t u) (ht : Unbroken t) :
    Unbroken u := by
  intro c hc
  rcases h.mem_or_isMarker hc with hc | hmarker
  · exact ht c hc
  · simp only [isMarker, Bool.or_eq_true, decide_eq_true_eq] at hmarker
    rcases hmarker with ((rfl | rfl) | rfl) | rfl
    all_goals decide

/-- A name is bound to a part of the text that is matched. -/
theorem Pattern.unbroken_of_search {p : Pattern} {b : Budget} {t : Text} {found : Progress}
    (h : p.search b t {} = (.ok true, found)) (ht : Unbroken t) {n v : Text}
    (hv : found.bindings.get? n = some v) : Unbroken v := by
  obtain ⟨ms, ⟨⟨rest, htakes, -⟩, -⟩, hbindings, -⟩ := exists_isFirst_of_search h
  rw [hbindings, get?_boundBy, Table.get?, Option.or_none, List.lookup_eq_some_iff] at hv
  obtain ⟨before, after, hbound, -⟩ := hv
  have hmem : (n, v) ∈ ms.filterMap Move.bound? := by
    rw [hbound]
    exact List.mem_append_right _ List.mem_cons_self
  obtain ⟨m, hm, hb⟩ := List.mem_filterMap.1 hmem
  refine ht.subset fun c hc => ?_
  rw [htakes.eq_append]
  have htaken : c ∈ m.taken := by rwa [Move.taken_eq hb]
  exact List.mem_append_left _ (List.mem_flatMap_of_mem hm htaken)

/-! ## Rules -/

namespace Rule

/-- No line break stands in what a rule was written with. -/
def Unbroken : Rule → Prop
  | .pattern r => ∀ t ∈ r.templates, ∀ run, .text run ∈ t → Text.Unbroken run
  | .replacement r => ∀ a ∈ r.alternatives, Text.Unbroken a

/-- A rule makes an unbroken gloss and unbroken forms of a word that is unbroken. -/
theorem Unbroken.apply {r : Rule} (hr : r.Unbroken) {w : GlossedWord}
    (hgloss : Text.Unbroken w.gloss) (hform : Text.Unbroken w.form) {z : Realization}
    (hz : (r.apply w).value = some z) :
    Text.Unbroken z.gloss ∧ ∀ f ∈ z.outputs, Text.Unbroken f := by
  obtain ⟨k, hretyped⟩ := exists_retyped_of_apply hz
  refine ⟨hretyped.unbroken hgloss, ?_⟩
  cases r with
  | pattern r =>
    obtain ⟨found, hfound, rfl⟩ := PatternRule.value_apply_eq_some_iff.1 hz
    exact List.forall_mem_map.2 fun t ht => Template.unbroken_expand (hr t ht)
      (fun n v => Pattern.unbroken_of_search hfound hform) r.name
  | replacement r =>
    obtain rfl := ReplacementRule.eq_of_apply hz
    exact List.forall_mem_map.2 fun a ha => (hr a ha).replace hform

end Rule

/-! ## Rules of files -/

/-- The sides of a rule are parts of the line that it stands on. -/
theorem RuleLine.exists_sides (line : Text) (h : read line ≠ .definition ∧
    read line ≠ .nothing ∧ read line ≠ .malformed) :
    ∃ lhs rhs, read line = ofSides lhs rhs ∧ lhs ⊆ line ∧ ∀ a ∈ rhs, a ⊆ line := by
  obtain ⟨hdefinition, hnothing, hmalformed⟩ := h
  unfold read at hdefinition hnothing hmalformed ⊢
  split_ifs at hdefinition hnothing hmalformed ⊢
  all_goals try contradiction
  split at hmalformed
  next lhs hfields =>
    refine ⟨lhs, [[]], rfl, ?_, List.forall_mem_singleton.2 (List.nil_subset line)⟩
    exact Text.subset_of_mem_splitOn (hfields ▸ List.mem_cons_self)
  next lhs rhs hfields =>
    refine ⟨lhs, _, rfl, ?_, fun a ha => ?_⟩
    · exact Text.subset_of_mem_splitOn (hfields ▸ List.mem_cons_self)
    · have hrhs : rhs ⊆ line :=
        Text.subset_of_mem_splitOn (hfields ▸ List.mem_cons_of_mem _ List.mem_cons_self)
      exact fun c hc => hrhs (Text.subset_of_mem_split ha hc)
  next => exact absurd rfl hmalformed

/-- Padding writes no line breaks. -/
theorem Padding.unbroken_padTemplate {lhs rhs : Text} (hlhs : Unbroken lhs) (hrhs : Unbroken rhs) :
    Unbroken (padTemplate lhs rhs) := by
  have hstartSlot : Unbroken startSlot := by decide
  have hendSlot : Unbroken endSlot := by decide
  have hstart : Unbroken (startReference lhs) := by
    unfold startReference
    split
    · exact unbroken_nil
    · exact unbroken_nil
    · decide
    next c t _ =>
      split_ifs
      · exact hstartSlot
      · split
        next body rest hcut =>
          split_ifs
          · exact hstartSlot
          · rw [Text.eq_append_of_cut? hcut, unbroken_cons, unbroken_append,
              unbroken_append] at hlhs
            exact unbroken_append.2 ⟨unbroken_cons.2 ⟨hlhs.1, hlhs.2.1.1⟩, by decide⟩
        next => exact hstartSlot
    · exact hstartSlot
  unfold padTemplate
  dsimp only
  refine unbroken_append.2 ⟨?_, ?_⟩
  · split_ifs
    · exact hrhs
    · exact unbroken_append.2 ⟨hstart, hrhs⟩
  · split_ifs
    · exact unbroken_nil
    · exact hendSlot

namespace Rule

variable {budget : Budget} {groups : Groups} {lines : List Text}

/-- The rules on unbroken lines are unbroken. -/
theorem unbroken_of_mem_ofLines (hlines : ∀ line ∈ lines, Text.Unbroken line) {r : Rule}
    (hr : r ∈ (ofLines budget groups lines).value) : r.Unbroken := by
  obtain ⟨known, line, hline, hr⟩ := exists_of_mem_readLines hr
  have hchomp := (hlines line hline).subset (Text.chomp_subset line)
  cases r with
  | pattern r =>
    obtain ⟨lhs, rhs, hread, rfl⟩ := exists_of_readLine hr
    obtain ⟨lhs', rhs', hsides, hlhs, hrhs⟩ :=
      RuleLine.exists_sides line.chomp (by simp [hread])
    obtain ⟨rfl, rfl⟩ := RuleLine.ofSides_eq_pattern (hsides.symm.trans hread)
    intro t ht run hrun
    obtain ⟨written, hwritten, rfl⟩ := List.mem_map.1 ht
    obtain ⟨a, ha, rfl⟩ := List.mem_map.1 hwritten
    exact (Padding.unbroken_padTemplate (hchomp.subset hlhs) (hchomp.subset (hrhs a ha))).subset
      (Template.subset_of_text_mem hrun)
  | replacement r =>
    obtain ⟨target, rhs, hread, rfl⟩ := exists_of_readLine_replacement hr
    obtain ⟨lhs', rhs', hsides, -, hrhs⟩ := RuleLine.exists_sides line.chomp (by simp [hread])
    obtain ⟨-, rfl⟩ := RuleLine.ofSides_eq_replacement (hsides.symm.trans hread)
    exact fun a ha => hchomp.subset (hrhs a ha)

end Rule

end Inflection
