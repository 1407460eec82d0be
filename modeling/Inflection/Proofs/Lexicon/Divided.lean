import Inflection.Proofs.Generator.Runs
import Inflection.Proofs.Lexicon.Resumed
import Inflection.Proofs.Paradigm.Inflected

/-!
# Glosses divided at the headword

The columns of a line tell what stands before the headword in a gloss and what stands after it.  A
gloss is made of the headword between two affixes, and rules only type its blanks, so each column
should hold an affix with the blank that sets it off, or with what the blank is typed with.  But the
headword is looked for in the gloss as a text.  `Entry.splitGloss_inflection` says that the columns
are right if and only if it does not stand before its place, that is, if it holds no markers, if it
does not stand in the prefix; `Entry.splitGloss_cuts_prefix` is a gloss that is cut in the prefix.
-/

namespace Inflection

namespace Entry

variable {g : Generator} {e : Entry} {p : Paradigm} {w : GlossedWord}

/-- The gloss of an inflection is the headword between two affixes, each as far as it shows, but for
the blanks that are typed. -/
theorem exists_division (hp : g.paradigms.get? e.pos = some p) (hne : e.headword ≠ [])
    (hblank : blank ∉ e.headword) (hword : e.headword.Trimmed)
    (hw : w ∈ (g.inflections e.headword e.pos).value) :
    ∃ before ∈ p.prefixes, ∃ after ∈ p.suffixes, ∃ j k b a,
      Gloss.Retyped j (Paradigm.lead before) b ∧ Gloss.Retyped k (Paradigm.trail after) a ∧
      w.gloss = b ++ e.headword ++ a := by
  obtain ⟨gloss, hgloss, i, h⟩ := Generator.exists_retyped_of_mem_inflections hw
  rw [Generator.value_glosses hp, Paradigm.mem_glosses_iff] at hgloss
  obtain ⟨before, hbefore, after, hafter, rfl⟩ := hgloss
  rw [Paradigm.inflect_eq hne hword, List.append_assoc] at h
  obtain ⟨j, k, b, u, hu, hb, hrest⟩ := h.exists_of_append
  obtain ⟨a, rfl, ha⟩ := hrest.exists_eq_append hblank
  rw [← List.append_assoc] at hu
  exact ⟨before, hbefore, after, hafter, j, k, b, a, hb, ha, hu⟩

/-- **A gloss is divided at the headword, unless that stands before its place.**  The gloss of an
inflection is the headword between what shows of a prefix and what shows of a suffix, with some
blanks typed.  These are the two parts it is divided into if and only if the headword does not stand
in what comes before its last character there; a headword without markers only has to be kept out
of the prefix. -/
theorem splitGloss_inflection (hp : g.paradigms.get? e.pos = some p) (hne : e.headword ≠ [])
    (hblank : blank ∉ e.headword) (htrim : e.headword.trim = e.headword)
    (hw : w ∈ (g.inflections e.headword e.pos).value) :
    ∃ before ∈ p.prefixes, ∃ after ∈ p.suffixes, ∃ j k b a,
      Gloss.Retyped j (Paradigm.lead before) b ∧ Gloss.Retyped k (Paradigm.trail after) a ∧
      (p.Trimmed → Paradigm.lead before = (if before = [] then [] else before ++ [blank]) ∧
        Paradigm.trail after = if after = [] then [] else blank :: after) ∧
      w.gloss = b ++ e.headword ++ a ∧
      ((e.splitGloss w.gloss).value = some (b, a) ↔ ¬ e.headword <:+: b ++ e.headword.dropLast) ∧
      ((∀ c ∈ e.headword, isMarker c = false) →
        ((e.splitGloss w.gloss).value = some (b, a) ↔ ¬ e.headword <:+: before)) := by
  have hword : e.headword.Trimmed := htrim ▸ Text.trimmed_trim e.headword
  obtain ⟨before, hbefore, after, hafter, j, k, b, a, hb, ha, hgloss⟩ :=
    exists_division hp hne hblank hword hw
  have hsplit : (e.splitGloss w.gloss).value = some (b, a) ↔
      ¬ e.headword <:+: b ++ e.headword.dropLast := by
    rw [value_splitGloss, Text.cut?_eq_some_iff, hgloss, Text.leftmost_iff hne]
  refine ⟨before, hbefore, after, hafter, j, k, b, a, hb, ha, fun htrimmed => ?_, hgloss, hsplit,
    fun hmarker => ?_⟩
  · exact ⟨Paradigm.lead_eq_ite (htrimmed.prefixes before hbefore),
      Paradigm.trail_eq_ite (htrimmed.suffixes after hafter)⟩
  · rw [hsplit, (hb.append_right e.headword.dropLast).infix_iff hblank hmarker,
      Paradigm.infix_lead_append_iff hne hword hblank]

/-- A rule takes the last blank, and its marker goes into the first one. -/
theorem splitGloss_inflection_example :
    let p : Paradigm := ⟨[[], ['A']], [[], ['G']]⟩
    let genitive : PatternRule :=
      { name := ['g'], written := [], pattern := [.wildcard ['x'], .literal '|', .literal 'G'],
        templates := [[.reference ['x'], .text ['e']]] }
    let g : Generator := { rules := [.pattern genitive], paradigms := [(['N'], p)] }
    let e : Entry := ⟨['b'], ['N'], []⟩
    let w : GlossedWord := ⟨['A', '|', 'b', ' ', 'G'], ['A', ' ', 'b', 'e']⟩
    w ∈ (g.inflections e.headword e.pos).value ∧
      ∃ before ∈ p.prefixes, ∃ after ∈ p.suffixes, ∃ j k b a,
        Gloss.Retyped j (if before = [] then [] else before ++ [blank]) b ∧
        Gloss.Retyped k (if after = [] then [] else blank :: after) a ∧
        (e.splitGloss w.gloss).value = some (b, a) := by
  intro p genitive g e w
  have hp : g.paradigms.get? e.pos = some p := rfl
  have hgloss : ['A', ' ', 'b', ' ', 'G'] ∈ (g.glosses e.headword e.pos).value := by
    rw [Generator.value_glosses hp, Paradigm.mem_glosses_iff]
    exact ⟨['A'], by decide, ['G'], by decide, by decide⟩
  have hrun : Rule.Run g.rules (.ofGloss ['A', ' ', 'b', ' ', 'G']) w :=
    .step (.rewrite rfl List.mem_cons_self) .done
  have hw : w ∈ (g.inflections e.headword e.pos).value :=
    Generator.mem_inflections_iff.2
      ⟨_, hgloss, Generator.mem_generate_iff_run.2 ⟨⟨_, List.mem_singleton_self _, hrun⟩, rfl⟩⟩
  have hpair {c : Char} (hc : Text.isSpace c = false) : ∀ a ∈ [[], [c]], Text.Trimmed a :=
    List.forall_mem_cons.2
      ⟨Text.trimmed_nil, List.forall_mem_singleton.2 (Text.trimmed_singleton hc)⟩
  obtain ⟨before, hbefore, after, hafter, j, k, b, a, hb, ha, hshown, -, -, hsplit⟩ :=
    splitGloss_inflection hp (List.cons_ne_nil _ _) (by decide) rfl hw
  obtain ⟨hlead, htrail⟩ := hshown ⟨hpair rfl, hpair rfl⟩
  have hnot : ∀ t ∈ p.prefixes, ¬ e.headword <:+: t := by decide
  refine ⟨hw, before, hbefore, after, hafter, j, k, b, a, hlead ▸ hb, htrail ▸ ha, ?_⟩
  exact (hsplit (List.forall_mem_singleton.2 rfl)).2 (hnot before hbefore)

/-- A gloss is divided within an affix that holds the headword. -/
theorem splitGloss_cuts_prefix :
    let p : Paradigm := ⟨[[], ['b', 'a']], [[]]⟩
    let g : Generator := { rules := [], paradigms := [(['N'], p)] }
    let e : Entry := ⟨['a'], ['N'], []⟩
    let w : GlossedWord := .ofGloss ['b', 'a', ' ', 'a']
    g.paradigms.get? e.pos = some p ∧ blank ∉ e.headword ∧ e.headword.trim = e.headword ∧
      w ∈ (g.inflections e.headword e.pos).value ∧
      (e.splitGloss w.gloss).value = some (['b'], [' ', 'a']) ∧
      ∀ before ∈ p.prefixes, ∀ j,
        ¬ Gloss.Retyped j (if before = [] then [] else before ++ [blank]) ['b'] := by
  intro p g e w
  have hp : g.paradigms.get? e.pos = some p := rfl
  have hgloss : ['b', 'a', ' ', 'a'] ∈ (g.glosses e.headword e.pos).value := by
    rw [Generator.value_glosses hp, Paradigm.mem_glosses_iff]
    exact ⟨['b', 'a'], by decide, [], by decide, by decide⟩
  have hw : w ∈ (g.inflections e.headword e.pos).value :=
    Generator.mem_inflections_iff.2
      ⟨_, hgloss, Generator.mem_generate_iff_run.2 ⟨⟨_, List.mem_singleton_self _, .done⟩, rfl⟩⟩
  refine ⟨hp, by decide, rfl, hw, rfl, ?_⟩
  intro before hbefore j h
  rcases List.mem_pair.1 hbefore with rfl | rfl
  · cases h
  · obtain ⟨v, hv, -⟩ := h.exists_eq_append (f := ['b', 'a']) (t := [blank]) (by decide)
    cases hv

end Entry

end Inflection
