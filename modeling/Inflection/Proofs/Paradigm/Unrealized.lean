import Inflection.Proofs.Affix.Cores
import Inflection.Proofs.Generator.Runs
import Inflection.Proofs.Gloss.Found
import Mathlib.Data.List.Permutation

/-!
# Affixes are recognized as unrealized

The affixes of a paradigm come from reading its expressions, and the labels that are looked for in a
form come from cutting them.  `Inventory.finds_affix` says that an affix never goes without a label
and is therefore found in every form that holds it, as long as the labels have no white space at
their ends.  A label that has some is looked for with it, but read without it:
`Inventory.misses_affix_after_tab` shows an affix that is not found.
-/

namespace Inflection

namespace Inventory

open AffixExpression

/-- One of some labels stands in an affix, but for white space at the ends of the label, or two bars
do. -/
def Labels (labels : List Text) (a : Text) : Prop :=
  bars <:+: a ∨ ∃ l ∈ labels, l.trim ≠ [] ∧ l.trim <:+: a

theorem Labels.mono {labels labels' : List Text} {a : Text} (h : Labels labels a)
    (hsub : labels ⊆ labels') : Labels labels' a := by
  rcases h with h | ⟨l, hl, h⟩
  · exact Or.inl h
  · exact Or.inr ⟨l, hsub hl, h⟩

/-- The labels of an inventory hold no delimiters, and they label every affix but the empty one. -/
structure Labelled (i : Inventory) : Prop where
  isDelimiter : ∀ l ∈ i.labels, ∀ c ∈ l, Affix.isDelimiter c = false
  labels : ∀ pos p, i.paradigms.get? pos = some p → ∀ a, a ∈ p.prefixes ∨ a ∈ p.suffixes →
    a ≠ [] → Labels i.labels a

/-- In the expressions on a line, brackets and bars only stand around the alternatives of groups and
between them. -/
def PlainLine (line : Text) : Prop :=
  ∀ l, ParadigmLine.read line.chomp = some l →
    (read l.left).Plain ∧ (read l.right).Plain

/-- The labels that an expression mentions label the affixes that it describes. -/
theorem labels_expand {written a : Text} (hplain : (read written).Plain)
    (ha : a ∈ (Affix.expand written).value) (hne : a ≠ []) : Labels (Affix.labels written) a := by
  obtain ⟨k, hk | rfl, -, hpart⟩ := exists_core_infix hplain ha hne
  · obtain ⟨hk, l, hl, rfl⟩ := Affix.mem_cores.1 (mem_cores_of_read hk)
    exact Or.inr ⟨l, hl, hk, hpart⟩
  · exact Or.inl hpart

/-- A line leaves an inventory as it is, or adds a paradigm and the labels of its expressions. -/
theorem value_addLine (i : Inventory) (line : Text) :
    (i.addLine line).value = i ∨
      ∃ l, ParadigmLine.read line.chomp = some l ∧
        (i.addLine line).value =
          { paradigms := i.paradigms.put l.pos
              ⟨(Affix.expand l.left).value, (Affix.expand l.right).value⟩
            labels := Affix.labels l.left ++ Affix.labels l.right ++ i.labels } := by
  unfold addLine
  generalize line.chomp = line
  dsimp only
  split
  next => exact Or.inl rfl
  next =>
    cases ParadigmLine.read line with
    | none => exact Or.inl rfl
    | some l => exact Or.inr ⟨l, rfl, rfl⟩

/-- One more line keeps labels and affixes together. -/
theorem Labelled.addLine {i : Inventory} (h : i.Labelled) {line : Text} (hplain : PlainLine line) :
    (i.addLine line).value.Labelled := by
  rcases value_addLine i line with hvalue | ⟨l, hl, hvalue⟩
  · rwa [hvalue]
  rw [hvalue]
  obtain ⟨hleft, hright⟩ := hplain l hl
  constructor
  · refine List.forall_mem_append.2 ⟨List.forall_mem_append.2 ⟨?_, ?_⟩, h.isDelimiter⟩
    · exact fun k hk => (Affix.infix_of_mem_labels hk).2
    · exact fun k hk => (Affix.infix_of_mem_labels hk).2
  · intro pos p hp a ha hne
    rw [Table.get?_put] at hp
    split at hp
    next =>
      cases hp
      rcases ha with ha | ha
      · exact (labels_expand hleft ha hne).mono fun _ hl => by simp [hl]
      · exact (labels_expand hright ha hne).mono fun _ hl => by simp [hl]
    next => exact (h.labels pos p hp a ha hne).mono fun _ hl => List.mem_append_right _ hl

theorem labelled_foldl {lines : List Text} (hplain : ∀ line ∈ lines, PlainLine line)
    {i : Inventory} (h : i.Labelled) :
    (lines.foldl (fun i line => (i.addLine line).value) i).Labelled := by
  induction lines generalizing i with
  | nil => exact h
  | cons line lines ih =>
    rw [List.forall_mem_cons] at hplain
    exact ih hplain.2 (h.addLine hplain.1)

theorem labelled_ofLines {lines : List Text} (hplain : ∀ line ∈ lines, PlainLine line) :
    (ofLines lines).value.Labelled := by
  have hempty : Labelled {} := by
    refine ⟨List.forall_mem_nil _, ?_⟩
    rintro pos p ⟨⟩
  have hfold := labelled_foldl hplain hempty
  rw [← Noted.value_foldlM] at hfold
  constructor
  · exact fun l hl => hfold.isDelimiter l (mem_distinct.1 hl)
  · intro pos p hp a ha hne
    exact (hfold.labels pos p hp a ha hne).mono fun _ hl => mem_distinct.2 hl

/-- A label of an inventory that has a paradigm is found wherever it stands, and so are two bars. -/
theorem Labelled.finds {i : Inventory} (h : i.Labelled) {pos : Text} {p : Paradigm}
    (hp : i.paradigms.get? pos = some p) {l t : Text} (hl : l ∈ i.labels ∨ l = bars)
    (hpart : l <:+: t) : i.finder.finds t := by
  have hpos : i.paradigms.isEmpty = false := by
    rw [List.isEmpty_eq_false_iff]
    intro hnil
    rw [hnil] at hp
    cases hp
  rw [finder, hpos, if_neg Bool.false_ne_true, GlossFinder.ofLabels, GlossFinder.finds_anyOf_iff]
  rcases hl with hl | rfl
  · have hmem : l ∈ (i.labels.mergeSort GlossFinder.isBefore).map (Text.exchange '_' ' ') :=
      List.mem_map.2 ⟨l, List.mem_mergeSort.2 hl, Affix.exchange_label (h.isDelimiter l hl)⟩
    exact Or.inl ⟨l, hmem, hpart⟩
  · exact Or.inr ⟨bars, by decide, List.all_eq_true.1 rfl, hpart⟩

/-- **Every affix is labelled**: unless it is empty, a label stands in it, but for white space at
the ends of the label, or two bars do.  Where no label has white space at its ends, or where the
label without it is a label too, the affix is found in every form that holds it, and no form that
holds it is generated. -/
theorem finds_affix {lines : List Text} (hplain : ∀ line ∈ lines, PlainLine line) {pos : Text}
    {p : Paradigm} (hp : (ofLines lines).value.paradigms.get? pos = some p) {a : Text}
    (ha : a ∈ p.prefixes ∨ a ∈ p.suffixes) (hne : a ≠ []) :
    let i := (ofLines lines).value
    Labels i.labels a ∧
      ((∀ l ∈ i.labels, l.trim ≠ [] → l.trim ∈ i.labels) →
        (∀ x y, i.finder.finds (x ++ a ++ y)) ∧
          ∀ rules ws, ∀ w ∈ ((Generator.withInventory rules i).generate ws).value,
            ¬ a <:+: w.form) := by
  intro i
  have hi : i.Labelled := labelled_ofLines hplain
  have hlabel : Labels i.labels a := hi.labels pos p hp a ha hne
  refine ⟨hlabel, fun hlabels => ?_⟩
  have hfinds {t : Text} (h : a <:+: t) : i.finder.finds t := by
    rcases hlabel with hbars | ⟨l, hl, htrim, hpart⟩
    · exact hi.finds hp (Or.inr rfl) (hbars.trans h)
    · exact hi.finds hp (Or.inl (hlabels l hl htrim)) (hpart.trans h)
  refine ⟨fun x y => hfinds ⟨x, y, rfl⟩, fun rules ws w hw h => ?_⟩
  obtain ⟨-, hnot⟩ := Generator.mem_generate.1 hw
  exact Bool.false_ne_true (hnot.symm.trans (hfinds h))

/-- A token of two labels on the left, and on the right a token and a group, of which the affix
takes one each. -/
theorem finds_affix_example :
    let lines := ["P_Q[N]X (Y || Z)".toList]
    let i := (ofLines lines).value
    let suffixes := [[], ['X'], ['X', ' ', 'Y'], ['X', ' ', 'Z'], ['Y'], ['Z']]
    (∀ line ∈ lines, PlainLine line) ∧
      i.paradigms.get? ['N'] = some ⟨[[], ['P', ' ', 'Q']], suffixes⟩ ∧
      i.finder.finds (['k', 'a'] ++ ['X', ' ', 'Z'] ++ ['t']) := by
  intro lines i suffixes
  have hread : ParadigmLine.read (Text.chomp "P_Q[N]X (Y || Z)".toList) =
      some ⟨"P_Q".toList, ['N'], "X (Y || Z)".toList⟩ := by cbv
  have hleft : read "P_Q".toList = .token ['P', '_', 'Q'] .done := by cbv
  have hright : read "X (Y || Z)".toList =
      .token ['X'] (.group [.token ['Y'] .done, .token ['Z'] .done] .done) := by cbv
  have htoken {c : Char} (hc : c ≠ '(' ∧ c ≠ ')' ∧ c ≠ '|') : Plain (.token [c] .done) :=
    .token (Or.inr (List.forall_mem_singleton.2 hc)) .done
  have hgroup : Plain (.group [.token ['Y'] .done, .token ['Z'] .done] .done) :=
    .group (List.forall_mem_cons.2
      ⟨htoken (by decide), List.forall_mem_singleton.2 (htoken (by decide))⟩) .done
  have hplain : ∀ line ∈ lines, PlainLine line := by
    refine List.forall_mem_singleton.2 fun l hl => ?_
    obtain rfl := Option.some.inj (hread.symm.trans hl)
    rw [hleft, hright]
    exact ⟨.token (Or.inr (by simp)) .done, .token (Or.inr (by simp)) hgroup⟩
  have hp : i.paradigms.get? ['N'] = some ⟨[[], ['P', ' ', 'Q']], suffixes⟩ := by cbv
  have hlabels : i.labels = [['P'], ['Q'], ['X'], ['Y'], ['Z']] := by cbv
  have htrim : ∀ l ∈ i.labels, l.trim ≠ [] → l.trim ∈ i.labels := by
    rw [hlabels]
    decide
  have ha : ['X', ' ', 'Z'] ∈ suffixes := by decide
  have h := finds_affix hplain hp (Or.inr ha) (List.cons_ne_nil _ _)
  exact ⟨hplain, hp, (h.2 htrim).1 ['k', 'a'] ['t']⟩

/-- An affix that is written after a tab is read without it, but looked for with it. -/
theorem misses_affix_after_tab :
    let lines := ["[N]\tA".toList]
    let i := (ofLines lines).value
    (∀ line ∈ lines, PlainLine line) ∧ i.paradigms.get? ['N'] = some ⟨[[]], [[], ['A']]⟩ ∧
      i.finder.finds (['x'] ++ ['A'] ++ []) = false ∧
      ⟨['x', 'A'], ['x', 'A']⟩ ∈
        ((Generator.withInventory [] i).generate [.ofGloss ['x', 'A']]).value := by
  intro lines i
  have hread : ParadigmLine.read (Text.chomp "[N]\tA".toList) =
      some ⟨[], ['N'], "\tA".toList⟩ := by cbv
  have hleft : read [] = .done := by cbv
  have hright : read "\tA".toList = .token ['A'] .done := by cbv
  have hplain : ∀ line ∈ lines, PlainLine line := by
    refine List.forall_mem_singleton.2 fun l hl => ?_
    obtain rfl := Option.some.inj (hread.symm.trans hl)
    rw [hleft, hright]
    exact ⟨.done, .token (Or.inr (by simp)) .done⟩
  have hp : i.paradigms.get? ['N'] = some ⟨[[]], [[], ['A']]⟩ := by cbv
  have hfinds : i.finder.finds (['x'] ++ ['A'] ++ []) = false := by decide +kernel
  have hmem : ⟨['x', 'A'], ['x', 'A']⟩ ∈
      distinct GlossedWord.precedes [GlossedWord.ofGloss ['x', 'A']] :=
    mem_distinct.2 (List.mem_singleton_self _)
  exact ⟨hplain, hp, hfinds, Generator.mem_generate.2 ⟨hmem, hfinds⟩⟩

end Inventory

end Inflection
