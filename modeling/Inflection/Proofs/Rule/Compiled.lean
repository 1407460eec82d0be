import Inflection.Rule.Line
import Mathlib.Tactic.SplitIfs

/-!
# Rules as they are compiled from lines

A pattern rule that comes out of a file stands on one of its lines, and both of its sides are padded
before they are read with the groups that are known at that line.
-/

namespace Inflection

namespace RuleLine

theorem ofSides_eq_pattern {lhs lhs' : Text} {rhs rhs' : List Text}
    (h : ofSides lhs rhs = .pattern lhs' rhs') : lhs' = lhs ∧ rhs' = rhs := by
  unfold ofSides at h
  split at h
  next => cases h
  next =>
    cases h
    exact ⟨rfl, rfl⟩

theorem ofSides_eq_replacement {lhs target : Text} {rhs rhs' : List Text}
    (h : ofSides lhs rhs = .replacement target rhs') : lhs = '*' :: target ∧ rhs' = rhs := by
  unfold ofSides at h
  split at h
  next =>
    cases h
    exact ⟨rfl, rfl⟩
  next => cases h

/-- A line without a tab before `rhs` has no other sides than these two. -/
theorem read_eq_pattern {lhs rhs lhs' : Text} {alternatives : List Text} (htab : '\t' ∉ lhs)
    (h : read (lhs ++ '\t' :: rhs) = .pattern lhs' alternatives) :
    lhs' = lhs ∧ alternatives = Text.split " || ".toList rhs := by
  have hsplit : (lhs ++ '\t' :: rhs).splitOn '\t' = lhs :: rhs.splitOn '\t' :=
    List.splitOn_append_cons_self_of_not_mem htab rhs
  unfold read at h
  split_ifs at h
  rw [hsplit] at h
  rcases hrhs : rhs.splitOn '\t' with _ | ⟨rhs', _ | ⟨part, parts⟩⟩
  · exact absurd hrhs (List.splitOn_ne_nil _ _)
  · have hjoin : ['\t'].intercalate (rhs.splitOn '\t') = rhs := List.intercalate_splitOn '\t'
    rw [hrhs, List.intercalate_singleton] at hjoin
    rw [hrhs, hjoin] at h
    exact ofSides_eq_pattern h
  · rw [hrhs] at h
    cases h

end RuleLine

/-- What is read of a rule that has a name. -/
theorem PatternRule.value_read (groups : Groups) {name : Text} (hname : name ≠ []) (written : Text)
    (templates : List Text) (budget : Budget) :
    (PatternRule.read groups name written templates budget).value =
      { name, written, pattern := (Pattern.read groups name written).value,
        templates := templates.map Template.read, budget } := by
  have hempty : name.isEmpty = false := List.isEmpty_eq_false_iff.2 hname
  unfold PatternRule.read
  rw [hempty, if_neg Bool.false_ne_true]
  rfl

/-- What is reported of the pattern of a rule is reported of the rule. -/
theorem PatternRule.mem_reports_read (groups : Groups) {name : Text} (hname : name ≠ [])
    {written : Text} {templates : List Text} {budget : Budget} {r : Report}
    (h : r ∈ (Pattern.read groups name written).reports) :
    r ∈ (PatternRule.read groups name written templates budget).reports := by
  have hempty : name.isEmpty = false := List.isEmpty_eq_false_iff.2 hname
  unfold PatternRule.read
  rw [hempty, if_neg Bool.false_ne_true, Noted.reports_bind]
  exact List.mem_append_left _ h

namespace Rule

variable {budget : Budget} {groups : Groups} {lines : List Text}

/-- A rule of a file stands on one of its lines. -/
theorem exists_of_mem_readLines {rule : Rule}
    (h : rule ∈ (readLines budget groups lines).value.2) :
    ∃ known, ∃ line ∈ lines, (readLine budget known line).value.2 = some rule := by
  induction lines generalizing groups with
  | nil => cases h
  | cons line lines ih =>
    rcases List.mem_append.1 h with h | h
    · exact ⟨groups, line, List.mem_cons_self, Option.mem_toList.1 h⟩
    · obtain ⟨known, line', hline', h⟩ := ih h
      exact ⟨known, line', List.mem_cons_of_mem _ hline', h⟩

theorem exists_of_readLine {line : Text} {r : PatternRule}
    (h : (readLine budget groups line).value.2 = some (.pattern r)) :
    ∃ lhs alternatives, RuleLine.read line.chomp = .pattern lhs alternatives ∧
      r = (PatternRule.read groups line.chomp (Padding.padPattern lhs)
        (alternatives.map (Padding.padTemplate lhs)) budget).value := by
  unfold readLine at h
  dsimp only at h
  split at h
  case h_5 lhs rhs hread =>
    cases h
    exact ⟨lhs, rhs, hread, rfl⟩
  case h_2 =>
    rw [Noted.value_bind] at h
    split at h
    all_goals cases h
  all_goals cases h

theorem exists_of_readLine_replacement {line : Text} {r : ReplacementRule}
    (h : (readLine budget groups line).value.2 = some (.replacement r)) :
    ∃ target alternatives, RuleLine.read line.chomp = .replacement target alternatives ∧
      r = .ofAlternatives line.chomp target alternatives := by
  unfold readLine at h
  dsimp only at h
  split at h
  case h_4 target alternatives hread =>
    cases h
    exact ⟨target, alternatives, hread, rfl⟩
  case h_2 =>
    rw [Noted.value_bind] at h
    split at h
    all_goals cases h
  all_goals cases h

/-- A pattern rule with two sides is read from both of them, padded. -/
theorem exists_of_mem_ofLines {r : PatternRule} {lhs rhs : Text}
    (h : .pattern r ∈ (ofLines budget groups lines).value) (hname : r.name = lhs ++ '\t' :: rhs)
    (htab : '\t' ∉ lhs) :
    ∃ known, r.pattern = (Pattern.read known r.name (Padding.padPattern lhs)).value ∧
      r.templates =
        (Text.split " || ".toList rhs).map (Template.read ∘ Padding.padTemplate lhs) := by
  obtain ⟨known, line, -, hline⟩ := exists_of_mem_readLines h
  obtain ⟨lhs', alternatives, hread, hr⟩ := exists_of_readLine hline
  generalize line.chomp = name at hread hr
  have hne : name ≠ [] := by
    rintro rfl
    cases hread
  rw [PatternRule.value_read known hne] at hr
  subst hr
  obtain rfl : name = lhs ++ '\t' :: rhs := hname
  obtain ⟨rfl, rfl⟩ := RuleLine.read_eq_pattern htab hread
  exact ⟨known, rfl, List.map_map⟩

end Rule

end Inflection
