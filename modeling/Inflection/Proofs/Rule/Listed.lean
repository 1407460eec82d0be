import Inflection.Proofs.Rule.Compiled
import Mathlib.Data.List.Forall2

/-!
# Which lines of a file give rules

How a line of a rule file begins tells what it holds.  A definition has the first field `#def`, and
a number sign also anchors a pattern at the start of a form; the reader tells the two apart by the
first four characters of the line.  `Rule.ofLines_gives` says that each line that holds a rule gives
it, unless it begins with these, and that no other line gives any.  `Rule.ofLines_misses_anchored`
is a pattern that is anchored before `def`: its rule is lost.
-/

namespace Inflection

namespace RuleLine

/-- A line, without its break, that holds a rule: there is something on it, it is no comment, it has
one field or two, and the first of them does not announce a definition. -/
structure HoldsRule (line : Text) : Prop where
  not_blank : line.isBlank = false
  not_comment : ¬ "//".toList <+: line
  length_fields : (line.splitOn '\t').length ≤ 2
  not_definition : (line.splitOn '\t').head? ≠ some "#def".toList

instance (line : Text) : Decidable (HoldsRule line) :=
  decidable_of_iff
    (line.isBlank = false ∧ ¬ "//".toList <+: line ∧ (line.splitOn '\t').length ≤ 2 ∧
      (line.splitOn '\t').head? ≠ some "#def".toList)
    ⟨fun ⟨h₁, h₂, h₃, h₄⟩ => ⟨h₁, h₂, h₃, h₄⟩, fun ⟨h₁, h₂, h₃, h₄⟩ => ⟨h₁, h₂, h₃, h₄⟩⟩

/-- A line that the reader takes for a definition. -/
def BeginsDefinition (line : Text) : Prop := "#def".toList <+: line

instance (line : Text) : Decidable (BeginsDefinition line) :=
  inferInstanceAs (Decidable ("#def".toList <+: line))

variable {line : Text}

theorem read_of_beginsDefinition (h : BeginsDefinition line) : read line = .definition := by
  rw [read, if_pos (List.isPrefixOf_iff_prefix.2 h)]

/-- A line is its first field and what comes after it, a tab first. -/
theorem exists_eq_append_of_splitOn {field : Text} {fields : List Text}
    (h : line.splitOn '\t' = field :: fields) :
    ∃ rest, line = field ++ rest ∧ ∀ c ∈ rest.head?, c = '\t' := by
  have hline : ['\t'].intercalate (line.splitOn '\t') = line := List.intercalate_splitOn '\t'
  rw [h] at hline
  cases fields with
  | nil =>
    rw [List.intercalate_singleton] at hline
    exact ⟨[], by rw [hline, List.append_nil], by rintro c ⟨⟩⟩
  | cons field' fields =>
    rw [List.intercalate_cons_cons, List.append_assoc] at hline
    refine ⟨_, hline.symm, ?_⟩
    rintro c ⟨⟩
    rfl

/-- A line begins with a star if its first field does. -/
theorem head?_eq_star_iff {field : Text} {fields : List Text}
    (h : line.splitOn '\t' = field :: fields) : line.head? = some '*' ↔ field.head? = some '*' := by
  obtain ⟨rest, rfl, hrest⟩ := exists_eq_append_of_splitOn h
  cases field with
  | nil =>
    refine iff_of_false (fun hstar => ?_) (by rintro ⟨⟩)
    exact absurd (hrest '*' hstar) (by decide)
  | cons c field => rfl

theorem ofSides_of_head?_ne {lhs : Text} (h : lhs.head? ≠ some '*') (rhs : List Text) :
    ofSides lhs rhs = .pattern lhs rhs := by
  unfold ofSides
  split
  next => exact absurd rfl h
  next => rfl

/-- The sides of a rule are the fields of its line. -/
theorem read_of_holdsRule (h : HoldsRule line) (hdef : ¬ BeginsDefinition line) :
    ∃ lhs fields rhs, line.splitOn '\t' = lhs :: fields ∧ read line = ofSides lhs rhs := by
  have hcomment : "//".toList.isPrefixOf line = false :=
    Bool.eq_false_iff.2 fun hcomment => h.not_comment (List.isPrefixOf_iff_prefix.1 hcomment)
  have hlength := h.length_fields
  rw [read, if_neg (mt List.isPrefixOf_iff_prefix.1 hdef), h.not_blank, hcomment,
    if_neg (by decide)]
  rcases hfields : line.splitOn '\t' with _ | ⟨lhs, _ | ⟨rhs, _ | ⟨field, fields⟩⟩⟩
  · exact absurd hfields (List.splitOn_ne_nil _ _)
  · exact ⟨lhs, [], [[]], rfl, rfl⟩
  · exact ⟨lhs, [rhs], _, rfl, rfl⟩
  · rw [hfields, List.length_cons, List.length_cons, List.length_cons] at hlength
    omega

/-- A line that holds no rule and announces no definition is empty, a comment or malformed. -/
theorem read_of_not_holdsRule (h : ¬ HoldsRule line) (hdef : ¬ BeginsDefinition line) :
    read line = .nothing ∨ read line = .malformed := by
  rw [read, if_neg (mt List.isPrefixOf_iff_prefix.1 hdef)]
  split_ifs with hnothing
  · exact Or.inl rfl
  · rw [Bool.or_eq_true, not_or, Bool.not_eq_true, List.isPrefixOf_iff_prefix] at hnothing
    -- Its first field is not that of a definition either, so there must be too many fields.
    have hhead : (line.splitOn '\t').head? ≠ some "#def".toList := by
      intro hhead
      obtain ⟨fields, hfields⟩ := List.head?_eq_some_iff.1 hhead
      obtain ⟨rest, hline, -⟩ := exists_eq_append_of_splitOn hfields
      exact hdef ⟨rest, hline.symm⟩
    have hlength : ¬ (line.splitOn '\t').length ≤ 2 :=
      fun hlength => h ⟨hnothing.1, hnothing.2, hlength, hhead⟩
    rcases hfields : line.splitOn '\t' with _ | ⟨lhs, _ | ⟨rhs, _ | ⟨field, fields⟩⟩⟩
    · exact absurd hfields (List.splitOn_ne_nil _ _)
    · exact absurd (by rw [hfields]; simp) hlength
    · exact absurd (by rw [hfields]; simp) hlength
    · exact Or.inr rfl

end RuleLine

namespace Rule

/-- A rule that is read from a line and named by it: where the line begins with a star, one that
replaces what follows the star, and otherwise one for the padded left-hand side. -/
inductive Gives (line : Text) : Rule → Prop where
  | replacement {r : ReplacementRule} {fields : List Text} (hname : r.name = line)
      (hstar : line.head? = some '*') (hfields : line.splitOn '\t' = ('*' :: r.target) :: fields) :
      Gives line (.replacement r)
  | pattern {r : PatternRule} {lhs : Text} {fields : List Text} (hname : r.name = line)
      (hstar : line.head? ≠ some '*') (hfields : line.splitOn '\t' = lhs :: fields)
      (hwritten : r.written = Padding.padPattern lhs) : Gives line (.pattern r)

/-- A line that holds a rule and does not begin like a definition. -/
def IsRead (line : Text) : Prop := RuleLine.HoldsRule line ∧ ¬ RuleLine.BeginsDefinition line

instance (line : Text) : Decidable (IsRead line) :=
  inferInstanceAs (Decidable (RuleLine.HoldsRule line ∧ ¬ RuleLine.BeginsDefinition line))

variable (budget : Budget) (groups : Groups)

theorem value_readLine_replacement {line target : Text} {alternatives : List Text}
    (h : RuleLine.read line.chomp = .replacement target alternatives) :
    (readLine budget groups line).value.2 =
      some (.replacement (.ofAlternatives line.chomp target alternatives)) := by
  unfold readLine
  dsimp only
  rw [h]
  rfl

/-- A pattern rule is read with the groups that are known, and leaves them as they are. -/
theorem readLine_pattern {line lhs : Text} {rhs : List Text}
    (h : RuleLine.read line.chomp = .pattern lhs rhs) :
    readLine budget groups line =
      (fun r => (groups, some (.pattern r))) <$>
        PatternRule.read groups line.chomp (Padding.padPattern lhs)
          (rhs.map (Padding.padTemplate lhs)) budget := by
  unfold readLine
  dsimp only
  rw [h]
  exact bind_pure_comp _ _

/-- A line that is read as the sides of a rule gives that rule. -/
theorem exists_gives_of_isRead {line : Text} (h : IsRead line.chomp) :
    ∃ rule, (readLine budget groups line).value.2 = some rule ∧ Gives line.chomp rule := by
  obtain ⟨lhs, fields, rhs, hfields, hread⟩ := RuleLine.read_of_holdsRule h.1 h.2
  have hne : line.chomp ≠ [] := by
    intro hnil
    have hblank := h.1.not_blank
    rw [hnil] at hblank
    cases hblank
  have hstar := RuleLine.head?_eq_star_iff hfields
  by_cases hlhs : lhs.head? = some '*'
  · obtain ⟨target, rfl⟩ := List.head?_eq_some_iff.1 hlhs
    refine ⟨_, value_readLine_replacement budget groups hread, ?_⟩
    rw [ReplacementRule.ofAlternatives, if_neg (mt List.isEmpty_iff.1 hne)]
    exact .replacement rfl (hstar.2 hlhs) hfields
  · rw [RuleLine.ofSides_of_head?_ne hlhs] at hread
    refine ⟨_, congrArg (·.value.2) (readLine_pattern budget groups hread), ?_⟩
    rw [PatternRule.value_read groups hne]
    exact .pattern rfl (mt hstar.1 hlhs) hfields rfl

/-- No other line gives a rule. -/
theorem value_readLine_of_not_isRead {line : Text} (h : ¬ IsRead line.chomp) :
    (readLine budget groups line).value.2 = none := by
  unfold readLine
  dsimp only
  by_cases hdef : RuleLine.BeginsDefinition line.chomp
  · rw [RuleLine.read_of_beginsDefinition hdef]
    dsimp only
    rw [Noted.value_bind]
    split
    all_goals rfl
  · rcases RuleLine.read_of_not_holdsRule (fun hholds => h ⟨hholds, hdef⟩) hdef with hread | hread
    all_goals
      rw [hread]
      rfl

/-- **Which lines give rules.**  The rules of a file are those that its lines give, in their order:
each line that holds a rule gives one, unless it begins like a definition, and no other line gives
any. -/
theorem ofLines_gives (lines : List Text) :
    List.Forall₂ Gives ((lines.map Text.chomp).filter (IsRead ·))
      (ofLines budget groups lines).value := by
  show List.Forall₂ Gives _ (readLines budget groups lines).value.2
  induction lines generalizing groups with
  | nil => exact .nil
  | cons line lines ih =>
    show List.Forall₂ Gives _ ((readLine budget groups line).value.2.toList ++
      (readLines budget (readLine budget groups line).value.1 lines).value.2)
    have hrest := ih (readLine budget groups line).value.1
    rw [List.map_cons]
    by_cases hline : IsRead line.chomp
    · obtain ⟨rule, hrule, hgives⟩ := exists_gives_of_isRead budget groups hline
      rw [List.filter_cons, if_pos (decide_eq_true hline), hrule]
      exact .cons hgives hrest
    · rw [List.filter_cons, if_neg (by simpa using hline),
        value_readLine_of_not_isRead budget groups hline]
      exact hrest

/-- The line of a pattern that is anchored before `def` holds a rule.  It is reported as a malformed
definition, and gives none. -/
theorem ofLines_misses_anchored :
    let line : Text := "#defa\tb".toList
    RuleLine.HoldsRule line.chomp ∧ (ofLines {} [] [line]).value = [] ∧
      (ofLines {} [] [line]).reports = [⟨.malformedDefinition line, []⟩] ∧
      ¬ List.Forall₂ Gives (([line].map Text.chomp).filter (RuleLine.HoldsRule ·))
        (ofLines {} [] [line]).value := by
  intro line
  have hvalue : (ofLines {} [] [line]).value = [] := by decide +kernel
  have hlines : ([line].map Text.chomp).filter (RuleLine.HoldsRule ·) = [line] := by decide +kernel
  refine ⟨by decide +kernel, hvalue, by decide +kernel, ?_⟩
  rw [hvalue, hlines]
  exact fun h => by cases h

end Rule

end Inflection
