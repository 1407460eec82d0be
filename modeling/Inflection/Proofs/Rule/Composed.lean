import Inflection.Proofs.Pattern.Brackets
import Inflection.Proofs.Rule.Listed
import Mathlib.Data.List.Induction

/-!
# Rule files in parts

A rule file can be read in parts: what comes below some lines is read with the groups that are known
once these have been read, and nothing else of them counts.  So a definition has no effect on the
rules above it, and a reference to a group means the last definition above it.  The table that is
given is a value: the lines are read with tables made from it, and whoever gave it still has it.

`Groups.update` says how definitions change a table of groups, `Rule.readLines_append` that reading
lines threads the table through them, and `Rule.Resolves` what the references to groups in a rule
are read as.  `Rule.ofLines_append` puts these together.
-/

namespace Inflection

/-- No other line is read as a definition than those that begin like one. -/
theorem RuleLine.read_eq_definition_iff {line : Text} :
    read line = .definition ↔ BeginsDefinition line := by
  refine ⟨fun h => by_contra fun hdef => ?_, read_of_beginsDefinition⟩
  by_cases hholds : HoldsRule line
  · obtain ⟨lhs, fields, rhs, -, hread⟩ := read_of_holdsRule hholds hdef
    rw [hread] at h
    unfold ofSides at h
    split at h
    all_goals cases h
  · rcases read_of_not_holdsRule hholds hdef with hread | hread
    all_goals cases hread.symm.trans h

namespace Groups

open RuleLine (BeginsDefinition)

/-! ## Definitions -/

/-- A well-formed definition of a group: a line that begins like a definition and has three fields,
of which the second is the name, and the third holds the alternatives, with blanks between them and
brackets around them. -/
def Defines (line name : Text) (alternatives : List Text) : Prop :=
  BeginsDefinition line ∧ ∃ first inner,
    line.splitOn '\t' = [first, name, '(' :: inner ++ [')']] ∧ inner.splitOn ' ' = alternatives

/-- The group that a line defines, if it does. -/
def definition? (line : Text) : Option (Text × List Text) :=
  if BeginsDefinition line then ofLine? line else none

variable {line name : Text} {alternatives : List Text}

theorem ofLine?_eq_some_iff : ofLine? line = some (name, alternatives) ↔
    ∃ first inner, line.splitOn '\t' = [first, name, '(' :: inner ++ [')']] ∧
      inner.splitOn ' ' = alternatives := by
  constructor
  · intro h
    unfold ofLine? at h
    split at h
    next first name' inner hfields =>
      rw [Option.ite_none_right_eq_some] at h
      obtain ⟨hlast, h⟩ := h
      cases h
      obtain ⟨inner, rfl⟩ := List.getLast?_eq_some_iff.1 hlast
      rw [List.dropLast_concat]
      exact ⟨first, inner, hfields, rfl⟩
    next => cases h
  · rintro ⟨first, inner, hfields, rfl⟩
    have hinner : (inner ++ [')']).getLast? = some ')' := List.getLast?_concat ..
    simp only [ofLine?, hfields, List.cons_append, hinner, if_true, List.dropLast_concat]

theorem definition?_eq_some_iff :
    definition? line = some (name, alternatives) ↔ Defines line name alternatives := by
  rw [definition?, Option.ite_none_right_eq_some, ofLine?_eq_some_iff, Defines]

/-- A line holds no well-formed definition of the group with a name. -/
def Omits (line name : Text) : Prop := ∀ alternatives, ¬ Defines line name alternatives

/-! ## Tables that are updated -/

/-- The definitions on some lines, from the top. -/
def definitionsOf (lines : List Text) : List (Text × List Text) :=
  lines.filterMap fun line => definition? line.chomp

/-- The table with some definitions, of which later ones replace earlier ones of the same name. -/
def update (groups : Groups) (definitions : List (Text × List Text)) : Groups :=
  definitions.foldl (fun groups d => groups.put d.1 d.2) groups

/-- What a name stands for below some lines: the alternatives of the last definition of it among
them, or those that are given for it if there is none. -/
inductive Means (groups : Groups) (name : Text) : List Text → List Text → Prop where
  | last {before after : List Text} {line : Text} {alternatives : List Text}
      (h : Defines line.chomp name alternatives) (hafter : ∀ l ∈ after, Omits l.chomp name) :
      Means groups name (before ++ line :: after) alternatives
  | given {lines alternatives : List Text} (h : groups.get? name = some alternatives)
      (hlines : ∀ l ∈ lines, Omits l.chomp name) : Means groups name lines alternatives

variable {groups : Groups}

theorem means_nil_iff : Means groups name [] alternatives ↔
    groups.get? name = some alternatives := by
  constructor
  · intro h
    generalize hlines : ([] : List Text) = lines at h
    cases h with
    | last => simp at hlines
    | given h => exact h
  · exact fun h => .given h (List.forall_mem_nil _)

/-- A line below the others counts before them. -/
theorem means_concat_iff {lines : List Text} :
    Means groups name (lines ++ [line]) alternatives ↔
      Defines line.chomp name alternatives ∨
        Omits line.chomp name ∧ Means groups name lines alternatives := by
  constructor
  · intro h
    generalize hlines : lines ++ [line] = lines' at h
    cases h with
    | @last before after line' _ h hafter =>
      rcases List.eq_nil_or_concat' after with rfl | ⟨after, l, rfl⟩
      · obtain ⟨-, heq⟩ := List.append_inj' hlines rfl
        cases heq
        exact Or.inl h
      · rw [← List.cons_append, ← List.append_assoc] at hlines
        obtain ⟨rfl, heq⟩ := List.append_inj' hlines rfl
        cases heq
        rw [List.forall_mem_append, List.forall_mem_singleton] at hafter
        exact Or.inr ⟨hafter.2, .last h hafter.1⟩
    | given h homits =>
      subst hlines
      rw [List.forall_mem_append, List.forall_mem_singleton] at homits
      exact Or.inr ⟨homits.2, .given h homits.1⟩
  · rintro (h | ⟨homits, h⟩)
    · exact .last h (List.forall_mem_nil _)
    · cases h with
      | last h hafter =>
        rw [List.append_assoc, List.cons_append]
        refine .last h ?_
        rw [List.forall_mem_append, List.forall_mem_singleton]
        exact ⟨hafter, homits⟩
      | given h hlines =>
        refine .given h ?_
        rw [List.forall_mem_append, List.forall_mem_singleton]
        exact ⟨hlines, homits⟩

theorem definitionsOf_cons (line : Text) (lines : List Text) :
    definitionsOf (line :: lines) = (definition? line.chomp).toList ++ definitionsOf lines := by
  rw [definitionsOf, List.filterMap_cons]
  cases definition? line.chomp <;> rfl

theorem definitionsOf_concat (lines : List Text) (line : Text) :
    definitionsOf (lines ++ [line]) = definitionsOf lines ++ (definition? line.chomp).toList := by
  rw [definitionsOf, List.filterMap_append, ← definitionsOf]
  exact congrArg _ ((definitionsOf_cons line []).trans (List.append_nil _))

theorem update_append (groups : Groups) (ds ds' : List (Text × List Text)) :
    groups.update (ds ++ ds') = (groups.update ds).update ds' := List.foldl_append

/-- A table that is updated with the definitions on some lines holds what names stand for below
them. -/
theorem get?_update_iff (lines : List Text) :
    (groups.update (definitionsOf lines)).get? name = some alternatives ↔
      Means groups name lines alternatives := by
  induction lines using List.reverseRecOn with
  | nil => exact means_nil_iff.symm
  | append_singleton lines line ih =>
    rw [definitionsOf_concat, update_append, means_concat_iff, ← ih]
    rcases hline : definition? line.chomp with _ | ⟨name', alternatives'⟩
    · have homits (as : List Text) : ¬ Defines line.chomp name as := by
        rw [← definition?_eq_some_iff, hline]
        rintro ⟨⟩
      exact ⟨fun h => Or.inr ⟨homits, h⟩, fun h => (h.resolve_left (homits _)).2⟩
    · have hdefines := definition?_eq_some_iff.1 hline
      show Table.get? name (Table.put name' alternatives' _) = _ ↔ _
      rw [Table.get?_put]
      split_ifs with hname
      · subst hname
        have honly (as : List Text) : Defines line.chomp name' as ↔ alternatives' = as := by
          rw [← definition?_eq_some_iff, hline]
          simp
        rw [Option.some_inj, honly]
        exact ⟨Or.inl, fun h => h.resolve_right fun h => h.1 _ hdefines⟩
      · have homits (as : List Text) : ¬ Defines line.chomp name as := by
          rw [← definition?_eq_some_iff, hline]
          simp [hname]
        exact ⟨fun h => Or.inr ⟨homits, h⟩, fun h => (h.resolve_left (homits _)).2⟩

end Groups

namespace Rule

open Groups

variable (budget : Budget) (groups : Groups)

/-! ## Reading in parts -/

/-- A line changes the table if it is a well-formed definition, and not otherwise. -/
theorem value_readLine_fst (line : Text) :
    (readLine budget groups line).value.1 = groups.update (definition? line.chomp).toList := by
  unfold readLine definition?
  dsimp only
  by_cases hdef : RuleLine.BeginsDefinition line.chomp
  · rw [RuleLine.read_of_beginsDefinition hdef, if_pos hdef]
    dsimp only
    rw [Noted.value_bind, readDefinition]
    rcases ofLine? line.chomp with _ | ⟨name, alternatives⟩
    · rfl
    · rfl
  · have hread := mt RuleLine.read_eq_definition_iff.1 hdef
    rw [if_neg hdef]
    split
    case h_2 h => exact absurd h hread
    all_goals rfl

/-- The table once some lines have been read is the one updated with their definitions. -/
theorem value_readLines_fst (lines : List Text) :
    (readLines budget groups lines).value.1 = groups.update (definitionsOf lines) := by
  induction lines generalizing groups with
  | nil => rfl
  | cons line lines ih =>
    rw [definitionsOf_cons, update_append, ← value_readLine_fst budget, ← ih]
    rfl

/-- What comes below some lines is read with the table that they leave. -/
theorem readLines_append (xs ys : List Text) :
    readLines budget groups (xs ++ ys) = (do
      let (known, rules) ← readLines budget groups xs
      (fun (known, rules') => (known, rules ++ rules')) <$> readLines budget known ys) := by
  induction xs generalizing groups with
  | nil => rfl
  | cons x xs ih =>
    rw [List.cons_append, readLines, readLines, bind_assoc]
    refine bind_congr fun (known, rule?) => ?_
    dsimp only
    rw [ih, map_bind, bind_map_left]
    refine bind_congr fun (known, rules) => ?_
    dsimp only
    rw [Functor.map_map]
    simp only [List.append_assoc]

theorem reports_ofLines (lines : List Text) :
    (ofLines budget groups lines).reports = (readLines budget groups lines).reports := by
  rw [ofLines, Noted.reports_bind]
  exact List.append_nil _

theorem value_ofLines_append (xs ys : List Text) :
    (ofLines budget groups (xs ++ ys)).value =
      (ofLines budget groups xs).value ++
        (ofLines budget (groups.update (definitionsOf xs)) ys).value := by
  show (readLines budget groups (xs ++ ys)).value.2 = _
  rw [readLines_append, ← value_readLines_fst budget]
  rfl

theorem reports_ofLines_append (xs ys : List Text) :
    (ofLines budget groups (xs ++ ys)).reports =
      (ofLines budget groups xs).reports ++
        (ofLines budget (groups.update (definitionsOf xs)) ys).reports := by
  rw [reports_ofLines, readLines_append, Noted.reports_bind, Noted.reports_map,
    value_readLines_fst, reports_ofLines, reports_ofLines]

/-- What stands on the first line is read with the table that is given. -/
theorem value_ofLines_cons (line : Text) (lines : List Text) :
    (ofLines budget groups (line :: lines)).value =
      (readLine budget groups line).value.2.toList ++
        (ofLines budget (groups.update (definition? line.chomp).toList) lines).value := by
  rw [← value_readLine_fst budget]
  rfl

theorem mem_reports_ofLines_cons {line : Text} {r : Report}
    (h : r ∈ (readLine budget groups line).reports) (lines : List Text) :
    r ∈ (ofLines budget groups (line :: lines)).reports := by
  rw [reports_ofLines, readLines, Noted.reports_bind]
  exact List.mem_append_left _ h

/-- A pattern rule on some line is read with the definitions above it. -/
theorem ofLines_append_cons {line lhs : Text} {rhs : List Text}
    (h : RuleLine.read line.chomp = .pattern lhs rhs) (above below : List Text) :
    let known := groups.update (definitionsOf above)
    let r := PatternRule.read known line.chomp (Padding.padPattern lhs)
      (rhs.map (Padding.padTemplate lhs)) budget
    (ofLines budget groups (above ++ line :: below)).value =
        (ofLines budget groups above).value ++
          .pattern r.value :: (ofLines budget known below).value ∧
      ∀ report ∈ r.reports, report ∈ (ofLines budget groups (above ++ line :: below)).reports := by
  intro known r
  have hline := readLine_pattern budget known h
  have hdef : definition? line.chomp = none := by
    refine if_neg fun hdef => ?_
    cases h.symm.trans (RuleLine.read_of_beginsDefinition hdef)
  constructor
  · rw [value_ofLines_append, value_ofLines_cons, hline, hdef]
    rfl
  · intro report hreport
    rw [reports_ofLines_append]
    refine List.mem_append_right _ (mem_reports_ofLines_cons budget known ?_ below)
    rw [hline, Noted.reports_map]
    exact hreport

/-! ## References to groups -/

/-- A written pattern refers to a group in the brackets that follow `before`, which leaves none
open. -/
def RefersTo (written before : Text) (o : Bool) (name : Text) : Prop :=
  ∃ body after, written = before ++ '[' :: body ++ ']' :: after ∧ Pattern.Complete before ∧
    ']' ∉ body ∧ Slot.read body = some (.group o name)

/-- Every reference to a group in a rule is an element with the alternatives that the name stands
for below some lines; if it stands for nothing there, it is one without alternatives, and among what
is reported. -/
def Resolves (above : List Text) (reports : List Report) (r : PatternRule) : Prop :=
  ∀ before o name, RefersTo r.written before o name →
    ∃ n alternatives rest,
      r.pattern = (Pattern.read (groups.update (definitionsOf above)) r.name before).value ++
          Slot.alternation o (Slot.numeral n) alternatives :: rest ∧
        (Means groups name above alternatives ∨
          alternatives = [] ∧ (∀ as, ¬ Means groups name above as) ∧
            ⟨.unknownGroup name, r.name⟩ ∈ reports)

/-- The element of a group has what the table holds under its name. -/
theorem toElement_group (source name : Text) (n : Nat) (o : Bool) :
    (Slot.group o name).toElement groups source n =
      match groups.get? name with
      | some alternatives => pure (Slot.alternation o (Slot.numeral n) alternatives)
      | none => do
        Noted.report (.unknownGroup name) source
        return Slot.alternation o (Slot.numeral n) [] := by
  rw [Slot.toElement, Slot.lookUp]
  cases groups.get? name <;> rfl

theorem resolves_value_read (above : List Text) {name : Text} (hname : name ≠ [])
    (written : Text) (templates : List Text) :
    let r := PatternRule.read (groups.update (definitionsOf above)) name written templates budget
    Resolves groups above r.reports r.value := by
  intro r before o group hrefers
  have hr : r.value = _ := PatternRule.value_read _ hname written templates budget
  rw [hr] at hrefers ⊢
  obtain ⟨body, after, rfl, hbefore, hbody, hslot⟩ := hrefers
  obtain ⟨n, rest, hpattern, hreports⟩ := Pattern.exists_read_slot
    (groups.update (definitionsOf above)) name hbefore hbody hslot after
  have hreports (report : Report) (h : report ∈ ((Slot.group o group).toElement
      (groups.update (definitionsOf above)) name n).reports) : report ∈ r.reports :=
    PatternRule.mem_reports_read _ hname (hreports report h)
  rw [toElement_group] at hpattern hreports
  rcases hget : (groups.update (definitionsOf above)).get? group with _ | alternatives
  · rw [hget] at hpattern hreports
    refine ⟨n, [], rest, hpattern, Or.inr ⟨rfl, fun as has => ?_, ?_⟩⟩
    · cases hget.symm.trans ((get?_update_iff above).2 has)
    · exact hreports _ List.mem_cons_self
  · rw [hget] at hpattern
    exact ⟨n, alternatives, rest, hpattern, Or.inl ((get?_update_iff above).1 hget)⟩

/-- **Rule files are read in parts.**  The rules of some lines and others below them are those of
the first lines, and below them those of the others, read with the table that is updated with the
well-formed definitions among the first ones; what is reported is what is reported of the two parts,
in the same order.  In the updated table, each name has the alternatives of the last definition of
it, or those that are given if there is none.  The pattern rule on any of the lines is read with the
table that is updated with the definitions above it, and so each reference to a group in it means
the last definition above; if the name stands for nothing, it is read as no alternatives, and
reported. -/
theorem ofLines_append (xs ys : List Text) :
    let known := groups.update (definitionsOf xs)
    (ofLines budget groups (xs ++ ys)).value =
        (ofLines budget groups xs).value ++ (ofLines budget known ys).value ∧
      (ofLines budget groups (xs ++ ys)).reports =
        (ofLines budget groups xs).reports ++ (ofLines budget known ys).reports ∧
      (∀ name alternatives,
        known.get? name = some alternatives ↔ Means groups name xs alternatives) ∧
      ∀ above line below lhs rhs, xs ++ ys = above ++ line :: below →
        RuleLine.read line.chomp = .pattern lhs rhs →
        let known' := groups.update (definitionsOf above)
        let r := (PatternRule.read known' line.chomp (Padding.padPattern lhs)
          (rhs.map (Padding.padTemplate lhs)) budget).value
        (ofLines budget groups (xs ++ ys)).value =
            (ofLines budget groups above).value ++
              .pattern r :: (ofLines budget known' below).value ∧
          Resolves groups above (ofLines budget groups (xs ++ ys)).reports r := by
  intro known
  refine ⟨value_ofLines_append budget groups xs ys, reports_ofLines_append budget groups xs ys,
    fun _ _ => get?_update_iff xs, fun above line below lhs rhs hlines hread => ?_⟩
  have hname : line.chomp ≠ [] := by
    intro hnil
    rw [hnil] at hread
    cases hread
  rw [hlines]
  obtain ⟨hvalue, hreports⟩ := ofLines_append_cons budget groups hread above below
  refine ⟨hvalue, fun before o name hrefers => ?_⟩
  obtain ⟨n, alternatives, rest, hpattern, hmeans⟩ :=
    resolves_value_read budget groups above hname _ _ before o name hrefers
  exact ⟨n, alternatives, rest, hpattern,
    hmeans.imp_right fun ⟨hnil, hnone, hmem⟩ => ⟨hnil, hnone, hreports _ hmem⟩⟩

/-- Of two rules that refer to a group, the one below a second definition of it is read with the
second. -/
theorem ofLines_append_example :
    let above : List Text :=
      ["#def\t#V\t(a i)".toList, "#[#V]#\t".toList, "#def\t#V\t(e)".toList]
    let line : Text := "#[#V]#\t".toList
    let r (alternatives : List Text) : PatternRule :=
      { name := line, written := "[#V]".toList, pattern := [.choice ['1'] alternatives],
        templates := [[]] }
    RuleLine.read line.chomp = .pattern "#[#V]#".toList [[]] ∧
      (ofLines {} [] (above ++ [line])).value =
        [.pattern (r [['a'], ['i']]), .pattern (r [['e']])] ∧
      RefersTo "[#V]".toList [] false "#V".toList ∧
      Resolves [] above [] (r [['e']]) ∧ Means [] "#V".toList above [['e']] := by
  intro above line r
  have hread : RuleLine.read line.chomp = .pattern "#[#V]#".toList [[]] := by decide +kernel
  have habove : (ofLines {} [] above).value = [.pattern (r [['a'], ['i']])] := by decide +kernel
  have hreports : (ofLines {} [] (above ++ [line])).reports = [] := by decide +kernel
  have hget : (update [] (definitionsOf above)).get? "#V".toList = some [['e']] := by
    decide +kernel
  obtain ⟨-, -, hmeans, hrules⟩ := ofLines_append {} [] above [line]
  obtain ⟨hvalue, hresolves⟩ := hrules above line [] "#[#V]#".toList [[]] rfl hread
  have hr : (PatternRule.read (update [] (definitionsOf above)) line.chomp
      (Padding.padPattern "#[#V]#".toList) ([[]].map (Padding.padTemplate "#[#V]#".toList))
      {}).value = r [['e']] := by
    decide +kernel
  rw [hr, habove] at hvalue
  rw [hr, hreports] at hresolves
  exact ⟨hread, hvalue, ⟨"#V".toList, [], rfl, .nil, by decide, rfl⟩, hresolves,
    (hmeans _ _).1 hget⟩

end Rule

end Inflection
