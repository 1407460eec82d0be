import Inflection.Proofs.Pattern.Brackets
import Inflection.Proofs.Rule.Applied
import Inflection.Proofs.Template.Reading

/-!
# References that are checked twice

The references of a rule are checked against the names of its pattern when it is read, and against
the bindings of a match each time it is applied.  The two checks agree, as every derivation binds
the name of each element, whichever way it goes: `PatternRule.reports_apply` says that applying a
rule reports what reading it has reported, reference by reference, and that a rule that does not
apply reports nothing but the limit at which its search was given up.
-/

namespace Inflection

namespace Pattern

variable {p : Pattern} {t : Text} {b : Budget} {found : Progress}

/-- A match binds exactly the names of the pattern. -/
theorem mem_keys_of_search (h : p.search b t {} = (.ok true, found)) (n : Text) :
    n ∈ found.bindings.keys ↔ n ∈ p.names := by
  obtain ⟨ms, ⟨⟨rest, htakes, -⟩, -⟩, hbindings, -⟩ := exists_isFirst_of_search h
  rw [hbindings, mem_keys_boundBy, htakes.map_bound?, mem_names, List.mem_filterMap]
  exact or_iff_left List.not_mem_nil

/-- Reading a pattern reports nothing about references. -/
theorem filter_reports_read (groups : Groups) (source written : Text) :
    (read groups source written).reports.filter (·.kind = .unbound) = [] := by
  rw [List.filter_eq_nil_iff, reports_read]
  intro report hreport
  rw [kind_of_mem_reports_readFrom groups source written 0 1 report hreport]
  decide

end Pattern

namespace PatternRule

/-- What is reported of references where a rule is read: those that stray from the names of its
pattern. -/
theorem filter_reports_read (groups : Groups) (name written : Text) (rhs : List Text)
    (budget : Budget) :
    let reading := PatternRule.read groups name written rhs budget
    reading.reports.filter (·.kind = .unbound) =
      (Template.strays reading.value.pattern.names reading.value.templates).map
        (⟨.unbound ·, reading.value.name⟩) := by
  intro reading
  let r := reading.value
  have hreports : reading.reports = (Pattern.read groups r.name written).reports ++
      (Template.readAll r.pattern.names r.name rhs).reports := by
    show (PatternRule.read groups name written rhs budget).reports = _
    rw [PatternRule.read, Noted.reports_bind, Noted.reports_bind, Noted.reports_pure,
      List.append_nil]
    rfl
  rw [hreports, List.filter_append, Pattern.filter_reports_read, List.nil_append,
    Template.reports_readAll]
  refine List.filter_eq_self.2 fun report hreport => ?_
  obtain ⟨n, -, rfl⟩ := List.mem_map.1 hreport
  rfl

variable {r : PatternRule} {w : GlossedWord}

/-- A rule that applies reports the references that stray from the names of its pattern. -/
theorem reports_of_search {found : Progress}
    (h : r.pattern.search r.budget w.form {} = (.ok true, found)) :
    (r.apply w).reports =
      (Template.strays r.pattern.names r.templates).map (⟨.missing ·, r.name⟩) := by
  unfold apply
  rw [h]
  dsimp only
  rw [Noted.reports_bind, Template.reports_each_expand,
    Template.strays_congr (Pattern.mem_keys_of_search h)]
  exact List.append_nil _

/-- A rule that does not apply was refused by its pattern, and reports nothing, or its search was
given up, and it reports the limit. -/
theorem reports_of_apply_eq_none (h : (r.apply w).value = none) :
    ((r.pattern.search r.budget w.form {}).1 = .ok false ∧ (r.apply w).reports = []) ∨
      ∃ limit, (r.pattern.search r.budget w.form {}).1 = .error limit ∧
        (r.apply w).reports = [⟨.exhausted limit, r.name⟩] := by
  rcases hsearch : r.pattern.search r.budget w.form {} with ⟨limit | _ | _, found⟩
  · refine Or.inr ⟨limit, rfl, ?_⟩
    rw [apply, hsearch]
    rfl
  · refine Or.inl ⟨rfl, ?_⟩
    rw [apply, hsearch]
    rfl
  · have happly := value_apply_eq_some_iff.2 ⟨found, hsearch, rfl⟩
    cases h.symm.trans happly

/-- An application reports that a limit was exceeded exactly if its search was given up. -/
theorem exists_limitExceeded_iff :
    (∃ report ∈ (r.apply w).reports, report.kind = .limitExceeded) ↔
      ∃ limit, (r.pattern.search r.budget w.form {}).1 = .error limit := by
  rcases hvalue : (r.apply w).value with _ | z
  · rcases reports_of_apply_eq_none hvalue with ⟨hsearch, hreports⟩ | ⟨limit, hsearch, hreports⟩
    · rw [hsearch, hreports]
      exact iff_of_false (by rintro ⟨report, ⟨⟩, -⟩) (by rintro ⟨limit, ⟨⟩⟩)
    · rw [hreports]
      exact iff_of_true ⟨_, List.mem_cons_self, rfl⟩ ⟨limit, hsearch⟩
  · obtain ⟨found, hfound, -⟩ := value_apply_eq_some_iff.1 hvalue
    rw [reports_of_search hfound, hfound]
    refine iff_of_false ?_ (by rintro ⟨limit, ⟨⟩⟩)
    rintro ⟨report, hreport, hkind⟩
    obtain ⟨n, -, rfl⟩ := List.mem_map.1 hreport
    cases hkind

/-- **The two checks of a rule's references agree.**  Reading a rule reports the references of its
templates to names that its pattern does not bind.  Where the rule applies, exactly the names of the
pattern are bound, and the same references are reported, in the same order and as often.  Where it
does not, the limit at which its search was given up is reported, if it was, and nothing else. -/
theorem reports_apply (groups : Groups) (name written : Text) (rhs : List Text) (budget : Budget)
    (w : GlossedWord) :
    let reading := PatternRule.read groups name written rhs budget
    let r := reading.value
    let search := r.pattern.search r.budget w.form {}
    let strays := Template.strays (Pattern.read groups r.name written).value.names r.templates
    reading.reports.filter (·.kind = .unbound) = strays.map (⟨.unbound ·, r.name⟩) ∧
      (∀ z, (r.apply w).value = some z →
        (∀ n, n ∈ search.2.bindings.keys ↔
          n ∈ (Pattern.read groups r.name written).value.names) ∧
        (r.apply w).reports = strays.map (⟨.missing ·, r.name⟩)) ∧
      ((r.apply w).value = none →
        (search.1 = .ok false ∧ (r.apply w).reports = []) ∨
          ∃ limit, search.1 = .error limit ∧
            (r.apply w).reports = [⟨.exhausted limit, r.name⟩]) := by
  intro reading r search strays
  refine ⟨filter_reports_read groups name written rhs budget, fun z hz => ?_,
    reports_of_apply_eq_none⟩
  obtain ⟨found, hfound, -⟩ := value_apply_eq_some_iff.1 hz
  have hkeys : ∀ n, n ∈ search.2.bindings.keys ↔ n ∈ r.pattern.names := by
    show ∀ n, n ∈ (r.pattern.search r.budget w.form {}).2.bindings.keys ↔ _
    rw [hfound]
    exact Pattern.mem_keys_of_search hfound
  exact ⟨hkeys, reports_of_search hfound⟩

/-- An optional slot that takes nothing is bound all the same, and a name that strays is reported
once for each reference to it. -/
example :
    let reading := PatternRule.read [] [] "[?#a]b".toList ["[1][x]".toList, "[x]".toList] {}
    reading.reports.map Report.kind = [.malformed, .unbound, .unbound] ∧
      (reading.value.apply ⟨[], ['b']⟩).reports.map Report.problem =
        [.missing ['x'], .missing ['x']] := by
  decide +kernel

end PatternRule

end Inflection
