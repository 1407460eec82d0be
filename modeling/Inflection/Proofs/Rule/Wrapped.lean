import Inflection.Proofs.Rule.Padded

/-!
# What padding changes of a left-hand side

Padding is written before a left-hand side is read, so the two can run into each other.
`Padding.exists_wrapped_iff` says when they do not: no bracket of the left-hand side is left open to
be closed by the end wildcard, and the left-hand side begins with nothing that is mistaken for a
wildcard or for the start wildcard, and with no wildcard that right-hand sides cannot refer to.
-/

namespace Inflection

open Pattern

namespace Padding

variable {groups : Groups} {source lhs : Text}

/-- Padding wraps a left-hand side in two wildcards, of which the first one has the name `n`, and
changes nothing else of how it is read. -/
structure Wrapped (groups : Groups) (source lhs n : Text) : Prop where
  value : (Pattern.read groups source (padPattern lhs)).value =
    .wildcard n :: (Pattern.read groups source lhs).value.own ++ [.wildcard endName]
  /-- A wildcard that the left-hand side begins with is the first one. -/
  leading : ∀ m, (Pattern.read groups source lhs).value.head? = some (.wildcard m) → m = n
  /-- What is reported is what is reported of the left-hand side alone, at the place where that
  stands now. -/
  reports : (Pattern.read groups source (padPattern lhs)).reports =
    (Pattern.read groups source lhs).reports.map
      (Report.moved ((padLeft lhs).length - lhs.length))
  /-- Every right-hand side refers to both wildcards. -/
  references : ∀ rhs, n ∈ (Template.read (padTemplate lhs rhs)).references ∧
    endName ∈ (Template.read (padTemplate lhs rhs)).references

/-! ## Where padding wraps -/

theorem references_padTemplate (h : Unanchored lhs) {n : Text}
    (href : startReference lhs = '[' :: n ++ [']']) (hn : ∀ c ∈ n, Template.isBracket c = false)
    (rhs : Text) :
    n ∈ (Template.read (padTemplate lhs rhs)).references ∧
      endName ∈ (Template.read (padTemplate lhs rhs)).references := by
  obtain ⟨t, t', hread⟩ := read_withStart href hn rhs
  rw [read_padTemplate h, hread]
  simp [Template.references]

theorem Wrapped.of_padded (hcomplete : Complete lhs) (h : Unanchored lhs)
    (href : startReference lhs = startSlot)
    (hown : (Pattern.read groups source lhs).value.own = (Pattern.read groups source lhs).value) :
    Wrapped groups source lhs startName where
  value := by rw [(read_padPattern groups source hcomplete h href).1, hown]
  leading m hm := by
    obtain ⟨p, hp⟩ := List.head?_eq_some_iff.1 hm
    rw [hp] at hown
    exact absurd hown.symm (List.cons_ne_self _ _)
  reports := by
    rw [(read_padPattern groups source hcomplete h href).2, padLeft, if_pos href,
      List.length_append, Nat.add_sub_cancel]
  references := references_padTemplate h href (by simp [startName, Template.isBracket])

theorem Wrapped.of_leading (hcomplete : Complete lhs) (h : Unanchored lhs) {n : Text} {p : Pattern}
    (href : startReference lhs = '[' :: n ++ [']']) (hne : n ≠ startName)
    (hn : ∀ c ∈ n, Template.isBracket c = false)
    (hread : (Pattern.read groups source lhs).value = .wildcard n :: p) :
    Wrapped groups source lhs n := by
  have hslot : startReference lhs ≠ startSlot := by
    rw [href, startSlot_eq, Ne, List.cons_append, List.cons_append, List.cons.injEq,
      List.append_left_inj]
    exact fun heq => hne heq.2
  obtain ⟨hvalue, hreports⟩ := read_padPattern_of_ne groups source hcomplete h hslot
  refine ⟨?_, ?_, ?_, references_padTemplate h href hn⟩
  · rw [hvalue, hread]
    rfl
  · intro m hm
    rw [hread] at hm
    cases hm
    rfl
  · rw [hreports, padLeft, if_neg hslot, Nat.sub_self, Report.map_moved_zero]

/-! ## Where it does not -/

theorem exists_padLeft {u : Text} (hu : Complete u) (v : Text) :
    ∃ u', Complete u' ∧ padLeft (u ++ v) = u' ++ v := by
  unfold padLeft
  split
  · refine ⟨'[' :: startName ++ ']' :: u, .slot (by decide) (by decide) hu, ?_⟩
    simp [startSlot_eq]
  · exact ⟨u, hu, rfl⟩

/-- A slot that holds the end wildcard and more is not the end wildcard. -/
theorem toElement_ne_end (groups : Groups) (source : Text) {v : Text} {slot : Slot}
    (hslot : Slot.read (v ++ '[' :: endName) = some slot) (n : Nat) :
    (slot.toElement groups source n).value ≠ .wildcard endName := by
  intro heq
  have hname := name?_toElement groups source hslot n
  rw [heq] at hname
  rcases hname with hname | hname
  · have hlength := congrArg (Option.map List.length) hname
    simp at hlength
    omega
  · have hdigit := isDigit_of_mem_numeral (n := n) (c := '§')
    rw [← Option.some_inj.1 hname] at hdigit
    exact absurd (hdigit (by decide)) (by decide)

/-- The end wildcard closes a bracket that the left-hand side leaves open, and is no element of its
own then. -/
theorem getLast?_read_padPattern (h : Unanchored lhs) (hunclosed : Unclosed lhs) :
    (Pattern.read groups source (padPattern lhs)).value.getLast? ≠ some (.wildcard endName) := by
  obtain ⟨u, v, rfl, hu, hv⟩ :=
    (complete_or_exists lhs).resolve_left fun hc => hc.not_unclosed hunclosed
  obtain ⟨u', hu', hpad⟩ := exists_padLeft hu ('[' :: v)
  obtain ⟨n, happend⟩ := readFrom_append groups source hu' 1
  have hbody : ']' ∉ v ++ '[' :: endName := by
    rw [List.mem_append, not_or]
    exact ⟨hv, by decide⟩
  obtain ⟨slot, hslot⟩ : ∃ slot, Slot.read (v ++ '[' :: endName) = some slot :=
    Slot.exists_read (by simp)
  have hassoc : u' ++ '[' :: v ++ endSlot = u' ++ ('[' :: (v ++ '[' :: endName) ++ [']']) := by
    simp [show endSlot = '[' :: endName ++ [']'] from rfl]
  rw [padPattern_eq h, hpad, value_read, hassoc, happend,
    readFrom_slot _ _ _ _ hbody hslot, readFrom_nil]
  show (_ ++ [_]).getLast? ≠ _
  rw [List.getLast?_concat, Ne, Option.some_inj]
  exact toElement_ne_end groups source hslot n

theorem Wrapped.not_unclosed (h : Unanchored lhs) {n : Text} (hw : Wrapped groups source lhs n) :
    ¬ Unclosed lhs := by
  intro hunclosed
  have hlast : (Pattern.read groups source (padPattern lhs)).value.getLast? =
      some (.wildcard endName) := by
    rw [hw.value]
    exact List.getLast?_concat
  exact getLast?_read_padPattern h hunclosed hlast

theorem Wrapped.not_begins_empty (h : Unanchored lhs) {n : Text}
    (hw : Wrapped groups source lhs n) : ¬ ['[', ']'] <+: lhs := by
  rintro ⟨t, rfl⟩
  have hvalue := hw.value
  have href : startReference (['[', ']'] ++ t) ≠ startSlot := by
    show ['[', ']'] ≠ startSlot
    decide
  rw [padPattern_eq h, padLeft, if_neg href, value_read] at hvalue
  simp only [List.cons_append, List.nil_append, readFrom_empty] at hvalue
  cases hvalue

theorem Wrapped.not_mem {n : Text} (hw : Wrapped groups source lhs n) :
    '[' ∉ n := by
  intro hmem
  exact absurd (Template.isBracket_of_mem_references (hw.references []).1 _ hmem) (by decide)

theorem Wrapped.ne_startName (h : Unanchored lhs) {n : Text} (hw : Wrapped groups source lhs n)
    {p : Pattern} (hread : (Pattern.read groups source lhs).value = .wildcard n :: p) :
    n ≠ startName := by
  rintro rfl
  have hcomplete := complete_iff.2 (hw.not_unclosed h)
  rcases start groups source hcomplete (hw.not_begins_empty h) h.head with
    rfl | ⟨n, -, -, href, p', hread'⟩ | ⟨-, hown⟩
  · rw [value_read, readFrom_nil] at hread
    cases hread
  · cases hread.symm.trans hread'
    -- The left-hand side is padded although it begins with the start wildcard.
    have hvalue := (read_padPattern groups source hcomplete h href).1
    rw [hw.value, hread] at hvalue
    have hlength := congrArg List.length hvalue
    simp [own] at hlength
  · rw [hread] at hown
    exact absurd hown.symm (List.cons_ne_self _ _)

/-- Padding wraps a left-hand side if and only if all of its brackets are closed and it begins
neither with empty brackets, nor with a wildcard whose name holds a bracket, nor with a wildcard
that has the name of the start wildcard. -/
theorem exists_wrapped_iff (groups : Groups) (source : Text) (hne : lhs ≠ [])
    (h : Unanchored lhs) :
    (∃ n, Wrapped groups source lhs n) ↔
      ¬ Unclosed lhs ∧ ¬ ['[', ']'] <+: lhs ∧
        ∀ n, (Pattern.read groups source lhs).value.head? = some (.wildcard n) →
          '[' ∉ n ∧ n ≠ startName := by
  constructor
  · rintro ⟨n, hw⟩
    refine ⟨hw.not_unclosed h, hw.not_begins_empty h, fun m hm => ?_⟩
    obtain rfl := hw.leading m hm
    obtain ⟨p, hread⟩ := List.head?_eq_some_iff.1 hm
    exact ⟨hw.not_mem, hw.ne_startName h hread⟩
  · rintro ⟨hunclosed, hempty, hleading⟩
    have hcomplete := complete_iff.2 hunclosed
    rcases start groups source hcomplete hempty h.head with
      rfl | ⟨n, -, hclose, href, p, hread⟩ | ⟨href, hown⟩
    · exact absurd rfl hne
    · obtain ⟨hopen, hstart⟩ := hleading n (by rw [hread]; rfl)
      refine ⟨n, .of_leading hcomplete h href hstart (fun c hc => ?_) hread⟩
      rw [Template.isBracket, Bool.or_eq_false_iff, decide_eq_false_iff_not,
        decide_eq_false_iff_not]
      exact ⟨fun hc' => hopen (hc' ▸ hc), fun hc' => hclose (hc' ▸ hc)⟩
    · exact ⟨startName, .of_padded hcomplete h href hown⟩

/-- Empty brackets are no obstacle behind a wildcard. -/
theorem exists_wrapped_empty : ∃ n, Wrapped [] [] ['[', 'x', ']', 'a', '[', ']'] n := by
  have hcomplete : Complete ['[', 'x', ']', 'a', '[', ']'] :=
    have hbody : ']' ∉ ['x'] := by decide
    .slot (by decide) hbody (.char (by decide) (.empty (.char (by decide) .nil)))
  have hread : (Pattern.read [] [] ['[', 'x', ']', 'a', '[', ']']).value.head? =
      some (.wildcard ['x']) := by cbv
  refine (exists_wrapped_iff [] [] (by decide) ⟨by decide, by decide⟩).2
    ⟨hcomplete.not_unclosed, by decide, fun n hn => ?_⟩
  cases hread.symm.trans hn
  decide

/-- The end wildcard closes the bracket of `a[b`: what is read is a wildcard of another name, and
nothing is reported. -/
theorem not_wrapped_open :
    Unanchored ['a', '[', 'b'] ∧ (Pattern.read [] [] (padPattern ['a', '[', 'b'])).reports = [] ∧
      (Pattern.read [] [] ['a', '[', 'b']).reports = [⟨.unclosedSlot ['[', 'b'], []⟩] ∧
      ∀ n, ¬ Wrapped [] [] ['a', '[', 'b'] n := by
  refine ⟨⟨by decide, by decide⟩, by cbv, by cbv, fun n hw => ?_⟩
  have hread : (Pattern.read [] [] (padPattern ['a', '[', 'b'])).value =
      [.wildcard startName, .literal 'a', .wildcard ('b' :: '[' :: endName)] := by cbv
  have hlast := congrArg List.getLast? (hread.symm.trans hw.value)
  rw [List.getLast?_concat] at hlast
  exact absurd hlast (by decide)

end Padding

end Inflection
