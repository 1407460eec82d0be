import Inflection.Proofs.Pattern.FirstDerivation
import Inflection.Proofs.Rule.Applied
import Inflection.Proofs.Rule.Compiled
import Inflection.Proofs.Rule.Padded

/-!
# What a rule keeps of a form

A rule without anchors copies what comes before its match and what comes after it.  But its end
wildcard takes the shortest run it can, and the end of a pattern passes over markers, so it leaves
the markers at the end of a form to the end of the pattern, and no right-hand side copies those.
`PatternRule.apply_keeps_surroundings` says what is kept, and when that is all there is.
-/

namespace Inflection

open Padding

theorem Pattern.mem_of_mem_own {p : Pattern} {e : Element} (h : e ∈ p.own) : e ∈ p := by
  unfold own at h
  split at h
  · exact List.mem_cons_of_mem _ h
  · exact h

namespace PatternRule

/-- The division of a form by a rule that matches it: what comes before its own elements, what they
take by some moves, and the rest, of which the end wildcard keeps all but the markers at its end. -/
structure Divides (r : PatternRule) (start : Option Text) (own : Pattern)
    (form before taken kept markers : Text) (moves : List Move) : Prop where
  /-- The own elements stand between the start wildcard, if there is one, and the end wildcard. -/
  pattern : r.pattern = (start.map Element.wildcard).toList ++ own ++ [.wildcard endName]
  form_eq : form = before ++ taken ++ (kept ++ markers)
  before_eq : start = none → before = []
  takes : own.Takes (taken ++ (kept ++ markers)) moves (kept ++ markers)
  /-- This is the first derivation of the form. -/
  first : r.pattern.IsFirst form
    ((start.map (Move.run · before)).toList ++ moves ++ [.run endName kept])
  isMarker : ∀ c ∈ markers, isMarker c
  last : ∀ c ∈ kept.getLast?, Inflection.isMarker c = false

variable {r : PatternRule} {start : Option Text} {own : Pattern} {form : Text}

/-- The first derivation of a form divides it. -/
theorem exists_divides {ms : List Move}
    (hp : r.pattern = (start.map Element.wildcard).toList ++ own ++ [.wildcard endName])
    (h : r.pattern.IsFirst form ms) :
    ∃ before taken kept markers moves, r.Divides start own form before taken kept markers moves ∧
      ms = (start.map (Move.run · before)).toList ++ moves ++ [.run endName kept] := by
  have hfirst := h
  rw [hp] at h
  obtain ⟨ms', kept, markers, htakes, rfl, hlast, hmarkers⟩ := h.concat_wildcard
  obtain ⟨u, ms₁, moves, h₁, h₂, rfl⟩ := Pattern.takes_append.1 htakes
  obtain ⟨taken, rfl⟩ := h₂.suffix
  cases start with
  | none =>
    cases h₁ with
    | nil =>
      exact ⟨[], taken, kept, markers, moves,
        ⟨hp, rfl, fun _ => rfl, h₂, hfirst, hmarkers, hlast⟩, rfl⟩
  | some n =>
    obtain ⟨before, rfl, rfl⟩ := Pattern.takes_wildcard.1 h₁
    refine ⟨before, taken, kept, markers, moves, ⟨hp, ?_, ?_, h₂, hfirst, hmarkers, hlast⟩, rfl⟩
    · rw [List.append_assoc]
    · rintro ⟨⟩

/-- What a division binds the names of the two wildcards to. -/
theorem get?_boundBy_division (before kept : Text) {t u : Text} {ms : List Move}
    (h : own.Takes t ms u)
    (hstart : ∀ n ∈ start, n ≠ endName) (hown : ∀ e ∈ own, e.name? ≠ some endName) :
    let bindings := boundBy ((start.map (Move.run · before)).toList ++ ms ++ [.run endName kept]) []
    (∀ n ∈ start, bindings.get? n = some before) ∧ bindings.get? endName = some kept := by
  intro bindings
  have hend : (boundBy (ms ++ [.run endName kept]) []).get? endName = some kept := by
    rw [boundBy_append, get?_boundBy_of_ne]
    · rfl
    · intro m hm b hb hname
      obtain ⟨e, he, hb⟩ := h.bound m hm b hb
      exact hown e he (hname ▸ hb)
  cases start with
  | none =>
    refine ⟨?_, hend⟩
    rintro n ⟨⟩
  | some n =>
    have hput : bindings = (boundBy (ms ++ [.run endName kept]) []).put n before := rfl
    constructor
    · rintro n ⟨⟩
      rw [hput, Table.get?_put, if_pos rfl]
    · rw [hput, Table.get?_put, if_neg (hstart n rfl), hend]

/-- The rest of a form stands at the end of an output if and only if it has no markers at its end,
or consists of markers that the output happens to end in. -/
theorem suffix_output_iff {written kept markers : Text} (hmarkers : ∀ c ∈ markers, isMarker c)
    (hlast : ∀ c ∈ kept.getLast?, isMarker c = false) :
    kept ++ markers <:+ written ++ kept ↔ markers = [] ∨ kept = [] ∧ markers <:+ written := by
  constructor
  · intro h
    by_cases hne : markers = []
    · exact Or.inl hne
    right
    obtain ⟨u, hu⟩ := h
    have hkept : kept = [] := by
      by_contra hkept
      have hc := congrArg List.getLast? hu
      rw [← List.append_assoc, List.getLast?_append_of_ne_nil _ hne,
        List.getLast?_append_of_ne_nil _ hkept] at hc
      have hc' := hlast _ (hc.symm.trans (List.getLast?_eq_some_getLast hne))
      exact Bool.false_ne_true (hc'.symm.trans (hmarkers _ (List.getLast_mem hne)))
    refine ⟨hkept, u, ?_⟩
    simpa [hkept] using hu
  · rintro (rfl | ⟨rfl, h⟩)
    · rw [List.append_nil]
      exact List.suffix_append _ _
    · rw [List.append_nil]
      exact h

/-- **A rule without anchors keeps what surrounds its match, except for markers at the end.**  The
form is divided into what the start wildcard takes, what the own elements take, and the rest.
Every output contains what the start wildcard takes, if brackets can refer to it, and ends with
what the end wildcard keeps of the rest.  That is all of the rest if and only if the rest has no
markers at its end, or consists of markers that the right-hand side happens to write. -/
theorem apply_keeps_surroundings {budget : Budget} {groups : Groups} {lines : List Text}
    {lhs rhs : Text} {w : GlossedWord} {z : Realization}
    (hr : .pattern r ∈ (Rule.ofLines budget groups lines).value)
    (hname : r.name = lhs ++ '\t' :: rhs) (htab : '\t' ∉ lhs) (hanchor : Unanchored lhs)
    (hclosed : Pattern.Closed lhs) (hstart : ¬ startSlot <:+: lhs) (hend : ¬ endSlot <:+: lhs)
    (hz : (r.apply w).value = some z) :
    ∃ (known : Groups) (start : Option Text) (before taken kept markers : Text)
      (moves : List Move),
      let own := (Pattern.read known r.name lhs).value.own
      let bindings := (r.pattern.search r.budget w.form {}).2.bindings
      let written (a : Text) : Text :=
        (Template.expand bindings r.name (Template.read (withStart lhs a))).value
      r.Divides start own w.form before taken kept markers moves ∧ (start = none → lhs = []) ∧
        (∀ n ∈ start, bindings.get? n = some before) ∧
        z.outputs = (Text.split " || ".toList rhs).map (fun a => written a ++ kept) ∧
        ∀ a ∈ Text.split " || ".toList rhs,
          ((∀ n ∈ start, '[' ∉ n) → before <:+: written a) ∧
            (kept ++ markers <:+ written a ++ kept ↔
              markers = [] ∨ kept = [] ∧ markers <:+ written a) := by
  obtain ⟨known, hpattern, htemplates⟩ := Rule.exists_of_mem_ofLines hr hname htab
  obtain ⟨start, hread, hnone, hstartName, href⟩ :=
    value_read_padPattern known r.name hclosed hanchor hstart hend
  obtain ⟨found, hfound, rfl⟩ := value_apply_eq_some_iff.1 hz
  obtain ⟨ms, hfirst, hbindings, -⟩ := Pattern.exists_isFirst_of_search hfound
  obtain ⟨before, taken, kept, markers, moves, hdivides, rfl⟩ :=
    exists_divides (hpattern.trans hread) hfirst
  have hendSlot : ¬ '[' :: endName ++ [']'] <:+: lhs := hend
  have hown : ∀ e ∈ (Pattern.read known r.name lhs).value.own, e.name? ≠ some endName := by
    intro e he
    have hdigit : ∃ c ∈ endName, c.isDigit = false := ⟨'§', by decide, by decide⟩
    exact Pattern.name?_ne_of_mem_readFrom _ _ hclosed hdigit hendSlot 0 1 e
      (Pattern.mem_of_mem_own he)
  obtain ⟨hbefore, hkept⟩ :=
    get?_boundBy_division before kept hdivides.takes (fun n hn => (hstartName n hn).1) hown
  rw [← hbindings] at hbefore hkept
  refine ⟨known, start, before, taken, kept, markers, moves, ?_⟩
  rw [hfound]
  intro own bindings written
  have hwritten : (r.realize w found).outputs =
      (Text.split " || ".toList rhs).map (fun a => written a ++ kept) := by
    rw [realize, htemplates, List.map_map]
    exact List.map_congr_left fun a _ => value_expand_padTemplate _ hanchor hkept
  refine ⟨hdivides, hnone, hbefore, hwritten, fun a _ => ⟨fun hopen => ?_, ?_⟩⟩
  · cases start with
    | none =>
      rw [hdivides.before_eq rfl]
      exact List.nil_infix
    | some n =>
      have hbracket : ∀ c ∈ n, Template.isBracket c = false := by
        intro c hc
        have hne : c ≠ '[' ∧ c ≠ ']' := by
          constructor
          · rintro rfl
            exact hopen n rfl hc
          · rintro rfl
            exact (hstartName n rfl).2 hc
        simpa [Template.isBracket] using hne
      exact infix_value_expand_withStart _ href hbracket (hbefore n rfl)
  · exact suffix_output_iff hdivides.isMarker hdivides.last

/-- The rule that replaces an `a` by a `b`, as it is compiled. -/
def replacingA : PatternRule where
  name := ['a', '\t', 'b']
  written := startSlot ++ 'a' :: endSlot
  pattern := [.wildcard startName, .literal 'a', .wildcard endName]
  templates := [[.reference startName, .text ['b'], .reference endName]]

theorem mem_ofLines_replacingA :
    .pattern replacingA ∈ (Rule.ofLines {} [] [['a', '\t', 'b']]).value := by
  decide +kernel

/-- What follows the match is kept where it does not end in a marker. -/
theorem apply_keeps_surroundings_example :
    let form : Text := ['x', 'a', 'y']
    (replacingA.apply ⟨[], form⟩).value = some ⟨[], form, [['x', 'b', 'y']]⟩ ∧
      ∃ start own before taken kept markers moves,
        replacingA.Divides start own form before taken kept markers moves ∧
          kept ++ markers <:+ ['x', 'b', 'y'] := by
  intro form
  have happly : (replacingA.apply ⟨[], form⟩).value = some ⟨[], form, [['x', 'b', 'y']]⟩ := rfl
  have hname : replacingA.name = ['a'] ++ '\t' :: ['b'] := rfl
  have hclosed : Pattern.Closed ['a'] := .char (by decide) .nil
  obtain ⟨known, start, before, taken, kept, markers, moves, hdivides, -, -, houtputs, hkept⟩ :=
    apply_keeps_surroundings mem_ofLines_replacingA hname (by decide) ⟨by decide, by decide⟩ hclosed
      (by decide) (by decide) happly
  refine ⟨happly, start, _, before, taken, kept, markers, moves, hdivides, ?_⟩
  have hmarkers : markers = [] := by
    by_contra hne
    have hlast := congrArg List.getLast? hdivides.form_eq
    rw [← List.append_assoc, List.getLast?_append_of_ne_nil _ hne,
      List.getLast?_eq_some_getLast hne] at hlast
    have hy : 'y' = markers.getLast hne := Option.some.inj hlast
    have hmarker := hdivides.isMarker _ (List.getLast_mem hne)
    rw [← hy] at hmarker
    exact absurd hmarker (by decide)
  have hmem : ['x', 'b', 'y'] ∈ [['x', 'b', 'y']] := List.mem_singleton_self _
  rw [show [['x', 'b', 'y']] = _ from houtputs] at hmem
  obtain ⟨a, ha, hwritten⟩ := List.mem_map.1 hmem
  rw [← hwritten]
  exact (hkept a ha).2.2 (Or.inl hmarkers)

/-- A marker that follows the match is lost, however the form is divided. -/
theorem apply_drops_marker :
    let form : Text := ['x', 'a', '>']
    .pattern replacingA ∈ (Rule.ofLines {} [] [['a', '\t', 'b']]).value ∧
      (replacingA.apply ⟨[], form⟩).value = some ⟨[], form, [['x', 'b']]⟩ ∧
      ∀ before taken rest moves, form = before ++ taken ++ rest →
        Pattern.Takes [.literal 'a'] (taken ++ rest) moves rest → ¬ rest <:+ ['x', 'b'] := by
  intro form
  refine ⟨mem_ofLines_replacingA, rfl, ?_⟩
  intro before taken rest moves hform htakes hsuffix
  have hend : 'a' :: rest <:+ ['x', 'a', '>'] := by
    rw [show ['x', 'a', '>'] = _ from hform, List.append_assoc]
    cases htakes with
    | cons h h' =>
      cases h' with
      | nil => exact (h.cons_suffix rfl).trans (List.suffix_append _ _)
  have hrest : rest = ['>'] := by
    obtain ⟨u, hu⟩ := hend
    rcases u with _ | ⟨c, _ | ⟨d, _ | ⟨e, u⟩⟩⟩
    · cases hu
    · cases hu
      rfl
    · cases hu
    · have hlength := congrArg List.length hu
      simp at hlength
  rw [hrest] at hsuffix
  exact absurd hsuffix (by decide)

end PatternRule

end Inflection
