import Inflection.Proofs.Gloss.Replayed
import Inflection.Proofs.Pattern.Rendered
import Inflection.Proofs.Rule.Padded
import Inflection.Proofs.Rule.Typing
import Inflection.Rule.Line
import Mathlib.Data.List.Induction

/-!
# What may stand between the halves of an infix slot

Whoever writes a trace into a gloss takes the entry after an opening half for its closing half.  A
match keeps to that only if the blank that the opening half leaves is taken by a closing one.
`Pattern.search_pairs_halves` says when this is certain: the next literal after an opening half
takes no blank but as a closing half, and no slot between the two takes a blank first.

A pattern may break this convention, and no one checks it.  `PatternRule.apply_swallows_boundary`
is a rule whose slot takes the blank: the boundary recorded next is lost.
-/

namespace Inflection

namespace Word

variable {c : Char} {v w : Text}

theorem paired_cons_iff : Paired (c :: w) ↔ (c = '<' → w.head? = some '>') ∧ Paired w := by
  constructor
  · intro h
    refine ⟨?_, h.tail⟩
    rintro rfl
    obtain ⟨w, rfl⟩ := h.exists_eq_cons
    rfl
  · rintro ⟨hc, h⟩ i hi
    cases i with
    | zero =>
      rw [List.getElem?_cons_zero, Option.some_inj] at hi
      rw [List.getElem?_cons_succ, ← List.head?_eq_getElem?]
      exact hc hi
    | succ i => exact h i hi

theorem Paired.append (h : Paired w) (hv : '<' ∉ v) : Paired (v ++ w) := by
  induction v with
  | nil => exact h
  | cons c v ih =>
    obtain ⟨hc, hv⟩ := not_or.1 (mt List.mem_cons.2 hv)
    exact paired_cons_iff.2 ⟨fun hopening => absurd hopening.symm hc, ih hv⟩

end Word

namespace Gloss

/-- A trace is written into blanks as it stands, without an entry that is swallowed, if and only if
its halves come in pairs. -/
theorem flatten_fillers_iff (trace : Text) :
    (fillers (trace.map ([·]))).flatten = trace ↔ Word.Paired trace := by
  induction trace using List.twoStepInduction with
  | nil => exact iff_of_true rfl (by decide)
  | singleton c =>
    by_cases hc : c = '<'
    · subst hc
      exact iff_of_false (by decide) (by decide)
    · rw [Word.paired_cons_iff, List.map_singleton,
        fillers_cons_of_ne (mt List.singleton_inj.1 hc)]
      exact iff_of_true rfl ⟨fun hopening => absurd hopening hc, by decide⟩
  | cons_cons c d trace ih ihCons =>
    rw [Word.paired_cons_iff]
    by_cases hc : c = '<'
    · subst hc
      -- Whatever the entry after the opening half is, a closing half is written for it.
      show '<' :: '>' :: (fillers (trace.map ([·]))).flatten = '<' :: d :: trace ↔ _
      rw [List.cons_inj_right, List.cons_eq_cons, ih]
      constructor
      · rintro ⟨rfl, h⟩
        exact ⟨fun _ => rfl, h.append (v := ['>']) (by decide)⟩
      · rintro ⟨hd, h⟩
        exact ⟨(Option.some.inj (hd rfl)).symm, h.tail⟩
    · rw [List.map_cons, fillers_cons_of_ne (mt List.singleton_inj.1 hc)]
      show c :: (fillers ((d :: trace).map ([·]))).flatten = c :: d :: trace ↔ _
      rw [List.cons_inj_right, ihCons d]
      exact (and_iff_right fun hopening => absurd hopening hc).symm

end Gloss

namespace Element

/-- Whether an element has alternatives, none of which begins with a blank. -/
def refusesBlank : Element → Bool
  | .literal _ | .wildcard _ => false
  | .choice _ as | .optional _ as => as.all fun a => a.head? != some blank

variable {e : Element} {t u : Text} {ms : List Move}

/-- Without a blank in front, no alternative takes one. -/
theorem Makes.head?_taken_ne {m : Move} (h : e.Makes m) (he : e.refusesBlank) :
    m.taken.head? ≠ some blank := by
  cases h with
  | stand | direct | run => cases he
  | alternative halternatives ha =>
    have hmem := List.mem_of_getElem? ha
    cases e with
    | literal | wildcard => cases halternatives
    | choice | «optional» =>
      cases halternatives
      exact bne_iff_ne.1 (List.all_eq_true.1 he _ hmem)
  | nothing => rintro ⟨⟩
  | skip hc =>
    rintro ⟨⟩
    cases hc

/-- A slot that takes no blank first leaves one where it is. -/
theorem Takes.eq_of_blank (h : e.Takes (blank :: t) ms u) (hname : e.name?.isSome)
    (hms : ∀ m ∈ ms, m.taken.head? ≠ some blank) : u = blank :: t ∧ markersOf ms = [] := by
  have hkeeps {taken : Text} (htext : blank :: t = taken ++ u) (htaken : taken.head? ≠ some blank) :
      u = blank :: t := by
    cases taken with
    | nil => exact htext.symm
    | cons c taken =>
      obtain ⟨rfl, -⟩ := List.cons.inj htext
      exact absurd rfl htaken
  cases h with
  | stand | direct => cases hname
  | run h | alternative _ _ _ h => exact ⟨hkeeps h (hms _ List.mem_cons_self), rfl⟩
  | nothing => exact ⟨rfl, rfl⟩
  | skip _ hc => cases hc

/-- A literal that is neither a marker nor a blank takes none. -/
theorem not_takes_blank {c : Char} (hc : isMarker c = false) (hblank : c ≠ blank) :
    ¬ (literal c).Takes (blank :: t) ms u := by
  intro h
  cases h with
  | stand hm => cases hc.symm.trans hm
  | direct => exact hblank rfl
  | alternative he => cases he
  | skip _ hmarker => cases hmarker

end Element

namespace Pattern

/-- Whether the first literal takes no blank except as a closing half. -/
def closes : Pattern → Bool
  | [] => true
  | .literal c :: _ => c = '>' || !(isMarker c || c = blank)
  | _ :: p => closes p

/-- The slots before the first literal. -/
def leading : Pattern → List Element
  | [] | .literal _ :: _ => []
  | e :: p => e :: leading p

/-- Whether no literal but a closing half comes between the blank of an opening half and its closing
half. -/
def encloses : Pattern → Bool
  | [] => true
  | .literal c :: p => (c != '<' || closes p) && encloses p
  | _ :: p => encloses p

/-- The slots between opening halves and the literals that come next. -/
def enclosed : Pattern → List Element
  | [] => []
  | .literal c :: p => (if c = '<' then leading p else []) ++ enclosed p
  | _ :: p => enclosed p

variable {p : Pattern} {e : Element} {t u : Text} {ms : List Move}

theorem encloses_of_cons (h : encloses (e :: p)) : encloses p := by
  cases e with
  | literal c => exact (Bool.and_eq_true_iff.1 h).2
  | wildcard | choice | «optional» => exact h

theorem mem_enclosed_cons {e' : Element} (h : e' ∈ enclosed p) : e' ∈ enclosed (e :: p) := by
  cases e with
  | literal c => exact List.mem_append_right _ h
  | wildcard | choice | «optional» => exact h

/-- The blank of an opening half is recorded as its closing half next, if no slot takes it. -/
theorem Takes.head?_markersOf (h : p.Takes (blank :: t) ms u) (hu : ∀ c ∈ u, isMarker c)
    (hcloses : p.closes) (hslots : ∀ e ∈ p.leading, ∀ m ∈ ms, e.Makes m →
      m.taken.head? ≠ some blank) : (markersOf ms).head? = some '>' := by
  generalize htext : blank :: t = text at h
  induction h with
  | nil =>
    subst htext
    exact absurd (hu blank List.mem_cons_self) (by decide)
  | @cons e p text text' u ms ms' h h' ih =>
    subst htext
    by_cases hname : e.name?.isSome
    · obtain ⟨hcloses', hmem, hleading⟩ : p.closes ∧ e ∈ leading (e :: p) ∧
          ∀ e' ∈ p.leading, e' ∈ leading (e :: p) := by
        cases e with
        | literal => cases hname
        | wildcard | choice | «optional» =>
          exact ⟨hcloses, List.mem_cons_self, fun _ => List.mem_cons_of_mem _⟩
      obtain ⟨htext, hrecorded⟩ := h.eq_of_blank hname fun m hm =>
        hslots e hmem m (List.mem_append_left _ hm) (h.makes m hm)
      rw [markersOf, List.filterMap_append, ← markersOf, hrecorded, List.nil_append]
      refine ih hu hcloses' (fun e' he' m hm => ?_) htext.symm
      exact hslots e' (hleading e' he') m (List.mem_append_right _ hm)
    · cases e with
      | wildcard | choice | «optional» => exact absurd rfl hname
      | literal c =>
        by_cases hc : c = '>'
        · subst hc
          rw [takes_closing h]
          rfl
        · obtain ⟨hmarker, hblank⟩ : isMarker c = false ∧ c ≠ blank := by
            simpa [closes, hc] using hcloses
          exact absurd h (Element.not_takes_blank hmarker hblank)

/-- Moves that record no opening half change nothing about what comes after them. -/
theorem paired_markersOf_append {ms' : List Move} (hms : ∀ m ∈ ms, m ≠ .stand '<')
    (h : Word.Paired (markersOf ms')) : Word.Paired (markersOf (ms ++ ms')) := by
  rw [markersOf, List.filterMap_append]
  refine Word.Paired.append h fun hopening => ?_
  obtain ⟨m, hm, hmarker⟩ := List.mem_filterMap.1 hopening
  exact hms m hm (Move.eq_stand hmarker)

/-- A derivation records halves in pairs, if the blanks of opening ones are left to closing ones. -/
theorem Takes.paired_markersOf (h : p.Takes t ms u) (hu : ∀ c ∈ u, isMarker c) (hp : p.encloses)
    (hslots : ∀ e ∈ p.enclosed, ∀ m ∈ ms, e.Makes m → m.taken.head? ≠ some blank) :
    Word.Paired (markersOf ms) := by
  induction h with
  | nil => decide
  | @cons e p t u v ms ms' h h' ih =>
    replace ih := ih hu (encloses_of_cons hp) fun e' he' m hm =>
      hslots e' (mem_enclosed_cons he') m (List.mem_append_right _ hm)
    by_cases he : e = .literal '<'
    · subst he
      rcases takes_opening h with hms | ⟨ms₁, u', rfl, hms, rfl⟩
      · exact paired_markersOf_append hms ih
      rw [List.append_assoc]
      refine paired_markersOf_append hms (Word.paired_cons_iff.2 ⟨fun _ => ?_, ih⟩)
      refine h'.head?_markersOf hu (Bool.and_eq_true_iff.1 hp).1 fun e' he' m hm => ?_
      exact hslots e' (List.mem_append_left _ he') m (List.mem_append_right _ hm)
    · refine paired_markersOf_append (fun m hm hstand => he ?_) ih
      rw [hstand] at hm
      exact (h.of_stand_mem hm).1

/-- **When the halves of infix slots are recorded in pairs.**  No marker that a match records is
swallowed where its trace is written into a gloss, and none is added, if and only if every opening
half in the trace is directly followed by a closing one.  That is so if no literal of the pattern
but a closing half can take the blank of an opening one, and no slot between the two has taken it,
of which those that have alternatives without a blank in front are not capable. -/
theorem search_pairs_halves {b : Budget} {found : Progress}
    (h : p.search b t {} = (.ok true, found)) :
    ((Gloss.fillers (found.trace.map ([·]))).flatten = found.trace ↔ Word.Paired found.trace) ∧
      ∃ ms, p.IsFirst t ms ∧ found.trace = markersOf ms ∧
        (p.encloses →
          (∀ e ∈ p.enclosed, ∀ m ∈ ms, e.Makes m → m.taken.head? ≠ some blank) →
            Word.Paired found.trace) ∧
        (p.encloses → (∀ e ∈ p.enclosed, e.refusesBlank) → Word.Paired found.trace) := by
  obtain ⟨ms, hfirst, -, htrace⟩ := exists_isFirst_of_search h
  obtain ⟨rest, htakes, hrest⟩ := hfirst.1
  rw [List.append_nil] at htrace
  have hpairs (hp : p.encloses)
      (hslots : ∀ e ∈ p.enclosed, ∀ m ∈ ms, e.Makes m → m.taken.head? ≠ some blank) :
      Word.Paired found.trace := by
    rw [htrace]
    exact htakes.paired_markersOf hrest hp hslots
  refine ⟨Gloss.flatten_fillers_iff _, ms, hfirst, htrace, hpairs, fun hp hslots => ?_⟩
  exact hpairs hp fun e he m _ hmakes => hmakes.head?_taken_ne (hslots e he)

/-- An optional affix between the halves leaves them their blank. -/
theorem search_pairs_halves_example :
    let p : Pattern := [.wildcard ['x'], .literal '<', .optional ['1'] [['t', 'h'], ['k']],
      .literal '>', .literal '|', .literal 'P']
    let found := p.search {} "a P".toList {}
    let found' := p.search {} "a  P".toList {}
    found.1 = .ok false ∧ found'.1 = .ok true ∧ found'.2.trace = ['<', '>', '|'] ∧
      p.encloses ∧ p.enclosed = [.optional ['1'] [['t', 'h'], ['k']]] ∧
      Word.Paired found'.2.trace := by
  intro p found found'
  have hfound' : p.search {} "a  P".toList {} = (.ok true, found'.2) := rfl
  obtain ⟨-, ms, -, -, -, hpairs⟩ := search_pairs_halves hfound'
  exact ⟨rfl, rfl, rfl, rfl, rfl, hpairs rfl (by decide)⟩

end Pattern

namespace PatternRule

/-- A rule with a wildcard between the halves of an infix slot, as it is compiled. -/
def intruding : PatternRule where
  name := "[x]<[y]>c|P\to".toList
  written := "[x]<[y]>c|P[§end]".toList
  pattern := [.wildcard ['x'], .literal '<', .wildcard ['y'], .literal '>', .literal 'c',
    .literal '|', .literal 'P', .wildcard Padding.endName]
  templates := [[.reference ['x'], .text ['o'], .reference Padding.endName]]

/-- The wildcard takes the blank of the opening half.  What is recorded next is the boundary, which
is taken for the closing half: the blank of the boundary is not typed. -/
theorem apply_swallows_boundary :
    let gloss : Text := "a b>c P".toList
    let found := intruding.pattern.search intruding.budget gloss {}
    .pattern intruding ∈ (Rule.ofLines {} [] [intruding.name]).value ∧
      found.1 = .ok true ∧ found.2.trace = ['<', '|'] ∧ ¬ Word.Paired found.2.trace ∧
      found.2.bindings.get? ['y'] = some " b".toList ∧
      (intruding.apply (.ofGloss gloss)).value = some ⟨"a<>b>c P".toList, gloss, [['a', 'o']]⟩ := by
  intro gloss found
  have htrace : found.2.trace = ['<', '|'] := rfl
  refine ⟨by decide +kernel, rfl, htrace, ?_, rfl, rfl⟩
  rw [htrace]
  decide

end PatternRule

end Inflection
