import Inflection.Proofs.Pattern.Accepted
import Inflection.Proofs.Rule.Typing

/-!
# Whether a pattern accepts the gloss that it has typed

What a match records is written into the blanks of the gloss by counting them, but blanks are also
taken by wildcards, and a marker can end up in a blank that stood for a different one.
`Move.Fits` says of the moves of a match that this does no harm: each blank that is filled was taken
by a wildcard, which takes anything, or stood for what is written into it.  The typed gloss is then
taken by the same elements, one after the other.

So it is where all that is written is alike, however many blanks the wildcards take.  It is not so
for a name of two words before two markers of different kinds.
-/

namespace Inflection

namespace Gloss

variable {fs : List Text}

/-- What a text in front takes of the fillers depends on its blanks alone. -/
theorem fillBlanks_append_count (fs : List Text) (u t : Text) :
    fillBlanks fs (u ++ t) = fillBlanks fs u ++ fillBlanks (fs.drop (u.count blank)) t := by
  fun_induction fillBlanks fs u with
  | case1 u => rw [fillBlanks_nil, List.drop_nil, fillBlanks_nil]
  | case2 fs => rfl
  | case3 f fs u ih =>
    rw [List.cons_append, fillBlanks_blank, ih, List.count_cons_self, List.drop_succ_cons,
      List.append_assoc]
  | case4 f fs c u hc ih =>
    rw [List.cons_append, fillBlanks_cons_of_ne hc, ih, List.count_cons_of_ne hc,
      List.cons_append]

theorem fillBlanks_ne_nil {t : Text} (hfs : ∀ f ∈ fs, f ≠ []) (ht : t ≠ []) :
    fillBlanks fs t ≠ [] := by
  fun_cases fillBlanks fs t with
  | case1 => exact ht
  | case2 => exact ht
  | case3 f fs t =>
    exact fun h => hfs f List.mem_cons_self (List.append_eq_nil_iff.1 h).1
  | case4 => exact List.cons_ne_nil _ _

end Gloss

/-! ## What fits the blanks that some moves take -/

namespace Move

/-- What is written into the blanks that some moves take can be taken in their place: each blank
that is filled stands for what it is filled with, or is taken by a wildcard. -/
inductive Fits : List Text → List Move → Prop where
  /-- Blanks that are not filled stay as they are. -/
  | rest {ms : List Move} : Fits [] ms
  | done {fs : List Text} : Fits fs []
  | stand {m : Char} {fs : List Text} {ms : List Move} (hm : m ≠ '<') (h : Fits fs ms) :
      Fits ([m] :: fs) (.stand m :: ms)
  /-- The opening half of an infix slot leaves the closing half to the moves after it. -/
  | opening {fs : List Text} {ms : List Move} (h : Fits (['>'] :: fs) ms) :
      Fits (['<', '>'] :: fs) (.stand '<' :: ms)
  /-- The closing half is taken once the opening one is passed over. -/
  | closing {fs : List Text} {ms : List Move} (h : Fits fs ms) :
      Fits (['<', '>'] :: fs) (.stand '>' :: ms)
  /-- A wildcard takes blanks whatever they are filled with. -/
  | run {n taken : Text} {fs : List Text} {ms : List Move}
      (h : Fits (fs.drop (taken.count blank)) ms) : Fits fs (.run n taken :: ms)
  | other {m : Move} {fs : List Text} {ms : List Move} (hm : m.marker? = none)
      (hblank : blank ∉ m.taken) (h : Fits fs ms) : Fits fs (m :: ms)

end Move

open Gloss

namespace Element

/-- An element takes a text whose blanks are filled, if what they are filled with fits. -/
theorem Takes.refit {e : Element} {t u : Text} {ms ms' : List Move} {fs : List Text}
    (h : e.Takes t ms u) (hfits : Move.Fits fs (ms ++ ms')) (hfs : ∀ f ∈ fs, f ≠ []) :
    ∃ fs' ms₂, e.Takes (fillBlanks fs t) ms₂ (fillBlanks fs' u) ∧ Move.Fits fs' ms' ∧
      ∀ f ∈ fs', f ≠ [] := by
  -- Where nothing is left to be written, the text is as it was.
  rcases fs with _ | ⟨f, fs⟩
  · refine ⟨[], ms, ?_, .rest, hfs⟩
    rwa [fillBlanks_nil, fillBlanks_nil]
  obtain ⟨-, hfs'⟩ := List.forall_mem_cons.1 hfs
  induction h with
  | @stand m t hm =>
    cases hfits with
    | stand hopening h =>
      rw [if_neg hopening, fillBlanks_blank]
      exact ⟨fs, _, .direct, h, hfs'⟩
    | opening h =>
      rw [if_pos rfl, fillBlanks_blank]
      refine ⟨['>'] :: fs, [.direct '<'], ?_, h, List.forall_mem_cons.2 ⟨by decide, hfs'⟩⟩
      rw [fillBlanks_blank]
      exact .direct
    | closing h =>
      rw [if_neg (by decide), fillBlanks_blank]
      exact ⟨fs, _, .skip rfl rfl .direct, h, hfs'⟩
    | other hm => cases hm
  | @direct c t =>
    cases hfits with
    | other _ hblank h =>
      rw [fillBlanks_cons_of_ne (Ne.symm (mt List.mem_singleton.2 hblank))]
      exact ⟨f :: fs, _, .direct, h, hfs⟩
  | @run n taken t u ht =>
    rw [ht, fillBlanks_append_count]
    have hdrop : Move.Fits ((f :: fs).drop (taken.count blank)) ms' := by
      cases hfits with
      | run h => exact h
      | other _ hblank h =>
        have hcount : taken.count blank = 0 := List.count_eq_zero_of_not_mem hblank
        rw [hcount]
        exact h
    exact ⟨_, _, .run rfl, hdrop, fun f hf => hfs f (List.mem_of_mem_drop hf)⟩
  | @alternative e n as i a t u he ha ht h =>
    cases hfits with
    | other _ hblank hfits =>
      refine ⟨f :: fs, _, .alternative he ha (fillBlanks_ne_nil hfs ht) ?_, hfits, hfs⟩
      rw [h]
      exact fillBlanks_append hblank _ u
  | nothing =>
    cases hfits with
    | other _ _ h => exact ⟨f :: fs, _, .nothing, h, hfs⟩
  | @skip e c t u ms he hc _ ih =>
    cases hfits with
    | other _ hblank h =>
      obtain ⟨fs', ms₂, htakes, hrest⟩ := ih h
      rw [fillBlanks_cons_of_ne (Ne.symm (mt List.mem_singleton.2 hblank))]
      exact ⟨fs', .skip c :: ms₂, .skip he hc htakes, hrest⟩

end Element

namespace Pattern

variable {p : Pattern} {t u : Text} {ms : List Move} {fs : List Text}

theorem Takes.refit (h : p.Takes t ms u) (hfits : Move.Fits fs ms) (hfs : ∀ f ∈ fs, f ≠ []) :
    ∃ fs' ms₂, p.Takes (fillBlanks fs t) ms₂ (fillBlanks fs' u) := by
  induction h generalizing fs with
  | nil => exact ⟨fs, [], .nil⟩
  | cons h _ ih =>
    obtain ⟨fs', ms₁, hhead, hfits', hfs'⟩ := h.refit hfits hfs
    obtain ⟨fs'', ms₂, htail⟩ := ih hfits' hfs'
    exact ⟨fs'', ms₁ ++ ms₂, .cons hhead htail⟩

theorem Derives.refit (h : p.Derives t ms) (hfits : Move.Fits fs ms) (hfs : ∀ f ∈ fs, f ≠ []) :
    ∃ ms₂, p.Derives (fillBlanks fs t) ms₂ := by
  obtain ⟨rest, htakes, hrest⟩ := h
  obtain ⟨fs', ms₂, htakes⟩ := htakes.refit hfits hfs
  have hblank : blank ∉ rest := fun hmem => absurd (hrest blank hmem) (by decide)
  rw [fillBlanks_eq_self hblank] at htakes
  exact ⟨ms₂, rest, htakes, hrest⟩

end Pattern

/-! ## Where what is written fits -/

namespace Element

/-- Whether an element asks for a blank itself.  A wildcard takes one, but takes anything else as
well. -/
def asksForBlank : Element → Bool
  | .literal c => c = blank
  | .wildcard _ => false
  | .choice _ as | .optional _ as => as.any (blank ∈ ·)

theorem Makes.of_blank_mem_of_asksForBlank {e : Element} {m : Move} (h : e.Makes m)
    (he : e.asksForBlank = false) (hblank : blank ∈ m.taken) :
    (∃ c, m = .stand c) ∨ ∃ n taken, m = .run n taken := by
  cases h with
  | stand => exact Or.inl ⟨_, rfl⟩
  | direct =>
    rw [← List.mem_singleton.1 hblank] at he
    cases he
  | run => exact Or.inr ⟨_, _, rfl⟩
  | @alternative _ _ as _ a he' ha =>
    have hany : as.any (blank ∈ ·) = false := by
      cases e <;> cases he' <;> exact he
    exact absurd (decide_eq_true hblank) (List.any_eq_false.1 hany a (List.mem_of_getElem? ha))
  | nothing => cases hblank
  | skip hc =>
    rw [← List.mem_singleton.1 hblank] at hc
    cases hc

end Element

namespace Move

variable {ms : List Move}

/-- What is recorded is written into the blanks that stand for it, if blanks that are taken in any
other way come after all of them. -/
theorem fits_of_pairwise (hpaired : Paired ms)
    (hblank : ms.Pairwise fun m m' => blank ∈ m.taken → m.marker? = none → m'.marker? = none) :
    Fits (fillersOf ms) ms := by
  induction hpaired with
  | nil => exact .done
  | pair _ ih => exact .opening (.stand (by decide) (ih hblank.of_cons.of_cons))
  | @cons m ms hm _ ih =>
    obtain ⟨hhead, htail⟩ := List.pairwise_cons.1 hblank
    cases hmarker : m.marker? with
    | none =>
      rw [fillersOf_cons hmarker]
      by_cases hmem : blank ∈ m.taken
      · have hnone : markersOf ms = [] :=
          List.filterMap_eq_nil_iff.2 fun m' hm' => hhead m' hm' hmem hmarker
        rw [fillersOf, hnone]
        exact .rest
      · exact .other hmarker hmem (ih htail)
    | some c =>
      obtain rfl := eq_stand hmarker
      rw [fillersOf_stand hm]
      exact .stand (fun hc => hm (congrArg _ hc)) (ih htail)

/-- If all that some moves record is alike, it does not matter which blank it is written into. -/
theorem fits_of_alike {f : Text} (hpaired : Paired ms)
    (hblank : ∀ m ∈ ms, blank ∈ m.taken → (∃ c, m = .stand c) ∨ ∃ n taken, m = .run n taken)
    (hall : ∀ g ∈ fillersOf ms, g = f) {fs : List Text} (hfs : ∀ g ∈ fs, g = f) : Fits fs ms := by
  induction hpaired generalizing fs with
  | nil => exact .done
  | @pair ms _ ih =>
    replace hblank : ∀ m ∈ ms, blank ∈ m.taken → _ :=
      fun m hm => hblank m (List.mem_cons_of_mem _ (List.mem_cons_of_mem _ hm))
    rw [fillersOf_pair] at hall
    obtain ⟨rfl, hall⟩ := List.forall_mem_cons.1 hall
    rcases fs with _ | ⟨g, fs⟩
    · exact .rest
    · obtain ⟨rfl, hrest⟩ := List.forall_mem_cons.1 hfs
      exact .opening (.stand (by decide) (ih hblank hall hrest))
  | @cons m ms hm _ ih =>
    obtain ⟨hhead, htail⟩ := List.forall_mem_cons.1 hblank
    cases m with
    | stand c =>
      rw [fillersOf_stand hm] at hall
      obtain ⟨rfl, hall⟩ := List.forall_mem_cons.1 hall
      rcases fs with _ | ⟨g, fs⟩
      · exact .rest
      · obtain ⟨rfl, hrest⟩ := List.forall_mem_cons.1 hfs
        exact .stand (fun hc => hm (congrArg _ hc)) (ih htail hall hrest)
    | run n taken => exact .run (ih htail hall fun g hg => hfs g (List.mem_of_mem_drop hg))
    | direct | skip | alternative | nothing =>
      refine .other rfl (fun hmem => ?_) (ih htail hall hfs)
      rcases hhead hmem with ⟨c, ⟨⟩⟩ | ⟨n, taken, ⟨⟩⟩

end Move

namespace PatternRule

variable {r : PatternRule} {gloss : Text} {z : Realization}

/-- **When a pattern accepts the gloss that it has typed.**  A rule that applies to a gloss takes it
by the moves of the first derivation, and types it with the markers that these record.  If what is
written into the blanks fits the moves, then every search of the typed gloss succeeds whose budget
is large enough.  Where the halves of infix slots come in pairs, there are two cases in which it
fits: blanks that stand for markers come before all others that are taken, or all that is written is
alike, and wildcards are the only elements that take a blank as itself. -/
theorem accepts_gloss_of_apply (hz : (r.apply (.ofGloss gloss)).value = some z) :
    ∃ moves, r.pattern.IsFirst gloss moves ∧
      (r.pattern.search r.budget gloss {}).2.trace = markersOf moves ∧
      z.gloss = fillBlanks (fillersOf moves) gloss ∧
      (Move.Fits (fillersOf moves) moves → r.pattern.Accepts z.gloss) ∧
      (r.pattern.Paired →
        (moves.Pairwise fun m m' => blank ∈ m.taken → m.marker? = none → m'.marker? = none) →
        r.pattern.Accepts z.gloss) ∧
      (r.pattern.Paired → (∀ e ∈ r.pattern, e.asksForBlank = false) →
        (∃ f, ∀ g ∈ fillersOf moves, g = f) → r.pattern.Accepts z.gloss) := by
  obtain ⟨moves, hfirst, htrace, hgloss⟩ := exists_isFirst_of_apply hz
  obtain ⟨rest, htakes, -⟩ := id hfirst.1
  have hfillers : ∀ f ∈ fillersOf moves, f ≠ [] := by
    intro f hf
    have hne : ∀ f ∈ typings, f ≠ [] := by decide
    refine hne f (mem_typings_of_mem_fillers (List.forall_mem_map.2 fun m hm => ?_) f hf)
    exact ⟨m, htakes.isMarker_of_mem_markersOf m hm, rfl⟩
  have haccepts : Move.Fits (fillersOf moves) moves → r.pattern.Accepts z.gloss := by
    intro hfits
    rw [hgloss]
    exact Pattern.accepts_iff.2 (hfirst.1.refit hfits hfillers)
  refine ⟨moves, hfirst, htrace, hgloss, haccepts, ?_, ?_⟩
  · intro hpaired hblank
    exact haccepts (Move.fits_of_pairwise (htakes.paired hpaired) hblank)
  · rintro hpaired hasks ⟨f, halike⟩
    refine haccepts (Move.fits_of_alike (htakes.paired hpaired) ?_ halike halike)
    intro m hm hblank
    obtain ⟨e, he, hmakes⟩ := htakes.makes m hm
    exact hmakes.of_blank_mem_of_asksForBlank (hasks e he) hblank

/-- A name of two words before a case and a number, set off by the same marker. -/
def cased : PatternRule where
  name := ['c']
  written := []
  pattern := [.wildcard ['x'], .literal 'a', .literal '|', .literal 'G', .literal '|', .literal '2']
  templates := [[.reference ['x'], .text ['o']]]

/-- The blank within the name is typed, and the last one is not. -/
theorem accepts_gloss_of_apply_example :
    let typed : Text := "pa|la|G 2".toList
    (cased.apply (.ofGloss "pa la G 2".toList)).value =
        some ⟨typed, "pa la G 2".toList, ["pa lo".toList]⟩ ∧
      cased.pattern.Accepts typed := by
  intro typed
  have happly : (cased.apply (.ofGloss "pa la G 2".toList)).value =
      some ⟨typed, "pa la G 2".toList, ["pa lo".toList]⟩ := rfl
  obtain ⟨moves, -, htrace, -, -, -, halike⟩ := accepts_gloss_of_apply happly
  have htrace : ['|', '|'] = markersOf moves := htrace
  refine ⟨happly, halike (by decide) (by decide) ⟨['|'], ?_⟩⟩
  rw [fillersOf, ← htrace]
  decide

/-- A name of two words before a case and a clitic, which are set off by different markers. -/
def cliticized : PatternRule where
  name := ['c']
  written := []
  pattern := [.wildcard ['x'], .literal 'a', .literal '|', .literal 'G', .literal '&', .literal '2']
  templates := [[.text ['o']]]

/-- The blank within the name is typed with the marker of the case, and the blank of the case with
that of the clitic, which the pattern does not accept there. -/
theorem not_accepts_typed :
    let typed : Text := "pa|la&G 2".toList
    (cliticized.apply (.ofGloss "pa la G 2".toList)).value =
        some ⟨typed, "pa la G 2".toList, [['o']]⟩ ∧
      ¬ cliticized.pattern.Accepts typed := by
  refine ⟨rfl, Pattern.not_accepts_of_search (b := {}) ?_⟩
  rfl

end PatternRule

end Inflection
