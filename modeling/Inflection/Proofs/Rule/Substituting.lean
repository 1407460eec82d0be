import Inflection.Proofs.Pattern.Accepted
import Inflection.Proofs.Pattern.Depth
import Inflection.Proofs.Pattern.Rendered
import Inflection.Proofs.Rule.Checked
import Inflection.Proofs.Rule.Listed
import Inflection.Proofs.Rule.Padded
import Inflection.Proofs.Text.Trimmed

/-!
# Rules that substitute one text for another

A left-hand side without slots, anchors and markers is a text.  Once it is padded, the search for it
tries the shortest start first, and so comes to the first place where the text stands, however the
text overlaps with itself there.  `Rule.ofLines_substitutes` says that such a rule writes the
right-hand side in this one place and keeps all else, and that it comes to what a replacement does
unless there are more places to replace.
-/

namespace Inflection

open Padding

namespace RuleLine

variable {lhs rhs : Text}

/-- The sides of a rule, where each of them is one field. -/
theorem read_sides (hlhs : '\t' ∉ lhs) (hrhs : '\t' ∉ rhs) (hblank : lhs.isBlank = false)
    (hdef : ¬ "#def".toList <+: lhs ++ '\t' :: rhs)
    (hcomment : ¬ "//".toList <+: lhs ++ '\t' :: rhs) :
    read (lhs ++ '\t' :: rhs) = ofSides lhs (Text.split " || ".toList rhs) := by
  have hfields : (lhs ++ '\t' :: rhs).splitOn '\t' = [lhs, rhs] := by
    rw [List.splitOn_append_cons_self_of_not_mem hlhs, List.splitOn_eq_singleton hrhs]
  have hline : Text.isBlank (lhs ++ '\t' :: rhs) = false := by
    rw [Text.isBlank, List.all_append, ← Text.isBlank, hblank, Bool.false_and]
  rw [read, if_neg (mt List.isPrefixOf_iff_prefix.1 hdef), hline, Bool.false_or,
    if_neg (mt List.isPrefixOf_iff_prefix.1 hcomment), hfields]

end RuleLine

namespace Pattern

variable {w t u : Text} {ms : List Move}

theorem complete_of_notMem (hw : '[' ∉ w) : Complete w := by
  rw [complete_iff]
  rintro ⟨v, hv, -⟩
  exact hw (hv.subset List.mem_cons_self)

/-- A text without brackets is read as a word. -/
theorem value_read_word (groups : Groups) (source : Text) (hw : '[' ∉ w) :
    (read groups source w).value = ofWord w := by
  have hread (position n : Nat) : (readFrom groups source position n w).value = ofWord w := by
    induction w generalizing position with
    | nil =>
      rw [readFrom_nil]
      rfl
    | cons c w ih =>
      obtain ⟨hc, hw⟩ := not_or.1 (mt List.mem_cons.2 hw)
      rw [readFrom_char _ _ _ _ (Ne.symm hc), Noted.value_map, ih hw]
      rfl
  rw [value_read, hread]

/-- Where there are no markers, a word takes itself, character by character. -/
theorem takes_ofWord_iff (hw : ∀ c ∈ w, isMarker c = false) (ht : ∀ c ∈ t, isMarker c = false) :
    (ofWord w).Takes t ms u ↔ t = w ++ u ∧ ms = w.map .direct := by
  constructor
  · intro h
    induction w generalizing t ms with
    | nil =>
      cases h with
      | nil => exact ⟨rfl, rfl⟩
    | cons c w ih =>
      obtain ⟨hc, hw⟩ := List.forall_mem_cons.1 hw
      cases h with
      | cons h h' =>
        cases h with
        | stand hm => cases hc.symm.trans hm
        | direct =>
          obtain ⟨rfl, rfl⟩ := ih hw (List.forall_mem_cons.1 ht).2 h'
          exact ⟨rfl, rfl⟩
        | alternative he => cases he
        | skip _ hd => cases ((List.forall_mem_cons.1 ht).1).symm.trans hd
  · rintro ⟨rfl, rfl⟩
    clear hw ht
    induction w with
    | nil => exact .nil
    | cons c w ih => exact .cons .direct ih

/-- The pattern that finds a word anywhere in a form. -/
def around (w : Text) : Pattern := .wildcard startName :: ofWord w ++ [.wildcard endName]

/-- The moves by which a word is found between what is before and what is after it. -/
def movesAround (before w after : Text) : List Move :=
  .run startName before :: w.map .direct ++ [.run endName after]

theorem derives_around_iff (hw : ∀ c ∈ w, isMarker c = false) (ht : ∀ c ∈ t, isMarker c = false) :
    (around w).Derives t ms ↔
      ∃ before after, t = before ++ w ++ after ∧ ms = movesAround before w after := by
  constructor
  · rintro ⟨rest, htakes, hrest⟩
    obtain ⟨u, ms₁, ms₃, h, hend, rfl⟩ := takes_append.1 htakes
    obtain ⟨v, ms₁, ms₂, hstart, hword, rfl⟩ := (takes_append (p := [_])).1 h
    obtain ⟨before, rfl, rfl⟩ := takes_wildcard.1 hstart
    obtain ⟨after, rfl, rfl⟩ := takes_wildcard.1 hend
    obtain ⟨-, ht⟩ := List.forall_mem_append.1 ht
    obtain ⟨rfl, rfl⟩ := (takes_ofWord_iff hw ht).1 hword
    -- No markers are left over.
    obtain rfl : rest = [] := by
      refine List.eq_nil_iff_forall_not_mem.2 fun c hc => ?_
      have hmem : c ∈ w ++ (after ++ rest) := by simp [hc]
      cases (ht c hmem).symm.trans (hrest c hc)
    exact ⟨before, after, by simp, rfl⟩
  · rintro ⟨before, after, rfl, rfl⟩
    rw [List.append_assoc] at ht ⊢
    have hword := (takes_ofWord_iff hw (List.forall_mem_append.1 ht).2).2 ⟨rfl, rfl⟩
    have hend : Takes [.wildcard endName] after [.run endName after] [] :=
      takes_wildcard.2 ⟨after, (List.append_nil after).symm, rfl⟩
    refine ⟨[], takes_append.2 ⟨after, _, _, ?_, hend, rfl⟩, List.forall_mem_nil _⟩
    exact .cons (.run rfl) hword

/-- The first derivation finds the first place where the word stands. -/
theorem IsFirst.leftmost (hw : ∀ c ∈ w, isMarker c = false) (ht : ∀ c ∈ t, isMarker c = false)
    (h : (around w).IsFirst t ms) :
    ∃ before after, Text.Leftmost w t before after ∧ ms = movesAround before w after := by
  obtain ⟨before, after, heq, rfl⟩ := (derives_around_iff hw ht).1 h.1
  refine ⟨before, after, ⟨heq, fun before' after' heq' => ?_⟩, rfl⟩
  by_contra hlt
  have hbefore : Move.Before (.run startName before') (.run startName before) :=
    .shorter (Nat.lt_of_not_le hlt)
  have hprec : Move.Precedes (movesAround before' w after') (movesAround before w after) :=
    .rel hbefore
  refine hprec.asymm (h.2 _ ((derives_around_iff hw ht).2 ⟨before', after', heq', rfl⟩) ?_)
  intro hmoves
  rw [hmoves] at hprec
  exact hprec.asymm hprec

/-- What is found around a word is bound, and no marker is recorded. -/
theorem written_movesAround (before w after : Text) :
    let moves := movesAround before w after
    (boundBy moves []).get? startName = some before ∧
      (boundBy moves []).get? endName = some after ∧ markersOf moves = [] := by
  intro moves
  have hbound : moves.filterMap Move.bound? = [(startName, before), (endName, after)] := by
    simp [moves, movesAround, Move.bound?]
  have hmarkers : ∀ m ∈ moves, m.marker? = none := by
    simp only [moves, movesAround, List.mem_append, List.mem_cons, List.mem_map]
    rintro m ((rfl | ⟨c, -, rfl⟩) | rfl | ⟨⟨⟩⟩)
    all_goals rfl
  refine ⟨?_, ?_, List.filterMap_eq_nil_iff.2 hmarkers⟩
  all_goals
    rw [get?_boundBy, hbound]
    rfl

end Pattern

/-- The two sides of a rule that substitutes one text for another: they hold nothing that the
reader of rules takes for anything else. -/
structure Substitution (w r : Text) : Prop where
  not_blank : w.isBlank = false
  bracket_notMem : '[' ∉ w ∧ '[' ∉ r
  tab_notMem : '\t' ∉ w ∧ '\t' ∉ r
  not_marker : ∀ c ∈ w, isMarker c = false
  not_replacement : w.head? ≠ some '*'
  unanchored : Unanchored w
  not_comment : ¬ "//".toList <+: w
  /-- There is one right-hand side. -/
  not_alternatives : ¬ " || ".toList <:+: r
  /-- The line ends where the right-hand side does. -/
  not_break : ∀ c ∈ r.getLast?, c ≠ '\r' ∧ c ≠ '\n'

namespace PatternRule

/-- The rule that writes a text in the place of another one, as it is compiled. -/
def substituting (budget : Budget) (w r : Text) : PatternRule where
  name := w ++ '\t' :: r
  written := startSlot ++ w ++ endSlot
  pattern := .around w
  templates := [.reference startName :: Template.read r ++ [.reference endName]]
  budget

end PatternRule

/-- The rule that writes a text in every place of another one. -/
def ReplacementRule.substituting (w r : Text) : ReplacementRule where
  name := '*' :: w ++ '\t' :: r
  target := w
  alternatives := [r]

namespace Substitution

variable {w r : Text}

theorem ne_nil (h : Substitution w r) : w ≠ [] := by
  rintro rfl
  cases h.not_blank

theorem startReference_eq (h : Substitution w r) : startReference w = startSlot := by
  obtain ⟨c, w, rfl⟩ := List.exists_cons_of_ne_nil h.ne_nil
  have hc : c ≠ '[' := fun hc => h.bracket_notMem.1 (hc ▸ List.mem_cons_self)
  have hhash : c ≠ '#' := fun hhash => h.unanchored.head (congrArg some hhash)
  exact startReference_char hc hhash w

theorem chomp_line (h : Substitution w r) (lhs : Text) :
    Text.chomp (lhs ++ '\t' :: r) = lhs ++ '\t' :: r := by
  refine Text.dropRight_eq_self fun c hc => ?_
  rw [List.getLast?_append_cons] at hc
  have hbreak : c ≠ '\r' ∧ c ≠ '\n' := by
    rcases hr : r.getLast? with _ | d
    · rw [List.getLast?_cons, hr] at hc
      cases hc
      decide
    · rw [List.getLast?_cons, hr] at hc
      cases hc
      exact h.not_break _ hr
  simpa using hbreak

/-- The line of the rule is read as its two sides. -/
theorem read_line (h : Substitution w r) :
    RuleLine.read (w ++ '\t' :: r) = .pattern w [r] := by
  obtain ⟨c, w, rfl⟩ := List.exists_cons_of_ne_nil h.ne_nil
  have hdef : ¬ "#def".toList <+: c :: w ++ '\t' :: r := by
    intro hdef
    obtain ⟨rfl, -⟩ := List.cons_prefix_cons.1 hdef
    exact h.unanchored.head rfl
  have hcomment : ¬ ['/', '/'] <+: c :: w ++ '\t' :: r := by
    intro hcomment
    obtain ⟨rfl, htail⟩ := List.cons_prefix_cons.1 hcomment
    cases w with
    | nil => exact absurd (List.cons_prefix_cons.1 htail).1 (by decide)
    | cons d w =>
      obtain ⟨rfl, -⟩ := List.cons_prefix_cons.1 htail
      exact h.not_comment (List.prefix_append ['/', '/'] w)
  rw [RuleLine.read_sides h.tab_notMem.1 h.tab_notMem.2 h.not_blank hdef hcomment,
    RuleLine.ofSides_of_head?_ne h.not_replacement, Text.split_of_not_infix h.not_alternatives]

/-- So is the line of the replacement. -/
theorem read_line_replacement (h : Substitution w r) :
    RuleLine.read ('*' :: w ++ '\t' :: r) = .replacement w [r] := by
  have htab : '\t' ∉ '*' :: w := by
    rw [List.mem_cons, not_or]
    exact ⟨by decide, h.tab_notMem.1⟩
  have hdef : ¬ "#def".toList <+: '*' :: w ++ '\t' :: r := by
    intro hdef
    cases (List.cons_prefix_cons.1 hdef).1
  have hcomment : ¬ "//".toList <+: '*' :: w ++ '\t' :: r := by
    intro hcomment
    cases (List.cons_prefix_cons.1 hcomment).1
  rw [RuleLine.read_sides htab h.tab_notMem.2 rfl hdef hcomment,
    Text.split_of_not_infix h.not_alternatives]
  rfl

/-- A right-hand side copies what is before and what is after the text. -/
theorem read_padTemplate (h : Substitution w r) :
    Template.read (padTemplate w r) =
      .reference startName :: Template.read r ++ [.reference endName] := by
  have hstart : (startReference w).occursIn r = false := by
    rw [← Bool.not_eq_true, Text.occursIn_iff, h.startReference_eq]
    exact fun hmem => h.bracket_notMem.2 (hmem.subset List.mem_cons_self)
  have hname : ∀ c ∈ startName, Template.isBracket c = false := by
    simp [startName, Template.isBracket]
  rw [Padding.read_padTemplate h.unanchored, withStart, hstart, if_neg Bool.false_ne_true,
    h.startReference_eq]
  exact congrArg (· ++ [Piece.reference endName]) (Template.read_reference hname r)

/-- The two rules, as they are compiled. -/
theorem value_ofLines (h : Substitution w r) (budget : Budget) (groups : Groups) :
    (Rule.ofLines budget groups [w ++ '\t' :: r]).value =
        [.pattern (.substituting budget w r)] ∧
      (Rule.ofLines budget groups ['*' :: w ++ '\t' :: r]).value =
        [.replacement (.substituting w r)] := by
  have hvalue (line : Text) : (Rule.ofLines budget groups [line]).value =
      (Rule.readLine budget groups line).value.2.toList := List.append_nil _
  have hname : w ++ '\t' :: r ≠ [] := by simp
  constructor
  · have hread := h.read_line
    have hpattern := (read_padPattern groups (w ++ '\t' :: r)
      (Pattern.complete_of_notMem h.bracket_notMem.1) h.unanchored h.startReference_eq).1
    have hwritten : padPattern w = startSlot ++ w ++ endSlot := by
      rw [padPattern_eq h.unanchored, padLeft, if_pos h.startReference_eq]
    rw [← h.chomp_line w] at hread
    rw [hvalue, Rule.readLine_pattern budget groups hread, Noted.value_map, h.chomp_line,
      PatternRule.value_read groups hname, hpattern,
      Pattern.value_read_word _ _ h.bracket_notMem.1, hwritten, List.map_singleton,
      List.map_singleton, h.read_padTemplate]
    rfl
  · have hread := h.read_line_replacement
    rw [← h.chomp_line ('*' :: w)] at hread
    rw [hvalue, Rule.value_readLine_replacement budget groups hread, h.chomp_line]
    rfl

variable {budget : Budget} {word : GlossedWord}

/-- The rule applies where the text stands in the form, and writes in the first place. -/
theorem exists_leftmost_of_apply (h : Substitution w r)
    (hform : ∀ c ∈ word.form, isMarker c = false) {z : Realization}
    (hz : ((PatternRule.substituting budget w r).apply word).value = some z) :
    ∃ before after, Text.Leftmost w word.form before after ∧
      z = ⟨word.gloss, word.form, [before ++ r ++ after]⟩ := by
  obtain ⟨found, hfound, rfl⟩ := PatternRule.value_apply_eq_some_iff.1 hz
  obtain ⟨ms, hfirst, hbindings, htrace⟩ := Pattern.exists_isFirst_of_search hfound
  obtain ⟨before, after, hleftmost, rfl⟩ := hfirst.leftmost h.not_marker hform
  obtain ⟨hbefore, hafter, hmarkers⟩ := Pattern.written_movesAround before w after
  rw [← hbindings] at hbefore hafter
  rw [hmarkers] at htrace
  refine ⟨before, after, hleftmost, ?_⟩
  have hgloss : Gloss.fill (found.trace.map ([·])) word.gloss = word.gloss := by
    rw [htrace]
    exact Gloss.fill_nil word.gloss
  have houtput (source : Text) : (Template.expand found.bindings source
      (.reference startName :: Template.read r ++ [.reference endName])).value =
        before ++ r ++ after := by
    rw [List.cons_append, Template.value_expand_reference _ _ hbefore,
      Template.value_expand_append, Template.value_expand_read _ _ h.bracket_notMem.2,
      Template.value_expand_reference _ _ hafter, List.append_assoc]
    exact congrArg (fun rest => before ++ (r ++ rest)) (List.append_nil after)
  rw [PatternRule.realize, hgloss]
  exact congrArg (fun output => Realization.mk word.gloss word.form [output]) (houtput _)

/-- A rule that is not given up is refused exactly where the text does not stand. -/
theorem apply_eq_none_iff (h : Substitution w r) (hform : ∀ c ∈ word.form, isMarker c = false)
    (hlimit : ∀ limit, ((Pattern.around w).search budget word.form {}).1 ≠ .error limit) :
    ((PatternRule.substituting budget w r).apply word).value = none ↔ ¬ w <:+: word.form := by
  constructor
  · rintro hnone ⟨before, after, heq⟩
    rcases PatternRule.reports_of_apply_eq_none hnone with ⟨hsearch, -⟩ | ⟨limit, hsearch, -⟩
    · have hderives : (Pattern.around w).Derives word.form (Pattern.movesAround before w after) :=
        (Pattern.derives_around_iff h.not_marker hform).2 ⟨before, after, heq.symm, rfl⟩
      exact Pattern.not_derives_of_search (Prod.ext hsearch rfl) _ hderives
    · exact hlimit limit hsearch
  · intro hinfix
    rw [Option.eq_none_iff_forall_ne_some]
    intro z hz
    obtain ⟨before, after, hleftmost, -⟩ := h.exists_leftmost_of_apply hform hz
    exact hinfix ⟨before, after, hleftmost.eq_append.symm⟩

/-- Steps for all visits, and a level for each character, for the two wildcards and for the end, are
enough. -/
theorem search_around_ne_error (hform : ∀ c ∈ word.form, isMarker c = false)
    (hsteps : ((Pattern.around w).explore word.form).visits ≤ budget.maxSteps)
    (hdepth : w.length + 3 ≤ budget.maxDepth) (limit : Limit) :
    ((Pattern.around w).search budget word.form {}).1 ≠ .error limit := by
  have hplaces : (Pattern.around w).places = w.length + 3 := by
    simp [Pattern.around, Pattern.ofWord, Pattern.places]
  have hmarkers : word.form.countP isMarker = 0 := by
    rw [List.countP_eq_zero]
    intro c hc
    rw [hform c hc]
    exact Bool.false_ne_true
  have hwithin := Pattern.within_explore (Pattern.around w) word.form
  rw [hplaces, hmarkers, Nat.add_zero] at hwithin
  have hdeepest := hwithin.deepest_le (Pattern.explore_depths_ne_nil _ _)
  exact Pattern.search_ne_error hsteps (Int.le_trans (Int.ofNat_le.2 hdeepest) hdepth) limit

/-- The replacement comes to the same where the text does not stand again after its first place. -/
theorem apply_replacement_eq (h : Substitution w r)
    (honce : ∀ before after, word.form = before ++ w ++ after → ¬ w <:+: after)
    {value : Option Realization} (hnone : value = none ↔ ¬ w <:+: word.form)
    (hsome : ∀ z, value = some z → ∃ before after, Text.Leftmost w word.form before after ∧
      z = ⟨word.gloss, word.form, [before ++ r ++ after]⟩) :
    (ReplacementRule.substituting w r).apply word = value := by
  have hempty : w.isEmpty = false := List.isEmpty_eq_false_iff.2 h.ne_nil
  have hoccurs : w.occursIn word.form ↔ value ≠ none := by
    rw [Text.occursIn_iff, ne_eq, hnone, not_not]
  rw [ReplacementRule.apply]
  show (if w.isEmpty || !w.occursIn word.form then none
    else some ⟨word.gloss, word.form, [Text.replace w r word.form]⟩) = value
  rcases value with _ | z
  · rw [if_pos (by simpa [hempty] using hoccurs)]
  · obtain ⟨before, after, hleftmost, rfl⟩ := hsome z rfl
    rw [if_neg (by simpa [hempty] using hoccurs),
      hleftmost.replace_eq h.ne_nil (honce _ _ hleftmost.eq_append)]

end Substitution

/-- **A rule without slots rewrites the first place.**  Of a line that holds two plain sides, a rule
is compiled that, unless its search is given up, applies to a form without markers exactly if its
left-hand side stands in it, writes the right-hand side in the first such place, and keeps the rest
of the form and the gloss.  The line with a star before it replaces the left-hand side everywhere,
and comes to the same where there are no two places apart from each other.  The search is not given
up within steps for all its visits and three levels more than the left-hand side has characters. -/
theorem Rule.ofLines_substitutes {w r : Text} (h : Substitution w r) (budget : Budget)
    (groups : Groups) :
    let rule := PatternRule.substituting budget w r
    let replacement := ReplacementRule.substituting w r
    (ofLines budget groups [w ++ '\t' :: r]).value = [.pattern rule] ∧
      (ofLines budget groups ['*' :: w ++ '\t' :: r]).value = [.replacement replacement] ∧
      ∀ word : GlossedWord, (∀ c ∈ word.form, isMarker c = false) →
        let result := rule.apply word
        let givenUp := ∃ report ∈ result.reports, report.kind = .limitExceeded
        (¬ givenUp →
          (result.value = none ↔ ¬ w <:+: word.form) ∧
          (∀ z, result.value = some z → ∃ before after,
            Text.Leftmost w word.form before after ∧
              z = ⟨word.gloss, word.form, [before ++ r ++ after]⟩) ∧
          ((∀ before after, word.form = before ++ w ++ after → ¬ w <:+: after) →
            replacement.apply word = result.value)) ∧
        ((rule.pattern.explore word.form).visits ≤ budget.maxSteps →
          w.length + 3 ≤ budget.maxDepth → ¬ givenUp) := by
  intro rule replacement
  obtain ⟨hrule, hreplacement⟩ := h.value_ofLines budget groups
  refine ⟨hrule, hreplacement, fun word hform => ?_⟩
  intro result givenUp
  have hgivenUp : givenUp ↔
      ∃ limit, ((Pattern.around w).search budget word.form {}).1 = .error limit :=
    PatternRule.exists_limitExceeded_iff
  constructor
  · intro hnot
    have hlimit := not_exists.1 (mt hgivenUp.2 hnot)
    have hnone : result.value = none ↔ ¬ w <:+: word.form := h.apply_eq_none_iff hform hlimit
    have hsome (z : Realization) (hz : result.value = some z) :=
      h.exists_leftmost_of_apply hform hz
    exact ⟨hnone, hsome, fun honce => h.apply_replacement_eq honce hnone hsome⟩
  · intro hsteps hdepth hup
    obtain ⟨limit, hsearch⟩ := hgivenUp.1 hup
    exact Substitution.search_around_ne_error hform hsteps hdepth limit hsearch

/-- Of two places that overlap, both rules take the first one.  Where they are apart, only the
replacement takes the second one too. -/
theorem Rule.ofLines_substitutes_example :
    let w : Text := "ana".toList
    let r : Text := ['o']
    let rule := PatternRule.substituting {} w r
    let replacement := ReplacementRule.substituting w r
    let word : GlossedWord := ⟨"x y".toList, "banana".toList⟩
    let apart : GlossedWord := ⟨"x y".toList, "ana ana".toList⟩
    Substitution w r ∧ (ofLines {} [] ["ana\to".toList]).value = [.pattern rule] ∧
      (rule.apply word).value = some ⟨word.gloss, word.form, ["bona".toList]⟩ ∧
      replacement.apply word = (rule.apply word).value ∧
      (rule.apply apart).value = some ⟨apart.gloss, apart.form, ["o ana".toList]⟩ ∧
      replacement.apply apart = some ⟨apart.gloss, apart.form, ["o o".toList]⟩ := by
  intro w r rule replacement word apart
  have h : Substitution w r := {
    not_blank := rfl
    bracket_notMem := by decide
    tab_notMem := by decide
    not_marker := by simp [w, isMarker]
    not_replacement := by decide
    unanchored := ⟨by decide, by decide⟩
    not_comment := by decide
    not_alternatives := by decide
    not_break := by simp [r] }
  obtain ⟨hrule, -, happly⟩ := Rule.ofLines_substitutes h {} []
  obtain ⟨hanswer, hfits⟩ := happly word (by simp [word, isMarker])
  obtain ⟨-, -, hreplacement⟩ := hanswer (hfits (by decide +kernel) (by decide))
  refine ⟨h, hrule, by decide +kernel, hreplacement ?_, by decide +kernel, by decide +kernel⟩
  intro before after hform hinfix
  -- There is only room for the text behind its place if nothing comes before that.
  have hlength : word.form.length = (before ++ w ++ after).length := congrArg List.length hform
  rw [List.length_append, List.length_append] at hlength
  have hbefore : before = [] := by
    have hafter : w.length ≤ after.length := hinfix.length_le
    have hsix : word.form.length = 6 := rfl
    have hthree : w.length = 3 := rfl
    exact List.eq_nil_of_length_eq_zero (by omega)
  rw [hbefore] at hform
  have hhead : some 'b' = some 'a' := congrArg List.head? hform
  exact absurd hhead (by decide)

end Inflection
