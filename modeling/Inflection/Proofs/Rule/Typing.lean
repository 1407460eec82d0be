import Inflection.Proofs.Gloss.Filled
import Inflection.Proofs.Pattern.FirstDerivation
import Inflection.Proofs.Pattern.Typed
import Inflection.Proofs.Rule.Applied

/-!
# How a rule types the blanks of a gloss

A match records for which markers blanks stand, and those are written into the blanks of the gloss
by counting.  Where no blank is taken in any other way, and the halves of infix slots come in pairs,
the two line up, and every blank is typed with the marker that took it.  The typed gloss is then
accepted as it stands, so nothing of it changes when the rule is applied to it again.
-/

namespace Inflection

namespace Move

/-- The opening halves of infix slots come in pairs with closing ones where blanks stand for
them. -/
inductive Paired : List Move → Prop where
  | nil : Paired []
  | pair {ms : List Move} (h : Paired ms) : Paired (.stand '<' :: .stand '>' :: ms)
  | cons {m : Move} {ms : List Move} (hm : m ≠ .stand '<') (h : Paired ms) : Paired (m :: ms)

theorem Paired.append {ms ms' : List Move} (h : ∀ m ∈ ms, m ≠ .stand '<') (h' : Paired ms') :
    Paired (ms ++ ms') := by
  induction ms with
  | nil => exact h'
  | cons m ms ih =>
    obtain ⟨hm, h⟩ := List.forall_mem_cons.1 h
    exact .cons hm (ih h)

theorem eq_stand {m : Move} {c : Char} (h : m.marker? = some c) : m = .stand c := by
  cases m <;> cases h
  rfl

end Move

namespace Gloss

variable {m : Move} {ms : List Move}

/-- What some moves write into one blank after the other. -/
def fillersOf (ms : List Move) : List Text := fillers ((markersOf ms).map ([·]))

theorem fillersOf_pair : fillersOf (.stand '<' :: .stand '>' :: ms) = ['<', '>'] :: fillersOf ms :=
  rfl

theorem fillersOf_stand {c : Char} (h : Move.stand c ≠ .stand '<') :
    fillersOf (.stand c :: ms) = [c] :: fillersOf ms :=
  fillers_cons_of_ne (fun hc => h (congrArg _ (List.singleton_inj.1 hc))) _

theorem fillersOf_cons (h : m.marker? = none) : fillersOf (m :: ms) = fillersOf ms := by
  rw [fillersOf, markersOf, List.filterMap_cons_none h]
  rfl

/-- If no blanks are taken but where they stand for markers, these are written into the blanks that
stand for them. -/
theorem fill_markersOf (hpaired : Move.Paired ms)
    (hblank : ∀ m ∈ ms, blank ∈ m.taken → ∃ c, m = .stand c) (rest : Text) :
    fill ((markersOf ms).map ([·])) (ms.flatMap Move.taken ++ rest) =
      ms.flatMap Move.typed ++ rest := by
  show fillBlanks (fillersOf ms) _ = _
  induction hpaired with
  | nil => exact fill_nil rest
  | @pair ms _ ih =>
    replace ih := ih fun m hm => hblank m (List.mem_cons_of_mem _ (List.mem_cons_of_mem _ hm))
    show fillBlanks _ (blank :: (ms.flatMap Move.taken ++ rest)) = _
    rw [fillersOf_pair, fillBlanks_blank]
    exact congrArg (['<', '>'] ++ ·) ih
  | @cons m ms hm _ ih =>
    replace ih := ih fun m hm => hblank m (List.mem_cons_of_mem _ hm)
    rw [List.flatMap_cons, List.flatMap_cons, List.append_assoc, List.append_assoc]
    have hblank := hblank m List.mem_cons_self
    cases m with
    | stand c =>
      have hc : c ≠ '<' := fun hc => hm (congrArg _ hc)
      rw [fillersOf_stand hm, Move.taken, if_neg hc, List.singleton_append, fillBlanks_blank]
      exact congrArg ([c] ++ ·) ih
    | direct | skip | run | alternative | nothing =>
      rw [fillersOf_cons rfl]
      refine (fillBlanks_append (fun hmem => ?_) _ _).trans (congrArg _ ih)
      obtain ⟨c, hc⟩ := hblank hmem
      cases hc

end Gloss

namespace Pattern

/-- Every opening half of an infix slot is followed by a closing one. -/
def Paired (p : Pattern) : Prop :=
  ∀ i : Nat, p[i]? = some (.literal '<') → p[i + 1]? = some (.literal '>')

instance (p : Pattern) : Decidable p.Paired :=
  decidable_of_iff
    (∀ i < p.length, p[i]? = some (.literal '<') → p[i + 1]? = some (.literal '>'))
    ⟨fun h i hi => h i (List.getElem?_eq_some_iff.1 hi).1 hi, fun h i _ => h i⟩

variable {p : Pattern} {t u : Text} {ms : List Move}

/-- The opening half leaves a blank that stands for it to the element after it. -/
theorem takes_opening (h : (Element.literal '<').Takes t ms u) :
    (∀ m ∈ ms, m ≠ .stand '<') ∨
      ∃ ms' u', ms = ms' ++ [.stand '<'] ∧ (∀ m ∈ ms', m ≠ .stand '<') ∧ u = blank :: u' := by
  generalize he : Element.literal '<' = e at h
  induction h with
  | @stand m t =>
    cases he
    exact Or.inr ⟨[], t, rfl, List.forall_mem_nil _, if_pos rfl⟩
  | direct => exact Or.inl (List.forall_mem_singleton.2 (by rintro ⟨⟩))
  | run => cases he
  | alternative he' =>
    rw [← he] at he'
    cases he'
  | nothing => cases he
  | skip _ _ _ ih =>
    rcases ih he with h | ⟨ms', u', rfl, h, rfl⟩
    · exact Or.inl (List.forall_mem_cons.2 ⟨by rintro ⟨⟩, h⟩)
    · exact Or.inr ⟨_ :: ms', u', rfl, List.forall_mem_cons.2 ⟨by rintro ⟨⟩, h⟩, rfl⟩

/-- A blank can only stand for the closing half. -/
theorem takes_closing (h : (Element.literal '>').Takes (blank :: t) ms u) : ms = [.stand '>'] := by
  generalize hblank : blank :: t = t' at h
  cases h with
  | stand => rfl
  | direct => cases hblank
  | alternative he => cases he
  | skip _ hc =>
    cases hblank
    cases hc

theorem Takes.paired (h : p.Takes t ms u) (hp : p.Paired) : Move.Paired ms := by
  induction h with
  | nil => exact .nil
  | @cons e p t u v ms ms' h h' ih =>
    replace ih := ih fun i hi => hp (i + 1) hi
    by_cases he : e = .literal '<'
    · subst he
      rcases takes_opening h with hms | ⟨ms₁, u', rfl, hms, rfl⟩
      · exact .append hms ih
      -- The closing half comes next, and takes the blank.
      have hnext : p[0]? = some (.literal '>') := hp 0 rfl
      cases h' with
      | nil => cases hnext
      | cons h₁ h₂ =>
        cases hnext
        obtain rfl := takes_closing h₁
        rw [List.append_assoc]
        refine .append hms (.pair ?_)
        cases ih with
        | cons _ ih => exact ih
    · refine .append (fun m hm hstand => he ?_) ih
      rw [hstand] at hm
      exact (h.of_stand_mem hm).1

end Pattern

namespace PatternRule

variable {r : PatternRule} {gloss : Text} {z : Realization}

/-- A gloss is typed in place by the moves of its first derivation: it is what they take, before
some markers, and the typed gloss is the same but for the blanks that stand for markers, each of
which is the marker that took it, or the pair of markers that share it. -/
structure TypesInPlace (r : PatternRule) (gloss typed : Text) (moves : List Move) (rest : Text) :
    Prop where
  first : r.pattern.IsFirst gloss moves
  gloss_eq : gloss = moves.flatMap Move.taken ++ rest
  typed_eq : typed = moves.flatMap Move.typed ++ rest
  /-- A blank that stands for two markers stands for the two halves of an infix slot. -/
  paired : Move.Paired moves
  /-- Blanks are only taken where they stand for markers. -/
  of_blank_mem : ∀ m ∈ moves, blank ∈ m.taken → ∃ c, m = .stand c
  isMarker : ∀ c ∈ rest, isMarker c

/-- No blank is left in a gloss that is typed in place. -/
theorem TypesInPlace.blank_notMem {typed : Text} {moves : List Move} {rest : Text}
    (h : r.TypesInPlace gloss typed moves rest) : blank ∉ typed := by
  obtain ⟨⟨rest', htakes, -⟩, -⟩ := h.first
  rw [h.typed_eq, List.mem_append, List.mem_flatMap]
  rintro (⟨m, hm, hblank⟩ | hblank)
  · cases m with
    | stand c =>
      have hmarker := (htakes.of_stand_mem hm).1
      rw [← List.mem_singleton.1 hblank] at hmarker
      cases hmarker
    | direct | skip | run | alternative | nothing =>
      obtain ⟨c, hc⟩ := h.of_blank_mem _ hm hblank
      cases hc
  · cases h.isMarker _ hblank

/-- A gloss that is typed in place has a derivation. -/
theorem TypesInPlace.derives {typed : Text} {moves : List Move} {rest : Text}
    (h : r.TypesInPlace gloss typed moves rest) :
    r.pattern.Derives typed (moves.map Move.settled) := by
  obtain ⟨⟨rest', htakes, -⟩, -⟩ := h.first
  have hrest : rest' = rest := List.append_cancel_left (htakes.eq_append.symm.trans h.gloss_eq)
  rw [h.typed_eq, ← hrest]
  rw [← hrest] at h
  exact htakes.derives_settled h.isMarker

/-- The typed gloss is taken without recording a marker, unless the search is given up. -/
theorem TypesInPlace.exists_search_eq {typed : Text} {moves : List Move} {rest : Text}
    (h : r.TypesInPlace gloss typed moves rest) {b : Budget}
    (hb : ∀ limit, (r.pattern.search b typed {}).1 ≠ .error limit) :
    ∃ found, r.pattern.search b typed {} = (.ok true, found) ∧ found.trace = [] := by
  obtain ⟨found, moves', hfound, hfirst, htrace⟩ := Pattern.exists_search_eq h.derives hb
  refine ⟨found, hfound, ?_⟩
  rw [htrace, hfirst.1.markersOf_eq_nil h.blank_notMem]
  rfl

/-- If no blank is taken by a literal or within what is bound, and the halves of infix slots come in
pairs, then the first derivation types the gloss in place. -/
theorem exists_typesInPlace (hnames : (r.pattern.filterMap Element.name?).Nodup)
    (hblank : .literal blank ∉ r.pattern) (hpaired : r.pattern.Paired) {found : Progress}
    (hfound : r.pattern.search r.budget gloss {} = (.ok true, found))
    (hvalues : ∀ n v, found.bindings.get? n = some v → blank ∉ v) :
    ∃ moves rest, r.TypesInPlace gloss (r.realize (.ofGloss gloss) found).gloss moves rest := by
  obtain ⟨moves, hfirst, hbindings, htrace⟩ := Pattern.exists_isFirst_of_search hfound
  obtain ⟨rest, htakes, hrest⟩ := hfirst.1
  rw [hbindings] at hvalues
  have hstand : ∀ m ∈ moves, blank ∈ m.taken → ∃ c, m = .stand c := by
    intro m hm hmem
    rcases htakes.of_blank_mem hm hmem with h | h | ⟨b, hb, hmem⟩
    · exact h
    · exact absurd h hblank
    · exact absurd hmem (hvalues _ _ (htakes.get?_boundBy hnames hm hb))
  refine ⟨moves, rest, hfirst, htakes.eq_append, ?_, htakes.paired hpaired, hstand, hrest⟩
  show Gloss.fill (found.trace.map ([·])) gloss = _
  rw [htrace, List.append_nil, htakes.eq_append]
  exact Gloss.fill_markersOf (htakes.paired hpaired) hstand rest

/-- **A rule types a gloss exactly, and once.**  If the names of its pattern are distinct, blanks
are taken neither by its literals nor by anything that is bound, and the halves of infix slots come
in pairs, then the gloss is typed in place, and no blank is left.  The pattern takes the typed gloss
without recording a marker, so that applying the rule to it, unless the search is given up, leaves
it as it is. -/
theorem apply_types_gloss (hnames : (r.pattern.filterMap Element.name?).Nodup)
    (hblank : .literal blank ∉ r.pattern) (hpaired : r.pattern.Paired)
    (hz : (r.apply (.ofGloss gloss)).value = some z)
    (hvalues : ∀ n v, (r.pattern.search r.budget gloss {}).2.bindings.get? n = some v →
      blank ∉ v) :
    (∃ moves rest, r.TypesInPlace gloss z.gloss moves rest) ∧ blank ∉ z.gloss ∧
      (∃ moves, r.pattern.IsFirst z.gloss moves ∧ markersOf moves = []) ∧
      (∀ b, (∀ limit, (r.pattern.search b z.gloss {}).1 ≠ .error limit) →
        (r.pattern.search b z.gloss {}).1 = .ok true ∧
          (r.pattern.search b z.gloss {}).2.trace = []) ∧
      ((∀ limit, (r.pattern.search r.budget z.gloss {}).1 ≠ .error limit) →
        ∃ z', (r.apply (.ofGloss z.gloss)).value = some z' ∧ z'.gloss = z.gloss) := by
  obtain ⟨found, hfound, rfl⟩ := value_apply_eq_some_iff.1 hz
  have hfound : r.pattern.search r.budget gloss {} = (.ok true, found) := hfound
  rw [hfound] at hvalues
  obtain ⟨moves, rest, htypes⟩ := exists_typesInPlace hnames hblank hpaired hfound hvalues
  generalize (r.realize (.ofGloss gloss) found).gloss = typed at htypes
  have hno := htypes.blank_notMem
  obtain ⟨moves', hfirst'⟩ := Pattern.exists_isFirst htypes.derives
  refine ⟨⟨moves, rest, htypes⟩, hno, ⟨moves', hfirst', hfirst'.1.markersOf_eq_nil hno⟩, ?_, ?_⟩
  · intro b hb
    obtain ⟨found, hfound, htrace⟩ := htypes.exists_search_eq hb
    rw [hfound]
    exact ⟨rfl, htrace⟩
  · intro hb
    obtain ⟨found, hfound, htrace⟩ := htypes.exists_search_eq hb
    refine ⟨_, value_apply_eq_some_iff.2 ⟨found, hfound, rfl⟩, ?_⟩
    show Gloss.fill (found.trace.map ([·])) typed = typed
    rw [htrace]
    exact Gloss.fill_nil typed

/-- A rule for a root with an infix and a suffix. -/
def infixed : PatternRule where
  name := ['i']
  written := []
  pattern := [.wildcard ['x'], .literal '<', .literal '>', .wildcard ['y'], .literal '|',
    .literal 's']
  templates := [[.reference ['y'], .reference ['x']]]

/-- Of two blanks, the first one stands for both halves of the infix slot. -/
theorem apply_types_gloss_example :
    let gloss : Text := ['a', ' ', 'b', ' ', 's']
    let typed : Text := ['a', '<', '>', 'b', '|', 's']
    (infixed.apply (.ofGloss gloss)).value = some ⟨typed, gloss, [['b', 'a']]⟩ ∧
      (∃ moves rest, infixed.TypesInPlace gloss typed moves rest) ∧
      ∃ z, (infixed.apply (.ofGloss typed)).value = some z ∧ z.gloss = typed := by
  intro gloss typed
  have happly : (infixed.apply (.ofGloss gloss)).value = some ⟨typed, gloss, [['b', 'a']]⟩ := rfl
  have hbindings : (infixed.pattern.search infixed.budget gloss {}).2.bindings =
      [(['y'], ['b']), (['x'], ['a'])] := rfl
  have hvalues : ∀ n v,
      (infixed.pattern.search infixed.budget gloss {}).2.bindings.get? n = some v →
        blank ∉ v := by
    intro n v hv
    simp only [hbindings, Table.get?] at hv
    split_ifs at hv
    all_goals cases hv; decide
  obtain ⟨htypes, -, -, -, hagain⟩ :=
    apply_types_gloss (by decide) (by decide) (by decide) happly hvalues
  refine ⟨happly, htypes, hagain fun limit => ?_⟩
  have hsearch : (infixed.pattern.search infixed.budget typed {}).1 = .ok true := rfl
  show (infixed.pattern.search infixed.budget typed {}).1 ≠ _
  rw [hsearch]
  rintro ⟨⟩

end PatternRule

end Inflection
