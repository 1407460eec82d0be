import Inflection.Proofs.Pattern.Accepted

/-!
# What a word accepts

A word is a pattern of literals, and accepts more than itself: markers may be added anywhere, and a
blank may stand for a marker, or for the two halves of an infix slot together.  `Word.Renders` is
the language that this makes, said without a search, and `Pattern.search_ofWord_iff` shows that it
is exact.  The halves of infix slots have to come in pairs, since an opening half that takes a blank
leaves it to what comes next.  A blank in a word is a character like any other.
-/

namespace Inflection

namespace Word

/-- A text that is written along a word: each step writes the next character, or a blank for it if
it is a marker other than the opening half of an infix slot, or one blank for both halves.  Any run
of markers may come before each step, and at the end. -/
inductive Renders : Text → Text → Prop where
  | done {run : Text} (hrun : ∀ c ∈ run, isMarker c) : Renders [] run
  | itself {run w t : Text} {c : Char} (hrun : ∀ c ∈ run, isMarker c) (h : Renders w t) :
      Renders (c :: w) (run ++ c :: t)
  | blank {run w t : Text} {c : Char} (hrun : ∀ c ∈ run, isMarker c)
      (hc : c = '|' ∨ c = '&' ∨ c = '>') (h : Renders w t) :
      Renders (c :: w) (run ++ Inflection.blank :: t)
  | pair {run w t : Text} (hrun : ∀ c ∈ run, isMarker c) (h : Renders w t) :
      Renders ('<' :: '>' :: w) (run ++ Inflection.blank :: t)

/-- Every opening half of an infix slot is directly followed by a closing one. -/
def Paired (w : Text) : Prop := ∀ i : Nat, w[i]? = some '<' → w[i + 1]? = some '>'

instance (w : Text) : Decidable (Paired w) :=
  decidable_of_iff (∀ i < w.length, w[i]? = some '<' → w[i + 1]? = some '>')
    ⟨fun h i hi => h i (List.getElem?_eq_some_iff.1 hi).1 hi, fun h i _ => h i⟩

variable {w t : Text}

theorem Paired.tail {c : Char} (h : Paired (c :: w)) : Paired w := fun i => h (i + 1)

theorem Paired.exists_eq_cons (h : Paired ('<' :: w)) : ∃ w', w = '>' :: w' := by
  have hnext : w[0]? = some '>' := h 0 rfl
  cases w with
  | nil => cases hnext
  | cons c w =>
    cases hnext
    exact ⟨w, rfl⟩

/-- No run of markers comes before a blank, so the blank stands for the closing half. -/
theorem Renders.of_closing (h : Renders ('>' :: w) (Inflection.blank :: t)) : Renders w t := by
  have hempty {run : Text} {c : Char} {v : Text} (hrun : ∀ c ∈ run, isMarker c)
      (htext : Inflection.blank :: t = run ++ c :: v) : c = Inflection.blank ∧ v = t := by
    cases run with
    | nil =>
      obtain ⟨hc, hv⟩ := List.cons.inj htext
      exact ⟨hc.symm, hv.symm⟩
    | cons d run =>
      obtain ⟨rfl, -⟩ := List.cons.inj htext
      exact absurd (hrun _ List.mem_cons_self) (by decide)
  generalize htext : Inflection.blank :: t = text at h
  cases h with
  | itself hrun => exact absurd (hempty hrun htext).1 (by decide)
  | blank hrun _ h =>
    obtain ⟨-, rfl⟩ := hempty hrun htext
    exact h

end Word

namespace Element

variable {t u : Text} {ms : List Move}

/-- An element that passes over markers takes a text behind any run of them. -/
theorem Takes.behind {e : Element} (h : e.Takes t ms u) (he : e.passesMarkers) {run : Text}
    (hrun : ∀ c ∈ run, isMarker c) : ∃ ms', e.Takes (run ++ t) ms' u := by
  induction run with
  | nil => exact ⟨ms, h⟩
  | cons c run ih =>
    obtain ⟨hc, hrun⟩ := List.forall_mem_cons.1 hrun
    obtain ⟨ms', h'⟩ := ih hrun
    exact ⟨.skip c :: ms', .skip he hc h'⟩

/-- Behind a run of markers, a literal takes its own character, or a blank that stands for it. -/
theorem Takes.exists_of_literal {c : Char} (h : (literal c).Takes t ms u) :
    ∃ run, (∀ d ∈ run, isMarker d) ∧ (t = run ++ c :: u ∨
      ∃ v, isMarker c ∧ t = run ++ blank :: v ∧ u = if c = '<' then blank :: v else v) := by
  generalize he : literal c = e at h
  induction h with
  | @stand m v hm =>
    cases he
    exact ⟨[], List.forall_mem_nil _, Or.inr ⟨v, hm, rfl, rfl⟩⟩
  | direct =>
    cases he
    exact ⟨[], List.forall_mem_nil _, Or.inl rfl⟩
  | run => cases he
  | alternative hname =>
    rw [← he] at hname
    cases hname
  | nothing => cases he
  | @skip e d t u ms _ hd _ ih =>
    obtain ⟨run, hrun, h⟩ := ih he
    refine ⟨d :: run, List.forall_mem_cons.2 ⟨hd, hrun⟩, ?_⟩
    rcases h with rfl | ⟨v, hm, rfl, hu⟩
    · exact Or.inl rfl
    · exact Or.inr ⟨v, hm, rfl, hu⟩

end Element

namespace Pattern

open Word

/-- The pattern in which each character of a word is a literal. -/
def ofWord (w : Text) : Pattern := w.map .literal

variable {w t : Text}

theorem derives_cons_iff {e : Element} {p : Pattern} :
    (∃ ms, Derives (e :: p) t ms) ↔ ∃ ms u, e.Takes t ms u ∧ ∃ ms', p.Derives u ms' := by
  constructor
  · rintro ⟨ms, rest, h, hrest⟩
    cases h with
    | cons h h' => exact ⟨_, _, h, _, rest, h', hrest⟩
  · rintro ⟨ms, u, h, ms', rest, h', hrest⟩
    exact ⟨_, rest, .cons h h', hrest⟩

/-- A literal behind a run of markers, and a derivation of what it leaves. -/
theorem exists_derives_literal {c : Char} {p : Pattern} {run t u : Text} {ms ms' : List Move}
    (hrun : ∀ c ∈ run, isMarker c) (h : (Element.literal c).Takes t ms u)
    (h' : p.Derives u ms') : ∃ ms, Derives (.literal c :: p) (run ++ t) ms := by
  obtain ⟨ms, h⟩ := h.behind rfl hrun
  exact derives_cons_iff.2 ⟨ms, u, h, ms', h'⟩

theorem exists_derives_of_renders (h : Renders w t) : ∃ ms, (ofWord w).Derives t ms := by
  induction h with
  | @done run hrun => exact ⟨[], run, .nil, hrun⟩
  | itself hrun _ ih =>
    obtain ⟨ms, hms⟩ := ih
    exact exists_derives_literal hrun .direct hms
  | @blank run w t c hrun hc _ ih =>
    obtain ⟨ms, hms⟩ := ih
    have hstand : (Element.literal c).Takes (Inflection.blank :: t) [.stand c] t := by
      rcases hc with rfl | rfl | rfl
      all_goals exact .stand rfl
    exact exists_derives_literal hrun hstand hms
  | pair hrun _ ih =>
    obtain ⟨ms, hms⟩ := ih
    -- The opening half leaves the blank to the closing one.
    obtain ⟨ms', hms'⟩ := exists_derives_literal (c := '>') (List.forall_mem_nil _) (.stand rfl) hms
    exact exists_derives_literal hrun (.stand rfl) hms'

theorem renders_of_derives {ms : List Move} (hw : Paired w) (h : (ofWord w).Derives t ms) :
    Renders w t := by
  induction w generalizing t ms with
  | nil =>
    obtain ⟨rest, h, hrest⟩ := h
    cases h
    exact .done hrest
  | cons c w ih =>
    obtain ⟨ms₁, u, htakes, ms₂, hu⟩ := derives_cons_iff.1 ⟨ms, h⟩
    have hrest := ih hw.tail hu
    obtain ⟨run, hrun, rfl | ⟨v, hmarker, rfl, rfl⟩⟩ := htakes.exists_of_literal
    · exact .itself hrun hrest
    · by_cases hc : c = '<'
      · subst hc
        obtain ⟨w, rfl⟩ := hw.exists_eq_cons
        rw [if_pos rfl] at hrest
        exact .pair hrun hrest.of_closing
      · rw [if_neg hc] at hrest
        have hclosed : c = '|' ∨ c = '&' ∨ c = '>' := by
          simpa [isMarker, hc, or_assoc] using hmarker
        exact .blank hrun hclosed hrest

/-- **The language of a word.**  Where opening halves of infix slots are followed by closing ones, a
word accepts what it can be rendered as and nothing else: within every budget unless the search is
given up, and there are budgets within which it is not. -/
theorem search_ofWord_iff (hw : Paired w) (t : Text) :
    ((ofWord w).Accepts t ↔ Renders w t) ∧
    ∀ b s, (∀ limit, ((ofWord w).searchFrom b t 0 s).1 ≠ .error limit) →
      (((ofWord w).searchFrom b t 0 s).1 = .ok true ↔ Renders w t) := by
  have hderives : (∃ ms, (ofWord w).Derives t ms) ↔ Renders w t :=
    ⟨fun ⟨_, h⟩ => renders_of_derives hw h, exists_derives_of_renders⟩
  refine ⟨accepts_iff.trans hderives, fun b s hb => ?_⟩
  exact (searchFrom_eq_first b (ofWord w) t (Nat.zero_le _) s hb).1.trans hderives

/-- One blank stands for an infix slot, but not for a boundary after it as well. -/
theorem search_ofWord_iff_example :
    let w : Text := "k<>|a".toList
    Paired w ∧ ((ofWord w).searchFrom {} "&k >|a<".toList 0 {}).1 = .ok true ∧
      Renders w "&k >|a<".toList ∧ ((ofWord w).searchFrom {} "k a".toList 0 {}).1 = .ok false ∧
      ¬ Renders w "k a".toList := by
  intro w
  have hw : Paired w := by decide
  have hfound : ((ofWord w).searchFrom {} "&k >|a<".toList 0 {}).1 = .ok true := rfl
  have hrefused : ((ofWord w).searchFrom {} "k a".toList 0 {}).1 = .ok false := rfl
  refine ⟨hw, hfound, ?_, hrefused, ?_⟩
  · exact ((search_ofWord_iff hw _).2 {} {} (by rintro limit ⟨⟩)).1 hfound
  · intro hrenders
    have haccepted := ((search_ofWord_iff hw _).2 {} {} (by rintro limit ⟨⟩)).2 hrenders
    cases hrefused.symm.trans haccepted

end Pattern

end Inflection
