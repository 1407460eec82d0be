import Inflection.Affix
import Inflection.Proofs.Affix.Balanced
import Inflection.Proofs.Text.Trimmed
import Mathlib.Data.List.Basic

/-!
# Affix expressions as they are written

`AffixExpression.read_write` says that reading gives a written expression back.  Reading trims a
text before it looks at it, so the induction is on the expression, for every text that is its
written form once it has been trimmed: the written form itself, and what is left of a longer one.
-/

namespace Inflection

open Inflection.Bracket

/-- A token of an affix expression: it holds no white space and no bracket, is not taken for what
stands between alternatives, and has no underscore at either end. -/
structure IsAffixToken (w : Text) : Prop where
  ne_nil : w ≠ []
  isSpace : ∀ c ∈ w, Text.isSpace c = false
  isBracket : ∀ c ∈ w, isBracket c = false
  ne_bars : w ≠ ['|', '|']
  head : w.head? ≠ some '_'
  last : w.getLast? ≠ some '_'

theorem IsAffixToken.trimmed {w : Text} (hw : IsAffixToken w) : w.Trimmed :=
  Text.trimmed_of_forall hw.isSpace

theorem IsAffixToken.ne_blank {w : Text} (hw : IsAffixToken w) : ∀ c ∈ w, c ≠ ' ' := by
  rintro c hc rfl
  exact Bool.false_ne_true (hw.isSpace ' ' hc).symm

namespace AffixExpression

/-- An expression without groups that no bracket closes: tokens, and groups of alternatives, of
which there is at least one. -/
inductive WellFormed : AffixExpression → Prop where
  | done : WellFormed .done
  | token {w : Text} {rest : AffixExpression} (hw : IsAffixToken w) (hrest : WellFormed rest) :
      WellFormed (.token w rest)
  | group {alternatives : List AffixExpression} {rest : AffixExpression}
      (hne : alternatives ≠ []) (h : ∀ a ∈ alternatives, WellFormed a) (hrest : WellFormed rest) :
      WellFormed (.group alternatives rest)

/-- A blank before a text, unless that is empty. -/
def setOff : Text → Text
  | [] => []
  | c :: t => ' ' :: c :: t

/-- The written form of an expression: its items with single blanks between them, a group as its
alternatives between brackets. -/
def write : AffixExpression → Text
  | .done => []
  | .token w rest => w ++ setOff rest.write
  | .group alternatives rest =>
    '(' :: alternation.intercalate (alternatives.map write) ++ ')' :: setOff rest.write
  | .unclosed w => w

/-! ## Written forms are balanced and trimmed -/

theorem balanced_setOff {t : Text} (h : Balanced t) : Balanced (setOff t) := by
  cases t with
  | nil => exact .nil
  | cons c t => exact .char rfl h

theorem balanced_alternatives {alternatives : List AffixExpression}
    (h : ∀ a ∈ alternatives, Balanced a.write) :
    Balanced (alternation.intercalate (alternatives.map write)) := by
  refine .intercalate ?_ (List.forall_mem_map.2 h)
  show Balanced [' ', '|', '|', ' ']
  exact .char rfl (.char rfl (.char rfl (.char rfl .nil)))

theorem balanced_write {e : AffixExpression} (he : e.WellFormed) : Balanced e.write := by
  induction he with
  | done =>
    rw [write]
    exact .nil
  | token hw _ ih =>
    rw [write]
    exact (Balanced.of_forall hw.isBracket).append (balanced_setOff ih)
  | group _ _ _ ih ihrest =>
    rw [write]
    exact .group (balanced_alternatives ih) (balanced_setOff ihrest)

theorem trimmed_append_setOff {s t : Text} (hs : s.Trimmed) (hs' : s ≠ []) (ht : t.Trimmed) :
    (s ++ setOff t).Trimmed := by
  cases t with
  | nil => simpa [setOff] using hs
  | cons c t =>
    have hassoc : s ++ setOff (c :: t) = s ++ [' '] ++ c :: t := by simp [setOff]
    rw [hassoc]
    exact hs.append_append ht hs' (List.cons_ne_nil c t) [' ']

theorem trimmed_brackets (u : Text) : Text.Trimmed ('(' :: u ++ [')']) :=
  (Text.trimmed_singleton (c := '(') rfl).append_append (Text.trimmed_singleton rfl)
    (List.cons_ne_nil _ _) (List.cons_ne_nil _ _) u

theorem write_group (alternatives : List AffixExpression) (rest : AffixExpression) :
    write (.group alternatives rest) =
      ('(' :: alternation.intercalate (alternatives.map write) ++ [')']) ++ setOff rest.write := by
  rw [write, List.append_assoc]
  rfl

theorem trimmed_write {e : AffixExpression} (he : e.WellFormed) : e.write.Trimmed := by
  induction he with
  | done =>
    rw [write]
    exact Text.trimmed_nil
  | token hw _ ih =>
    rw [write]
    exact trimmed_append_setOff hw.trimmed hw.ne_nil ih
  | group _ _ _ _ ihrest =>
    rw [write_group]
    exact trimmed_append_setOff (trimmed_brackets _) (List.cons_ne_nil _ _) ihrest

theorem trim_setOff {t : Text} (h : t.Trimmed) : (setOff t).trim = t := by
  cases t with
  | nil => rfl
  | cons c t => exact h.trim_cons rfl

/-! ## Splitting the alternatives of a group -/

/-- No separator starts at a character other than a blank. -/
theorem separator?_of_ne {c : Char} (hc : c ≠ ' ') (level : Int) (t : Text) :
    separator? alternation level (c :: t) = none := by
  rw [Option.eq_none_iff_forall_ne_some]
  intro r hr
  obtain ⟨-, -, ht⟩ := separator?_eq_some_iff.1 hr
  cases ht
  exact hc rfl

/-- A run of characters without brackets and blanks holds no separator. -/
theorem splitFrom_token {w : Text} (hw : ∀ c ∈ w, isBracket c = false ∧ c ≠ ' ') (level : Int)
    (t : Text) :
    splitFrom alternation level (w ++ t) =
      w.foldr Text.consFirst (splitFrom alternation level t) := by
  induction w with
  | nil => rfl
  | cons c w ih =>
    rw [List.forall_mem_cons] at hw
    rw [List.cons_append, splitFrom_char hw.1.1 (separator?_of_ne hw.1.2 _ _), ih hw.2,
      List.foldr_cons]

/-- Nothing, or something that a blank comes before. -/
def IsSetOff (t : Text) : Prop := t = [] ∨ ∃ t', t = ' ' :: t'

theorem isSetOff_setOff_append (t : Text) {u : Text} (hu : IsSetOff u) :
    IsSetOff (setOff t ++ u) := by
  cases t with
  | nil => exact hu
  | cons c t => exact Or.inr ⟨c :: t ++ u, rfl⟩

/-- A token is not mistaken for bars, whatever is set off from it. -/
theorem not_bars_prefix_token {w : Text} (hw : IsAffixToken w) {t : Text} (ht : IsSetOff t) :
    ¬ ['|', '|', ' '] <+: w ++ t := by
  intro h
  rcases w with _ | ⟨c, _ | ⟨d, _ | ⟨f, w⟩⟩⟩
  · exact hw.ne_nil rfl
  · obtain ⟨-, h'⟩ := List.cons_prefix_cons.1 h
    rcases ht with rfl | ⟨t', rfl⟩
    · exact absurd h'.length_le (by simp)
    · cases (List.cons_prefix_cons.1 h').1
  · obtain ⟨hc, h'⟩ := List.cons_prefix_cons.1 h
    obtain ⟨hd, -⟩ := List.cons_prefix_cons.1 h'
    exact hw.ne_bars (by rw [← hc, ← hd])
  · obtain ⟨-, h'⟩ := List.cons_prefix_cons.1 h
    obtain ⟨-, h''⟩ := List.cons_prefix_cons.1 h'
    exact hw.ne_blank f (by simp) (List.cons_prefix_cons.1 h'').1.symm

/-- Nor is an expression, unless it is empty. -/
theorem not_bars_prefix_write {e : AffixExpression} (he : e.WellFormed) (hne : e.write ≠ [])
    {t : Text} (ht : IsSetOff t) : ¬ ['|', '|', ' '] <+: e.write ++ t := by
  cases he with
  | done => exact absurd (by rw [write]) hne
  | token hw _ =>
    rw [write, List.append_assoc]
    exact not_bars_prefix_token hw (isSetOff_setOff_append _ ht)
  | group =>
    rw [write_group]
    intro h
    cases (List.cons_prefix_cons.1 h).1

theorem separator?_blank {t : Text} (ht : ¬ ['|', '|', ' '] <+: t) :
    separator? alternation 0 (' ' :: t) = none := by
  show List.isPrefixOf? ['|', '|', ' '] t = none
  rcases h : List.isPrefixOf? ['|', '|', ' '] t with _ | rest
  · rfl
  · exact absurd ⟨rest, (Text.eq_append_of_isPrefixOf? h).symm⟩ ht

/-- The search for separators passes over an expression that is set off, if it passes over the
expression itself: the blank before it starts none. -/
theorem splitFrom_setOff {e : AffixExpression} (he : e.WellFormed) {t : Text} (ht : IsSetOff t)
    (h : splitFrom alternation 0 (e.write ++ t) =
      e.write.foldr Text.consFirst (splitFrom alternation 0 t)) :
    splitFrom alternation 0 (setOff e.write ++ t) =
      (setOff e.write).foldr Text.consFirst (splitFrom alternation 0 t) := by
  by_cases hne : e.write = []
  · rw [hne]
    rfl
  · have hset : setOff e.write = ' ' :: e.write := by
      obtain ⟨c, u, hu⟩ := List.exists_cons_of_ne_nil hne
      rw [hu]
      rfl
    rw [hset, List.cons_append,
      splitFrom_char rfl (separator?_blank (not_bars_prefix_write he hne ht)), h, List.foldr_cons]

/-- The search for separators passes over a written expression. -/
theorem splitFrom_write {e : AffixExpression} (he : e.WellFormed) {t : Text} (ht : IsSetOff t) :
    splitFrom alternation 0 (e.write ++ t) =
      e.write.foldr Text.consFirst (splitFrom alternation 0 t) := by
  induction he generalizing t with
  | done =>
    rw [write]
    rfl
  | @token w rest hw hrest ih =>
    have hchars : ∀ c ∈ w, isBracket c = false ∧ c ≠ ' ' := fun c hc =>
      ⟨hw.isBracket c hc, hw.ne_blank c hc⟩
    rw [write, List.append_assoc, splitFrom_token hchars, splitFrom_setOff hrest ht (ih ht),
      List.foldr_append]
  | @group alternatives rest hne h hrest _ ih =>
    have hinner : Balanced (alternation.intercalate (alternatives.map write)) :=
      balanced_alternatives fun a ha => balanced_write (h a ha)
    have hassoc (u v : Text) : '(' :: u ++ ')' :: v ++ t = '(' :: (u ++ ')' :: (v ++ t)) := by simp
    rw [write, hassoc, splitFrom_open, splitFrom_append hinner (by decide), splitFrom_close,
      show (0 : Int) + 1 - 1 = 0 from rfl, splitFrom_setOff hrest ht (ih ht)]
    simp

theorem splitFrom_alternation (t : Text) :
    splitFrom alternation 0 (alternation ++ t) = [] :: splitFrom alternation 0 t := by
  refine splitFrom_separator rfl ?_
  show alternation.isPrefixOf? (alternation ++ t) = some t
  exact List.isPrefixOf?_eq_some_iff_append_eq.2 rfl

/-- The alternatives of a group are what stands between its separators. -/
theorem split_intercalate_write {alternatives : List AffixExpression} (hne : alternatives ≠ [])
    (h : ∀ a ∈ alternatives, a.WellFormed) :
    split alternation (alternation.intercalate (alternatives.map write)) =
      alternatives.map write := by
  unfold split
  induction alternatives with
  | nil => exact absurd rfl hne
  | cons a as ih =>
    rw [List.forall_mem_cons] at h
    cases as with
    | nil =>
      have hsingle := splitFrom_write h.1 (Or.inl rfl : IsSetOff [])
      rw [List.append_nil, splitFrom, foldr_consFirst, List.append_nil] at hsingle
      rw [List.map_singleton, List.intercalate_singleton]
      exact hsingle
    | cons a' as =>
      have hsetOff (t : Text) : IsSetOff (alternation ++ t) := Or.inr ⟨['|', '|', ' '] ++ t, rfl⟩
      rw [List.map_cons, List.map_cons, List.intercalate_cons_cons, List.append_assoc,
        splitFrom_write h.1 (hsetOff _), splitFrom_alternation, foldr_consFirst, List.append_nil,
        ← List.map_cons, ih (List.cons_ne_nil a' as) h.2]

/-! ## Reading -/

theorem read_done {t : Text} (ht : t.trim = []) : read t = .done := by
  rw [read]
  split
  next => rfl
  next h => cases ht.symm.trans h

theorem read_token {t e : Text} {c : Char} (ht : t.trim = c :: e) (hc : c ≠ '(') :
    read t =
      .token (c :: e.takeWhile (· != ' ')) (read (e.dropWhile (· != ' '))) := by
  rw [read]
  split
  next h => cases ht.symm.trans h
  next h =>
    cases ht.symm.trans h
    rw [if_neg hc]

theorem read_group {t e inner rest : Text} (ht : t.trim = '(' :: e)
    (he : close? 0 e = some (inner, rest)) :
    read t = .group ((split alternation inner).map read) (read rest) := by
  rw [read]
  split
  next h => cases ht.symm.trans h
  next h =>
    cases ht.symm.trans h
    rw [if_pos rfl]
    split
    next h' => cases he.symm.trans h'
    next h' =>
      cases he.symm.trans h'
      rw [List.map_attach_eq_pmap, List.pmap_eq_map]

theorem read_unclosed {t e : Text} (ht : t.trim = '(' :: e) (he : close? 0 e = none) :
    read t = .unclosed ('(' :: e) := by
  rw [read]
  split
  next h => cases ht.symm.trans h
  next h =>
    cases ht.symm.trans h
    rw [if_pos rfl]
    split
    next => rfl
    next h' => cases he.symm.trans h'

/-- White space around an expression does not count. -/
theorem read_congr {t u : Text} (h : t.trim = u.trim) : read t = read u := by
  rcases ht : t.trim with _ | ⟨c, e⟩
  · rw [read_done ht, read_done (h.symm.trans ht)]
  by_cases hc : c = '('
  · subst hc
    rcases he : close? 0 e with _ | ⟨inner, rest⟩
    · rw [read_unclosed ht he, read_unclosed (h.symm.trans ht) he]
    · rw [read_group ht he, read_group (h.symm.trans ht) he]
  · rw [read_token ht hc, read_token (h.symm.trans ht) hc]

theorem read_cons_space {c : Char} (hc : Text.isSpace c) (t : Text) : read (c :: t) = read t :=
  read_congr (Text.trim_append_left (List.forall_mem_singleton.2 hc) t)

/-- A token ends where something is set off from it. -/
theorem takeWhile_setOff {w : Text} (hw : ∀ c ∈ w, c ≠ ' ') (t : Text) :
    (w ++ setOff t).takeWhile (· != ' ') = w ∧ (w ++ setOff t).dropWhile (· != ' ') = setOff t := by
  have hp : ∀ c ∈ w, (c != ' ') = true := fun c hc => by simpa using hw c hc
  constructor
  · rw [List.takeWhile_append_of_pos hp]
    cases t <;> simp [setOff]
  · rw [List.dropWhile_append_of_pos hp]
    cases t <;> simp [setOff]

/-- A text that is the written form of an expression once it has been trimmed is read as that
expression. -/
theorem read_of_trim_eq {e : AffixExpression} (he : e.WellFormed) {t : Text}
    (ht : t.trim = e.write) : read t = e := by
  induction he generalizing t with
  | done => exact read_done (by rw [ht, write])
  | @token w rest hw hrest ih =>
    obtain ⟨c, w', rfl⟩ := List.exists_cons_of_ne_nil hw.ne_nil
    have hc : c ≠ '(' := by
      rintro rfl
      exact Bool.false_ne_true (hw.isBracket '(' List.mem_cons_self).symm
    obtain ⟨htake, hdrop⟩ := takeWhile_setOff
      (fun c hc => hw.ne_blank c (List.mem_cons_of_mem _ hc)) rest.write
    rw [write, List.cons_append] at ht
    rw [read_token ht hc, htake, hdrop, ih (trim_setOff (trimmed_write hrest))]
  | @group alternatives rest hne h hrest ih ihrest =>
    have hinner := balanced_alternatives fun a ha => balanced_write (h a ha)
    have hread : ∀ a ∈ alternatives, read a.write = a := fun a ha =>
      ih a ha (trimmed_write (h a ha)).trim_eq
    rw [write, List.cons_append] at ht
    rw [read_group ht (close?_balanced hinner _), split_intercalate_write hne h, List.map_map,
      ihrest (trim_setOff (trimmed_write hrest))]
    congr 1
    exact (List.map_congr_left hread).trans (List.map_id alternatives)

/-- Reading gives a written expression back. -/
theorem read_write {e : AffixExpression} (he : e.WellFormed) : read e.write = e :=
  read_of_trim_eq he (trimmed_write he).trim_eq

/-- Nothing is wrong with a well-formed expression. -/
theorem problems_eq_nil {e : AffixExpression} (he : e.WellFormed) : e.problems = [] := by
  induction he with
  | done => rw [problems]
  | token _ _ ih => rw [problems, ih]
  | group _ _ _ ih ihrest =>
    rw [problems, ihrest, List.nil_append, List.flatMap_eq_nil_iff]
    exact ih

end AffixExpression

end Inflection
