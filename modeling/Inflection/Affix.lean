import Inflection.Collection
import Inflection.Noted
import Inflection.Text.Basic

/-! # Affix expressions

An expression describes the affixes that a part of speech can take: tokens and groups of
alternatives in a row, each of which may be left out. An underscore in a token is a blank that does
not end it. -/

namespace Inflection

/-! ## Brackets -/

namespace Bracket

/-- The text before and the text after the bracket that closes one opened just before, if `level`
more have been opened since. -/
def close? : (level : Nat) → Text → Option (Text × Text)
  | _, [] => none
  | level, c :: t =>
    if c = '(' then (close? (level + 1) t).map fun (inner, rest) => (c :: inner, rest)
    else if c = ')' then
      match level with
      | 0 => some ([], t)
      | level + 1 => (close? level t).map fun (inner, rest) => (c :: inner, rest)
    else (close? level t).map fun (inner, rest) => (c :: inner, rest)

theorem eq_append_of_close? {level : Nat} {t inner rest : Text}
    (h : close? level t = some (inner, rest)) : t = inner ++ ')' :: rest := by
  induction t generalizing level inner with
  | nil => cases h
  | cons c t ih =>
    have step {level} (h : (close? level t).map (fun (i, r) => (c :: i, r)) = some (inner, rest)) :
        c :: t = inner ++ ')' :: rest := by
      obtain ⟨⟨i, r⟩, hi, e⟩ := Option.map_eq_some_iff.1 h
      cases e
      rw [ih hi, List.cons_append]
    simp only [close?] at h
    split at h
    next => exact step h
    next =>
      split at h
      next e =>
        cases level with
        | zero => cases h; rw [e, List.nil_append]
        | succ level => exact step h
      next => exact step h

theorem length_lt_of_close? {level : Nat} {t inner rest : Text}
    (h : close? level t = some (inner, rest)) : inner.length + rest.length < t.length := by
  rw [eq_append_of_close? h, List.length_append, List.length_cons]
  omega

/-- The position of the bracket that closes one opened just before position `start`, if there is
one. -/
def closing (t : Text) (start : Int) : Except Text.Outside (Option Int) := do
  let r ← t.readFrom start
  return (close? 0 r).map fun (inner, _) => start + inner.length

/-- The text after a separator, if one stands at the start of a text and outside brackets. -/
def separator? (sep : Text) (level : Int) (t : Text) : Option Text :=
  if level = 0 ∧ sep ≠ [] then sep.isPrefixOf? t else none

theorem length_lt_of_separator? {sep : Text} {level : Int} {t rest : Text}
    (h : separator? sep level t = some rest) : rest.length < t.length := by
  simp only [separator?] at h
  split at h
  next e =>
    have := List.length_pos_iff.2 e.2
    simp only [Text.eq_append_of_isPrefixOf? h, List.length_append]
    omega
  next => cases h

/-- The parts of a text that starts at depth `level`. A closing bracket too many counts as a depth
below zero, where nothing is cut either. -/
def splitFrom (sep : Text) (level : Int) : Text → List Text
  | [] => [[]]
  | c :: t =>
    if c = '(' then Text.consFirst c (splitFrom sep (level + 1) t)
    else if c = ')' then Text.consFirst c (splitFrom sep (level - 1) t)
    else
      match h : separator? sep level (c :: t) with
      | some rest =>
        have := length_lt_of_separator? h
        [] :: splitFrom sep level rest
      | none => Text.consFirst c (splitFrom sep level t)
termination_by t => t.length
decreasing_by
  · exact Nat.lt_succ_self _
  · exact Nat.lt_succ_self _
  · exact this
  · exact Nat.lt_succ_self _

theorem length_consFirst_le {c : Char} {n : Nat} {parts : List Text}
    (h : ∀ part ∈ parts, part.length ≤ n) :
    ∀ part ∈ Text.consFirst c parts, part.length ≤ n + 1 := by
  cases parts with
  | nil => simp [Text.consFirst]
  | cons p ps =>
    intro part hp
    rcases List.mem_cons.1 hp with rfl | hp
    · simpa using h p List.mem_cons_self
    · exact Nat.le_succ_of_le (h part (List.mem_cons_of_mem _ hp))

theorem length_le_of_mem_splitFrom {sep : Text} {level : Int} {t : Text} :
    ∀ part ∈ splitFrom sep level t, part.length ≤ t.length := by
  fun_induction splitFrom sep level t with
  | case1 => simp
  | case2 _ _ ih => exact length_consFirst_le ih
  | case3 _ _ _ ih => exact length_consFirst_le ih
  | case4 level c t _ _ rest h hlt ih =>
    intro part hp
    rcases List.mem_cons.1 hp with rfl | hp
    · exact Nat.zero_le _
    · exact Nat.le_trans (ih part hp) (Nat.le_of_lt hlt)
  | case5 _ _ _ _ _ _ ih => exact length_consFirst_le ih

/-- The parts of a text between the separators that stand outside brackets. -/
def split (sep t : Text) : List Text := splitFrom sep 0 t

end Bracket

/-! ## Expressions -/

inductive AffixExpression where
  | done
  | token (written : Text) (rest : AffixExpression)
  | group (alternatives : List AffixExpression) (rest : AffixExpression)
  /-- A group that no bracket closes, with all that follows it. -/
  | unclosed (written : Text)
deriving Repr

namespace AffixExpression

/-- What stands between the alternatives of a group. -/
def alternation : Text := " || ".toList

theorem length_trim_le (t : Text) : t.trim.length ≤ t.length := by
  have h (s : Text) : (s.dropWhile Text.isSpace).length ≤ s.length :=
    (List.dropWhile_sublist Text.isSpace).length_le
  simp only [Text.trim, Text.dropRight_eq, List.length_reverse]
  exact Nat.le_trans (h _) (by simpa using h t)

theorem length_lt_of_trim {t e : Text} {c : Char} (h : t.trim = c :: e) : e.length < t.length := by
  have := length_trim_le t
  rw [h, List.length_cons] at this
  omega

/-- Reads an expression. A token extends to the next blank. -/
def read (t : Text) : AffixExpression :=
  match h : t.trim with
  | [] => .done
  | c :: e =>
    have hlt := length_lt_of_trim h
    if c = '(' then
      match h' : Bracket.close? 0 e with
      | none => .unclosed (c :: e)
      | some (inner, rest) =>
        have := Nat.lt_trans (Bracket.length_lt_of_close? h') hlt
        .group ((Bracket.split alternation inner).attach.map fun item => read item.1) (read rest)
    else
      have := Nat.lt_of_le_of_lt (List.dropWhile_sublist (· != ' ')).length_le hlt
      .token (c :: e.takeWhile (· != ' ')) (read (e.dropWhile (· != ' ')))
termination_by t.length
decreasing_by
  · exact Nat.lt_of_le_of_lt (Bracket.length_le_of_mem_splitFrom item.1 item.2)
      (Nat.lt_of_le_of_lt (Nat.le_add_right _ _) this)
  · exact Nat.lt_of_le_of_lt (Nat.le_add_left _ _) this
  · exact this

/-- Two affixes in a row. -/
def juxtapose (head tail : Text) : Text := Text.trim (head ++ ' ' :: tail)

/-- The affixes that an expression describes, each once; the empty one is always among them. -/
def affixes : AffixExpression → List Text
  | .done | .unclosed _ => [[]]
  | .token written rest =>
    let tails := rest.affixes
    distinct Text.precedes ([] :: tails.map (juxtapose (Text.exchange '_' ' ' written)) ++ tails)
  | .group alternatives rest =>
    let tails := rest.affixes
    distinct Text.precedes
      ([] :: (alternatives.flatMap affixes).flatMap fun head => tails.map (juxtapose head))

/-- What is wrong with an expression: first what follows a token or a group, then the group. -/
def problems : AffixExpression → List Problem
  | .done => []
  | .unclosed written => [.unclosedGroup written]
  | .token _ rest => rest.problems
  | .group alternatives rest => rest.problems ++ alternatives.flatMap problems

end AffixExpression

namespace Affix

/-- The affixes that a written expression describes. -/
def expand (written : Text) : Noted (List Text) := do
  let e := AffixExpression.read written
  e.problems.forM Noted.report
  return e.affixes

/-- Whether a character sets off the labels in an expression from each other. -/
def isDelimiter (c : Char) : Bool := c = '(' || c = ')' || c = '|' || c = ' ' || c = '_'

/-- The labels that a written expression mentions, each once. -/
def labels (written : Text) : List Text :=
  distinct Text.precedes ((written.splitOnP isDelimiter).filter (· ≠ []))

end Affix

end Inflection
