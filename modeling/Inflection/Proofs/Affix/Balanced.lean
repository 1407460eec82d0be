import Inflection.Affix
import Mathlib.Data.List.Basic
import Mathlib.Tactic.SplitIfs

/-!
# Balanced texts

In a balanced text every bracket has its partner.  The search for a closing bracket passes over such
a text, and so does the search for separators inside brackets.
-/

namespace Inflection

namespace Bracket

def isBracket (c : Char) : Bool := c = '(' || c = ')'

/-- Every bracket of a text has its partner. -/
inductive Balanced : Text → Prop where
  | nil : Balanced []
  | char {c : Char} {t : Text} (hc : isBracket c = false) (h : Balanced t) : Balanced (c :: t)
  | group {u t : Text} (hu : Balanced u) (h : Balanced t) : Balanced ('(' :: u ++ ')' :: t)

namespace Balanced

theorem append {u t : Text} (hu : Balanced u) (ht : Balanced t) : Balanced (u ++ t) := by
  induction hu with
  | nil => exact ht
  | char hc _ ih => exact .char hc ih
  | @group u v hu _ _ ih =>
    have hassoc : '(' :: u ++ ')' :: v ++ t = '(' :: u ++ ')' :: (v ++ t) := by simp
    rw [hassoc]
    exact .group hu ih

theorem of_forall {t : Text} (h : ∀ c ∈ t, isBracket c = false) : Balanced t := by
  induction t with
  | nil => exact .nil
  | cons c t ih =>
    rw [List.forall_mem_cons] at h
    exact .char h.1 (ih h.2)

theorem intercalate {sep : Text} (hsep : Balanced sep) {parts : List Text}
    (h : ∀ part ∈ parts, Balanced part) : Balanced (sep.intercalate parts) := by
  induction parts with
  | nil => exact .nil
  | cons p ps ih =>
    rw [List.forall_mem_cons] at h
    cases ps with
    | nil => simpa [List.intercalate] using h.1
    | cons q ps =>
      rw [List.intercalate_cons_cons]
      exact (h.1.append hsep).append (ih h.2)

end Balanced

/-! ## Closing brackets -/

theorem close?_open (level : Nat) (t : Text) :
    close? level ('(' :: t) =
      (close? (level + 1) t).map fun (inner, rest) => ('(' :: inner, rest) := by
  simp only [close?, if_pos]

theorem close?_close (level : Nat) (t : Text) :
    close? (level + 1) (')' :: t) =
      (close? level t).map fun (inner, rest) => (')' :: inner, rest) := by
  simp only [close?, if_neg (by decide : ')' ≠ '('), if_pos]

theorem close?_zero (t : Text) : close? 0 (')' :: t) = some ([], t) := by
  simp only [close?, if_neg (by decide : ')' ≠ '('), if_pos]

theorem close?_char {c : Char} (hc : isBracket c = false) (level : Nat) (t : Text) :
    close? level (c :: t) = (close? level t).map fun (inner, rest) => (c :: inner, rest) := by
  obtain ⟨ho, hc⟩ : c ≠ '(' ∧ c ≠ ')' := by simpa [isBracket] using hc
  simp only [close?, if_neg ho, if_neg hc]

/-- The search for a closing bracket passes over a balanced text. -/
theorem close?_append {u : Text} (hu : Balanced u) (level : Nat) (t : Text) :
    close? level (u ++ t) =
      (close? level t).map fun (inner, rest) => (u ++ inner, rest) := by
  induction hu generalizing level t with
  | nil => simp
  | char hc _ ih => rw [List.cons_append, close?_char hc, ih, Option.map_map]; rfl
  | @group u v _ _ ihu ihv =>
    have hassoc : '(' :: u ++ ')' :: v ++ t = '(' :: (u ++ ')' :: (v ++ t)) := by simp
    rw [hassoc, close?_open, ihu, close?_close, ihv, Option.map_map, Option.map_map,
      Option.map_map]
    congr 1
    funext r
    simp

/-- A balanced text is what stands inside the brackets around it. -/
theorem close?_balanced {u : Text} (hu : Balanced u) (t : Text) :
    close? 0 (u ++ ')' :: t) = some (u, t) := by
  rw [close?_append hu, close?_zero, Option.map_some]
  simp only [List.append_nil]

/-! ## Separators -/

variable {sep : Text} {level : Int}

/-- What a separator is, and where one is looked for. -/
theorem separator?_eq_some_iff {t rest : Text} :
    separator? sep level t = some rest ↔ level = 0 ∧ sep ≠ [] ∧ t = sep ++ rest := by
  unfold separator?
  split
  next h =>
    rw [List.isPrefixOf?_eq_some_iff_append_eq, and_iff_right h.1, and_iff_right h.2, eq_comm]
  next h => exact iff_of_false nofun fun ⟨hlevel, hsep, _⟩ => h ⟨hlevel, hsep⟩

theorem splitFrom_open (t : Text) :
    splitFrom sep level ('(' :: t) = Text.consFirst '(' (splitFrom sep (level + 1) t) := by
  rw [splitFrom, if_pos rfl]

theorem splitFrom_close (t : Text) :
    splitFrom sep level (')' :: t) = Text.consFirst ')' (splitFrom sep (level - 1) t) := by
  rw [splitFrom, if_neg (by decide), if_pos rfl]

theorem splitFrom_char {c : Char} (hc : isBracket c = false) {t : Text}
    (h : separator? sep level (c :: t) = none) :
    splitFrom sep level (c :: t) = Text.consFirst c (splitFrom sep level t) := by
  obtain ⟨ho, hc⟩ : c ≠ '(' ∧ c ≠ ')' := by simpa [isBracket] using hc
  rw [splitFrom, if_neg ho, if_neg hc]
  split
  next h' => cases h.symm.trans h'
  next => rfl

theorem splitFrom_separator {c : Char} (hc : isBracket c = false) {t rest : Text}
    (h : separator? sep level (c :: t) = some rest) :
    splitFrom sep level (c :: t) = [] :: splitFrom sep level rest := by
  obtain ⟨ho, hc⟩ : c ≠ '(' ∧ c ≠ ')' := by simpa [isBracket] using hc
  rw [splitFrom, if_neg ho, if_neg hc]
  split
  next h' => cases h.symm.trans h'; rfl
  next h' => cases h.symm.trans h'

/-- Inside brackets, the search for separators passes over a balanced text. -/
theorem splitFrom_append {u : Text} (hu : Balanced u) (hlevel : 0 < level) (t : Text) :
    splitFrom sep level (u ++ t) = u.foldr Text.consFirst (splitFrom sep level t) := by
  induction hu generalizing level t with
  | nil => rfl
  | char hc _ ih =>
    have hnone (t : Text) : separator? sep level t = none := if_neg (by omega)
    rw [List.cons_append, splitFrom_char hc (hnone _), ih hlevel, List.foldr_cons]
  | @group u v _ _ ihu ihv =>
    have hassoc : '(' :: u ++ ')' :: v ++ t = '(' :: (u ++ ')' :: (v ++ t)) := by simp
    rw [hassoc, splitFrom_open, ihu (by omega), splitFrom_close, Int.add_sub_cancel, ihv hlevel]
    simp

theorem intercalate_consFirst (c : Char) (parts : List Text) :
    sep.intercalate (Text.consFirst c parts) = c :: sep.intercalate parts := by
  cases parts with
  | nil => rw [Text.consFirst, List.intercalate_singleton, List.intercalate_nil]
  | cons p ps =>
    cases ps with
    | nil => rw [Text.consFirst, List.intercalate_singleton, List.intercalate_singleton]
    | cons q ps =>
      rw [Text.consFirst, List.intercalate_cons_cons, List.intercalate_cons_cons]
      rfl

theorem splitFrom_ne_nil (t : Text) : splitFrom sep level t ≠ [] := by
  have hfirst (c : Char) (parts : List Text) : Text.consFirst c parts ≠ [] := by
    cases parts <;> exact List.cons_ne_nil _ _
  rw [splitFrom.eq_def]
  split
  · exact List.cons_ne_nil _ _
  · split_ifs
    · exact hfirst _ _
    · exact hfirst _ _
    · split
      · exact List.cons_ne_nil _ _
      · exact hfirst _ _

/-- Nothing is lost where a text is split. -/
theorem intercalate_splitFrom (t : Text) : sep.intercalate (splitFrom sep level t) = t := by
  fun_induction splitFrom sep level t with
  | case1 => exact List.intercalate_singleton
  | case2 _ _ ih => rw [intercalate_consFirst, ih]
  | case3 _ _ _ ih => rw [intercalate_consFirst, ih]
  | case4 level c t _ _ rest h _ ih =>
    obtain ⟨p, ps, hps⟩ :=
      List.exists_cons_of_ne_nil (splitFrom_ne_nil rest : splitFrom sep level rest ≠ [])
    obtain ⟨-, -, hsep⟩ := separator?_eq_some_iff.1 h
    rw [hps, List.intercalate_cons_cons, ← hps, ih, hsep]
    rfl
  | case5 _ _ _ _ _ _ ih => rw [intercalate_consFirst, ih]

theorem foldr_consFirst (u p : Text) (ps : List Text) :
    u.foldr Text.consFirst (p :: ps) = (u ++ p) :: ps := by
  induction u with
  | nil => rfl
  | cons c u ih => rw [List.foldr_cons, ih]; rfl

end Bracket

end Inflection
