import Inflection.Proofs.Affix.Balanced
import Inflection.Proofs.Text.Cut

/-!
# Brackets and their partners

The search for a closing bracket counts, and so does the search for separators outside brackets;
what is meant is nesting.  `Bracket.Closes` is the count, read off a text from left to right, and
`Bracket.closes_zero_iff` says that a count that begins and ends at zero is nesting.  So the search
finds a closing bracket exactly behind a balanced text, and the parts that a balanced text is split
into are balanced.
-/

namespace Inflection

namespace Bracket

variable {n level : Nat} {t u v sep : Text}

/-- Every bracket of a text has its partner, once `n` brackets have been opened before it. -/
inductive Closes : Nat → Text → Prop where
  | nil : Closes 0 []
  | char {n : Nat} {c : Char} {t : Text} (hc : isBracket c = false) (h : Closes n t) :
      Closes n (c :: t)
  | opening {n : Nat} {t : Text} (h : Closes (n + 1) t) : Closes n ('(' :: t)
  | closing {n : Nat} {t : Text} (h : Closes n t) : Closes (n + 1) (')' :: t)

/-- The first bracket that closes one opened before the text stands behind a balanced text. -/
theorem Closes.exists_eq_append {n : Nat} {t : Text} (h : Closes (n + 1) t) :
    ∃ u v, Balanced u ∧ Closes n v ∧ t = u ++ ')' :: v := by
  match t, h with
  | c :: t, .char hc h =>
    obtain ⟨u, v, hu, hv, rfl⟩ := h.exists_eq_append
    exact ⟨c :: u, v, .char hc hu, hv, rfl⟩
  | _ :: t, .opening h =>
    obtain ⟨u, v, hu, hv, rfl⟩ := h.exists_eq_append
    obtain ⟨u', v', hu', hv', rfl⟩ := hv.exists_eq_append
    exact ⟨'(' :: u ++ ')' :: u', v', .group hu hu', hv', by simp⟩
  | _ :: t, .closing h => exact ⟨[], t, .nil, h, rfl⟩
termination_by t.length

theorem Closes.balanced {t : Text} (h : Closes 0 t) : Balanced t := by
  match t, h with
  | [], .nil => exact .nil
  | c :: t, .char hc h => exact .char hc h.balanced
  | _ :: t, .opening h =>
    obtain ⟨u, v, hu, hv, rfl⟩ := h.exists_eq_append
    exact .group hu hv.balanced
termination_by t.length

theorem Balanced.closes_append (hu : Balanced u) (h : Closes n t) : Closes n (u ++ t) := by
  induction hu generalizing n t with
  | nil => exact h
  | char hc _ ih => exact .char hc (ih h)
  | @group u v _ _ ihu ihv =>
    have hassoc : '(' :: u ++ ')' :: v ++ t = '(' :: (u ++ ')' :: (v ++ t)) := by simp
    rw [hassoc]
    exact .opening (ihu (.closing (ihv h)))

/-- Counting comes to the same as nesting. -/
theorem closes_zero_iff : Closes 0 t ↔ Balanced t := by
  refine ⟨Closes.balanced, fun h => ?_⟩
  have happend := h.closes_append .nil
  rwa [List.append_nil] at happend

/-- The end of a text whose brackets have partners closes what has been opened before it. -/
theorem Closes.exists_of_append (h : Closes n (u ++ t)) : ∃ m, Closes m t := by
  induction u generalizing n with
  | nil => exact ⟨n, h⟩
  | cons c u ih =>
    cases h with
    | char _ h => exact ih h
    | opening h => exact ih h
    | closing h => exact ih h

theorem Closes.of_append (hu : ∀ c ∈ u, isBracket c = false) (h : Closes n (u ++ t)) :
    Closes n t := by
  induction u with
  | nil => exact h
  | cons c u ih =>
    obtain ⟨hc, hu⟩ := List.forall_mem_cons.1 hu
    cases h with
    | char _ h => exact ih hu h
    | opening => exact absurd hc (by decide)
    | closing => exact absurd hc (by decide)

/-! ## The search for a closing bracket -/

theorem closes_of_close? {inner rest : Text} (h : close? level t = some (inner, rest)) :
    Closes level inner := by
  induction t generalizing level inner with
  | nil => cases h
  | cons c t ih =>
    by_cases hopen : c = '('
    · rw [hopen, close?_open] at h
      obtain ⟨⟨i, r⟩, hi, heq⟩ := Option.map_eq_some_iff.1 h
      cases heq
      exact .opening (ih hi)
    by_cases hclose : c = ')'
    · rw [hclose] at h
      cases level with
      | zero =>
        rw [close?_zero] at h
        cases h
        exact .nil
      | succ level =>
        rw [close?_close] at h
        obtain ⟨⟨i, r⟩, hi, heq⟩ := Option.map_eq_some_iff.1 h
        cases heq
        exact .closing (ih hi)
    · have hc : isBracket c = false := by simp [isBracket, hopen, hclose]
      rw [close?_char hc] at h
      obtain ⟨⟨i, r⟩, hi, heq⟩ := Option.map_eq_some_iff.1 h
      cases heq
      exact .char hc (ih hi)

/-- What is found is the first closing bracket behind a balanced text. -/
theorem close?_eq_some_iff :
    close? 0 t = some (u, v) ↔ Balanced u ∧ t = u ++ ')' :: v := by
  constructor
  · exact fun h => ⟨(closes_of_close? h).balanced, eq_append_of_close? h⟩
  · rintro ⟨hu, rfl⟩
    exact close?_balanced hu v

/-- No bracket in a text closes one that has been opened just before it. -/
def Unclosed (t : Text) : Prop := ∀ u v, Balanced u → t ≠ u ++ ')' :: v

theorem not_unclosed_iff : ¬ Unclosed t ↔ ∃ u v, Balanced u ∧ t = u ++ ')' :: v := by
  simp only [Unclosed, not_forall, not_not, exists_prop]

theorem close?_eq_none_iff : close? 0 t = none ↔ Unclosed t := by
  rw [Option.eq_none_iff_forall_ne_some]
  constructor
  · exact fun h u v hu ht => h (u, v) (close?_eq_some_iff.2 ⟨hu, ht⟩)
  · rintro h ⟨u, v⟩ hclose
    obtain ⟨hu, ht⟩ := close?_eq_some_iff.1 hclose
    exact h u v hu ht

/-- A text without closing brackets closes nothing, whatever it is added to. -/
theorem unclosed_append_iff (hv : ')' ∉ v) : Unclosed (t ++ v) ↔ Unclosed t := by
  constructor
  · rintro h u w hu rfl
    exact h u (w ++ v) hu (by simp)
  · intro h u w hu heq
    obtain ⟨w', ht, -⟩ := Text.exists_eq_append_cons hv heq
    exact h u w' hu ht

/-- Every bracket that is opened in a text is closed in it. -/
def AllClosed (t : Text) : Prop := ∀ u v, t = u ++ '(' :: v → ¬ Unclosed v

theorem AllClosed.of_append (h : AllClosed (u ++ t)) : AllClosed t := by
  rintro w v rfl
  exact h (u ++ w) v (by simp)

theorem AllClosed.of_append_right (hv : ')' ∉ v) (h : AllClosed (t ++ v)) : AllClosed t := by
  rintro w x rfl hunclosed
  exact h w (x ++ v) (by simp) ((unclosed_append_iff hv).2 hunclosed)

theorem Balanced.allClosed (h : Balanced t) : AllClosed t := by
  rintro u v rfl hunclosed
  obtain ⟨m, hm⟩ := (closes_zero_iff.2 h).exists_of_append
  cases hm with
  | char hc => exact Bool.false_ne_true hc.symm
  | opening hv =>
    obtain ⟨w, x, hw, -, hx⟩ := hv.exists_eq_append
    exact hunclosed w x hw hx

/-! ## Parts between separators -/

/-- The parts of a text in which every bracket has its partner: what has been opened before the text
is closed in the first one, and the others are balanced. -/
theorem closes_of_splitFrom (hsep : ∀ c ∈ sep, isBracket c = false) {level : Int}
    (hlevel : level = n) (h : Closes n t) :
    ∃ first parts, splitFrom sep level t = first :: parts ∧ Closes n first ∧
      ∀ part ∈ parts, Balanced part := by
  fun_induction splitFrom sep level t generalizing n with
  | case1 => exact ⟨[], [], rfl, h, List.forall_mem_nil _⟩
  | case2 level t ih =>
    cases h with
    | char hc => exact absurd hc (by decide)
    | opening h =>
      obtain ⟨first, parts, hsplit, hfirst, hparts⟩ := ih (by omega) h
      rw [hsplit]
      exact ⟨'(' :: first, parts, rfl, .opening hfirst, hparts⟩
  | case3 level t _ ih =>
    cases h with
    | char hc => exact absurd hc (by decide)
    | closing h =>
      obtain ⟨first, parts, hsplit, hfirst, hparts⟩ := ih (by omega) h
      rw [hsplit]
      exact ⟨')' :: first, parts, rfl, .closing hfirst, hparts⟩
  | case4 level c t hopen hclose rest hrest _ ih =>
    obtain ⟨hzero, -, ht⟩ := separator?_eq_some_iff.1 hrest
    obtain rfl : n = 0 := by omega
    obtain ⟨first, parts, hsplit, hfirst, hparts⟩ := ih hlevel (.of_append hsep (ht ▸ h))
    rw [hsplit]
    exact ⟨[], first :: parts, rfl, .nil, List.forall_mem_cons.2 ⟨hfirst.balanced, hparts⟩⟩
  | case5 level c t hopen hclose hnone ih =>
    have hc : isBracket c = false := by simp [isBracket, hopen, hclose]
    cases h with
    | char _ h =>
      obtain ⟨first, parts, hsplit, hfirst, hparts⟩ := ih hlevel h
      rw [hsplit]
      exact ⟨c :: first, parts, rfl, .char hc hfirst, hparts⟩
    | opening => exact absurd hc (by decide)
    | closing => exact absurd hc (by decide)

/-- A balanced text is split into balanced parts. -/
theorem balanced_of_mem_split (hsep : ∀ c ∈ sep, isBracket c = false) (h : Balanced t) :
    ∀ part ∈ split sep t, Balanced part := by
  have hzero : (0 : Int) = (0 : Nat) := rfl
  obtain ⟨first, parts, hsplit, hfirst, hparts⟩ :=
    closes_of_splitFrom hsep hzero (closes_zero_iff.2 h)
  rw [split, hsplit]
  exact List.forall_mem_cons.2 ⟨hfirst.balanced, hparts⟩

end Bracket

end Inflection
