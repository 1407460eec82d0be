import Inflection.Proofs.Affix.Partners
import Mathlib.Data.List.Count

/-!
# Brackets counted

Nesting can be told by counting: `Bracket.balanced_iff_depth` says that a text is balanced if it
closes as many brackets as it opens and no beginning of it closes more than that beginning opens.
In these terms `Bracket.closing_exact` says which position the search for a closing bracket comes
to, and when it comes to none.
-/

namespace Inflection

namespace Bracket

variable {n start x y : Nat} {c : Char} {t u v : Text}

/-- How many more brackets a text opens than it closes. -/
def depth (t : Text) : Int := t.count '(' - t.count ')'

@[simp] theorem depth_nil : depth [] = 0 := rfl

@[simp] theorem depth_opening (t : Text) : depth ('(' :: t) = depth t + 1 := by
  simp only [depth, List.count_cons_self, List.count_cons_of_ne (by decide : '(' ≠ ')')]
  omega

@[simp] theorem depth_closing (t : Text) : depth (')' :: t) = depth t - 1 := by
  simp only [depth, List.count_cons_self, List.count_cons_of_ne (by decide : ')' ≠ '(')]
  omega

theorem depth_char (hc : isBracket c = false) (t : Text) : depth (c :: t) = depth t := by
  obtain ⟨hopen, hclose⟩ : c ≠ '(' ∧ c ≠ ')' := by simpa [isBracket] using hc
  rw [depth, depth, List.count_cons_of_ne hopen, List.count_cons_of_ne hclose]

/-- No beginning of a text closes more brackets than it opens and `n` more. -/
def Above (n : Nat) (t : Text) : Prop := ∀ u, u <+: t → 0 ≤ n + depth u

theorem above_cons_iff : Above n (c :: t) ↔ ∀ u, u <+: t → 0 ≤ n + depth (c :: u) := by
  constructor
  · exact fun h u hu => h (c :: u) (List.cons_prefix_cons.2 ⟨rfl, hu⟩)
  · intro h u hu
    rcases List.prefix_cons_iff.1 hu with rfl | ⟨v, rfl, hv⟩
    · rw [depth_nil]
      omega
    · exact h v hv

theorem above_opening_iff : Above n ('(' :: t) ↔ Above (n + 1) t := by
  rw [above_cons_iff]
  refine forall₂_congr fun u _ => ?_
  rw [depth_opening]
  omega

theorem above_closing_iff : Above (n + 1) (')' :: t) ↔ Above n t := by
  rw [above_cons_iff]
  refine forall₂_congr fun u _ => ?_
  rw [depth_closing]
  omega

theorem not_above_closing : ¬ Above 0 (')' :: t) := by
  intro h
  have hfirst := above_cons_iff.1 h [] List.nil_prefix
  rw [depth_closing, depth_nil] at hfirst
  omega

theorem above_char_iff (hc : isBracket c = false) : Above n (c :: t) ↔ Above n t := by
  rw [above_cons_iff]
  refine forall₂_congr fun u _ => ?_
  rw [depth_char hc]

/-- Reading a text off from left to right comes to the same as counting in its beginnings. -/
theorem closes_iff_depth : Closes n t ↔ n + depth t = 0 ∧ Above n t := by
  induction t generalizing n with
  | nil =>
    constructor
    · rintro ⟨⟩
      refine ⟨rfl, fun u hu => ?_⟩
      rw [List.prefix_nil.1 hu, depth_nil]
      omega
    · rintro ⟨h, -⟩
      obtain rfl : n = 0 := by rw [depth_nil] at h; omega
      exact .nil
  | cons c t ih =>
    by_cases hopen : c = '('
    · subst hopen
      have hcloses : Closes n ('(' :: t) ↔ Closes (n + 1) t := by
        refine ⟨fun h => ?_, .opening⟩
        cases h with
        | char hc => exact absurd hc (by decide)
        | opening h => exact h
      rw [hcloses, ih, above_opening_iff, depth_opening]
      refine and_congr_left fun _ => ?_
      omega
    by_cases hclose : c = ')'
    · subst hclose
      cases n with
      | zero =>
        refine iff_of_false (fun h => ?_) fun h => not_above_closing h.2
        cases h with
        | char hc => exact absurd hc (by decide)
      | succ n =>
        have hcloses : Closes (n + 1) (')' :: t) ↔ Closes n t := by
          refine ⟨fun h => ?_, .closing⟩
          cases h with
          | char hc => exact absurd hc (by decide)
          | closing h => exact h
        rw [hcloses, ih, above_closing_iff, depth_closing]
        refine and_congr_left fun _ => ?_
        omega
    · have hc : isBracket c = false := by simp [isBracket, hopen, hclose]
      have hcloses : Closes n (c :: t) ↔ Closes n t := by
        refine ⟨fun h => ?_, .char hc⟩
        cases h with
        | char _ h => exact h
        | opening => exact absurd rfl hopen
        | closing => exact absurd rfl hclose
      rw [hcloses, ih, above_char_iff hc, depth_char hc]

/-- A text is balanced if it closes as many brackets as it opens, and no beginning of it closes
more. -/
theorem balanced_iff_count :
    Balanced t ↔ t.count '(' = t.count ')' ∧ ∀ u, u <+: t → u.count ')' ≤ u.count '(' := by
  rw [← closes_zero_iff, closes_iff_depth]
  refine and_congr ?_ (forall₂_congr fun u _ => ?_)
  · rw [depth]
    omega
  · rw [depth]
    omega

/-! ## Positions -/

/-- The bracket at position `x` closes one that has been opened just before position `start`: in
the text between the two, as many brackets are closed as are opened, and in no beginning of it
more. -/
structure ClosesAt (t : Text) (start x : Nat) : Prop where
  start_le : start ≤ x
  bracket : t[x]? = some ')'
  count_eq : ((t.take x).drop start).count '(' = ((t.take x).drop start).count ')'
  count_le : ∀ u, u <+: (t.take x).drop start → u.count ')' ≤ u.count '('

theorem closesAt_iff :
    ClosesAt t start x ↔
      start ≤ x ∧ t[x]? = some ')' ∧ Balanced ((t.take x).drop start) := by
  rw [balanced_iff_count]
  exact ⟨fun h => ⟨h.start_le, h.bracket, h.count_eq, h.count_le⟩,
    fun ⟨hle, hbracket, heq, hcount⟩ => ⟨hle, hbracket, heq, hcount⟩⟩

/-- What is read from a position on begins with the text up to another position, and goes on
there. -/
theorem drop_eq_append_cons_iff :
    (∃ v, t.drop start = u ++ c :: v ∧ start + u.length = x) ↔
      start ≤ x ∧ t[x]? = some c ∧ u = (t.take x).drop start := by
  rw [List.drop_take]
  constructor
  · rintro ⟨v, ht, rfl⟩
    rw [Nat.add_sub_cancel_left, ht, List.take_left, ← List.getElem?_drop, ht,
      List.getElem?_append_right (Nat.le_refl _), Nat.sub_self]
    exact ⟨Nat.le_add_right _ _, rfl, rfl⟩
  · rintro ⟨hle, hx, rfl⟩
    obtain ⟨hlt, rfl⟩ := List.getElem?_eq_some_iff.1 hx
    refine ⟨t.drop (x + 1), ?_, ?_⟩
    · have hdrop : t.drop x = (t.drop start).drop (x - start) := by
        rw [List.drop_drop, Nat.add_sub_cancel' hle]
      rw [← List.drop_eq_getElem_cons hlt, hdrop, List.take_append_drop]
    · rw [List.length_take, List.length_drop]
      omega

theorem closing_natCast (t : Text) (start : Nat) :
    closing t start = .ok ((close? 0 (t.drop start)).map fun r => (start : Int) + r.1.length) :=
  rfl

theorem closing_eq_ok_some_iff :
    closing t start = .ok (some (x : Int)) ↔ ClosesAt t start x := by
  rw [closing_natCast, Except.ok.injEq, Option.map_eq_some_iff, closesAt_iff]
  constructor
  · rintro ⟨⟨u, v⟩, hclose, hx⟩
    obtain ⟨hu, ht⟩ := close?_eq_some_iff.1 hclose
    obtain ⟨hle, hbracket, rfl⟩ := drop_eq_append_cons_iff.1 ⟨v, ht, Int.ofNat.inj hx⟩
    exact ⟨hle, hbracket, hu⟩
  · rintro ⟨hle, hbracket, hu⟩
    obtain ⟨v, ht, hx⟩ := drop_eq_append_cons_iff.2 ⟨hle, hbracket, rfl⟩
    exact ⟨(_, v), close?_eq_some_iff.2 ⟨hu, ht⟩, congrArg Int.ofNat hx⟩

theorem ClosesAt.unique (hx : ClosesAt t start x) (hy : ClosesAt t start y) : x = y := by
  have hsame := (closing_eq_ok_some_iff.2 hx).symm.trans (closing_eq_ok_some_iff.2 hy)
  exact Int.ofNat.inj (Option.some.inj (Except.ok.inj hsame))

theorem exists_closing_eq (t : Text) (start : Nat) :
    closing t start = .ok none ∨ ∃ x : Nat, closing t start = .ok (some (x : Int)) := by
  rw [closing_natCast]
  rcases close? 0 (t.drop start) with _ | ⟨u, v⟩
  · exact Or.inl rfl
  · exact Or.inr ⟨start + u.length, rfl⟩

/-- **The search for a closing bracket is exact.**  It always comes to an answer.  The answer is a
position if and only if the bracket there closes one opened just before the start, and there is at
most one such position; it is none if and only if there is no such position. -/
theorem closing_exact (t : Text) (start : Nat) :
    (closing t start = .ok none ∨ ∃ x : Nat, closing t start = .ok (some (x : Int))) ∧
      (∀ x : Nat, closing t start = .ok (some (x : Int)) ↔ ClosesAt t start x) ∧
      (∀ x y, ClosesAt t start x → ClosesAt t start y → x = y) ∧
      (closing t start = .ok none ↔ ∀ x, ¬ ClosesAt t start x) := by
  refine ⟨exists_closing_eq t start, fun x => closing_eq_ok_some_iff, fun x y => ClosesAt.unique,
    fun hnone x hx => ?_, fun h => ?_⟩
  · cases hnone.symm.trans (closing_eq_ok_some_iff.2 hx)
  · rcases exists_closing_eq t start with hnone | ⟨x, hx⟩
    · exact hnone
    · exact absurd (closing_eq_ok_some_iff.1 hx) (h x)

/-- The group is passed over, and only the first of the two brackets behind it counts; without them
nothing is found. -/
theorem closing_exact_example :
    let t : Text := ['(', 'a', ')', ')', ')']
    closing t 0 = .ok (some 3) ∧ ClosesAt t 0 3 ∧ (∀ y, ClosesAt t 0 y → 3 = y) ∧
      ∀ x, ¬ ClosesAt ['(', 'a', ')'] 0 x := by
  intro t
  obtain ⟨-, hsome, hunique, -⟩ := closing_exact t 0
  obtain ⟨-, -, -, hnone⟩ := closing_exact ['(', 'a', ')'] 0
  have hfound : closing t 0 = .ok (some 3) := rfl
  have hcloses : ClosesAt t 0 3 := (hsome 3).1 hfound
  exact ⟨hfound, hcloses, fun y => hunique 3 y hcloses, hnone.1 rfl⟩

end Bracket

end Inflection
