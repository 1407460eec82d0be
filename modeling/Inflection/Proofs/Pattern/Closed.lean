import Inflection.Proofs.Pattern.Brackets

/-!
# Written patterns whose brackets are closed

Where every bracket is closed and none are empty, a written pattern is read slot by slot and
character by character, so the names that it binds stand between its brackets or are numbers.
-/

namespace Inflection

namespace Slot

/-- A named slot is known by what stands between the brackets. -/
theorem eq_of_read_named {body name : Text} (h : read body = some (.named name)) : name = body := by
  unfold read at h
  split at h
  case h_6 =>
    split_ifs at h
    all_goals cases h
    rfl
  all_goals cases h

end Slot

namespace Pattern

/-- Every opening bracket of a written pattern is closed, and something stands between the two. -/
inductive Closed : Text → Prop where
  | nil : Closed []
  | char {c : Char} {t : Text} (hc : c ≠ '[') (h : Closed t) : Closed (c :: t)
  | slot {body t : Text} (hne : body ≠ []) (hbody : ']' ∉ body) (h : Closed t) :
      Closed ('[' :: body ++ ']' :: t)

theorem Closed.complete {t : Text} (h : Closed t) : Complete t := by
  induction h with
  | nil => exact .nil
  | char hc _ ih => exact .char hc ih
  | slot hne hbody _ ih => exact .slot hne hbody ih

/-- A closed text begins with no empty brackets. -/
theorem Closed.not_begins_empty {t : Text} (h : Closed t) : ¬ ['[', ']'] <+: t := by
  rintro ⟨rest, heq⟩
  cases h with
  | nil => cases heq
  | char hc => exact hc (List.cons.inj heq).1.symm
  | @slot body t hne hbody =>
    obtain ⟨c, body, rfl⟩ := List.exists_cons_of_ne_nil hne
    obtain ⟨rfl, -⟩ := List.cons.inj (List.cons.inj heq).2
    exact hbody List.mem_cons_self

/-! ## The names of what is read -/

variable (groups : Groups) (source : Text)

/-- The number of a slot is written in digits. -/
theorem isDigit_of_mem_numeral {n : Nat} {c : Char} (h : c ∈ Slot.numeral n) : c.isDigit := by
  unfold Slot.numeral at h
  rw [Nat.toString_eq_repr, Nat.toList_repr] at h
  exact Nat.isDigit_of_mem_toDigits (by decide) (by decide) h

/-- An element of a slot is known by what stands between the brackets, or by a number. -/
theorem name?_toElement {body : Text} {slot : Slot} (hslot : Slot.read body = some slot)
    (n : Nat) :
    (slot.toElement groups source n).value.name? = some body ∨
      (slot.toElement groups source n).value.name? = some (Slot.numeral n) := by
  cases slot with
  | named name =>
    left
    rw [Slot.eq_of_read_named hslot]
    rfl
  | numbered => exact Or.inr rfl
  | group «optional» name =>
    right
    cases «optional» <;> rfl
  | inline «optional» alternatives =>
    right
    cases «optional» <;> rfl

/-- A name that is no number, and that no slot of a written pattern holds, is not bound by it. -/
theorem name?_ne_of_mem_readFrom {u name : Text} (hu : Closed u)
    (hname : ∃ c ∈ name, c.isDigit = false) (h : ¬ '[' :: name ++ [']'] <:+: u)
    (position n : Nat) :
    ∀ e ∈ (readFrom groups source position n u).value, e.name? ≠ some name := by
  induction hu generalizing position n with
  | nil =>
    rw [readFrom_nil]
    exact List.forall_mem_nil _
  | @char c u hc _ ih =>
    have hu : ¬ '[' :: name ++ [']'] <:+: u := fun hu => h (List.infix_cons hu)
    rw [readFrom_char _ _ _ _ hc, Noted.value_map]
    refine List.forall_mem_cons.2 ⟨?_, ih hu _ _⟩
    rintro ⟨⟩
  | @slot body u hne hbody _ ih =>
    have hu : ¬ '[' :: name ++ [']'] <:+: u := by
      intro hu
      refine h (hu.trans ⟨'[' :: body ++ [']'], [], ?_⟩)
      simp
    obtain ⟨slot, hslot⟩ := Slot.exists_read hne
    rw [readFrom_slot _ _ _ _ hbody hslot]
    refine List.forall_mem_cons.2 ⟨?_, ih hu _ _⟩
    rcases name?_toElement groups source hslot n with he | he
    all_goals rw [he]; rintro ⟨⟩
    · refine h ⟨[], u, ?_⟩
      simp
    · obtain ⟨c, hc, hdigit⟩ := hname
      exact Bool.false_ne_true (hdigit.symm.trans (isDigit_of_mem_numeral hc))

end Pattern

end Inflection
