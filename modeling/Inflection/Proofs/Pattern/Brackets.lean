import Inflection.Pattern.Basic
import Inflection.Proofs.Text.Cut

/-!
# The brackets of written patterns

A bracket of a written pattern is read in one of three ways: it opens a slot, it encloses nothing,
or none closes it.  Only the last of these depends on all that follows, so a text without such a
bracket is read in the same way whatever comes after it, and reading a longer text reads its parts
one after the other.  Positions only matter to what is reported.
-/

namespace Inflection

namespace Slot

/-- Brackets that enclose something enclose a slot. -/
theorem exists_read {body : Text} (hne : body ≠ []) : ∃ slot, read body = some slot := by
  unfold read
  split
  case h_1 => exact absurd rfl hne
  case h_6 =>
    split_ifs
    all_goals exact ⟨_, rfl⟩
  all_goals exact ⟨_, rfl⟩

/-- The number after that of a slot. -/
def following (n : Nat) (slot : Slot) : Nat := if slot.isCounted then n + 1 else n

end Slot

namespace Pattern

/-! ## One equation for each way to read -/

section

variable (groups : Groups) (source : Text) (position n : Nat)

theorem readFrom_nil : readFrom groups source position n [] = pure [] := by
  rw [readFrom]

theorem readFrom_char {c : Char} (hc : c ≠ '[') (t : Text) :
    readFrom groups source position n (c :: t) =
      (.literal c :: ·) <$> readFrom groups source (position + 1) n t := by
  rw [readFrom, if_neg hc]

theorem readFrom_unclosed {t : Text} (ht : ']' ∉ t) :
    readFrom groups source position n ('[' :: t) = (do
      Noted.report (.unclosedSlot ('[' :: t)) source
      (.literal '[' :: ·) <$> readFrom groups source (position + 1) n t) := by
  rw [readFrom, if_pos rfl]
  split
  next => rfl
  next h =>
    have ht' := Text.eq_append_of_cut? h
    rw [ht'] at ht
    simp at ht

theorem readFrom_empty (t : Text) :
    readFrom groups source position n ('[' :: ']' :: t) = (do
      Noted.report (.emptySlot position) source
      (.literal '[' :: ·) <$> readFrom groups source (position + 1) n (']' :: t)) := by
  have hcut : Text.cut? [']'] (']' :: t) = some ([], t) :=
    Text.cut?_singleton List.not_mem_nil t
  rw [readFrom, if_pos rfl]
  split
  next h => cases hcut.symm.trans h
  next h =>
    cases hcut.symm.trans h
    rfl

theorem readFrom_slot {body : Text} (hbody : ']' ∉ body) {slot : Slot}
    (hslot : Slot.read body = some slot) (t : Text) :
    readFrom groups source position n ('[' :: body ++ ']' :: t) = (do
      let element ← slot.toElement groups source n
      (element :: ·) <$>
        readFrom groups source (position + body.length + 2) (slot.following n) t) := by
  have hcut := Text.cut?_singleton hbody t
  rw [List.cons_append, readFrom, if_pos rfl]
  split
  next h => cases hcut.symm.trans h
  next h =>
    cases hcut.symm.trans h
    rw [hslot]
    rfl

end

theorem value_read (groups : Groups) (source written : Text) :
    (read groups source written).value = (readFrom groups source 0 1 written).value := rfl

theorem reports_read (groups : Groups) (source written : Text) :
    (read groups source written).reports = (readFrom groups source 0 1 written).reports := by
  rw [read, Noted.reports_bind]
  exact List.append_nil _

/-- What holds of the empty text, and of every text if it holds of what is left after a step of the
reader, holds of every text. -/
@[elab_as_elim]
theorem reading_induction {motive : Text → Prop} (t : Text)
    (nil : motive [])
    (char : ∀ (c : Char) (t : Text), c ≠ '[' → motive t → motive (c :: t))
    (unclosed : ∀ t : Text, ']' ∉ t → motive t → motive ('[' :: t))
    (empty : ∀ t : Text, motive (']' :: t) → motive ('[' :: ']' :: t))
    (slot : ∀ body t : Text, body ≠ [] → ']' ∉ body → motive t →
      motive ('[' :: body ++ ']' :: t)) : motive t := by
  induction h : t.length using Nat.strongRecOn generalizing t with
  | _ k ih =>
    subst h
    rcases t with _ | ⟨c, t⟩
    · exact nil
    by_cases hc : c = '['
    · subst hc
      by_cases hclose : ']' ∈ t
      · obtain ⟨body, rest, rfl, hbody⟩ := List.eq_append_cons_of_mem hclose
        rcases body with _ | ⟨d, body⟩
        · exact empty rest (ih _ (by simp) _ rfl)
        · exact slot (d :: body) rest (by simp) hbody (ih _ (by simp; omega) _ rfl)
      · exact unclosed t hclose (ih _ (by simp) _ rfl)
    · exact char c t hc (ih _ (by simp) _ rfl)

/-! ## What is reported -/

theorem kind_of_mem_reports_toElement (groups : Groups) (source : Text) (n : Nat) (slot : Slot) :
    ∀ r ∈ (slot.toElement groups source n).reports, r.kind = .malformed := by
  cases slot with
  | group o name =>
    show ∀ r ∈ (Slot.lookUp groups source name).reports, r.kind = .malformed
    unfold Slot.lookUp
    split
    next => exact List.forall_mem_nil _
    next => exact List.forall_mem_singleton.2 rfl
  | named | numbered | inline => exact List.forall_mem_nil _

/-- All that is reported of a pattern where it is read are faults in how it is written. -/
theorem kind_of_mem_reports_readFrom (groups : Groups) (source t : Text) (position n : Nat) :
    ∀ r ∈ (readFrom groups source position n t).reports, r.kind = .malformed := by
  induction t using reading_induction generalizing position n with
  | nil =>
    rw [readFrom_nil]
    exact List.forall_mem_nil _
  | char c t hc ih =>
    rw [readFrom_char _ _ _ _ hc]
    exact ih _ _
  | unclosed t ht ih =>
    rw [readFrom_unclosed _ _ _ _ ht]
    exact List.forall_mem_cons.2 ⟨rfl, ih _ _⟩
  | empty t ih =>
    rw [readFrom_empty]
    exact List.forall_mem_cons.2 ⟨rfl, ih _ _⟩
  | slot body t hne hbody ih =>
    obtain ⟨slot, hslot⟩ := Slot.exists_read hne
    rw [readFrom_slot _ _ _ _ hbody hslot, Noted.reports_bind]
    exact List.forall_mem_append.2 ⟨kind_of_mem_reports_toElement groups source n slot, ih _ _⟩

/-! ## Positions -/

end Pattern

/-- A problem in a pattern that is written after `k` other characters. -/
def Problem.moved (k : Nat) : Problem → Problem
  | .emptySlot position => .emptySlot (position + k)
  | problem => problem

def Report.moved (k : Nat) (r : Report) : Report := { r with problem := r.problem.moved k }

theorem Report.map_moved_zero (rs : List Report) : rs.map (moved 0) = rs := by
  have hmoved : moved 0 = id := by
    funext ⟨problem, source⟩
    cases problem <;> rfl
  rw [hmoved, List.map_id]

namespace Pattern

variable (groups : Groups) (source : Text)

/-- The report of a slot does not depend on where the slot stands. -/
theorem reports_toElement_moved (slot : Slot) (n k : Nat) :
    (slot.toElement groups source n).reports.map (Report.moved k) =
      (slot.toElement groups source n).reports := by
  cases slot with
  | group o name =>
    show (Slot.lookUp groups source name).reports.map _ = (Slot.lookUp groups source name).reports
    unfold Slot.lookUp
    split
    all_goals rfl
  | named | numbered | inline => rfl

/-- What is read does not depend on the position it is read from, and what is reported on the way
tells of no other positions. -/
theorem readFrom_moved (t : Text) (position n k : Nat) :
    (readFrom groups source (position + k) n t).value =
        (readFrom groups source position n t).value ∧
      (readFrom groups source (position + k) n t).reports =
        (readFrom groups source position n t).reports.map (Report.moved k) := by
  induction t using reading_induction generalizing position n with
  | nil =>
    rw [readFrom_nil, readFrom_nil]
    exact ⟨rfl, rfl⟩
  | char c t hc ih =>
    obtain ⟨hvalue, hreports⟩ := ih (position + 1) n
    rw [readFrom_char _ _ _ _ hc, readFrom_char _ _ _ _ hc, Nat.add_right_comm]
    exact ⟨congrArg (.literal c :: ·) hvalue, hreports⟩
  | unclosed t ht ih =>
    obtain ⟨hvalue, hreports⟩ := ih (position + 1) n
    rw [readFrom_unclosed _ _ _ _ ht, readFrom_unclosed _ _ _ _ ht, Nat.add_right_comm]
    exact ⟨congrArg (.literal '[' :: ·) hvalue, congrArg (_ :: ·) hreports⟩
  | empty t ih =>
    obtain ⟨hvalue, hreports⟩ := ih (position + 1) n
    rw [readFrom_empty, readFrom_empty, Nat.add_right_comm]
    exact ⟨congrArg (.literal '[' :: ·) hvalue, congrArg (_ :: ·) hreports⟩
  | slot body t hne hbody ih =>
    obtain ⟨slot, hslot⟩ := Slot.exists_read hne
    obtain ⟨hvalue, hreports⟩ := ih (position + body.length + 2) (slot.following n)
    have hposition : position + k + body.length + 2 = position + body.length + 2 + k := by omega
    rw [readFrom_slot _ _ _ _ hbody hslot, readFrom_slot _ _ _ _ hbody hslot, hposition]
    refine ⟨congrArg (_ :: ·) hvalue, ?_⟩
    rw [Noted.reports_bind, Noted.reports_bind, List.map_append, reports_toElement_moved]
    exact congrArg _ hreports

/-! ## Complete texts -/

/-- Every opening bracket of a written pattern is closed. -/
inductive Complete : Text → Prop where
  | nil : Complete []
  | char {c : Char} {t : Text} (hc : c ≠ '[') (h : Complete t) : Complete (c :: t)
  | empty {t : Text} (h : Complete (']' :: t)) : Complete ('[' :: ']' :: t)
  | slot {body t : Text} (hne : body ≠ []) (hbody : ']' ∉ body) (h : Complete t) :
      Complete ('[' :: body ++ ']' :: t)

/-- Some opening bracket is closed by none of the characters after it. -/
def Unclosed (t : Text) : Prop := ∃ v, '[' :: v <:+ t ∧ ']' ∉ v

theorem Complete.not_unclosed {t : Text} (h : Complete t) : ¬ Unclosed t := by
  induction h with
  | nil =>
    rintro ⟨v, hv, -⟩
    exact absurd (List.suffix_nil.1 hv) (List.cons_ne_nil _ _)
  | char hc _ ih =>
    rintro ⟨v, hv, hclose⟩
    rcases List.suffix_cons_iff.1 hv with heq | hv
    · exact hc (List.cons.inj heq).1.symm
    · exact ih ⟨v, hv, hclose⟩
  | empty _ ih =>
    rintro ⟨v, hv, hclose⟩
    rcases List.suffix_cons_iff.1 hv with heq | hv
    · obtain rfl := (List.cons.inj heq).2
      exact hclose List.mem_cons_self
    · exact ih ⟨v, hv, hclose⟩
  | @slot body t _ _ _ ih =>
    rintro ⟨v, hv, hclose⟩
    have hrest := List.suffix_append ('[' :: body) (']' :: t)
    rcases List.suffix_or_suffix_of_suffix hv hrest with hv | hv
    · rcases List.suffix_cons_iff.1 hv with heq | hv
      · exact absurd (List.cons.inj heq).1 (by decide)
      · exact ih ⟨v, hv, hclose⟩
    · rcases List.suffix_cons_iff.1 hv with heq | hv
      · exact absurd (List.cons.inj heq).1 (by decide)
      · exact hclose (hv.subset List.mem_cons_self)

/-- A text is complete, or it is up to the first bracket that none closes. -/
theorem complete_or_exists (t : Text) :
    Complete t ∨ ∃ u v, t = u ++ '[' :: v ∧ Complete u ∧ ']' ∉ v := by
  induction t using reading_induction with
  | nil => exact Or.inl .nil
  | unclosed t ht => exact Or.inr ⟨[], t, rfl, .nil, ht⟩
  | char c t hc ih =>
    rcases ih with h | ⟨u, v, rfl, hu, hv⟩
    · exact Or.inl (.char hc h)
    · exact Or.inr ⟨c :: u, v, rfl, .char hc hu, hv⟩
  | empty t ih =>
    rcases ih with h | ⟨_ | ⟨c, u⟩, v, heq, hu, hv⟩
    · exact Or.inl (.empty h)
    · cases heq
    · cases heq
      exact Or.inr ⟨'[' :: ']' :: u, v, rfl, .empty hu, hv⟩
  | slot body t hne hbody ih =>
    rcases ih with h | ⟨u, v, rfl, hu, hv⟩
    · exact Or.inl (.slot hne hbody h)
    · exact Or.inr ⟨'[' :: body ++ ']' :: u, v, by simp, .slot hne hbody hu, hv⟩

theorem complete_iff {t : Text} : Complete t ↔ ¬ Unclosed t := by
  refine ⟨Complete.not_unclosed, fun h => (complete_or_exists t).resolve_right ?_⟩
  rintro ⟨u, v, rfl, -, hv⟩
  exact h ⟨v, List.suffix_append u _, hv⟩

/-- Reading a text after a complete one reads both. -/
theorem readFrom_append {u : Text} (hu : Complete u) (n : Nat) :
    ∃ n', ∀ position t,
      readFrom groups source position n (u ++ t) = (do
        let p ← readFrom groups source position n u
        (p ++ ·) <$> readFrom groups source (position + u.length) n' t) := by
  induction hu generalizing n with
  | nil =>
    refine ⟨n, fun position t => ?_⟩
    rw [readFrom_nil]
    rfl
  | @char c u hc _ ih =>
    obtain ⟨n', h⟩ := ih n
    refine ⟨n', fun position t => ?_⟩
    rw [List.cons_append, readFrom_char _ _ _ _ hc, readFrom_char _ _ _ _ hc, h, List.length_cons,
      Nat.add_right_comm position, map_bind, bind_map_left]
    rfl
  | @empty u _ ih =>
    obtain ⟨n', h⟩ := ih n
    refine ⟨n', fun position t => ?_⟩
    rw [List.cons_append, List.cons_append, readFrom_empty, readFrom_empty, ← List.cons_append, h]
    simp only [map_bind, bind_map_left, bind_assoc]
    rw [List.length_cons, Nat.add_right_comm]
    rfl
  | @slot body u hne hbody _ ih =>
    obtain ⟨slot, hslot⟩ := Slot.exists_read hne
    obtain ⟨n', h⟩ := ih (slot.following n)
    refine ⟨n', fun position t => ?_⟩
    have hassoc : '[' :: body ++ ']' :: u ++ t = '[' :: body ++ ']' :: (u ++ t) := by simp
    have hlength : position + ('[' :: body ++ ']' :: u).length =
        position + body.length + 2 + u.length := by
      rw [List.length_append, List.length_cons, List.length_cons]
      omega
    rw [hassoc, readFrom_slot _ _ _ _ hbody hslot, readFrom_slot _ _ _ _ hbody hslot, h, hlength]
    simp only [map_bind, bind_map_left, bind_assoc]
    rfl

/-- A slot that stands after a complete text is read as its element, with a number that depends on
what precedes it only, and what is reported of it is reported of the whole. -/
theorem exists_read_slot {before body : Text} (hbefore : Complete before) (hbody : ']' ∉ body)
    {slot : Slot} (hslot : Slot.read body = some slot) (after : Text) :
    ∃ n rest,
      (read groups source (before ++ '[' :: body ++ ']' :: after)).value =
          (read groups source before).value ++ (slot.toElement groups source n).value :: rest ∧
        ∀ r ∈ (slot.toElement groups source n).reports,
          r ∈ (read groups source (before ++ '[' :: body ++ ']' :: after)).reports := by
  obtain ⟨n, happend⟩ := readFrom_append groups source hbefore 1
  rw [value_read, value_read, reports_read, List.append_assoc, happend,
    readFrom_slot _ _ _ _ hbody hslot]
  refine ⟨n, _, rfl, fun r hr => ?_⟩
  rw [Noted.reports_bind, Noted.reports_map, Noted.reports_bind]
  exact List.mem_append_right _ (List.mem_append_left _ hr)

end Pattern

end Inflection
