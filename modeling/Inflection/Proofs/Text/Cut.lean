import Inflection.Text.Basic
import Mathlib.Data.List.Basic

/-!
# Where a text stands in another one

A text stands in another one where that can be cut.  A text that is cut at some characters consists
of pieces without any, and an induction on the text goes from piece to piece.
-/

namespace Inflection

namespace Text

/-- A text occurs in another one if it is a part of it. -/
theorem occursIn_iff {sub t : Text} : occursIn sub t ↔ sub <:+: t := by
  constructor
  · intro h
    obtain ⟨⟨before, after⟩, hcut⟩ := Option.isSome_iff_exists.1 h
    exact ⟨before, after, (eq_append_of_cut? hcut).symm⟩
  · rintro ⟨before, after, rfl⟩
    unfold occursIn
    induction before with
    | nil =>
      rw [List.nil_append]
      cases h : sub ++ after with
      | nil =>
        obtain ⟨rfl, -⟩ := List.append_eq_nil_iff.1 h
        rfl
      | cons c t =>
        have hprefix : sub.isPrefixOf? (sub ++ after) = some after :=
          List.isPrefixOf?_eq_some_iff_append_eq.2 rfl
        rw [cut?, ← h, hprefix, Option.isSome_some]
    | cons c before ih =>
      rw [List.cons_append, List.cons_append, cut?]
      split
      next => rfl
      next => rwa [Option.isSome_map]

/-! ## The first place where a text stands -/

/-- The division of a text at the first place where another one stands in it. -/
structure Leftmost (sub t before after : Text) : Prop where
  eq_append : t = before ++ sub ++ after
  length_le : ∀ before' after', t = before' ++ sub ++ after' → before.length ≤ before'.length

theorem Leftmost.unique {sub t before after before' after' : Text}
    (h : Leftmost sub t before after) (h' : Leftmost sub t before' after') :
    before = before' ∧ after = after' := by
  have hlength : before.length = before'.length :=
    Nat.le_antisymm (h.length_le _ _ h'.eq_append) (h'.length_le _ _ h.eq_append)
  have heq := h.eq_append.symm.trans h'.eq_append
  rw [List.append_assoc, List.append_assoc] at heq
  obtain ⟨rfl, hrest⟩ := List.append_inj heq hlength
  exact ⟨rfl, List.append_cancel_left hrest⟩

/-- A text is cut at the first place. -/
theorem leftmost_of_cut? {sub t before after : Text} (h : cut? sub t = some (before, after)) :
    Leftmost sub t before after := by
  refine ⟨eq_append_of_cut? h, ?_⟩
  intro before' after' ht
  induction t generalizing before before' with
  | nil =>
    simp only [cut?] at h
    split at h
    next =>
      cases h
      exact Nat.zero_le _
    next => cases h
  | cons c t ih =>
    simp only [cut?] at h
    split at h
    next =>
      cases h
      exact Nat.zero_le _
    next hnone =>
      obtain ⟨⟨b, a⟩, hcut, heq⟩ := Option.map_eq_some_iff.1 h
      cases heq
      cases before' with
      | nil => cases hnone.symm.trans (List.isPrefixOf?_eq_some_iff_append_eq.2 ht.symm)
      | cons d before' =>
        obtain ⟨rfl, htail⟩ := List.cons.inj ht
        exact Nat.succ_le_succ (ih hcut before' htail)

theorem cut?_eq_some_iff {sub t before after : Text} :
    cut? sub t = some (before, after) ↔ Leftmost sub t before after := by
  refine ⟨leftmost_of_cut?, fun h => ?_⟩
  have hoccurs : sub.occursIn t := occursIn_iff.2 ⟨before, after, h.eq_append.symm⟩
  obtain ⟨⟨before', after'⟩, hcut⟩ := Option.isSome_iff_exists.1 hoccurs
  obtain ⟨rfl, rfl⟩ := h.unique (leftmost_of_cut? hcut)
  exact hcut

/-- A text stands in a place for the first time if it does not stand in what comes before its last
character there. -/
theorem leftmost_iff {sub before after : Text} (hne : sub ≠ []) :
    Leftmost sub (before ++ sub ++ after) before after ↔ ¬ sub <:+: before ++ sub.dropLast := by
  have hlength : sub.dropLast.length + 1 = sub.length := by
    rw [List.length_dropLast]
    exact Nat.sub_add_cancel (List.length_pos_iff.2 hne)
  have heq : before ++ sub ++ after =
      before ++ sub.dropLast ++ ([sub.getLast hne] ++ after) := by
    rw [List.append_assoc before sub.dropLast, ← List.append_assoc sub.dropLast,
      List.dropLast_concat_getLast, List.append_assoc]
  constructor
  · rintro h ⟨x, y, hxy⟩
    have hle := h.length_le x (y ++ ([sub.getLast hne] ++ after)) (by rw [heq, ← hxy]; simp)
    have hsum := congrArg List.length hxy
    simp only [List.length_append] at hsum
    omega
  · intro h
    refine ⟨rfl, fun x y hxy => ?_⟩
    by_contra hlt
    have hle : (x ++ sub).length ≤ (before ++ sub.dropLast).length := by
      simp only [List.length_append]
      omega
    have hprefix : x ++ sub <+: before ++ sub.dropLast :=
      List.prefix_of_prefix_length_le ⟨y, hxy.symm⟩ ⟨_, heq.symm⟩ hle
    exact h (List.infix_append_right.trans hprefix.isInfix)

theorem split_of_not_infix {sep t : Text} (h : ¬ sep <:+: t) : split sep t = [t] := by
  have hnone : cut? sep t = none := Option.not_isSome_iff_eq_none.1 (mt occursIn_iff.1 h)
  rw [split]
  split
  next => rfl
  next hcut => cases hnone.symm.trans hcut

/-- Where a text stands only once, it is replaced in that place. -/
theorem Leftmost.replace_eq {old t before after : Text} (h : Leftmost old t before after)
    (hne : old ≠ []) (hafter : ¬ old <:+: after) (new : Text) :
    replace old new t = before ++ new ++ after := by
  have hsplit : split old t = [before, after] := by
    rw [split]
    split
    next hcut => cases hcut.symm.trans (cut?_eq_some_iff.2 h)
    next hcut =>
      cases hcut.symm.trans (cut?_eq_some_iff.2 h)
      rw [dif_neg hne, split_of_not_infix hafter]
  rw [replace, hsplit, List.intercalate_cons_cons, List.intercalate_singleton]

/-- A text is cut where a character occurs in it for the first time. -/
theorem cut?_singleton {c : Char} {before : Text} (h : c ∉ before) (after : Text) :
    cut? [c] (before ++ c :: after) = some (before, after) := by
  induction before with
  | nil =>
    have hprefix : List.isPrefixOf? [c] (c :: after) = some after :=
      List.isPrefixOf?_eq_some_iff_append_eq.2 rfl
    rw [List.nil_append, cut?, hprefix]
  | cons d before ih =>
    rw [List.mem_cons, not_or] at h
    have hnone : List.isPrefixOf? [c] (d :: (before ++ c :: after)) = none := by
      rw [Option.eq_none_iff_forall_ne_some]
      intro r hr
      cases eq_append_of_isPrefixOf? hr
      exact h.1 rfl
    rw [List.cons_append, cut?, hnone, ih h.2]
    rfl

/-- A character that does not stand in the end of a text stands before it. -/
theorem exists_eq_append_cons {c : Char} {e s t u : Text} (hc : c ∉ s)
    (h : e ++ s = t ++ c :: u) : ∃ u', e = t ++ c :: u' ∧ u = u' ++ s := by
  rcases List.append_eq_append_iff.1 h with ⟨x, -, hs⟩ | ⟨x, he, hx⟩
  · exact absurd (hs ▸ List.mem_append_right x List.mem_cons_self) hc
  · cases x with
    | nil =>
      rw [List.nil_append] at hx
      exact absurd (hx ▸ List.mem_cons_self) hc
    | cons d x =>
      obtain ⟨rfl, hu⟩ := List.cons.inj hx
      exact ⟨x, he, hu⟩

/-- A text stands on one side of a character that it does not hold. -/
theorem infix_append_cons_iff {c : Char} {sub : Text} (hc : c ∉ sub) {t u : Text} :
    sub <:+: t ++ c :: u ↔ sub <:+: t ∨ sub <:+: u := by
  constructor
  · rintro ⟨a, b, h⟩
    rcases List.append_eq_append_iff.1 h with ⟨x, rfl, -⟩ | ⟨x, hx, hb⟩
    · exact Or.inl ⟨a, x, rfl⟩
    rcases x with _ | ⟨d, x⟩
    · rw [List.append_nil] at hx
      exact Or.inl (hx ▸ List.infix_append_right)
    · obtain ⟨rfl, rfl⟩ := List.cons.inj hb
      rcases List.append_eq_append_iff.1 hx with ⟨y, -, hsub⟩ | ⟨y, -, hsub⟩
      · exact absurd (hsub ▸ List.mem_append_right y List.mem_cons_self) hc
      · rcases y with _ | ⟨e, y⟩
        · obtain rfl : c :: x = sub := hsub
          exact absurd List.mem_cons_self hc
        · obtain ⟨-, rfl⟩ := List.cons.inj hsub
          exact Or.inr ⟨y, b, rfl⟩
  · rintro (h | h)
    · exact h.trans List.infix_append_left
    · exact h.trans ⟨t ++ [c], [], by simp⟩

/-- A text does not stand in one that holds none of its characters, so it stands behind. -/
theorem infix_of_infix_append {sub t u : Text} (ht : ∀ c ∈ t, c ∉ sub) (h : sub <:+: t ++ u) :
    sub <:+: u := by
  induction t with
  | nil => exact h
  | cons c t ih =>
    obtain ⟨hc, ht⟩ := List.forall_mem_cons.1 ht
    rcases (infix_append_cons_iff (t := []) hc).1 h with hnil | h
    · rw [List.infix_nil.1 hnil]
      exact List.nil_infix
    · exact ih ht h

/-- A run ends where the first character stands that does not belong to it, whatever follows. -/
theorem takeWhile_append_cons {p : Char → Bool} {c : Char} (hc : p c = false) (t u : Text) :
    (t ++ c :: u).takeWhile p = t.takeWhile p ∧
      (t ++ c :: u).dropWhile p = t.dropWhile p ++ c :: u := by
  induction t with
  | nil => simp [hc]
  | cons d t ih =>
    cases hd : p d with
    | false => simp [hd]
    | true => simpa [hd] using ih

end Text

/-! ## Texts cut at characters -/

namespace Text

variable {p : Char → Bool}

/-- What holds of the pieces between cuts, and of a piece before a cut if it holds of what comes
after that, holds of every text. -/
@[elab_as_elim]
theorem pieces_induction {motive : Text → Prop} (t : Text)
    (piece : ∀ u : Text, (∀ c ∈ u, p c = false) → motive u)
    (cut : ∀ (u : Text) (c : Char) (t : Text), (∀ c ∈ u, p c = false) → p c → motive t →
      motive (u ++ c :: t)) : motive t := by
  -- The piece that the induction is in the middle of is `u`.
  suffices h : ∀ u : Text, (∀ c ∈ u, p c = false) → motive (u ++ t) from
    h [] (List.forall_mem_nil _)
  induction t with
  | nil =>
    intro u hu
    rw [List.append_nil]
    exact piece u hu
  | cons c t ih =>
    intro u hu
    cases hc : p c with
    | false =>
      rw [List.append_cons]
      exact ih (u ++ [c]) (List.forall_mem_append.2 ⟨hu, List.forall_mem_singleton.2 hc⟩)
    | true => exact cut u c t hu hc (ih [] (List.forall_mem_nil _))

/-- A piece stands in the text, and nothing in it is a cut. -/
theorem infix_of_mem_splitOnP {t l : Text} (h : l ∈ t.splitOnP p) :
    l <:+: t ∧ ∀ c ∈ l, p c = false := by
  induction t using pieces_induction (p := p) with
  | piece u hu =>
    rw [List.splitOnP_eq_singleton hu, List.mem_singleton] at h
    rw [h]
    exact ⟨List.infix_refl u, hu⟩
  | cut u c t hu hc ih =>
    rw [List.splitOnP_append_cons_of_forall_mem hu c hc, List.mem_cons] at h
    rcases h with rfl | h
    · exact ⟨⟨[], c :: t, rfl⟩, hu⟩
    · obtain ⟨hpart, hl⟩ := ih h
      exact ⟨hpart.trans ⟨u ++ [c], [], by simp⟩, hl⟩

/-- What holds of the characters of some texts, and of those between them, holds of all characters
where the texts are joined. -/
theorem forall_mem_intercalate {P : Char → Prop} {sep : Text} (hsep : ∀ c ∈ sep, P c)
    {ts : List Text} (h : ∀ t ∈ ts, ∀ c ∈ t, P c) : ∀ c ∈ sep.intercalate ts, P c := by
  induction ts with
  | nil => exact List.forall_mem_nil _
  | cons t ts ih =>
    obtain ⟨ht, hts⟩ := List.forall_mem_cons.1 h
    cases ts with
    | nil => rwa [List.intercalate_singleton]
    | cons u ts =>
      rw [List.intercalate_cons_cons, List.forall_mem_append, List.forall_mem_append]
      exact ⟨⟨ht, hsep⟩, ih hts⟩

end Text

end Inflection
