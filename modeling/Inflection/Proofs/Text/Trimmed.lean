import Inflection.Proofs.Text.Cut
import Inflection.Text.Basic

/-! # Texts without white space at either end -/

namespace Inflection

namespace Text

/-- Neither end of a text is white space. -/
structure Trimmed (t : Text) : Prop where
  head : ∀ c ∈ t.head?, isSpace c = false
  last : ∀ c ∈ t.getLast?, isSpace c = false

theorem trimmed_nil : Trimmed [] where
  head := by rintro c ⟨⟩
  last := by rintro c ⟨⟩

theorem trimmed_singleton {c : Char} (hc : isSpace c = false) : Trimmed [c] where
  head := by
    rintro d ⟨⟩
    exact hc
  last := by
    rintro d ⟨⟩
    exact hc

/-- A text without white space is trimmed. -/
theorem trimmed_of_forall {t : Text} (h : ∀ c ∈ t, isSpace c = false) : Trimmed t where
  head c hc := h c (List.mem_of_mem_head? hc)
  last c hc := h c (List.mem_of_mem_getLast? hc)

/-- What stands between two trimmed texts that are not empty may be anything. -/
theorem Trimmed.append_append {s u : Text} (hs : Trimmed s) (hu : Trimmed u) (hs' : s ≠ [])
    (hu' : u ≠ []) (t : Text) : Trimmed (s ++ t ++ u) where
  head := by
    obtain ⟨c, s', rfl⟩ := List.exists_cons_of_ne_nil hs'
    exact hs.head
  last := by
    rw [List.getLast?_append, List.getLast?_eq_some_getLast hu', Option.some_or,
      ← List.getLast?_eq_some_getLast hu']
    exact hu.last

theorem dropWhile_eq_self {p : Char → Bool} {t : Text} (h : ∀ c ∈ t.head?, p c = false) :
    t.dropWhile p = t := by
  cases t with
  | nil => rfl
  | cons c t => exact List.dropWhile_cons_of_neg (by simp [h c rfl])

theorem dropRight_eq_self {p : Char → Bool} {t : Text} (h : ∀ c ∈ t.getLast?, p c = false) :
    dropRight p t = t := by
  rw [dropRight_eq, dropWhile_eq_self, List.reverse_reverse]
  rw [List.head?_reverse]
  exact h

/-- Trimming does nothing to a trimmed text. -/
theorem Trimmed.trim_eq {t : Text} (h : Trimmed t) : t.trim = t := by
  rw [trim, dropWhile_eq_self h.head, dropRight_eq_self h.last]

/-- White space before a text is trimmed off. -/
theorem trim_append_left {s : Text} (hs : ∀ c ∈ s, isSpace c) (t : Text) :
    (s ++ t).trim = t.trim := by
  rw [trim, List.dropWhile_append_of_pos hs, trim]

/-- White space after a text is trimmed off. -/
theorem trim_append_right {s : Text} (hs : ∀ c ∈ s, isSpace c) (t : Text) :
    (t ++ s).trim = t.trim := by
  have hs' : ∀ c ∈ s.reverse, isSpace c := fun c hc => hs c (List.mem_reverse.1 hc)
  rw [trim, List.dropWhile_append]
  split
  next hempty =>
    rw [trim, List.isEmpty_iff.1 hempty, ← List.append_nil s, List.dropWhile_append_of_pos hs]
    rfl
  next =>
    rw [trim, dropRight_eq, List.reverse_append, List.dropWhile_append_of_pos hs', ← dropRight_eq]

theorem Trimmed.trim_cons {t : Text} (h : Trimmed t) {c : Char} (hc : isSpace c) :
    trim (c :: t) = t :=
  (trim_append_left (List.forall_mem_singleton.2 hc) t).trans h.trim_eq

theorem Trimmed.trim_concat {t : Text} (h : Trimmed t) {c : Char} (hc : isSpace c) :
    trim (t ++ [c]) = t :=
  (trim_append_right (List.forall_mem_singleton.2 hc) t).trans h.trim_eq

/-! ## What is left of a text -/

theorem exists_eq_append_dropRight (p : Char → Bool) (t : Text) :
    ∃ u, t = dropRight p t ++ u ∧ ∀ c ∈ u, p c := by
  refine ⟨(t.reverse.takeWhile p).reverse, ?_, ?_⟩
  · rw [dropRight_eq, ← List.reverse_append, List.takeWhile_append_dropWhile, List.reverse_reverse]
  · intro c hc
    exact List.all_eq_true.1 List.all_takeWhile c (List.mem_reverse.1 hc)

/-- Only the end of a text is trimmed if it does not begin with white space. -/
theorem exists_trim_cons {c : Char} (hc : isSpace c = false) (t : Text) :
    ∃ e s, trim (c :: t) = c :: e ∧ t = e ++ s ∧ ∀ x ∈ s, isSpace x := by
  obtain ⟨s, hs, hspace⟩ := exists_eq_append_dropRight isSpace (c :: t)
  have htrim : trim (c :: t) = dropRight isSpace (c :: t) := by
    rw [trim, List.dropWhile_cons_of_neg (by simp [hc])]
  rcases h : dropRight isSpace (c :: t) with _ | ⟨d, e⟩
  · rw [h, List.nil_append] at hs
    exact absurd (hspace c (hs ▸ List.mem_cons_self)) (by simp [hc])
  · rw [h] at hs
    obtain ⟨rfl, ht⟩ := List.cons.inj hs
    exact ⟨e, s, htrim.trans h, ht, hspace⟩

/-- A text is what is left of it between two runs of white space. -/
theorem exists_eq_append_trim (t : Text) :
    ∃ s u, t = s ++ t.trim ++ u ∧ (∀ c ∈ s, isSpace c) ∧ ∀ c ∈ u, isSpace c := by
  obtain ⟨u, hu, hspace⟩ := exists_eq_append_dropRight isSpace (t.dropWhile isSpace)
  refine ⟨t.takeWhile isSpace, u, ?_, fun c hc => ?_, hspace⟩
  · rw [List.append_assoc, trim, ← hu, List.takeWhile_append_dropWhile]
  · exact List.all_eq_true.1 List.all_takeWhile c hc

theorem head_dropWhile {p : Char → Bool} (t : Text) :
    ∀ c ∈ (t.dropWhile p).head?, p c = false := by
  intro c hc
  have hnot := List.head?_dropWhile_not p t
  rw [Option.mem_def.1 hc] at hnot
  simpa using hnot

/-- Trimming leaves no white space at either end. -/
theorem trimmed_trim (t : Text) : t.trim.Trimmed where
  head := by
    intro c hc
    obtain ⟨u, hu, -⟩ := exists_eq_append_dropRight isSpace (t.dropWhile isSpace)
    have hmem : c ∈ (t.dropWhile isSpace).head? := by
      rw [hu, List.head?_append, ← trim, Option.mem_def.1 hc]
      rfl
    exact head_dropWhile t c hmem
  last := by
    intro c hc
    rw [trim, dropRight_eq, List.getLast?_reverse] at hc
    exact head_dropWhile _ c hc

theorem trim_eq_nil_iff {t : Text} : t.trim = [] ↔ ∀ c ∈ t, isSpace c := by
  constructor
  · intro h
    obtain ⟨s, u, ht, hs, hu⟩ := exists_eq_append_trim t
    rw [h, List.append_nil] at ht
    rw [ht]
    exact List.forall_mem_append.2 ⟨hs, hu⟩
  · intro h
    have hnil := trim_append_left h []
    rwa [List.append_nil] at hnil

theorem trim_dropWhile_append {p : Char → Bool} {s : Text} (hs : ∀ x ∈ s, isSpace x)
    (t : Text) : trim ((t ++ s).dropWhile p) = trim (t.dropWhile p) := by
  rw [List.dropWhile_append]
  split
  next hempty =>
    rw [List.isEmpty_iff.1 hempty, show trim [] = [] from rfl, trim_eq_nil_iff]
    exact fun x hx => hs x ((List.dropWhile_sublist p).subset hx)
  next => exact trim_append_right hs _

theorem infix_dropWhile {p : Char → Bool} {k t : Text} (hk : ∀ c ∈ k.head?, p c = false)
    (h : k <:+: t) : k <:+: t.dropWhile p := by
  cases k with
  | nil => exact List.nil_infix
  | cons c k =>
    obtain ⟨u, v, rfl⟩ := h
    obtain ⟨-, hdrop⟩ := takeWhile_append_cons (hk c rfl) u (k ++ v)
    rw [List.append_assoc, List.cons_append, hdrop]
    exact ⟨u.dropWhile p, v, by simp⟩

/-- A trimmed text that stands in another one is left there when that one is trimmed. -/
theorem Trimmed.infix_trim {k t : Text} (hk : k.Trimmed) (h : k <:+: t) : k <:+: t.trim := by
  have hlast : ∀ c ∈ k.reverse.head?, isSpace c = false := by
    rw [List.head?_reverse]
    exact hk.last
  rw [trim, dropRight_eq, ← List.reverse_infix, List.reverse_reverse]
  exact infix_dropWhile hlast (List.reverse_infix.2 (infix_dropWhile hk.head h))

end Text

end Inflection
