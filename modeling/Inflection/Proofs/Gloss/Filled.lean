import Inflection.Gloss
import Inflection.Proofs.Text.Cut
import Mathlib.Data.List.Basic

/-!
# Glosses whose blanks are filled

What is written into the blanks of a gloss goes into the first of them, one after the other, and
leaves everything else as it is.  `Gloss.Retyped` says so without counting: the two glosses are read
side by side up to the last blank that is typed.
-/

namespace Inflection

namespace Gloss

theorem fillBlanks_cons_of_ne {c : Char} (hc : c ≠ blank) (fs : List Text) (t : Text) :
    fillBlanks fs (c :: t) = c :: fillBlanks fs t := by
  cases fs with
  | nil => rw [fillBlanks_nil, fillBlanks_nil]
  | cons f fs => rw [fillBlanks, if_neg hc]

/-- What stands before the first blank is kept. -/
theorem fillBlanks_append {u : Text} (hu : blank ∉ u) (fs : List Text) (t : Text) :
    fillBlanks fs (u ++ t) = u ++ fillBlanks fs t := by
  induction u with
  | nil => rfl
  | cons c u ih =>
    obtain ⟨hc, hu⟩ := not_or.1 (mt List.mem_cons.2 hu)
    rw [List.cons_append, fillBlanks_cons_of_ne (Ne.symm hc), ih hu, List.cons_append]

theorem fillBlanks_eq_self {u : Text} (hu : blank ∉ u) (fs : List Text) : fillBlanks fs u = u := by
  have hnil : fillBlanks fs [] = [] := by cases fs <;> rfl
  have happend := fillBlanks_append hu fs []
  rwa [List.append_nil, hnil, List.append_nil] at happend

theorem fillBlanks_blank (f : Text) (fs : List Text) (t : Text) :
    fillBlanks (f :: fs) (blank :: t) = f ++ fillBlanks fs t := by
  rw [fillBlanks, if_pos rfl]

theorem fillers_cons_of_ne {m : Text} (hm : m ≠ ['<']) (trace : List Text) :
    fillers (m :: trace) = m :: fillers trace := by
  rw [fillers]
  · rintro rfl
    exact absurd rfl hm
  · rintro m' trace' rfl
    exact absurd rfl hm

/-! ## Retyped glosses -/

/-- What a blank can be typed with: a marker, or the two halves of an infix slot. -/
def typings : List Text := [['|'], ['&'], ['>'], ['<', '>']]

/-- The first `k` blanks of a gloss are typed, and nothing else of it is changed. -/
inductive Retyped : Nat → Text → Text → Prop where
  | rest {t : Text} : Retyped 0 t t
  | typed {k : Nat} {f t u : Text} (hf : f ∈ typings) (h : Retyped k t u) :
      Retyped (k + 1) (blank :: t) (f ++ u)
  | kept {k : Nat} {c : Char} {t u : Text} (hc : c ≠ blank) (h : Retyped k t u) :
      Retyped k (c :: t) (c :: u)

variable {j k : Nat} {s t u v : Text}

theorem Retyped.le_count (h : Retyped k t u) : k ≤ t.count blank := by
  induction h with
  | rest => exact Nat.zero_le _
  | typed _ _ ih =>
    rw [List.count_cons_self]
    exact Nat.succ_le_succ ih
  | kept hc _ ih => rwa [List.count_cons_of_ne hc]

theorem blank_notMem_of_mem_typings {f : Text} (hf : f ∈ typings) : blank ∉ f := by
  have h : ∀ f ∈ typings, blank ∉ f := by decide
  exact h f hf

theorem ne_nil_of_mem_typings {f : Text} (hf : f ∈ typings) : f ≠ [] := by
  have h : ∀ f ∈ typings, f ≠ [] := by decide
  exact h f hf

theorem isMarker_of_mem_typings {f : Text} (hf : f ∈ typings) : ∀ c ∈ f, isMarker c := by
  have h : ∀ f ∈ typings, ∀ c ∈ f, isMarker c := by simp [typings, isMarker]
  exact h f hf

/-- Nothing but markers comes into a gloss. -/
theorem Retyped.mem_or_isMarker (h : Retyped k t u) {c : Char} (hc : c ∈ u) :
    c ∈ t ∨ isMarker c := by
  induction h with
  | rest => exact Or.inl hc
  | typed hf _ ih =>
    rcases List.mem_append.1 hc with hc | hc
    · exact Or.inr (isMarker_of_mem_typings hf c hc)
    · exact (ih hc).imp_left (List.mem_cons_of_mem _)
  | kept _ _ ih =>
    rcases List.mem_cons.1 hc with rfl | hc
    · exact Or.inl List.mem_cons_self
    · exact (ih hc).imp_left (List.mem_cons_of_mem _)

/-- What stands before the first blank is left as it is. -/
theorem Retyped.exists_eq_append {f : Text} (hf : blank ∉ f) (h : Retyped k (f ++ t) u) :
    ∃ v, u = f ++ v ∧ Retyped k t v := by
  induction f generalizing u with
  | nil => exact ⟨u, rfl, h⟩
  | cons c f ih =>
    obtain ⟨hc, hf⟩ := not_or.1 (mt List.mem_cons.2 hf)
    cases h with
    | rest => exact ⟨t, rfl, .rest⟩
    | typed => exact absurd rfl hc
    | kept _ h =>
      obtain ⟨v, rfl, hv⟩ := ih hf h
      exact ⟨v, rfl, hv⟩

/-- A part of a gloss that holds no blanks is left as it is. -/
theorem Retyped.infix_of_blank_notMem {f : Text} (hf : blank ∉ f) (h : Retyped k t u)
    (hpart : f <:+: t) : f <:+: u := by
  obtain ⟨s, r, rfl⟩ := hpart
  rw [List.append_assoc] at h
  induction s generalizing k u with
  | nil =>
    obtain ⟨v, rfl, -⟩ := h.exists_eq_append hf
    exact List.infix_append_left
  | cons c s ih =>
    cases h with
    | rest => exact ⟨c :: s, r, by simp⟩
    | typed _ h => exact (ih h).trans List.infix_append_right
    | kept _ h => exact List.infix_cons (ih h)

/-- A gloss is typed part by part. -/
theorem Retyped.exists_of_append (h : Retyped k (s ++ t) u) :
    ∃ i j v w, u = v ++ w ∧ Retyped i s v ∧ Retyped j t w := by
  induction s generalizing k u with
  | nil => exact ⟨0, k, [], u, rfl, .rest, h⟩
  | cons c s ih =>
    cases h with
    | rest => exact ⟨0, 0, c :: s, t, rfl, .rest, .rest⟩
    | @typed _ f _ _ hf h =>
      obtain ⟨i, j, v, w, rfl, hv, hw⟩ := ih h
      exact ⟨i + 1, j, f ++ v, w, (List.append_assoc f v w).symm, .typed hf hv, hw⟩
    | kept hc h =>
      obtain ⟨i, j, v, w, rfl, hv, hw⟩ := ih h
      exact ⟨i, j, c :: v, w, rfl, .kept hc hv, hw⟩

theorem Retyped.append_right (h : Retyped k t u) (s : Text) : Retyped k (t ++ s) (u ++ s) := by
  induction h with
  | rest => exact .rest
  | typed hf _ ih =>
    rw [List.append_assoc]
    exact .typed hf ih
  | kept hc _ ih => exact .kept hc ih

theorem Retyped.prefix_of_prefix {f : Text} (hmarker : ∀ c ∈ f, isMarker c = false)
    (h : Retyped k t u) (hstart : f <+: u) : f <+: t := by
  induction h generalizing f with
  | rest => exact hstart
  | typed hm =>
    obtain ⟨d, m, rfl⟩ := List.exists_cons_of_ne_nil (ne_nil_of_mem_typings hm)
    cases f with
    | nil => exact List.nil_prefix
    | cons c f =>
      obtain ⟨rfl, -⟩ := List.cons_prefix_cons.1 hstart
      have hc := isMarker_of_mem_typings hm c List.mem_cons_self
      rw [hmarker c List.mem_cons_self] at hc
      cases hc
  | kept _ _ ih =>
    cases f with
    | nil => exact List.nil_prefix
    | cons d f =>
      obtain ⟨rfl, htail⟩ := List.cons_prefix_cons.1 hstart
      exact List.cons_prefix_cons.2 ⟨rfl, ih (List.forall_mem_cons.1 hmarker).2 htail⟩

/-- What holds neither blanks nor markers stands in a typed gloss where it stands in the gloss. -/
theorem Retyped.infix_iff {f : Text} (hblank : blank ∉ f) (hmarker : ∀ c ∈ f, isMarker c = false)
    (h : Retyped k t u) : f <:+: u ↔ f <:+: t := by
  refine ⟨fun hpart => ?_, h.infix_of_blank_notMem hblank⟩
  induction h with
  | rest => exact hpart
  | @typed _ m _ _ hm _ ih =>
    have hm : ∀ c ∈ m, c ∉ f := by
      intro c hc hcf
      have hmark := isMarker_of_mem_typings hm c hc
      rw [hmarker c hcf] at hmark
      cases hmark
    exact List.infix_cons (ih (Text.infix_of_infix_append hm hpart))
  | kept hc h ih =>
    rcases List.infix_cons_iff.1 hpart with hprefix | hpart
    · exact (Retyped.prefix_of_prefix hmarker (.kept hc h) hprefix).isInfix
    · exact List.infix_cons (ih hpart)

/-- A gloss that is typed further has more of its first blanks typed. -/
theorem Retyped.trans (h : Retyped j t u) (h' : Retyped k u v) : Retyped (j + k) t v := by
  induction h generalizing v with
  | rest => rwa [Nat.zero_add]
  | typed hf _ ih =>
    obtain ⟨v, rfl, hv⟩ := h'.exists_eq_append (blank_notMem_of_mem_typings hf)
    rw [Nat.add_right_comm]
    exact .typed hf (ih hv)
  | @kept _ c t u hc _ ih =>
    have hc' : blank ∉ [c] := by simpa using Ne.symm hc
    obtain ⟨v, rfl, hv⟩ := h'.exists_eq_append hc'
    exact .kept hc (ih hv)

theorem retyped_fillBlanks {fs : List Text} (hfs : ∀ f ∈ fs, f ∈ typings) (t : Text) :
    Retyped (min fs.length (t.count blank)) t (fillBlanks fs t) := by
  fun_induction fillBlanks fs t with
  | case1 t =>
    rw [List.length_nil, Nat.zero_min]
    exact .rest
  | case2 fs =>
    rw [List.count_nil, Nat.min_zero]
    exact .rest
  | case3 f fs t ih =>
    obtain ⟨hf, hfs⟩ := List.forall_mem_cons.1 hfs
    rw [List.length_cons, List.count_cons_self, Nat.add_min_add_right]
    exact .typed hf (ih hfs)
  | case4 f fs c t hc ih =>
    rw [List.count_cons_of_ne hc]
    exact .kept hc (ih hfs)

theorem mem_typings_of_isMarker {m : Char} (hm : isMarker m) (hopening : m ≠ '<') :
    [m] ∈ typings := by
  simp only [isMarker, Bool.or_eq_true, decide_eq_true_eq] at hm
  rcases hm with ((rfl | rfl) | rfl) | rfl
  · decide
  · decide
  · exact absurd rfl hopening
  · decide

/-- No blank is filled with the opening half of an infix slot alone. -/
theorem mem_typings_of_mem_fillers {trace : List Text}
    (htrace : ∀ f ∈ trace, ∃ m, isMarker m ∧ f = [m]) : ∀ f ∈ fillers trace, f ∈ typings := by
  fun_induction fillers trace with
  | case1 => exact List.forall_mem_nil _
  | case2 => decide
  | case3 _ _ ih =>
    obtain ⟨-, htrace⟩ := List.forall_mem_cons.1 htrace
    exact List.forall_mem_cons.2 ⟨by decide, ih (List.forall_mem_cons.1 htrace).2⟩
  | case4 f trace hlast hopening ih =>
    obtain ⟨⟨m, hm, rfl⟩, hrest⟩ := List.forall_mem_cons.1 htrace
    refine List.forall_mem_cons.2 ⟨mem_typings_of_isMarker hm ?_, ih hrest⟩
    rintro rfl
    cases trace with
    | nil => exact hlast rfl rfl
    | cons f trace => exact hopening f trace rfl rfl

/-- A gloss is retyped by the entries of a trace, if they are markers. -/
theorem retyped_fill {trace : List Char} (htrace : ∀ m ∈ trace, isMarker m) (gloss : Text) :
    ∃ k, Retyped k gloss (fill (trace.map ([·])) gloss) :=
  ⟨_, retyped_fillBlanks
    (mem_typings_of_mem_fillers (List.forall_mem_map.2 fun m hm => ⟨m, htrace m hm, rfl⟩)) gloss⟩

end Gloss

end Inflection
