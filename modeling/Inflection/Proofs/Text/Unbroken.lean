import Inflection.Proofs.Text.Cut
import Inflection.Proofs.Text.Trimmed
import Inflection.Text.Basic

/-!
# Texts without line breaks

The lines of a text hold no line breaks, and lines without any can be written one below the other
and be read again.  A text that is made of parts of unbroken texts is unbroken itself.
-/

namespace Inflection

namespace Text

/-- No character of a text ends a line, however line breaks are written. -/
def Unbroken (t : Text) : Prop := ∀ c ∈ t, isBreak c = false ∧ c ≠ '\r'

instance (t : Text) : Decidable (Unbroken t) :=
  List.decidableBAll (fun c => isBreak c = false ∧ c ≠ '\r') t

/-! ## Parts of texts -/

theorem Unbroken.subset {t u : Text} (h : Unbroken t) (hsub : u ⊆ t) : Unbroken u :=
  fun c hc => h c (hsub hc)

theorem unbroken_nil : Unbroken [] := List.forall_mem_nil _

theorem unbroken_append {t u : Text} : Unbroken (t ++ u) ↔ Unbroken t ∧ Unbroken u :=
  List.forall_mem_append

theorem unbroken_cons {c : Char} {t : Text} :
    Unbroken (c :: t) ↔ (isBreak c = false ∧ c ≠ '\r') ∧ Unbroken t := List.forall_mem_cons

theorem unbroken_flatten {ts : List Text} : Unbroken ts.flatten ↔ ∀ t ∈ ts, Unbroken t := by
  simp only [Unbroken, List.forall_mem_flatten]

theorem Unbroken.intercalate {sep : Text} (hsep : Unbroken sep) {ts : List Text}
    (h : ∀ t ∈ ts, Unbroken t) : Unbroken (sep.intercalate ts) :=
  forall_mem_intercalate hsep h

theorem Unbroken.exchange {t : Text} (h : Unbroken t) : Unbroken (Text.exchange '_' ' ' t) := by
  refine List.forall_mem_map.2 fun c hc => ?_
  split_ifs
  · decide
  · exact h c hc

theorem subset_intercalate {t sep : Text} {ts : List Text} (h : t ∈ ts) :
    t ⊆ sep.intercalate ts := by
  induction ts with
  | nil => cases h
  | cons u ts ih =>
    cases ts with
    | nil =>
      rw [List.intercalate_singleton, List.mem_singleton.1 h]
      exact List.Subset.refl u
    | cons v ts =>
      rw [List.intercalate_cons_cons]
      rcases List.mem_cons.1 h with rfl | h
      · exact fun c hc => by simp [hc]
      · exact fun c hc => by simp [ih h hc]

theorem trim_subset (t : Text) : t.trim ⊆ t := by
  obtain ⟨s, u, ht, -, -⟩ := exists_eq_append_trim t
  exact List.IsInfix.subset ⟨s, u, ht.symm⟩

theorem chomp_subset (t : Text) : t.chomp ⊆ t := by
  obtain ⟨u, ht, -⟩ := exists_eq_append_dropRight (fun c => c = '\r' || c = '\n') t
  exact List.IsPrefix.subset ⟨u, ht.symm⟩

theorem subset_of_mem_splitOn {c : Char} {t u : Text} (h : u ∈ t.splitOn c) : u ⊆ t :=
  (infix_of_mem_splitOnP h).1.subset

theorem subset_of_mem_split {sep t u : Text} (h : u ∈ split sep t) : u ⊆ t := by
  fun_induction split sep t with
  | case1 t => exact List.mem_singleton.1 h ▸ List.Subset.refl t
  | case2 t => exact List.mem_singleton.1 h ▸ List.Subset.refl t
  | case3 t before after hcut _ _ ih =>
    rw [eq_append_of_cut? hcut]
    rcases List.mem_cons.1 h with rfl | h
    · exact fun c hc => by simp [hc]
    · exact fun c hc => by simp [ih h hc]

theorem Unbroken.replace {old new t : Text} (hnew : Unbroken new) (ht : Unbroken t) :
    Unbroken (replace old new t) :=
  hnew.intercalate fun _ hu => ht.subset (subset_of_mem_split hu)

/-! ## Lines -/

theorem return_notMem_unifyBreaks (t : Text) : '\r' ∉ t.unifyBreaks := by
  fun_induction unifyBreaks t with
  | case1 => exact List.not_mem_nil
  | case2 _ ih => simp [ih]
  | case3 _ _ ih => simp [ih]
  | case4 c t _ hc ih => simp [ih, Ne.symm hc]

theorem unifyBreaks_eq_self {t : Text} (h : '\r' ∉ t) : t.unifyBreaks = t := by
  fun_induction unifyBreaks t with
  | case1 => rfl
  | case2 => simp at h
  | case3 => simp at h
  | case4 c t _ _ ih => rw [ih fun hmem => h (List.mem_cons_of_mem c hmem)]

theorem isBreak_of_mem_lines {t l : Text} (h : l ∈ t.lines) :
    ∀ c ∈ l, isBreak c = false ∧ c ∈ t := by
  induction t generalizing l with
  | nil => cases h
  | cons d t ih =>
    rw [lines] at h
    split_ifs at h with hd
    · rcases List.mem_cons.1 h with rfl | h
      · exact List.forall_mem_nil _
      · exact fun c hc => (ih h c hc).imp_right (List.mem_cons_of_mem d)
    · replace hd := eq_false_of_ne_true hd
      rcases hlines : lines t with _ | ⟨l', ls⟩
      · rw [hlines] at h
        rw [List.mem_singleton.1 h]
        exact List.forall_mem_singleton.2 ⟨hd, List.mem_cons_self⟩
      · rw [hlines] at h ih
        rcases List.mem_cons.1 h with rfl | h
        · refine List.forall_mem_cons.2 ⟨⟨hd, List.mem_cons_self⟩, fun c hc => ?_⟩
          exact (ih List.mem_cons_self c hc).imp_right (List.mem_cons_of_mem d)
        · intro c hc
          exact (ih (List.mem_cons_of_mem l' h) c hc).imp_right (List.mem_cons_of_mem d)

/-- The lines of a text are unbroken. -/
theorem unbroken_of_mem_lines {t l : Text} (h : l ∈ t.unifyBreaks.lines) : Unbroken l := by
  intro c hc
  obtain ⟨hbreak, hmem⟩ := isBreak_of_mem_lines h c hc
  refine ⟨hbreak, ?_⟩
  rintro rfl
  exact return_notMem_unifyBreaks t hmem

/-- A line feed ends an unbroken line. -/
theorem lines_append_break {l : Text} (h : Unbroken l) (t : Text) :
    (l ++ '\n' :: t).lines = l :: t.lines := by
  induction l with
  | nil => rfl
  | cons c l ih =>
    obtain ⟨⟨hc, -⟩, hl⟩ := unbroken_cons.1 h
    rw [List.cons_append, lines, if_neg (ne_true_of_eq_false hc), ih hl]
    rfl

/-- Lines that are unbroken are read as they were written. -/
theorem lines_unlines {ls : List Text} (h : ∀ l ∈ ls, Unbroken l) :
    (unlines ls).unifyBreaks.lines = ls := by
  have hreturn : '\r' ∉ unlines ls := by
    rw [unlines, List.mem_flatMap]
    rintro ⟨l, hl, hmem⟩
    rcases List.mem_append.1 hmem with hmem | hmem
    · exact (h l hl _ hmem).2 rfl
    · exact absurd hmem (by decide)
  rw [unifyBreaks_eq_self hreturn]
  clear hreturn
  induction ls with
  | nil => rfl
  | cons l ls ih =>
    obtain ⟨hl, hls⟩ := List.forall_mem_cons.1 h
    rw [unlines, List.flatMap_cons, List.append_assoc, List.singleton_append, ← unlines,
      lines_append_break hl, ih hls]

end Text

end Inflection
