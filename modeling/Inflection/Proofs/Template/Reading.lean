import Inflection.Proofs.Text.Cut
import Inflection.Template
import Mathlib.Data.List.Basic
import Mathlib.Data.List.TakeWhile

/-!
# Templates read and written in parts

An opening bracket ends whatever comes before it, so a template that is cut there reads as its two
parts, and it writes what the two write.

Reading templates reports each reference to a name that their pattern does not bind; writing them
reports each reference to a name without a value, and writes nothing for it.  Both go through the
templates in order, so all that can set the two apart is which names count as bound.
-/

namespace Inflection

namespace Template

theorem read_text {c : Char} (hc : c ≠ '[') (t : Text) :
    read (c :: t) =
      .text (c :: t.takeWhile (· != '[')) :: read (t.dropWhile (· != '[')) := by
  rw [read, if_neg hc]

/-- An opening bracket that starts a reference. -/
theorem read_closed {t rest : Text} (ht : t.dropWhile (!isBracket ·) = ']' :: rest) :
    read ('[' :: t) = .reference (t.takeWhile (!isBracket ·)) :: read rest := by
  rw [read, if_pos rfl]
  split
  next h =>
    cases ht.symm.trans h
    rfl
  next h => exact absurd ht (h _)

/-- An opening bracket that starts none. -/
theorem read_open {t : Text} (ht : ∀ rest, t.dropWhile (!isBracket ·) ≠ ']' :: rest) :
    read ('[' :: t) = .text ['['] :: read t := by
  rw [read, if_pos rfl]
  split
  next h => exact absurd h (ht _)
  next => rfl

/-- Brackets around a name that holds none are a reference to it. -/
theorem read_reference {n : Text} (hn : ∀ c ∈ n, isBracket c = false) (t : Text) :
    read ('[' :: n ++ ']' :: t) = .reference n :: read t := by
  have hp : ∀ c ∈ n, (!isBracket c) = true := fun c hc => by rw [hn c hc, Bool.not_false]
  have hdrop : (n ++ ']' :: t).dropWhile (!isBracket ·) = ']' :: t := by
    rw [List.dropWhile_append_of_pos hp]
    rfl
  have htake : (n ++ ']' :: t).takeWhile (!isBracket ·) = n := by
    rw [List.takeWhile_append_of_pos hp]
    exact List.append_nil n
  rw [List.cons_append, read_closed hdrop, htake]

/-- A template is read in two parts where a bracket opens. -/
theorem read_append (t u : Text) : read (t ++ '[' :: u) = read t ++ read ('[' :: u) := by
  fun_induction read t with
  | case1 => rfl
  | case2 t rest h _ ih =>
    obtain ⟨htake, hdrop⟩ := Text.takeWhile_append_cons (p := (!isBracket ·)) (c := '[') rfl t u
    rw [h, List.cons_append] at hdrop
    rw [List.cons_append, read_closed hdrop, htake, ih, List.cons_append]
  | case3 t h ih =>
    -- The bracket after `t` does not close the one before it.
    obtain ⟨-, hdrop⟩ := Text.takeWhile_append_cons (p := (!isBracket ·)) (c := '[') rfl t u
    have hopen : ∀ rest, (t ++ '[' :: u).dropWhile (!isBracket ·) ≠ ']' :: rest := by
      intro rest hrest
      rw [hdrop] at hrest
      rcases hr : t.dropWhile (!isBracket ·) with _ | ⟨c, r⟩
      · rw [hr] at hrest
        cases hrest
      · rw [hr] at hrest
        cases hrest
        exact h r hr
    rw [List.cons_append, read_open hopen, ih, List.cons_append]
  | case4 c t hc _ ih =>
    obtain ⟨htake, hdrop⟩ := Text.takeWhile_append_cons (p := (· != '[')) (c := '[') rfl t u
    rw [List.cons_append, read_text hc, htake, hdrop, ih, List.cons_append]

/-- No name that a template refers to holds brackets. -/
theorem isBracket_of_mem_references {n t : Text} (h : n ∈ (read t).references) :
    ∀ c ∈ n, isBracket c = false := by
  fun_induction read t with
  | case1 => cases h
  | case2 t rest _ _ ih =>
    rcases List.mem_cons.1 h with rfl | h
    · intro c hc
      have hall : (!isBracket c) = true := List.all_eq_true.1 List.all_takeWhile c hc
      rwa [Bool.not_eq_true'] at hall
    · exact ih h
  | case3 _ _ ih => exact ih h
  | case4 _ _ _ _ ih => exact ih h

/-- A run of a template stands in the text that the template is read from. -/
theorem subset_of_text_mem {run t : Text} (h : .text run ∈ read t) : run ⊆ t := by
  fun_induction read t with
  | case1 => cases h
  | case2 t rest hrest _ ih =>
    rcases List.mem_cons.1 h with h | h
    · cases h
    · have hsub : rest ⊆ t := by
        refine fun c hc => (List.dropWhile_sublist (!isBracket ·)).subset ?_
        rw [hrest]
        exact List.mem_cons_of_mem _ hc
      exact fun c hc => List.mem_cons_of_mem _ (hsub (ih h hc))
  | case3 t _ ih =>
    rcases List.mem_cons.1 h with h | h
    · cases h
      exact List.cons_subset_cons _ (List.nil_subset t)
    · exact fun c hc => List.mem_cons_of_mem _ (ih h hc)
  | case4 c t _ _ ih =>
    rcases List.mem_cons.1 h with h | h
    · cases h
      exact List.cons_subset_cons _ (List.takeWhile_sublist _).subset
    · exact fun d hd => List.mem_cons_of_mem _ ((List.dropWhile_sublist _).subset (ih h hd))

/-! ## What a template writes -/

variable (bindings : Bindings) (source : Text)

/-- What a template writes under bindings. -/
theorem value_expand_append (a b : Template) :
    (expand bindings source (a ++ b)).value =
      (expand bindings source a).value ++ (expand bindings source b).value := by
  simp [expand]

theorem value_expand_reference {n v : Text} (h : bindings.get? n = some v) (t : Template) :
    (expand bindings source (.reference n :: t)).value =
      v ++ (expand bindings source t).value := by
  simp [expand, expandPiece, h]

/-- A text without opening brackets writes itself. -/
theorem value_expand_read {t : Text} (ht : '[' ∉ t) :
    (expand bindings source (read t)).value = t := by
  cases t with
  | nil =>
    rw [read]
    rfl
  | cons c t =>
    obtain ⟨hc, ht⟩ := not_or.1 (mt List.mem_cons.2 ht)
    have hall : ∀ d ∈ t, (d != '[') = true := fun d hd => bne_iff_ne.2 (ne_of_mem_of_not_mem hd ht)
    rw [read_text (Ne.symm hc), List.takeWhile_eq_self_iff.2 hall, List.dropWhile_eq_nil_iff.2 hall,
      read]
    simp [expand, expandPiece]

end Template

/-! ## References to names that have no value -/

namespace Template

/-- References stray from a collection of names, in whatever order and how often these come. -/
theorem strays_congr {bound bound' : List Text} (h : ∀ n, n ∈ bound ↔ n ∈ bound')
    (ts : List Template) : strays bound ts = strays bound' ts := by
  simp only [strays, h]

theorem strays_flatMap (bound : List Text) (ts : List Template) :
    strays bound ts = ts.flatMap fun t => strays bound [t] := by
  simp only [strays, List.filter_flatMap, List.flatMap_singleton]

theorem reports_readAll (bound : List Text) (source : Text) (written : List Text) :
    (readAll bound source written).reports =
      (strays bound (written.map read)).map (⟨.unbound ·, source⟩) := by
  rw [readAll, Noted.reports_bind, Noted.reports_forM, Noted.reports_pure, List.append_nil]
  exact List.map_eq_flatMap.symm

/-- A piece is reported if it refers to a name without a value. -/
theorem reports_expandPiece (bindings : Bindings) (source : Text) (piece : Piece) :
    (expandPiece bindings source piece).reports =
      (strays bindings.keys [[piece]]).map (⟨.missing ·, source⟩) := by
  cases piece with
  | text t => rfl
  | reference n =>
    have hkey : n ∈ bindings.keys ↔ (bindings.get? n).isSome := Table.get?_isSome.symm
    unfold expandPiece
    dsimp only
    split
    next v hv => simp [strays, references, hkey, hv]
    next hv => simp [strays, references, hkey, hv]

theorem reports_expand (bindings : Bindings) (source : Text) (t : Template) :
    (expand bindings source t).reports =
      (strays bindings.keys [t]).map (⟨.missing ·, source⟩) := by
  have hpieces : strays bindings.keys [t] =
      t.flatMap fun piece => strays bindings.keys [[piece]] := by
    simp [strays, references, List.filterMap_eq_flatMap_toList, List.filter_flatMap]
  rw [expand, Noted.reports_map, Noted.reports_each, hpieces, List.map_flatMap]
  exact List.flatMap_congr fun piece _ => reports_expandPiece bindings source piece

/-- Writing templates reports the references to names without a value, in order. -/
theorem reports_each_expand (bindings : Bindings) (source : Text) (ts : List Template) :
    (Noted.each (expand bindings source) ts).reports =
      (strays bindings.keys ts).map (⟨.missing ·, source⟩) := by
  rw [Noted.reports_each, strays_flatMap, List.map_flatMap]
  exact List.flatMap_congr fun t _ => reports_expand bindings source t

end Template

end Inflection
