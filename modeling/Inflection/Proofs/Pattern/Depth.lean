import Inflection.Proofs.Pattern.BudgetLaw

/-!
# How deeply the visits of a search are nested

A visit leads to visits of what comes next in the pattern, or of the same element behind a marker
that it passes over.  Whatever else happens, each level below the first one uses up an element of
the pattern or a marker of the text, and neither the length of the text nor the alternatives count.
`Pattern.searchAt_depth` draws the conclusion for budgets: one that is as deep as the pattern has
places and what is read has markers is never exceeded in depth.

What is read from a negative position on is the end of the text and then all of it, so the markers
of the end count twice there; `Pattern.deepest_exceeds_end` is a search that needs both.
-/

namespace Inflection

/-- The end of a text from a position on.  A negative position counts from the end of the text. -/
def Text.endFrom (t : Text) : (start : Int) → Text
  | .ofNat n => t.drop n
  | .negSucc n => t.drop (t.length - (n + 1))

/-- How many markers there are in what is read from a position on: the end of the text and, from a
negative position, the whole text after it. -/
def Text.markersFrom (t : Text) (start : Int) : Nat :=
  (t.endFrom start).countP isMarker + if start < 0 then t.countP isMarker else 0

namespace Exploration

variable {δ : Type} {n : Nat} {a a' : Exploration δ}

/-- No visit is nested more deeply than `n`. -/
def Within (n : Nat) (e : Exploration δ) : Prop := ∀ d ∈ e.depths, d ≤ n

theorem within_succeed : (succeed : Exploration δ).Within n := List.forall_mem_nil _

theorem within_fail : (fail : Exploration δ).Within n := List.forall_mem_nil _

theorem within_leave (d : δ) : (leave d).Within n := List.forall_mem_nil _

theorem Within.mono {m : Nat} (h : a.Within m) (hmn : m ≤ n) : a.Within n :=
  fun d hd => Nat.le_trans (h d hd) hmn

theorem Within.visit (h : a.Within n) : a.visit.Within (n + 1) := by
  refine List.forall_mem_cons.2 ⟨Nat.le_add_left 1 n, List.forall_mem_map.2 ?_⟩
  intro d hd
  exact Nat.succ_le_succ (h d hd)

theorem Within.orElse (h : a.Within n) (h' : a'.Within n) : (a.orElse a').Within n := by
  obtain ⟨o, ds⟩ := a
  rcases o with d | _ | ms
  · exact h
  · exact List.forall_mem_append.2 ⟨h, h'⟩
  · exact h

theorem Within.andThen (h : a.Within n) (m : Move) : (a.andThen m).Within n := h

theorem Within.guarded {p : Bool} (h : p → a.Within n) : (a.guarded p).Within n := by
  cases p with
  | false => exact within_fail
  | true => exact h rfl

theorem Within.widen {a : Exploration Empty} (h : a.Within n) :
    (a.widen : Exploration δ).Within n := h

theorem within_anyOf {f : Nat → Text → Exploration δ} (h : ∀ i a, (f i a).Within n) (i : Nat)
    (as : List Text) : (anyOf f i as).Within n := by
  induction as generalizing i with
  | nil => exact within_fail
  | cons a as ih => exact (h i a).orElse (ih (i + 1))

theorem Within.deepest_le (h : a.Within n) (ha : a.depths ≠ []) : a.deepest ≤ n :=
  Int.ofNat_le.1 ((deepest_le_iff ha).2 fun d hd => Int.ofNat_le.2 (h d hd))

/-! ## One element

What comes after an element is nested at most `n` levels and one for each marker of what is left. -/

variable {next : Text → Exploration δ}

theorem within_finish (t : Text) : (finish t : Exploration δ).Within (1 + t.countP isMarker) := by
  induction t with
  | nil => exact within_succeed.visit
  | cons c t ih =>
    rw [finish, Nat.add_comm]
    refine Within.visit (.guarded fun hc => ?_)
    rw [List.countP_cons_of_pos hc, Nat.add_comm]
    exact ih

theorem within_drop (h : ∀ t, (next t).Within (n + t.countP isMarker)) (t : Text) (k : Nat) :
    (next (t.drop k)).Within (n + t.countP isMarker) :=
  (h _).mono (Nat.add_le_add_left ((List.drop_sublist k t).countP_le) n)

theorem within_spread (h : ∀ t, (next t).Within (n + t.countP isMarker)) (move : Text → Move)
    (t : Text) : (spread next move t).Within (n + t.countP isMarker) := by
  induction t generalizing move with
  | nil => exact (h []).andThen _
  | cons c t ih =>
    refine ((h (c :: t)).andThen _).orElse ((ih _).mono ?_)
    exact Nat.add_le_add_left (List.sublist_cons_self c t).countP_le n

theorem within_literal (h : ∀ t, (next t).Within (n + t.countP isMarker)) (m : Char) (t : Text) :
    (literal next m t).Within (n + 1 + t.countP isMarker) := by
  induction t with
  | nil => exact within_fail.visit
  | cons c t ih =>
    have htail := within_drop h (c :: t) 1
    rw [literal, Nat.add_right_comm]
    refine Within.visit (.orElse (.guarded fun _ => ?_)
      (.orElse (.guarded fun _ => ?_) (.guarded fun hc => ?_)))
    · split
      · exact (h (c :: t)).andThen _
      · exact htail.andThen _
    · exact htail.andThen _
    · rw [List.countP_cons_of_pos hc, ← Nat.add_assoc, Nat.add_right_comm]
      exact ih.andThen _

theorem within_choice (h : ∀ t, (next t).Within (n + t.countP isMarker))
    {otherwise : Text → Exploration δ} (ho : ∀ t, (otherwise t).Within (n + t.countP isMarker))
    (canTake : Text → Text → Bool) (name : Text) (as : List Text) (t : Text) :
    (choice canTake next name as otherwise t).Within (n + 1 + t.countP isMarker) := by
  induction t with
  | nil => exact (ho []).visit
  | cons c t ih =>
    rw [choice, Nat.add_right_comm]
    refine Within.visit (.orElse (within_anyOf (fun i a => .guarded fun _ => ?_) 0 as)
      (.orElse (.guarded fun hc => ?_) (ho (c :: t))))
    · exact (within_drop h (c :: t) a.length).andThen _
    · rw [List.countP_cons_of_pos hc, ← Nat.add_assoc, Nat.add_right_comm]
      exact ih.andThen _

end Exploration

open Exploration

namespace Element

variable {n : Nat} {next : Text → Exploration Empty}

theorem within_explore (h : ∀ t, (next t).Within (n + t.countP isMarker)) (e : Element)
    (t : Text) : (e.explore next t).Within (n + 1 + t.countP isMarker) := by
  cases e with
  | literal c => exact within_literal h c t
  | wildcard name =>
    rw [Nat.add_right_comm]
    exact (within_spread h _ t).visit
  | choice name as => exact within_choice h (fun _ => within_fail) _ name as t
  | «optional» name as => exact within_choice h (fun u => (h u).andThen _) _ name as t

theorem within_exploreRound (h : ∀ t, (next t).Within (n + t.countP isMarker)) (whole : Text)
    (e : Element) (t : Text) :
    (e.exploreRound whole next t).Within (n + 1 + t.countP isMarker) := by
  cases e with
  | literal c => exact within_literal h c t
  | wildcard name =>
    rw [Nat.add_right_comm]
    exact (within_spread h _ t).visit
  | choice name as => exact within_choice h (fun _ => within_fail) _ name as t
  | «optional» name as => exact within_choice h (fun u => (h u).andThen _) _ name as t

end Element

namespace Pattern

/-! ## Patterns -/

theorem within_explore (p : Pattern) (t : Text) :
    (p.explore t).Within (p.places + t.countP isMarker) := by
  induction p generalizing t with
  | nil => exact within_finish t
  | cons e p ih => exact e.within_explore ih t

theorem within_exploreRound (whole : Text) (p : Pattern) (t : Text) :
    (p.exploreRound whole t).Within (p.places + t.countP isMarker) := by
  induction p generalizing t with
  | nil => exact within_finish t
  | cons e p ih => exact e.within_exploreRound ih whole t

theorem within_exploreBeyond (p : Pattern) : p.exploreBeyond.Within p.places := by
  induction p with
  | nil => exact within_succeed.visit
  | cons e p ih =>
    cases e with
    | «optional» name as => exact (ih.andThen _).visit
    | _ => exact within_fail.visit.mono (Nat.le_add_left _ _)

/-- Before the first character, an alternative can lead to any place in the text, from which it is
read to its end and then once more. -/
theorem within_exploreBefore (whole : Text) (p : Pattern) (gap : Nat) :
    (exploreBefore whole p gap).Within
      (p.places + (whole.countP isMarker + whole.countP isMarker)) := by
  induction p generalizing gap with
  | nil => exact (within_leave _).visit.mono (Nat.le_add_right _ _)
  | cons e p ih =>
    have hplaces : places (e :: p) = places p + 1 := rfl
    have hnext (taken : Nat) :
        (if taken < gap then exploreBefore whole p (gap - taken)
          else widen (exploreRound whole p (whole.drop (taken - gap) ++ whole))).Within
          (places p + (whole.countP isMarker + whole.countP isMarker)) := by
      split
      next => exact ih _
      next =>
        refine (within_exploreRound whole p _).widen.mono (Nat.add_le_add_left ?_ _)
        rw [List.countP_append]
        exact Nat.add_le_add_right (List.drop_sublist _ whole).countP_le _
    rw [hplaces, Nat.add_right_comm]
    cases e with
    | literal c => exact (within_leave _).visit
    | wildcard name => exact ((ih gap).andThen _).visit
    | choice name as | «optional» name as =>
      refine Within.visit (.orElse (within_anyOf (fun i a => .guarded fun _ => ?_) 0 as)
        (within_leave _))
      exact (hnext a.length).andThen _

theorem within_exploreAt (p : Pattern) (t : Text) (start : Int) :
    (p.exploreAt t start).Within (p.places + t.markersFrom start) := by
  cases start with
  | ofNat n =>
    rw [exploreAt, exploreFrom]
    split
    next => exact (within_explore p _).widen
    next => exact (within_exploreBeyond p).widen.mono (Nat.le_add_right _ _)
  | negSucc n =>
    have hmarkers : t.markersFrom (Int.negSucc n) =
        (t.drop (t.length - (n + 1))).countP isMarker + t.countP isMarker := by
      rw [Text.markersFrom, if_pos (Int.negSucc_lt_zero n)]
      rfl
    rw [exploreAt, hmarkers]
    split
    next =>
      rw [← List.countP_append]
      exact (within_exploreRound t p _).widen
    next h =>
      have hall : t.drop (t.length - (n + 1)) = t := by
        rw [Nat.sub_eq_zero_of_le (by omega), List.drop_zero]
      rw [hall]
      exact within_exploreBefore t p _

/-- **How deep a search goes.**  From any position, visits are never nested more deeply than the
pattern has places and what is read has markers.  So a budget of that depth is never exceeded in
depth, and a search that can make all its visits comes to an answer. -/
theorem searchAt_depth (p : Pattern) (t : Text) (start : Int) :
    let run := p.exploreAt t start
    let bound := p.places + t.markersFrom start
    run.deepest ≤ bound ∧
    ∀ (maxSteps maxDepth : Int) (bindings : Bindings) (trace : List Char), bound ≤ maxDepth →
      let found := p.searchAt { maxSteps, maxDepth } t start { bindings, trace }
      (∀ depth, found.1 ≠ .error (.limit (.depth depth))) ∧
      (run.visits ≤ maxSteps →
        found.1 = run.answer .outside ∧ found.2.steps = run.visits ∧ found.2.depth = 0) := by
  intro run bound
  have hne : run.depths ≠ [] := exploreAt_depths_ne_nil p t start
  have hdeepest : run.deepest ≤ bound := (within_exploreAt p t start).deepest_le hne
  refine ⟨hdeepest, ?_⟩
  intro maxSteps maxDepth bindings trace hbound found
  have hdepth : (run.deepest : Int) ≤ maxDepth := Int.le_trans (Int.ofNat_le.2 hdeepest) hbound
  have hfound : found =
      under .limit .outside { maxSteps, maxDepth } run { bindings, trace } := by
    rw [← searchAt_eq_under]
  by_cases hsteps : (run.visits : Int) ≤ maxSteps
  · rw [under_of_le _ _ _ rfl rfl hne ⟨hsteps, hdepth⟩] at hfound
    rw [hfound]
    refine ⟨?_, fun _ => ⟨rfl, rfl, rfl⟩⟩
    intro depth
    unfold answer
    rcases run.outcome with d | found <;> rintro ⟨⟩
  · -- The visits are too many, but none of them is too deep.
    have hshallow : ∀ v, run.firstBelow? maxDepth = some v → maxSteps < v := by
      intro v hv
      obtain ⟨ds, d, ds', hds, -, hdeep, -⟩ := exists_append_of_firstBelow? hv
      have hd := (deepest_le_iff hne).1 hdepth d (hds ▸ List.mem_append_cons_self)
      omega
    rw [under_of_lt_steps _ _ _ rfl rfl hne (fun h => hsteps h.1) hshallow] at hfound
    rw [hfound]
    exact ⟨fun depth => by rintro ⟨⟩, fun h => absurd h hsteps⟩

/-- Markers that are passed over take a level each, so no budget of less depth is enough. -/
theorem searchAt_depth_example :
    let p : Pattern := [.literal 'a', .literal 'b']
    let t : Text := "a|||b".toList
    p.places + t.markersFrom 0 = 6 ∧
      (p.searchAt { maxDepth := 6 } t 0 {}).1 = .ok true ∧
      (p.searchAt { maxDepth := 5 } t 0 {}).1 = .error (.limit (.depth 5)) := by
  intro p t
  obtain ⟨-, hdepth⟩ := searchAt_depth p t 0
  obtain ⟨-, hanswer⟩ := hdepth 100000 6 [] [] (by decide)
  exact ⟨rfl, (hanswer (by decide)).1, rfl⟩

/-- A marker at the end of a text is met twice from the position before it: once at the end, and
once where the whole text is read after that. -/
theorem deepest_exceeds_end :
    let p : Pattern := []
    let t : Text := ['|']
    p.places + (t.endFrom (-1)).countP isMarker = 2 ∧
      (p.exploreAt t (-1)).deepest = 3 ∧
      (p.searchAt { maxDepth := 2 } t (-1) {}).1 = .error (.limit (.depth 2)) ∧
      ¬ ∀ (p : Pattern) (t : Text) (start : Int),
        (p.exploreAt t start).deepest ≤ p.places + (t.endFrom start).countP isMarker := by
  intro p t
  refine ⟨rfl, rfl, rfl, fun h => ?_⟩
  exact absurd (h p t (-1)) (by decide)

end Pattern

end Inflection
