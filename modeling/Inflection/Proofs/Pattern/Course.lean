import Inflection.Proofs.Pattern.Exploration

/-!
# The course of the search for a pattern

`Pattern.exploreAt` is `Pattern.searchAt` with nothing to limit it.  The main statement is
`Pattern.searchAt_eq_under`: from every position, the search within a budget is the exploration
under that budget.  It holds for each kind of element alone, and then by induction on the pattern.
-/

namespace Inflection

open Exploration

/-! ## The explorations -/

/-- The exploration for one element, with the one for what follows it. -/
def Element.explore (next : Text → Exploration Empty) : Element → Text → Exploration Empty
  | .literal c => Exploration.literal next c
  | .wildcard n => fun t => visit (spread next (.run n) t)
  | .choice n as => Exploration.choice List.isPrefixOf next n as (fun _ => fail)
  | .optional n as =>
    Exploration.choice List.isPrefixOf next n as (fun t => andThen (next t) (.nothing n))

/-- The exploration for one element in a text that is read from a negative position on. -/
def Element.exploreRound (whole : Text) (next : Text → Exploration Empty) :
    Element → Text → Exploration Empty
  | .literal c => Exploration.literal next c
  | .wildcard n => fun t =>
    visit (spread next (fun run => .run n (Search.boundInRound whole t run)) t)
  | .choice n as =>
    Exploration.choice (Search.canTakeInRound whole) next n as (fun _ => fail)
  | .optional n as =>
    Exploration.choice (Search.canTakeInRound whole) next n as
      (fun t => andThen (next t) (.nothing n))

namespace Pattern

def explore : Pattern → Text → Exploration Empty
  | [] => finish
  | e :: p => e.explore (explore p)

def exploreBeyond : Pattern → Exploration Empty
  | [] => visit succeed
  | .optional n _ :: p => visit (andThen (exploreBeyond p) (.nothing n))
  | _ :: _ => visit fail

def exploreFrom (p : Pattern) (t : Text) (start : Nat) : Exploration Empty :=
  if start ≤ t.length then p.explore (t.drop start) else p.exploreBeyond

def exploreRound (whole : Text) : Pattern → Text → Exploration Empty
  | [] => finish
  | e :: p => e.exploreRound whole (exploreRound whole p)

def exploreBefore (whole : Text) : Pattern → (gap : Nat) → Exploration Text.Outside
  | [], gap => visit (leave (.ofDistance (whole.length + gap)))
  | .literal _ :: _, gap => visit (leave (.ofDistance (whole.length + gap)))
  | .wildcard n :: p, gap => visit (andThen (exploreBefore whole p gap) (.run n []))
  | .choice n as :: p, gap | .optional n as :: p, gap =>
    let next (taken : Nat) : Exploration Text.Outside :=
      if taken < gap then exploreBefore whole p (gap - taken)
      else widen (exploreRound whole p (whole.drop (taken - gap) ++ whole))
    visit
      (orElse
        (anyOf (fun i a =>
          guarded (a.isPrefixOf whole) (andThen (next a.length) (.alternative i n a))) 0 as)
        (leave (.ofDistance (whole.length + gap))))

/-- The search for a pattern from any position on, if nothing limits it. -/
def exploreAt (p : Pattern) (t : Text) : (start : Int) → Exploration Text.Outside
  | .ofNat n => widen (p.exploreFrom t n)
  | .negSucc n =>
    if n < t.length then widen (p.exploreRound t (t.drop (t.length - (n + 1)) ++ t))
    else p.exploreBefore t (n + 1 - t.length)

end Pattern

/-! ## Each search is its exploration under the budget -/

namespace Exploration

variable {δ : Type} (depart : δ → Limit) (b : Budget)

theorem under_finish (t : Text) :
    under id depart b (finish t : Exploration δ) = Search.finish b t := by
  induction t with
  | nil => exact under_visit id depart b succeed
  | cons c t ih =>
    rw [finish, under_visit, under_guarded, ih]
    rfl

theorem under_literal {next : Text → Exploration δ} {next' : Text → Search}
    (h : ∀ t, under id depart b (next t) = next' t) (m : Char) (t : Text) :
    under id depart b (literal next m t) = Search.literal b next' m t := by
  induction t with
  | nil => exact under_visit id depart b fail
  | cons c t ih =>
    have hdirect : under id depart b (andThen (next t) (.direct c)) = next' t := by
      rw [under_andThen_of_write_eq_id id depart b rfl, h]
    have hskip : under id depart b (andThen (literal next m t) (.skip c)) =
        Search.literal b next' m t := by
      rw [under_andThen_of_write_eq_id id depart b rfl, ih]
    rw [literal, under_visit, under_orElse, under_orElse, under_guarded, under_guarded,
      under_guarded, hdirect, hskip, under_andThen, h]
    rfl

theorem under_choice {canTake : Text → Text → Bool} {next : Text → Exploration δ}
    {next' : Text → Search} {name : Text} {as : List Text} {otherwise : Text → Exploration δ}
    {otherwise' : Text → Search} (h : ∀ t, under id depart b (next t) = next' t)
    (ho : ∀ t, under id depart b (otherwise t) = otherwise' t) (t : Text) :
    under id depart b (choice canTake next name as otherwise t) =
      Search.choice b canTake next' name as otherwise' t := by
  induction t with
  | nil =>
    rw [choice, under_visit, ho]
    rfl
  | cons c t ih =>
    have hskip : under id depart b (andThen (choice canTake next name as otherwise t) (.skip c)) =
        Search.choice b canTake next' name as otherwise' t := by
      rw [under_andThen_of_write_eq_id id depart b rfl, ih]
    have htake (i : Nat) (a : Text) :
        under id depart b (guarded (canTake a (c :: t))
          (andThen (next ((c :: t).drop a.length)) (.alternative i name a))) =
        Search.guarded (canTake a (c :: t))
          (Search.andThen (next' ((c :: t).drop a.length)) (Progress.bind name a)) := by
      rw [under_guarded, under_andThen, h]
      rfl
    rw [choice, under_visit, under_orElse, under_orElse, under_guarded, hskip, ho,
      under_anyOf id depart b htake]
    rfl

/-- Taking nothing where no alternative can be taken. -/
theorem under_nothing {next : Text → Exploration δ} {next' : Text → Search}
    (h : ∀ t, under id depart b (next t) = next' t) (n t : Text) :
    under id depart b (andThen (next t) (.nothing n)) =
      Search.andThen (next' t) (Progress.bind n []) := by
  rw [under_andThen, h]
  rfl

theorem widen_under (e : Exploration Empty) :
    Search.widen (under id Empty.elim b e) =
      under Search.Halt.limit Search.Halt.outside b (widen e : Exploration Text.Outside) := by
  obtain ⟨o, ds⟩ := e
  funext s
  simp only [under, widen]
  induction ds generalizing s with
  | nil =>
    rcases o with d | _ | ms
    · exact d.elim
    · rfl
    · rfl
  | cons d ds ih =>
    unfold Search.widen at ih ⊢
    simp only [pay]
    by_cases hs : b.maxSteps < (s.steps + 1 : Nat)
    · simp only [if_pos hs, id]
    · by_cases hd : b.maxDepth < (s.depth + d : Nat)
      · simp only [if_neg hs, if_pos hd, id]
      · simp only [if_neg hs, if_neg hd]
        exact ih _

end Exploration

namespace Element

variable (b : Budget) {next : Text → Exploration Empty} {next' : Text → Search}

theorem search_eq_under (h : ∀ t, under id Empty.elim b (next t) = next' t) (e : Element)
    (t : Text) : e.search b next' t = under id Empty.elim b (e.explore next t) := by
  cases e with
  | literal c => exact (under_literal Empty.elim b h c t).symm
  | wildcard n =>
    rw [explore, under_visit, under_spread id Empty.elim b h (fun _ => rfl)]
    rfl
  | choice n as =>
    exact (under_choice Empty.elim b h (fun _ => under_fail id Empty.elim b) t).symm
  | «optional» n as =>
    exact (under_choice Empty.elim b h (under_nothing Empty.elim b h n) t).symm

theorem searchRound_eq_under (whole : Text) (h : ∀ t, under id Empty.elim b (next t) = next' t)
    (e : Element) (t : Text) :
    e.searchRound b whole next' t = under id Empty.elim b (e.exploreRound whole next t) := by
  cases e with
  | literal c => exact (under_literal Empty.elim b h c t).symm
  | wildcard n =>
    rw [exploreRound, under_visit, under_spread id Empty.elim b h (fun _ => rfl)]
    rfl
  | choice n as =>
    exact (under_choice Empty.elim b h (fun _ => under_fail id Empty.elim b) t).symm
  | «optional» n as =>
    exact (under_choice Empty.elim b h (under_nothing Empty.elim b h n) t).symm

end Element

namespace Pattern

variable (b : Budget)

theorem search_eq_under (p : Pattern) (t : Text) :
    p.search b t = under id Empty.elim b (p.explore t) := by
  induction p generalizing t with
  | nil => exact (under_finish Empty.elim b t).symm
  | cons e p ih => exact e.search_eq_under b (fun t => (ih t).symm) t

theorem searchRound_eq_under (whole : Text) (p : Pattern) (t : Text) :
    p.searchRound b whole t = under id Empty.elim b (p.exploreRound whole t) := by
  induction p generalizing t with
  | nil => exact (under_finish Empty.elim b t).symm
  | cons e p ih => exact e.searchRound_eq_under b whole (fun t => (ih t).symm) t

theorem searchBeyond_eq_under (p : Pattern) :
    p.searchBeyond b = under id Empty.elim b p.exploreBeyond := by
  induction p with
  | nil => exact (under_visit id Empty.elim b succeed).symm
  | cons e p ih =>
    cases e with
    | «optional» n as =>
      rw [exploreBeyond, under_visit, under_andThen, ← ih]
      rfl
    | _ => exact (under_visit id Empty.elim b fail).symm

theorem searchFrom_eq_under (p : Pattern) (t : Text) (start : Nat) :
    p.searchFrom b t start = under id Empty.elim b (p.exploreFrom t start) := by
  unfold searchFrom exploreFrom
  split
  next => exact search_eq_under b p _
  next => exact searchBeyond_eq_under b p

theorem searchBefore_eq_under (whole : Text) (p : Pattern) (gap : Nat) :
    p.searchBefore b whole gap = under .limit .outside b (p.exploreBefore whole gap) := by
  induction p generalizing gap with
  | nil =>
    rw [exploreBefore, under_visit]
    rfl
  | cons e p ih =>
    have hnext (taken : Nat) :
        under .limit .outside b
          (if taken < gap then exploreBefore whole p (gap - taken)
            else widen (exploreRound whole p (whole.drop (taken - gap) ++ whole))) =
          if taken < gap then searchBefore b whole p (gap - taken)
            else Search.widen (searchRound b whole p (whole.drop (taken - gap) ++ whole)) := by
      split
      next => exact (ih _).symm
      next => rw [searchRound_eq_under, widen_under]
    have htake (n : Text) (i : Nat) (a : Text) :
        under .limit .outside b (guarded (a.isPrefixOf whole)
          (andThen (if a.length < gap then exploreBefore whole p (gap - a.length)
            else widen (exploreRound whole p (whole.drop (a.length - gap) ++ whole)))
            (.alternative i n a))) =
        Search.guarded (a.isPrefixOf whole)
          (Search.andThen (if a.length < gap then searchBefore b whole p (gap - a.length)
            else Search.widen (searchRound b whole p (whole.drop (a.length - gap) ++ whole)))
            (Progress.bind n a)) := by
      rw [under_guarded, under_andThen, hnext]
      rfl
    cases e with
    | literal c =>
      rw [exploreBefore, under_visit]
      rfl
    | wildcard n =>
      rw [exploreBefore, under_visit, under_andThen, ← ih]
      rfl
    | choice n as | «optional» n as =>
      rw [exploreBefore, under_visit, under_orElse, under_anyOf _ _ b (htake n)]
      rfl

/-- From every position, the search within a budget is the exploration under that budget. -/
theorem searchAt_eq_under (p : Pattern) (t : Text) (start : Int) :
    p.searchAt b t start = under .limit .outside b (p.exploreAt t start) := by
  cases start with
  | ofNat n => rw [searchAt, exploreAt, searchFrom_eq_under, widen_under]
  | negSucc n =>
    rw [searchAt, exploreAt]
    split
    next => rw [searchRound_eq_under, widen_under]
    next => exact searchBefore_eq_under b t p _

end Pattern

end Inflection
