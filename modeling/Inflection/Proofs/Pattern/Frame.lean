import Inflection.Proofs.Pattern.BudgetLaw

/-!
# What a search leaves as it was

Bindings and trace are shared by all branches of a search, and no branch takes back what another one
has written.  None needs to: `Pattern.searchAt_frame` says that a search writes nothing unless it
succeeds, be it that it fails or that it stops short at any visit, and that it writes the moves of
one path then, each of which is made by an element of the pattern.

That nothing is written early holds of paying for visits, which goes on with the bindings and the
trace as they are.  That nothing is written but moves of the elements holds of each combinator of
explorations, and by induction on the pattern of all explorations for it.
-/

namespace Inflection

namespace Exploration

variable {δ ε : Type}

/-! ## Visits write nothing -/

section

variable (giveUp : Limit → ε) (depart : δ → ε) (b : Budget)

/-- What becomes of a search while it pays for visits depends on the steps and the depth alone.  If
it is given up, the bindings and the trace are what they were, and so they are if it goes on. -/
theorem pay_frame (ds : List Nat) (steps depth : Nat) :
    (∃ limit steps' depth', ∀ a bindings trace,
        pay giveUp b ds a { steps, depth, bindings, trace } =
          (.error (giveUp limit), { steps := steps', depth := depth', bindings, trace })) ∨
      ∀ a bindings trace, pay giveUp b ds a { steps, depth, bindings, trace } =
        a { steps := steps + ds.length, depth, bindings, trace } := by
  induction ds generalizing steps with
  | nil => exact Or.inr fun _ _ _ => rfl
  | cons d ds ih =>
    by_cases hs : b.maxSteps < (steps + 1 : Nat)
    · refine Or.inl ⟨.steps b.maxSteps, steps + 1, depth, fun a bindings trace => ?_⟩
      simp only [pay, if_pos hs]
    by_cases hd : b.maxDepth < (depth + d : Nat)
    · refine Or.inl ⟨.depth b.maxDepth, steps + 1, depth + 1, fun a bindings trace => ?_⟩
      simp only [pay, if_neg hs, if_pos hd]
    have hpay (a : SearchOr ε) (bindings : Bindings) (trace : List Char) :
        pay giveUp b (d :: ds) a { steps, depth, bindings, trace } =
          pay giveUp b ds a { steps := steps + 1, depth, bindings, trace } := by
      simp only [pay, if_neg hs, if_neg hd]
    simp only [hpay, List.length_cons, Nat.add_comm ds.length, ← Nat.add_assoc]
    exact ih (steps + 1)

/-- The moves of an exploration that does not succeed are none. -/
theorem moves_eq_nil {e : Exploration δ} (h : e.answer depart ≠ .ok true) : e.moves = [] := by
  obtain ⟨o, ds⟩ := e
  rcases o with d | _ | ms
  · rfl
  · rfl
  · exact absurd rfl h

/-- Under a budget, an exploration comes to the same whatever bindings and trace it finds, and adds
its moves to these, or nothing if it does not succeed. -/
theorem under_frame (e : Exploration δ) (steps depth : Nat) :
    ∃ answer steps' depth' ms, (answer ≠ .ok true → ms = []) ∧ (∀ m ∈ ms, m ∈ e.moves) ∧
      ∀ bindings trace, under giveUp depart b e { steps, depth, bindings, trace } =
        (answer,
          { steps := steps'
            depth := depth'
            bindings := boundBy ms bindings
            trace := markersOf ms ++ trace }) := by
  rcases pay_frame giveUp b e.depths steps depth with ⟨limit, steps', depth', h⟩ | h
  · exact ⟨.error (giveUp limit), steps', depth', [], fun _ => rfl, List.forall_mem_nil _, h _⟩
  · refine ⟨e.answer depart, steps + e.depths.length, depth, e.moves, moves_eq_nil depart,
      fun _ hm => hm, fun bindings trace => ?_⟩
    rw [under, h, settle_eq]

end

/-! ## The moves of explorations -/

/-- Each move by which an exploration succeeds, if it does, has a property. -/
def Only (P : Move → Prop) (e : Exploration δ) : Prop := ∀ m ∈ e.moves, P m

variable {P : Move → Prop} {a a' : Exploration δ}

theorem only_succeed : Only P (succeed : Exploration δ) := List.forall_mem_nil _

theorem only_fail : Only P (fail : Exploration δ) := List.forall_mem_nil _

theorem only_leave (d : δ) : Only P (leave d) := List.forall_mem_nil _

theorem Only.visit (h : a.Only P) : a.visit.Only P := h

theorem Only.orElse (h : a.Only P) (h' : a'.Only P) : (a.orElse a').Only P := by
  obtain ⟨o, ds⟩ := a
  rcases o with d | _ | ms
  · exact h
  · exact h'
  · exact h

theorem Only.andThen {m : Move} (hm : P m) (h : a.Only P) : (a.andThen m).Only P := by
  obtain ⟨o, ds⟩ := a
  rcases o with d | _ | ms
  · exact h
  · exact h
  · exact List.forall_mem_cons.2 ⟨hm, h⟩

theorem Only.guarded {p : Bool} (h : p → a.Only P) : (a.guarded p).Only P := by
  cases p with
  | false => exact only_fail
  | true => exact h rfl

theorem Only.widen {a : Exploration Empty} (h : a.Only P) : (a.widen : Exploration δ).Only P := by
  obtain ⟨o, ds⟩ := a
  rcases o with d | _ | ms
  · exact d.elim
  · exact h
  · exact h

theorem only_anyOf {f : Nat → Text → Exploration δ} {as : List Text} (i : Nat)
    (h : ∀ j a, as[j]? = some a → (f (i + j) a).Only P) : (anyOf f i as).Only P := by
  induction as generalizing i with
  | nil => exact only_fail
  | cons a as ih =>
    refine Only.orElse (h 0 a rfl) (ih (i + 1) fun j a' ha' => ?_)
    rw [Nat.add_right_comm, Nat.add_assoc]
    exact h (j + 1) a' ha'

variable {next : Text → Exploration δ}

theorem only_spread {move : Text → Move} (hnext : ∀ t, (next t).Only P)
    (hmove : ∀ taken, P (move taken)) (t : Text) : (spread next move t).Only P := by
  induction t generalizing move with
  | nil => exact (hnext []).andThen (hmove [])
  | cons c t ih =>
    exact ((hnext (c :: t)).andThen (hmove [])).orElse (ih fun taken => hmove (c :: taken))

theorem only_finish (t : Text) : (finish t : Exploration δ).Only P := by
  induction t with
  | nil => exact only_succeed.visit
  | cons c t ih => exact (Only.guarded fun _ => ih).visit

/-! ### Elements -/

theorem only_literal {m : Char} (he : ∀ move, (Element.literal m).Makes move → P move)
    (hnext : ∀ t, (next t).Only P) (t : Text) : (literal next m t).Only P := by
  induction t with
  | nil => exact only_fail.visit
  | cons c t ih =>
    refine Only.visit (.orElse (.guarded fun h => ?_)
      (.orElse (.guarded fun h => ?_) (.guarded fun h => ?_)))
    · exact (hnext _).andThen (he _ (.stand (Bool.and_eq_true_iff.1 h).2))
    · obtain rfl : c = m := of_decide_eq_true h
      exact (hnext t).andThen (he _ .direct)
    · exact ih.andThen (he _ (.skip h))

theorem only_choice {e : Element} {n : Text} {as : List Text}
    (hname : e.alternatives? = some (n, as)) (he : ∀ move, e.Makes move → P move)
    (hnext : ∀ t, (next t).Only P) {otherwise : Text → Exploration δ}
    (ho : ∀ t, (otherwise t).Only P) (canTake : Text → Text → Bool) (t : Text) :
    (choice canTake next n as otherwise t).Only P := by
  induction t with
  | nil => exact (ho []).visit
  | cons c t ih =>
    refine Only.visit (.orElse (only_anyOf 0 fun i a ha => .guarded fun _ => ?_)
      (.orElse (.guarded fun h => ?_) (ho (c :: t))))
    · rw [Nat.zero_add]
      exact (hnext _).andThen (he _ (.alternative hname ha))
    · exact ih.andThen (he _ (.skip h))

end Exploration

open Exploration

namespace Element

variable {P : Move → Prop} {next : Text → Exploration Empty} {e : Element}

theorem only_explore (he : ∀ m, e.Makes m → P m) (hnext : ∀ t, (next t).Only P) (t : Text) :
    (e.explore next t).Only P := by
  cases e with
  | literal c => exact only_literal he hnext t
  | wildcard n => exact (only_spread hnext (fun _ => he _ .run) t).visit
  | choice n as => exact only_choice rfl he hnext (fun _ => only_fail) _ t
  | «optional» n as =>
    exact only_choice rfl he hnext (fun u => (hnext u).andThen (he _ .nothing)) _ t

theorem only_exploreRound (he : ∀ m, e.Makes m → P m) (hnext : ∀ t, (next t).Only P)
    (whole t : Text) : (e.exploreRound whole next t).Only P := by
  cases e with
  | literal c => exact only_literal he hnext t
  | wildcard n => exact (only_spread hnext (fun _ => he _ .run) t).visit
  | choice n as => exact only_choice rfl he hnext (fun _ => only_fail) _ t
  | «optional» n as =>
    exact only_choice rfl he hnext (fun u => (hnext u).andThen (he _ .nothing)) _ t

end Element

namespace Pattern

variable {P : Move → Prop} {p : Pattern}

theorem only_explore (hp : ∀ e ∈ p, ∀ m, e.Makes m → P m) (t : Text) : (p.explore t).Only P := by
  induction p generalizing t with
  | nil => exact only_finish t
  | cons e p ih =>
    obtain ⟨he, hp⟩ := List.forall_mem_cons.1 hp
    exact Element.only_explore he (ih hp) t

theorem only_exploreRound (hp : ∀ e ∈ p, ∀ m, e.Makes m → P m) (whole t : Text) :
    (p.exploreRound whole t).Only P := by
  induction p generalizing t with
  | nil => exact only_finish t
  | cons e p ih =>
    obtain ⟨he, hp⟩ := List.forall_mem_cons.1 hp
    exact Element.only_exploreRound he (ih hp) whole t

theorem only_exploreBeyond (hp : ∀ e ∈ p, ∀ m, e.Makes m → P m) : p.exploreBeyond.Only P := by
  induction p with
  | nil => exact only_succeed.visit
  | cons e p ih =>
    obtain ⟨he, hrest⟩ := List.forall_mem_cons.1 hp
    cases e with
    | «optional» n as => exact ((ih hrest).andThen (he _ .nothing)).visit
    | _ => exact only_fail.visit

theorem only_exploreBefore (hp : ∀ e ∈ p, ∀ m, e.Makes m → P m) (whole : Text) (gap : Nat) :
    (p.exploreBefore whole gap).Only P := by
  induction p generalizing gap with
  | nil => exact (only_leave _).visit
  | cons e p ih =>
    obtain ⟨he, hrest⟩ := List.forall_mem_cons.1 hp
    -- What follows an alternative is read before the text or in it.
    have hnext (taken : Nat) :
        (if taken < gap then exploreBefore whole p (gap - taken)
          else widen (exploreRound whole p (whole.drop (taken - gap) ++ whole))).Only P := by
      split
      next => exact ih hrest _
      next => exact (only_exploreRound hrest whole _).widen
    cases e with
    | literal c => exact (only_leave _).visit
    | wildcard n => exact ((ih hrest gap).andThen (he _ .run)).visit
    | choice n as | «optional» n as =>
      refine Only.visit (.orElse (only_anyOf 0 fun i a ha => .guarded fun _ => ?_) (only_leave _))
      rw [Nat.zero_add]
      exact (hnext a.length).andThen (he _ (.alternative rfl ha))

/-- An exploration from any position succeeds by moves of the elements. -/
theorem exists_makes_of_mem_moves (p : Pattern) (t : Text) (start : Int) :
    ∀ m ∈ (p.exploreAt t start).moves, ∃ e ∈ p, e.Makes m := by
  have hp : ∀ e ∈ p, ∀ m, e.Makes m → ∃ e ∈ p, e.Makes m := fun e he m hm => ⟨e, he, hm⟩
  cases start with
  | ofNat n =>
    rw [exploreAt, exploreFrom]
    split
    next => exact (only_explore hp _).widen
    next => exact (only_exploreBeyond hp).widen
  | negSucc n =>
    rw [exploreAt]
    split
    next => exact (only_exploreRound hp t _).widen
    next => exact only_exploreBefore hp t _

end Pattern

namespace Pattern

/-- What a search comes to depends on the steps and the depth that it starts with, and so do the
moves that it writes to whatever bindings and trace it finds. -/
theorem exists_searchAt_eq (b : Budget) (p : Pattern) (t : Text) (start : Int) (steps depth : Nat) :
    ∃ answer steps' depth' moves, (answer ≠ .ok true → moves = []) ∧
      (∀ m ∈ moves, ∃ e ∈ p, e.Makes m) ∧
      ∀ bindings trace, p.searchAt b t start { steps, depth, bindings, trace } =
        (answer,
          { steps := steps'
            depth := depth'
            bindings := boundBy moves bindings
            trace := markersOf moves ++ trace }) := by
  obtain ⟨answer, steps', depth', moves, hnone, hmem, hsearch⟩ :=
    under_frame Search.Halt.limit .outside b (p.exploreAt t start) steps depth
  rw [← searchAt_eq_under] at hsearch
  exact ⟨answer, steps', depth', moves, hnone,
    fun m hm => exists_makes_of_mem_moves p t start m (hmem m hm), hsearch⟩

/-- **A search leaves no mark unless it succeeds.**  From any position, within any budget of which
any part is used up, a search that fails, is given up at any visit, or leaves the text, leaves the
bindings and the trace exactly as they were.  One that succeeds writes moves of the elements of the
pattern: all bindings keep their places, and their values but for names of the pattern, and the
trace is what it was behind some markers.  What the search answers, and what it costs, does not
depend on the bindings and the trace that it finds. -/
theorem searchAt_frame (b : Budget) (p : Pattern) (t : Text) (start : Int) (s : Progress) :
    let found := p.searchAt b t start s
    (found.1 ≠ .ok true → found.2.bindings = s.bindings ∧ found.2.trace = s.trace) ∧
    (found.1 = .ok true →
      (∃ moves, (∀ m ∈ moves, ∃ e ∈ p, e.Makes m) ∧
        found.2.bindings = boundBy moves s.bindings ∧
        found.2.trace = markersOf moves ++ s.trace) ∧
      s.bindings.keys <+: found.2.bindings.keys ∧
      (∀ n ∉ p.names, found.2.bindings.get? n = s.bindings.get? n) ∧
      s.trace <:+ found.2.trace) ∧
    ∀ bindings trace,
      let found' := p.searchAt b t start { s with bindings, trace }
      found'.1 = found.1 ∧ found'.2.steps = found.2.steps ∧ found'.2.depth = found.2.depth := by
  obtain ⟨steps, depth, bindings, trace⟩ := s
  obtain ⟨answer, steps', depth', moves, hnone, hmakes, hsearch⟩ :=
    exists_searchAt_eq b p t start steps depth
  intro found
  have hfound : found = _ := hsearch bindings trace
  rw [hfound]
  refine ⟨fun hanswer => ?_, fun _ => ?_, fun bindings' trace' => ?_⟩
  · rw [hnone hanswer]
    exact ⟨rfl, rfl⟩
  · refine ⟨⟨moves, hmakes, rfl, rfl⟩, keys_prefix_boundBy moves bindings, fun n hn => ?_,
      List.suffix_append _ _⟩
    refine get?_boundBy_of_ne (fun m hm b hb hname => hn ?_) bindings
    obtain ⟨e, he, hm⟩ := hmakes m hm
    exact mem_names.2 ⟨e, he, hname ▸ hm.bound b hb⟩
  · intro found'
    have hfound' : found' = _ := hsearch bindings' trace'
    rw [hfound']
    exact ⟨rfl, rfl, rfl⟩

end Pattern

end Inflection
