import Inflection.Pattern.Round
import Inflection.Proofs.Pattern.Derivation

/-!
# Explorations: what a search does if nothing limits it

An exploration is the whole course of a search without a budget: what it comes to, and how deeply
each of its visits is nested, in order.  Each combinator of `Search` has one for explorations, which
only keeps this record, and `Pattern.exploreAt` puts them together as `Pattern.searchAt` does.

A search within a budget is the exploration cut short: `Exploration.under` pays for the visits one
by one and, if all of them can be afforded, comes to what the exploration comes to.  It is a
homomorphism for all combinators, so each search of this library is `under` its budget the
exploration of the same name.
-/

namespace Inflection

/-- The course of a search without limits, which may leave the text for the reasons in `δ`. -/
structure Exploration (δ : Type) where
  /-- The moves by which the search succeeds, if it does, or why it left the text. -/
  outcome : Except δ (Option (List Move))
  /-- How deeply each visit is nested, in order; a visit inside no other has depth one. -/
  depths : List Nat

namespace Exploration

variable {δ : Type}

/-! ## Combinators -/

def succeed : Exploration δ := ⟨.ok (some []), []⟩

def fail : Exploration δ := ⟨.ok none, []⟩

def leave (d : δ) : Exploration δ := ⟨.error d, []⟩

def orElse (a b : Exploration δ) : Exploration δ :=
  match a.outcome with
  | .ok none => ⟨b.outcome, a.depths ++ b.depths⟩
  | _ => a

/-- Puts a move before those by which `a` succeeds. -/
def andThen (a : Exploration δ) (m : Move) : Exploration δ :=
  ⟨a.outcome.map (Option.map (m :: ·)), a.depths⟩

def guarded (p : Bool) (a : Exploration δ) : Exploration δ := if p then a else fail

def visit (a : Exploration δ) : Exploration δ := ⟨a.outcome, 1 :: a.depths.map (· + 1)⟩

/-- Tries `f` on each text in turn, counted from `i` on. -/
def anyOf (f : Nat → Text → Exploration δ) : Nat → List Text → Exploration δ
  | _, [] => fail
  | i, a :: as => orElse (f i a) (anyOf f (i + 1) as)

def spread (next : Text → Exploration δ) (move : Text → Move) : Text → Exploration δ
  | [] => andThen (next []) (move [])
  | c :: t =>
    orElse (andThen (next (c :: t)) (move [])) (spread next (fun taken => move (c :: taken)) t)

def finish : Text → Exploration δ
  | [] => visit succeed
  | c :: t => visit (guarded (isMarker c) (finish t))

def literal (next : Text → Exploration δ) (m : Char) : Text → Exploration δ
  | [] => visit fail
  | c :: t =>
    visit
      (orElse
        (guarded (c = blank && isMarker m)
          (andThen (next (if m = '<' then c :: t else t)) (.stand m)))
        (orElse
          (guarded (c = m) (andThen (next t) (.direct c)))
          (guarded (isMarker c) (andThen (literal next m t) (.skip c)))))

def choice (canTake : Text → Text → Bool) (next : Text → Exploration δ) (name : Text)
    (alternatives : List Text) (otherwise : Text → Exploration δ) : Text → Exploration δ
  | [] => visit (otherwise [])
  | c :: t =>
    visit
      (orElse
        (anyOf (fun i a =>
          guarded (canTake a (c :: t))
            (andThen (next ((c :: t).drop a.length)) (.alternative i name a))) 0 alternatives)
        (orElse
          (guarded (isMarker c)
            (andThen (choice canTake next name alternatives otherwise t) (.skip c)))
          (otherwise (c :: t))))

/-- The same exploration among those that may leave the text. -/
def widen (a : Exploration Empty) : Exploration δ := ⟨a.outcome.mapError Empty.elim, a.depths⟩

/-! ## Within a budget -/

variable {ε : Type} (giveUp : Limit → ε) (depart : δ → ε) (b : Budget)

/-- Pays for visits of the given depths one by one and then goes on with `a`.  A visit refused for
its depth has entered that level already, and nothing takes it back. -/
def pay : List Nat → SearchOr ε → SearchOr ε
  | [], a, s => a s
  | d :: ds, a, s =>
    let s := { s with steps := s.steps + 1 }
    if b.maxSteps < s.steps then (.error (giveUp (.steps b.maxSteps)), s)
    else if b.maxDepth < (s.depth + d : Nat) then
      (.error (giveUp (.depth b.maxDepth)), { s with depth := s.depth + 1 })
    else pay ds a s

/-- Comes to an outcome without any visit. -/
def settle : Except δ (Option (List Move)) → SearchOr ε
  | .error d, s => (.error (depart d), s)
  | .ok none, s => (.ok false, s)
  | .ok (some ms), s => (.ok true, writeAll ms s)

/-- The search within a budget that an exploration is the course of. -/
def under (e : Exploration δ) : SearchOr ε := pay giveUp b e.depths (settle depart e.outcome)

theorem pay_append (ds ds' : List Nat) (a : SearchOr ε) :
    pay giveUp b (ds ++ ds') a = pay giveUp b ds (pay giveUp b ds' a) := by
  induction ds with
  | nil => rfl
  | cons d ds ih => funext s; simp only [List.cons_append, pay, ih]

/-- A search is given up while it pays for its visits, or it has paid for all of them. -/
theorem pay_cases (ds : List Nat) (a : SearchOr ε) (s : Progress) :
    (∃ limit s', pay giveUp b ds a s = (.error (giveUp limit), s')) ∨
      pay giveUp b ds a s = a { s with steps := s.steps + ds.length } := by
  induction ds generalizing s with
  | nil => exact Or.inr rfl
  | cons d ds ih =>
    simp only [pay]
    split
    next => exact Or.inl ⟨_, _, rfl⟩
    next =>
      split
      next => exact Or.inl ⟨_, _, rfl⟩
      next =>
        rw [List.length_cons, Nat.add_comm ds.length, ← Nat.add_assoc]
        exact ih { s with steps := s.steps + 1 }

/-- Whatever lets errors pass can wait until the visits have been paid for. -/
theorem pay_comp (f : Except ε Bool × Progress → Except ε Bool × Progress)
    (hf : ∀ e s, f (.error e, s) = (.error e, s)) (ds : List Nat) (a : SearchOr ε) (s : Progress) :
    f (pay giveUp b ds a s) = pay giveUp b ds (fun s => f (a s)) s := by
  induction ds generalizing s with
  | nil => rfl
  | cons d ds ih => simp only [pay, apply_ite f, hf, ih]

theorem orElse_pay (ds : List Nat) (a a' : SearchOr ε) :
    Search.orElse (pay giveUp b ds a) a' = pay giveUp b ds (Search.orElse a a') := by
  funext s
  exact pay_comp giveUp b (fun r => Search.orElse (fun _ => r) a' s) (fun _ _ => rfl) ds a s

theorem andThen_pay (ds : List Nat) (a : SearchOr ε) (write : Progress → Progress) :
    Search.andThen (pay giveUp b ds a) write = pay giveUp b ds (Search.andThen a write) := by
  funext s
  exact pay_comp giveUp b (fun r => Search.andThen (fun _ => r) write s) (fun _ _ => rfl) ds a s

/-! ## The homomorphism

Each combinator of explorations becomes, under a budget, the combinator of searches. -/

theorem under_fail : under giveUp depart b (fail : Exploration δ) = Search.fail := rfl

theorem under_orElse (a a' : Exploration δ) :
    under giveUp depart b (orElse a a') =
      Search.orElse (under giveUp depart b a) (under giveUp depart b a') := by
  obtain ⟨o, ds⟩ := a
  simp only [under, orElse_pay]
  rcases o with d | _ | ms
  · exact congrArg (pay giveUp b ds) rfl
  · exact (pay_append ..).trans (congrArg (pay giveUp b ds) rfl)
  · exact congrArg (pay giveUp b ds) rfl

theorem under_andThen (a : Exploration δ) (m : Move) :
    under giveUp depart b (andThen a m) = Search.andThen (under giveUp depart b a) m.write := by
  obtain ⟨o, ds⟩ := a
  simp only [under, andThen_pay]
  refine congrArg (pay giveUp b ds) ?_
  rcases o with d | _ | ms
  · rfl
  · rfl
  · rfl

/-- Moves that write nothing leave no mark on a search. -/
theorem under_andThen_of_write_eq_id {a : Exploration δ} {m : Move} (hm : m.write = id) :
    under giveUp depart b (andThen a m) = under giveUp depart b a := by
  rw [under_andThen, hm]
  funext s
  simp only [Search.andThen, id]
  split
  next h => exact h.symm
  next => rfl

theorem under_guarded (p : Bool) (a : Exploration δ) :
    under giveUp depart b (guarded p a) = Search.guarded p (under giveUp depart b a) := by
  cases p <;> rfl

/-- Visits made one level deeper: whatever they come to, that level is left again. -/
theorem pay_deeper (ds : List Nat) (o : Except δ (Option (List Move))) (s : Progress) :
    let (r, s') := pay giveUp b ds (settle depart o) { s with depth := s.depth + 1 }
    (r, { s' with depth := s'.depth - 1 }) =
      pay giveUp b (ds.map (· + 1)) (settle depart o) s := by
  induction ds generalizing s with
  | nil =>
    obtain ⟨steps, depth, bindings, trace⟩ := s
    rcases o with d | _ | ms
    · rfl
    · rfl
    · simp [pay, settle, writeAll_eq]
  | cons d ds ih =>
    have hd : s.depth + 1 + d = s.depth + (d + 1) := by omega
    simp only [List.map_cons, pay, hd]
    split
    next => rfl
    next =>
      split
      next => rfl
      next => exact ih { s with steps := s.steps + 1 }

theorem under_visit (a : Exploration δ) :
    under giveUp depart b (visit a) = Search.visitOr giveUp b (under giveUp depart b a) := by
  funext s
  simp only [under, visit, pay, Search.visitOr]
  split
  next => rfl
  next =>
    split
    next => rfl
    next =>
      exact (pay_deeper giveUp depart b a.depths a.outcome { s with steps := s.steps + 1 }).symm

theorem under_anyOf {f : Nat → Text → Exploration δ} {g : Text → SearchOr ε}
    (h : ∀ i a, under giveUp depart b (f i a) = g a) (i : Nat) (as : List Text) :
    under giveUp depart b (anyOf f i as) = Search.anyOf g as := by
  induction as generalizing i with
  | nil => rfl
  | cons a as ih =>
    rw [anyOf, under_orElse, h, ih]
    rfl

theorem under_spread {next : Text → Exploration δ} {next' : Text → SearchOr ε}
    {move : Text → Move} {write : Text → Progress → Progress}
    (h : ∀ t, under giveUp depart b (next t) = next' t)
    (hm : ∀ taken, (move taken).write = write taken) (t : Text) :
    under giveUp depart b (spread next move t) = Search.spread next' write t := by
  induction t generalizing move write with
  | nil =>
    rw [spread, under_andThen, h, hm]
    rfl
  | cons c t ih =>
    rw [spread, under_orElse, under_andThen, h, hm, ih (fun taken => hm (c :: taken))]
    rfl

end Exploration

end Inflection
