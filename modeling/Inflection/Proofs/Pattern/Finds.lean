import Inflection.Proofs.Pattern.Exploration
import Mathlib.Data.Set.Basic
import Mathlib.Data.Set.Image

/-!
# Explorations that come to the first derivation

An exploration `Finds` a set of derivations if it comes to the first member of it, and fails if it
has none.  Each combinator finds the set that is built in the same way, as long as what it tries
first also comes first.
-/

namespace Inflection

open Move

namespace Exploration

/-- The moves by which an exploration succeeds, if it does. -/
def found (e : Exploration Empty) : Option (List Move) :=
  match e.outcome with
  | .ok r => r

@[simp] theorem found_orElse (a a' : Exploration Empty) :
    (orElse a a').found = a.found.or a'.found := by
  obtain ⟨o, ds⟩ := a
  rcases o with d | _ | ms
  · exact d.elim
  · rfl
  · rfl

@[simp] theorem found_andThen (a : Exploration Empty) (m : Move) :
    (andThen a m).found = a.found.map (m :: ·) := by
  obtain ⟨o, ds⟩ := a
  rcases o with d | r
  · exact d.elim
  · rfl

/-- An exploration comes to the first member of a set of derivations, or to none if it is empty. -/
def Finds (e : Exploration Empty) (D : Set (List Move)) : Prop :=
  match e.found with
  | none => ∀ ms, ms ∉ D
  | some ms => ms ∈ D ∧ ∀ ms' ∈ D, ms' ≠ ms → Precedes ms ms'

theorem finds_of_found_eq_none {e : Exploration Empty} {D : Set (List Move)}
    (he : e.found = none) : e.Finds D ↔ ∀ ms, ms ∉ D := by
  rw [Finds, he]

theorem finds_of_found_eq_some {e : Exploration Empty} {D : Set (List Move)} {ms : List Move}
    (he : e.found = some ms) :
    e.Finds D ↔ ms ∈ D ∧ ∀ ms' ∈ D, ms' ≠ ms → Precedes ms ms' := by
  rw [Finds, he]

variable {a a' : Exploration Empty} {D D' : Set (List Move)}

theorem finds_fail : Finds fail ∅ := fun ms => Set.notMem_empty ms

theorem finds_succeed : Finds succeed {[]} :=
  ⟨rfl, fun _ h hne => absurd h hne⟩

theorem Finds.visit (h : a.Finds D) : a.visit.Finds D := h

/-- What is tried first finds all that comes first. -/
theorem Finds.orElse (h : a.Finds D) (h' : a'.Finds D')
    (hprec : ∀ ms ∈ D, ∀ ms' ∈ D', Precedes ms ms') : (a.orElse a').Finds (D ∪ D') := by
  rcases ha : a.found with _ | ms
  · have hempty := (finds_of_found_eq_none ha).1 h
    have hD : D = ∅ := Set.eq_empty_of_forall_notMem hempty
    rw [hD, Set.empty_union]
    unfold Finds
    rw [found_orElse, ha, Option.none_or]
    exact h'
  · obtain ⟨hmem, hfirst⟩ := (finds_of_found_eq_some ha).1 h
    have hfound : (a.orElse a').found = some ms := by rw [found_orElse, ha, Option.some_or]
    refine (finds_of_found_eq_some hfound).2 ⟨Or.inl hmem, ?_⟩
    rintro ms' (hms' | hms') hne
    · exact hfirst ms' hms' hne
    · exact hprec ms hmem ms' hms'

theorem Finds.andThen (h : a.Finds D) (m : Move) : (a.andThen m).Finds ((m :: ·) '' D) := by
  rcases ha : a.found with _ | ms
  · have hfound : (a.andThen m).found = none := by rw [found_andThen, ha, Option.map_none]
    refine (finds_of_found_eq_none hfound).2 ?_
    rintro - ⟨ms', hms', -⟩
    exact (finds_of_found_eq_none ha).1 h ms' hms'
  · obtain ⟨hmem, hfirst⟩ := (finds_of_found_eq_some ha).1 h
    have hfound : (a.andThen m).found = some (m :: ms) := by
      rw [found_andThen, ha, Option.map_some]
    refine (finds_of_found_eq_some hfound).2 ⟨⟨ms, hmem, rfl⟩, ?_⟩
    rintro - ⟨ms', hms', rfl⟩ hne
    exact .cons (hfirst ms' hms' (fun e => hne (congrArg (m :: ·) e)))

theorem Finds.guarded (h : a.Finds D) (p : Bool) : (a.guarded p).Finds {ms ∈ D | p} := by
  cases p with
  | false => exact fun ms hms => Bool.false_ne_true hms.2
  | true => simpa [Exploration.guarded] using h

/-- Of some texts that are tried in turn, counted from `i` on, the first one that leads to a
derivation counts. -/
theorem finds_anyOf {f : Nat → Text → Exploration Empty} {N : Nat → Text → Set (List Move)}
    (h : ∀ i a, (f i a).Finds (N i a))
    (hprec : ∀ {i j a a' ms ms'}, i < j → ms ∈ N i a → ms' ∈ N j a' → Precedes ms ms')
    (i : Nat) (as : List Text) :
    (anyOf f i as).Finds {ms | ∃ j a, as[j]? = some a ∧ ms ∈ N (i + j) a} := by
  induction as generalizing i with
  | nil =>
    rintro ms ⟨j, a, ha, -⟩
    cases ha
  | cons a as ih =>
    have hset : {ms | ∃ j a', (a :: as)[j]? = some a' ∧ ms ∈ N (i + j) a'} =
        N i a ∪ {ms | ∃ j a', as[j]? = some a' ∧ ms ∈ N (i + 1 + j) a'} := by
      ext ms
      constructor
      · rintro ⟨_ | j, a', ha', hms⟩
        · cases ha'
          exact Or.inl hms
        · exact Or.inr ⟨j, a', ha', by rwa [Nat.add_right_comm, Nat.add_assoc]⟩
      · rintro (hms | ⟨j, a', ha', hms⟩)
        · exact ⟨0, a, rfl, hms⟩
        · exact ⟨j + 1, a', ha', by rwa [← Nat.add_assoc, Nat.add_right_comm]⟩
    rw [hset]
    refine (h i a).orElse (ih (i + 1)) ?_
    rintro ms hms ms' ⟨j, a', -, hms'⟩
    exact hprec (by omega) hms hms'

/-- Of the runs that can be taken, the shortest one that leads to a derivation counts. -/
theorem finds_spread {next : Text → Exploration Empty} {N : Text → Set (List Move)}
    {move : Text → Move} (h : ∀ t, (next t).Finds (N t))
    (hprec : ∀ {taken taken'}, taken.length < taken'.length → Before (move taken) (move taken'))
    (t : Text) :
    (spread next move t).Finds
      {ms | ∃ taken u, t = taken ++ u ∧ ms ∈ (move taken :: ·) '' N u} := by
  induction t generalizing move with
  | nil =>
    have hset : {ms | ∃ taken u, [] = taken ++ u ∧ ms ∈ (move taken :: ·) '' N u} =
        (move [] :: ·) '' N [] := by
      ext ms
      constructor
      · rintro ⟨taken, u, ht, hms⟩
        obtain ⟨rfl, rfl⟩ := List.append_eq_nil_iff.1 ht.symm
        exact hms
      · exact fun hms => ⟨[], [], rfl, hms⟩
    rw [hset]
    exact (h []).andThen (move [])
  | cons c t ih =>
    have hset : {ms | ∃ taken u, c :: t = taken ++ u ∧ ms ∈ (move taken :: ·) '' N u} =
        (move [] :: ·) '' N (c :: t) ∪
          {ms | ∃ taken u, t = taken ++ u ∧ ms ∈ (move (c :: taken) :: ·) '' N u} := by
      ext ms
      constructor
      · rintro ⟨_ | ⟨d, taken⟩, u, ht, hms⟩
        · cases ht
          exact Or.inl hms
        · cases ht
          exact Or.inr ⟨taken, u, rfl, hms⟩
      · rintro (hms | ⟨taken, u, rfl, hms⟩)
        · exact ⟨[], c :: t, rfl, hms⟩
        · exact ⟨c :: taken, u, rfl, hms⟩
    rw [hset]
    refine ((h (c :: t)).andThen (move [])).orElse
      (ih (fun hlt => hprec (Nat.succ_lt_succ hlt))) ?_
    rintro - ⟨ms, -, rfl⟩ - ⟨taken, u, -, ms', -, rfl⟩
    exact .rel (hprec (Nat.succ_pos _))

end Exploration

end Inflection
