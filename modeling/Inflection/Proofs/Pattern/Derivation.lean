import Inflection.Pattern.Match
import Mathlib.Data.List.Lex
import Mathlib.Tactic.ByContra

/-!
# Derivations: the ways in which a pattern can take a text

Nothing here searches.  `Element.Takes e t ms u` says that the element `e` can take the start of the
text `t` by the moves `ms` and leave `u`, `Pattern.Takes` says the same of a row of elements, and a
derivation of a whole text leaves nothing but markers.  A move holds what it writes, so the bindings
and the trace of a derivation are read off its moves.

Derivations of one text are ordered like words in a dictionary, by the first move in which they
differ: `Move.Before` says which of two moves is tried before the other.
-/

namespace Inflection

/-- One decision on the way through a text. -/
inductive Move where
  /-- A blank stands for the marker of a literal. -/
  | stand (marker : Char)
  /-- A literal takes its own character. -/
  | direct (char : Char)
  /-- A marker in the way is passed over. -/
  | skip (marker : Char)
  /-- A wildcard takes a run of characters. -/
  | run (name taken : Text)
  /-- One of some alternatives is taken. -/
  | alternative (index : Nat) (name taken : Text)
  /-- An optional element takes nothing. -/
  | nothing (name : Text)
deriving DecidableEq, Repr

namespace Move

/-- The name that a move binds, and what it binds it to. -/
def bound? : Move → Option (Text × Text)
  | .run n taken | .alternative _ n taken => some (n, taken)
  | .nothing n => some (n, [])
  | .stand _ | .direct _ | .skip _ => none

/-- The marker for which a blank stands in a move. -/
def marker? : Move → Option Char
  | .stand m => some m
  | _ => none

/-- What a move writes once everything after it has succeeded. -/
def write : Move → Progress → Progress
  | .stand m => Progress.record m
  | .run n taken | .alternative _ n taken => Progress.bind n taken
  | .nothing n => Progress.bind n []
  | .direct _ | .skip _ => id

/-- Which of two moves is tried before the other where both are possible: of two runs the shorter
one, of two alternatives the one declared earlier; a blank stands for a marker before a character is
taken as itself, both come before a marker is passed over, so do alternatives, and taking nothing
comes last. -/
inductive Before : Move → Move → Prop where
  | stand_direct {m c : Char} : Before (.stand m) (.direct c)
  | stand_skip {m c : Char} : Before (.stand m) (.skip c)
  | direct_skip {c d : Char} : Before (.direct c) (.skip d)
  | shorter {n n' taken taken' : Text} (h : taken.length < taken'.length) :
      Before (.run n taken) (.run n' taken')
  | earlier {i j : Nat} {n n' a a' : Text} (h : i < j) :
      Before (.alternative i n a) (.alternative j n' a')
  | alternative_skip {i : Nat} {n a : Text} {c : Char} : Before (.alternative i n a) (.skip c)
  | alternative_nothing {i : Nat} {n n' a : Text} : Before (.alternative i n a) (.nothing n')
  | skip_nothing {c : Char} {n : Text} : Before (.skip c) (.nothing n)

/-- No two moves are each before the other. -/
theorem Before.asymm {m m' : Move} (h : Before m m') : ¬ Before m' m := by
  intro h'
  cases h with
  | shorter h => cases h' with | shorter h' => exact Nat.lt_asymm h h'
  | earlier h => cases h' with | earlier h' => exact Nat.lt_asymm h h'
  | _ => cases h'

/-- The order of derivations: by the first move in which they differ. -/
def Precedes (ms ms' : List Move) : Prop := List.Lex Before ms ms'

/-- No two derivations each precede the other. -/
theorem Precedes.asymm {ms ms' : List Move} (h : Precedes ms ms') : ¬ Precedes ms' ms :=
  List.lex_asymm (fun h => Before.asymm h) h

end Move

/-! ## What the moves of a derivation write -/

/-- The bindings that moves leave where `prior` ones were: the last move is written first. -/
def boundBy (ms : List Move) (prior : Bindings) : Bindings :=
  (ms.filterMap Move.bound?).foldr (fun e bindings => bindings.put e.1 e.2) prior

/-- The markers for which blanks stand in some moves, from left to right. -/
def markersOf (ms : List Move) : List Char := ms.filterMap Move.marker?

/-- The progress once some moves have been written, the last one first. -/
def writeAll (ms : List Move) (s : Progress) : Progress := ms.foldr Move.write s

@[simp] theorem writeAll_cons (m : Move) (ms : List Move) (s : Progress) :
    writeAll (m :: ms) s = m.write (writeAll ms s) := rfl

/-- Moves write to the bindings and to the trace, and to nothing else. -/
theorem writeAll_eq (ms : List Move) (s : Progress) :
    writeAll ms s =
      { s with bindings := boundBy ms s.bindings, trace := markersOf ms ++ s.trace } := by
  induction ms with
  | nil => rfl
  | cons m ms ih =>
    rw [writeAll_cons, ih]
    cases m <;> rfl

/-- Of several moves that bind a name, the first one counts. -/
theorem get?_boundBy (ms : List Move) (prior : Bindings) (n : Text) :
    (boundBy ms prior).get? n =
      ((ms.filterMap Move.bound?).lookup n).or (prior.get? n) := by
  unfold boundBy
  induction ms.filterMap Move.bound? with
  | nil => rfl
  | cons e bound ih =>
    obtain ⟨n', taken⟩ := e
    rw [List.foldr_cons, Table.get?_put, ih, List.lookup_cons]
    by_cases h : n = n'
    · simp [h]
    · rw [if_neg (Ne.symm h), beq_false_of_ne h]

theorem boundBy_append (ms ms' : List Move) (prior : Bindings) :
    boundBy (ms ++ ms') prior = boundBy ms (boundBy ms' prior) := by
  unfold boundBy
  rw [List.filterMap_append, List.foldr_append]

/-- What is bound keeps its place, whatever moves bind. -/
theorem keys_prefix_boundBy (ms : List Move) (prior : Bindings) :
    prior.keys <+: (boundBy ms prior).keys := by
  unfold boundBy
  induction ms.filterMap Move.bound? with
  | nil => exact List.prefix_refl _
  | cons e bound ih => exact ih.trans (Table.keys_prefix_put _ _ _)

theorem mem_keys_boundBy {ms : List Move} {prior : Bindings} {n : Text} :
    n ∈ (boundBy ms prior).keys ↔
      n ∈ (ms.filterMap Move.bound?).map Prod.fst ∨ n ∈ prior.keys := by
  unfold boundBy
  induction ms.filterMap Move.bound? with
  | nil => simp
  | cons e bound ih =>
    rw [List.foldr_cons, Table.mem_keys_put, ih, List.map_cons, List.mem_cons, or_assoc]

/-- Moves that do not bind a name leave its value as it is. -/
theorem get?_boundBy_of_ne {ms : List Move} {n : Text}
    (h : ∀ m ∈ ms, ∀ b ∈ m.bound?, b.1 ≠ n) (prior : Bindings) :
    (boundBy ms prior).get? n = prior.get? n := by
  have hnone : (ms.filterMap Move.bound?).lookup n = none := by
    rw [List.lookup_eq_none_iff]
    intro b hb
    obtain ⟨m, hm, hbound⟩ := List.mem_filterMap.1 hb
    exact bne_iff_ne.2 (Ne.symm (h m hm b hbound))
  rw [get?_boundBy, hnone, Option.none_or]

/-! ## Derivations -/

namespace Element

/-- Whether an element passes over markers in its way.  A wildcard has no need to. -/
def passesMarkers : Element → Bool
  | .wildcard _ => false
  | _ => true

/-- The name and the alternatives of an element that has some. -/
def alternatives? : Element → Option (Text × List Text)
  | .choice n as | .optional n as => some (n, as)
  | _ => none

/-- An element takes the start of a text by some moves and leaves the rest. -/
inductive Takes : Element → Text → List Move → Text → Prop where
  /-- A blank stands for a marker; the opening half of an infix slot takes nothing of it. -/
  | stand {m : Char} {t : Text} (hm : isMarker m) :
      Takes (.literal m) (blank :: t) [.stand m] (if m = '<' then blank :: t else t)
  | direct {c : Char} {t : Text} : Takes (.literal c) (c :: t) [.direct c] t
  | run {n taken t u : Text} (h : t = taken ++ u) : Takes (.wildcard n) t [.run n taken] u
  /-- No alternative is taken at the end of the text, not even an empty one. -/
  | alternative {e : Element} {n : Text} {as : List Text} {i : Nat} {a t u : Text}
      (he : e.alternatives? = some (n, as)) (ha : as[i]? = some a) (ht : t ≠ [])
      (h : t = a ++ u) : Takes e t [.alternative i n a] u
  | nothing {n : Text} {as : List Text} {t : Text} : Takes (.optional n as) t [.nothing n] t
  | skip {e : Element} {c : Char} {t u : Text} {ms : List Move}
      (he : e.passesMarkers) (hc : isMarker c) (h : Takes e t ms u) :
      Takes e (c :: t) (.skip c :: ms) u

/-- What an element leaves is the end of the text. -/
theorem Takes.suffix {e : Element} {t u : Text} {ms : List Move} (h : e.Takes t ms u) :
    u <:+ t := by
  induction h with
  | @stand m t hm =>
    split
    · exact List.suffix_refl _
    · exact List.suffix_cons _ _
  | direct => exact List.suffix_cons _ _
  | run h => exact ⟨_, h.symm⟩
  | alternative _ _ _ h => exact ⟨_, h.symm⟩
  | nothing => exact List.suffix_refl _
  | skip _ _ _ ih => exact ih.trans (List.suffix_cons _ _)

/-- A literal that is no marker takes its own character last. -/
theorem Takes.cons_suffix {c : Char} {t u : Text} {ms : List Move} (hc : isMarker c = false)
    (h : (literal c).Takes t ms u) : c :: u <:+ t := by
  generalize he : literal c = e at h
  induction h with
  | stand hm =>
    cases he
    exact absurd hm (by rw [hc]; exact Bool.false_ne_true)
  | direct =>
    cases he
    exact List.suffix_refl _
  | alternative he' =>
    rw [← he] at he'
    cases he'
  | run => cases he
  | nothing => cases he
  | skip _ _ _ ih => exact (ih he).trans (List.suffix_cons _ _)

/-- A move that an element can make, whatever the text. -/
inductive Makes : Element → Move → Prop where
  | stand {m : Char} (hm : isMarker m) : Makes (.literal m) (.stand m)
  | direct {c : Char} : Makes (.literal c) (.direct c)
  | run {n taken : Text} : Makes (.wildcard n) (.run n taken)
  | alternative {e : Element} {n : Text} {as : List Text} {i : Nat} {a : Text}
      (he : e.alternatives? = some (n, as)) (ha : as[i]? = some a) : Makes e (.alternative i n a)
  | nothing {n : Text} {as : List Text} : Makes (.optional n as) (.nothing n)
  | skip {e : Element} {c : Char} (hc : isMarker c) : Makes e (.skip c)

theorem Takes.makes {e : Element} {t u : Text} {ms : List Move} (h : e.Takes t ms u) :
    ∀ m ∈ ms, e.Makes m := by
  induction h with
  | stand hm => exact List.forall_mem_singleton.2 (.stand hm)
  | direct => exact List.forall_mem_singleton.2 .direct
  | run => exact List.forall_mem_singleton.2 .run
  | alternative he ha => exact List.forall_mem_singleton.2 (.alternative he ha)
  | nothing => exact List.forall_mem_singleton.2 .nothing
  | skip _ hc _ ih => exact List.forall_mem_cons.2 ⟨.skip hc, ih⟩

/-- An element binds no name but its own. -/
theorem Makes.bound {e : Element} {m : Move} (h : e.Makes m) :
    ∀ b ∈ m.bound?, e.name? = some b.1 := by
  rintro b hb
  cases h with
  | run | nothing =>
    cases hb
    rfl
  | alternative he =>
    cases hb
    cases e <;> cases he <;> rfl
  | stand | direct | skip => cases hb

end Element

namespace Pattern

/-- A row of elements takes the start of a text by some moves and leaves the rest. -/
inductive Takes : Pattern → Text → List Move → Text → Prop where
  | nil {t : Text} : Takes [] t [] t
  | cons {e : Element} {p : Pattern} {t u v : Text} {ms ms' : List Move}
      (h : e.Takes t ms u) (h' : Takes p u ms' v) : Takes (e :: p) t (ms ++ ms') v

/-- A derivation of a text from a pattern: the pattern leaves nothing but markers. -/
def Derives (p : Pattern) (t : Text) (ms : List Move) : Prop :=
  ∃ rest, Takes p t ms rest ∧ ∀ c ∈ rest, isMarker c

/-- The derivation of a text that precedes all others. -/
def IsFirst (p : Pattern) (t : Text) (ms : List Move) : Prop :=
  p.Derives t ms ∧ ∀ ms', p.Derives t ms' → ms' ≠ ms → Move.Precedes ms ms'

/-- A text has at most one first derivation. -/
theorem IsFirst.unique {p : Pattern} {t : Text} {ms ms' : List Move} (h : p.IsFirst t ms)
    (h' : p.IsFirst t ms') : ms = ms' := by
  by_contra hne
  exact (h.2 ms' h'.1 (Ne.symm hne)).asymm (h'.2 ms h.1 hne)

/-- A row of elements takes what its two parts take one after the other. -/
theorem takes_append {p q : Pattern} {t v : Text} {ms : List Move} :
    Takes (p ++ q) t ms v ↔
      ∃ u ms₁ ms₂, Takes p t ms₁ u ∧ Takes q u ms₂ v ∧ ms = ms₁ ++ ms₂ := by
  constructor
  · intro h
    induction p generalizing t ms with
    | nil => exact ⟨t, [], ms, .nil, h, rfl⟩
    | cons e p ih =>
      cases h with
      | cons he hp =>
        obtain ⟨u, ms₁, ms₂, h₁, h₂, rfl⟩ := ih hp
        exact ⟨u, _, ms₂, .cons he h₁, h₂, (List.append_assoc ..).symm⟩
  · rintro ⟨u, ms₁, ms₂, h₁, h₂, rfl⟩
    induction h₁ with
    | nil => exact h₂
    | cons he _ ih =>
      rw [List.append_assoc]
      exact .cons he (ih h₂)

theorem Takes.suffix {p : Pattern} {t u : Text} {ms : List Move} (h : p.Takes t ms u) :
    u <:+ t := by
  induction h with
  | nil => exact List.suffix_refl _
  | cons h _ ih => exact ih.trans h.suffix

/-- Every move is made by an element. -/
theorem Takes.makes {p : Pattern} {t u : Text} {ms : List Move} (h : p.Takes t ms u) :
    ∀ m ∈ ms, ∃ e ∈ p, e.Makes m := by
  induction h with
  | nil => exact List.forall_mem_nil _
  | cons h _ ih =>
    intro m hm
    rcases List.mem_append.1 hm with hm | hm
    · exact ⟨_, List.mem_cons_self, h.makes m hm⟩
    · obtain ⟨e, he, hmakes⟩ := ih m hm
      exact ⟨e, List.mem_cons_of_mem _ he, hmakes⟩

theorem Takes.bound {p : Pattern} {t u : Text} {ms : List Move} (h : p.Takes t ms u) :
    ∀ m ∈ ms, ∀ b ∈ m.bound?, ∃ e ∈ p, e.name? = some b.1 := by
  intro m hm b hb
  obtain ⟨e, he, hmakes⟩ := h.makes m hm
  exact ⟨e, he, hmakes.bound b hb⟩

theorem takes_wildcard {n : Text} {t u : Text} {ms : List Move} :
    Takes [.wildcard n] t ms u ↔ ∃ taken, t = taken ++ u ∧ ms = [.run n taken] := by
  constructor
  · rintro (_ | ⟨h, h'⟩)
    cases h' with
    | nil =>
      cases h with
      | run h => exact ⟨_, h, rfl⟩
      | alternative he => cases he
      | skip he => cases he
  · rintro ⟨taken, ht, rfl⟩
    exact .cons (.run ht) .nil

/-- In a first derivation, a wildcard at the end of the pattern leaves the markers at the end of the
text over: a run that ends in one is not the shortest. -/
theorem IsFirst.concat_wildcard {p : Pattern} {n t : Text} {ms : List Move}
    (h : (p ++ [Element.wildcard n]).IsFirst t ms) :
    ∃ ms' kept markers, p.Takes t ms' (kept ++ markers) ∧ ms = ms' ++ [.run n kept] ∧
      (∀ c ∈ kept.getLast?, isMarker c = false) ∧ ∀ c ∈ markers, isMarker c := by
  obtain ⟨⟨markers, htakes, hmarkers⟩, hfirst⟩ := h
  obtain ⟨u, ms', ms'', h', hrun, rfl⟩ := takes_append.1 htakes
  obtain ⟨kept, rfl, rfl⟩ := takes_wildcard.1 hrun
  refine ⟨ms', kept, markers, h', rfl, ?_, hmarkers⟩
  intro c hc
  by_contra hmarker
  rw [Bool.not_eq_false] at hmarker
  obtain ⟨shorter, rfl⟩ := List.getLast?_eq_some_iff.1 hc
  have hderives : (p ++ [Element.wildcard n]).Derives t (ms' ++ [.run n shorter]) := by
    refine ⟨c :: markers, takes_append.2 ⟨_, ms', _, h', takes_wildcard.2 ⟨_, ?_, rfl⟩, rfl⟩, ?_⟩
    · rw [List.append_assoc, List.singleton_append]
    · exact List.forall_mem_cons.2 ⟨hmarker, hmarkers⟩
  have hbefore : Move.Before (.run n shorter) (.run n (shorter ++ [c])) := .shorter (by simp)
  have hprec : Move.Precedes (ms' ++ [.run n shorter]) (ms' ++ [.run n (shorter ++ [c])]) :=
    List.Lex.append_left _ (.rel hbefore) ms'
  have hne : ms' ++ [.run n shorter] ≠ ms' ++ [.run n (shorter ++ [c])] := by simp
  exact hprec.asymm (hfirst _ hderives hne)

end Pattern

end Inflection
