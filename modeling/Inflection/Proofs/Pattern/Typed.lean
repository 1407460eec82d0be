import Inflection.Proofs.Pattern.Derivation

/-!
# Derivations of a text whose blanks are typed

The moves of a derivation say what each of them takes of the text, and what that is once every
blank has been typed with the marker for which it stands.  Typing the blanks of a text in this way
keeps the derivation, as what a blank stood for is taken as itself then.
-/

namespace Inflection

namespace Move

/-- What a move takes of a text.  The opening half of an infix slot leaves its blank to the closing
half. -/
def taken : Move → Text
  | .stand m => if m = '<' then [] else [blank]
  | .direct c | .skip c => [c]
  | .run _ taken | .alternative _ _ taken => taken
  | .nothing _ => []

/-- What a move has taken once blanks are typed. -/
def typed : Move → Text
  | .stand m => [m]
  | m => m.taken

/-- The same decision about a text whose blanks are typed. -/
def settled : Move → Move
  | .stand m => .direct m
  | m => m

/-- What a move binds its name to is what it takes. -/
theorem taken_eq {m : Move} {b : Text × Text} (hb : b ∈ m.bound?) : m.taken = b.2 := by
  cases m <;> cases hb <;> rfl

theorem taken_eq_nil {m : Move} (h : m.typed = []) : m.taken = [] := by
  cases m with
  | stand => cases h
  | _ => exact h

end Move

namespace Element

variable {e : Element} {t u : Text} {ms : List Move}

theorem Takes.eq_append (h : e.Takes t ms u) : t = ms.flatMap Move.taken ++ u := by
  induction h with
  | @stand m t =>
    by_cases hm : m = '<'
    · simp [Move.taken, hm]
    · simp [Move.taken, hm]
  | direct => rfl
  | run h => rw [List.flatMap_singleton, h]; rfl
  | alternative _ _ _ h => rw [List.flatMap_singleton, h]; rfl
  | nothing => rfl
  | skip _ _ _ ih => exact congrArg (_ :: ·) ih

/-- An element binds its name once, if it has one. -/
theorem Takes.map_bound? (h : e.Takes t ms u) :
    (ms.filterMap Move.bound?).map Prod.fst = e.name?.toList := by
  induction h with
  | stand | direct | run | nothing => rfl
  | @alternative e _ _ _ _ _ _ he =>
    cases e <;> cases he <;> rfl
  | skip _ _ _ ih => exact ih

/-- A blank stands for nothing but a marker that the element is. -/
theorem Takes.of_stand_mem {m : Char} (h : e.Takes t ms u) (hm : .stand m ∈ ms) :
    e = .literal m ∧ isMarker m ∧ blank ∈ t := by
  induction h with
  | stand hmarker =>
    cases List.mem_singleton.1 hm
    exact ⟨rfl, hmarker, List.mem_cons_self⟩
  | direct | run | alternative | nothing => cases List.mem_singleton.1 hm
  | skip _ _ _ ih =>
    rcases List.mem_cons.1 hm with hm | hm
    · cases hm
    · obtain ⟨he, hmarker, hblank⟩ := ih hm
      exact ⟨he, hmarker, List.mem_cons_of_mem _ hblank⟩

/-- A blank is taken where it stands for a marker, where an element asks for it, and within what is
bound. -/
theorem Makes.of_blank_mem {m : Move} (h : e.Makes m) (hblank : blank ∈ m.taken) :
    (∃ c, m = .stand c) ∨ e = .literal blank ∨ ∃ b ∈ m.bound?, blank ∈ b.2 := by
  cases h with
  | stand => exact Or.inl ⟨_, rfl⟩
  | direct =>
    rw [List.mem_singleton.1 hblank]
    exact Or.inr (Or.inl rfl)
  | run | alternative => exact Or.inr (Or.inr ⟨_, rfl, hblank⟩)
  | nothing => cases hblank
  | skip hc =>
    rw [← List.mem_singleton.1 hblank] at hc
    cases hc

/-- An element takes a text whose blanks are typed as it takes the text itself, whatever is left. -/
theorem Takes.settle (h : e.Takes t ms u) {u' : Text} (hu : u ≠ [] → u' ≠ []) :
    e.Takes (ms.flatMap Move.typed ++ u') (ms.map Move.settled) u' := by
  induction h with
  | stand => exact .direct
  | direct => exact .direct
  | run => exact .run (by rw [List.flatMap_singleton]; rfl)
  | @alternative e n as i a t u he ha ht h =>
    refine .alternative he ha (fun hnil => ?_) (by rw [List.flatMap_singleton]; rfl)
    rw [List.flatMap_singleton] at hnil
    obtain ⟨rfl, hu'⟩ : a = [] ∧ u' = [] := List.append_eq_nil_iff.1 hnil
    exact hu (by rwa [h] at ht) hu'
  | nothing => exact .nothing
  | skip he hc _ ih => exact .skip he hc (ih hu)

end Element

namespace Pattern

variable {p : Pattern} {t u : Text} {ms : List Move}

theorem Takes.eq_append (h : p.Takes t ms u) : t = ms.flatMap Move.taken ++ u := by
  induction h with
  | nil => rfl
  | cons h _ ih => rw [List.flatMap_append, List.append_assoc, ← ih, ← h.eq_append]

/-- A row of elements binds their names once each, in order. -/
theorem Takes.map_bound? (h : p.Takes t ms u) :
    (ms.filterMap Move.bound?).map Prod.fst = p.filterMap Element.name? := by
  induction h with
  | nil => rfl
  | @cons e p _ _ _ _ _ h _ ih =>
    rw [List.filterMap_append, List.map_append, h.map_bound?, ih]
    cases he : e.name? <;> simp [he]

/-- Where names are distinct, every move is seen in the bindings. -/
theorem Takes.get?_boundBy (h : p.Takes t ms u) (hnames : (p.filterMap Element.name?).Nodup)
    {m : Move} (hm : m ∈ ms) {b : Text × Text} (hb : b ∈ m.bound?) :
    (boundBy ms []).get? b.1 = some b.2 := by
  rw [← h.map_bound?] at hnames
  obtain ⟨before, after, hbound⟩ := List.append_of_mem (List.mem_filterMap.2 ⟨m, hm, hb⟩)
  rw [hbound, List.map_append, List.nodup_append] at hnames
  have hlookup : (ms.filterMap Move.bound?).lookup b.1 = some b.2 := by
    refine List.lookup_eq_some_iff.2 ⟨before, after, hbound, fun b' hb' => bne_iff_ne.2 ?_⟩
    exact (hnames.2.2 _ (List.mem_map_of_mem hb') _ List.mem_cons_self).symm
  rw [Inflection.get?_boundBy, hlookup, Option.some_or]

theorem Takes.of_stand_mem {m : Char} (h : p.Takes t ms u) (hm : .stand m ∈ ms) :
    isMarker m ∧ blank ∈ t := by
  induction h with
  | nil => cases hm
  | cons h h' ih =>
    rcases List.mem_append.1 hm with hm | hm
    · exact (h.of_stand_mem hm).2
    · obtain ⟨hmarker, hblank⟩ := ih hm
      exact ⟨hmarker, h.suffix.subset hblank⟩

theorem Takes.of_blank_mem {m : Move} (h : p.Takes t ms u) (hm : m ∈ ms)
    (hblank : blank ∈ m.taken) :
    (∃ c, m = .stand c) ∨ .literal blank ∈ p ∨ ∃ b ∈ m.bound?, blank ∈ b.2 := by
  obtain ⟨e, he, hmakes⟩ := h.makes m hm
  refine (hmakes.of_blank_mem hblank).imp_right (Or.imp_left ?_)
  rintro rfl
  exact he

theorem Takes.settle (h : p.Takes t ms u) {u' : Text} (hu : u ≠ [] → u' ≠ []) :
    p.Takes (ms.flatMap Move.typed ++ u') (ms.map Move.settled) u' := by
  induction h with
  | nil => exact .nil
  | cons h h' ih =>
    rw [List.flatMap_append, List.append_assoc, List.map_append]
    refine .cons (h.settle fun hne hnil => ?_) (ih hu)
    obtain ⟨htyped, hu'⟩ := List.append_eq_nil_iff.1 hnil
    rw [List.flatMap_eq_nil_iff] at htyped
    rw [h'.eq_append, List.flatMap_eq_nil_iff.2 fun m hm => Move.taken_eq_nil (htyped m hm)] at hne
    exact hu hne hu'

/-- Typing the blanks of a text keeps its derivation. -/
theorem Takes.derives_settled (h : p.Takes t ms u) (hu : ∀ c ∈ u, isMarker c) :
    p.Derives (ms.flatMap Move.typed ++ u) (ms.map Move.settled) :=
  ⟨u, h.settle id, hu⟩

/-- What a derivation records are markers. -/
theorem Takes.isMarker_of_mem_markersOf (h : p.Takes t ms u) :
    ∀ m ∈ markersOf ms, isMarker m := by
  intro m hm
  obtain ⟨move, hmove, hmarker⟩ := List.mem_filterMap.1 hm
  cases move with
  | stand =>
    cases hmarker
    exact (h.of_stand_mem hmove).1
  | _ => cases hmarker

/-- No derivation of a text without blanks records a marker. -/
theorem Derives.markersOf_eq_nil (h : p.Derives t ms) (ht : blank ∉ t) : markersOf ms = [] := by
  obtain ⟨rest, h, -⟩ := h
  refine List.filterMap_eq_nil_iff.2 fun m hm => ?_
  cases m with
  | stand c => exact absurd (h.of_stand_mem hm).2 ht
  | _ => rfl

end Pattern

end Inflection
