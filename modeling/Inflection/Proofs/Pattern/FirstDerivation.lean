import Inflection.Proofs.Pattern.Course
import Inflection.Proofs.Pattern.Finds

/-!
# A search comes to the first derivation

`Pattern.searchFrom_eq_first` says that a search that is not given up succeeds if and only if its
text has a derivation, and that it then writes what the first derivation writes.  The derivations
that begin with an element are those that its exploration finds, and by induction on the pattern so
are those of a whole text.
-/

namespace Inflection

open Exploration Move

/-! ## Elements

`N u` stands for the derivations of what an element leaves, `u`. -/

namespace Element

/-- The derivations of a text that begin with an element. -/
def Derivations (e : Element) (N : Text → Set (List Move)) (t : Text) : Set (List Move) :=
  {ms | ∃ ms₁ u ms₂, e.Takes t ms₁ u ∧ ms₂ ∈ N u ∧ ms = ms₁ ++ ms₂}

variable {N : Text → Set (List Move)}

theorem derivations_literal_nil (m : Char) : (literal m).Derivations N [] = ∅ := by
  refine Set.eq_empty_of_forall_notMem ?_
  rintro - ⟨ms₁, u, ms₂, h, -, rfl⟩
  cases h with
  | alternative he => cases he

theorem derivations_literal_cons (m c : Char) (t : Text) :
    (literal m).Derivations N (c :: t) =
      {ms ∈ (.stand m :: ·) '' N (if m = '<' then c :: t else t) | c = blank && isMarker m} ∪
        ({ms ∈ (.direct c :: ·) '' N t | decide (c = m)} ∪
          {ms ∈ (.skip c :: ·) '' (literal m).Derivations N t | isMarker c}) := by
  ext ms
  constructor
  · rintro ⟨ms₁, u, ms₂, h, h₂, rfl⟩
    cases h with
    | stand hm => exact Or.inl ⟨⟨ms₂, h₂, rfl⟩, by simpa using hm⟩
    | direct => exact Or.inr (Or.inl ⟨⟨ms₂, h₂, rfl⟩, decide_eq_true rfl⟩)
    | alternative he => cases he
    | skip _ hc h => exact Or.inr (Or.inr ⟨⟨_, ⟨_, u, ms₂, h, h₂, rfl⟩, rfl⟩, hc⟩)
  · rintro (⟨⟨ms₂, h₂, rfl⟩, hc⟩ | ⟨⟨ms₂, h₂, rfl⟩, hc⟩ | ⟨⟨-, ⟨ms₁, u, ms₂, h, h₂, rfl⟩, rfl⟩, hc⟩)
    · obtain ⟨rfl, hm⟩ : c = blank ∧ isMarker m := by simpa using hc
      exact ⟨_, _, ms₂, .stand hm, h₂, rfl⟩
    · obtain rfl : c = m := by simpa using hc
      exact ⟨_, t, ms₂, .direct, h₂, rfl⟩
    · exact ⟨_, u, ms₂, .skip rfl hc h, h₂, rfl⟩

theorem derivations_wildcard (n t : Text) :
    (wildcard n).Derivations N t =
      {ms | ∃ taken u, t = taken ++ u ∧ ms ∈ (.run n taken :: ·) '' N u} := by
  ext ms
  constructor
  · rintro ⟨ms₁, u, ms₂, h, h₂, rfl⟩
    cases h with
    | run h => exact ⟨_, u, h, ms₂, h₂, rfl⟩
    | alternative he => cases he
    | skip he => cases he
  · rintro ⟨taken, u, rfl, ms₂, h₂, rfl⟩
    exact ⟨_, u, ms₂, .run rfl, h₂, rfl⟩

/-- The derivations in which an element takes nothing. -/
def derivationsOfNothing (N : Text → Set (List Move)) : Element → Text → Set (List Move)
  | .optional n _, t => (.nothing n :: ·) '' N t
  | _, _ => ∅

theorem exists_of_mem_derivationsOfNothing {e : Element} {t : Text} {ms : List Move}
    (h : ms ∈ e.derivationsOfNothing N t) : ∃ n ms', ms = .nothing n :: ms' := by
  cases e with
  | «optional» n as =>
    obtain ⟨ms', -, rfl⟩ := h
    exact ⟨n, ms', rfl⟩
  | _ => exact absurd h (Set.notMem_empty ms)

variable {e : Element} {n : Text} {as : List Text}

theorem derivations_alternatives_nil (he : e.alternatives? = some (n, as)) :
    e.Derivations N [] = e.derivationsOfNothing N [] := by
  ext ms
  constructor
  · rintro ⟨ms₁, u, ms₂, h, h₂, rfl⟩
    cases h with
    | run => cases he
    | alternative _ _ ht => exact absurd rfl ht
    | nothing => exact ⟨ms₂, h₂, rfl⟩
  · intro h
    cases e with
    | «optional» n' as' =>
      obtain ⟨ms₂, h₂, rfl⟩ := h
      exact ⟨_, [], ms₂, .nothing, h₂, rfl⟩
    | _ => exact absurd h (Set.notMem_empty ms)

theorem derivations_alternatives_cons (he : e.alternatives? = some (n, as)) (c : Char) (t : Text) :
    e.Derivations N (c :: t) =
      {ms | ∃ i a, as[i]? = some a ∧
          ms ∈ {ms ∈ (.alternative (0 + i) n a :: ·) '' N ((c :: t).drop a.length) |
            a.isPrefixOf (c :: t)}} ∪
        ({ms ∈ (.skip c :: ·) '' e.Derivations N t | isMarker c} ∪
          e.derivationsOfNothing N (c :: t)) := by
  ext ms
  constructor
  · rintro ⟨ms₁, u, ms₂, h, h₂, rfl⟩
    cases h with
    | stand => cases he
    | direct => cases he
    | run => cases he
    | @alternative _ n' as' i a _ _ he' ha _ h =>
      cases he.symm.trans he'
      refine Or.inl ⟨i, a, ha, ⟨ms₂, ?_, by rw [Nat.zero_add]; rfl⟩, ?_⟩
      · rw [h, List.drop_left]
        exact h₂
      · exact List.isPrefixOf_iff_prefix.2 ⟨u, h.symm⟩
    | nothing => exact Or.inr (Or.inr ⟨ms₂, h₂, rfl⟩)
    | skip _ hc h => exact Or.inr (Or.inl ⟨⟨_, ⟨_, u, ms₂, h, h₂, rfl⟩, rfl⟩, hc⟩)
  · rintro (⟨i, a, ha, ⟨ms₂, h₂, rfl⟩, hp⟩ | ⟨⟨-, ⟨ms₁, u, ms₂, h, h₂, rfl⟩, rfl⟩, hc⟩ | h)
    · obtain ⟨u, hu⟩ := List.isPrefixOf_iff_prefix.1 hp
      rw [← hu, List.drop_left] at h₂
      rw [Nat.zero_add]
      exact ⟨_, u, ms₂, .alternative he ha (List.cons_ne_nil c t) hu.symm, h₂, rfl⟩
    · have hpass : e.passesMarkers := by cases e <;> first | rfl | cases he
      exact ⟨_, u, ms₂, .skip hpass hc h, h₂, rfl⟩
    · cases e with
      | «optional» n' as' =>
        obtain ⟨ms₂, h₂, rfl⟩ := h
        exact ⟨_, _, ms₂, .nothing, h₂, rfl⟩
      | _ => exact absurd h (Set.notMem_empty ms)

/-! ### What the explorations for elements find -/

variable {next : Text → Exploration Empty}

theorem finds_literal (h : ∀ t, (next t).Finds (N t)) (m : Char) (t : Text) :
    (Exploration.literal next m t).Finds ((literal m).Derivations N t) := by
  induction t with
  | nil =>
    rw [derivations_literal_nil]
    exact finds_fail.visit
  | cons c t ih =>
    rw [derivations_literal_cons]
    refine (Finds.orElse (((h _).andThen _).guarded _)
      (Finds.orElse (((h t).andThen _).guarded _) ((ih.andThen _).guarded _) ?_) ?_).visit
    · rintro - ⟨⟨ms, -, rfl⟩, -⟩ - ⟨⟨ms', -, rfl⟩, -⟩
      exact .rel .direct_skip
    · rintro - ⟨⟨ms, -, rfl⟩, -⟩ - (⟨⟨ms', -, rfl⟩, -⟩ | ⟨⟨ms', -, rfl⟩, -⟩)
      · exact .rel .stand_direct
      · exact .rel .stand_skip

theorem finds_choice (h : ∀ t, (next t).Finds (N t)) {otherwise : Text → Exploration Empty}
    (ho : ∀ t, (otherwise t).Finds (e.derivationsOfNothing N t))
    (he : e.alternatives? = some (n, as)) (t : Text) :
    (Exploration.choice List.isPrefixOf next n as otherwise t).Finds (e.Derivations N t) := by
  induction t with
  | nil =>
    rw [derivations_alternatives_nil he]
    exact (ho []).visit
  | cons c t ih =>
    rw [derivations_alternatives_cons he]
    refine (Finds.orElse (finds_anyOf (fun i a => ((h _).andThen _).guarded _) ?_ 0 as)
      (Finds.orElse ((ih.andThen _).guarded _) (ho (c :: t)) ?_) ?_).visit
    · rintro i j a a' - - hlt ⟨⟨ms, -, rfl⟩, -⟩ ⟨⟨ms', -, rfl⟩, -⟩
      exact .rel (.earlier hlt)
    · rintro - ⟨⟨ms, -, rfl⟩, -⟩ ms' hms'
      obtain ⟨n', ms', rfl⟩ := exists_of_mem_derivationsOfNothing hms'
      exact .rel .skip_nothing
    · rintro - ⟨i, a, -, ⟨ms, -, rfl⟩, -⟩ ms' (⟨⟨ms', -, rfl⟩, -⟩ | hms')
      · exact .rel .alternative_skip
      · obtain ⟨n', ms', rfl⟩ := exists_of_mem_derivationsOfNothing hms'
        exact .rel .alternative_nothing

theorem finds_explore (h : ∀ t, (next t).Finds (N t)) (e : Element) (t : Text) :
    (e.explore next t).Finds (e.Derivations N t) := by
  cases e with
  | literal c => exact finds_literal h c t
  | wildcard n =>
    rw [derivations_wildcard]
    exact (finds_spread h (fun hlt => .shorter hlt) t).visit
  | choice n as => exact finds_choice h (fun _ => finds_fail) rfl t
  | «optional» n as => exact finds_choice h (fun t => (h t).andThen _) rfl t

end Element

/-! ## Patterns -/

namespace Pattern

theorem finds_finish (t : Text) : (finish t).Finds {ms | Derives [] t ms} := by
  induction t with
  | nil =>
    have hset : {ms | Derives [] [] ms} = {[]} := by
      ext ms
      constructor
      · rintro ⟨rest, h, -⟩
        cases h
        rfl
      · rintro rfl
        exact ⟨[], .nil, by simp⟩
    rw [hset]
    exact finds_succeed.visit
  | cons c t ih =>
    have hset : {ms | Derives [] (c :: t) ms} = {ms ∈ {ms | Derives [] t ms} | isMarker c} := by
      ext ms
      constructor
      · rintro ⟨rest, h, hrest⟩
        cases h
        rw [List.forall_mem_cons] at hrest
        exact ⟨⟨t, .nil, hrest.2⟩, hrest.1⟩
      · rintro ⟨⟨rest, h, hrest⟩, hc⟩
        cases h
        exact ⟨c :: t, .nil, List.forall_mem_cons.2 ⟨hc, hrest⟩⟩
    rw [hset]
    exact (ih.guarded _).visit

theorem derivations_cons (e : Element) (p : Pattern) (t : Text) :
    {ms | Derives (e :: p) t ms} = e.Derivations (fun u => {ms | p.Derives u ms}) t := by
  ext ms
  constructor
  · rintro ⟨rest, h, hrest⟩
    cases h with
    | cons h h' => exact ⟨_, _, _, h, ⟨rest, h', hrest⟩, rfl⟩
  · rintro ⟨ms₁, u, ms₂, h, ⟨rest, h', hrest⟩, rfl⟩
    exact ⟨rest, .cons h h', hrest⟩

/-- The exploration for a pattern comes to the first derivation. -/
theorem finds_explore (p : Pattern) (t : Text) : (p.explore t).Finds {ms | p.Derives t ms} := by
  induction p generalizing t with
  | nil => exact finds_finish t
  | cons e p ih =>
    rw [derivations_cons]
    exact e.finds_explore ih t

variable {b : Budget} {p : Pattern} {t : Text} {s s' : Progress}

/-- A search that is not given up comes to what the exploration comes to. -/
theorem search_eq_ok {r : Bool} (h : p.search b t s = (.ok r, s')) :
    r = (p.explore t).found.isSome ∧
      s' = writeAll ((p.explore t).found.getD [])
        { s with steps := s.steps + (p.explore t).depths.length } := by
  rw [search_eq_under, Exploration.under] at h
  rcases pay_cases id b (p.explore t).depths (settle Empty.elim (p.explore t).outcome) s with
    ⟨limit, s'', hpay⟩ | hpay
  · rw [hpay] at h
    cases h
  · rw [hpay] at h
    unfold found
    rcases ho : (p.explore t).outcome with d | _ | ms
    · exact d.elim
    · rw [ho] at h
      cases h
      exact ⟨rfl, rfl⟩
    · rw [ho] at h
      cases h
      exact ⟨rfl, rfl⟩

/-- A search that succeeds writes what the first derivation writes. -/
theorem exists_isFirst_of_search (h : p.search b t s = (.ok true, s')) :
    ∃ ms, p.IsFirst t ms ∧ s'.bindings = boundBy ms s.bindings ∧
      s'.trace = markersOf ms ++ s.trace := by
  obtain ⟨hr, hs'⟩ := search_eq_ok h
  obtain ⟨ms, hms⟩ := Option.isSome_iff_exists.1 hr.symm
  rw [hms, Option.getD_some, writeAll_eq] at hs'
  exact ⟨ms, (finds_of_found_eq_some hms).1 (p.finds_explore t), by rw [hs'], by rw [hs']⟩

/-- A search that fails leaves no derivation out. -/
theorem not_derives_of_search (h : p.search b t s = (.ok false, s')) (ms : List Move) :
    ¬ p.Derives t ms := by
  obtain ⟨hr, -⟩ := search_eq_ok h
  have hnone : (p.explore t).found = none :=
    Option.isNone_iff_eq_none.1 (Option.isSome_eq_false_iff.1 hr.symm)
  exact (finds_of_found_eq_none hnone).1 (p.finds_explore t) ms

/-- A search for a pattern that derives the text succeeds, if it is not given up. -/
theorem exists_search_eq {ms : List Move} (h : p.Derives t ms)
    (hb : ∀ limit, (p.search b t s).1 ≠ .error limit) :
    ∃ found ms', p.search b t s = (.ok true, found) ∧ p.IsFirst t ms' ∧
      found.trace = markersOf ms' ++ s.trace := by
  rcases hr : p.search b t s with ⟨limit | _ | _, found⟩
  · exact absurd (congrArg Prod.fst hr) (hb limit)
  · exact absurd h (not_derives_of_search hr ms)
  · obtain ⟨ms', hfirst, -, htrace⟩ := exists_isFirst_of_search hr
    exact ⟨found, ms', rfl, hfirst, htrace⟩

/-- A text that has a derivation has a first one. -/
theorem exists_isFirst {ms : List Move} (h : p.Derives t ms) : ∃ ms', p.IsFirst t ms' := by
  have hfinds := p.finds_explore t
  rcases hms : (p.explore t).found with _ | ms'
  · exact absurd h ((finds_of_found_eq_none hms).1 hfinds ms)
  · exact ⟨ms', (finds_of_found_eq_some hms).1 hfinds⟩

/-- **A search comes to the first derivation.**  From any position in a text, a search that is not
given up succeeds if and only if what follows has a derivation.  It has then written the bindings
and the markers of the first one before those that were there: a name that is bound more than once
has the value of the first element that binds it, and all other names keep theirs. -/
theorem searchFrom_eq_first (b : Budget) (p : Pattern) (t : Text) {start : Nat}
    (hstart : start ≤ t.length) (s : Progress)
    (hb : ∀ limit, (p.searchFrom b t start s).1 ≠ .error limit) :
    ((p.searchFrom b t start s).1 = .ok true ↔ ∃ ms, p.Derives (t.drop start) ms) ∧
      ((p.searchFrom b t start s).1 = .ok true →
        ∃ ms, p.IsFirst (t.drop start) ms ∧
          (p.searchFrom b t start s).2.bindings = boundBy ms s.bindings ∧
          (p.searchFrom b t start s).2.trace = markersOf ms ++ s.trace ∧
          ∀ n, (p.searchFrom b t start s).2.bindings.get? n =
            ((ms.filterMap Move.bound?).lookup n).or (s.bindings.get? n)) := by
  rw [searchFrom, if_pos hstart] at hb ⊢
  rcases hr : p.search b (t.drop start) s with ⟨limit | r, s'⟩
  · exact absurd (congrArg Prod.fst hr) (hb limit)
  · cases r with
    | false =>
      have hnone := not_derives_of_search hr
      refine ⟨⟨?_, ?_⟩, ?_⟩
      · intro h
        cases h
      · rintro ⟨ms, hms⟩
        exact absurd hms (hnone ms)
      · intro h
        cases h
    | true =>
      obtain ⟨ms, hfirst, hbindings, htrace⟩ := exists_isFirst_of_search hr
      refine ⟨⟨fun _ => ⟨ms, hfirst.1⟩, fun _ => rfl⟩, fun _ => ⟨ms, hfirst, hbindings, htrace, ?_⟩⟩
      intro n
      rw [hbindings, get?_boundBy]

/-- A wildcard that occurs twice, a marker for which a blank stands, and an optional element that
passes over a marker before it takes nothing. -/
theorem searchFrom_eq_first_example :
    let p : Pattern :=
      [.wildcard ['x'], .literal '|', .optional ['1'] [['l'], ['r']], .wildcard ['x'], .literal 'e']
    let t : Text := "-ka <re".toList
    let found := p.searchFrom {} t 1 {}
    1 ≤ t.length ∧ (∀ limit, found.1 ≠ .error limit) ∧ found.1 = .ok true ∧
      ∃ ms, p.IsFirst (t.drop 1) ms ∧ found.2.bindings = boundBy ms [] ∧
        found.2.bindings.get? ['x'] = some ['k', 'a'] ∧ found.2.trace = ['|'] := by
  intro p t found
  have hfound : found.1 = .ok true := rfl
  have hb : ∀ limit, found.1 ≠ .error limit := by
    rw [hfound]
    exact fun limit h => by cases h
  obtain ⟨ms, hfirst, hbindings, -, -⟩ :=
    (searchFrom_eq_first {} p t (by decide) {} hb).2 hfound
  exact ⟨by decide, hb, hfound, ms, hfirst, hbindings, rfl, rfl⟩

end Pattern

end Inflection
