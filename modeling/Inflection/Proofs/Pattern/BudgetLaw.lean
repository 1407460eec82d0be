import Inflection.Proofs.Pattern.Course

/-!
# What a budget does to a search

Three numbers of the search without limits decide what becomes of it under a budget: how many visits
it makes, how deeply they are nested at most, and which visit is the first one below a given depth.
`Pattern.searchAt_budget` is the exact law.  A search whose visits can all be afforded comes to
what it comes to without limits; any other one is given up at the first visit that cannot be
afforded, for its depth if that is too great, and for its number otherwise.

The three outcomes are first proved of `Exploration.pay`, by following the visits that can be
afforded up to the one that cannot.
-/

namespace Inflection

namespace Exploration

variable {δ ε : Type} (giveUp : Limit → ε) (b : Budget)

/-- How many visits are made. -/
def visits (e : Exploration δ) : Nat := e.depths.length

/-- How deeply visits are nested at most. -/
def deepest (e : Exploration δ) : Nat := e.depths.foldr max 0

/-- The number of the first visit that is nested more deeply than `depth`, counted from one on. -/
def firstBelow? (depth : Int) (e : Exploration δ) : Option Nat :=
  (e.depths.findIdx? fun d : Nat => depth < d).map (· + 1)

/-- What the search answers. -/
def answer (depart : δ → ε) (e : Exploration δ) : Except ε Bool :=
  match e.outcome with
  | .error d => .error (depart d)
  | .ok r => .ok r.isSome

/-- The moves by which the search succeeds, none if it does not. -/
def moves (e : Exploration δ) : List Move :=
  match e.outcome with
  | .ok (some ms) => ms
  | _ => []

theorem settle_eq (depart : δ → ε) (e : Exploration δ) (s : Progress) :
    settle depart e.outcome s =
      (e.answer depart,
        { s with
          bindings := boundBy e.moves s.bindings
          trace := markersOf e.moves ++ s.trace }) := by
  unfold answer moves
  rcases e.outcome with d | _ | ms
  · rfl
  · rfl
  · rw [settle, writeAll_eq]
    rfl

/-! ## Paying for visits -/

/-- Visits that can all be afforded cost a step each, and nothing else. -/
theorem pay_of_le {ds : List Nat} {s : Progress} (a : SearchOr ε)
    (hs : ((s.steps + ds.length : Nat) : Int) ≤ b.maxSteps)
    (hd : ∀ d ∈ ds, ((s.depth + d : Nat) : Int) ≤ b.maxDepth) :
    pay giveUp b ds a s = a { s with steps := s.steps + ds.length } := by
  induction ds generalizing s with
  | nil => rfl
  | cons d ds ih =>
    rw [List.length_cons] at hs
    have hsteps : ¬ b.maxSteps < (s.steps + 1 : Nat) := by omega
    have hdepth : ¬ b.maxDepth < (s.depth + d : Nat) :=
      Int.not_lt.2 (hd d List.mem_cons_self)
    have hs' : ((s.steps + 1 + ds.length : Nat) : Int) ≤ b.maxSteps := by omega
    simp only [pay, if_neg hsteps, if_neg hdepth]
    refine (ih (s := { s with steps := s.steps + 1 }) hs'
      (fun d' hd' => hd d' (List.mem_cons_of_mem d hd'))).trans ?_
    simp only [List.length_cons, Nat.add_assoc, Nat.add_comm 1]

/-- A search is given up at the first visit that is too deep, if its number is not too great. -/
theorem pay_of_lt_depth {ds ds' : List Nat} {d : Nat} {s : Progress} (a : SearchOr ε)
    (hs : ((s.steps + ds.length + 1 : Nat) : Int) ≤ b.maxSteps)
    (hd : ∀ d ∈ ds, ((s.depth + d : Nat) : Int) ≤ b.maxDepth)
    (hdeep : b.maxDepth < ((s.depth + d : Nat) : Int)) :
    pay giveUp b (ds ++ d :: ds') a s =
      (.error (giveUp (.depth b.maxDepth)),
        { s with steps := s.steps + ds.length + 1, depth := s.depth + 1 }) := by
  rw [pay_append, pay_of_le giveUp b _ (by omega) hd]
  have hsteps : ¬ b.maxSteps < (s.steps + ds.length + 1 : Nat) := by omega
  simp only [pay, if_neg hsteps, if_pos hdeep]

/-- A search is given up at the first visit whose number is too great, if none before it is too
deep. -/
theorem pay_of_lt_steps {ds ds' : List Nat} {d : Nat} {s : Progress} (a : SearchOr ε)
    (hs : ((s.steps + ds.length : Nat) : Int) ≤ b.maxSteps)
    (hd : ∀ d ∈ ds, ((s.depth + d : Nat) : Int) ≤ b.maxDepth)
    (hlong : b.maxSteps < ((s.steps + ds.length + 1 : Nat) : Int)) :
    pay giveUp b (ds ++ d :: ds') a s =
      (.error (giveUp (.steps b.maxSteps)), { s with steps := s.steps + ds.length + 1 }) := by
  rw [pay_append, pay_of_le giveUp b _ hs hd]
  simp only [pay, if_pos hlong]

/-! ## The three numbers -/

theorem deepest_le_iff {e : Exploration δ} {depth : Int} (he : e.depths ≠ []) :
    (e.deepest : Int) ≤ depth ↔ ∀ d ∈ e.depths, (d : Int) ≤ depth := by
  have hfold : ∀ ds : List Nat,
      ((ds.foldr max 0 : Nat) : Int) ≤ depth ↔ 0 ≤ depth ∧ ∀ d ∈ ds, (d : Int) ≤ depth := by
    intro ds
    induction ds with
    | nil => simp
    | cons d ds ih =>
      have hmax : ((max d (ds.foldr max 0) : Nat) : Int) ≤ depth ↔
          (d : Int) ≤ depth ∧ ((ds.foldr max 0 : Nat) : Int) ≤ depth := by omega
      rw [List.foldr_cons, List.forall_mem_cons, hmax, ih]
      exact and_left_comm
  unfold deepest
  rw [hfold]
  constructor
  · exact fun h => h.2
  · intro h
    obtain ⟨d, ds, hds⟩ := List.exists_cons_of_ne_nil he
    have hd := h d (hds ▸ List.mem_cons_self)
    exact ⟨by omega, h⟩

/-- The first visit below a depth, with those before it, which are not. -/
theorem exists_append_of_firstBelow? {e : Exploration δ} {depth : Int} {v : Nat}
    (h : e.firstBelow? depth = some v) :
    ∃ (ds : List Nat) (d : Nat) (ds' : List Nat),
      e.depths = ds ++ d :: ds' ∧ v = ds.length + 1 ∧ depth < d ∧
      ∀ d ∈ ds, (d : Int) ≤ depth := by
  obtain ⟨i, hi, rfl⟩ := Option.map_eq_some_iff.1 h
  obtain ⟨hlt, hdeep, hbefore⟩ := List.findIdx?_eq_some_iff_getElem.1 hi
  refine ⟨e.depths.take i, e.depths[i], e.depths.drop (i + 1), ?_, ?_, ?_, ?_⟩
  · rw [List.getElem_cons_drop, List.take_append_drop]
  · rw [List.length_take_of_le (Nat.le_of_lt hlt)]
  · simpa using hdeep
  · intro d hd
    obtain ⟨j, hj, rfl⟩ := List.mem_take_iff_getElem.1 hd
    simpa using hbefore j (by omega)

/-- No visit before the first one below a depth is below it. -/
theorem le_of_mem_take_of_firstBelow? {e : Exploration δ} {depth : Int} {n d : Nat}
    (h : ∀ v, e.firstBelow? depth = some v → n < v) (hd : d ∈ e.depths.take n) :
    (d : Int) ≤ depth := by
  obtain ⟨j, hj, rfl⟩ := List.mem_take_iff_getElem.1 hd
  by_contra hlt
  rcases hv : e.firstBelow? depth with _ | v
  · have hnone := List.findIdx?_eq_none_iff.1 (Option.map_eq_none_iff.1 hv)
    have := hnone _ (List.getElem_mem (by omega : j < e.depths.length))
    simp only [decide_eq_false_iff_not] at this
    omega
  · obtain ⟨ds, d, ds', he, rfl, -, hbefore⟩ := exists_append_of_firstBelow? hv
    have hn := h _ hv
    have hj' : j < ds.length := by omega
    have hmem : e.depths[j] ∈ ds := by
      simp only [he, List.getElem_append_left hj']
      exact List.getElem_mem hj'
    exact hlt (hbefore _ hmem)

/-! ## The law -/

section Law

variable (depart : δ → ε) {e : Exploration δ} {s : Progress}

/-- A budget that covers all visits changes nothing; each visit costs one step. -/
theorem under_of_le (hs : s.steps = 0) (hd : s.depth = 0) (he : e.depths ≠ [])
    (h : (e.visits : Int) ≤ b.maxSteps ∧ (e.deepest : Int) ≤ b.maxDepth) :
    under giveUp depart b e s =
      (e.answer depart,
        { s with
          steps := e.visits
          bindings := boundBy e.moves s.bindings
          trace := markersOf e.moves ++ s.trace }) := by
  obtain ⟨hvisits, hdeepest⟩ := h
  rw [deepest_le_iff he] at hdeepest
  unfold under
  rw [pay_of_le giveUp b _ (by rw [hs, Nat.zero_add]; exact hvisits)
    (fun d hmem => by rw [hd, Nat.zero_add]; exact hdeepest d hmem), hs, Nat.zero_add, settle_eq]
  rfl

/-- The error of depth, which leaves one level open. -/
theorem under_of_firstBelow? (hs : s.steps = 0) (hd : s.depth = 0) {v : Nat}
    (hv : e.firstBelow? b.maxDepth = some v) (hle : (v : Int) ≤ b.maxSteps) :
    under giveUp depart b e s =
      (.error (giveUp (.depth b.maxDepth)), { s with steps := v, depth := 1 }) := by
  obtain ⟨ds, d, ds', he, rfl, hdeep, hbefore⟩ := exists_append_of_firstBelow? hv
  unfold under
  rw [he, pay_of_lt_depth giveUp b _ (by rw [hs, Nat.zero_add]; exact hle)
    (fun d hmem => by rw [hd, Nat.zero_add]; exact hbefore d hmem)
    (by rw [hd, Nat.zero_add]; exact hdeep), hs, hd, Nat.zero_add, Nat.zero_add]

/-- The error of steps, at the visit after the last one that is allowed. -/
theorem under_of_lt_steps (hs : s.steps = 0) (hd : s.depth = 0) (he : e.depths ≠ [])
    (h : ¬ ((e.visits : Int) ≤ b.maxSteps ∧ (e.deepest : Int) ≤ b.maxDepth))
    (hv : ∀ v, e.firstBelow? b.maxDepth = some v → b.maxSteps < v) :
    under giveUp depart b e s =
      (.error (giveUp (.steps b.maxSteps)), { s with steps := b.maxSteps.toNat + 1 }) := by
  obtain ⟨d, ds, hds⟩ := List.exists_cons_of_ne_nil he
  unfold under
  rcases Int.lt_or_le b.maxSteps 0 with hneg | hpos
  · have hfirst : b.maxSteps < (s.steps + 1 : Nat) := by omega
    rw [hds, pay, if_pos hfirst, hs, Int.toNat_of_nonpos (by omega)]
  · obtain ⟨n, hn⟩ := Int.eq_ofNat_of_zero_le hpos
    have hshallow : ∀ d ∈ e.depths.take n, (d : Int) ≤ b.maxDepth := fun d hmem =>
      le_of_mem_take_of_firstBelow? (fun v hv' => by have := hv v hv'; omega) hmem
    have hlt : n < e.depths.length := by
      by_contra hge
      rw [List.take_of_length_le (by omega)] at hshallow
      exact h ⟨by unfold visits; omega, (deepest_le_iff he).2 hshallow⟩
    have hlen : (e.depths.take n).length = n := List.length_take_of_le (Nat.le_of_lt hlt)
    have hsplit : e.depths = e.depths.take n ++ e.depths[n] :: e.depths.drop (n + 1) := by
      rw [List.getElem_cons_drop, List.take_append_drop]
    rw [hsplit, pay_of_lt_steps giveUp b _ (by rw [hs, hlen]; omega)
      (fun d hmem => by rw [hd, Nat.zero_add]; exact hshallow d hmem) (by rw [hs, hlen]; omega),
      hs, hlen, hn, Int.toNat_natCast, Nat.zero_add]

end Law

end Exploration

open Exploration

namespace Pattern

/-! ## Every search makes a visit -/

theorem explore_depths_ne_nil (p : Pattern) (t : Text) : (p.explore t).depths ≠ [] := by
  cases p with
  | nil => cases t <;> exact List.cons_ne_nil _ _
  | cons e p => cases e <;> cases t <;> exact List.cons_ne_nil _ _

theorem exploreRound_depths_ne_nil (whole : Text) (p : Pattern) (t : Text) :
    (p.exploreRound whole t).depths ≠ [] := by
  cases p with
  | nil => cases t <;> exact List.cons_ne_nil _ _
  | cons e p => cases e <;> cases t <;> exact List.cons_ne_nil _ _

theorem exploreAt_depths_ne_nil (p : Pattern) (t : Text) (start : Int) :
    (p.exploreAt t start).depths ≠ [] := by
  cases start with
  | ofNat n =>
    change (p.exploreFrom t n).depths ≠ []
    unfold exploreFrom
    split
    next => exact explore_depths_ne_nil p _
    next =>
      cases p with
      | nil => exact List.cons_ne_nil _ _
      | cons e p => cases e <;> exact List.cons_ne_nil _ _
  | negSucc n =>
    rw [exploreAt]
    split
    next => exact exploreRound_depths_ne_nil t p _
    next =>
      cases p with
      | nil => exact List.cons_ne_nil _ _
      | cons e p => cases e <;> exact List.cons_ne_nil _ _

/-- **The budget law.**  Let `run` be the search from any position without limits.  A budget that
covers its visits and their depth changes nothing of what it comes to.  Under any other budget the
search is given up with the bindings and the trace untouched: at the first visit that is too deep,
if the steps last that far, with one level left open; else at the first visit that exceeds the
steps, with none.  So no answer that a search comes to changes with a greater budget. -/
theorem searchAt_budget (p : Pattern) (t : Text) (start : Int) (bindings : Bindings)
    (trace : List Char) (maxSteps maxDepth : Int) :
    let run := p.exploreAt t start
    let fits : Prop := (run.visits : Int) ≤ maxSteps ∧ (run.deepest : Int) ≤ maxDepth
    let found := p.searchAt { maxSteps, maxDepth } t start { bindings, trace }
    (fits →
      found =
        (run.answer .outside,
          { steps := run.visits
            depth := 0
            bindings := boundBy run.moves bindings
            trace := markersOf run.moves ++ trace })) ∧
    (¬ fits →
      (∀ v, run.firstBelow? maxDepth = some v → (v : Int) ≤ maxSteps →
        found =
          (.error (.limit (.depth maxDepth)), { steps := v, depth := 1, bindings, trace })) ∧
      ((∀ v, run.firstBelow? maxDepth = some v → maxSteps < v) →
        found =
          (.error (.limit (.steps maxSteps)),
            { steps := maxSteps.toNat + 1, depth := 0, bindings, trace }))) ∧
    ((∀ limit, found.1 ≠ .error (.limit limit)) →
      ∀ maxSteps' maxDepth' : Int, maxSteps ≤ maxSteps' → maxDepth ≤ maxDepth' →
        p.searchAt { maxSteps := maxSteps', maxDepth := maxDepth' } t start { bindings, trace } =
          found) := by
  intro run fits found
  have hrun : run.depths ≠ [] := exploreAt_depths_ne_nil p t start
  have hfound (b : Budget) (s : Progress) :
      p.searchAt b t start s = under .limit .outside b run s := by
    rw [searchAt_eq_under]
  have hdeep : ∀ v, run.firstBelow? maxDepth = some v → (v : Int) ≤ maxSteps →
      found = (.error (.limit (.depth maxDepth)), { steps := v, depth := 1, bindings, trace }) :=
    fun v hv hle => (hfound _ _).trans (under_of_firstBelow? _ _ _ rfl rfl hv hle)
  have hlong : ¬ fits → (∀ v, run.firstBelow? maxDepth = some v → maxSteps < v) →
      found = (.error (.limit (.steps maxSteps)),
        { steps := maxSteps.toNat + 1, depth := 0, bindings, trace }) :=
    fun hf hv => (hfound _ _).trans (under_of_lt_steps _ _ _ rfl rfl hrun hf hv)
  refine ⟨?_, fun hf => ⟨hdeep, hlong hf⟩, ?_⟩
  · exact fun hf => (hfound _ _).trans (under_of_le _ _ _ rfl rfl hrun hf)
  · intro hlimit maxSteps' maxDepth' hsteps hdepth
    have hf : fits := by
      by_contra hf
      by_cases hv : ∀ v, run.firstBelow? maxDepth = some v → maxSteps < v
      · exact hlimit _ (congrArg Prod.fst (hlong hf hv))
      · obtain ⟨v, hv'⟩ := not_forall.1 hv
        obtain ⟨hv', hle⟩ := Classical.not_imp.1 hv'
        exact hlimit _ (congrArg Prod.fst (hdeep v hv' (Int.not_lt.1 hle)))
    have hf' : (run.visits : Int) ≤ maxSteps' ∧ (run.deepest : Int) ≤ maxDepth' :=
      ⟨Int.le_trans hf.1 hsteps, Int.le_trans hf.2 hdepth⟩
    exact (hfound _ _).trans ((under_of_le _ _ _ rfl rfl hrun hf').trans
      ((hfound _ _).trans (under_of_le _ _ _ rfl rfl hrun hf)).symm)

end Pattern

end Inflection
