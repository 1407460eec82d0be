import Inflection.Generator
import Inflection.Proofs.Gloss.Ordered
import Inflection.Proofs.Rule.Applied

/-!
# Generation as independent runs

Words are offered to a rule in waves, and words that come out alike are one word from there on.
None of this can be seen in the outcome: `Generator.mem_generate_iff_exists_run` says that a word is
generated if and only if it is where a single word ends up that is taken from rule to rule by
itself, so the words of a wave have no part in each other, and no order among them counts.

Rules realize the forms of words and leave their glosses alone, but for blanks: a pattern rule types
some of those that come first.  So the gloss of a generated word is a given one with its first
blanks typed, whatever rules the word went through.
-/

namespace Inflection

namespace Rule

/-- Where a rule takes a word.  One that does not apply lets the word pass; one that applies takes
it to each of its outputs, with the gloss as it is typed now. -/
inductive Leads (r : Rule) (w : GlossedWord) : GlossedWord → Prop where
  | pass (h : (r.apply w).value = none) : Leads r w w
  | rewrite {z : Realization} {form : Text} (h : (r.apply w).value = some z)
      (hform : form ∈ z.outputs) : Leads r w ⟨z.gloss, form⟩

section

variable {r : Rule} {v w : GlossedWord} {ws ws' : List GlossedWord}

theorem mem_offer_iff : w ∈ (r.offer v).value ↔ r.Leads v w := by
  rw [offer, Noted.value_bind]
  cases h : (r.apply v).value with
  | none =>
    constructor
    · intro hw
      rw [List.mem_singleton.1 hw]
      exact .pass h
    · rintro (_ | ⟨hz, -⟩)
      · exact List.mem_singleton_self _
      · cases h.symm.trans hz
  | some z =>
    constructor
    · intro hw
      obtain ⟨form, hform, rfl⟩ := List.mem_map.1 hw
      exact .rewrite h hform
    · rintro (hnone | ⟨hz, hform⟩)
      · cases h.symm.trans hnone
      · cases h.symm.trans hz
        exact List.mem_map_of_mem hform

theorem mem_flatten_offers :
    w ∈ (Noted.each r.offer ws).value.flatten ↔ ∃ v ∈ ws, r.Leads v w := by
  rw [Noted.value_each, List.mem_flatten]
  constructor
  · rintro ⟨_, hout, hw⟩
    obtain ⟨v, hv, rfl⟩ := List.mem_map.1 hout
    exact ⟨v, hv, mem_offer_iff.1 hw⟩
  · rintro ⟨v, hv, hw⟩
    exact ⟨_, List.mem_map_of_mem hv, mem_offer_iff.2 hw⟩

theorem mem_wave_iff : w ∈ (r.wave ws).value ↔ ∃ v ∈ ws, r.Leads v w :=
  mem_distinct.trans mem_flatten_offers

/-- A wave comes to the same words in whatever order it is walked. -/
theorem value_wave_congr (h : ∀ w, w ∈ ws ↔ w ∈ ws') : (r.wave ws).value = (r.wave ws').value := by
  refine distinct_congr GlossedWord.isOrder_precedes fun w => ?_
  simp only [mem_flatten_offers, h]

end

/-! ## Runs -/

/-- A word is taken from one rule to the next. -/
inductive Run : List Rule → GlossedWord → GlossedWord → Prop where
  | done {w : GlossedWord} : Run [] w w
  | step {r : Rule} {rules : List Rule} {u v w : GlossedWord} (h : r.Leads u v)
      (h' : Run rules v w) : Run (r :: rules) u w

/-- What waves come to if each of them is walked in some order. -/
inductive Waves : List Rule → List GlossedWord → List GlossedWord → Prop where
  | done {ws : List GlossedWord} : Waves [] ws ws
  | wave {r : Rule} {rules : List Rule} {ws walk out : List GlossedWord} (hwalk : walk.Perm ws)
      (h : Waves rules (r.wave walk).value out) : Waves (r :: rules) ws out

variable {rules : List Rule} {u w : GlossedWord} {ws out : List GlossedWord}

/-- What comes out of the rules is where runs end. -/
theorem mem_cascade_iff : w ∈ (cascade rules ws).value ↔ ∃ v ∈ ws, Run rules v w := by
  rw [cascade, Noted.value_foldlM]
  induction rules generalizing ws with
  | nil =>
    constructor
    · exact fun hw => ⟨w, hw, .done⟩
    · rintro ⟨_, hv, ⟨⟩⟩
      exact hv
  | cons r rules ih =>
    rw [List.foldl_cons, ih]
    constructor
    · rintro ⟨v, hv, hrun⟩
      obtain ⟨u, hu, hlead⟩ := mem_wave_iff.1 hv
      exact ⟨u, hu, .step hlead hrun⟩
    · rintro ⟨u, hu, _ | ⟨hlead, hrun⟩⟩
      exact ⟨_, mem_wave_iff.2 ⟨u, hu, hlead⟩, hrun⟩

/-- What every rule keeps where it takes a word, a run keeps. -/
theorem Run.keeps {P : GlossedWord → Prop} (hrun : Run rules u w)
    (h : ∀ r ∈ rules, ∀ v v', r.Leads v v' → P v → P v') (hu : P u) : P w := by
  induction hrun with
  | done => exact hu
  | step hlead _ ih =>
    obtain ⟨hr, hrules⟩ := List.forall_mem_cons.1 h
    exact ih hrules (hr _ _ hlead hu)

/-- The words that a run goes through, one after each rule. -/
theorem run_iff_exists_words :
    Run rules u w ↔ ∃ words : Nat → GlossedWord, words 0 = u ∧ words rules.length = w ∧
      ∀ (k : Nat) (hk : k < rules.length), rules[k].Leads (words k) (words (k + 1)) := by
  constructor
  · intro h
    induction h with
    | @done w => exact ⟨fun _ => w, rfl, rfl, fun k hk => absurd hk (Nat.not_lt_zero k)⟩
    | @step r rules u v w hlead _ ih =>
      obtain ⟨words, rfl, rfl, hwords⟩ := ih
      refine ⟨fun k => k.casesOn u words, rfl, rfl, ?_⟩
      rintro (_ | k) hk
      · exact hlead
      · exact hwords k (Nat.lt_of_succ_lt_succ hk)
  · rintro ⟨words, rfl, rfl, hwords⟩
    induction rules generalizing words with
    | nil => exact .done
    | cons r rules ih =>
      refine .step (hwords 0 (Nat.succ_pos _)) ?_
      exact ih (fun k => words (k + 1)) fun k hk => hwords (k + 1) (Nat.succ_lt_succ hk)

/-- No order among the words of a wave counts. -/
theorem waves_iff : Waves rules ws out ↔ out = (cascade rules ws).value := by
  rw [cascade, Noted.value_foldlM]
  induction rules generalizing ws with
  | nil =>
    constructor
    · rintro ⟨⟩
      rfl
    · rintro rfl
      exact .done
  | cons r rules ih =>
    rw [List.foldl_cons]
    constructor
    · rintro (_ | ⟨hwalk, h⟩)
      rw [value_wave_congr fun w => hwalk.mem_iff] at h
      exact ih.1 h
    · exact fun h => .wave (.refl ws) (ih.2 h)

end Rule

namespace Generator

/-- What comes out of the rules is generated, unless something is found in its form. -/
theorem mem_generate {g : Generator} {ws : List GlossedWord} {w : GlossedWord} :
    w ∈ (g.generate ws).value ↔
      w ∈ (Rule.cascade g.rules (distinct GlossedWord.precedes ws)).value ∧
        g.unrealized.finds w.form = false := by
  refine List.mem_filter.trans (and_congr_right fun _ => ?_)
  rw [Bool.not_eq_true']

/-- What is generated is where runs of the given words end, unless something is found in its
form. -/
theorem mem_generate_iff_run {g : Generator} {ws : List GlossedWord} {w : GlossedWord} :
    w ∈ (g.generate ws).value ↔
      (∃ v ∈ ws, Rule.Run g.rules v w) ∧ g.unrealized.finds w.form = false := by
  rw [mem_generate, Rule.mem_cascade_iff]
  simp only [mem_distinct]

/-- The inflections of a word are what is generated of its glosses. -/
theorem mem_inflections_iff {g : Generator} {word pos : Text} {w : GlossedWord} :
    w ∈ (g.inflections word pos).value ↔
      ∃ gloss ∈ (g.glosses word pos).value, w ∈ (g.generate [.ofGloss gloss]).value := by
  rw [inflections, Noted.value_bind, Noted.value_bind, Noted.value_pure, mem_distinct,
    Noted.value_each]
  simp only [List.mem_flatten, List.mem_map, exists_exists_and_eq_and]

theorem nodup_inflections (g : Generator) (word pos : Text) :
    (g.inflections word pos).value.Nodup :=
  (pairwise_distinct GlossedWord.isOrder_precedes _).imp And.right

/-- **Generation is a matter of single words.**  A word is generated if and only if it is where a
run of one of the given words ends, and nothing is found in its form.  So what is generated of two
collections together is what is generated of either, and in whatever order the words of each wave
are offered to a rule, the same comes out. -/
theorem mem_generate_iff_exists_run (g : Generator) :
    (∀ ws w, w ∈ (g.generate ws).value ↔
      (∃ words : Nat → GlossedWord, words 0 ∈ ws ∧ words g.rules.length = w ∧
        ∀ (k : Nat) (hk : k < g.rules.length), g.rules[k].Leads (words k) (words (k + 1))) ∧
      g.unrealized.finds w.form = false) ∧
    (∀ ws ws' w, w ∈ (g.generate (ws ++ ws')).value ↔
      w ∈ (g.generate ws).value ∨ w ∈ (g.generate ws').value) ∧
    ∀ ws realized,
      (∃ out, Rule.Waves g.rules (distinct GlossedWord.precedes ws) out ∧
        realized = out.filter fun w => !g.unrealized.finds w.form) ↔
      realized = (g.generate ws).value := by
  refine ⟨fun ws w => ?_, fun ws ws' w => ?_, fun ws realized => ?_⟩
  · rw [mem_generate_iff_run]
    refine and_congr_left' ?_
    simp only [Rule.run_iff_exists_words]
    constructor
    · rintro ⟨_, hv, words, rfl, hwords⟩
      exact ⟨words, hv, hwords⟩
    · rintro ⟨words, hv, hwords⟩
      exact ⟨_, hv, words, rfl, hwords⟩
  · simp only [mem_generate_iff_run, List.mem_append, or_and_right, exists_or]
  · simp only [Rule.waves_iff, exists_eq_left]
    rfl

end Generator

/-! ## What becomes of glosses -/

namespace Rule

variable {rules : List Rule} {u v w : GlossedWord}

theorem Leads.retyped {r : Rule} (h : r.Leads v w) : ∃ k, Gloss.Retyped k v.gloss w.gloss := by
  cases h with
  | pass => exact ⟨0, .rest⟩
  | rewrite hz => exact exists_retyped_of_apply hz

theorem Run.retyped (h : Run rules u w) : ∃ k, Gloss.Retyped k u.gloss w.gloss := by
  refine h.keeps (P := fun v => ∃ k, Gloss.Retyped k u.gloss v.gloss) ?_ ⟨0, .rest⟩
  rintro r - v v' hlead ⟨j, hj⟩
  obtain ⟨k, hk⟩ := hlead.retyped
  exact ⟨j + k, hj.trans hk⟩

end Rule

namespace Generator

theorem value_glosses {g : Generator} {pos : Text} {p : Paradigm}
    (hp : g.paradigms.get? pos = some p) (word : Text) :
    (g.glosses word pos).value = p.glosses word := by
  rw [glosses, hp]
  rfl

/-- The gloss of an inflection is one that the word can take, with its first blanks typed. -/
theorem exists_retyped_of_mem_inflections {g : Generator} {word pos : Text} {w : GlossedWord}
    (h : w ∈ (g.inflections word pos).value) :
    ∃ gloss ∈ (g.glosses word pos).value, ∃ k, Gloss.Retyped k gloss w.gloss := by
  obtain ⟨gloss, hgloss, hw⟩ := mem_inflections_iff.1 h
  obtain ⟨⟨v, hv, hrun⟩, -⟩ := mem_generate_iff_run.1 hw
  rw [List.mem_singleton.1 hv] at hrun
  exact ⟨gloss, hgloss, hrun.retyped⟩

/-- **A gloss is only ever typed, from the left.**  The gloss of a generated word is the one that
was given, with its first blanks typed, each with a marker or with the halves of an infix slot. -/
theorem exists_retyped_of_mem_generate (g : Generator) :
    (∀ gloss, ∀ w ∈ (g.generate [.ofGloss gloss]).value,
      ∃ k ≤ gloss.count blank, Gloss.Retyped k gloss w.gloss) ∧
    ∀ ws, ∀ w ∈ (g.generate ws).value,
      ∃ u ∈ ws, ∃ k ≤ u.gloss.count blank, Gloss.Retyped k u.gloss w.gloss := by
  have hall : ∀ ws, ∀ w ∈ (g.generate ws).value,
      ∃ u ∈ ws, ∃ k ≤ u.gloss.count blank, Gloss.Retyped k u.gloss w.gloss := by
    intro ws w hw
    obtain ⟨⟨u, hu, hrun⟩, -⟩ := mem_generate_iff_run.1 hw
    obtain ⟨k, hk⟩ := hrun.retyped
    exact ⟨u, hu, k, hk.le_count, hk⟩
  refine ⟨fun gloss w hw => ?_, hall⟩
  obtain ⟨u, hu, hretyped⟩ := hall _ w hw
  rw [List.mem_singleton.1 hu] at hretyped
  exact hretyped

/-- Two rules that take the last two blanks; what they stand for goes into the first two. -/
theorem exists_retyped_of_mem_generate_example :
    let plural : PatternRule :=
      { name := ['p'], written := [], pattern := [.wildcard ['x'], .literal '<', .literal '>',
          .literal 'P', .wildcard ['y']], templates := [[.reference ['x'], .reference ['y']]] }
    let genitive : PatternRule :=
      { name := ['g'], written := [], pattern := [.wildcard ['x'], .literal '|', .literal 'G'],
        templates := [[.reference ['x'], .text ['e']]] }
    let g : Generator := { rules := [.pattern plural, .pattern genitive] }
    let gloss : Text := ['a', ' ', 'b', ' ', 'P', ' ', 'G']
    let w : GlossedWord := ⟨['a', '<', '>', 'b', '|', 'P', ' ', 'G'], ['a', ' ', 'b', 'e']⟩
    w ∈ (g.generate [.ofGloss gloss]).value ∧
      ∃ k ≤ gloss.count blank, Gloss.Retyped k gloss w.gloss := by
  intro plural genitive g gloss w
  have hrun : Rule.Run g.rules (.ofGloss gloss) w :=
    .step (.rewrite rfl List.mem_cons_self) (.step (.rewrite rfl List.mem_cons_self) .done)
  have hw : w ∈ (g.generate [.ofGloss gloss]).value :=
    mem_generate_iff_run.2 ⟨⟨_, List.mem_singleton_self _, hrun⟩, rfl⟩
  exact ⟨hw, (exists_retyped_of_mem_generate g).1 gloss w hw⟩

end Generator

end Inflection
