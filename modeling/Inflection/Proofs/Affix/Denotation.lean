import Inflection.Proofs.Affix.Written

/-!
# What an affix expression describes

A choice is made for each item of an expression: nothing, the token, or something that an
alternative of the group describes.  `Affix.mem_expand_write` says that the affixes of a written
expression are exactly the choices that were made, joined by single blanks.
-/

namespace Inflection

open Affix AffixExpression

namespace Affix

/-- Some choices with single blanks between them; empty ones do not count. -/
def joined (choices : List Text) : Text := [' '].intercalate (choices.filter (· ≠ []))

end Affix

namespace AffixExpression

/-- The choices that can be made for the items of an expression, one for each; nothing is chosen
where the text is empty. -/
inductive Chooses : AffixExpression → List Text → Prop where
  | done : Chooses .done []
  | leaveToken {w : Text} {rest : AffixExpression} {cs : List Text} (h : Chooses rest cs) :
      Chooses (.token w rest) ([] :: cs)
  /-- An underscore in a token is a blank. -/
  | takeToken {w : Text} {rest : AffixExpression} {cs : List Text} (h : Chooses rest cs) :
      Chooses (.token w rest) (Text.exchange '_' ' ' w :: cs)
  | leaveGroup {alternatives : List AffixExpression} {rest : AffixExpression} {cs : List Text}
      (h : Chooses rest cs) : Chooses (.group alternatives rest) ([] :: cs)
  | takeGroup {alternatives : List AffixExpression} {a rest : AffixExpression}
      {ds cs : List Text} (ha : a ∈ alternatives) (hd : Chooses a ds) (h : Chooses rest cs) :
      Chooses (.group alternatives rest) (joined ds :: cs)

end AffixExpression

namespace Affix

/-! ## Joining -/

@[simp] theorem joined_nil_cons (cs : List Text) : joined ([] :: cs) = joined cs := by
  simp [joined]

theorem joined_cons {c : Text} (hc : c ≠ []) (cs : List Text) :
    joined (c :: cs) = c ++ setOff (joined cs) := by
  have hfilter : (c :: cs).filter (· ≠ []) = c :: cs.filter (· ≠ []) := by simp [hc]
  unfold joined
  rw [hfilter]
  rcases h : cs.filter (· ≠ []) with _ | ⟨d, ds⟩
  · rw [List.intercalate_singleton]
    exact (List.append_nil c).symm
  · have hd : d ≠ [] := by
      have hmem : d ∈ cs.filter (· ≠ []) := h ▸ List.mem_cons_self
      simpa using (List.mem_filter.1 hmem).2
    obtain ⟨x, d', rfl⟩ := List.exists_cons_of_ne_nil hd
    rw [List.intercalate_cons_cons, List.append_assoc]
    cases ds <;> rfl

theorem trimmed_joined {cs : List Text} (h : ∀ c ∈ cs, c.Trimmed) : (joined cs).Trimmed := by
  induction cs with
  | nil => exact Text.trimmed_nil
  | cons c cs ih =>
    rw [List.forall_mem_cons] at h
    by_cases hc : c = []
    · rw [hc, joined_nil_cons]
      exact ih h.2
    · rw [joined_cons hc]
      exact trimmed_append_setOff h.1 hc (ih h.2)

/-- Putting two affixes in a row is joining them. -/
theorem juxtapose_joined {c : Text} {cs : List Text} (hc : c.Trimmed)
    (hcs : ∀ c ∈ cs, c.Trimmed) : juxtapose c (joined cs) = joined (c :: cs) := by
  have hjoined := trimmed_joined hcs
  unfold juxtapose
  by_cases hne : c = []
  · rw [hne, joined_nil_cons, List.nil_append]
    exact hjoined.trim_cons rfl
  · rw [joined_cons hne]
    rcases hd : joined cs with _ | ⟨d, u⟩
    · rw [setOff, List.append_nil]
      exact hc.trim_concat rfl
    · rw [hd] at hjoined
      exact (trimmed_append_setOff hc hne hjoined).trim_eq

end Affix

/-! ## Choices -/

/-- Underscores inside a token become blanks, but its ends are none. -/
theorem IsAffixToken.trimmed_exchange {w : Text} (hw : IsAffixToken w) :
    (Text.exchange '_' ' ' w).Trimmed := by
  have hspace {c : Char} (hc : c ∈ w) (hne : c ≠ '_') :
      Text.isSpace (if c = '_' then ' ' else c) = false := by
    rw [if_neg hne]
    exact hw.isSpace c hc
  constructor
  · intro d hd
    rw [Text.exchange, List.head?_map] at hd
    obtain ⟨c, hc, rfl⟩ := Option.map_eq_some_iff.1 hd
    refine hspace (List.mem_of_mem_head? hc) ?_
    rintro rfl
    exact hw.head hc
  · intro d hd
    rw [Text.exchange, List.getLast?_map] at hd
    obtain ⟨c, hc, rfl⟩ := Option.map_eq_some_iff.1 hd
    refine hspace (List.mem_of_mem_getLast? hc) ?_
    rintro rfl
    exact hw.last hc

namespace AffixExpression

variable {e : AffixExpression} {cs : List Text}

theorem Chooses.trimmed (h : e.Chooses cs) (he : e.WellFormed) : ∀ c ∈ cs, c.Trimmed := by
  induction h with
  | done => exact List.forall_mem_nil _
  | leaveToken _ ih =>
    cases he with
    | token _ hrest => exact List.forall_mem_cons.2 ⟨Text.trimmed_nil, ih hrest⟩
  | takeToken _ ih =>
    cases he with
    | token hw hrest => exact List.forall_mem_cons.2 ⟨hw.trimmed_exchange, ih hrest⟩
  | leaveGroup _ ih =>
    cases he with
    | group _ _ hrest => exact List.forall_mem_cons.2 ⟨Text.trimmed_nil, ih hrest⟩
  | takeGroup ha _ _ ihd ih =>
    cases he with
    | group _ h hrest =>
      exact List.forall_mem_cons.2 ⟨trimmed_joined (ihd (h _ ha)), ih hrest⟩

/-- Every item can be left out. -/
theorem exists_chooses_nil (he : e.WellFormed) : ∃ cs, e.Chooses cs ∧ joined cs = [] := by
  induction he with
  | done => exact ⟨[], .done, rfl⟩
  | token _ _ ih =>
    obtain ⟨cs, hcs, h⟩ := ih
    exact ⟨[] :: cs, .leaveToken hcs, h⟩
  | group _ _ _ _ ih =>
    obtain ⟨cs, hcs, h⟩ := ih
    exact ⟨[] :: cs, .leaveGroup hcs, h⟩

/-- An affix of an expression that begins with a token: one of the rest, with the token before it or
without. -/
theorem mem_affixes_token {w a : Text} {rest : AffixExpression} :
    a ∈ (token w rest).affixes ↔
      a = [] ∨ (∃ b ∈ rest.affixes, juxtapose (Text.exchange '_' ' ' w) b = a) ∨
        a ∈ rest.affixes := by
  rw [affixes, mem_distinct, List.mem_append, List.mem_cons, List.mem_map, or_assoc]

/-- An affix of an expression that begins with a group: one of an alternative and one of the rest.
-/
theorem mem_affixes_group {alternatives : List AffixExpression} {rest : AffixExpression}
    {a : Text} :
    a ∈ (group alternatives rest).affixes ↔
      a = [] ∨ ∃ e ∈ alternatives, ∃ d ∈ e.affixes, ∃ b ∈ rest.affixes, juxtapose d b = a := by
  rw [affixes, mem_distinct, List.mem_cons]
  simp only [List.mem_flatMap, List.mem_map]
  constructor
  · rintro (h | ⟨d, ⟨e, he, hd⟩, b, hb, h⟩)
    · exact Or.inl h
    · exact Or.inr ⟨e, he, d, hd, b, hb, h⟩
  · rintro (h | ⟨e, he, d, hd, b, hb, h⟩)
    · exact Or.inl h
    · exact Or.inr ⟨d, ⟨e, he, hd⟩, b, hb, h⟩

/-- The affixes of an expression are its choices, joined. -/
theorem mem_affixes_iff (he : e.WellFormed) (a : Text) :
    a ∈ e.affixes ↔ ∃ cs, e.Chooses cs ∧ a = joined cs := by
  induction he generalizing a with
  | done =>
    rw [affixes, List.mem_singleton]
    constructor
    · rintro rfl
      exact ⟨[], .done, rfl⟩
    · rintro ⟨cs, h, rfl⟩
      cases h
      rfl
  | @token w rest hw hrest ih =>
    have hjoin {cs : List Text} (h : rest.Chooses cs) :
        juxtapose (Text.exchange '_' ' ' w) (joined cs) =
          joined (Text.exchange '_' ' ' w :: cs) :=
      juxtapose_joined hw.trimmed_exchange (h.trimmed hrest)
    rw [mem_affixes_token]
    constructor
    · rintro (rfl | ⟨b, hb, rfl⟩ | ha)
      · obtain ⟨cs, h, hnil⟩ := exists_chooses_nil (.token hw hrest)
        exact ⟨cs, h, hnil.symm⟩
      · obtain ⟨cs, h, rfl⟩ := (ih b).1 hb
        exact ⟨_, .takeToken h, hjoin h⟩
      · obtain ⟨cs, h, rfl⟩ := (ih a).1 ha
        exact ⟨_, .leaveToken h, (joined_nil_cons cs).symm⟩
    · rintro ⟨cs, h, rfl⟩
      cases h with
      | leaveToken h =>
        rw [joined_nil_cons]
        exact Or.inr (Or.inr ((ih _).2 ⟨_, h, rfl⟩))
      | takeToken h => exact Or.inr (Or.inl ⟨_, (ih _).2 ⟨_, h, rfl⟩, hjoin h⟩)
  | @group alternatives rest hne halt hrest ih ihrest =>
    have hjoin {a : AffixExpression} (ha : a ∈ alternatives) {ds cs : List Text}
        (hd : a.Chooses ds) (h : rest.Chooses cs) :
        juxtapose (joined ds) (joined cs) = joined (joined ds :: cs) :=
      juxtapose_joined (trimmed_joined (hd.trimmed (halt a ha))) (h.trimmed hrest)
    rw [mem_affixes_group]
    constructor
    · rintro (rfl | ⟨e, he, d, hd, b, hb, rfl⟩)
      · obtain ⟨cs, h, hnil⟩ := exists_chooses_nil (.group hne halt hrest)
        exact ⟨cs, h, hnil.symm⟩
      · obtain ⟨ds, hds, rfl⟩ := (ih e he d).1 hd
        obtain ⟨cs, hcs, rfl⟩ := (ihrest b).1 hb
        exact ⟨_, .takeGroup he hds hcs, hjoin he hds hcs⟩
    · rintro ⟨cs, h, rfl⟩
      cases h with
      | leaveGroup h =>
        -- What leaves the group out also takes the empty affix of its first alternative.
        obtain ⟨e, he⟩ := List.exists_mem_of_ne_nil _ hne
        obtain ⟨ds, hds, hnil⟩ := exists_chooses_nil (halt e he)
        refine Or.inr ⟨e, he, _, (ih e he _).2 ⟨ds, hds, rfl⟩, _, (ihrest _).2 ⟨_, h, rfl⟩, ?_⟩
        rw [hjoin he hds h, hnil]
      | takeGroup ha hds hcs =>
        exact Or.inr ⟨_, ha, _, (ih _ ha _).2 ⟨_, hds, rfl⟩, _, (ihrest _).2 ⟨_, hcs, rfl⟩,
          hjoin ha hds hcs⟩

end AffixExpression

namespace Affix

/-- **The expansion of an affix expression is what it describes.**  The affixes of a written
expression are the choices that can be made for its items, joined by single blanks, and nothing is
reported. -/
theorem mem_expand_write {e : AffixExpression} (he : e.WellFormed) :
    (∀ a, a ∈ (expand e.write).value ↔ ∃ cs, e.Chooses cs ∧ a = joined cs) ∧
      (expand e.write).events = [] := by
  have hexpand : expand e.write = ⟨e.affixes, []⟩ := by
    simp only [expand, read_write he, problems_eq_nil he]
    rfl
  rw [hexpand]
  exact ⟨mem_affixes_iff he, rfl⟩

/-- A token with an underscore, and a group inside another one that has an empty alternative. -/
theorem mem_expand_write_nested :
    let inner : AffixExpression := .group [.token ['X'] .done] .done
    let e : AffixExpression := .token ['P', '_', 'S'] (.group [.done, .token ['N'] inner] .done)
    e.write = "P_S ( || N (X))".toList ∧ e.WellFormed ∧
      "P S N X".toList ∈ (expand e.write).value ∧ (expand e.write).events = [] := by
  intro inner e
  have hx : IsAffixToken ['X'] := by
    constructor <;> simp [Text.isSpace, Bracket.isBracket]
  have hn : IsAffixToken ['N'] := by
    constructor <;> simp [Text.isSpace, Bracket.isBracket]
  have hps : IsAffixToken ['P', '_', 'S'] := by
    constructor <;> simp [Text.isSpace, Bracket.isBracket]
  have hinner : inner.WellFormed :=
    .group (List.cons_ne_nil _ _) (List.forall_mem_singleton.2 (.token hx .done)) .done
  have he : e.WellFormed :=
    .token hps (.group (List.cons_ne_nil _ _)
      (List.forall_mem_cons.2 ⟨.done, List.forall_mem_singleton.2 (.token hn hinner)⟩) .done)
  have hchooses : e.Chooses [['P', ' ', 'S'], ['N', ' ', 'X']] :=
    .takeToken (.takeGroup (List.mem_cons_of_mem _ (List.mem_singleton.2 rfl))
      (.takeToken (.takeGroup (List.mem_singleton.2 rfl) (.takeToken .done) .done)) .done)
  obtain ⟨hmem, hevents⟩ := mem_expand_write he
  refine ⟨?_, he, (hmem _).2 ⟨_, hchooses, rfl⟩, hevents⟩
  simp [e, inner, write, setOff, alternation]

end Affix

end Inflection
