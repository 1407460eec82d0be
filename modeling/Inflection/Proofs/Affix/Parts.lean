import Inflection.Proofs.Affix.Counted

/-!
# Parts between separators

A text is cut at the separators that begin outside brackets, from the left.  `Bracket.Uncut` says
of a text that no separator begins outside brackets in it; this holds of every part, and a text of
which it holds is a part by itself.  With what is known of joining the parts and of brackets in
them, this is `Bracket.split_separates`.
-/

namespace Inflection

namespace Bracket

variable {sep t u rest : Text} {level : Int} {c : Char}

theorem separator?_eq_none_iff (hsep : sep ≠ []) :
    separator? sep level t = none ↔ (level = 0 → ¬ sep <+: t) := by
  rw [Option.eq_none_iff_forall_ne_some]
  constructor
  · rintro h hlevel ⟨rest, rfl⟩
    exact h rest (separator?_eq_some_iff.2 ⟨hlevel, hsep, rfl⟩)
  · intro h rest hrest
    obtain ⟨hlevel, -, rfl⟩ := separator?_eq_some_iff.1 hrest
    exact h hlevel (List.prefix_append sep rest)

/-- No separator begins outside brackets in a text that itself begins at depth `level`.  At a
bracket none begins. -/
def Uncut (sep : Text) (level : Int) (t : Text) : Prop :=
  ∀ u c v, t = u ++ c :: v → isBracket c = false → level + depth u = 0 → ¬ sep <+: c :: v

theorem uncut_nil : Uncut sep level [] := by
  intro u c v h
  cases u <;> cases h

theorem uncut_cons_iff :
    Uncut sep level (c :: t) ↔
      (isBracket c = false → level = 0 → ¬ sep <+: c :: t) ∧
        Uncut sep (level + depth [c]) t := by
  have hdepth (u : Text) : level + depth (c :: u) = level + depth [c] + depth u := by
    simp only [depth, List.count_cons, List.count_nil]
    omega
  constructor
  · intro h
    refine ⟨fun hc hlevel => h [] c t rfl hc (by rw [hlevel, depth_nil]; rfl), ?_⟩
    rintro u d v rfl hd hu
    exact h (c :: u) d v rfl hd ((hdepth u).trans hu)
  · rintro ⟨hfirst, hrest⟩ u d v h hd hu
    rcases List.cons_eq_append_iff.1 h with ⟨rfl, h⟩ | ⟨u, rfl, rfl⟩
    · cases h
      exact hfirst hd (by rw [← hu, depth_nil, Int.add_zero])
    · exact hrest u d v rfl hd ((hdepth u).symm.trans hu)

theorem uncut_opening_iff : Uncut sep level ('(' :: t) ↔ Uncut sep (level + 1) t := by
  rw [uncut_cons_iff]
  exact and_iff_right fun h => absurd h (by decide)

theorem uncut_closing_iff : Uncut sep level (')' :: t) ↔ Uncut sep (level - 1) t := by
  rw [uncut_cons_iff]
  exact and_iff_right fun h => absurd h (by decide)

theorem uncut_char_iff (hc : isBracket c = false) :
    Uncut sep level (c :: t) ↔ (level = 0 → ¬ sep <+: c :: t) ∧ Uncut sep level t := by
  rw [uncut_cons_iff, depth_char hc, depth_nil, Int.add_zero]
  exact and_congr_left fun _ => ⟨fun h => h hc, fun h _ => h⟩

/-- A text in which no separator begins is not cut. -/
theorem splitFrom_of_uncut (hsep : sep ≠ []) (h : Uncut sep level t) :
    splitFrom sep level t = [t] := by
  induction t generalizing level with
  | nil => rw [splitFrom]
  | cons c t ih =>
    by_cases hopen : c = '('
    · subst hopen
      rw [splitFrom_open, ih (uncut_opening_iff.1 h)]
      rfl
    by_cases hclose : c = ')'
    · subst hclose
      rw [splitFrom_close, ih (uncut_closing_iff.1 h)]
      rfl
    · have hc : isBracket c = false := by simp [isBracket, hopen, hclose]
      obtain ⟨hfirst, hrest⟩ := (uncut_char_iff hc).1 h
      rw [splitFrom_char hc ((separator?_eq_none_iff hsep).2 hfirst), ih hrest]
      rfl

/-- The first part is a beginning of the text. -/
theorem prefix_of_splitFrom {first : Text} {parts : List Text}
    (h : splitFrom sep level t = first :: parts) : first <+: t := by
  have hjoin : sep.intercalate (splitFrom sep level t) = t := intercalate_splitFrom t
  rw [h] at hjoin
  rw [← hjoin]
  cases parts with
  | nil => exact ⟨[], by rw [List.append_nil, List.intercalate_singleton]⟩
  | cons p ps =>
    rw [List.intercalate_cons_cons, List.append_assoc]
    exact List.prefix_append _ _

/-- In no part a separator begins: the first one begins at the depth of the text, and the others
outside brackets. -/
theorem uncut_of_splitFrom (hsep : sep ≠ []) (level : Int) (t : Text) :
    ∃ first parts, splitFrom sep level t = first :: parts ∧ Uncut sep level first ∧
      ∀ part ∈ parts, Uncut sep 0 part := by
  fun_induction splitFrom sep level t with
  | case1 => exact ⟨[], [], rfl, uncut_nil, List.forall_mem_nil _⟩
  | case2 level t ih =>
    obtain ⟨first, parts, hsplit, hfirst, hparts⟩ := ih
    rw [hsplit]
    exact ⟨'(' :: first, parts, rfl, uncut_opening_iff.2 hfirst, hparts⟩
  | case3 level t _ ih =>
    obtain ⟨first, parts, hsplit, hfirst, hparts⟩ := ih
    rw [hsplit]
    exact ⟨')' :: first, parts, rfl, uncut_closing_iff.2 hfirst, hparts⟩
  | case4 level c t hopen hclose rest hrest _ ih =>
    obtain ⟨first, parts, hsplit, hfirst, hparts⟩ := ih
    obtain ⟨rfl, -, -⟩ := separator?_eq_some_iff.1 hrest
    rw [hsplit]
    exact ⟨[], first :: parts, rfl, uncut_nil, List.forall_mem_cons.2 ⟨hfirst, hparts⟩⟩
  | case5 level c t hopen hclose hnone ih =>
    have hc : isBracket c = false := by simp [isBracket, hopen, hclose]
    obtain ⟨first, parts, hsplit, hfirst, hparts⟩ := ih
    -- What the part begins with, the text begins with.
    have hbegins (hlevel : level = 0) : ¬ sep <+: c :: first := fun hcut =>
      (separator?_eq_none_iff hsep).1 hnone hlevel
        (hcut.trans (List.cons_prefix_cons.2 ⟨rfl, prefix_of_splitFrom hsplit⟩))
    rw [hsplit]
    exact ⟨c :: first, parts, rfl, (uncut_char_iff hc).2 ⟨hbegins, hfirst⟩, hparts⟩

theorem uncut_of_mem_split (hsep : sep ≠ []) : ∀ part ∈ split sep t, Uncut sep 0 part := by
  obtain ⟨first, parts, hsplit, hfirst, hparts⟩ := uncut_of_splitFrom hsep 0 t
  rw [split, hsplit]
  exact List.forall_mem_cons.2 ⟨hfirst, hparts⟩

/-- **Splitting at separators outside brackets can be undone and is complete.**  The parts with
separators between them are the text.  In no part a separator begins outside brackets, so that it
splits into itself alone.  If every bracket of the text has its partner, and the separator holds no
brackets, then every bracket of a part has its partner in the part. -/
theorem split_separates (hsep : sep ≠ []) (t : Text) :
    sep.intercalate (split sep t) = t ∧
      (∀ part ∈ split sep t, Uncut sep 0 part ∧ split sep part = [part]) ∧
      ((∀ c ∈ sep, isBracket c = false) → Balanced t →
        ∀ part ∈ split sep t, Balanced part) := by
  refine ⟨intercalate_splitFrom t, fun part hpart => ?_, balanced_of_mem_split⟩
  have huncut : Uncut sep 0 part := uncut_of_mem_split hsep part hpart
  exact ⟨huncut, splitFrom_of_uncut hsep huncut⟩

/-- The separator in the group is none of the text, and none of the part with the group either. -/
theorem split_separates_example :
    let group : Text := ['(', 'b', '|', 'c', ')']
    let t : Text := 'a' :: '|' :: group
    ['|'] ≠ [] ∧ (∀ c ∈ ['|'], isBracket c = false) ∧ Balanced t ∧
      split ['|'] t = [['a'], group] ∧ List.intercalate ['|'] (split ['|'] t) = t ∧
        split ['|'] group = [group] ∧ Balanced group := by
  intro group t
  have hsep : ∀ c ∈ ['|'], isBracket c = false := List.forall_mem_singleton.2 rfl
  have ht : Balanced t :=
    .char rfl (.char rfl (.group (.char rfl (.char rfl (.char rfl .nil))) .nil))
  have hsplit : split ['|'] t = [['a'], group] := by cbv
  have hgroup : group ∈ split ['|'] t := by
    rw [hsplit]
    exact List.mem_cons_of_mem _ List.mem_cons_self
  obtain ⟨hjoin, hparts, hbalanced⟩ := split_separates (List.cons_ne_nil '|' []) t
  exact ⟨List.cons_ne_nil _ _, hsep, ht, hsplit, hjoin, (hparts group hgroup).2,
    hbalanced hsep ht group hgroup⟩

end Bracket

end Inflection
