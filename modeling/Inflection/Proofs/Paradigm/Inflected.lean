import Inflection.Paradigm
import Inflection.Proofs.Affix.Denotation
import Inflection.Proofs.Gloss.Ordered
import Mathlib.Data.List.Permutation
import Mathlib.Data.List.ProdSigma

/-!
# Words between their affixes

A gloss sets off a word from the affixes around it by blanks, and trims off the blanks that set off
nothing.  Affixes that are read from expressions are trimmed, so a gloss shows the whole of them,
and `Paradigm.glosses_determine_affixes` says that it tells the pair of affixes that it was made of,
as long as none of them holds the word itself.
-/

namespace Inflection

/-! ## Affixes are trimmed, and there is no affix twice -/

namespace AffixExpression

theorem trimmed_of_mem_affixes (e : AffixExpression) : ∀ a ∈ e.affixes, a.Trimmed := by
  intro a ha
  match e with
  | .done =>
    rw [affixes, List.mem_singleton] at ha
    exact ha ▸ Text.trimmed_nil
  | .unclosed _ =>
    rw [affixes, List.mem_singleton] at ha
    exact ha ▸ Text.trimmed_nil
  | .token w rest =>
    rcases mem_affixes_token.1 ha with rfl | ⟨b, -, rfl⟩ | ha
    · exact Text.trimmed_nil
    · exact Text.trimmed_trim _
    · exact trimmed_of_mem_affixes rest a ha
  | .group alternatives rest =>
    rcases mem_affixes_group.1 ha with rfl | ⟨_, -, d, -, b, -, rfl⟩
    · exact Text.trimmed_nil
    · exact Text.trimmed_trim _

theorem nodup_affixes (e : AffixExpression) : e.affixes.Nodup := by
  have hdistinct (l : List Text) : (distinct Text.precedes l).Nodup :=
    (pairwise_distinct Text.isOrder_precedes l).imp And.right
  cases e with
  | done =>
    rw [affixes]
    exact List.nodup_singleton []
  | unclosed _ =>
    rw [affixes]
    exact List.nodup_singleton []
  | token w rest =>
    rw [affixes]
    exact hdistinct _
  | group alternatives rest =>
    rw [affixes]
    exact hdistinct _

/-- The empty affix is one of every expression. -/
theorem nil_mem_affixes (e : AffixExpression) : [] ∈ e.affixes := by
  cases e with
  | done =>
    rw [affixes]
    exact List.mem_singleton_self []
  | unclosed _ =>
    rw [affixes]
    exact List.mem_singleton_self []
  | token w rest => exact mem_affixes_token.2 (Or.inl rfl)
  | group alternatives rest => exact mem_affixes_group.2 (Or.inl rfl)

end AffixExpression

namespace Paradigm

/-- No affix of a paradigm has white space at its ends. -/
structure Trimmed (p : Paradigm) : Prop where
  prefixes : ∀ a ∈ p.prefixes, a.Trimmed
  suffixes : ∀ a ∈ p.suffixes, a.Trimmed

theorem trimmed_ofExpressions (left right : Text) : (ofExpressions left right).value.Trimmed where
  prefixes := (AffixExpression.read left).trimmed_of_mem_affixes
  suffixes := (AffixExpression.read right).trimmed_of_mem_affixes

/-! ## What stands before and after a word -/

/-- What a gloss shows of an affix before the word: the blank after it, or nothing, if there is no
affix. -/
def lead (before : Text) : Text := (before ++ [' ']).dropWhile Text.isSpace

/-- What a gloss shows of an affix after the word: the blank before it, or nothing, if there is no
affix. -/
def trail (after : Text) : Text := Text.dropRight Text.isSpace (' ' :: after)

@[simp] theorem lead_nil : lead [] = [] := rfl

@[simp] theorem trail_nil : trail [] = [] := rfl

theorem lead_of_trimmed {before : Text} (h : before.Trimmed) (hne : before ≠ []) :
    lead before = before ++ [' '] := by
  obtain ⟨c, u, rfl⟩ := List.exists_cons_of_ne_nil hne
  exact List.dropWhile_cons_of_neg (by simp [h.head c rfl])

theorem trail_of_trimmed {after : Text} (h : after.Trimmed) (hne : after ≠ []) :
    trail after = ' ' :: after := by
  refine Text.dropRight_eq_self fun c hc => h.last c ?_
  rwa [List.getLast?_cons_of_ne_nil hne] at hc

theorem lead_eq_ite {before : Text} (h : before.Trimmed) :
    lead before = if before = [] then [] else before ++ [blank] := by
  split
  next hnil => rw [hnil, lead_nil]
  next hne => exact lead_of_trimmed h hne

theorem trail_eq_ite {after : Text} (h : after.Trimmed) :
    trail after = if after = [] then [] else blank :: after := by
  split
  next hnil => rw [hnil, trail_nil]
  next hne => exact trail_of_trimmed h hne

variable {word before after : Text}

/-- A gloss is a word with what shows of the affixes around it. -/
theorem inflect_eq (hne : word ≠ []) (hword : word.Trimmed) (before after : Text) :
    inflect word before after = lead before ++ word ++ trail after := by
  have hleft {u : Text} (t : Text) (hu : u ≠ []) (hhead : ∀ c ∈ u.head?, Text.isSpace c = false) :
      (t ++ u).dropWhile Text.isSpace = t.dropWhile Text.isSpace ++ u := by
    obtain ⟨c, u, rfl⟩ := List.exists_cons_of_ne_nil hu
    exact (Text.takeWhile_append_cons (hhead c rfl) t u).2
  have hassoc : before ++ ' ' :: word ++ ' ' :: after =
      (before ++ [' ']) ++ (word ++ ' ' :: after) := by simp
  have hhead : ∀ c ∈ (word ++ ' ' :: after).head?, Text.isSpace c = false := by
    obtain ⟨c, u, rfl⟩ := List.exists_cons_of_ne_nil hne
    exact hword.head
  have hlast : ∀ c ∈ (word.reverse ++ (lead before).reverse).head?, Text.isSpace c = false := by
    intro c hc
    refine hword.last c ?_
    rwa [List.head?_append_of_ne_nil _ (mt List.reverse_eq_nil_iff.1 hne), List.head?_reverse] at hc
  have hreverse : word.reverse ++ (lead before).reverse ≠ [] := by simp [hne]
  rw [inflect, Text.trim, hassoc, hleft _ (by simp [hne]) hhead, ← lead, Text.dropRight_eq,
    List.reverse_append, List.reverse_append, List.append_assoc, hleft _ hreverse hlast, trail,
    Text.dropRight_eq]
  simp

/-- A word stands before its place in a gloss only if it stands in the affix there. -/
theorem infix_lead_append_iff (hne : word ≠ []) (hword : word.Trimmed) (hblank : blank ∉ word)
    (before : Text) : word <:+: lead before ++ word.dropLast ↔ word <:+: before := by
  have hshort : ¬ word <:+: word.dropLast := by
    intro h
    have hle := h.length_le
    rw [List.length_dropLast] at hle
    have hpos := List.length_pos_iff.2 hne
    omega
  have hstrip : word <:+: before ↔ word <:+: before.dropWhile Text.isSpace :=
    ⟨Text.infix_dropWhile hword.head, fun h => h.trans (List.dropWhile_suffix _).isInfix⟩
  rw [hstrip, lead, List.dropWhile_append]
  split
  next hempty =>
    rw [List.isEmpty_iff.1 hempty, List.infix_nil]
    exact iff_of_false hshort hne
  next =>
    rw [List.append_assoc, List.singleton_append, Text.infix_append_cons_iff (c := ' ') hblank]
    exact or_iff_left hshort

/-! ## The parts of a gloss -/

/-- The parts of an affix between its blanks; the empty affix has none. -/
def parts (affix : Text) : List Text := if affix = [] then [] else affix.splitOn ' '

@[simp] theorem parts_nil : parts [] = [] := rfl

theorem parts_of_ne_nil {affix : Text} (h : affix ≠ []) : parts affix = affix.splitOn ' ' :=
  if_neg h

theorem parts_injective : Function.Injective parts := by
  intro a b h
  have hne {t : Text} (ht : t ≠ []) : parts t ≠ [] := by
    rw [parts_of_ne_nil ht]
    exact List.splitOn_ne_nil _ _
  have hjoin {t : Text} (ht : t ≠ []) : [' '].intercalate (parts t) = t := by
    rw [parts_of_ne_nil ht, List.intercalate_splitOn]
  by_cases ha : a = []
  · by_contra hab
    rw [ha, parts_nil] at h
    exact hne (fun hb => hab (ha.trans hb.symm)) h.symm
  · by_cases hb : b = []
    · rw [hb, parts_nil] at h
      exact absurd h (hne ha)
    · rw [← hjoin ha, h, hjoin hb]

theorem notMem_parts (h : word ∉ before.splitOn ' ') : word ∉ parts before := by
  by_cases hne : before = []
  · rw [hne, parts_nil]
    exact List.not_mem_nil
  · rwa [parts_of_ne_nil hne]

/-- The parts of a gloss are those of the affix before the word, the word, and those of the affix
after it. -/
theorem splitOn_inflect (hne : word ≠ []) (hspace : ∀ c ∈ word, Text.isSpace c = false)
    (hbefore : before.Trimmed) (hafter : after.Trimmed) :
    (inflect word before after).splitOn ' ' = parts before ++ word :: parts after := by
  have hcut (t u : Text) : (t ++ ' ' :: u).splitOn ' ' = t.splitOn ' ' ++ u.splitOn ' ' :=
    List.splitOnP_append_cons t u (beq_self_eq_true ' ')
  have hword : word.splitOn ' ' = [word] := by
    refine List.splitOn_eq_singleton fun hmem => ?_
    exact Bool.false_ne_true (hspace ' ' hmem).symm
  have hright : (word ++ trail after).splitOn ' ' = word :: parts after := by
    by_cases h : after = []
    · rw [h, trail_nil, List.append_nil, hword, parts_nil]
    · rw [trail_of_trimmed hafter h, hcut, hword, parts_of_ne_nil h, List.singleton_append]
  rw [inflect_eq hne (Text.trimmed_of_forall hspace), List.append_assoc]
  by_cases h : before = []
  · rw [h, lead_nil, List.nil_append, hright, parts_nil, List.nil_append]
  · rw [lead_of_trimmed hbefore h, List.append_assoc, List.singleton_append, hcut, hright,
      parts_of_ne_nil h]

/-- Only one pair of affixes gives a gloss, if the word is not a part of any of them. -/
theorem eq_of_inflect_eq {before' after' : Text} (hne : word ≠ [])
    (hspace : ∀ c ∈ word, Text.isSpace c = false)
    (htrimmed : ∀ a ∈ [before, before', after, after'], a.Trimmed ∧ word ∉ a.splitOn ' ')
    (h : inflect word before after = inflect word before' after') :
    before = before' ∧ after = after' := by
  simp only [List.forall_mem_cons] at htrimmed
  obtain ⟨⟨hb, hbword⟩, ⟨hb', hbword'⟩, ⟨ha, haword⟩, ⟨ha', haword'⟩, -⟩ := htrimmed
  have hparts := congrArg (List.splitOn ' ') h
  rw [splitOn_inflect hne hspace hb ha, splitOn_inflect hne hspace hb' ha',
    List.append_cons_inj_of_notMem (notMem_parts hbword) (notMem_parts haword)] at hparts
  exact ⟨parts_injective hparts.1, parts_injective hparts.2.2⟩

/-! ## The glosses of a word -/

theorem mem_glosses_iff {p : Paradigm} {gloss : Text} :
    gloss ∈ p.glosses word ↔
      ∃ before ∈ p.prefixes, ∃ after ∈ p.suffixes, inflect word before after = gloss := by
  rw [glosses, mem_distinct, List.mem_flatMap]
  simp only [List.mem_map]

/-- The glosses of a word are those of the pairs of affixes, each of them once. -/
theorem perm_glosses {p : Paradigm}
    (hinj : ∀ x ∈ p.prefixes ×ˢ p.suffixes, ∀ y ∈ p.prefixes ×ˢ p.suffixes,
      inflect word x.1 x.2 = inflect word y.1 y.2 → x = y)
    (hprefixes : p.prefixes.Nodup) (hsuffixes : p.suffixes.Nodup) :
    (p.glosses word).Perm ((p.prefixes ×ˢ p.suffixes).map fun x => inflect word x.1 x.2) := by
  have hnodup := List.Nodup.map_on hinj (hprefixes.product hsuffixes)
  have hglosses : (p.glosses word).Nodup :=
    (pairwise_distinct Text.isOrder_precedes _).imp And.right
  refine (List.perm_ext_iff_of_nodup hglosses hnodup).2 fun gloss => ?_
  rw [mem_glosses_iff, List.mem_map, Prod.exists]
  simp only [List.mem_product, and_assoc, exists_and_left]

/-- **The glosses of a word tell its affixes.**  If the word is not a part of any affix, two pairs
of affixes never give the same gloss, so there are as many glosses as pairs, and the word itself is
one of them. -/
theorem glosses_determine_affixes (left right : Text) {word : Text} (hne : word ≠ [])
    (hspace : ∀ c ∈ word, Text.isSpace c = false)
    (hword : ∀ a, a ∈ (ofExpressions left right).value.prefixes ∨
      a ∈ (ofExpressions left right).value.suffixes → word ∉ a.splitOn ' ') :
    let p := (ofExpressions left right).value
    (∀ before ∈ p.prefixes, ∀ after ∈ p.suffixes, ∀ before' ∈ p.prefixes, ∀ after' ∈ p.suffixes,
      inflect word before after = inflect word before' after' →
        before = before' ∧ after = after') ∧
      p.prefixes.Nodup ∧ p.suffixes.Nodup ∧ (p.glosses word).Nodup ∧
      (p.glosses word).length = p.prefixes.length * p.suffixes.length ∧
      word ∈ p.glosses word := by
  intro p
  have hprefixes : p.prefixes.Nodup := (AffixExpression.read left).nodup_affixes
  have hsuffixes : p.suffixes.Nodup := (AffixExpression.read right).nodup_affixes
  have htrimmed : p.Trimmed := trimmed_ofExpressions left right
  have hinj : ∀ before ∈ p.prefixes, ∀ after ∈ p.suffixes, ∀ before' ∈ p.prefixes,
      ∀ after' ∈ p.suffixes, inflect word before after = inflect word before' after' →
        before = before' ∧ after = after' := by
    intro b hb a ha b' hb' a' ha' h
    refine eq_of_inflect_eq hne hspace ?_ h
    simp only [List.forall_mem_cons]
    exact ⟨⟨htrimmed.prefixes b hb, hword b (Or.inl hb)⟩,
      ⟨htrimmed.prefixes b' hb', hword b' (Or.inl hb')⟩,
      ⟨htrimmed.suffixes a ha, hword a (Or.inr ha)⟩,
      ⟨htrimmed.suffixes a' ha', hword a' (Or.inr ha')⟩, List.forall_mem_nil _⟩
  have hpairs : ∀ x ∈ p.prefixes ×ˢ p.suffixes, ∀ y ∈ p.prefixes ×ˢ p.suffixes,
      inflect word x.1 x.2 = inflect word y.1 y.2 → x = y := by
    rintro ⟨b, a⟩ hx ⟨b', a'⟩ hy h
    obtain ⟨hb, ha⟩ := List.mem_product.1 hx
    obtain ⟨hb', ha'⟩ := List.mem_product.1 hy
    obtain ⟨rfl, rfl⟩ := hinj b hb a ha b' hb' a' ha' h
    rfl
  have hperm := perm_glosses hpairs hprefixes hsuffixes
  have hself : inflect word [] [] = word := by
    rw [inflect_eq hne (Text.trimmed_of_forall hspace), lead_nil, trail_nil, List.nil_append,
      List.append_nil]
  refine ⟨hinj, hprefixes, hsuffixes,
    (pairwise_distinct Text.isOrder_precedes _).imp And.right, ?_, ?_⟩
  · rw [hperm.length_eq, List.length_map, List.length_product]
  · rw [mem_glosses_iff]
    exact ⟨[], AffixExpression.nil_mem_affixes _, [], AffixExpression.nil_mem_affixes _, hself⟩

/-- Expressions with brackets that have no partners, and an affix with two blanks in a row; a suffix
holds the word, but not as a part of its own. -/
theorem glosses_determine_affixes_example :
    let left : Text := "A__B (C".toList
    let right : Text := "X Y)".toList
    let p : Paradigm :=
      ⟨[[], ['A', ' ', ' ', 'B']], [[], ['X'], ['X', ' ', 'Y', ')'], ['Y', ')']]⟩
    let word : Text := ['Y']
    (ofExpressions left right).value = p ∧ word ≠ [] ∧ (∀ c ∈ word, Text.isSpace c = false) ∧
      (∀ a, a ∈ p.prefixes ∨ a ∈ p.suffixes → word ∉ a.splitOn ' ') ∧
      (p.glosses word).length = 8 ∧ "A  B Y X Y)".toList ∈ p.glosses word := by
  intro left right p word
  have hp : (ofExpressions "A__B (C".toList "X Y)".toList).value =
      ⟨[[], ['A', ' ', ' ', 'B']], [[], ['X'], ['X', ' ', 'Y', ')'], ['Y', ')']]⟩ := by cbv
  have hword : ∀ a, a ∈ p.prefixes ∨ a ∈ p.suffixes → word ∉ a.splitOn ' ' := by
    have hall : ∀ a ∈ p.prefixes ++ p.suffixes, word ∉ a.splitOn ' ' := by decide
    exact fun a ha => hall a (List.mem_append.2 ha)
  have hspace : ∀ c ∈ word, Text.isSpace c = false := List.forall_mem_singleton.2 rfl
  have h := glosses_determine_affixes left right (List.cons_ne_nil 'Y' []) hspace (by rwa [hp])
  rw [hp] at h
  refine ⟨hp, List.cons_ne_nil _ _, hspace, hword, h.2.2.2.2.1, mem_glosses_iff.2 ?_⟩
  exact ⟨['A', ' ', ' ', 'B'], by decide, ['X', ' ', 'Y', ')'], by decide, by decide⟩

end Paradigm

end Inflection
