import Inflection.Gloss
import Inflection.Proofs.Gloss.Ordered
import Inflection.Proofs.Text.Trimmed
import Mathlib.Data.List.Basic
import Mathlib.Data.List.Permutation

/-!
# What a finder finds

A finder looks at one place of a form after the other, so it finds something if and only if a label
occurs anywhere in the form, or two markers stand side by side in it.

At each place it tries one label after the other and takes the first one that stands there, so what
it finds there depends on the order that its labels are kept in.  They are kept with longer ones
first: `GlossFinder.find?_ofLabels` says that the longest label at the first place is found, or the
whole run of markers where no label stands, and that it does not matter in which order the labels
were given.
-/

namespace Inflection

/-! ## Whether anything is found -/

namespace GlossFinder

variable {labels : List Text} {t : Text}

theorem findHere?_isSome_iff :
    (findHere? labels t).isSome ↔
      (∃ l ∈ labels, l <+: t) ∨ ∃ run, 2 ≤ run.length ∧ (∀ c ∈ run, isMarker c) ∧ run <+: t := by
  have hrun : (markerRun? t).isSome ↔
      ∃ run, 2 ≤ run.length ∧ (∀ c ∈ run, isMarker c) ∧ run <+: t := by
    unfold markerRun?
    constructor
    · intro h
      have hlength : 2 ≤ (t.takeWhile isMarker).length := by simpa using h
      refine ⟨t.takeWhile isMarker, hlength, ?_, List.takeWhile_prefix _⟩
      exact List.all_eq_true.1 List.all_takeWhile
    · rintro ⟨run, hlength, hrun, u, rfl⟩
      have hlength' : 2 ≤ ((run ++ u).takeWhile isMarker).length := by
        rw [List.takeWhile_append_of_pos hrun, List.length_append]
        omega
      simpa using hlength'
  rw [findHere?, Option.isSome_or, Bool.or_eq_true, hrun, List.find?_isSome]
  simp only [List.isPrefixOf_iff_prefix]

/-- A finder finds something if and only if it does so at some place. -/
theorem findFirst?_isSome_iff :
    (findFirst? labels t).isSome ↔ ∃ u, u <:+ t ∧ (findHere? labels u).isSome := by
  induction t with
  | nil =>
    rw [findFirst?, Option.isSome_map]
    constructor
    · exact fun h => ⟨[], List.suffix_refl _, h⟩
    · rintro ⟨u, hu, h⟩
      rwa [List.suffix_nil.1 hu] at h
  | cons c t ih =>
    rw [findFirst?]
    split
    next found hfound =>
      have hsome : (findHere? labels (c :: t)).isSome := by rw [hfound, Option.isSome_some]
      exact iff_of_true rfl ⟨c :: t, List.suffix_refl _, hsome⟩
    next hnone =>
      rw [Option.isSome_map, ih]
      constructor
      · rintro ⟨u, hu, h⟩
        exact ⟨u, hu.trans (List.suffix_cons c t), h⟩
      · rintro ⟨u, hu, h⟩
        rcases List.suffix_cons_iff.1 hu with rfl | hu
        · rw [hnone] at h
          cases h
        · exact ⟨u, hu, h⟩

/-- **What is looked for is found wherever it stands**, and nothing else is. -/
theorem finds_anyOf_iff :
    finds (.anyOf labels) t ↔
      (∃ l ∈ labels, l <:+: t) ∨ ∃ run, 2 ≤ run.length ∧ (∀ c ∈ run, isMarker c) ∧ run <:+: t := by
  have hpart {l : Text} : l <:+: t ↔ ∃ u, u <:+ t ∧ l <+: u := by
    rw [List.infix_iff_prefix_suffix]
    exact exists_congr fun u => and_comm
  rw [finds, find?, findFirst?_isSome_iff]
  simp only [findHere?_isSome_iff, hpart]
  constructor
  · rintro ⟨u, hu, ⟨l, hl, h⟩ | ⟨run, hlength, hrun, h⟩⟩
    · exact Or.inl ⟨l, hl, u, hu, h⟩
    · exact Or.inr ⟨run, hlength, hrun, u, hu, h⟩
  · rintro (⟨l, hl, u, hu, h⟩ | ⟨run, hlength, hrun, u, hu, h⟩)
    · exact ⟨u, hu, Or.inl ⟨l, hl, h⟩⟩
    · exact ⟨u, hu, Or.inr ⟨run, hlength, hrun, h⟩⟩

end GlossFinder

/-! ## The longest label at the first place -/

namespace GlossFinder

variable {labels labels' : List Text} {t found : Text} {i : Nat}

/-! ### What there is to find -/

/-- A label stands at the start of a text, or at least two markers do. -/
def Begins (labels : List Text) (t : Text) : Prop :=
  (∃ l ∈ labels, l <+: t) ∨ ∃ run, 2 ≤ run.length ∧ (∀ c ∈ run, isMarker c) ∧ run <+: t

/-- A label stands at the start of a text and no longer one does; or no label does, but at least two
markers, and none follows them. -/
inductive Longest (labels : List Text) : Text → Text → Prop where
  | label {l t : Text} (hl : l ∈ labels) (hstands : l <+: t)
      (hlongest : ∀ l' ∈ labels, l' <+: t → l'.length ≤ l.length) : Longest labels t l
  | run {run rest : Text} (hlabels : ∀ l ∈ labels, ¬ l <+: run ++ rest)
      (hlength : 2 ≤ run.length) (hrun : ∀ c ∈ run, isMarker c)
      (hrest : ∀ c ∈ rest.head?, isMarker c = false) : Longest labels (run ++ rest) run

/-- Nothing stands in a text before the place `i`, and this is the longest of what stands there. -/
structure FirstAt (labels : List Text) (t : Text) (i : Nat) (found : Text) : Prop where
  le_length : i ≤ t.length
  longest : Longest labels (t.drop i) found
  not_begins : ∀ j < i, ¬ Begins labels (t.drop j)

theorem Begins.congr (h : ∀ l, l ∈ labels ↔ l ∈ labels') : Begins labels t ↔ Begins labels' t := by
  simp only [Begins, h]

theorem Longest.congr (h : ∀ l, l ∈ labels ↔ l ∈ labels') (hlongest : Longest labels t found) :
    Longest labels' t found := by
  cases hlongest with
  | label hl hstands hlongest =>
    exact .label ((h _).1 hl) hstands fun l' hl' => hlongest l' ((h l').2 hl')
  | run hlabels hlength hrun hrest =>
    exact .run (fun l hl => hlabels l ((h l).2 hl)) hlength hrun hrest

/-- Only the members of a list of labels count. -/
theorem FirstAt.congr (h : ∀ l, l ∈ labels ↔ l ∈ labels') (hfirst : FirstAt labels t i found) :
    FirstAt labels' t i found where
  le_length := hfirst.le_length
  longest := hfirst.longest.congr h
  not_begins j hj := mt (Begins.congr h).2 (hfirst.not_begins j hj)

/-! ### Labels with longer ones first -/

/-- A label comes before those that are no longer, and those of its length come in their own
order. -/
theorem isBefore_iff {a b : Text} :
    isBefore a b ↔ b.length ≤ a.length ∧ (a.length = b.length → Text.precedes a b) := by
  unfold isBefore
  by_cases h : a.length = b.length
  · simp [h]
  · rw [if_neg h, decide_eq_true_eq]
    exact ⟨fun hlt => ⟨Nat.le_of_lt hlt, fun heq => absurd heq h⟩,
      fun hle => Nat.lt_of_le_of_ne hle.1 (Ne.symm h)⟩

theorem isOrder_isBefore : IsOrder isBefore where
  total a b := by
    rw [Bool.or_eq_true, isBefore_iff, isBefore_iff]
    rcases Nat.lt_trichotomy a.length b.length with h | h | h
    · exact Or.inr ⟨Nat.le_of_lt h, fun heq => absurd heq (Nat.ne_of_gt h)⟩
    · have htotal := Text.precedes_total a b
      rw [Bool.or_eq_true] at htotal
      exact htotal.imp (fun hab => ⟨Nat.le_of_eq h.symm, fun _ => hab⟩)
        fun hba => ⟨Nat.le_of_eq h, fun _ => hba⟩
    · exact Or.inl ⟨Nat.le_of_lt h, fun heq => absurd heq (Nat.ne_of_gt h)⟩
  antisymm a b hab hba := by
    rw [isBefore_iff] at hab hba
    have hlength : a.length = b.length := Nat.le_antisymm hba.1 hab.1
    exact Text.precedes_antisymm (hab.2 hlength) (hba.2 hlength.symm)
  trans a b c hab hbc := by
    rw [isBefore_iff] at hab hbc ⊢
    refine ⟨Nat.le_trans hbc.1 hab.1, fun hlength => ?_⟩
    have hab' : a.length = b.length := Nat.le_antisymm (hlength ▸ hbc.1) hab.1
    exact Text.precedes_trans (hab.2 hab') (hbc.2 (hab'.symm.trans hlength))

/-- No label is kept before a longer one, and underscores do not change that. -/
theorem pairwise_length_ofLabels (labels : List Text) :
    ((labels.mergeSort isBefore).map (Text.exchange '_' ' ')).Pairwise
      (fun a b => b.length ≤ a.length) := by
  rw [List.pairwise_map]
  refine (List.pairwise_mergeSort isOrder_isBefore.trans isOrder_isBefore.total labels).imp ?_
  intro a b h
  rw [Text.exchange, Text.exchange, List.length_map, List.length_map]
  exact (isBefore_iff.1 h).1

/-- Of labels with longer ones first, the longest that stands somewhere is tried before any other
that does. -/
theorem find?_isPrefixOf_eq_some_iff (hlabels : labels.Pairwise fun a b => b.length ≤ a.length)
    {l : Text} :
    labels.find? (·.isPrefixOf t) = some l ↔
      l ∈ labels ∧ l <+: t ∧ ∀ l' ∈ labels, l' <+: t → l'.length ≤ l.length := by
  have hlongest {l : Text} (h : labels.find? (·.isPrefixOf t) = some l) :
      l ∈ labels ∧ l <+: t ∧ ∀ l' ∈ labels, l' <+: t → l'.length ≤ l.length := by
    obtain ⟨hstands, shorter, longer, rfl, hshorter⟩ := List.find?_eq_some_iff_append.1 h
    refine ⟨by simp, List.isPrefixOf_iff_prefix.1 hstands, fun l' hl' hstands' => ?_⟩
    rcases List.mem_append.1 hl' with hl' | hl'
    · have hnot := hshorter l' hl'
      rw [List.isPrefixOf_iff_prefix.2 hstands'] at hnot
      cases hnot
    · rcases List.mem_cons.1 hl' with rfl | hl'
      · exact Nat.le_refl _
      · exact (List.pairwise_cons.1 (List.pairwise_append.1 hlabels).2.1).1 l' hl'
  refine ⟨hlongest, fun ⟨hl, hstands, hl'⟩ => ?_⟩
  have hsome : (labels.find? (·.isPrefixOf t)).isSome :=
    List.find?_isSome.2 ⟨l, hl, List.isPrefixOf_iff_prefix.2 hstands⟩
  obtain ⟨l', hfind⟩ := Option.isSome_iff_exists.1 hsome
  obtain ⟨hmem, hstands', hle⟩ := hlongest hfind
  have hprefix : l <+: l' := List.prefix_of_prefix_length_le hstands hstands' (hle l hl hstands)
  rw [hfind, hprefix.eq_of_length_le (hl' l' hmem hstands')]

theorem markerRun?_eq_some_iff {run : Text} :
    markerRun? t = some run ↔
      ∃ rest, t = run ++ rest ∧ 2 ≤ run.length ∧ (∀ c ∈ run, isMarker c) ∧
        ∀ c ∈ rest.head?, isMarker c = false := by
  rw [markerRun?]
  constructor
  · intro h
    split_ifs at h with hlength
    cases h
    exact ⟨t.dropWhile isMarker, List.takeWhile_append_dropWhile.symm, hlength,
      List.all_eq_true.1 List.all_takeWhile, Text.head_dropWhile t⟩
  · rintro ⟨rest, rfl, hlength, hrun, hrest⟩
    have hnil : rest.takeWhile isMarker = [] := by
      cases rest with
      | nil => rfl
      | cons c rest => exact List.takeWhile_cons_of_neg (by simp [hrest c rfl])
    have htake : (run ++ rest).takeWhile isMarker = run := by
      rw [List.takeWhile_append_of_pos hrun, hnil, List.append_nil]
    rw [htake, if_pos hlength]

theorem findHere?_eq_some_iff (hlabels : labels.Pairwise fun a b => b.length ≤ a.length) :
    findHere? labels t = some found ↔ Longest labels t found := by
  rw [findHere?, Option.or_eq_some_iff, find?_isPrefixOf_eq_some_iff hlabels, List.find?_eq_none,
    markerRun?_eq_some_iff]
  simp only [List.isPrefixOf_iff_prefix]
  constructor
  · rintro (⟨hl, hstands, hlongest⟩ | ⟨hnone, rest, rfl, hlength, hrun, hrest⟩)
    · exact .label hl hstands hlongest
    · exact .run hnone hlength hrun hrest
  · rintro (⟨hl, hstands, hlongest⟩ | ⟨hnone, hlength, hrun, hrest⟩)
    · exact Or.inl ⟨hl, hstands, hlongest⟩
    · exact Or.inr ⟨hnone, _, rfl, hlength, hrun, hrest⟩

/-! ### The first place -/

/-- Places are looked at from left to right. -/
theorem findFirst?_eq_some_iff :
    findFirst? labels t = some (i, found) ↔
      i ≤ t.length ∧ findHere? labels (t.drop i) = some found ∧
        ∀ j < i, findHere? labels (t.drop j) = none := by
  induction t generalizing i with
  | nil =>
    rw [findFirst?, Option.map_eq_some_iff]
    constructor
    · rintro ⟨found, hfound, heq⟩
      cases heq
      exact ⟨Nat.le_refl _, hfound, fun j hj => absurd hj (Nat.not_lt_zero j)⟩
    · rintro ⟨hle, hfound, -⟩
      obtain rfl := Nat.le_zero.1 hle
      exact ⟨found, hfound, rfl⟩
  | cons c t ih =>
    rw [findFirst?]
    cases hhere : findHere? labels (c :: t) with
    | some found' =>
      constructor
      · intro h
        cases h
        exact ⟨Nat.zero_le _, hhere, fun j hj => absurd hj (Nat.not_lt_zero j)⟩
      · rintro ⟨-, hfound, hbefore⟩
        cases i with
        | zero =>
          cases hhere.symm.trans hfound
          rfl
        | succ i => cases hhere.symm.trans (hbefore 0 (Nat.succ_pos i))
    | none =>
      dsimp only
      rw [Option.map_eq_some_iff]
      constructor
      · rintro ⟨⟨i', found'⟩, hfirst, heq⟩
        cases heq
        obtain ⟨hle, hfound, hbefore⟩ := ih.1 hfirst
        refine ⟨Nat.succ_le_succ hle, hfound, fun j hj => ?_⟩
        cases j with
        | zero => exact hhere
        | succ j => exact hbefore j (Nat.lt_of_succ_lt_succ hj)
      · rintro ⟨hle, hfound, hbefore⟩
        cases i with
        | zero => cases hhere.symm.trans hfound
        | succ i =>
          refine ⟨(i, found), ih.2 ⟨Nat.le_of_succ_le_succ hle, hfound, fun j hj => ?_⟩, rfl⟩
          exact hbefore (j + 1) (Nat.succ_lt_succ hj)

theorem findFirst?_eq_some_iff_firstAt
    (hlabels : labels.Pairwise fun a b => b.length ≤ a.length) :
    findFirst? labels t = some (i, found) ↔ FirstAt labels t i found := by
  have hnone (t : Text) : findHere? labels t = none ↔ ¬ Begins labels t := by
    rw [← Option.not_isSome_iff_eq_none, findHere?_isSome_iff, Begins]
  rw [findFirst?_eq_some_iff, findHere?_eq_some_iff hlabels]
  simp only [hnone]
  exact ⟨fun ⟨hle, hlongest, hbefore⟩ => ⟨hle, hlongest, hbefore⟩,
    fun h => ⟨h.le_length, h.longest, h.not_begins⟩⟩

/-- **The longest label at the first place is found.**  Nothing is found in a text in which no label
and no two markers side by side stand.  In any other text, what is found stands at the first place
where anything does, and it is the longest label there, or all the markers if no label stands there.
Underscores in labels count as blanks.  Other labels with the same members find the same. -/
theorem find?_ofLabels (labels : List Text) (t : Text) :
    let read := labels.map (Text.exchange '_' ' ')
    ((ofLabels labels).find? t = none ↔
      (∀ l ∈ read, ¬ l <:+: t) ∧
        ∀ run, 2 ≤ run.length → (∀ c ∈ run, isMarker c) → ¬ run <:+: t) ∧
    (∀ i found, (ofLabels labels).find? t = some (i, found) ↔ FirstAt read t i found) ∧
    ∀ labels', (∀ l, l ∈ labels' ↔ l ∈ labels) →
      (ofLabels labels').find? t = (ofLabels labels).find? t := by
  intro read
  have hmem (labels : List Text) (l : Text) :
      l ∈ (labels.mergeSort isBefore).map (Text.exchange '_' ' ') ↔
        l ∈ labels.map (Text.exchange '_' ' ') := by
    simp only [List.mem_map, List.mem_mergeSort]
  have hfirst (labels : List Text) (i : Nat) (found : Text) :
      (ofLabels labels).find? t = some (i, found) ↔
        FirstAt (labels.map (Text.exchange '_' ' ')) t i found := by
    rw [ofLabels, find?, findFirst?_eq_some_iff_firstAt (pairwise_length_ofLabels labels)]
    exact ⟨.congr (hmem labels), .congr fun l => (hmem labels l).symm⟩
  refine ⟨?_, hfirst labels, fun labels' hlabels' => ?_⟩
  · rw [← Option.not_isSome_iff_eq_none]
    refine (not_congr (finds_anyOf_iff (t := t))).trans ?_
    simp only [hmem, not_or, not_exists, not_and]
    rfl
  · have hread (l : Text) :
        l ∈ labels'.map (Text.exchange '_' ' ') ↔ l ∈ labels.map (Text.exchange '_' ' ') := by
      simp only [List.mem_map, hlabels']
    ext ⟨i, found⟩
    rw [hfirst, hfirst]
    exact ⟨.congr hread, .congr fun l => (hread l).symm⟩

/-- Of a token and one that it starts, the longer one is found in whatever order they are given; a
single marker before it is none. -/
theorem find?_ofLabels_example :
    let labels : List Text := [['A'], ['A', '_', 'B'], ['|', '&']]
    let labels' : List Text := [['|', '&'], ['A', '_', 'B'], ['A'], ['A', '_', 'B']]
    let t : Text := ['x', '|', 'A', ' ', 'B', '|', '&']
    (∀ l, l ∈ labels' ↔ l ∈ labels) ∧
      FirstAt (labels.map (Text.exchange '_' ' ')) t 2 ['A', ' ', 'B'] ∧
      (ofLabels labels').find? t = some (2, ['A', ' ', 'B']) := by
  intro labels labels' t
  have hmem : ∀ l, l ∈ labels' ↔ l ∈ labels := by
    intro l
    simp only [labels, labels', List.mem_cons, List.not_mem_nil]
    tauto
  have hfind : (ofLabels labels).find? t = some (2, ['A', ' ', 'B']) := by cbv
  obtain ⟨-, hfirst, hcongr⟩ := find?_ofLabels labels t
  exact ⟨hmem, (hfirst _ _).1 hfind, (hcongr labels' hmem).trans hfind⟩

end GlossFinder

end Inflection
