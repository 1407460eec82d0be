import Inflection.Proofs.Affix.Denotation
import Inflection.Proofs.Text.Cut

/-!
# The labels of an expression in its affixes

A written expression is taken apart twice: by reading, into tokens, and by cutting it at brackets,
bars, blanks and underscores, into labels.  Reading trims what it looks at and cutting does not, so
the two agree on the *cores* of the labels, which are the labels without white space at their ends.
`AffixExpression.mem_cores_of_read` says that reading finds no other cores, and
`AffixExpression.exists_core_infix` that no affix is without one.
-/

namespace Inflection

namespace Affix

/-- The labels in a text without the white space at their ends. -/
def cores (t : Text) : List Text := ((t.splitOnP isDelimiter).map Text.trim).filter (· ≠ [])

/-- A core is what is left of a label. -/
theorem mem_cores {t k : Text} : k ∈ cores t ↔ k ≠ [] ∧ ∃ l ∈ labels t, l.trim = k := by
  have hlabel {l : Text} (h : l.trim ≠ []) : l ≠ [] := by
    rintro rfl
    exact h rfl
  simp only [cores, labels, mem_distinct, List.mem_filter, List.mem_map, decide_eq_true_eq]
  constructor
  · rintro ⟨⟨l, hl, rfl⟩, hne⟩
    exact ⟨hne, l, ⟨hl, hlabel hne⟩, rfl⟩
  · rintro ⟨hne, l, ⟨hl, -⟩, rfl⟩
    exact ⟨⟨l, hl, rfl⟩, hne⟩

/-- A label stands in the text, and holds no delimiter. -/
theorem infix_of_mem_labels {t l : Text} (h : l ∈ labels t) :
    l <:+: t ∧ ∀ c ∈ l, isDelimiter c = false := by
  rw [labels, mem_distinct] at h
  exact Text.infix_of_mem_splitOnP (List.mem_filter.1 h).1

/-- Exchanging underscores does nothing to a label. -/
theorem exchange_label {l : Text} (h : ∀ c ∈ l, isDelimiter c = false) :
    Text.exchange '_' ' ' l = l := by
  refine (List.map_congr_left fun c hc => ?_).trans (List.map_id l)
  have hc := h c hc
  rw [if_neg, id]
  rintro rfl
  cases hc

theorem trimmed_of_mem_cores {t k : Text} (h : k ∈ cores t) : k.Trimmed := by
  obtain ⟨-, l, -, rfl⟩ := mem_cores.1 h
  exact l.trimmed_trim

@[simp] theorem cores_nil : cores [] = [] := rfl

/-- **A delimiter sets off the labels before it from those after it.**  All else that is said of
cores follows from this. -/
theorem cores_append_delimiter {d : Char} (hd : isDelimiter d) (t u : Text) :
    cores (t ++ d :: u) = cores t ++ cores u := by
  simp [cores, List.splitOnP_append_cons t u hd]

/-- A text without delimiters is one piece. -/
theorem cores_piece {t : Text} (ht : ∀ c ∈ t, isDelimiter c = false) :
    cores t = [t.trim].filter (· ≠ []) := by
  rw [cores, List.splitOnP_eq_singleton ht, List.map_singleton]

/-- Delimiters have no cores. -/
theorem cores_delimiters {t : Text} (ht : ∀ c ∈ t, isDelimiter c) (u : Text) :
    cores (t ++ u) = cores u := by
  induction t with
  | nil => rfl
  | cons d t ih =>
    rw [List.forall_mem_cons] at ht
    have h := cores_append_delimiter ht.1 [] (t ++ u)
    rwa [List.nil_append, cores_nil, List.nil_append, ih ht.2] at h

/-! ## White space around a text -/

theorem cores_cons_space {c : Char} (hc : Text.isSpace c) (t : Text) :
    cores (c :: t) = cores t := by
  have htrim (u : Text) : Text.trim (c :: u) = u.trim :=
    Text.trim_append_left (List.forall_mem_singleton.2 hc) u
  cases hd : isDelimiter c with
  | true => exact cores_append_delimiter hd [] t
  | false =>
    obtain ⟨l, ls, hsplit⟩ := List.exists_cons_of_ne_nil (List.splitOnP_ne_nil isDelimiter t)
    rw [cores, List.splitOnP_cons_eq_if_modifyHead, if_neg (by simp [hd]), cores, hsplit,
      List.modifyHead_cons, List.map_cons, List.map_cons, htrim]

theorem cores_concat_space {c : Char} (hc : Text.isSpace c) (t : Text) :
    cores (t ++ [c]) = cores t := by
  cases hd : isDelimiter c with
  | true => rw [cores_append_delimiter hd, cores_nil, List.append_nil]
  | false =>
    induction t using Text.pieces_induction (p := isDelimiter) with
    | piece u hu =>
      have hconcat : ∀ x ∈ u ++ [c], isDelimiter x = false :=
        List.forall_mem_append.2 ⟨hu, List.forall_mem_singleton.2 hd⟩
      rw [cores_piece hu, cores_piece hconcat, Text.trim_append_right]
      exact List.forall_mem_singleton.2 hc
    | cut u d t hu hd' ih =>
      rw [List.append_assoc, List.cons_append, cores_append_delimiter hd', ih,
        cores_append_delimiter hd']

/-- Trimming a text does not change its cores. -/
theorem cores_trim (t : Text) : cores t.trim = cores t := by
  have hleft {s : Text} (hs : ∀ c ∈ s, Text.isSpace c) (t : Text) : cores (s ++ t) = cores t := by
    induction s with
    | nil => rfl
    | cons c s ih =>
      rw [List.forall_mem_cons] at hs
      rw [List.cons_append, cores_cons_space hs.1, ih hs.2]
  have hright {u : Text} (hu : ∀ c ∈ u, Text.isSpace c) (t : Text) : cores (t ++ u) = cores t := by
    induction u generalizing t with
    | nil => rw [List.append_nil]
    | cons c u ih =>
      rw [List.forall_mem_cons] at hu
      rw [List.append_cons, ih hu.2, cores_concat_space hu.1]
  obtain ⟨s, u, ht, hs, hu⟩ := Text.exists_eq_append_trim t
  conv_rhs => rw [ht]
  rw [hright hu, hleft hs]

/-- A text without cores consists of delimiters and white space. -/
theorem isDelimiter_or_isSpace {t : Text} (h : cores t = []) :
    ∀ c ∈ t, isDelimiter c ∨ Text.isSpace c := by
  induction t using Text.pieces_induction (p := isDelimiter) with
  | piece u hu =>
    have htrim : u.trim = [] := by simpa [cores_piece hu] using h
    exact fun c hc => Or.inr (Text.trim_eq_nil_iff.1 htrim c hc)
  | cut u d t hu hd ih =>
    rw [cores_append_delimiter hd, List.append_eq_nil_iff] at h
    have htrim : u.trim = [] := by simpa [cores_piece hu] using h.1
    intro c hc
    rcases List.mem_append.1 hc with hc | hc
    · exact Or.inr (Text.trim_eq_nil_iff.1 htrim c hc)
    · rcases List.mem_cons.1 hc with rfl | hc
      · exact Or.inl hd
      · exact ih h.2 c hc

/-- The alternatives of a group have the cores of what stands between its brackets. -/
theorem cores_intercalate (parts : List Text) :
    cores (AffixExpression.alternation.intercalate parts) = parts.flatMap cores := by
  induction parts with
  | nil => rfl
  | cons p ps ih =>
    cases ps with
    | nil => rw [List.intercalate_singleton, List.flatMap_singleton]
    | cons q ps =>
      have hsep (u : Text) :
          cores (p ++ AffixExpression.alternation ++ u) = cores p ++ cores u := by
        show cores (p ++ ' ' :: ['|', '|', ' '] ++ u) = _
        rw [List.append_assoc, List.cons_append, cores_append_delimiter rfl,
          cores_delimiters (List.all_eq_true.1 rfl)]
      rw [List.intercalate_cons_cons, hsep, ih, List.flatMap_cons (x := p)]

/-! ## Underscores -/

/-- A core of a token also stands in the token with its underscores exchanged for blanks. -/
theorem infix_exchange_of_mem_cores {w k : Text} (h : k ∈ cores w) :
    k <:+: Text.exchange '_' ' ' w := by
  obtain ⟨-, l, hl, rfl⟩ := mem_cores.1 h
  obtain ⟨hpart, hdelimiter⟩ := infix_of_mem_labels hl
  obtain ⟨s, u, htrim, -, -⟩ := l.exists_eq_append_trim
  have htrim : l.trim <:+: l := ⟨s, u, htrim.symm⟩
  have hexchange := hpart.map (fun x => if x = '_' then ' ' else x)
  rw [show l.map _ = l from exchange_label hdelimiter] at hexchange
  exact htrim.trans hexchange

end Affix

namespace AffixExpression

/-- The cores of the tokens of an expression. -/
def cores : AffixExpression → List Text
  | .done | .unclosed _ => []
  | .token w rest => Affix.cores w ++ rest.cores
  | .group alternatives rest => alternatives.flatMap cores ++ rest.cores

theorem mem_cores_token {w k : Text} {rest : AffixExpression} :
    k ∈ (token w rest).cores ↔ k ∈ Affix.cores w ∨ k ∈ rest.cores := by
  rw [cores, List.mem_append]

theorem mem_cores_group {alternatives : List AffixExpression} {rest : AffixExpression} {k : Text} :
    k ∈ (group alternatives rest).cores ↔ (∃ e ∈ alternatives, k ∈ e.cores) ∨ k ∈ rest.cores := by
  rw [cores, List.mem_append, List.mem_flatMap]

/-- What is set off from a text has cores of its own. -/
theorem cores_append_of_isSetOff {u : Text} (hu : IsSetOff u) (t : Text) :
    Affix.cores (t ++ u) = Affix.cores t ++ Affix.cores u := by
  rcases hu with rfl | ⟨u, rfl⟩
  · rw [List.append_nil, Affix.cores_nil, List.append_nil]
  · have hblank := Affix.cores_append_delimiter (d := ' ') rfl [] u
    rw [List.nil_append, Affix.cores_nil, List.nil_append] at hblank
    rw [Affix.cores_append_delimiter rfl, hblank]

theorem isSetOff_dropWhile (t : Text) : IsSetOff (t.dropWhile (· != ' ')) := by
  rcases h : t.dropWhile (· != ' ') with _ | ⟨c, u⟩
  · exact Or.inl rfl
  · have hc := Text.head_dropWhile (p := (· != ' ')) t c (by rw [h]; rfl)
    obtain rfl : c = ' ' := by simpa using hc
    exact Or.inr ⟨u, rfl⟩

/-- **Reading finds no other labels than cutting**, up to the white space at their ends. -/
theorem mem_cores_of_read {t k : Text} (h : k ∈ (read t).cores) : k ∈ Affix.cores t := by
  fun_induction read t generalizing k with
  | case1 => simp [cores] at h
  | case2 => simp [cores] at h
  | case3 t e inner rest hclose ht _ _ ihitem ihrest =>
    have hcores : Affix.cores t =
        (Bracket.split alternation inner).flatMap Affix.cores ++ Affix.cores rest := by
      have hopen := Affix.cores_append_delimiter (d := '(') rfl [] (inner ++ ')' :: rest)
      rw [List.nil_append, Affix.cores_nil, List.nil_append] at hopen
      rw [← Affix.cores_trim, ht, Bracket.eq_append_of_close? hclose, hopen,
        Affix.cores_append_delimiter rfl, ← Affix.cores_intercalate, Bracket.split,
        Bracket.intercalate_splitFrom]
    rw [mem_cores_group] at h
    rw [hcores, List.mem_append, List.mem_flatMap]
    rcases h with ⟨a, ha, hk⟩ | hk
    · obtain ⟨item, -, rfl⟩ := List.mem_map.1 ha
      exact Or.inl ⟨item, item.2, ihitem item hk⟩
    · exact Or.inr (ihrest hk)
  | case4 t c e ht _ _ _ ih =>
    rw [mem_cores_token] at h
    rw [← Affix.cores_trim, ht, ← List.takeWhile_append_dropWhile (p := (· != ' ')) (l := e),
      ← List.cons_append, cores_append_of_isSetOff (isSetOff_dropWhile e), List.mem_append]
    exact h.imp_right ih

/-- Two bars, as they stand between the alternatives of a group. -/
def bars : Text := ['|', '|']

/-- Brackets and bars only stand around the alternatives of groups and between them: every group is
closed, and a token holds none, unless it is two bars that stand between no alternatives. -/
inductive Plain : AffixExpression → Prop where
  | done : Plain .done
  | token {w : Text} {rest : AffixExpression}
      (hw : w = bars ∨ ∀ c ∈ w, c ≠ '(' ∧ c ≠ ')' ∧ c ≠ '|') (hrest : Plain rest) :
      Plain (.token w rest)
  | group {alternatives : List AffixExpression} {rest : AffixExpression}
      (h : ∀ a ∈ alternatives, Plain a) (hrest : Plain rest) : Plain (.group alternatives rest)

/-! ## No affix is without a label -/

/-- What stands in one of two affixes stands in both of them in a row. -/
theorem infix_juxtapose {k a b : Text} (hk : k.Trimmed) (h : k <:+: a ∨ k <:+: b) :
    k <:+: juxtapose a b := by
  refine hk.infix_trim ?_
  rcases h with h | h
  · exact List.infix_append_of_infix_left h
  · exact List.infix_append_of_infix_right (List.infix_cons h)

/-- A token without brackets, bars and labels holds nothing but underscores and white space. -/
theorem isSpace_exchange {w : Text} (hw : ∀ c ∈ w, c ≠ '(' ∧ c ≠ ')' ∧ c ≠ '|')
    (hcores : Affix.cores w = []) : ∀ c ∈ Text.exchange '_' ' ' w, Text.isSpace c := by
  intro d hd
  obtain ⟨c, hc, rfl⟩ := List.mem_map.1 hd
  obtain ⟨hopen, hclose, hbar⟩ := hw c hc
  by_cases hunderscore : c = '_'
  · rw [if_pos hunderscore]
    rfl
  · rw [if_neg hunderscore]
    rcases Affix.isDelimiter_or_isSpace hcores c hc with hdelimiter | hspace
    · obtain rfl : c = ' ' := by simpa [Affix.isDelimiter, *] using hdelimiter
      rfl
    · exact hspace

/-- **No affix is without a label**: unless it is empty, a core of its expression stands in it, or
two bars do. -/
theorem exists_core_infix {e : AffixExpression} (he : e.Plain) {a : Text} (ha : a ∈ e.affixes)
    (hne : a ≠ []) : ∃ k, (k ∈ e.cores ∨ k = bars) ∧ k.Trimmed ∧ k <:+: a := by
  induction he generalizing a with
  | done =>
    rw [affixes, List.mem_singleton] at ha
    exact absurd ha hne
  | @token w rest hw _ ih =>
    have hrest {b : Text} (hb : b ∈ rest.affixes) (hb' : b ≠ []) :
        ∃ k, (k ∈ (token w rest).cores ∨ k = bars) ∧ k.Trimmed ∧ k <:+: b := by
      obtain ⟨k, hk, h⟩ := ih hb hb'
      exact ⟨k, hk.imp_left fun hk => mem_cores_token.2 (Or.inr hk), h⟩
    rw [mem_affixes_token] at ha
    rcases ha with rfl | ⟨b, hb, rfl⟩ | ha
    · exact absurd rfl hne
    · rcases hw with rfl | hw
      · have htrimmed : bars.Trimmed :=
          (Text.trimmed_singleton (c := '|') rfl).append_append (Text.trimmed_singleton rfl)
            (List.cons_ne_nil _ _) (List.cons_ne_nil _ _) []
        exact ⟨bars, Or.inr rfl, htrimmed, infix_juxtapose htrimmed (Or.inl (List.infix_refl _))⟩
      rcases hcores : Affix.cores w with _ | ⟨k, ks⟩
      · -- Such a token consists of underscores and white space, and contributes nothing.
        have hspace : ∀ c ∈ Text.exchange '_' ' ' w ++ [' '], Text.isSpace c :=
          List.forall_mem_append.2 ⟨isSpace_exchange hw hcores, List.forall_mem_singleton.2 rfl⟩
        have hb' : b ≠ [] := by
          rintro rfl
          exact hne (Text.trim_eq_nil_iff.2 hspace)
        obtain ⟨k, hk, htrimmed, hpart⟩ := hrest hb hb'
        exact ⟨k, hk, htrimmed, infix_juxtapose htrimmed (Or.inr hpart)⟩
      · have hk : k ∈ Affix.cores w := hcores ▸ List.mem_cons_self
        have htrimmed := Affix.trimmed_of_mem_cores hk
        exact ⟨k, Or.inl (mem_cores_token.2 (Or.inl hk)), htrimmed,
          infix_juxtapose htrimmed (Or.inl (Affix.infix_exchange_of_mem_cores hk))⟩
    · exact hrest ha hne
  | @group alternatives rest _ _ ih ihrest =>
    rw [mem_affixes_group] at ha
    rcases ha with rfl | ⟨e, he, d, hd, b, hb, rfl⟩
    · exact absurd rfl hne
    · by_cases hd' : d = []
      · have hb' : b ≠ [] := by
          rintro rfl
          rw [hd'] at hne
          exact hne rfl
        obtain ⟨k, hk, htrimmed, hpart⟩ := ihrest hb hb'
        exact ⟨k, hk.imp_left fun hk => mem_cores_group.2 (Or.inr hk), htrimmed,
          infix_juxtapose htrimmed (Or.inr hpart)⟩
      · obtain ⟨k, hk, htrimmed, hpart⟩ := ih e he hd hd'
        exact ⟨k, hk.imp_left fun hk => mem_cores_group.2 (Or.inl ⟨e, he, hk⟩), htrimmed,
          infix_juxtapose htrimmed (Or.inl hpart)⟩

end AffixExpression

end Inflection
