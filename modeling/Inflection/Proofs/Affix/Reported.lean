import Inflection.Proofs.Affix.Partners
import Inflection.Proofs.Affix.Written
import Mathlib.Data.List.Permutation

/-!
# Groups that are reported as unclosed

A bracket only opens a group where an item of an expression begins; in a token, it is a character
like any other.  `Affix.reports_unclosed` says which brackets are reported: the first one that opens
a group and has no partner, and no other.  So nothing is reported of an expression in which every
bracket that is opened is closed, but `Affix.misses_unclosed_in_token` shows a bracket without a
partner that is not reported.
-/

namespace Inflection

open Inflection.Bracket

namespace AffixExpression

variable {c : Char} {t u v w r : Text}

/-- Whole items can be read from the start of a text so that the rest of it is left: groups, and
tokens with the blank that ends them.  White space before an item does not count. -/
inductive Leaves : Text → Text → Prop where
  | all {t : Text} : Leaves t t
  | space {c : Char} {t r : Text} (hc : Text.isSpace c) (h : Leaves t r) : Leaves (c :: t) r
  | token {c : Char} {w t r : Text} (hopen : c ≠ '(') (hc : Text.isSpace c = false)
      (hw : ' ' ∉ w) (h : Leaves t r) : Leaves (c :: w ++ ' ' :: t) r
  | group {u t r : Text} (hu : Balanced u) (h : Leaves t r) : Leaves ('(' :: u ++ ')' :: t) r

theorem close_notMem {s : Text} (hs : ∀ x ∈ s, Text.isSpace x) : ')' ∉ s :=
  fun hmem => absurd (hs ')' hmem) (by decide)

/-! ## Closed brackets are not reported -/

theorem isBracket_of_mem_alternation : ∀ c ∈ alternation, isBracket c = false := by
  show ∀ c ∈ [' ', '|', '|', ' '], isBracket c = false
  simp [isBracket]

/-- The alternatives of a group whose brackets have partners are balanced too. -/
theorem allClosed_of_mem_split {item : Text} (h : Balanced t) (hitem : item ∈ split alternation t) :
    AllClosed item :=
  (balanced_of_mem_split isBracket_of_mem_alternation h item hitem).allClosed

theorem allClosed_trim (h : AllClosed t) : AllClosed t.trim := by
  obtain ⟨s, s', ht, -, hs'⟩ := Text.exists_eq_append_trim t
  rw [ht] at h
  exact AllClosed.of_append (u := s) (h.of_append_right (close_notMem hs'))

/-- Nothing is wrong with an expression in which every bracket that is opened is closed. -/
theorem problems_read_of_allClosed {t : Text} (h : AllClosed t) : (read t).problems = [] := by
  fun_induction read t with
  | case1 => rw [problems]
  | case2 t e hnone ht =>
    have hclosed := allClosed_trim h
    rw [ht] at hclosed
    exact absurd (close?_eq_none_iff.1 hnone) (hclosed [] e rfl)
  | case3 t e inner rest hclose ht _ _ ihitem ihrest =>
    obtain ⟨hinner, rfl⟩ := close?_eq_some_iff.1 hclose
    have hrest : AllClosed rest := by
      have hclosed := allClosed_trim h
      rw [ht, ← List.cons_append, List.append_cons] at hclosed
      exact hclosed.of_append
    rw [problems, ihrest hrest, List.nil_append, List.flatMap_eq_nil_iff]
    intro a ha
    obtain ⟨item, -, rfl⟩ := List.mem_map.1 ha
    exact ihitem item (allClosed_of_mem_split hinner item.2)
  | case4 t c e ht hc _ _ ih =>
    rw [problems]
    refine ih ?_
    have hclosed := allClosed_trim h
    rw [ht, ← List.takeWhile_append_dropWhile (p := (· != ' ')) (l := e), ← List.cons_append]
      at hclosed
    exact hclosed.of_append

/-! ## Items are passed over -/

theorem problems_read_unclosed (hv : Unclosed v) :
    (read ('(' :: v)).problems = [.unclosedGroup (Text.trim ('(' :: v))] := by
  obtain ⟨e, s, htrim, rfl, hs⟩ := Text.exists_trim_cons (c := '(') rfl v
  have hnone : close? 0 e = none :=
    close?_eq_none_iff.2 ((unclosed_append_iff (close_notMem hs)).1 hv)
  rw [read_unclosed htrim hnone, problems, htrim]

theorem problems_read_group (hu : Balanced u) (t : Text) :
    (read ('(' :: u ++ ')' :: t)).problems = (read t).problems := by
  obtain ⟨e, s, htrim, he, hs⟩ := Text.exists_trim_cons (c := '(') rfl (u ++ ')' :: t)
  obtain ⟨t', rfl, rfl⟩ := Text.exists_eq_append_cons (close_notMem hs) he.symm
  have hitems : ((split alternation u).map read).flatMap problems = [] := by
    rw [List.flatMap_eq_nil_iff, List.forall_mem_map]
    intro item hitem
    exact problems_read_of_allClosed (allClosed_of_mem_split hu hitem)
  rw [List.cons_append, read_group htrim (close?_balanced hu t'), problems, hitems, List.append_nil,
    read_congr (Text.trim_append_right hs t')]

theorem problems_read_token (hopen : c ≠ '(') (hc : Text.isSpace c = false) (hw : ' ' ∉ w)
    (t : Text) : (read (c :: w ++ ' ' :: t)).problems = (read t).problems := by
  obtain ⟨e, s, htrim, he, hs⟩ := Text.exists_trim_cons hc (w ++ ' ' :: t)
  have hrest : Text.trim (e.dropWhile (· != ' ')) = t.trim := by
    have hp : ∀ x ∈ w, (x != ' ') = true := by
      intro x hx
      rw [bne_iff_ne]
      rintro rfl
      exact hw hx
    rw [← Text.trim_dropWhile_append hs e, ← he, List.dropWhile_append_of_pos hp,
      List.dropWhile_cons_of_neg (by simp)]
    exact Text.trim_append_left (List.forall_mem_singleton.2 rfl) t
  rw [List.cons_append, read_token htrim hopen, problems, read_congr hrest]

/-- Nothing is wrong with the items that are passed over. -/
theorem Leaves.problems_eq (h : Leaves t r) : (read t).problems = (read r).problems := by
  induction h with
  | all => rfl
  | space hc _ ih => rw [read_cons_space hc, ih]
  | token hopen hc hw _ ih => rw [problems_read_token hopen hc hw, ih]
  | group hu _ ih => rw [problems_read_group hu, ih]

/-! ## What is left when no item can be passed over -/

/-- Reading comes to the end of an expression, or to a bracket that opens a group and has no
partner. -/
theorem problems_eq_nil_or_exists_leaves (t : Text) :
    (read t).problems = [] ∨ ∃ v, Leaves t ('(' :: v) ∧ Unclosed v := by
  match t with
  | [] =>
    rw [read_done rfl, problems]
    exact Or.inl rfl
  | c :: t =>
    by_cases hc : Text.isSpace c
    · rw [read_cons_space hc]
      refine (problems_eq_nil_or_exists_leaves t).imp_right ?_
      rintro ⟨v, h, hv⟩
      exact ⟨v, .space hc h, hv⟩
    by_cases hopen : c = '('
    · subst hopen
      by_cases hv : Unclosed t
      · exact Or.inr ⟨t, .all, hv⟩
      obtain ⟨u, t, hu, rfl⟩ := not_unclosed_iff.1 hv
      rw [← List.cons_append, problems_read_group hu]
      refine (problems_eq_nil_or_exists_leaves t).imp_right ?_
      rintro ⟨v, h, hv⟩
      exact ⟨v, .group hu h, hv⟩
    · rw [Bool.not_eq_true] at hc
      by_cases hblank : ' ' ∈ t
      · obtain ⟨w, t, rfl, hw⟩ := List.eq_append_cons_of_mem hblank
        rw [← List.cons_append, problems_read_token hopen hc hw]
        refine (problems_eq_nil_or_exists_leaves t).imp_right ?_
        rintro ⟨v, h, hv⟩
        exact ⟨v, .token hopen hc hw h, hv⟩
      · have hread : read (c :: t) = read (c :: t ++ [' ']) :=
          read_congr (Text.trim_append_right (List.forall_mem_singleton.2 rfl) _).symm
        rw [hread, problems_read_token hopen hc hblank, read_done rfl, problems]
        exact Or.inl rfl
termination_by t.length

/-- Reading comes to the first bracket without a partner that stands at the start or after a blank,
unless it comes to one before it. -/
theorem exists_leaves_of_blank (hv : Unclosed v) (u : Text) (hu : ∀ c ∈ u.getLast?, c = ' ') :
    ∃ w, Leaves (u ++ '(' :: v) ('(' :: w) ∧ Unclosed w := by
  match u with
  | [] => exact ⟨v, .all, hv⟩
  | c :: u =>
    have hlast {x y : Text} (h : c :: u = x ++ y) : ∀ d ∈ y.getLast?, d = ' ' :=
      fun d hd => hu d (h ▸ List.mem_getLast?_append_of_mem_getLast? hd)
    by_cases hc : Text.isSpace c
    · obtain ⟨w, h, hw⟩ := exists_leaves_of_blank hv u (hlast (x := [c]) rfl)
      exact ⟨w, .space hc h, hw⟩
    by_cases hopen : c = '('
    · subst hopen
      by_cases hv' : Unclosed (u ++ '(' :: v)
      · exact ⟨_, .all, hv'⟩
      obtain ⟨x, y, hx, heq⟩ := not_unclosed_iff.1 hv'
      rcases List.append_eq_append_iff.1 heq with ⟨a, rfl, ha⟩ | ⟨a, rfl, ha⟩
      -- The bracket stands in the group, which cannot be since all is closed there.
      · cases a with
        | nil => cases ha
        | cons d a =>
          obtain ⟨rfl, rfl⟩ := List.cons.inj ha
          obtain ⟨p, q, hp, rfl⟩ := not_unclosed_iff.1 (hx.allClosed u a rfl)
          exact absurd (by simp) (hv p (q ++ ')' :: y) hp)
      · cases a with
        | nil => cases ha
        | cons d a =>
          obtain ⟨rfl, rfl⟩ := List.cons.inj ha
          obtain ⟨w, h, hw⟩ := exists_leaves_of_blank hv a
            (hlast (x := '(' :: x ++ [')']) (by simp))
          refine ⟨w, ?_, hw⟩
          have hgroup := Leaves.group hx h
          simpa using hgroup
    · rw [Bool.not_eq_true] at hc
      have hblank : ' ' ∈ u := by
        rcases List.eq_nil_or_concat u with rfl | ⟨x, d, rfl⟩
        · obtain rfl := hu c rfl
          exact absurd hc (by decide)
        · obtain rfl := hlast (x := c :: x) (y := [d]) (by simp) d rfl
          rw [List.concat_eq_append]
          exact List.mem_append_right x List.mem_cons_self
      obtain ⟨w, u, rfl, hw⟩ := List.eq_append_cons_of_mem hblank
      obtain ⟨w', h, hw'⟩ := exists_leaves_of_blank hv u (hlast (x := c :: w ++ [' ']) (by simp))
      refine ⟨w', ?_, hw'⟩
      have htoken := Leaves.token hopen hc hw h
      simpa using htoken
termination_by u.length

end AffixExpression

namespace Affix

open AffixExpression

theorem reports_expand_eq (t : Text) :
    (expand t).reports = (read t).problems.map fun p => ⟨p, []⟩ := by
  rw [expand, Noted.reports_bind, Noted.reports_forM]
  simp only [Noted.reports_report, Noted.reports_pure, List.append_nil]
  exact List.map_eq_flatMap.symm

/-- A bracket is reported if it has no partner and whole items can be passed over up to it; nothing
is reported if there is no such bracket.  So nothing is reported if every bracket that is opened is
closed, as in a balanced expression, and something is if a bracket without a partner stands at the
start or after a blank. -/
theorem reports_unclosed (t : Text) :
    (∀ v, Leaves t ('(' :: v) → Unclosed v →
      (expand t).reports = [⟨.unclosedGroup (Text.trim ('(' :: v)), []⟩]) ∧
    ((∀ v, Leaves t ('(' :: v) → ¬ Unclosed v) → (expand t).reports = []) ∧
    (Balanced t → (expand t).reports = []) ∧
    (AllClosed t → (expand t).reports = []) ∧
    ∀ u v, t = u ++ '(' :: v → (∀ c ∈ u.getLast?, c = ' ') → Unclosed v →
      (expand t).reports ≠ [] := by
  have hone (v : Text) (h : Leaves t ('(' :: v)) (hv : Unclosed v) :
      (expand t).reports = [⟨.unclosedGroup (Text.trim ('(' :: v)), []⟩] := by
    rw [reports_expand_eq, h.problems_eq, problems_read_unclosed hv, List.map_singleton]
  have hnone (h : AllClosed t) : (expand t).reports = [] := by
    rw [reports_expand_eq, problems_read_of_allClosed h, List.map_nil]
  refine ⟨hone, fun h => ?_, fun h => hnone h.allClosed, hnone, ?_⟩
  · rcases problems_eq_nil_or_exists_leaves t with hnil | ⟨v, hleaves, hv⟩
    · rw [reports_expand_eq, hnil, List.map_nil]
    · exact absurd hv (h v hleaves)
  · rintro u v rfl hu hv
    obtain ⟨w, hleaves, hw⟩ := exists_leaves_of_blank hv u hu
    rw [hone w hleaves hw]
    exact List.cons_ne_nil _ _

/-- The bracket within a token is passed over, and so is the closed group. -/
theorem reports_unclosed_example :
    (expand ['a', '(', ' ', '(', 'b', ')', ' ', '(', 'c']).reports =
      [⟨.unclosedGroup ['(', 'c'], []⟩] ∧
    (expand ['(', 'b', ')', 'c']).reports = [] := by
  have hb : Balanced ['b'] := .char rfl .nil
  have hc : Unclosed ['c'] := fun u v _ h =>
    absurd (h ▸ List.mem_append_right u List.mem_cons_self : ')' ∈ ['c']) (by decide)
  have hleaves : Leaves ['a', '(', ' ', '(', 'b', ')', ' ', '(', 'c'] ['(', 'c'] :=
    .token (c := 'a') (w := ['(']) (by decide) rfl (by decide) (.group hb (.space rfl .all))
  exact ⟨(reports_unclosed _).1 ['c'] hleaves hc,
    (reports_unclosed _).2.2.1 (.group hb (.char rfl .nil))⟩

/-- A bracket that is not closed is not reported if a token holds it. -/
theorem misses_unclosed_in_token :
    ['a', '(', 'b'] = ['a'] ++ '(' :: ['b'] ∧ Unclosed ['b'] ∧
      (expand ['a', '(', 'b']).reports = [] := by
  refine ⟨rfl, ?_, by cbv⟩
  intro u v _ h
  exact absurd (h ▸ List.mem_append_right u List.mem_cons_self : ')' ∈ ['b']) (by decide)

end Affix

end Inflection
