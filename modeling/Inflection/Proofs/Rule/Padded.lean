import Inflection.Proofs.Pattern.Closed
import Inflection.Proofs.Template.Reading
import Inflection.Rule.Line

/-!
# Padded rules as they are read

A padded left-hand side is read as its own elements between two wildcards, of which the first one
may stand in the left-hand side itself.  A padded right-hand side copies what both of them take.
-/

namespace Inflection

/-- The elements of a pattern after the wildcard that it begins with, if it does. -/
def Pattern.own : Pattern → Pattern
  | .wildcard _ :: p => p
  | p => p

namespace Padding

open Pattern

def startName : Text := ['§', 's', 't', 'a', 'r', 't']

def endName : Text := ['§', 'e', 'n', 'd']

theorem startSlot_eq : startSlot = '[' :: startName ++ [']'] := rfl

/-- No number sign anchors a left-hand side. -/
structure Unanchored (lhs : Text) : Prop where
  head : lhs.head? ≠ some '#'
  last : lhs.getLast? ≠ some '#'

variable (groups : Groups) (source : Text) {lhs : Text}

/-! ## The reference to the start -/

/-- How the start of a form is referred to if a left-hand side begins with a slot. -/
def slotReference : Slot → Text
  | .named n => '[' :: n ++ [']']
  | .numbered => ['[', '1', ']']
  | .group _ _ | .inline _ _ => startSlot

theorem startReference_char {c : Char} (hc : c ≠ '[') (hhash : c ≠ '#') (t : Text) :
    startReference (c :: t) = startSlot := by
  unfold startReference
  split
  case h_5 => rfl
  all_goals simp_all

theorem startReference_of_ne_star {c : Char} {b : Text} (hbody : ']' ∉ c :: b)
    (hstar : c :: b ≠ ['*']) (t : Text) :
    startReference ('[' :: (c :: b) ++ ']' :: t) =
      if c = '#' || c = '!' || c = '?' then startSlot
      else if ' ' ∈ c :: b then startSlot else '[' :: (c :: b) ++ [']'] := by
  have hcut := Text.cut?_singleton hbody t
  rw [List.cons_append] at hcut
  rw [List.cons_append, List.cons_append, startReference]
  · rw [hcut]
  · rintro t' rfl ht
    cases b with
    | nil => exact hstar rfl
    | cons d b =>
      cases ht
      exact hbody (List.mem_cons_of_mem _ List.mem_cons_self)

/-- A left-hand side that begins with a slot refers to the start by that slot, if it is a
wildcard. -/
theorem startReference_slot {body : Text} (hbody : ']' ∉ body) {slot : Slot}
    (hslot : Slot.read body = some slot) (t : Text) :
    startReference ('[' :: body ++ ']' :: t) = slotReference slot := by
  unfold Slot.read at hslot
  split at hslot
  case h_1 => cases hslot
  case h_6 hnil _ hquestion hsharp hbang =>
    obtain ⟨c, b, rfl⟩ := List.exists_cons_of_ne_nil hnil
    have hmark : ¬ (c = '#' || c = '!' || c = '?') := by
      simp only [Bool.or_eq_true, decide_eq_true_eq]
      rintro ((rfl | rfl) | rfl)
      · exact hsharp b rfl
      · exact hbang b rfl
      · exact hquestion b rfl
    split_ifs at hslot with hblank hstar
    all_goals cases hslot
    · have hstar : c :: b ≠ ['*'] := by
        rintro ⟨⟩
        exact absurd hblank (by decide)
      rw [startReference_of_ne_star hbody hstar, if_neg hmark, if_pos hblank]
      rfl
    · cases hstar
      rfl
    · rw [startReference_of_ne_star hbody hstar, if_neg hmark, if_neg hblank]
      rfl
  all_goals
    cases hslot
    rw [startReference_of_ne_star hbody (by simp)]
    rfl

/-- A left-hand side refers to the start by nothing if it is empty, by the wildcard that it begins
with, or by the one that it is padded with. -/
inductive Start (groups : Groups) (source lhs : Text) : Prop where
  | nothing (hlhs : lhs = [])
  | leading (n : Text) (hn : n = ['1'] ∨ '[' :: n ++ [']'] <:+: lhs) (hclose : ']' ∉ n)
      (href : startReference lhs = '[' :: n ++ [']'])
      (hread : ∃ p, (Pattern.read groups source lhs).value = .wildcard n :: p)
  | padded (href : startReference lhs = startSlot)
      (hown : (Pattern.read groups source lhs).value.own = (Pattern.read groups source lhs).value)

theorem start (groups : Groups) (source : Text) (hcomplete : Complete lhs)
    (hempty : ¬ ['[', ']'] <+: lhs) (hhead : lhs.head? ≠ some '#') : Start groups source lhs := by
  cases hcomplete with
  | nil => exact .nothing rfl
  | empty => exact absurd (List.prefix_append ['[', ']'] _) hempty
  | @char c t hc =>
    have hhash : c ≠ '#' := by
      rintro rfl
      exact hhead rfl
    refine .padded (startReference_char hc hhash t) ?_
    rw [value_read, readFrom_char _ _ _ _ hc]
    rfl
  | @slot body t hne hbody =>
    obtain ⟨slot, hslot⟩ := Slot.exists_read hne
    have href := startReference_slot hbody hslot t
    have hread := congrArg Noted.value (readFrom_slot groups source 0 1 hbody hslot t)
    cases slot with
    | named n =>
      obtain rfl := Slot.eq_of_read_named hslot
      refine .leading n (Or.inr ⟨[], t, ?_⟩) hbody href ⟨_, hread⟩
      simp
    | numbered => exact .leading ['1'] (Or.inl rfl) (by decide) href ⟨_, hread⟩
    | group o name =>
      refine .padded href ?_
      rw [value_read, hread]
      cases o <;> rfl
    | inline o alternatives =>
      refine .padded href ?_
      rw [value_read, hread]
      cases o <;> rfl

/-! ## Left-hand sides -/

theorem isAnchoredAtEnd_eq_false (h : Unanchored lhs) : isAnchoredAtEnd lhs = false :=
  decide_eq_false h.last

theorem dropAnchors_eq (h : Unanchored lhs) : dropAnchors lhs = lhs := by
  unfold dropAnchors
  split
  next => exact absurd rfl h.head
  next =>
    show (if isAnchoredAtEnd lhs then lhs.dropLast else lhs) = lhs
    rw [isAnchoredAtEnd_eq_false h, if_neg Bool.false_ne_true]

theorem unanchored_append_endSlot (h : lhs.head? ≠ some '#') : Unanchored (lhs ++ endSlot) where
  head := by
    cases lhs with
    | nil => rintro ⟨⟩
    | cons c t => exact h
  last := by
    rw [List.getLast?_append]
    rintro ⟨⟩

theorem unanchored_padLeft (h : Unanchored lhs) : Unanchored (padLeft lhs) := by
  unfold padLeft
  split
  · refine ⟨by rintro ⟨⟩, ?_⟩
    rw [List.getLast?_append]
    rcases hl : lhs.getLast? with _ | c
    · rintro ⟨⟩
    · rw [Option.some_or, ← hl]
      exact h.last
  · exact h

theorem padPattern_eq (h : Unanchored lhs) : padPattern lhs = padLeft lhs ++ endSlot := by
  have hpad := unanchored_padLeft h
  rw [padPattern, padRight, isAnchoredAtEnd_eq_false hpad, if_neg Bool.false_ne_true,
    dropAnchors_eq (unanchored_append_endSlot hpad.head)]

theorem readFrom_endSlot (position n : Nat) :
    readFrom groups source position n endSlot = pure [.wildcard endName] := by
  have hclose : ']' ∉ endName := by decide
  have hread := readFrom_slot groups source position n hclose rfl []
  rw [readFrom_nil] at hread
  exact hread

/-- The end wildcard is read after a text that is complete. -/
theorem readFrom_append_endSlot (hcomplete : Complete lhs) (position n : Nat) :
    readFrom groups source position n (lhs ++ endSlot) =
      (· ++ [.wildcard endName]) <$> readFrom groups source position n lhs := by
  obtain ⟨n', happend⟩ := readFrom_append groups source hcomplete n
  rw [happend, readFrom_endSlot]
  exact Noted.ext rfl (List.append_nil _)

/-- The start wildcard is read before any text, and what is read after it is read from a later
position. -/
theorem readFrom_startSlot_append (t : Text) :
    readFrom groups source 0 1 (startSlot ++ t) =
      (.wildcard startName :: ·) <$> readFrom groups source startSlot.length 1 t := by
  have hclose : ']' ∉ startName := by decide
  have hassoc : startSlot ++ t = '[' :: startName ++ ']' :: t := by simp [startSlot_eq]
  rw [hassoc, readFrom_slot groups source 0 1 hclose rfl t]
  rfl

/-- A left-hand side that is padded at both ends is read as it is alone between the two wildcards,
and what is reported tells of later positions. -/
theorem read_padPattern (hcomplete : Complete lhs) (h : Unanchored lhs)
    (href : startReference lhs = startSlot) :
    (Pattern.read groups source (padPattern lhs)).value =
        .wildcard startName :: (Pattern.read groups source lhs).value ++ [.wildcard endName] ∧
      (Pattern.read groups source (padPattern lhs)).reports =
        (Pattern.read groups source lhs).reports.map (Report.moved startSlot.length) := by
  have hmoved := readFrom_moved groups source lhs 0 1 startSlot.length
  rw [Nat.zero_add] at hmoved
  rw [padPattern_eq h, padLeft, if_pos href, value_read, value_read, reports_read, reports_read,
    List.append_assoc, readFrom_startSlot_append, readFrom_append_endSlot _ _ hcomplete,
    ← hmoved.1, ← hmoved.2]
  exact ⟨rfl, rfl⟩

/-- A left-hand side that is padded at its end alone is read as it is alone before the wildcard. -/
theorem read_padPattern_of_ne (hcomplete : Complete lhs) (h : Unanchored lhs)
    (href : startReference lhs ≠ startSlot) :
    (Pattern.read groups source (padPattern lhs)).value =
        (Pattern.read groups source lhs).value ++ [.wildcard endName] ∧
      (Pattern.read groups source (padPattern lhs)).reports =
        (Pattern.read groups source lhs).reports := by
  rw [padPattern_eq h, padLeft, if_neg href, value_read, value_read, reports_read, reports_read,
    readFrom_append_endSlot _ _ hcomplete]
  exact ⟨rfl, rfl⟩

/-- A padded left-hand side is read as its own elements between two wildcards.  The first one has
the name by which the start of a form is referred to; only an empty left-hand side has none. -/
theorem value_read_padPattern (hclosed : Closed lhs) (h : Unanchored lhs)
    (hstart : ¬ startSlot <:+: lhs) (hend : ¬ endSlot <:+: lhs) :
    ∃ start : Option Text,
      (Pattern.read groups source (padPattern lhs)).value =
        (start.map Element.wildcard).toList ++ (Pattern.read groups source lhs).value.own ++
          [.wildcard endName] ∧
      (start = none → lhs = []) ∧ (∀ n ∈ start, n ≠ endName ∧ ']' ∉ n) ∧
      startReference lhs = (start.map fun n => '[' :: n ++ [']']).getD [] := by
  have hcomplete := hclosed.complete
  rcases start groups source hcomplete hclosed.not_begins_empty h.head with
    rfl | ⟨n, hn, hclose, href, p, hread⟩ | ⟨href, hown⟩
  · refine ⟨none, ?_, fun _ => rfl, ?_, rfl⟩
    · have hne : startReference [] ≠ startSlot := by decide
      rw [(read_padPattern_of_ne groups source hcomplete h hne).1, value_read, readFrom_nil]
      rfl
    · rintro n ⟨⟩
  · have hne : startReference lhs ≠ startSlot := by
      rw [href, startSlot_eq]
      intro heq
      rcases hn with rfl | hn
      · exact absurd heq (by decide)
      · rw [heq] at hn
        exact hstart hn
    refine ⟨some n, ?_, ?_, ?_, href⟩
    · rw [(read_padPattern_of_ne groups source hcomplete h hne).1, hread]
      rfl
    · rintro ⟨⟩
    · rintro n ⟨⟩
      refine ⟨?_, hclose⟩
      rintro rfl
      rcases hn with hn | hn
      · exact absurd hn (by decide)
      · exact hend hn
  · refine ⟨some startName, ?_, ?_, by simp [startName, endName], href⟩
    · rw [(read_padPattern groups source hcomplete h href).1, hown]
      rfl
    · rintro ⟨⟩

/-! ## Right-hand sides -/

/-- A right-hand side that copies what the start of a form is. -/
def withStart (lhs rhs : Text) : Text :=
  if (startReference lhs).occursIn rhs then rhs else startReference lhs ++ rhs

theorem startReference_infix_withStart (lhs rhs : Text) :
    startReference lhs <:+: withStart lhs rhs := by
  unfold withStart
  split
  next h => exact Text.occursIn_iff.1 h
  next => exact List.infix_append_left

theorem padTemplate_eq (h : Unanchored lhs) (rhs : Text) :
    padTemplate lhs rhs = withStart lhs rhs ++ '[' :: (endName ++ [']']) := by
  unfold padTemplate
  rw [isAnchoredAtEnd_eq_false h, if_neg Bool.false_ne_true]
  rfl

/-- A padded right-hand side ends in a reference to the end wildcard. -/
theorem read_padTemplate (h : Unanchored lhs) (rhs : Text) :
    Template.read (padTemplate lhs rhs) =
      Template.read (withStart lhs rhs) ++ [.reference endName] := by
  have hname : ∀ c ∈ endName, Template.isBracket c = false := by
    simp [endName, Template.isBracket]
  have hread : Template.read ('[' :: (endName ++ [']'])) = [.reference endName] :=
    (Template.read_reference hname []).trans (by rw [Template.read])
  rw [padTemplate_eq h, Template.read_append, hread]

/-- It refers to the start of a form somewhere before, by any name that holds no brackets. -/
theorem read_withStart {n : Text} (href : startReference lhs = '[' :: n ++ [']'])
    (hn : ∀ c ∈ n, Template.isBracket c = false) (rhs : Text) :
    ∃ t t', Template.read (withStart lhs rhs) = t ++ .reference n :: t' := by
  obtain ⟨u, v, huv⟩ := startReference_infix_withStart lhs rhs
  have hassoc : withStart lhs rhs = u ++ '[' :: (n ++ ']' :: v) := by
    rw [← huv, href]
    simp
  rw [hassoc, Template.read_append, ← List.cons_append, Template.read_reference hn]
  exact ⟨_, _, rfl⟩

variable {bindings : Bindings} {rhs : Text}

/-- A padded right-hand side writes what the end wildcard takes after all else. -/
theorem value_expand_padTemplate (h : Unanchored lhs) {kept : Text}
    (hend : bindings.get? endName = some kept) :
    (Template.expand bindings source (Template.read (padTemplate lhs rhs))).value =
      (Template.expand bindings source (Template.read (withStart lhs rhs))).value ++ kept := by
  rw [read_padTemplate h, Template.value_expand_append,
    Template.value_expand_reference bindings source hend]
  simp [Template.expand]

/-- It writes what the start wildcard takes somewhere before. -/
theorem infix_value_expand_withStart {n before : Text}
    (href : startReference lhs = '[' :: n ++ [']']) (hn : ∀ c ∈ n, Template.isBracket c = false)
    (hstart : bindings.get? n = some before) :
    before <:+: (Template.expand bindings source (Template.read (withStart lhs rhs))).value := by
  obtain ⟨t, t', hread⟩ := read_withStart href hn rhs
  rw [hread, Template.value_expand_append, Template.value_expand_reference bindings source hstart,
    ← List.append_assoc]
  exact List.infix_append _ _ _

end Padding

end Inflection
