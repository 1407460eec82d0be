import Inflection.Proofs.Gloss.Filled
import Inflection.Proofs.Text.Cut

/-!
# Traces that are replayed one after the other

A trace is read in slots, each of which is written into a blank of the gloss, the first into the
first one and so on.  `Gloss.Slots` says what the slots of a trace are, and `Gloss.fill_replays`
that the blanks of a gloss are divided up in this way: what is written by two traces is what their
entries write in one row, unless an opening half at the end of the first trace would get its partner
from the second one.
-/

namespace Inflection

namespace Gloss

/-- The slots of a trace, read from the left, with what each of them writes.  The opening half of an
infix slot takes the entry after it along, if there is one. -/
inductive Slots : List Text → List Text → Prop where
  | nil : Slots [] []
  | last : Slots [['<']] [['<', '>']]
  | opening {m : Text} {trace slots : List Text} (h : Slots trace slots) :
      Slots (['<'] :: m :: trace) (['<', '>'] :: slots)
  | entry {m : Text} {trace slots : List Text} (hm : m ≠ ['<']) (h : Slots trace slots) :
      Slots (m :: trace) (m :: slots)

/-- A trace that, read from the left, does not end in an opening half without a partner. -/
inductive Whole : List Text → Prop where
  | nil : Whole []
  | opening {m : Text} {trace : List Text} (h : Whole trace) : Whole (['<'] :: m :: trace)
  | entry {m : Text} {trace : List Text} (hm : m ≠ ['<']) (h : Whole trace) : Whole (m :: trace)

variable {m : Text} {trace slots : List Text}

/-- The slots of a trace are what is written into one blank after the other. -/
theorem slots_iff : Slots trace slots ↔ slots = fillers trace := by
  constructor
  · intro h
    induction h with
    | nil => rfl
    | last => rfl
    | opening _ ih => rw [ih]; rfl
    | entry hm _ ih => rw [ih, fillers_cons_of_ne hm]
  · rintro rfl
    fun_induction fillers trace with
    | case1 => exact .nil
    | case2 => exact .last
    | case3 _ _ ih => exact .opening ih
    | case4 m trace hlast hopening ih =>
      refine .entry ?_ ih
      rintro rfl
      cases trace with
      | nil => exact hlast rfl rfl
      | cons m trace => exact hopening m trace rfl rfl

/-- No slot reaches over the end of a trace that is whole. -/
theorem Whole.fillers_append (h : Whole trace) (trace' : List Text) :
    fillers (trace ++ trace') = fillers trace ++ fillers trace' := by
  induction h with
  | nil => rfl
  | opening _ ih => exact congrArg (['<', '>'] :: ·) ih
  | entry hm _ ih =>
    rw [List.cons_append, fillers_cons_of_ne hm, fillers_cons_of_ne hm, ih, List.cons_append]

/-- What is written into blanks holds none, if no entry does. -/
theorem Slots.blank_notMem (h : Slots trace slots) (htrace : ∀ m ∈ trace, blank ∉ m) :
    ∀ f ∈ slots, blank ∉ f := by
  induction h with
  | nil => exact List.forall_mem_nil _
  | last => decide
  | opening _ ih =>
    obtain ⟨-, htrace⟩ := List.forall_mem_cons.1 htrace
    refine List.forall_mem_cons.2 ⟨by decide, ih (List.forall_mem_cons.1 htrace).2⟩
  | entry _ _ ih =>
    obtain ⟨hm, htrace⟩ := List.forall_mem_cons.1 htrace
    exact List.forall_mem_cons.2 ⟨hm, ih htrace⟩

/-- Blanks that are filled with texts without blanks leave the others to what is written later. -/
theorem fillBlanks_fillBlanks {fs : List Text} (hfs : ∀ f ∈ fs, blank ∉ f) (fs' : List Text)
    (t : Text) : fillBlanks fs' (fillBlanks fs t) = fillBlanks (fs ++ fs') t := by
  fun_induction fillBlanks fs t with
  | case1 t => rfl
  | case2 fs =>
    cases fs' <;> cases fs <;> rfl
  | case3 f fs t ih =>
    obtain ⟨hf, hfs⟩ := List.forall_mem_cons.1 hfs
    rw [fillBlanks_append hf, ih hfs, List.cons_append, fillBlanks_blank]
  | case4 f fs c t hc ih =>
    rw [fillBlanks_cons_of_ne hc, ih hfs, fillBlanks_cons_of_ne hc]

/-! ## Blank by blank -/

/-- Pieces of a text, each but the first one behind a separator. -/
def woven (first : Text) (separators pieces : List Text) : Text :=
  first ++ (List.zipWith (· ++ ·) separators pieces).flatten

theorem woven_nil (first : Text) (separators : List Text) : woven first separators [] = first := by
  rw [woven, List.zipWith_nil_right, List.flatten_nil, List.append_nil]

theorem woven_cons (u separator first : Text) (separators pieces : List Text) :
    woven u (separator :: separators) (first :: pieces) =
      u ++ (separator ++ woven first separators pieces) := by
  rw [woven, woven, List.zipWith_cons_cons, List.flatten_cons, List.append_assoc]

/-- What stands in the places of some blanks once they have been filled: a filler in each of the
first ones, for as long as there are both, and the blank itself in the others. -/
def separators (blanks : Nat) (fs : List Text) : List Text :=
  let filled := min blanks fs.length
  fs.take filled ++ List.replicate (blanks - filled) [blank]

theorem separators_nil (blanks : Nat) : separators blanks [] = List.replicate blanks [blank] := by
  rw [separators, List.take_nil, List.nil_append, List.length_nil, Nat.min_zero, Nat.sub_zero]

theorem separators_cons (blanks : Nat) (f : Text) (fs : List Text) :
    separators (blanks + 1) (f :: fs) = f :: separators blanks fs := by
  rw [separators, separators, List.length_cons, Nat.add_min_add_right, List.take_succ_cons,
    Nat.add_sub_add_right, List.cons_append]

/-- A text is its pieces with blanks between them, of which the first ones are filled. -/
theorem exists_fillBlanks_eq_woven (t : Text) :
    ∃ first pieces, (∀ u ∈ first :: pieces, blank ∉ u) ∧ pieces.length = t.count blank ∧
      ∀ fs, fillBlanks fs t = woven first (separators (t.count blank) fs) pieces := by
  have hne {u : Text} (hu : ∀ c ∈ u, decide (c = blank) = false) : blank ∉ u := by
    intro hmem
    exact absurd (hu blank hmem) (by decide)
  induction t using Text.pieces_induction (p := (· = blank)) with
  | piece u hu =>
    have hcount : u.count blank = 0 := List.count_eq_zero_of_not_mem (hne hu)
    refine ⟨u, [], List.forall_mem_singleton.2 (hne hu), hcount.symm, fun fs => ?_⟩
    rw [woven_nil, fillBlanks_eq_self (hne hu)]
  | cut u c t hu hc ih =>
    obtain rfl : c = blank := of_decide_eq_true hc
    obtain ⟨first, pieces, hpieces, hlength, hfill⟩ := ih
    have hcount : (u ++ blank :: t).count blank = t.count blank + 1 := by
      rw [List.count_append, List.count_eq_zero_of_not_mem (hne hu), List.count_cons_self,
        Nat.zero_add]
    refine ⟨u, first :: pieces, List.forall_mem_cons.2 ⟨hne hu, hpieces⟩, ?_, fun fs => ?_⟩
    · rw [hcount, List.length_cons, hlength]
    rw [hcount, fillBlanks_append (hne hu)]
    cases fs with
    | nil =>
      have hrest := hfill []
      rw [fillBlanks_nil, separators_nil] at hrest
      rw [fillBlanks_nil, separators_nil, List.replicate_succ, woven_cons, ← hrest]
      rfl
    | cons f fs => rw [fillBlanks_blank, separators_cons, woven_cons, hfill fs]

/-- **Traces are replayed blank by blank.**  Of the blanks of a gloss, as many are filled as the
trace has slots, or all of them, the first one with what the first slot writes, and so on; all else
of the gloss is kept, and slots for which there is no blank are dropped.  A second trace that is
replayed after a whole one without blanks goes on where that has stopped. -/
theorem fill_replays (gloss : Text) (trace : List Text) :
    (Whole trace → (∀ m ∈ trace, blank ∉ m) → ∀ trace',
      fill trace' (fill trace gloss) = fill (trace ++ trace') gloss) ∧
    ∃ slots, Slots trace slots ∧
      let blanks := gloss.count blank
      ∃ first pieces, (∀ u ∈ first :: pieces, blank ∉ u) ∧ pieces.length = blanks ∧
        gloss = woven first (List.replicate blanks [blank]) pieces ∧
        fill trace gloss = woven first (separators blanks slots) pieces := by
  have hslots : Slots trace (fillers trace) := slots_iff.2 rfl
  refine ⟨fun hwhole hblank trace' => ?_, fillers trace, hslots, ?_⟩
  · rw [fill, fill, fill, hwhole.fillers_append,
      fillBlanks_fillBlanks (hslots.blank_notMem hblank)]
  · obtain ⟨first, pieces, hpieces, hlength, hfill⟩ := exists_fillBlanks_eq_woven gloss
    refine ⟨first, pieces, hpieces, hlength, ?_, hfill (fillers trace)⟩
    rw [← separators_nil, ← hfill, fillBlanks_nil]

/-- A partner that comes with the second trace is not taken along by the first one: there, it has a
blank of its own. -/
theorem fill_replays_example :
    let gloss : Text := "a b c d".toList
    let trace : List Text := [['<'], ['>'], ['|']]
    Whole trace ∧ (∀ m ∈ trace, blank ∉ m) ∧ fill trace gloss = "a<>b|c d".toList ∧
      fill [['&'], ['|']] "a<>b|c d".toList = "a<>b|c&d".toList ∧
      fill (trace ++ [['&'], ['|']]) gloss = "a<>b|c&d".toList ∧
      fill [['>']] (fill [['<']] gloss) ≠ fill [['<'], ['>']] gloss := by
  intro gloss trace
  have hwhole : Whole trace := .opening (.entry (by decide) .nil)
  have hblank : ∀ m ∈ trace, blank ∉ m := by decide
  have hfill : fill trace gloss = "a<>b|c d".toList := rfl
  have happend := (fill_replays gloss trace).1 hwhole hblank [['&'], ['|']]
  refine ⟨hwhole, hblank, hfill, rfl, ?_, by decide⟩
  rw [← happend, hfill]
  rfl

end Gloss

end Inflection
