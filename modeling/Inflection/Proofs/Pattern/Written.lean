import Inflection.Proofs.Pattern.Brackets
import Inflection.Proofs.Text.Cut

/-!
# Patterns as they are written

A `Sign` is one element of a pattern together with the way in which it is written: a character, or
a slot in one of its spellings.  What stands between the brackets of a slot tells by how it begins,
or by a blank in it, which spelling it is, and what a spelling carries keeps it apart from the
others.  So signs that are written one after the other are read as their elements.
-/

namespace Inflection

/-! ## The spellings of slots -/

namespace Slot

/-- What stands between brackets asks by how it begins for a group, for a list or for an optional
slot. -/
def IsMarked (body : Text) : Prop := ∃ c ∈ body.head?, c = '#' ∨ c = '!' ∨ c = '?'

instance : (body : Text) → Decidable (IsMarked body)
  | [] => isFalse fun ⟨_, hc, _⟩ => Option.not_mem_none _ hc
  | c :: _ =>
    decidable_of_iff (c = '#' ∨ c = '!' ∨ c = '?')
      ⟨fun h => ⟨c, rfl, h⟩, fun ⟨_, hc, h⟩ => Option.some.inj hc ▸ h⟩

/-- Without a mark, it is a blank that makes a list. -/
theorem read_of_not_isMarked {body : Text} (hne : body ≠ []) (hmarked : ¬ IsMarked body) :
    read body =
      if ' ' ∈ body then some (.inline false (body.splitOn ' '))
      else if body = ['*'] then some .numbered
      else some (.named body) := by
  unfold read
  split
  case h_1 => exact absurd rfl hne
  case h_6 => rfl
  all_goals exact absurd ⟨_, rfl, by simp⟩ hmarked

end Slot

/-- Alternatives as they may be listed between brackets. -/
structure Listing where
  alternatives : List Text
  ne_nil : alternatives ≠ []
  blank_notMem : ∀ a ∈ alternatives, ' ' ∉ a
  bracket_notMem : ∀ a ∈ alternatives, ']' ∉ a

namespace Listing

/-- The alternatives with blanks between them. -/
def text (l : Listing) : Text := [' '].intercalate l.alternatives

theorem splitOn_text (l : Listing) : l.text.splitOn ' ' = l.alternatives :=
  List.splitOn_intercalate ' ' l.blank_notMem l.ne_nil

theorem bracket_notMem_text (l : Listing) : ']' ∉ l.text := by
  have h : ∀ c ∈ l.text, c ≠ ']' := by
    refine Text.forall_mem_intercalate (List.forall_mem_singleton.2 (by decide))
      fun a ha c hc => ?_
    rintro rfl
    exact l.bracket_notMem a ha hc
  exact fun hmem => h _ hmem rfl

/-- There is a blank between the first two alternatives. -/
theorem blank_mem_text {l : Listing} (h : 2 ≤ l.alternatives.length) : ' ' ∈ l.text := by
  unfold text
  match l.alternatives, h with
  | a :: b :: as, _ => simp [List.intercalate_cons_cons]

end Listing

/-- A slot in one of the ways in which it can be written. -/
inductive Spelling where
  /-- A wildcard, with a name that asks for no other slot. -/
  | named (name : Text) (hne : name ≠ []) (hstar : name ≠ ['*']) (hblank : ' ' ∉ name)
      (hbracket : ']' ∉ name) (hmarked : ¬ Slot.IsMarked name)
  | star
  /-- A group, whose name begins with a number sign; a question mark before that makes it
  optional. -/
  | group (optional : Bool) (name : Text) (hbracket : ']' ∉ name)
  /-- Alternatives after an exclamation mark. -/
  | required (listing : Listing)
  /-- Alternatives after a question mark. -/
  | optional (listing : Listing) (hhead : listing.text.head? ≠ some '#')
  /-- Two alternatives or more, after no mark. -/
  | bare (listing : Listing) (hlength : 2 ≤ listing.alternatives.length)
      (hmarked : ¬ Slot.IsMarked listing.text)

namespace Spelling

/-- What stands between the brackets. -/
def body : Spelling → Text
  | .named name .. => name
  | .star => ['*']
  | .group false name _ => '#' :: name
  | .group true name _ => '?' :: '#' :: name
  | .required l => '!' :: l.text
  | .optional l _ => '?' :: l.text
  | .bare l .. => l.text

/-- The slot that is written. -/
def slot : Spelling → Slot
  | .named name .. => .named name
  | .star => .numbered
  | .group o name _ => .group o ('#' :: name)
  | .required l => .inline false l.alternatives
  | .optional l _ => .inline true l.alternatives
  | .bare l .. => .inline false l.alternatives

/-- The element that is written, if its number is `k`. -/
def element (groups : Groups) (k : Nat) : Spelling → Element
  | .named name .. => .wildcard name
  | .star => .wildcard (Slot.numeral k)
  | .group false name _ => .choice (Slot.numeral k) ((groups.get? ('#' :: name)).getD [])
  | .group true name _ => .optional (Slot.numeral k) ((groups.get? ('#' :: name)).getD [])
  | .required l => .choice (Slot.numeral k) l.alternatives
  | .optional l _ => .optional (Slot.numeral k) l.alternatives
  | .bare l .. => .choice (Slot.numeral k) l.alternatives

/-- Whether the element takes a number. -/
def isCounted : Spelling → Bool
  | .named .. => false
  | _ => true

/-- The group that is asked for, unless it is known. -/
def unknown? (groups : Groups) : Spelling → Option Text
  | .group _ name _ => if groups.get? ('#' :: name) = none then some ('#' :: name) else none
  | _ => none

theorem bracket_notMem_body (s : Spelling) : ']' ∉ s.body := by
  cases s with
  | named name hne hstar hblank hbracket => exact hbracket
  | star => decide
  | group o name hbracket => cases o <;> simpa [body] using hbracket
  | required l => simpa [body] using l.bracket_notMem_text
  | «optional» l => simpa [body] using l.bracket_notMem_text
  | bare l => exact l.bracket_notMem_text

/-- No two spellings are mistaken for each other. -/
theorem read_body (s : Spelling) : Slot.read s.body = some s.slot := by
  cases s with
  | named name hne hstar hblank hbracket hmarked =>
    rw [body, Slot.read_of_not_isMarked hne hmarked, if_neg hblank, if_neg hstar]
    rfl
  | star => rfl
  | group o name => cases o <;> rfl
  | required l =>
    show some (Slot.inline false (l.text.splitOn ' ')) = _
    rw [l.splitOn_text]
    rfl
  | «optional» l hhead =>
    rw [body, Slot.read]
    · rw [l.splitOn_text]
      rfl
    · rintro t ht
      rw [ht] at hhead
      exact hhead rfl
  | bare l hlength hmarked =>
    have hblank := Listing.blank_mem_text hlength
    rw [body, Slot.read_of_not_isMarked (List.ne_nil_of_mem hblank) hmarked, if_pos hblank,
      l.splitOn_text]
    rfl

theorem isCounted_slot (s : Spelling) : s.slot.isCounted = s.isCounted := by
  cases s <;> rfl

/-- What is read for a slot is its element, and a group that is not known is reported. -/
theorem toElement_slot (groups : Groups) (source : Text) (k : Nat) (s : Spelling) :
    (s.slot.toElement groups source k).value = s.element groups k ∧
      (s.slot.toElement groups source k).reports =
        (s.unknown? groups).toList.map fun g => ⟨.unknownGroup g, source⟩ := by
  cases s with
  | group o name =>
    have hlookUp : (Slot.lookUp groups source ('#' :: name)).value =
          (groups.get? ('#' :: name)).getD [] ∧
        (Slot.lookUp groups source ('#' :: name)).reports =
          (if groups.get? ('#' :: name) = none then some ('#' :: name) else none).toList.map
            fun g => ⟨.unknownGroup g, source⟩ := by
      unfold Slot.lookUp
      cases groups.get? ('#' :: name) <;> exact ⟨rfl, rfl⟩
    refine ⟨?_, hlookUp.2⟩
    show Slot.alternation o _ (Slot.lookUp groups source ('#' :: name)).value = _
    rw [hlookUp.1]
    cases o <;> rfl
  | named | star | required | «optional» | bare => exact ⟨rfl, rfl⟩

end Spelling

/-! ## Signs -/

/-- An element of a written pattern. -/
inductive Sign where
  /-- A character that stands for itself. -/
  | literal (char : Char) (hchar : char ≠ '[')
  | slot (spelling : Spelling)

namespace Sign

def write : Sign → Text
  | .literal c _ => [c]
  | .slot s => '[' :: s.body ++ [']']

/-- The element that is written, if its number is `k`. -/
def element (groups : Groups) (k : Nat) : Sign → Element
  | .literal c _ => .literal c
  | .slot s => s.element groups k

/-- Whether the element takes a number. -/
def isCounted : Sign → Bool
  | .literal .. => false
  | .slot s => s.isCounted

/-- The group that is asked for, unless it is known. -/
def unknown? (groups : Groups) : Sign → Option Text
  | .literal .. => none
  | .slot s => s.unknown? groups

end Sign

namespace Pattern

variable (groups : Groups) (source : Text)

/-- Reading a sign gives its element, reports its group if that is not known, and goes on with what
is written after it. -/
theorem readFrom_write_append (s : Sign) (t : Text) (position n : Nat) :
    ∃ position' n', n' = n + (if s.isCounted then 1 else 0) ∧
      (readFrom groups source position n (s.write ++ t)).value =
          s.element groups n :: (readFrom groups source position' n' t).value ∧
        (readFrom groups source position n (s.write ++ t)).reports =
          (s.unknown? groups).toList.map (fun g => ⟨.unknownGroup g, source⟩) ++
            (readFrom groups source position' n' t).reports := by
  cases s with
  | literal c hc =>
    refine ⟨position + 1, n, rfl, ?_⟩
    rw [Sign.write, List.singleton_append, readFrom_char _ _ _ _ hc]
    exact ⟨rfl, rfl⟩
  | slot s =>
    have hfollowing : s.slot.following n = n + (if s.isCounted then 1 else 0) := by
      rw [Slot.following, s.isCounted_slot]
      split_ifs <;> rfl
    obtain ⟨hvalue, hreports⟩ := s.toElement_slot groups source n
    refine ⟨position + s.body.length + 2, s.slot.following n, hfollowing, ?_⟩
    rw [Sign.write, List.append_assoc, List.singleton_append,
      readFrom_slot _ _ _ _ s.bracket_notMem_body s.read_body]
    refine ⟨congrArg (· :: _) hvalue, ?_⟩
    rw [Noted.reports_bind, hreports]
    rfl

/-- What is read for a row of signs, the first of which has the number `n` if it takes one. -/
theorem readFrom_flatMap_write (signs : List Sign) (position n : Nat) :
    (readFrom groups source position n (signs.flatMap Sign.write)).value =
        signs.mapIdx (fun i s => s.element groups (n + (signs.take i).countP Sign.isCounted)) ∧
      (readFrom groups source position n (signs.flatMap Sign.write)).reports =
        (signs.filterMap (Sign.unknown? groups)).map fun g => ⟨.unknownGroup g, source⟩ := by
  induction signs generalizing position n with
  | nil =>
    rw [List.flatMap_nil, readFrom_nil]
    exact ⟨rfl, rfl⟩
  | cons s signs ih =>
    obtain ⟨position', n', hn', hvalue, hreports⟩ :=
      readFrom_write_append groups source s (signs.flatMap Sign.write) position n
    obtain ⟨ihvalue, ihreports⟩ := ih position' n'
    -- A sign counts for all that come after it.
    have hcount (i : Nat) : n' + (signs.take i).countP Sign.isCounted =
        n + ((s :: signs).take (i + 1)).countP Sign.isCounted := by
      rw [hn', List.take_succ_cons, List.countP_cons, Nat.add_assoc,
        Nat.add_comm (List.countP _ _)]
    rw [List.flatMap_cons, hvalue, hreports, ihvalue, ihreports, List.mapIdx_cons]
    constructor
    · simp only [hcount]
      rfl
    · cases hs : s.unknown? groups <;> simp [hs]

/-- **What is written is read.**  Signs that are written one after the other are read as their
elements, one for each sign and in the same order.  Those that take a number are numbered from one
on, and those with a name keep it.  Every reference to a group that is not known is reported, in
order, and nothing else is. -/
theorem read_signs (groups : Groups) (source : Text) (signs : List Sign) :
    (read groups source (signs.flatMap Sign.write)).value =
        signs.mapIdx
          (fun i s => s.element groups ((signs.take i).countP Sign.isCounted + 1)) ∧
      (read groups source (signs.flatMap Sign.write)).reports =
        (signs.filterMap (Sign.unknown? groups)).map fun g => ⟨.unknownGroup g, source⟩ := by
  obtain ⟨hvalue, hreports⟩ := readFrom_flatMap_write groups source signs 0 1
  rw [value_read, reports_read, hvalue]
  refine ⟨?_, hreports⟩
  simp only [Nat.add_comm 1]

/-- A sign of each kind, and a slot in each of its spellings; the second of the two groups is not
known. -/
theorem read_signs_example :
    let ab : Listing := ⟨[['a'], ['b']], by decide, by decide, by decide⟩
    let signs : List Sign := [
      .literal 'x' (by decide),
      .slot (.named ['V'] (by decide) (by decide) (by decide) (by decide) (by decide)),
      .slot .star,
      .slot (.group false ['g'] (by decide)),
      .slot (.group true ['h'] (by decide)),
      .slot (.required ab),
      .slot (.optional ab (by decide)),
      .slot (.bare ab (by decide) (by decide))]
    let groups : Groups := [("#g".toList, [['e'], ['i']])]
    let written : Text := "x[V][*][#g][?#h][!a b][?a b][a b]".toList
    signs.flatMap Sign.write = written ∧
      (read groups [] written).value =
        [.literal 'x', .wildcard ['V'], .wildcard ['1'], .choice ['2'] [['e'], ['i']],
          .optional ['3'] [], .choice ['4'] [['a'], ['b']], .optional ['5'] [['a'], ['b']],
          .choice ['6'] [['a'], ['b']]] ∧
      (read groups [] written).reports = [⟨.unknownGroup "#h".toList, []⟩] := by
  intro ab signs groups written
  have hwritten : signs.flatMap Sign.write = written := by decide
  obtain ⟨hvalue, hreports⟩ := read_signs groups [] signs
  rw [hwritten] at hvalue hreports
  exact ⟨hwritten, hvalue.trans (by decide), hreports.trans (by decide)⟩

end Pattern

end Inflection
