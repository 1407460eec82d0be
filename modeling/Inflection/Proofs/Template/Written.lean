import Inflection.Proofs.Template.Reading

/-!
# Templates as they are written

Reading a template loses nothing of the text: `Template.write_read`.  What kind of piece stands
where is told by `Piece.Fits`: a run goes on to the next opening bracket, and an opening bracket is
a piece of its own only if it starts no reference.  So the references are all the names between
brackets, each where it is written, which is `Template.read_lossless`.
-/

namespace Inflection

variable {t u n r : Text} {i : Nat}

namespace Template

/-- A name between brackets stands at a position of a text; it holds no brackets itself. -/
def NamedAt (t : Text) (i : Nat) (n : Text) : Prop :=
  (∀ c ∈ n, isBracket c = false) ∧ '[' :: n ++ [']'] <+: t.drop i

/-- An opening bracket stands at a position of a text, and no name that is closed stands there. -/
def StrayAt (t : Text) (i : Nat) : Prop := '[' ∈ (t.drop i).head? ∧ ∀ n, ¬ NamedAt t i n

/-- The references of a template that is written from a position on, each with its place. -/
def placesFrom (i : Nat) : Template → List (Nat × Text)
  | [] => []
  | .text run :: t => placesFrom (i + run.length) t
  | .reference n :: t => (i, n) :: placesFrom (i + (n.length + 2)) t

/-- The references of a template, each with the position where it is written. -/
def places (t : Template) : List (Nat × Text) := placesFrom 0 t

end Template

open Template

namespace Piece

/-- What a piece is where a template is read and `u` comes after it. -/
inductive Fits : Piece → Text → Prop where
  | run {r u : Text} (hne : r ≠ []) (hopen : '[' ∉ r) (hu : ∀ c ∈ u.head?, c = '[') :
      Fits (.text r) u
  | reference {n u : Text} (hn : ∀ c ∈ n, isBracket c = false) : Fits (.reference n) u
  | stray {u : Text} (hu : StrayAt ('[' :: u) 0) : Fits (.text ['[']) u

@[simp] theorem length_write_text (r : Text) : (write (.text r)).length = r.length := rfl

@[simp] theorem length_write_reference (n : Text) :
    (write (.reference n)).length = n.length + 2 := by
  simp [write]

end Piece

namespace Template

variable {before after : Template} {p : Piece}

@[simp] theorem write_nil : write [] = [] := rfl

@[simp] theorem write_cons (p : Piece) (t : Template) : write (p :: t) = p.write ++ write t := rfl

@[simp] theorem write_append (a b : Template) : write (a ++ b) = write a ++ write b :=
  List.flatMap_append

/-- Nothing of a text is lost where a template is read from it. -/
theorem write_read (t : Text) : write (read t) = t := by
  fun_induction read t with
  | case1 => rfl
  | case2 t rest h _ ih =>
    calc write (.reference (t.takeWhile (!isBracket ·)) :: read rest)
        = '[' :: (t.takeWhile (!isBracket ·) ++ ']' :: rest) := by simp [Piece.write, ih]
      _ = '[' :: t := by rw [← h, List.takeWhile_append_dropWhile]
  | case3 t _ ih => rw [write_cons, ih, Piece.write, List.singleton_append]
  | case4 c t _ _ ih =>
    rw [write_cons, ih, Piece.write, List.cons_append, List.takeWhile_append_dropWhile]

/-! ## Names between brackets -/

theorem strayAt_drop_iff : StrayAt (t.drop i) 0 ↔ StrayAt t i := Iff.rfl

/-- A name can be read off where it stands. -/
theorem dropWhile_of_namedAt (h : NamedAt ('[' :: t) 0 n) :
    ∃ rest, t.dropWhile (!isBracket ·) = ']' :: rest := by
  obtain ⟨hn, rest, hrest⟩ := h
  refine ⟨rest, ?_⟩
  obtain rfl : n ++ ']' :: rest = t := by simpa using hrest
  have hp : ∀ c ∈ n, (!isBracket c) = true := fun c hc => by rw [hn c hc, Bool.not_false]
  rw [List.dropWhile_append_of_pos hp]
  rfl

/-! ## Pieces -/

/-- What the pieces are that reading gives. -/
theorem fits_of_read (h : read t = before ++ p :: after) : p.Fits (write after) := by
  fun_induction read t generalizing before with
  | case1 => cases before <;> cases h
  | case2 t rest hrest _ ih =>
    rcases List.cons_eq_append_iff.1 h with ⟨rfl, h⟩ | ⟨before, rfl, hread⟩
    · cases h
      refine .reference fun c hc => ?_
      have hall : (!isBracket c) = true := List.all_eq_true.1 List.all_takeWhile c hc
      rwa [Bool.not_eq_true'] at hall
    · exact ih hread
  | case3 t hopen ih =>
    rcases List.cons_eq_append_iff.1 h with ⟨rfl, h⟩ | ⟨before, rfl, hread⟩
    · cases h
      rw [write_read]
      refine .stray ⟨rfl, fun n hn => ?_⟩
      obtain ⟨rest, hrest⟩ := dropWhile_of_namedAt hn
      exact hopen rest hrest
    · exact ih hread
  | case4 c t hc _ ih =>
    rcases List.cons_eq_append_iff.1 h with ⟨rfl, h⟩ | ⟨before, rfl, hread⟩
    · cases h
      rw [write_read]
      refine .run (List.cons_ne_nil _ _) ?_ fun d hd => ?_
      · rintro (_ | ⟨_, hmem⟩)
        · exact hc rfl
        · have hne := List.all_eq_true.1 List.all_takeWhile _ hmem
          exact absurd rfl (bne_iff_ne.1 hne)
      · have hstops := List.head?_dropWhile_not (· != '[') t
        rw [Option.mem_def.1 hd] at hstops
        simpa using hstops
    · exact ih hread

theorem text_ne_nil_of_mem_read (h : .text r ∈ read t) : r ≠ [] := by
  obtain ⟨before, after, h⟩ := List.append_of_mem h
  cases fits_of_read h with
  | run hne => exact hne
  | stray => exact List.cons_ne_nil _ _

/-- A stray bracket stands where it is written. -/
theorem strayAt_of_read (h : read t = before ++ .text ['['] :: after)
    (hstray : StrayAt ('[' :: write after) 0) : StrayAt t (write before).length := by
  have ht : t.drop (write before).length = '[' :: write after := by
    rw [← write_read t, h, write_append, List.drop_left]
    rfl
  rwa [← strayAt_drop_iff, ht]

/-- Two texts are neighbours only if one of them is a stray bracket. -/
theorem strayAt_of_neighbours {a b : Text}
    (h : read t = before ++ .text a :: .text b :: after) :
    (a = ['['] ∧ StrayAt t (write before).length) ∨
      (b = ['['] ∧ StrayAt t (write before ++ a).length) := by
  have hb : read t = (before ++ [.text a]) ++ .text b :: after := by rw [h, List.append_cons]
  cases fits_of_read h with
  | stray hstray => exact Or.inl ⟨rfl, strayAt_of_read h hstray⟩
  | run _ _ hhead =>
    -- The first text is a run, so the second one begins with an opening bracket.
    cases fits_of_read hb with
    | stray hstray =>
      refine Or.inr ⟨rfl, ?_⟩
      have hstray := strayAt_of_read hb hstray
      rwa [write_append, write_cons, write_nil, List.append_nil] at hstray
    | run hne hopen =>
      obtain ⟨c, b, rfl⟩ := List.exists_cons_of_ne_nil hne
      obtain rfl := hhead c rfl
      exact absurd List.mem_cons_self hopen

/-! ## Places -/

theorem mem_placesFrom_iff {t : Template} {k : Nat} :
    (i, n) ∈ placesFrom k t ↔
      ∃ before after, t = before ++ .reference n :: after ∧ i = k + (write before).length := by
  induction t generalizing k with
  | nil => simp [placesFrom]
  | cons p t ih =>
    cases p with
    | text run =>
      rw [placesFrom, ih]
      constructor
      · rintro ⟨before, after, rfl, rfl⟩
        exact ⟨.text run :: before, after, rfl, by simp [Nat.add_assoc]⟩
      · rintro ⟨before, after, h, rfl⟩
        rcases List.cons_eq_append_iff.1 h with ⟨-, h⟩ | ⟨before, rfl, rfl⟩
        · cases h
        · exact ⟨before, after, rfl, by simp [Nat.add_assoc]⟩
    | reference m =>
      rw [placesFrom, List.mem_cons, ih]
      constructor
      · rintro (h | ⟨before, after, rfl, rfl⟩)
        · cases h
          exact ⟨[], t, rfl, rfl⟩
        · exact ⟨.reference m :: before, after, rfl, by simp [Nat.add_assoc]⟩
      · rintro ⟨before, after, h, rfl⟩
        rcases List.cons_eq_append_iff.1 h with ⟨rfl, h⟩ | ⟨before, rfl, rfl⟩
        · cases h
          exact Or.inl rfl
        · exact Or.inr ⟨before, after, rfl, by simp [Nat.add_assoc]⟩

theorem pairwise_placesFrom (k : Nat) (t : Template) :
    (placesFrom k t).Pairwise (fun a b => a.1 < b.1) := by
  induction t generalizing k with
  | nil => exact .nil
  | cons p t ih =>
    cases p with
    | text run => exact ih _
    | reference m =>
      refine List.pairwise_cons.2 ⟨fun ⟨j, n⟩ hj => ?_, ih _⟩
      obtain ⟨before, -, -, rfl⟩ := mem_placesFrom_iff.1 hj
      dsimp only
      omega

theorem map_placesFrom (k : Nat) (t : Template) :
    (placesFrom k t).map Prod.snd = t.references := by
  induction t generalizing k with
  | nil => rfl
  | cons p t ih =>
    cases p with
    | text run => exact ih _
    | reference m => exact congrArg (m :: ·) (ih _)

/-- The references are the names between brackets, each where it stands. -/
theorem mem_places_read_iff : (i, n) ∈ (read t).places ↔ NamedAt t i n := by
  rw [places, mem_placesFrom_iff]
  constructor
  · rintro ⟨before, after, h, rfl⟩
    have ht : t.drop (write before).length = '[' :: n ++ ']' :: write after := by
      rw [← write_read t, h, write_append, List.drop_left]
      simp [Piece.write]
    cases fits_of_read h with
    | reference hn =>
      refine ⟨hn, write after, ?_⟩
      rw [Nat.zero_add, ht]
      simp
  · rintro ⟨hn, rest, hrest⟩
    have hi : i < t.length := by
      have hlength := congrArg List.length hrest
      simp at hlength
      omega
    have ht : t.drop i = '[' :: n ++ ']' :: rest := by
      rw [← hrest]
      simp
    refine ⟨read (t.take i), read rest, ?_, ?_⟩
    · calc read t = read (t.take i ++ t.drop i) := by rw [List.take_append_drop]
        _ = read (t.take i) ++ read ('[' :: n ++ ']' :: rest) := by
          rw [ht, List.cons_append, read_append]
        _ = read (t.take i) ++ .reference n :: read rest := by rw [read_reference hn]
    · rw [write_read, List.length_take]
      omega

/-- **Reading a template loses nothing and finds every reference.**  The pieces written one after
the other are the text.  The references are the names between brackets that hold no brackets
themselves, in the order of their places.  No text is empty, and of two texts that are neighbours
one is an opening bracket that starts no reference. -/
theorem read_lossless (t : Text) :
    write (read t) = t ∧
      ((∀ i n, (i, n) ∈ (read t).places ↔ NamedAt t i n) ∧
        (read t).places.Pairwise (fun a b => a.1 < b.1) ∧
        (read t).places.map Prod.snd = (read t).references) ∧
      (∀ r, .text r ∈ read t → r ≠ []) ∧
      ∀ before a b after, read t = before ++ .text a :: .text b :: after →
        (a = ['['] ∧ StrayAt t (write before).length) ∨
          (b = ['['] ∧ StrayAt t (write before ++ a).length) :=
  ⟨write_read t,
    ⟨fun _ _ => mem_places_read_iff, pairwise_placesFrom 0 _, map_placesFrom 0 _⟩,
    fun _ => text_ne_nil_of_mem_read, fun _ _ _ _ => strayAt_of_neighbours⟩

/-- The first of the opening brackets starts no reference; a name may be empty. -/
theorem read_lossless_example :
    let t : Text := ['a', '[', '[', 'x', ']', '[', ']']
    read t = [.text ['a'], .text ['['], .reference ['x'], .reference []] ∧
      NamedAt t 2 ['x'] ∧ NamedAt t 5 [] ∧ StrayAt t 1 := by
  intro t
  obtain ⟨-, ⟨hplaces, -, -⟩, -, hneighbours⟩ := read_lossless t
  have hread : read t = [.text ['a'], .text ['['], .reference ['x'], .reference []] := by cbv
  have hnamed : ∀ e ∈ [(2, ['x']), (5, [])], NamedAt t e.1 e.2 := by
    intro e he
    rw [← hplaces, hread]
    exact he
  refine ⟨hread, hnamed (2, ['x']) (by simp), hnamed (5, []) (by simp), ?_⟩
  rcases hneighbours [] ['a'] ['['] _ hread with ⟨ha, -⟩ | ⟨-, hstray⟩
  · exact absurd ha (by decide)
  · exact hstray

end Template

end Inflection
