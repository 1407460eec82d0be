import Inflection.File.Tree
import Mathlib.Tactic.SplitIfs

/-!
# Files that have been written

A file that has been written holds what was written to it last, under the path by which it was
written, and can be written again.
-/

namespace Inflection

/-- Of two values that are put under a key, the later one counts. -/
theorem Table.put_put {κ β : Type} [DecidableEq κ] (k : κ) (v v' : β) (t : Table κ β) :
    put k v (put k v' t) = put k v t := by
  induction t with
  | nil => simp [put]
  | cons e t ih =>
    obtain ⟨k', w⟩ := e
    by_cases h : k' = k
    · simp [put, h]
    · simp [put, h, ih]

namespace FileTree

variable {t : FileTree} {p : Path} {place : List Text}

theorem write_write (t : FileTree) (place : List Text) (a b : Text) :
    (t.write place a).write place b = t.write place b := by
  simp [write, Table.put_put]

theorem node?_write_of_ne {q : List Text} (h : q ≠ place) (text : Text) :
    (t.write place text).node? q = t.node? q := by
  simp [node?, write, Table.get?_put, Ne.symm h]

theorem node?_write (h : place ≠ []) (text : Text) :
    (t.write place text).node? place = some (.file (Utf8.encode text)) := by
  simp [node?, write, Table.get?_put, h]

/-- A way through directories does not lead past a file. -/
theorem follow_write (hplace : t.node? place ≠ some .directory) {q start parts : List Text}
    (h : t.follow start parts = .ok q) (text : Text) :
    (t.write place text).follow start parts = .ok q := by
  induction parts generalizing start with
  | nil => exact h
  | cons part parts ih =>
    rw [follow] at h
    rcases hnode : t.node? start with _ | _ | _
    · rw [hnode] at h
      cases h
    · rw [hnode] at h
      cases h
    · have hne : start ≠ place := fun heq => hplace (heq ▸ hnode)
      rw [follow, node?_write_of_ne hne, hnode]
      rw [hnode] at h
      dsimp only at h ⊢
      split_ifs at h ⊢
      · exact ih h
      · exact ih h

/-- A path that can be written leads to no directory. -/
theorem writable_eq_ok :
    t.writable p = .ok place ↔ t.resolve p = .ok place ∧ t.node? place ≠ some .directory := by
  unfold writable
  rcases t.resolve p with fault | place'
  · simp
  · dsimp only
    split
    next hdirectory =>
      simp only [reduceCtorEq, false_iff, not_and, Except.ok.injEq]
      rintro rfl
      exact not_not_intro hdirectory
    next hfile =>
      simp only [Except.ok.injEq]
      refine ⟨?_, fun h => h.1⟩
      rintro rfl
      exact ⟨rfl, hfile⟩

theorem ne_nil_of_writable (h : t.writable p = .ok place) : place ≠ [] := by
  rintro rfl
  exact (writable_eq_ok.1 h).2 rfl

theorem resolve_write (h : t.writable p = .ok place) (text : Text) :
    (t.write place text).resolve p = .ok place := by
  obtain ⟨hresolve, hplace⟩ := writable_eq_ok.1 h
  unfold resolve at hresolve ⊢
  split_ifs at hresolve ⊢
  all_goals exact follow_write hplace hresolve text

/-- A file that has been written can be written again. -/
theorem writable_write (h : t.writable p = .ok place) (text : Text) :
    (t.write place text).writable p = .ok place := by
  refine writable_eq_ok.2 ⟨resolve_write h text, ?_⟩
  rw [node?_write (ne_nil_of_writable h)]
  rintro ⟨⟩

theorem contains_write (h : t.writable p = .ok place) (text : Text) :
    (t.write place text).contains p = .ok true := by
  rw [contains, resolve_write h]
  dsimp only
  rw [node?_write (ne_nil_of_writable h), Option.isSome_some]

theorem bytes_write (h : t.writable p = .ok place) (text : Text) :
    (t.write place text).bytes p = .ok (Utf8.encode text) := by
  rw [bytes, resolve_write h]
  dsimp only
  rw [node?_write (ne_nil_of_writable h)]

/-- A file that holds a text has the lines of the text. -/
theorem readLines_eq_ok {text : Text} {lines : List Text} (hresolve : t.resolve p = .ok place)
    (hfile : t.node? place = some (.file (Utf8.encode text)))
    (hlines : text.unifyBreaks.lines = lines) : t.readLines p = .ok lines := by
  have hbytes : t.bytes p = .ok (Utf8.encode text) := by
    rw [bytes, hresolve]
    dsimp only
    rw [hfile]
  rw [readLines, hbytes]
  dsimp only
  rw [Utf8.decode_encode]
  exact congrArg Except.ok hlines

/-- A file that has been written is read as it was written. -/
theorem readLines_write (h : t.writable p = .ok place) (text : Text) :
    (t.write place text).readLines p = .ok text.unifyBreaks.lines :=
  readLines_eq_ok (resolve_write h text) (node?_write (ne_nil_of_writable h) text) rfl

end FileTree

end Inflection
