import Inflection.Proofs.Lexicon.Resumed

/-!
# What a run leaves of the files

A run reads what it needs before it writes anything, so it has either all of that or leaves every
file as it was.  Then it writes one file from its start: what is kept of it comes first, and below
that the lines that are counted.  This does not depend on where the lexicon is read from, and holds
if it is the file that is written.
-/

namespace Inflection

/-- A tree that is another one but for the file at a path, which holds some lines without breaks in
them, each ended by a line feed. -/
structure FileTree.Rewritten (tree : FileTree) (p : Path) (lines : List Text) (tree' : FileTree) :
    Prop where
  unbroken : ∀ l ∈ lines, l.Unbroken
  bytes : tree'.bytes p = .ok (Utf8.encode (Text.unlines lines))
  elsewhere : ∃ place, tree.resolve p = .ok place ∧ ∀ q ≠ place, tree'.node? q = tree.node? q
  here : tree'.here = tree.here

theorem FileTree.rewritten_write {tree : FileTree} {p : Path} {place : List Text}
    (hplace : tree.writable p = .ok place) {lines : List Text} (h : ∀ l ∈ lines, l.Unbroken) :
    tree.Rewritten p lines (tree.write place (Text.unlines lines)) where
  unbroken := h
  bytes := bytes_write hplace _
  elsewhere := ⟨place, (writable_eq_ok.1 hplace).1, fun _ hq => node?_write_of_ne hq _⟩
  here := rfl

namespace Lexicon

variable {g : Generator} {tree : FileTree} {input output : Path} {append : Bool}

/-- The lines that a run keeps of a file: those that are not empty, if it appends to them. -/
inductive Keeps (tree : FileTree) (output : Path) : Bool → List Text → Prop where
  | nothing : Keeps tree output false []
  /-- There is no file yet. -/
  | absent (h : tree.contains output = .ok false) : Keeps tree output true []
  | lines {lines : List Text} (h : tree.contains output = .ok true)
      (hlines : tree.readLines output = .ok lines) :
      Keeps tree output true (lines.filter (· ≠ []))

theorem previousLines_eq_ok_iff {kept : List Text} :
    previousLines tree output append = .ok kept ↔ Keeps tree output append kept := by
  constructor
  · intro h
    unfold previousLines at h
    split_ifs at h with happend
    · subst happend
      split at h
      next => cases h
      next hcontains =>
        cases h
        exact .absent hcontains
      next hcontains =>
        split at h
        next => cases h
        next hlines =>
          cases h
          exact .lines hcontains hlines
    · cases h
      rw [Bool.not_eq_true] at happend
      rw [happend]
      exact .nothing
  · intro h
    cases h with
    | nothing => rfl
    | absent h => simp [previousLines, h]
    | lines h hlines => simp [previousLines, h, hlines]

/-- Lines that are kept are unbroken. -/
theorem Keeps.unbroken {kept : List Text} (h : Keeps tree output append kept) :
    ∀ l ∈ kept, l.Unbroken := by
  cases h with
  | nothing => exact List.forall_mem_nil _
  | absent => exact List.forall_mem_nil _
  | lines _ hlines =>
    exact fun l hl => FileTree.unbroken_of_readLines hlines l (List.mem_of_mem_filter hl)

/-- A run has all that it needs: what it appends to and the lexicon can be read, and there is a place
for its output. -/
structure Ready (tree : FileTree) (input output : Path) (append : Bool) : Prop where
  kept : ∃ kept, Keeps tree output append kept
  lines : ∃ lines, tree.readLines input = .ok lines
  place : ∃ place, tree.writable output = .ok place

/-- Nothing is written by a run that lacks something. -/
theorem value_unfold_of_not_ready (g : Generator) (h : ¬ Ready tree input output append) :
    ∃ e, (unfold g tree input output append).value = (.error e, tree) := by
  unfold unfold
  split
  next => exact ⟨_, rfl⟩
  next => exact ⟨_, rfl⟩
  next => exact ⟨_, rfl⟩
  next kept lines place hkept hlines hplace =>
    exact absurd ⟨⟨kept, previousLines_eq_ok_iff.1 hkept⟩, ⟨lines, hlines⟩, place, hplace⟩ h

/-- A run that is ready puts what the lexicon unfolds into below what it keeps. -/
theorem value_unfold_of_ready (g : Generator) (h : Ready tree input output append) :
    ∃ kept lines place ls, Keeps tree output append kept ∧ tree.readLines input = .ok lines ∧
      tree.writable output = .ok place ∧
      (unfoldLines g (kept.filterMap FormLine.markedForm?) (lines.filter (· ≠ []))).value = ls ∧
      (unfold g tree input output append).value =
        (.ok ls.length, tree.write place (Text.unlines (kept ++ ls.map FormLine.write))) := by
  obtain ⟨⟨kept, hkept⟩, ⟨lines, hlines⟩, place, hplace⟩ := h
  exact ⟨kept, lines, place, _, hkept, hlines, hplace, rfl,
    value_unfold (previousLines_eq_ok_iff.2 hkept) hlines hplace rfl⟩

/-- **A run writes all or nothing**, with a generator that is read from files.  It succeeds if and
only if it is ready, and if it does not, every file is as it was.  If it does, it changes no other
file than its output, which holds the lines that are kept of it, and below them the new ones: those
that the lexicon, as it was before the run, unfolds into, and as many as the run counts. -/
theorem unfold_all_or_nothing {files : FileTree} {budget : Budget} {rules : Text}
    {paradigms : Option Text} (hg : (Generator.load files budget rules paradigms).value = .ok g)
    (tree : FileTree) (input output : Path) (append : Bool) :
    let run := (unfold g tree input output append).value
    ((∃ n, run.1 = .ok n) ↔ Ready tree input output append) ∧
    (∀ e, run.1 = .error e → run.2 = tree) ∧
    ∀ n, run.1 = .ok n → ∃ kept new lines, Keeps tree output append kept ∧
      tree.readLines input = .ok lines ∧
      new = (unfoldLines g (kept.filterMap FormLine.markedForm?)
        (lines.filter (· ≠ []))).value.map FormLine.write ∧
      new.length = n ∧ tree.Rewritten output (kept ++ new) run.2 := by
  intro run
  by_cases hready : Ready tree input output append
  · obtain ⟨kept, lines, place, ls, hkept, hlines, hplace, hls, hvalue⟩ :=
      value_unfold_of_ready g hready
    have hrun : run = (.ok ls.length, _) := hvalue
    have hunbroken : ∀ l ∈ kept ++ ls.map FormLine.write, l.Unbroken := by
      refine List.forall_mem_append.2 ⟨hkept.unbroken, List.forall_mem_map.2 ?_⟩
      rw [← hls]
      exact unbroken_write_of_mem_unfoldLines (Generator.unbroken_of_load hg) fun line hline =>
        FileTree.unbroken_of_readLines hlines line (List.mem_of_mem_filter hline)
    rw [hrun]
    refine ⟨iff_of_true ⟨_, rfl⟩ hready, ?_, ?_⟩
    · rintro e ⟨⟩
    · rintro n ⟨⟩
      exact ⟨kept, ls.map FormLine.write, lines, hkept, hlines, by rw [hls], List.length_map _,
        FileTree.rewritten_write hplace hunbroken⟩
  · obtain ⟨e, hvalue⟩ := value_unfold_of_not_ready g hready
    have hrun : run = (.error e, tree) := hvalue
    rw [hrun]
    refine ⟨iff_of_false ?_ hready, fun _ _ => rfl, ?_⟩
    · rintro ⟨n, ⟨⟩⟩
    · rintro n ⟨⟩

/-- No rules, and a lexicon of an entry, an empty line and a line that is no entry. -/
def entryFiles : FileTree where
  nodes :=
    [([['r']], .file (Utf8.encode [])),
      ([['x']], .file (Utf8.encode ['a', '\t', 'N', '\t', 'u', '\n', '\n', 'b', '\n']))]

/-- A lexicon that its own forms are appended to keeps its two lines, and gains one for its entry.
With a lexicon that is missing, nothing is written. -/
theorem unfold_all_or_nothing_example :
    let x := Path.ofText ['x']
    let entry := ['a', '\t', 'N', '\t', 'u']
    let form := ['a', '\t', 'a', '\t', '\t', 'u', '\t']
    let run := (unfold ⟨[], [], .nothing⟩ entryFiles x x true).value
    let failed := (unfold ⟨[], [], .nothing⟩ entryFiles (.ofText ['q']) x true).value
    (Generator.load entryFiles {} ['r'] none).value = .ok ⟨[], [], .nothing⟩ ∧
      run.1 = .ok 1 ∧ entryFiles.Rewritten x [entry, ['b'], form] run.2 ∧
      (∃ e, failed.1 = .error e) ∧ failed.2 = entryFiles := by
  intro x entry form run failed
  have hrules : entryFiles.readLines (.ofText ['r']) = .ok [] :=
    FileTree.readLines_eq_ok rfl rfl (by decide)
  have hload : (Generator.load entryFiles {} ['r'] none).value = .ok ⟨[], [], .nothing⟩ :=
    Generator.value_load_eq_ok_iff.2 ⟨[], Rule.value_load_eq_ok_iff.2 ⟨[], hrules, rfl⟩, rfl⟩
  have hlines : entryFiles.readLines x = .ok [entry, [], ['b']] :=
    FileTree.readLines_eq_ok rfl rfl (by decide)
  have hkeeps : ∀ kept, Keeps entryFiles x true kept → kept = [entry, ['b']] := by
    intro kept hkept
    cases hkept with
    | absent h => cases h
    | lines _ h =>
      cases hlines.symm.trans h
      decide
  obtain ⟨hready, -, hwritten⟩ := unfold_all_or_nothing hload entryFiles x x true
  obtain ⟨n, hn⟩ := hready.2 ⟨⟨_, .lines rfl hlines⟩, ⟨_, hlines⟩, [['x']], rfl⟩
  obtain ⟨kept, new, lines, hkept, hlines', hnew, hcount, hrewritten⟩ := hwritten n hn
  obtain rfl := hkeeps kept hkept
  cases hlines.symm.trans hlines'
  obtain rfl : new = [form] := hnew.trans (by cbv)
  obtain rfl : 1 = n := hcount
  have hfailed : failed.1 = .error _ := rfl
  exact ⟨hload, hn, hrewritten, ⟨_, hfailed⟩,
    (unfold_all_or_nothing hload entryFiles (.ofText ['q']) x true).2.1 _ hfailed⟩

end Lexicon

end Inflection
