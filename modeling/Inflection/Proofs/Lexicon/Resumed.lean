import Inflection.Lexicon
import Inflection.Proofs.File.Written
import Inflection.Proofs.Generator.Unbroken
import Mathlib.Data.List.Permutation

/-!
# Unfolding a lexicon in two runs

A run that appends to a file has to know which forms earlier runs have written there.  They know
that from the forms; the later run only has the lines, and takes a line for that of a marked form
if any of its columns shows a boundary.  `Lexicon.unfold_resumed` says that two runs come to the
same as one unless such a line misleads the second one about a headword, and
`Lexicon.unfold_resumed_misled` shows that it can.
-/

namespace Inflection

open Text (unbroken_nil unbroken_append unbroken_cons)

/-! ## Lines as they are read again -/

namespace FormLine

variable {l : FormLine} {h : Text}

theorem isMarked_iff {t : Text} : isMarked t ↔ '|' ∈ t ∨ ['<', '>'] <:+: t := by
  rw [isMarked, Bool.or_eq_true, List.contains_iff_mem, Text.occursIn_iff]

theorem isMarked_append_tab {t u : Text} :
    isMarked (t ++ '\t' :: u) ↔ isMarked t ∨ isMarked u := by
  have htab : '\t' ∉ ['<', '>'] := by decide
  rw [isMarked_iff, isMarked_iff, isMarked_iff, Text.infix_append_cons_iff htab, List.mem_append,
    List.mem_cons, or_or_or_comm]
  simp

theorem isMarked_unmarked (form : Text) : isMarked (unmarked form) = false := by
  refine eq_false_of_ne_true fun h => ?_
  have hmarker : ∀ c ∈ unmarked form, isMarker c = false := by
    simp [unmarked]
  rcases isMarked_iff.1 h with h | h
  · exact absurd (hmarker _ h) (by decide)
  · exact absurd (hmarker _ (h.subset List.mem_cons_self)) (by decide)

theorem write_eq (l : FormLine) :
    l.write = unmarked l.form ++ '\t' :: (l.form ++ '\t' ::
      (['/'].intercalate l.before ++ '\t' :: (l.meaning ++ '\t' ::
        ['/'].intercalate l.after))) := by
  simp [write, List.intercalate_cons_cons, List.intercalate_singleton]

theorem unbroken_write (hform : l.form.Unbroken) (hmeaning : l.meaning.Unbroken)
    (hparts : ∀ t, t ∈ l.before ∨ t ∈ l.after → t.Unbroken) : l.write.Unbroken := by
  have hslash : Text.Unbroken ['/'] := by decide
  have htab : Text.isBreak '\t' = false ∧ '\t' ≠ '\r' := by decide
  have hunmarked : (unmarked l.form).Unbroken := hform.subset List.filter_sublist.subset
  simp only [write_eq, unbroken_append, unbroken_cons]
  exact ⟨hunmarked, htab, hform, htab, hslash.intercalate fun t ht => hparts t (Or.inl ht), htab,
    hmeaning, htab, hslash.intercalate fun t ht => hparts t (Or.inr ht)⟩

/-- A written line shows a boundary if one of its columns does. -/
theorem isMarked_write :
    isMarked l.write ↔ isMarked l.form ∨ isMarked (['/'].intercalate l.before) ∨
      isMarked l.meaning ∨ isMarked (['/'].intercalate l.after) := by
  rw [write_eq]
  simp only [isMarked_append_tab, isMarked_unmarked, Bool.false_eq_true, false_or]

/-- A line misleads about a headword if it is taken for the line of a marked form that is the
headword without its markers, and is not. -/
def Misleads (l : FormLine) (h : Text) : Prop :=
  markedForm? l.write = some h ∧ ¬ (isMarked l.form ∧ unmarked l.form = h)

instance : Decidable (l.Misleads h) := inferInstanceAs (Decidable (_ ∧ ¬ _))

/-- What is read of a written line is its first column, if that holds no tab. -/
theorem markedForm?_write (htab : '\t' ∉ unmarked l.form) :
    markedForm? l.write = if isMarked l.write then some (unmarked l.form) else none := by
  have hcut := Text.cut?_singleton htab (l.form ++ '\t' ::
    (['/'].intercalate l.before ++ '\t' :: (l.meaning ++ '\t' :: ['/'].intercalate l.after)))
  rw [← write_eq] at hcut
  rw [markedForm?, hcut]
  rfl

/-- A line whose form holds no tab misleads about a headword if the form is the headword, and one
of the other columns shows a boundary. -/
theorem misleads_iff (htab : '\t' ∉ l.form) :
    l.Misleads h ↔ unmarked l.form = h ∧ isMarked l.form = false ∧
      (isMarked (['/'].intercalate l.before) ∨ isMarked l.meaning ∨
        isMarked (['/'].intercalate l.after)) := by
  have htab' : '\t' ∉ unmarked l.form := fun hmem => htab (List.mem_of_mem_filter hmem)
  rw [Misleads, markedForm?_write htab', Option.ite_none_right_eq_some, Option.some_inj,
    isMarked_write]
  constructor
  · rintro ⟨⟨hmarked, rfl⟩, hform⟩
    have hform : isMarked l.form = false := eq_false_of_ne_true fun h => hform ⟨h, rfl⟩
    rw [hform] at hmarked
    exact ⟨rfl, hform, hmarked.resolve_left Bool.false_ne_true⟩
  · rintro ⟨rfl, hform, hmarked⟩
    refine ⟨⟨Or.inr hmarked, rfl⟩, fun h => ?_⟩
    exact Bool.false_ne_true (hform.symm.trans h.1)

end FormLine

namespace Entry

theorem splitOn_of_read {line : Text} {e : Entry} (h : read line = some e) :
    line.splitOn '\t' = [e.headword, e.pos, e.meaning] := by
  unfold read at h
  split at h
  next hfields =>
    cases h
    exact hfields
  next => cases h

theorem tab_notMem_of_read {line : Text} {e : Entry} (h : read line = some e) {field : Text}
    (hfield : field ∈ [e.headword, e.pos, e.meaning]) : '\t' ∉ field := by
  rw [← splitOn_of_read h] at hfield
  intro htab
  exact absurd ((Text.infix_of_mem_splitOnP hfield).2 _ htab) (by decide)

theorem tab_notMem_headword {line : Text} {e : Entry} (h : read line = some e) :
    '\t' ∉ e.headword :=
  tab_notMem_of_read h List.mem_cons_self

theorem value_splitGloss (e : Entry) (gloss : Text) :
    (e.splitGloss gloss).value = Text.cut? e.headword gloss := by
  unfold splitGloss
  rcases Text.cut? e.headword gloss with _ | parts
  · rfl
  · rfl

/-- What stands before and after the headword are parts of the glosses. -/
theorem unbroken_of_mem_describe {e : Entry} {words : List GlossedWord}
    (hwords : ∀ w ∈ words, w.Unbroken) (form : Text) :
    ∀ t, t ∈ (e.describe words form).value.before ∨ t ∈ (e.describe words form).value.after →
      t.Unbroken := by
  let glosses := (words.filter (·.form = form)).map GlossedWord.gloss
  let parts := (Noted.each e.splitGloss (glosses.mergeSort Text.precedes)).value.filterMap id
  have hparts : ∀ part ∈ parts, part.1.Unbroken ∧ part.2.Unbroken := by
    intro part hpart
    obtain ⟨part?, hpart?, hid⟩ := List.mem_filterMap.1 hpart
    rw [Noted.value_each, List.mem_map] at hpart?
    obtain ⟨gloss, hgloss, rfl⟩ := hpart?
    obtain ⟨w, hw, rfl⟩ := List.mem_map.1 (List.mem_mergeSort.1 hgloss)
    have hgloss := (hwords w (List.mem_of_mem_filter hw)).gloss
    rw [id, value_splitGloss] at hid
    rw [Text.eq_append_of_cut? hid, unbroken_append, unbroken_append] at hgloss
    exact ⟨hgloss.1.1, hgloss.2⟩
  rintro t (ht | ht)
  · obtain ⟨part, hpart, rfl⟩ := List.mem_map.1 (show t ∈ parts.map Prod.fst from ht)
    exact (hparts part hpart).1
  · obtain ⟨part, hpart, rfl⟩ := List.mem_map.1 (show t ∈ parts.map Prod.snd from ht)
    exact (hparts part hpart).2

end Entry

namespace Lexicon

variable {g : Generator}

/-! ## Known forms -/

/-- The forms that are known from some lines. -/
def knownFrom (ls : List FormLine) : List Text :=
  ((ls.map FormLine.form).filter FormLine.isMarked).map FormLine.unmarked

theorem mem_knownFrom {ls : List FormLine} {h : Text} :
    h ∈ knownFrom ls ↔ ∃ l ∈ ls, FormLine.isMarked l.form ∧ FormLine.unmarked l.form = h := by
  simp [knownFrom, and_assoc]

theorem knownFrom_append (ls ls' : List FormLine) :
    knownFrom (ls ++ ls') = knownFrom ls ++ knownFrom ls' := by
  simp [knownFrom]

/-- A headword is known from lines that are read again if and only if it is known from their forms,
unless one of them misleads about it. -/
theorem mem_markedForms_iff {ls : List FormLine} {h : Text} (htab : '\t' ∉ h)
    (hmisled : ∀ l ∈ ls, ¬ l.Misleads h) :
    h ∈ (ls.map FormLine.write).filterMap FormLine.markedForm? ↔ h ∈ knownFrom ls := by
  rw [List.mem_filterMap, mem_knownFrom]
  constructor
  · rintro ⟨line, hline, hread⟩
    obtain ⟨l, hl, rfl⟩ := List.mem_map.1 hline
    exact ⟨l, hl, by_contra fun hform => hmisled l hl ⟨hread, hform⟩⟩
  · rintro ⟨l, hl, hmarked, rfl⟩
    refine ⟨l.write, List.mem_map_of_mem hl, ?_⟩
    rw [FormLine.markedForm?_write htab, if_pos (FormLine.isMarked_write.2 (Or.inl hmarked))]

/-- The forms that a line unfolds into are known below it, and nothing else of it. -/
theorem value_unfoldLine_fst (known : List Text) (line : Text) :
    (unfoldLine g known line).value.1 = knownFrom (unfoldLine g known line).value.2 ++ known := by
  unfold unfoldLine
  split
  next => rfl
  next e _ =>
    dsimp only
    split_ifs
    · rfl
    · rfl

/-- What a line unfolds into depends on whether its headword is known. -/
theorem value_unfoldLine_snd_congr {known known' : List Text} {line : Text}
    (h : ∀ e, Entry.read line = some e → (e.headword ∈ known ↔ e.headword ∈ known')) :
    (unfoldLine g known line).value.2 = (unfoldLine g known' line).value.2 := by
  unfold unfoldLine
  split
  next => rfl
  next e he =>
    have hknown : known.contains e.headword = known'.contains e.headword := by
      rw [Bool.eq_iff_iff, List.contains_iff_mem, List.contains_iff_mem]
      exact h e he
    rw [hknown]
    split_ifs
    · rfl
    · rfl

theorem value_unfoldLines_cons (known : List Text) (line : Text) (lines : List Text) :
    (unfoldLines g known (line :: lines)).value =
      (unfoldLine g known line).value.2 ++
        (unfoldLines g (knownFrom (unfoldLine g known line).value.2 ++ known) lines).value := by
  rw [← value_unfoldLine_fst]
  rfl

/-- Lines unfold alike if the same of their headwords are known. -/
theorem value_unfoldLines_congr {known known' lines : List Text}
    (h : ∀ line ∈ lines, ∀ e, Entry.read line = some e →
      (e.headword ∈ known ↔ e.headword ∈ known')) :
    (unfoldLines g known lines).value = (unfoldLines g known' lines).value := by
  induction lines generalizing known known' with
  | nil => rfl
  | cons line lines ih =>
    obtain ⟨hline, hlines⟩ := List.forall_mem_cons.1 h
    rw [value_unfoldLines_cons, value_unfoldLines_cons, value_unfoldLine_snd_congr hline]
    refine congrArg _ (ih fun line' hline' e he => ?_)
    rw [List.mem_append, List.mem_append, hlines line' hline' e he]

/-- What lines unfold into is known to the lines below them. -/
theorem value_unfoldLines_append (known xs ys : List Text) :
    (unfoldLines g known (xs ++ ys)).value =
      (unfoldLines g known xs).value ++
        (unfoldLines g (knownFrom (unfoldLines g known xs).value ++ known) ys).value := by
  induction xs generalizing known with
  | nil => rfl
  | cons x xs ih =>
    rw [List.cons_append, value_unfoldLines_cons, value_unfoldLines_cons, ih, List.append_assoc]
    refine congrArg _ (congrArg _ (value_unfoldLines_congr fun y _ e _ => ?_))
    rw [knownFrom_append, List.append_assoc, List.mem_append, List.mem_append, List.mem_append,
      List.mem_append, or_left_comm]

/-- The lines for the forms of an unbroken entry are unbroken. -/
theorem unbroken_write_of_mem_unfold (hg : g.Unbroken) {line : Text} (hline : line.Unbroken)
    {e : Entry} (he : Entry.read line = some e) :
    ∀ l ∈ (e.unfold g).value, l.write.Unbroken := by
  have hfields := Entry.splitOn_of_read he
  have hheadword : e.headword.Unbroken :=
    hline.subset (Text.subset_of_mem_splitOn (hfields ▸ List.mem_cons_self))
  have hmeaning : e.meaning.Unbroken :=
    hline.subset (Text.subset_of_mem_splitOn (c := '\t') (by simp [hfields]))
  rw [Entry.unfold, Noted.value_bind, Noted.value_each]
  have hwords := hg.inflections hheadword e.pos
  generalize (g.inflections e.headword e.pos).value = words at hwords
  refine List.forall_mem_map.2 fun form hform => ?_
  rw [mem_distinct] at hform
  obtain ⟨w, hw, rfl⟩ := List.mem_map.1 hform
  exact FormLine.unbroken_write (hwords w hw).form hmeaning
    (Entry.unbroken_of_mem_describe hwords w.form)

/-- The lines for unbroken entries are unbroken. -/
theorem unbroken_write_of_mem_unfoldLines (hg : g.Unbroken) {known lines : List Text}
    (hlines : ∀ line ∈ lines, line.Unbroken) :
    ∀ l ∈ (unfoldLines g known lines).value, l.write.Unbroken := by
  induction lines generalizing known with
  | nil => exact List.forall_mem_nil _
  | cons line lines ih =>
    obtain ⟨hline, hlines⟩ := List.forall_mem_cons.1 hlines
    rw [value_unfoldLines_cons]
    refine List.forall_mem_append.2 ⟨?_, ih hlines⟩
    unfold unfoldLine
    split
    next => exact List.forall_mem_nil _
    next e he =>
      dsimp only
      split_ifs
      · exact List.forall_mem_nil _
      · exact unbroken_write_of_mem_unfold hg hline he

/-! ## Runs -/

variable {tree : FileTree} {input output : Path} {place : List Text} {append : Bool}

theorem value_unfold {previous lines : List Text} {ls : List FormLine}
    (hprevious : previousLines tree output append = .ok previous)
    (hlines : tree.readLines input = .ok lines) (hplace : tree.writable output = .ok place)
    (hls : (unfoldLines g (previous.filterMap FormLine.markedForm?)
      (lines.filter (· ≠ []))).value = ls) :
    (unfold g tree input output append).value =
      (.ok ls.length, tree.write place (Text.unlines (previous ++ ls.map FormLine.write))) := by
  subst hls
  rw [unfold, hprevious, hlines, hplace]
  rfl

/-- A run that does not append writes the lines that its input unfolds into. -/
theorem value_unfold_fresh {lines : List Text} {ls : List FormLine}
    (hlines : tree.readLines input = .ok lines) (hplace : tree.writable output = .ok place)
    (hls : (unfoldLines g [] (lines.filter (· ≠ []))).value = ls) :
    (unfold g tree input output false).value =
      (.ok ls.length, tree.write place (Text.unlines (ls.map FormLine.write))) := by
  have hprevious : previousLines tree output false = .ok [] := rfl
  exact value_unfold hprevious hlines hplace hls

/-- A run that appends to lines that have been written keeps them. -/
theorem value_unfold_append {lines : List Text} {ls ls' : List FormLine}
    (hplace : tree.writable output = .ok place) (hwritten : ∀ l ∈ ls, l.write.Unbroken)
    (hlines : (tree.write place (Text.unlines (ls.map FormLine.write))).readLines input = .ok lines)
    (hls' : (unfoldLines g ((ls.map FormLine.write).filterMap FormLine.markedForm?)
      (lines.filter (· ≠ []))).value = ls') :
    (unfold g (tree.write place (Text.unlines (ls.map FormLine.write))) input output true).value =
      (.ok ls'.length, tree.write place (Text.unlines ((ls ++ ls').map FormLine.write))) := by
  have hunbroken : ∀ l ∈ ls.map FormLine.write, l.Unbroken := List.forall_mem_map.2 hwritten
  have hne : ∀ l ∈ ls.map FormLine.write, decide (l ≠ []) = true := by
    refine List.forall_mem_map.2 fun l _ => decide_eq_true ?_
    rw [FormLine.write_eq]
    simp
  have hprevious : previousLines (tree.write place (Text.unlines (ls.map FormLine.write))) output
      true = .ok (ls.map FormLine.write) := by
    rw [previousLines, if_pos rfl, FileTree.contains_write hplace]
    dsimp only
    rw [FileTree.readLines_write hplace]
    dsimp only
    rw [Text.lines_unlines hunbroken, List.filter_eq_self.2 hne]
  rw [value_unfold hprevious hlines (FileTree.writable_write hplace _) hls',
    FileTree.write_write, List.map_append]

/-- **Two runs come to the same as one**, with a generator that is read from files, unless a line
of the first run misleads the second one about a headword.  The second run adds its lines to those
of the first, so that the files are the same, and the counts add up. -/
theorem unfold_resumed {files : FileTree} {budget : Budget} {rules : Text}
    {paradigms : Option Text} (hg : (Generator.load files budget rules paradigms).value = .ok g)
    {first second both : Path} {xs ys : List Text} (hplace : tree.writable output = .ok place)
    (hxs : tree.readLines first = .ok xs)
    (hys : (unfold g tree first output false).value.2.readLines second = .ok ys)
    (hboth : tree.readLines both = .ok (xs ++ ys))
    (hmisled : ∀ l ∈ (unfoldLines g [] (xs.filter (· ≠ []))).value, ∀ line ∈ ys,
      ∀ e, Entry.read line = some e → ¬ l.Misleads e.headword) :
    let run₁ := (unfold g tree first output false).value
    let run₂ := (unfold g run₁.2 second output true).value
    let run := (unfold g tree both output false).value
    ∃ n m, run₁.1 = .ok n ∧ run₂.1 = .ok m ∧ run.1 = .ok (n + m) ∧ run₂.2 = run.2 := by
  intro run₁ run₂ run
  generalize hls : (unfoldLines g [] (xs.filter (· ≠ []))).value = ls at hmisled
  generalize hls' : (unfoldLines g (knownFrom ls) (ys.filter (· ≠ []))).value = ls'
  have hwritten : ∀ l ∈ ls, l.write.Unbroken := by
    rw [← hls]
    exact unbroken_write_of_mem_unfoldLines (Generator.unbroken_of_load hg) fun line hline =>
      FileTree.unbroken_of_readLines hxs line (List.mem_of_mem_filter hline)
  have hrun₁ : run₁ = (.ok ls.length, tree.write place (Text.unlines (ls.map FormLine.write))) :=
    value_unfold_fresh hxs hplace hls
  have hrun : run = (.ok (ls ++ ls').length,
      tree.write place (Text.unlines ((ls ++ ls').map FormLine.write))) :=
    value_unfold_fresh hboth hplace <| by
      rw [List.filter_append, value_unfoldLines_append, hls, List.append_nil, hls']
  -- The lines of the first run tell of the same headwords as its forms.
  have hsame : (unfoldLines g ((ls.map FormLine.write).filterMap FormLine.markedForm?)
      (ys.filter (· ≠ []))).value = ls' := by
    rw [← hls']
    refine value_unfoldLines_congr fun line hline e he => ?_
    exact mem_markedForms_iff (Entry.tab_notMem_headword he)
      fun l hl => hmisled l hl line (List.mem_of_mem_filter hline) e he
  have hrun₂ : run₂ = (.ok ls'.length,
      tree.write place (Text.unlines ((ls ++ ls').map FormLine.write))) := by
    replace hys : run₁.2.readLines second = .ok ys := hys
    show (unfold g run₁.2 second output true).value = _
    rw [hrun₁] at hys ⊢
    exact value_unfold_append hplace hwritten hys hsame
  refine ⟨ls.length, ls'.length, congrArg Prod.fst hrun₁, congrArg Prod.fst hrun₂, ?_, ?_⟩
  · rw [hrun, List.length_append]
  · rw [hrun₂, hrun]

/-! ### Runs on small files

A first run unfolds `x` into `o`, a second one appends what `y` unfolds into, and a single one
unfolds `z`, which holds the lines of both. -/

def firstRun (g : Generator) (files : FileTree) : Except Failure Nat × FileTree :=
  (unfold g files (.ofText ['x']) (.ofText ['o']) false).value

def secondRun (g : Generator) (files : FileTree) : Except Failure Nat × FileTree :=
  (unfold g (firstRun g files).2 (.ofText ['y']) (.ofText ['o']) true).value

def singleRun (g : Generator) (files : FileTree) : Except Failure Nat × FileTree :=
  (unfold g files (.ofText ['z']) (.ofText ['o']) false).value

/-- A rule that writes a boundary. -/
def boundaryGenerator : Generator where
  rules := [.replacement ⟨['*', 'a', '\t', 'a', '|', 'n'], ['a'], [['a', '|', 'n']]⟩]

/-- The rule, one entry, and two more, of which the first is the form that the rule makes of it. -/
def boundaryFiles : FileTree where
  nodes :=
    [([['r']], .file (Utf8.encode ['*', 'a', '\t', 'a', '|', 'n', '\n'])),
      ([['x']], .file (Utf8.encode ['a', '\t', 'N', '\t', 'u', '\n'])),
      ([['y']], .file (Utf8.encode
        ['a', 'n', '\t', 'N', '\t', 'v', '\n', 'b', '\t', 'N', '\t', 'w', '\n'])),
      ([['z']], .file (Utf8.encode
        ['a', '\t', 'N', '\t', 'u', '\n', 'a', 'n', '\t', 'N', '\t', 'v', '\n',
          'b', '\t', 'N', '\t', 'w', '\n']))]

/-- The second run knows the form that the first one has written, and skips its entry. -/
theorem unfold_resumed_example :
    (firstRun boundaryGenerator boundaryFiles).1 = .ok 1 ∧
      (secondRun boundaryGenerator boundaryFiles).1 = .ok 1 ∧
      (singleRun boundaryGenerator boundaryFiles).1 = .ok 2 ∧
      (secondRun boundaryGenerator boundaryFiles).2 =
        (singleRun boundaryGenerator boundaryFiles).2 := by
  have hrules : boundaryFiles.readLines (.ofText ['r']) =
      .ok [['*', 'a', '\t', 'a', '|', 'n']] := FileTree.readLines_eq_ok rfl rfl (by decide)
  have hload : (Generator.load boundaryFiles {} ['r'] none).value = .ok boundaryGenerator :=
    Generator.value_load_eq_ok_iff.2
      ⟨_, Rule.value_load_eq_ok_iff.2 ⟨_, hrules, by cbv⟩, rfl⟩
  have hplace : boundaryFiles.writable (.ofText ['o']) = .ok [['o']] := rfl
  have hxs : boundaryFiles.readLines (.ofText ['x']) = .ok [['a', '\t', 'N', '\t', 'u']] :=
    FileTree.readLines_eq_ok rfl rfl (by decide)
  have hzs : boundaryFiles.readLines (.ofText ['z']) =
      .ok ([['a', '\t', 'N', '\t', 'u']] ++
        [['a', 'n', '\t', 'N', '\t', 'v'], ['b', '\t', 'N', '\t', 'w']]) :=
    FileTree.readLines_eq_ok rfl rfl (by decide)
  have hls : (unfoldLines boundaryGenerator []
      ([['a', '\t', 'N', '\t', 'u']].filter (· ≠ []))).value =
        [⟨['a', '|', 'n'], [[]], ['u'], [[]]⟩] := by cbv
  have hboth : (unfoldLines boundaryGenerator [] (([['a', '\t', 'N', '\t', 'u']] ++
      [['a', 'n', '\t', 'N', '\t', 'v'], ['b', '\t', 'N', '\t', 'w']]).filter (· ≠ []))).value =
        [⟨['a', '|', 'n'], [[]], ['u'], [[]]⟩, ⟨['b'], [[]], ['w'], [[]]⟩] := by cbv
  have hfirst : firstRun boundaryGenerator boundaryFiles = _ := value_unfold_fresh hxs hplace hls
  have hsingle : singleRun boundaryGenerator boundaryFiles = _ :=
    value_unfold_fresh hzs hplace hboth
  have hys : (firstRun boundaryGenerator boundaryFiles).2.readLines (.ofText ['y']) =
      .ok [['a', 'n', '\t', 'N', '\t', 'v'], ['b', '\t', 'N', '\t', 'w']] := by
    rw [hfirst]
    exact FileTree.readLines_eq_ok rfl rfl (by decide)
  have hmisled : ∀ line ∈ [['a', 'n', '\t', 'N', '\t', 'v'], ['b', '\t', 'N', '\t', 'w']],
      ∀ e, Entry.read line = some e →
        ¬ FormLine.Misleads ⟨['a', '|', 'n'], [[]], ['u'], [[]]⟩ e.headword := by
    intro line hline e he
    simp only [List.mem_cons, List.not_mem_nil, or_false] at hline
    rcases hline with rfl | rfl
    all_goals
      cases (show some _ = some e from he)
      decide
  obtain ⟨n, m, hn, hm, hnm, htree⟩ := unfold_resumed hload hplace hxs hys hzs (by
    rw [hls]
    exact List.forall_mem_singleton.2 hmisled)
  have hcount : n = 1 := Except.ok.inj (hn.symm.trans (congrArg Prod.fst hfirst))
  have hcounts : n + m = 2 := Except.ok.inj (hnm.symm.trans (congrArg Prod.fst hsingle))
  obtain ⟨rfl, rfl⟩ : n = 1 ∧ m = 1 := by omega
  exact ⟨hn, hm, hnm, htree⟩

def homonymGenerator : Generator where
  rules := []
  paradigms := [(['N'], ⟨[[]], [[]]⟩)]
  unrealized := .anyOf []

/-- Two entries for one headword, of which the first has a boundary in its meaning. -/
def homonymFiles : FileTree where
  nodes :=
    [([['r']], .file (Utf8.encode [])),
      ([['p']], .file (Utf8.encode ['[', 'N', ']'])),
      ([['x']], .file (Utf8.encode ['a', '\t', 'N', '\t', 'x', '|', 'y', '\n'])),
      ([['y']], .file (Utf8.encode ['a', '\t', 'N', '\t', 'z', '\n'])),
      ([['z']], .file (Utf8.encode
        ['a', '\t', 'N', '\t', 'x', '|', 'y', '\n', 'a', '\t', 'N', '\t', 'z', '\n']))]

/-- The line of the first run shows a boundary in its meaning, so the second run takes the headword
for a marked form, and writes nothing.  One run writes a line for either entry. -/
theorem unfold_resumed_misled :
    (Generator.load homonymFiles {} ['r'] (some ['p'])).value = .ok homonymGenerator ∧
      homonymFiles.readLines (.ofText ['x']) = .ok [['a', '\t', 'N', '\t', 'x', '|', 'y']] ∧
      (firstRun homonymGenerator homonymFiles).2.readLines (.ofText ['y']) =
        .ok [['a', '\t', 'N', '\t', 'z']] ∧
      homonymFiles.readLines (.ofText ['z']) =
        .ok ([['a', '\t', 'N', '\t', 'x', '|', 'y']] ++ [['a', '\t', 'N', '\t', 'z']]) ∧
      (firstRun homonymGenerator homonymFiles).1 = .ok 1 ∧
      (secondRun homonymGenerator homonymFiles).1 = .ok 0 ∧
      (singleRun homonymGenerator homonymFiles).1 = .ok 2 ∧
      (secondRun homonymGenerator homonymFiles).2.readLines (.ofText ['o']) ≠
        (singleRun homonymGenerator homonymFiles).2.readLines (.ofText ['o']) := by
  have hplace : homonymFiles.writable (.ofText ['o']) = .ok [['o']] := rfl
  have hrules : homonymFiles.readLines (.ofText ['r']) = .ok [] :=
    FileTree.readLines_eq_ok rfl rfl (by decide)
  have hparadigms : homonymFiles.readLines (.ofText ['p']) = .ok [['[', 'N', ']']] :=
    FileTree.readLines_eq_ok rfl rfl (by decide)
  have hload : (Generator.load homonymFiles {} ['r'] (some ['p'])).value = .ok homonymGenerator :=
    Generator.value_load_eq_ok_iff.2 ⟨[], Rule.value_load_eq_ok_iff.2 ⟨[], hrules, rfl⟩,
      _, Inventory.value_load_eq_ok_iff.2 ⟨_, hparadigms, rfl⟩, by cbv⟩
  have hxs : homonymFiles.readLines (.ofText ['x']) =
      .ok [['a', '\t', 'N', '\t', 'x', '|', 'y']] :=
    FileTree.readLines_eq_ok rfl rfl (by decide)
  have hzs : homonymFiles.readLines (.ofText ['z']) =
      .ok ([['a', '\t', 'N', '\t', 'x', '|', 'y']] ++ [['a', '\t', 'N', '\t', 'z']]) :=
    FileTree.readLines_eq_ok rfl rfl (by decide)
  have hls : (unfoldLines homonymGenerator []
      ([['a', '\t', 'N', '\t', 'x', '|', 'y']].filter (· ≠ []))).value =
        [⟨['a'], [[]], ['x', '|', 'y'], [[]]⟩] := by cbv
  have hboth : (unfoldLines homonymGenerator []
      (([['a', '\t', 'N', '\t', 'x', '|', 'y']] ++ [['a', '\t', 'N', '\t', 'z']]).filter
        (· ≠ []))).value =
        [⟨['a'], [[]], ['x', '|', 'y'], [[]]⟩, ⟨['a'], [[]], ['z'], [[]]⟩] := by cbv
  have hfirst : firstRun homonymGenerator homonymFiles = _ := value_unfold_fresh hxs hplace hls
  have hsingle : singleRun homonymGenerator homonymFiles = _ :=
    value_unfold_fresh hzs hplace hboth
  have hys : (firstRun homonymGenerator homonymFiles).2.readLines (.ofText ['y']) =
      .ok [['a', '\t', 'N', '\t', 'z']] := by
    rw [hfirst]
    exact FileTree.readLines_eq_ok rfl rfl (by decide)
  have hsecond : secondRun homonymGenerator homonymFiles =
      (.ok 0, homonymFiles.write [['o']] (Text.unlines
        ([⟨['a'], [[]], ['x', '|', 'y'], [[]]⟩].map FormLine.write))) := by
    rw [hfirst] at hys
    rw [secondRun, hfirst]
    exact value_unfold_append hplace (List.forall_mem_singleton.2 (by decide)) hys (by cbv)
  refine ⟨hload, hxs, hys, hzs, congrArg Prod.fst hfirst, congrArg Prod.fst hsecond,
    congrArg Prod.fst hsingle, ?_⟩
  rw [hsecond, hsingle, FileTree.readLines_write hplace, FileTree.readLines_write hplace]
  decide

end Lexicon

end Inflection
