import Inflection.Proofs.Generator.Events
import Inflection.Proofs.Generator.Runs
import Inflection.Proofs.Lexicon.Resumed
import Mathlib.Data.List.Nodup

/-!
# The inflections that the lines of an entry tell

An entry unfolds into one line for each form, and the columns of a line describe the glosses of the
form by what stands before and after the headword in them.  Rules only type the blanks of a gloss,
so a headword without blanks is still found in it, and nothing brings a slash into it that stands
between the parts of several glosses.  `Lexicon.unfoldLine_decoded` puts the glosses together again.
-/

namespace Inflection

/-- The line that an event passes on. -/
def Event.line? : Event → Option Text
  | .lineWritten line => some line
  | _ => none

theorem Event.OfGeneration.line?_eq_none {event : Event} (h : event.OfGeneration) :
    event.line? = none := by
  cases event with
  | lineWritten => exact h.elim
  | _ => rfl

/-! ## Glosses that hold the headword -/

/-- An entry whose headword can be told from what stands around it in a gloss: it holds no blank, no
slash, and no white space at either end, and no affix of its part of speech holds a slash. -/
structure Entry.Plain (e : Entry) (g : Generator) : Prop where
  blank_notMem : blank ∉ e.headword
  slash_notMem : '/' ∉ e.headword
  trim_eq : e.headword.trim = e.headword
  affixes : ∀ p, g.paradigms.get? e.pos = some p → ∀ a ∈ p.prefixes ++ p.suffixes, '/' ∉ a

theorem Paradigm.infix_inflect {word : Text} (h : word.Trimmed) (before after : Text) :
    word <:+: inflect word before after := by
  refine h.infix_trim ⟨before ++ [' '], ' ' :: after, ?_⟩
  simp

theorem Paradigm.slash_notMem_inflect {word before after : Text} (hword : '/' ∉ word)
    (hbefore : '/' ∉ before) (hafter : '/' ∉ after) : '/' ∉ inflect word before after := by
  intro hmem
  have hmem := Text.trim_subset _ hmem
  simp [hword, hbefore, hafter] at hmem

namespace Entry

variable {e : Entry} {g : Generator}

theorem Plain.trimmed (he : e.Plain g) : e.headword.Trimmed :=
  he.trim_eq ▸ Text.trimmed_trim e.headword

/-- The headword stands in its glosses, and no slash does. -/
theorem Plain.glosses (he : e.Plain g) :
    ∀ gloss ∈ (g.glosses e.headword e.pos).value, e.headword <:+: gloss ∧ '/' ∉ gloss := by
  unfold Generator.glosses
  split
  next p hp =>
    intro gloss hgloss
    rw [Noted.value_pure, Paradigm.glosses, mem_distinct, List.mem_flatMap] at hgloss
    obtain ⟨before, hbefore, hgloss⟩ := hgloss
    obtain ⟨after, hafter, rfl⟩ := List.mem_map.1 hgloss
    have haffixes := List.forall_mem_append.1 (he.affixes p hp)
    exact ⟨Paradigm.infix_inflect he.trimmed before after,
      Paradigm.slash_notMem_inflect he.slash_notMem (haffixes.1 _ hbefore) (haffixes.2 _ hafter)⟩
  next => exact List.forall_mem_singleton.2 ⟨List.infix_refl _, he.slash_notMem⟩

/-- Whatever rules do to a gloss, the headword still stands in it, and no slash does. -/
theorem Plain.inflections (he : e.Plain g) :
    ∀ w ∈ (g.inflections e.headword e.pos).value, e.headword <:+: w.gloss ∧ '/' ∉ w.gloss := by
  intro w hw
  obtain ⟨gloss, hgloss, k, hretyped⟩ := Generator.exists_retyped_of_mem_inflections hw
  obtain ⟨hpart, hslash⟩ := he.glosses gloss hgloss
  refine ⟨hretyped.infix_of_blank_notMem he.blank_notMem hpart, fun hmem => ?_⟩
  rcases hretyped.mem_or_isMarker hmem with hmem | hmarker
  · exact hslash hmem
  · exact absurd hmarker (by decide)

/-! ## The glosses of a form -/

/-- The glosses of the words with a form, in order. -/
def glossesOf (words : List GlossedWord) (form : Text) : List Text :=
  ((words.filter (·.form = form)).map GlossedWord.gloss).mergeSort Text.precedes

variable {words : List GlossedWord} {form : Text}

theorem mem_glossesOf {gloss : Text} : gloss ∈ glossesOf words form ↔ ⟨gloss, form⟩ ∈ words := by
  rw [glossesOf, List.mem_mergeSort, List.mem_map]
  constructor
  · rintro ⟨w, hw, rfl⟩
    obtain ⟨hw, hform⟩ := List.mem_filter.1 hw
    rw [← of_decide_eq_true hform]
    exact hw
  · exact fun h => ⟨_, List.mem_filter.2 ⟨h, decide_eq_true rfl⟩, rfl⟩

/-- Words that are no two alike have no two glosses alike for one form. -/
theorem pairwise_glossesOf (hwords : words.Nodup) (form : Text) :
    (glossesOf words form).Pairwise (fun s t => Text.precedes s t ∧ s ≠ t) := by
  have hnodup : ((words.filter (·.form = form)).map GlossedWord.gloss).Nodup := by
    refine List.Nodup.map_on (fun v hv w hw hgloss => ?_) (hwords.filter _)
    have hform := of_decide_eq_true (List.mem_filter.1 hv).2
    have hform' := of_decide_eq_true (List.mem_filter.1 hw).2
    cases v
    cases w
    exact congrArg₂ GlossedWord.mk hgloss (hform.trans hform'.symm)
  have hsorted := List.pairwise_mergeSort Text.isOrder_precedes.trans Text.isOrder_precedes.total
    ((words.filter (·.form = form)).map GlossedWord.gloss)
  exact hsorted.and ((List.mergeSort_perm _ _).nodup_iff.2 hnodup)

/-! ## Parts of glosses -/

/-- What stands before and after the headword in each of some glosses. -/
def partsOf (headword : Text) (glosses : List Text) : List (Text × Text) :=
  glosses.filterMap (Text.cut? headword)

/-- Glosses are put together again from their parts, if the headword stands in each of them. -/
theorem map_partsOf {headword : Text} {glosses : List Text}
    (h : ∀ gloss ∈ glosses, headword <:+: gloss) :
    (partsOf headword glosses).map (fun part => part.1 ++ headword ++ part.2) = glosses := by
  induction glosses with
  | nil => rfl
  | cons gloss glosses ih =>
    obtain ⟨hgloss, hglosses⟩ := List.forall_mem_cons.1 h
    obtain ⟨⟨before, after⟩, hcut⟩ := Option.isSome_iff_exists.1 (Text.occursIn_iff.2 hgloss)
    rw [partsOf, List.filterMap_cons_some hcut, List.map_cons, ← partsOf, ih hglosses,
      Text.eq_append_of_cut? hcut]

theorem slash_notMem_of_mem_partsOf {headword : Text} {glosses : List Text}
    (h : ∀ gloss ∈ glosses, '/' ∉ gloss) :
    ∀ part ∈ partsOf headword glosses, '/' ∉ part.1 ∧ '/' ∉ part.2 := by
  intro part hpart
  obtain ⟨gloss, hgloss, hcut⟩ := List.mem_filterMap.1 hpart
  have hslash := h gloss hgloss
  rw [Text.eq_append_of_cut? hcut, List.mem_append, List.mem_append, not_or, not_or] at hslash
  exact ⟨hslash.1.1, hslash.2⟩

/-- The line for a form: what stands before and after the headword in its glosses. -/
def lineOf (e : Entry) (words : List GlossedWord) (form : Text) : FormLine where
  form
  before := (partsOf e.headword (glossesOf words form)).map Prod.fst
  meaning := e.meaning
  after := (partsOf e.headword (glossesOf words form)).map Prod.snd

theorem value_describe (e : Entry) (words : List GlossedWord) (form : Text) :
    (e.describe words form).value = e.lineOf words form := by
  have hparts : (Noted.each e.splitGloss (glossesOf words form)).value.filterMap id =
      partsOf e.headword (glossesOf words form) := by
    rw [Noted.value_each, List.filterMap_map]
    exact List.filterMap_congr fun gloss _ => e.value_splitGloss gloss
  rw [lineOf, ← hparts]
  rfl

theorem events_splitGloss {gloss : Text} (h : e.headword <:+: gloss) :
    (e.splitGloss gloss).events = [] := by
  obtain ⟨parts, hcut⟩ := Option.isSome_iff_exists.1 (Text.occursIn_iff.2 h)
  rw [splitGloss, hcut]
  rfl

/-- If the headword stands in all glosses of a form, its line is written, and nothing else is
noted. -/
theorem events_describe (h : ∀ gloss ∈ glossesOf words form, e.headword <:+: gloss) :
    (e.describe words form).events = [.lineWritten (e.lineOf words form).write] := by
  have hsplit : (Noted.each e.splitGloss (glossesOf words form)).events = [] := by
    rw [Noted.events_each, List.flatMap_eq_nil_iff]
    exact fun gloss hgloss => events_splitGloss (h gloss hgloss)
  rw [← value_describe]
  show (Noted.each e.splitGloss (glossesOf words form)).events ++ _ = _
  rw [hsplit]
  rfl

end Entry

/-! ## Columns -/

namespace FormLine

/-- The column for what stands before the headword. -/
def beforeColumn (l : FormLine) : Text := ['/'].intercalate l.before

/-- The column for what stands after the headword. -/
def afterColumn (l : FormLine) : Text := ['/'].intercalate l.after

/-- The columns of a line, in order. -/
def columns (l : FormLine) : List Text :=
  [unmarked l.form, l.form, l.beforeColumn, l.meaning, l.afterColumn]

/-- A line is split into its columns, if none of them holds a tab. -/
theorem splitOn_write {l : FormLine} (h : ∀ column ∈ l.columns, '\t' ∉ column) :
    l.write.splitOn '\t' = l.columns :=
  List.splitOn_intercalate '\t' h (List.cons_ne_nil _ _)

/-- The glosses that two columns tell of a headword, part by part. -/
def decode (headword before after : Text) : List Text :=
  List.zipWith (fun s t => s ++ headword ++ t) (before.splitOn '/') (after.splitOn '/')

/-- Columns that are joined from parts without slashes are decoded part by part. -/
theorem decode_intercalate (headword : Text) {parts : List (Text × Text)} (hne : parts ≠ [])
    (hslash : ∀ part ∈ parts, '/' ∉ part.1 ∧ '/' ∉ part.2) :
    let before := ['/'].intercalate (parts.map Prod.fst)
    let after := ['/'].intercalate (parts.map Prod.snd)
    (before.splitOn '/').length = (after.splitOn '/').length ∧
      decode headword before after = parts.map fun part => part.1 ++ headword ++ part.2 := by
  intro before after
  have hbefore : before.splitOn '/' = parts.map Prod.fst :=
    List.splitOn_intercalate '/' (List.forall_mem_map.2 fun part hpart => (hslash part hpart).1)
      (mt List.map_eq_nil_iff.1 hne)
  have hafter : after.splitOn '/' = parts.map Prod.snd :=
    List.splitOn_intercalate '/' (List.forall_mem_map.2 fun part hpart => (hslash part hpart).2)
      (mt List.map_eq_nil_iff.1 hne)
  rw [decode, hbefore, hafter, List.length_map, List.length_map, List.zipWith_map,
    List.zipWith_self]
  exact ⟨rfl, rfl⟩

/-- A line tells the glosses of its form among some words: the columns around the headword have as
many parts as each other, and joined around it, these give the glosses, each once and in order. -/
structure Tells (l : FormLine) (words : List GlossedWord) (e : Entry) : Prop where
  written : l.write = ['\t'].intercalate l.columns
  fields : '\t' ∉ l.form → '\t' ∉ l.beforeColumn → '\t' ∉ l.afterColumn →
    l.write.splitOn '\t' = l.columns
  meaning_eq : l.meaning = e.meaning
  length_pos : 1 ≤ (l.beforeColumn.splitOn '/').length
  length_eq : (l.beforeColumn.splitOn '/').length = (l.afterColumn.splitOn '/').length
  ascending : (decode e.headword l.beforeColumn l.afterColumn).Pairwise
    (fun s t => Text.precedes s t ∧ s ≠ t)
  mem_iff : ∀ gloss, gloss ∈ decode e.headword l.beforeColumn l.afterColumn ↔
    ⟨gloss, l.form⟩ ∈ words

end FormLine

namespace Entry

variable {e : Entry} {words : List GlossedWord} {form : Text}

/-- The line for a form tells its glosses, if the headword stands in them and no slash does. -/
theorem tells_lineOf (hwords : words.Nodup) (hform : ∃ w ∈ words, w.form = form)
    (h : ∀ w ∈ words, e.headword <:+: w.gloss ∧ '/' ∉ w.gloss) (hmeaning : '\t' ∉ e.meaning) :
    (e.lineOf words form).Tells words e := by
  have hglosses : ∀ gloss ∈ glossesOf words form, e.headword <:+: gloss ∧ '/' ∉ gloss :=
    fun gloss hgloss => h _ (mem_glossesOf.1 hgloss)
  have hjoin := map_partsOf fun gloss hgloss => (hglosses gloss hgloss).1
  have hne : partsOf e.headword (glossesOf words form) ≠ [] := by
    intro hnil
    obtain ⟨w, hw, rfl⟩ := hform
    have hmem : w.gloss ∈ glossesOf words w.form := mem_glossesOf.2 hw
    rw [← hjoin, hnil] at hmem
    cases hmem
  obtain ⟨hlength, hdecode⟩ := FormLine.decode_intercalate e.headword hne
    (slash_notMem_of_mem_partsOf fun gloss hgloss => (hglosses gloss hgloss).2)
  replace hdecode : FormLine.decode e.headword (e.lineOf words form).beforeColumn
      (e.lineOf words form).afterColumn = glossesOf words form := hdecode.trans hjoin
  constructor
  case written => rfl
  case fields =>
    intro htab htabBefore htabAfter
    refine FormLine.splitOn_write ?_
    simp only [FormLine.columns, List.forall_mem_cons]
    exact ⟨fun hmem => htab (List.mem_of_mem_filter hmem), htab, htabBefore, hmeaning, htabAfter,
      List.forall_mem_nil _⟩
  case meaning_eq => rfl
  case length_pos => exact List.length_pos_iff.2 (List.splitOn_ne_nil _ _)
  case length_eq => exact hlength
  case ascending =>
    rw [hdecode]
    exact pairwise_glossesOf hwords form
  case mem_iff =>
    intro gloss
    rw [hdecode]
    exact mem_glossesOf

variable {g : Generator}

theorem value_unfold (e : Entry) (g : Generator) :
    (e.unfold g).value =
      (distinct Text.precedes ((g.inflections e.headword e.pos).value.map GlossedWord.form)).map
        (e.lineOf (g.inflections e.headword e.pos).value) := by
  rw [unfold, Noted.value_bind, Noted.value_each]
  exact List.map_congr_left fun form _ => e.value_describe _ form

/-- The forms of the lines of an entry are those of the words that it is inflected to. -/
theorem map_form_unfold (e : Entry) (g : Generator) :
    (e.unfold g).value.map FormLine.form =
      distinct Text.precedes ((g.inflections e.headword e.pos).value.map GlossedWord.form) := by
  rw [value_unfold, List.map_map]
  exact List.map_id _

theorem Plain.tells_of_mem_unfold (he : e.Plain g) (hmeaning : '\t' ∉ e.meaning) :
    ∀ l ∈ (e.unfold g).value, l.Tells (g.inflections e.headword e.pos).value e := by
  rw [value_unfold]
  refine List.forall_mem_map.2 fun form hform => ?_
  rw [mem_distinct, List.mem_map] at hform
  exact tells_lineOf (g.nodup_inflections _ _) hform he.inflections hmeaning

/-- Unfolding a plain entry notes what the generation of its inflections brings about, and the lines
that are written. -/
theorem Plain.events_unfold (he : e.Plain g) :
    (e.unfold g).events =
      (g.inflections e.headword e.pos).events ++
        (e.unfold g).value.map fun l => .lineWritten l.write := by
  rw [value_unfold, List.map_map, List.map_eq_flatMap, unfold, Noted.events_bind,
    Noted.events_each]
  refine congrArg _ (List.flatMap_congr fun form _ => events_describe fun gloss hgloss => ?_)
  exact (he.inflections _ (mem_glossesOf.1 hgloss)).1

end Entry

namespace Lexicon

variable {g : Generator} {known : List Text} {line : Text} {e : Entry}

/-- A line is unfolded if its headword is not known. -/
theorem unfoldLine_of_notMem (he : Entry.read line = some e) (hnew : e.headword ∉ known) :
    (unfoldLine g known line).value.2 = (e.unfold g).value ∧
      (unfoldLine g known line).events = (e.unfold g).events := by
  have hknown : known.contains e.headword = false := by
    rwa [← Bool.not_eq_true, List.contains_iff_mem]
  unfold unfoldLine
  rw [he]
  dsimp only
  rw [hknown, if_neg Bool.false_ne_true]
  exact ⟨rfl, List.append_nil _⟩

/-- **The lines of an entry tell its inflections.**  A plain entry whose headword is not known yet
unfolds into one line for each form of its inflections, in the order of the forms, and these are the
lines that are written.  Each tells the glosses of its form, and the headword is missing from no
gloss. -/
theorem unfoldLine_decoded (he : Entry.read line = some e) (hnew : e.headword ∉ known)
    (hplain : e.Plain g) :
    let words := (g.inflections e.headword e.pos).value
    let out := unfoldLine g known line
    let ls := out.value.2
    (ls.map FormLine.form).Pairwise (fun s t => Text.precedes s t ∧ s ≠ t) ∧
      (∀ form, form ∈ ls.map FormLine.form ↔ ∃ w ∈ words, w.form = form) ∧
      (∀ l ∈ ls, l.Tells words e) ∧
      out.events.filterMap Event.line? = ls.map FormLine.write ∧
      ∀ headword gloss, .headwordMissing headword gloss ∉ out.events := by
  intro words out ls
  obtain ⟨hvalue, hevents⟩ := unfoldLine_of_notMem (g := g) he hnew
  replace hvalue : ls = (e.unfold g).value := hvalue
  replace hevents : out.events = (g.inflections e.headword e.pos).events ++
      ls.map fun l => .lineWritten l.write := by
    rw [hvalue, ← hplain.events_unfold]
    exact hevents
  have hgeneration := g.only_inflections e.headword e.pos
  have hforms : ls.map FormLine.form = distinct Text.precedes (words.map GlossedWord.form) := by
    rw [hvalue, e.map_form_unfold]
  refine ⟨?_, fun form => ?_, ?_, ?_, ?_⟩
  · rw [hforms]
    exact pairwise_distinct Text.isOrder_precedes _
  · rw [hforms, mem_distinct, List.mem_map]
  · rw [hvalue]
    exact hplain.tells_of_mem_unfold (Entry.tab_notMem_of_read he (by simp))
  · have hnone : (g.inflections e.headword e.pos).events.filterMap Event.line? = [] :=
      List.filterMap_eq_nil_iff.2 fun event hevent => (hgeneration event hevent).line?_eq_none
    rw [hevents, List.filterMap_append, hnone, List.filterMap_map]
    exact congrFun List.filterMap_eq_map _
  · intro headword gloss hmissing
    rw [hevents, List.mem_append, List.mem_map] at hmissing
    rcases hmissing with hmissing | ⟨l, -, hl⟩
    · exact hgeneration _ hmissing
    · cases hl

/-- A rule that deletes a suffix, so that two inflections come to one form. -/
theorem unfoldLine_decoded_example :
    let g : Generator :=
      { rules := [.replacement ⟨['*', ' ', 'P'], [' ', 'P'], [[]]⟩],
        paradigms := [(['N'], ⟨[[]], [[], ['P']]⟩)] }
    let line : Text := ['a', '\t', 'N', '\t', 'm']
    let e : Entry := ⟨['a'], ['N'], ['m']⟩
    let l : FormLine := ⟨['a'], [[], []], ['m'], [[], [' ', 'P']]⟩
    Entry.read line = some e ∧ e.headword ∉ ([] : List Text) ∧ e.Plain g ∧
      (unfoldLine g [] line).value.2 = [l] ∧ l.Tells (g.inflections e.headword e.pos).value e ∧
      l.write = ['a', '\t', 'a', '\t', '/', '\t', 'm', '\t', '/', ' ', 'P'] ∧
      FormLine.decode e.headword l.beforeColumn l.afterColumn = [['a'], ['a', ' ', 'P']] := by
  intro g line e l
  have he : Entry.read line = some e := rfl
  have hplain : e.Plain g := by
    refine ⟨by decide, by decide, by decide, ?_⟩
    intro p hp
    cases hp
    decide
  have hvalue : (unfoldLine g [] line).value.2 = [l] := by cbv
  obtain ⟨-, -, htells, -, -⟩ := unfoldLine_decoded he List.not_mem_nil hplain
  rw [hvalue] at htells
  exact ⟨he, List.not_mem_nil, hplain, hvalue, htells l List.mem_cons_self, by decide, by decide⟩

end Lexicon

end Inflection
