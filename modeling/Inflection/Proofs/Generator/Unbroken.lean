import Inflection.Generator
import Inflection.Proofs.Paradigm.Unrealized
import Inflection.Proofs.Rule.Unbroken

/-!
# Generators write no line breaks

A generator that is read from files knows no line breaks, so there are none in the words that it
generates of a headword without any.
-/

namespace Inflection

open Text (unbroken_nil unbroken_append unbroken_cons)

/-! ## Affixes -/

namespace AffixExpression

theorem unbroken_juxtapose {a b : Text} (ha : a.Unbroken) (hb : b.Unbroken) :
    (juxtapose a b).Unbroken := by
  have hblank : Text.Unbroken [' '] := by decide
  exact (unbroken_append.2 ⟨ha, unbroken_append.2 ⟨hblank, hb⟩⟩).subset (Text.trim_subset _)

theorem subset_of_mem_split {sep t part : Text} (h : part ∈ Bracket.split sep t) : part ⊆ t := by
  have hwhole : sep.intercalate (Bracket.split sep t) = t := Bracket.intercalate_splitFrom t
  rw [← hwhole]
  exact Text.subset_intercalate h

/-- The affixes of an unbroken expression are unbroken. -/
theorem unbroken_of_mem_affixes {t a : Text} (ht : t.Unbroken) (ha : a ∈ (read t).affixes) :
    a.Unbroken := by
  fun_induction read t generalizing a with
  | case1 =>
    rw [affixes, List.mem_singleton] at ha
    rw [ha]
    exact unbroken_nil
  | case2 =>
    rw [affixes, List.mem_singleton] at ha
    rw [ha]
    exact unbroken_nil
  | case3 t e inner rest hclose htrim _ _ ihitem ihrest =>
    have he : Text.Unbroken ('(' :: e) := ht.subset (htrim ▸ Text.trim_subset t)
    rw [Bracket.eq_append_of_close? hclose, unbroken_cons, unbroken_append, unbroken_cons] at he
    obtain ⟨-, hinner, -, hrest⟩ := he
    rw [mem_affixes_group] at ha
    rcases ha with rfl | ⟨e', he', head, hhead, tail, htail, rfl⟩
    · exact unbroken_nil
    · obtain ⟨item, -, rfl⟩ := List.mem_map.1 he'
      exact unbroken_juxtapose
        (ihitem item (hinner.subset (subset_of_mem_split item.2)) hhead) (ihrest hrest htail)
  | case4 t c e htrim _ _ _ ih =>
    have he : Text.Unbroken (c :: e) := ht.subset (htrim ▸ Text.trim_subset t)
    have hwritten : Text.Unbroken (c :: e.takeWhile (· != ' ')) :=
      he.subset (List.cons_subset_cons c (List.takeWhile_sublist _).subset)
    have hrest : Text.Unbroken (e.dropWhile (· != ' ')) :=
      he.subset fun d hd => List.mem_cons_of_mem c ((List.dropWhile_sublist _).subset hd)
    rw [mem_affixes_token] at ha
    rcases ha with rfl | ⟨tail, htail, rfl⟩ | ha
    · exact unbroken_nil
    · exact unbroken_juxtapose hwritten.exchange (ih hrest htail)
    · exact ih hrest ha

end AffixExpression

/-! ## Paradigms -/

/-- No affix of a paradigm holds a line break. -/
structure Paradigm.Unbroken (p : Paradigm) : Prop where
  prefixes : ∀ a ∈ p.prefixes, a.Unbroken
  suffixes : ∀ a ∈ p.suffixes, a.Unbroken

theorem Paradigm.Unbroken.glosses {p : Paradigm} (hp : p.Unbroken) {word : Text}
    (hword : word.Unbroken) : ∀ gloss ∈ p.glosses word, gloss.Unbroken := by
  intro gloss hgloss
  rw [Paradigm.glosses, mem_distinct, List.mem_flatMap] at hgloss
  obtain ⟨before, hbefore, hgloss⟩ := hgloss
  obtain ⟨after, hafter, rfl⟩ := List.mem_map.1 hgloss
  have hblank : Text.Unbroken [' '] := by decide
  have hall : (before ++ [' '] ++ word ++ [' '] ++ after).Unbroken := by
    simp only [unbroken_append]
    exact ⟨⟨⟨⟨hp.prefixes _ hbefore, hblank⟩, hword⟩, hblank⟩, hp.suffixes _ hafter⟩
  refine hall.subset (List.Subset.trans (Text.trim_subset _) ?_)
  simp

/-- The two expressions on a line are parts of it. -/
theorem ParadigmLine.subset_of_read {line : Text} {l : ParadigmLine} (h : read line = some l) :
    l.left ⊆ line ∧ l.right ⊆ line := by
  unfold read at h
  obtain ⟨⟨left, rest⟩, hleft, h⟩ := Option.bind_eq_some_iff.1 h
  dsimp only at h
  split_ifs at h
  · cases h
  · obtain ⟨⟨pos, right⟩, hright, h⟩ := Option.bind_eq_some_iff.1 h
    cases h
    rw [Text.eq_append_of_cut? hleft, Text.eq_append_of_cut? hright]
    exact ⟨fun c hc => by simp [hc], fun c hc => by simp [hc]⟩

namespace Inventory

/-- No affix of an inventory holds a line break. -/
def Unbroken (i : Inventory) : Prop := ∀ pos p, i.paradigms.get? pos = some p → p.Unbroken

theorem Unbroken.addLine {i : Inventory} (h : i.Unbroken) {line : Text} (hline : line.Unbroken) :
    (i.addLine line).value.Unbroken := by
  rcases value_addLine i line with hvalue | ⟨l, hl, hvalue⟩
  · rwa [hvalue]
  rw [hvalue]
  intro pos p hp
  dsimp only at hp
  rw [Table.get?_put] at hp
  split at hp
  next =>
    cases hp
    have hchomp := hline.subset (Text.chomp_subset line)
    obtain ⟨hleft, hright⟩ := ParadigmLine.subset_of_read hl
    exact ⟨fun a => AffixExpression.unbroken_of_mem_affixes (hchomp.subset hleft),
      fun a => AffixExpression.unbroken_of_mem_affixes (hchomp.subset hright)⟩
  next => exact h pos p hp

theorem unbroken_ofLines {lines : List Text} (hlines : ∀ line ∈ lines, line.Unbroken) :
    (ofLines lines).value.Unbroken := by
  have hfold : ∀ i : Inventory, i.Unbroken →
      (lines.foldl (fun i line => (i.addLine line).value) i).Unbroken := by
    induction lines with
    | nil => exact fun i hi => hi
    | cons line lines ih =>
      obtain ⟨hline, hlines⟩ := List.forall_mem_cons.1 hlines
      exact fun i hi => ih hlines _ (hi.addLine hline)
  intro pos p hp
  refine hfold {} (fun _ _ h => by cases h) pos p ?_
  rw [← Noted.value_foldlM]
  exact hp

end Inventory

/-! ## Generation -/

/-- Neither the gloss nor the form of a word holds a line break. -/
structure GlossedWord.Unbroken (w : GlossedWord) : Prop where
  gloss : w.gloss.Unbroken
  form : w.form.Unbroken

namespace Rule

theorem Unbroken.leads {r : Rule} (hr : r.Unbroken) {w w' : GlossedWord} (h : r.Leads w w')
    (hw : w.Unbroken) : w'.Unbroken := by
  cases h with
  | pass => exact hw
  | rewrite hz hform =>
    obtain ⟨hgloss, houtputs⟩ := hr.apply hw.gloss hw.form hz
    exact ⟨hgloss, houtputs _ hform⟩

end Rule

namespace Generator

/-- No line break stands in the rules and in the affixes of a generator. -/
structure Unbroken (g : Generator) : Prop where
  rules : ∀ r ∈ g.rules, r.Unbroken
  paradigms : ∀ pos p, g.paradigms.get? pos = some p → p.Unbroken

variable {g : Generator}

theorem Unbroken.glosses (hg : g.Unbroken) {word : Text} (hword : word.Unbroken) (pos : Text) :
    ∀ gloss ∈ (g.glosses word pos).value, gloss.Unbroken := by
  unfold Generator.glosses
  split
  next p hp => exact (hg.paradigms pos p hp).glosses hword
  next => exact List.forall_mem_singleton.2 hword

/-- The inflections of an unbroken word are unbroken. -/
theorem Unbroken.inflections (hg : g.Unbroken) {word : Text} (hword : word.Unbroken) (pos : Text) :
    ∀ w ∈ (g.inflections word pos).value, w.Unbroken := by
  intro w hw
  obtain ⟨gloss, hgloss, hw⟩ := mem_inflections_iff.1 hw
  have hgloss := hg.glosses hword pos gloss hgloss
  obtain ⟨⟨v, hv, hrun⟩, -⟩ := mem_generate_iff_run.1 hw
  rw [List.mem_singleton.1 hv] at hrun
  exact hrun.keeps (fun r hr v v' hlead hv => (hg.rules r hr).leads hlead hv) ⟨hgloss, hgloss⟩

end Generator

/-! ## Files -/

/-- The lines of a file are unbroken. -/
theorem FileTree.unbroken_of_readLines {tree : FileTree} {path : Path} {lines : List Text}
    (h : tree.readLines path = .ok lines) : ∀ line ∈ lines, line.Unbroken := by
  unfold readLines at h
  split at h
  next => cases h
  next =>
    split at h
    next => cases h
    next =>
      cases h
      exact fun line hline => Text.unbroken_of_mem_lines hline

variable {tree : FileTree} {budget : Budget} {path : Text}

/-- Rules are read from a file if and only if it has lines, and from these. -/
theorem Rule.value_load_eq_ok_iff {rules : List Rule} :
    (load tree budget path).value = .ok rules ↔
      ∃ lines, tree.readLines (.ofText path) = .ok lines ∧
        (ofLines budget [] lines).value = rules := by
  rw [load, Noted.value_bind]
  split
  next e he => simp [he]
  next lines hlines => simp [hlines]

theorem Inventory.value_load_eq_ok_iff {i : Inventory} :
    (load tree path).value = .ok i ↔
      ∃ lines, tree.readLines (.ofText path) = .ok lines ∧ (ofLines lines).value = i := by
  rw [load, Noted.value_bind]
  split
  next e he => simp [he]
  next lines hlines => simp [hlines]

theorem Generator.value_load_eq_ok_iff {g : Generator} {paradigms : Option Text} :
    (load tree budget path paradigms).value = .ok g ↔
      ∃ rules, (Rule.load tree budget path).value = .ok rules ∧
        match paradigms with
        | none => g = { rules }
        | some path =>
          ∃ i, (Inventory.load tree path).value = .ok i ∧ g = withInventory rules i := by
  rw [load, Noted.value_bind]
  split
  next e he => simp [he]
  next rules hrules =>
    simp only [hrules, Except.ok.injEq]
    cases paradigms with
    | none => simp [eq_comm]
    | some path =>
      rw [Noted.value_bind]
      dsimp only
      split
      next e he => simp [he]
      next i hi => simp [hi, eq_comm]

/-- A generator that is read from files is unbroken. -/
theorem Generator.unbroken_of_load {g : Generator} {paradigms : Option Text}
    (h : (load tree budget path paradigms).value = .ok g) : g.Unbroken := by
  obtain ⟨rules, hrules, h⟩ := value_load_eq_ok_iff.1 h
  obtain ⟨lines, hlines, rfl⟩ := Rule.value_load_eq_ok_iff.1 hrules
  replace hrules : ∀ r ∈ (Rule.ofLines budget [] lines).value, r.Unbroken := fun r hr =>
    Rule.unbroken_of_mem_ofLines (FileTree.unbroken_of_readLines hlines) hr
  cases paradigms with
  | none =>
    obtain rfl := h
    exact ⟨hrules, fun _ _ h => by cases h⟩
  | some path =>
    obtain ⟨i, hi, rfl⟩ := h
    obtain ⟨lines, hlines, rfl⟩ := Inventory.value_load_eq_ok_iff.1 hi
    exact ⟨hrules, Inventory.unbroken_ofLines (FileTree.unbroken_of_readLines hlines)⟩

end Inflection
