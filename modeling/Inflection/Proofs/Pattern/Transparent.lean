import Inflection.Proofs.Pattern.Accepted

/-!
# Markers that a pattern has not asked for

A marker more in a text does not keep a pattern from accepting it: an element passes over a marker
before what it takes, a wildcard takes one in the middle of its run, and one that comes later is
left to the elements after it.  Only an alternative of two characters or more can be torn apart, so
`Pattern.searchFrom_insert_marker` asks that there are none.
-/

namespace Inflection

/-- A text that is another one, or has one character `m` more. -/
inductive Gains (m : Char) : Text → Text → Prop where
  | same {t : Text} : Gains m t t
  | more {u v : Text} : Gains m (u ++ v) (u ++ m :: v)

variable {m : Char}

theorem Gains.cons {t t' : Text} (h : Gains m t t') (c : Char) : Gains m (c :: t) (c :: t') := by
  cases h with
  | same => exact .same
  | @more u v => exact .more (u := c :: u)

theorem Gains.isMarker {t t' : Text} (h : Gains m t t') (hm : isMarker m)
    (ht : ∀ c ∈ t, isMarker c) : ∀ c ∈ t', isMarker c := by
  cases h with
  | same => exact ht
  | more =>
    rw [List.forall_mem_append] at ht ⊢
    exact ⟨ht.1, List.forall_mem_cons.2 ⟨hm, ht.2⟩⟩

namespace Element

/-- No alternative of an element has two characters or more. -/
def IsNarrow (e : Element) : Prop := ∀ as ∈ e.alternatives?, ∀ a ∈ as.2, a.length ≤ 1

instance (e : Element) : Decidable e.IsNarrow :=
  inferInstanceAs (Decidable (∀ as ∈ e.alternatives?, ∀ a ∈ as.2, a.length ≤ 1))

variable {e : Element} {t u : Text} {ms : List Move}

theorem passesMarkers_of_alternatives? {entry : Text × List Text}
    (he : e.alternatives? = some entry) : e.passesMarkers := by
  cases e with
  | wildcard => cases he
  | literal | choice | «optional» => rfl

/-- A narrow element takes a text with a marker more, and leaves what it left before or the same
with the marker in it. -/
theorem Takes.insert (h : e.Takes t ms u) (he : e.IsNarrow) (hm : isMarker m) {before after : Text}
    (ht : t = before ++ after) :
    ∃ ms' u', e.Takes (before ++ m :: after) ms' u' ∧ Gains m u u' := by
  induction h generalizing before with
  | @stand c t hc =>
    cases before with
    | nil =>
      subst ht
      exact ⟨_, _, .skip rfl hm (.stand hc), .same⟩
    | cons d before =>
      obtain ⟨rfl, rfl⟩ := List.cons.inj ht
      refine ⟨_, _, .stand hc, ?_⟩
      split_ifs
      · exact Gains.more.cons _
      · exact .more
  | @direct c t =>
    cases before with
    | nil =>
      subst ht
      exact ⟨_, _, .skip rfl hm .direct, .same⟩
    | cons d before =>
      obtain ⟨rfl, rfl⟩ := List.cons.inj ht
      exact ⟨_, _, .direct, .more⟩
  | @run n taken t u h =>
    rcases List.append_eq_append_iff.1 (h.symm.trans ht) with ⟨rest, rfl, rfl⟩ | ⟨rest, rfl, rfl⟩
    · -- The marker comes after the run.
      exact ⟨_, _, .run (List.append_assoc ..), .more⟩
    · have hrun : before ++ m :: (rest ++ u) = (before ++ m :: rest) ++ u := by simp
      exact ⟨_, _, .run hrun, .same⟩
  | @alternative e n as i a t u hname ha hne h =>
    cases before with
    | nil =>
      subst ht
      exact ⟨_, _, .skip (passesMarkers_of_alternatives? hname) hm (.alternative hname ha hne h),
        .same⟩
    | cons d before =>
      have hlength : a.length ≤ 1 := he _ hname a (List.mem_of_getElem? ha)
      have htake (v : Text) (hv : d :: (before ++ m :: after) = a ++ v) :
          e.Takes (d :: before ++ m :: after) [.alternative i n a] v :=
        .alternative hname ha (List.cons_ne_nil _ _) hv
      rcases a with _ | ⟨c, _ | ⟨c', a⟩⟩
      · obtain rfl : u = d :: before ++ after := h.symm.trans ht
        exact ⟨_, _, htake _ rfl, .more⟩
      · obtain ⟨rfl, rfl⟩ := List.cons.inj (h.symm.trans ht)
        exact ⟨_, _, htake _ rfl, .more⟩
      · simp at hlength
  | nothing =>
    subst ht
    exact ⟨_, _, .nothing, .more⟩
  | @skip e c t u ms hpass hc h ih =>
    cases before with
    | nil =>
      subst ht
      exact ⟨_, _, .skip hpass hm (.skip hpass hc h), .same⟩
    | cons d before =>
      obtain ⟨rfl, rfl⟩ := List.cons.inj ht
      obtain ⟨ms', u', htakes, hgains⟩ := ih he rfl
      exact ⟨_, u', .skip hpass hc htakes, hgains⟩

end Element

namespace Pattern

/-- No alternative in a pattern has two characters or more. -/
def IsNarrow (p : Pattern) : Prop := ∀ e ∈ p, e.IsNarrow

instance (p : Pattern) : Decidable p.IsNarrow := inferInstanceAs (Decidable (∀ e ∈ p, e.IsNarrow))

variable {p : Pattern} {t t' u : Text} {ms : List Move}

theorem Takes.gains (h : p.Takes t ms u) (hp : p.IsNarrow) (hm : isMarker m) (ht : Gains m t t') :
    ∃ ms' u', p.Takes t' ms' u' ∧ Gains m u u' := by
  induction h generalizing t' with
  | nil => exact ⟨[], t', .nil, ht⟩
  | @cons e p t u v ms₁ ms₂ h h' ih =>
    obtain ⟨he, hp⟩ := List.forall_mem_cons.1 hp
    obtain ⟨ms₁', u', htakes, hu⟩ : ∃ ms₁' u', e.Takes t' ms₁' u' ∧ Gains m u u' := by
      cases ht with
      | same => exact ⟨ms₁, u, h, .same⟩
      | more => exact h.insert he hm rfl
    obtain ⟨ms₂', v', htakes', hv⟩ := ih hp hu
    exact ⟨_, v', .cons htakes htakes', hv⟩

/-- A text with a derivation has one with a marker more in it. -/
theorem Derives.gains (h : p.Derives t ms) (hp : p.IsNarrow) (hm : isMarker m)
    (ht : Gains m t t') : ∃ ms', p.Derives t' ms' := by
  obtain ⟨rest, h, hrest⟩ := h
  obtain ⟨ms', rest', htakes, hgains⟩ := h.gains hp hm ht
  exact ⟨ms', rest', htakes, hgains.isMarker hm hrest⟩

/-- What follows a position gains a marker that is inserted there or later. -/
theorem gains_drop {start place : Nat} (hstart : start ≤ place) (hplace : place ≤ t.length) :
    Gains m (t.drop start) ((t.take place ++ m :: t.drop place).drop start) := by
  have hlength : start ≤ (t.take place).length := by
    rw [List.length_take]
    omega
  have hdrop : t.drop start = (t.take place).drop start ++ t.drop place := by
    rw [← List.drop_append_of_le_length hlength, List.take_append_drop]
  rw [List.drop_append_of_le_length hlength, hdrop]
  exact .more

/-- **Markers are transparent.**  If no alternative of a pattern has two characters or more, and the
search from some position of a text succeeds, then it succeeds too if a marker is inserted there or
anywhere after it: within every budget unless it is given up, and there are budgets within which it
is not. -/
theorem searchFrom_insert_marker (hp : p.IsNarrow) {start place : Nat} (hstart : start ≤ place)
    (hplace : place ≤ t.length) (hm : isMarker m) {b : Budget} {s : Progress}
    (hsearch : (p.searchFrom b t start s).1 = .ok true) :
    let t' := t.take place ++ m :: t.drop place
    (∀ b' s', (∀ limit, (p.searchFrom b' t' start s').1 ≠ .error limit) →
      (p.searchFrom b' t' start s').1 = .ok true) ∧
    p.Accepts (t'.drop start) := by
  intro t'
  have hb : ∀ limit, (p.searchFrom b t start s).1 ≠ .error limit := by
    rw [hsearch]
    rintro limit ⟨⟩
  obtain ⟨ms, hms⟩ := (searchFrom_eq_first b p t (hstart.trans hplace) s hb).1.1 hsearch
  obtain ⟨ms', hms'⟩ := hms.gains hp hm (gains_drop hstart hplace)
  have hstart' : start ≤ t'.length := by
    simp only [t', List.length_append, List.length_take, List.length_cons, List.length_drop]
    omega
  exact ⟨fun b' s' hb' => (searchFrom_eq_first b' p t' hstart' s' hb').1.2 ⟨ms', hms'⟩,
    accepts_iff.2 ⟨ms', hms'⟩⟩

/-- A marker before the blank that the two halves of an infix slot share. -/
theorem searchFrom_insert_marker_example :
    let p : Pattern :=
      [.wildcard ['x'], .literal '<', .literal '>', .optional ['1'] [['l'], ['r']], .literal 'e']
    let t : Text := "-ka re".toList
    p.IsNarrow ∧ 1 ≤ 3 ∧ 3 ≤ t.length ∧ isMarker '&' ∧ (p.searchFrom {} t 1 {}).1 = .ok true ∧
      (p.searchFrom {} "-ka& re".toList 1 {}).1 = .ok true ∧ p.Accepts "ka& re".toList := by
  intro p t
  have hp : p.IsNarrow := by decide
  have hstart : 1 ≤ 3 := by decide
  have hplace : 3 ≤ t.length := by decide
  have hm : isMarker '&' := rfl
  have hsearch : (p.searchFrom {} t 1 {}).1 = .ok true := rfl
  have hb : ∀ limit, (p.searchFrom {} "-ka& re".toList 1 {}).1 ≠ .error limit := by
    rintro limit ⟨⟩
  obtain ⟨hfound, haccepts⟩ := searchFrom_insert_marker hp hstart hplace hm hsearch
  exact ⟨hp, hstart, hplace, hm, hsearch, hfound {} {} hb, haccepts⟩

/-- An alternative of two characters is torn apart by a marker between them. -/
example :
    let p : Pattern := [.choice ['1'] [['a', 'b']]]
    (p.searchFrom {} ['a', 'b'] 0 {}).1 = .ok true ∧
      (p.searchFrom {} ['a', '|', 'b'] 0 {}).1 = .ok false :=
  ⟨rfl, rfl⟩

end Pattern

end Inflection
