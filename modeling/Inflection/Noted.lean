import Inflection.Event

/-! # Computations that take notes

A value together with the events noted on the way to it. Events only accumulate: no later step can
take back or reorder what an earlier one noted. -/

namespace Inflection

structure Noted (α : Type) where
  value : α
  events : List Event := []
deriving Repr

namespace Noted

variable {α β : Type}

instance : Monad Noted where
  pure a := ⟨a, []⟩
  map f x := ⟨f x.value, x.events⟩
  bind x f :=
    let y := f x.value
    ⟨y.value, x.events ++ y.events⟩

@[simp] theorem value_pure (a : α) : (pure a : Noted α).value = a := rfl
@[simp] theorem events_pure (a : α) : (pure a : Noted α).events = [] := rfl
@[simp] theorem value_bind (x : Noted α) (f : α → Noted β) :
    (x >>= f).value = (f x.value).value := rfl
@[simp] theorem events_bind (x : Noted α) (f : α → Noted β) :
    (x >>= f).events = x.events ++ (f x.value).events := rfl
@[simp] theorem value_map (f : α → β) (x : Noted α) : (f <$> x).value = f x.value := rfl
@[simp] theorem events_map (f : α → β) (x : Noted α) : (f <$> x).events = x.events := rfl

@[ext] theorem ext {x y : Noted α} (hv : x.value = y.value) (he : x.events = y.events) : x = y := by
  cases x; cases y; simp_all

instance : LawfulMonad Noted := LawfulMonad.mk' Noted
  (fun _ => rfl)
  (fun _ _ => rfl)
  (fun _ _ _ => ext rfl (List.append_assoc ..))
  (fun _ _ => rfl)
  (fun _ _ => rfl)
  (fun _ _ => rfl)
  (fun _ _ => ext rfl (List.append_nil _))

/-- Computes something for each member of a list, in order. -/
def each (f : α → Noted β) (l : List α) : Noted (List β) :=
  let xs := l.map f
  ⟨xs.map value, xs.flatMap events⟩

@[simp] theorem value_each (f : α → Noted β) (l : List α) :
    (each f l).value = l.map fun a => (f a).value := List.map_map
@[simp] theorem events_each (f : α → Noted β) (l : List α) :
    (each f l).events = l.flatMap fun a => (f a).events := List.flatMap_map ..

theorem value_foldlM (f : β → α → Noted β) (b : β) (l : List α) :
    (l.foldlM f b).value = l.foldl (fun b a => (f b a).value) b := by
  induction l generalizing b with
  | nil => rfl
  | cons a l ih => exact ih (f b a).value

/-- Notes one event. -/
def note (e : Event) : Noted Unit := ⟨(), [e]⟩

@[simp] theorem events_note (e : Event) : (note e).events = [e] := rfl

def report (problem : Problem) (source : Text := []) : Noted Unit :=
  note (.reported ⟨problem, source⟩)

@[simp] theorem events_report (p : Problem) (source : Text) :
    (report p source).events = [.reported ⟨p, source⟩] := rfl

/-- The reports among the events. -/
def reports (x : Noted α) : List Report := x.events.filterMap Event.report?

@[simp] theorem reports_pure (a : α) : (pure a : Noted α).reports = [] := rfl
@[simp] theorem reports_bind (x : Noted α) (f : α → Noted β) :
    (x >>= f).reports = x.reports ++ (f x.value).reports := List.filterMap_append
@[simp] theorem reports_map (f : α → β) (x : Noted α) : (f <$> x).reports = x.reports := rfl
@[simp] theorem reports_each (f : α → Noted β) (l : List α) :
    (each f l).reports = l.flatMap fun a => (f a).reports := by
  rw [reports, events_each, List.filterMap_flatMap]
  rfl

@[simp] theorem reports_report (p : Problem) (source : Text) :
    (report p source).reports = [⟨p, source⟩] := rfl

theorem reports_forM (f : α → Noted Unit) (l : List α) :
    (l.forM f).reports = l.flatMap fun a => (f a).reports := by
  induction l with
  | nil => rfl
  | cons a l ih =>
    rw [List.flatMap_cons, ← ih]
    exact reports_bind ..

/-- What the events leave in a log. -/
def records (x : Noted α) : List Record := x.events.flatMap Event.records

end Noted

end Inflection
