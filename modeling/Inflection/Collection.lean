/-! # Collections

A table has values under keys, in order of arrival. A collection whose order does not matter is kept
in order and without repetitions. -/

namespace Inflection

/-! ## Tables -/

abbrev Table (κ β : Type) := List (κ × β)

namespace Table

variable {κ β : Type} [DecidableEq κ]

def get? (k : κ) : Table κ β → Option β
  | [] => none
  | (k', v) :: t => if k' = k then some v else get? k t

/-- A key that is present keeps its place and takes the new value; a new one goes to the end. -/
def put (k : κ) (v : β) : Table κ β → Table κ β
  | [] => [(k, v)]
  | (k', v') :: t => if k' = k then (k, v) :: t else (k', v') :: put k v t

def keys (t : Table κ β) : List κ := t.map Prod.fst

theorem get?_put (k k' : κ) (v : β) (t : Table κ β) :
    get? k' (put k v t) = if k = k' then some v else get? k' t := by
  induction t with
  | nil => rfl
  | cons e t ih =>
    obtain ⟨k₁, v₁⟩ := e
    grind [put, get?]

theorem mem_keys_put {k k' : κ} {v : β} {t : Table κ β} :
    k' ∈ keys (put k v t) ↔ k' = k ∨ k' ∈ keys t := by
  induction t with
  | nil => simp [put, keys]
  | cons e t ih =>
    obtain ⟨k₁, v₁⟩ := e
    grind [put, keys]

/-- What is in a table keeps its place. -/
theorem keys_prefix_put (k : κ) (v : β) (t : Table κ β) : keys t <+: keys (put k v t) := by
  induction t with
  | nil => exact List.nil_prefix
  | cons e t ih =>
    obtain ⟨k', v'⟩ := e
    rw [put]
    split
    next h =>
      subst h
      exact List.prefix_refl _
    next => exact List.cons_prefix_cons.2 ⟨rfl, ih⟩

theorem get?_isSome {k : κ} {t : Table κ β} : (get? k t).isSome ↔ k ∈ keys t := by
  induction t with
  | nil => simp [get?, keys]
  | cons e t ih =>
    obtain ⟨k₁, v₁⟩ := e
    grind [get?, keys]

end Table

/-! ## Members, each once -/

section

variable {α : Type} [DecidableEq α]

/-- Puts a member before others, unless it is the first of them. -/
def keepFirst (a : α) (l : List α) : List α := if l.head? = some a then l else a :: l

/-- The members of a list, each once, in an order in which equal ones are neighbours. -/
def distinct (isBefore : α → α → Bool) (l : List α) : List α :=
  (l.mergeSort isBefore).foldr keepFirst []

@[simp] theorem mem_keepFirst {a b : α} {l : List α} : b ∈ keepFirst a l ↔ b = a ∨ b ∈ l := by
  unfold keepFirst
  split
  next h => exact ⟨.inr, (·.elim (fun e => e ▸ List.mem_of_mem_head? h) id)⟩
  next => exact List.mem_cons

theorem mem_foldr_keepFirst {b : α} {l : List α} : b ∈ l.foldr keepFirst [] ↔ b ∈ l := by
  induction l with
  | nil => rfl
  | cons a l ih => rw [List.foldr_cons, mem_keepFirst, ih, List.mem_cons]

@[simp] theorem mem_distinct {isBefore : α → α → Bool} {l : List α} {b : α} :
    b ∈ distinct isBefore l ↔ b ∈ l :=
  mem_foldr_keepFirst.trans List.mem_mergeSort

end

end Inflection
