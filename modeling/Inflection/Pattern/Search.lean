import Inflection.Collection
import Inflection.Gloss

/-! # Searches with a budget

Matching tries one way of reading a text after the other. Every visit to an element costs a step,
and a visit inside another one goes one level deeper; a search that exceeds either bound is given
up. What a successful path binds and records is written once the rest of it has succeeded. -/

namespace Inflection

/-- How many visits one attempt may make, and how deeply they may be nested. -/
structure Budget where
  maxSteps : Int := 100000
  maxDepth : Int := 200
deriving DecidableEq, Repr

/-- The bound at which an attempt was given up. -/
inductive Limit where
  | steps (bound : Int)
  | depth (bound : Int)
deriving DecidableEq, Repr

def Limit.message : Limit → String
  | .steps n => "gave up after " ++ toString n ++ " matcher steps"
  | .depth n => "gave up at matcher depth " ++ toString n

abbrev Bindings := Table Text Text

/-- What a search carries along. -/
structure Progress where
  steps : Nat := 0
  depth : Nat := 0
  bindings : Bindings := []
  /-- The markers for which blanks stood, from left to right. -/
  trace : List Char := []
deriving DecidableEq, Repr

namespace Progress

def bind (name taken : Text) (s : Progress) : Progress :=
  { s with bindings := s.bindings.put name taken }

/-- Puts a marker before those recorded so far. -/
def record (marker : Char) (s : Progress) : Progress := { s with trace := marker :: s.trace }

end Progress

/-- A search answers whether it succeeded, unless it stops short; `ε` is why it may. -/
abbrev SearchOr (ε : Type) := Progress → Except ε Bool × Progress

/-- A search that stops short only where it is given up. -/
abbrev Search := SearchOr Limit

namespace Search

variable {ε : Type}

def succeed : SearchOr ε := fun s => (.ok true, s)

def fail : SearchOr ε := fun s => (.ok false, s)

/-- Tries `b` if `a` fails. -/
def orElse (a b : SearchOr ε) : SearchOr ε := fun s =>
  match a s with
  | (.ok false, s) => b s
  | r => r

/-- Writes to the progress once `a` has succeeded. -/
def andThen (a : SearchOr ε) (write : Progress → Progress) : SearchOr ε := fun s =>
  match a s with
  | (.ok true, s) => (.ok true, write s)
  | r => r

/-- Tries `a` only under a condition. -/
def guarded (p : Bool) (a : SearchOr ε) : SearchOr ε := fun s => if p then a s else fail s

/-- Counts a visit and makes it, one level deeper than what surrounds it. A visit refused for its
depth has entered that level already. -/
def visitOr (giveUp : Limit → ε) (b : Budget) (a : SearchOr ε) : SearchOr ε := fun s =>
  let s := { s with steps := s.steps + 1 }
  if b.maxSteps < s.steps then (.error (giveUp (.steps b.maxSteps)), s)
  else
    let s := { s with depth := s.depth + 1 }
    if b.maxDepth < s.depth then (.error (giveUp (.depth b.maxDepth)), s)
    else
      let (r, s) := a s
      (r, { s with depth := s.depth - 1 })

/-- A visit that can only be given up. -/
def visit (b : Budget) (a : Search) : Search := visitOr id b a

/-- Tries `f` on each text in turn. -/
def anyOf (f : Text → SearchOr ε) : List Text → SearchOr ε
  | [], s => fail s
  | a :: as, s => orElse (f a) (anyOf f as) s

/-- Takes nothing, then one character, then two, and so on to the end of the text. -/
def spread (next : Text → SearchOr ε) (write : Text → Progress → Progress) : Text → SearchOr ε
  | [], s => andThen (next []) (write []) s
  | c :: t, s =>
    orElse (andThen (next (c :: t)) (write [])) (spread next (fun taken => write (c :: taken)) t) s

end Search

end Inflection
