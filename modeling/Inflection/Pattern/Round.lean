import Inflection.Pattern.Match

/-! # Matching from a negative position

A negative position counts from the end of the text. The text is read from there to its end, and
then once more from its start. Alternatives do not reach over the end; a wildcard that does is bound
to what stands between its two positions in the text itself.

A position may also lie before the first character. An alternative is looked for at the start of the
text then, a wildcard takes nothing, and whatever asks for a character stops the search. -/

namespace Inflection

namespace Search

/-- How much of what is left to read comes before the end of the text is reached for the first
time. -/
def ahead (whole rest : Text) : Nat := rest.length - whole.length

/-- Whether an alternative stands at the start of what is left, and does not reach over the end. -/
def canTakeInRound (whole a rest : Text) : Bool :=
  a.isPrefixOf rest && (ahead whole rest = 0 || a.length ≤ ahead whole rest)

/-- What a wildcard is bound to that takes a run from the start of what is left. -/
def boundInRound (whole rest run : Text) : Text :=
  let n := ahead whole rest
  if n = 0 ∨ run.length < n then run
  else (whole.take (run.length - n)).drop (whole.length - n)

/-- Why a search from any position stops short. -/
inductive Halt where
  | limit (limit : Limit)
  | outside (error : Text.Outside)
deriving DecidableEq, Repr

/-- A search among those that may also leave the text. -/
def widen (a : Search) : SearchOr Halt := fun s =>
  match a s with
  | (.error limit, s) => (.error (.limit limit), s)
  | (.ok r, s) => (.ok r, s)

/-- Asks for a character before the first one. -/
def leave (distance : Nat) : SearchOr Halt := fun s => (.error (.outside (.ofDistance distance)), s)

end Search

open Search

/-- The search for one element in a text that is read from a negative position on. -/
def Element.searchRound (b : Budget) (whole : Text) (next : Text → Search) :
    Element → Text → Search
  | .literal c, t => Search.literal b next c t
  | .wildcard n, t =>
    visit b (spread next (fun run => Progress.bind n (boundInRound whole t run)) t)
  | .choice n as, t => Search.choice b (canTakeInRound whole) next n as (fun _ => fail) t
  | .optional n as, t =>
    Search.choice b (canTakeInRound whole) next n as
      (fun t => andThen (next t) (Progress.bind n [])) t

namespace Pattern

/-- The search for a whole pattern in what is left of a text that is read from a negative position
on. -/
def searchRound (b : Budget) (whole : Text) : Pattern → Text → Search
  | [], t => finish b t
  | e :: p, t => e.searchRound b whole (searchRound b whole p) t

/-- The search at a place as many characters as `gap` says before the first one. It never fails: an
element that finds nothing there asks for a character. -/
def searchBefore (b : Budget) (whole : Text) : Pattern → (gap : Nat) → SearchOr Halt
  | [], gap => visitOr .limit b (leave (whole.length + gap))
  | .literal _ :: _, gap => visitOr .limit b (leave (whole.length + gap))
  | .wildcard n :: p, gap =>
    visitOr .limit b (andThen (searchBefore b whole p gap) (Progress.bind n []))
  | .choice n as :: p, gap | .optional n as :: p, gap =>
    let next (taken : Nat) : SearchOr Halt :=
      if taken < gap then searchBefore b whole p (gap - taken)
      else widen (searchRound b whole p (whole.drop (taken - gap) ++ whole))
    visitOr .limit b
      (orElse
        (anyOf (fun a =>
          guarded (a.isPrefixOf whole) (andThen (next a.length) (Progress.bind n a))) as)
        (leave (whole.length + gap)))

/-- The search for a pattern in a text from any position on. -/
def searchAt (b : Budget) (p : Pattern) (t : Text) : (start : Int) → SearchOr Halt
  | .ofNat n => widen (p.searchFrom b t n)
  | .negSucc n =>
    if n < t.length then widen (p.searchRound b t (t.drop (t.length - (n + 1)) ++ t))
    else p.searchBefore b t (n + 1 - t.length)

end Pattern

end Inflection
