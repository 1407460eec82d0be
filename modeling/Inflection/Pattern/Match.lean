import Inflection.Pattern.Basic
import Inflection.Pattern.Search

/-! # Matching a pattern against a text

A literal marker also takes a blank, and the trace records for which marker the blank stood. The
opening half of an infix slot leaves the blank in place, so that the closing half can take it too.
Literals, alternatives and the end of a pattern skip over markers that are in their way. -/

namespace Inflection

namespace Search

/-- The end of a pattern: nothing is left but markers. -/
def finish (b : Budget) : Text → Search
  | [], s => visit b succeed s
  | c :: t, s => visit b (guarded (isMarker c) (finish b t)) s

/-- A character: as a marker for which a blank stands, as itself, or past a marker in its way. -/
def literal (b : Budget) (next : Text → Search) (m : Char) : Text → Search
  | [], s => visit b fail s
  | c :: t, s =>
    visit b
      (orElse
        (guarded (c = blank && isMarker m)
          (andThen (next (if m = '<' then c :: t else t)) (Progress.record m)))
        (orElse
          (guarded (c = m) (next t))
          (guarded (isMarker c) (literal b next m t)))) s

/-- Any run of characters, shortest first. -/
def wildcard (b : Budget) (next : Text → Search) (name t : Text) : Search :=
  visit b (spread next (Progress.bind name) t)

/-- One of the alternatives that can be taken, in order, or past a marker in the way; `otherwise` if
none does. No alternative is taken at the end of the text, not even an empty one. -/
def choice (b : Budget) (canTake : Text → Text → Bool) (next : Text → Search) (name : Text)
    (alternatives : List Text) (otherwise : Text → Search) : Text → Search
  | [], s => visit b (otherwise []) s
  | c :: t, s =>
    visit b
      (orElse
        (anyOf (fun a =>
          guarded (canTake a (c :: t))
            (andThen (next ((c :: t).drop a.length)) (Progress.bind name a))) alternatives)
        (orElse
          (guarded (isMarker c) (choice b canTake next name alternatives otherwise t))
          (otherwise (c :: t)))) s

end Search

open Search

/-- The search for one element, with the search for what follows it. -/
def Element.search (b : Budget) (next : Text → Search) : Element → Text → Search
  | .literal c, t, s => Search.literal b next c t s
  | .wildcard n, t, s => Search.wildcard b next n t s
  | .choice n as, t, s => Search.choice b List.isPrefixOf next n as (fun _ => fail) t s
  | .optional n as, t, s =>
    Search.choice b List.isPrefixOf next n as (fun t => andThen (next t) (Progress.bind n [])) t s

namespace Pattern

/-- The search for a whole pattern at the start of a text. -/
def search (b : Budget) : Pattern → Text → Search
  | [], t, s => finish b t s
  | e :: p, t, s => e.search b (search b p) t s

/-- The search at a place past the end of a text, where only an optional element can take
something, namely nothing. -/
def searchBeyond (b : Budget) : Pattern → Search
  | [], s => visit b succeed s
  | .optional n _ :: p, s => visit b (andThen (searchBeyond b p) (Progress.bind n [])) s
  | _ :: _, s => visit b fail s

/-- The search for a pattern in a text from position `start` on. -/
def searchFrom (b : Budget) (p : Pattern) (t : Text) (start : Nat) : Search :=
  if start ≤ t.length then p.search b (t.drop start) else p.searchBeyond b

end Pattern

end Inflection
