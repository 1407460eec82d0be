import Inflection.Rule.Basic

/-! # Three languages at work

Finnish keeps the stem that a case is built on in braces after the lemma, Arabic sets vowels between
the consonants of a root, and Ryka copies the end of a stem into an infix. -/

namespace Inflection

namespace Showcase

def rule (groups : Groups) (lhs rhs : String) : PatternRule :=
  (PatternRule.read groups [] lhs.toList [rhs.toList] {}).value

/-- The first form that a rule makes of a gloss. -/
def firstForm (r : PatternRule) (gloss : String) : String :=
  match (r.apply (.ofGloss gloss.toList)).value with
  | some ⟨_, _, form :: _⟩ => String.ofList form
  | _ => ""

def finnishWord : String :=
  "joki\x7bgensg=joen\x7d\x7bparsg=jokea\x7d\x7bparpl=jokia\x7d\x7bvh=a\x7d"

def finnishGenitive : PatternRule :=
  rule [] "[*]\x7bgensg=[genstem]n\x7d[*]|GEN" "[genstem]|n"

def finnishInessive : PatternRule :=
  rule [] "[*]\x7bgensg=[genstem]n\x7d[*]\x7bvh=[A]\x7d|INE" "[genstem]|ss[A]"

def arabicWord : String := "kataba\x7bth=u\x7d&IPF&1SG"

def arabicImperfect : PatternRule :=
  rule [] "[C1]a[C2]a[C3]a\x7bth=[th]\x7d&IPF&1SG" "ja[C1][C2][th][C3]u"

def rykaWord : String := "hethel<>PC"

def rykaGroups : Groups := [
  ("#C".toList, ["kh", "th", "ph", "sh", "h", "k", "t", "p", "r", "q", "g", "d", "b", "l"].map
    String.toList),
  ("#V".toList, ["a", "e", "o", "u", "y", "n"].map String.toList)]

def rykaPlural : PatternRule := rule rykaGroups "[stem][#C][#V][#C]<>PC" "[stem][1][2]<[1][2]>[3]"

def lines : List String := [
  "FINNISH: " ++ finnishWord,
  "  |GEN -> " ++ firstForm finnishGenitive (finnishWord ++ "|GEN"),
  "  |INE -> " ++ firstForm finnishInessive (finnishWord ++ "|INE"),
  "ARABIC: " ++ arabicWord ++ " -> " ++ firstForm arabicImperfect arabicWord,
  "RYKA: " ++ rykaWord ++ " -> " ++ firstForm rykaPlural rykaWord]

end Showcase

end Inflection
