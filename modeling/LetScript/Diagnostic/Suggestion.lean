import LetScript.Diagnostic
import LetScript.Style.Rule

/-! Suggestions for misspelled names, by the number of single-character edits
between two words. -/
namespace LetScript

/-- The rest of a row in the table of distances, for the character `c`. The
distance to the left is `left`, and `above` is the row above from one place
further to the left on. -/
def distancesFrom (c : Char) (left : Nat) : List Char → List Nat → List Nat
  | b :: bs, diagonal :: up :: above =>
    let here := min (min (up + 1) (left + 1)) (diagonal + if c = b then 0 else 1)
    here :: distancesFrom c here bs (up :: above)
  | _, _ => []

def nextDistances (word : List Char) (above : List Nat) (c : Char) : List Nat :=
  let first := above.headD 0 + 1
  first :: distancesFrom c first word above

/-- The least number of insertions, deletions and substitutions of single
characters that turn one word into the other. -/
def editDistance (a b : List Char) : Nat :=
  (a.foldl (nextDistances b) (List.range (b.length + 1))).getLastD 0

/-- How far off a suggestion can be, by the number of bytes of a name. -/
def tolerance (bytes : Nat) : Nat :=
  if bytes ≤ 2 then 1 else if bytes ≤ 5 then 2 else 3

def lengthGap (a b : String) : Nat :=
  max (a.utf8ByteSize - b.utf8ByteSize) (b.utf8ByteSize - a.utf8ByteSize)

def nearer (name : String) (best : Option (String × Nat)) (candidate : String) :
    Option (String × Nat) :=
  let most := tolerance name.utf8ByteSize
  if most < lengthGap name candidate then best
  else
    let d := editDistance name.toList candidate.toList
    if d ≤ most ∧ best.all (fun b => d < b.2) then some (candidate, d) else best

/-- The nearest candidate that is near enough, the earliest of equals. -/
def nearest? (name : String) (candidates : List String) : Option String :=
  (candidates.foldl (nearer name) none).map Prod.fst

def suggest? (name : String) (candidates : List String) : Option String :=
  (nearest? name candidates).map fun c => "did you mean `" ++ c ++ "`?"

def warnUnknownNames (names : List String) : List Diagnostic :=
  let known := (StyleRule.all 1).map StyleRule.name
  (names.filter fun n => !known.contains n).map fun n =>
    let d := (Diagnostic.warning ("unknown rule `" ++ n ++ "`")).withCode "E0303"
    match suggest? n known with
    | some help => d.withHelp help
    | none => d.withNote "the rule is ignored"

end LetScript
