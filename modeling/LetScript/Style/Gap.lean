import LetScript.Token

/-! Gaps: what lies between two places of a list of tokens. The indices of a
gap are those of the tokens on its two sides. -/
namespace LetScript

structure Gap where
  start : Nat
  stop : Nat
deriving DecidableEq, Repr

def Gap.le (g h : Gap) : Bool := g.start < h.start || g.start = h.start && g.stop ≤ h.stop

def Gap.inside (g : Gap) (ts : List Token) : List Token := (ts.take g.stop).drop (g.start + 1)

def Gap.fill (g : Gap) (new ts : List Token) : List Token :=
  ts.take (g.start + 1) ++ new ++ ts.drop g.stop

/-- Fill gaps from the last to the first, so that the indices of those still to
be filled stay right. What goes into a gap can depend on what was there. -/
def fillGaps (new : Gap → List Token → List Token) (gaps : List Gap) (ts : List Token) :
    List Token :=
  (gaps.mergeSort Gap.le).foldr (fun g ts => g.fill (new g ts) ts) ts

def nextSignificant? (ts : List Token) (i : Nat) : Option Nat :=
  ((ts.drop (i + 1)).findIdx? fun t => !t.isTrivia).map (i + 1 + ·)

def prevSignificant? (ts : List Token) (i : Nat) : Option Nat :=
  ((ts.take i).reverse.findIdx? fun t => !t.isTrivia).map (i - 1 - ·)

/-- How far the parenthesis lies that closes the `depth` open ones and those
still to be opened. -/
def closeOffset? : Nat → List Token → Option Nat
  | _, [] => none
  | depth, t :: ts =>
    if t.kind = .openParen then (closeOffset? (depth + 1) ts).map (· + 1)
    else if t.kind = .closeParen then
      match depth with
      | 0 => none
      | 1 => some 0
      | d + 2 => (closeOffset? (d + 1) ts).map (· + 1)
    else (closeOffset? depth ts).map (· + 1)

def closingParen? (ts : List Token) (i : Nat) : Option Nat :=
  (closeOffset? 0 (ts.drop i)).map (i + ·)

def kindIs (ts : List Token) (i : Nat) (k : Kind) : Bool := ts[i]?.any fun t => t.kind = k

def placeAt (ts : List Token) (i : Nat) : Position :=
  match ts[i]? with
  | some t => t.position
  | none => .start

def Gap.breaks (g : Gap) (ts : List Token) : Nat :=
  (g.inside ts).countP fun t => t.kind = .newline

end LetScript
