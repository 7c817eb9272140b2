/-! Places and lines of a source text. Rows count from one, columns from zero and in characters. A
line feed opens a new row, and a carriage return takes no column. A line ends at a line feed,
together with a carriage return right before it, and a text that ends with a line feed has no
further line. -/
namespace LetScript

structure Position where
  row : Nat
  column : Nat
deriving DecidableEq, Repr

namespace Position

def start : Position := ⟨1, 0⟩

def step (p : Position) (c : Char) : Position :=
  if c = '\n' then ⟨p.row + 1, 0⟩
  else if c = '\r' then p
  else ⟨p.row, p.column + 1⟩

def advance (p : Position) (cs : List Char) : Position := cs.foldl step p

@[simp] theorem advance_nil (p : Position) : p.advance [] = p := rfl

@[simp] theorem advance_cons (p : Position) (c : Char) (cs : List Char) :
    p.advance (c :: cs) = (p.step c).advance cs := rfl

@[simp] theorem advance_append (p : Position) (cs ds : List Char) :
    p.advance (cs ++ ds) = (p.advance cs).advance ds := by
  simp [advance, List.foldl_append]

def order (p q : Position) : Ordering :=
  (compare p.row q.row).then (compare p.column q.column)

instance : LT Position where
  lt p q := p.row < q.row ∨ p.row = q.row ∧ p.column < q.column

theorem lt_iff (p q : Position) :
    p < q ↔ p.row < q.row ∨ p.row = q.row ∧ p.column < q.column := Iff.rfl

instance (p q : Position) : Decidable (p < q) := decidable_of_iff' _ (lt_iff p q)

def display (p : Position) : String := toString p.row ++ ":" ++ toString p.column

end Position

/-- The lines of the rest of a text, with the characters of the line so far in
`seen`, the last one first. -/
def linesFrom (seen : List Char) : List Char → List (List Char)
  | [] => if seen = [] then [] else [seen.reverse]
  | c :: cs =>
    if c = '\n' then
      match seen with
      | '\r' :: more => more.reverse :: linesFrom [] cs
      | _ => seen.reverse :: linesFrom [] cs
    else linesFrom (c :: seen) cs

def textLines (source : String) : List (List Char) := linesFrom [] source.toList

def lineText? (source : String) : Nat → Option (List Char)
  | 0 => none
  | row + 1 => (textLines source)[row]?

end LetScript
