import LetScript.Program.Error

/-! Statement lines. Outside braces a semicolon ends a line, and so does the
brace that closes a conditional, unless `else` follows. -/
namespace LetScript

/-- The tokens of one statement, at least one. -/
structure Line where
  first : Token
  rest : List Token
deriving DecidableEq, Repr

def Line.tokens (l : Line) : List Token := l.first :: l.rest

/-- Complete lines in order, and what is wrong after them. -/
structure Cut where
  lines : List Line
  fault : Option SyntaxError
deriving DecidableEq, Repr

def Cut.cons (l : Line) (c : Cut) : Cut := ⟨l :: c.lines, c.fault⟩

def elseFollows : List Token → Bool
  | [] => false
  | t :: _ => t.kind = .elseWord

/-- Cut the rest of a list of tokens, with `depth` braces open and the tokens
of the line so far in `current`. -/
def cutFrom (depth : Nat) (current : List Token) : List Token → Cut
  | [] =>
    match current with
    | [] => ⟨[], none⟩
    | f :: _ =>
      if depth = 0 then ⟨[], some (.of .missingTerminator (endPosition current))⟩
      else ⟨[], some (.of .unbalancedBraces f.position)⟩
  | t :: ts =>
    match t.kind with
    | .openBrace => cutFrom (depth + 1) (current ++ [t]) ts
    | .closeBrace =>
      match depth, current with
      | 0, _ => ⟨[], some (.of .unbalancedBraces t.position)⟩
      | 1, f :: r =>
        if f.kind = .ifWord ∧ elseFollows ts = false then
          (cutFrom 0 [] ts).cons ⟨f, r ++ [t]⟩
        else cutFrom 0 (f :: r ++ [t]) ts
      | d + 1, current => cutFrom d (current ++ [t]) ts
    | .semicolon =>
      match depth, current with
      | 0, [] => cutFrom 0 [] ts
      | 0, f :: r => (cutFrom 0 [] ts).cons ⟨f, r⟩
      | d + 1, current => cutFrom (d + 1) (current ++ [t]) ts
    | _ => cutFrom depth (current ++ [t]) ts

def cutLines (ts : List Token) : Cut := cutFrom 0 [] ts

theorem cutFrom_length {depth : Nat} {current ts : List Token} {l : Line}
    (h : l ∈ (cutFrom depth current ts).lines) :
    l.tokens.length ≤ current.length + ts.length := by
  induction ts generalizing depth current with
  | nil =>
    simp only [cutFrom] at h
    split at h
    · simp at h
    · split at h <;> simp at h
  | cons t ts ih =>
    simp only [cutFrom] at h
    simp only [List.length_cons]
    split at h
    · have := ih h
      simp at this
      omega
    · split at h
      · simp at h
      · split at h
        · rcases List.mem_cons.mp h with rfl | h
          · simp [Line.tokens]
          · have := ih h
            simp at this
            omega
        · have := ih h
          simp at this
          simp
          omega
      · have := ih h
        simp at this
        omega
    · split at h
      · have := ih h
        simp at this
        omega
      · rcases List.mem_cons.mp h with rfl | h
        · simp [Line.tokens]
        · have := ih h
          simp at this
          omega
      · have := ih h
        simp at this
        omega
    · have := ih h
      simp at this
      omega

theorem cutLines_length {ts : List Token} {l : Line} (h : l ∈ (cutLines ts).lines) :
    l.tokens.length ≤ ts.length := by
  simpa using cutFrom_length h

end LetScript
