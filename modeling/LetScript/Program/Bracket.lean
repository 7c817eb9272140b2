import LetScript.Program.Error

/-! Brackets: cutting a list of tokens at the bracket that closes it, and
checking that the parentheses of a line are balanced. -/
namespace LetScript

/-- The tokens up to the bracket that closes what stands open, and those after
it. Before that bracket `depth` further ones must close. -/
def cutAtClose (opening closing : Kind) : Nat → List Token → Option (List Token × List Token)
  | _, [] => none
  | depth, t :: ts =>
    if t.kind = opening then
      (cutAtClose opening closing (depth + 1) ts).map fun r => (t :: r.1, r.2)
    else if t.kind = closing then
      match depth with
      | 0 => some ([], ts)
      | d + 1 => (cutAtClose opening closing d ts).map fun r => (t :: r.1, r.2)
    else (cutAtClose opening closing depth ts).map fun r => (t :: r.1, r.2)

theorem cutAtClose_length {opening closing : Kind} {depth : Nat} {ts inside rest : List Token}
    (h : cutAtClose opening closing depth ts = some (inside, rest)) :
    inside.length + rest.length + 1 = ts.length := by
  induction ts generalizing depth inside rest with
  | nil => simp [cutAtClose] at h
  | cons t ts ih =>
    simp only [cutAtClose] at h
    split at h
    · obtain ⟨⟨i, r⟩, hr, he⟩ := Option.map_eq_some_iff.mp h
      obtain ⟨rfl, rfl⟩ := Prod.mk.inj he
      have := ih hr
      simp only [List.length_cons]
      omega
    · split at h
      · split at h
        · cases h
          simp
        · obtain ⟨⟨i, r⟩, hr, he⟩ := Option.map_eq_some_iff.mp h
          obtain ⟨rfl, rfl⟩ := Prod.mk.inj he
          have := ih hr
          simp only [List.length_cons]
          omega
      · obtain ⟨⟨i, r⟩, hr, he⟩ := Option.map_eq_some_iff.mp h
        obtain ⟨rfl, rfl⟩ := Prod.mk.inj he
        have := ih hr
        simp only [List.length_cons]
        omega

def cutAtParen (ts : List Token) : Option (List Token × List Token) :=
  cutAtClose .openParen .closeParen 0 ts

def cutAtBrace (ts : List Token) : Option (List Token × List Token) :=
  cutAtClose .openBrace .closeBrace 0 ts

def firstExcess? : Nat → List Token → Option Position
  | _, [] => none
  | depth, t :: ts =>
    if t.kind = .openParen then firstExcess? (depth + 1) ts
    else if t.kind = .closeParen then
      match depth with
      | 0 => some t.position
      | d + 1 => firstExcess? d ts
    else firstExcess? depth ts

def countKind (k : Kind) (ts : List Token) : Nat := ts.countP fun t => t.kind = k

/-- Refuse a line whose parentheses are not balanced, at the first closing one
in excess or else at its first token. -/
def checkParentheses (ts : List Token) : Except SyntaxError Unit :=
  let opened := countKind .openParen ts
  let closed := countKind .closeParen ts
  match firstExcess? 0 ts with
  | some p => .error (.of (.unbalancedParentheses opened closed) p)
  | none =>
    if opened = closed then .ok ()
    else
      let p := match ts with
        | [] => .start
        | t :: _ => t.position
      .error (.of (.unbalancedParentheses opened closed) p)

end LetScript
