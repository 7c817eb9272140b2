import LetScript.Lexical.Rule

/-! Cutting a whole text into tokens by repeated use of a table of rules. Each version of the
language has a table of its own. -/
namespace LetScript

inductive Version where
  | v10
  | v11
deriving DecidableEq, Repr

namespace Version

def all : List Version := [v10, v11]

def default : Version := v10

def id : Version → String
  | v10 => "1.0"
  | v11 => "1.1"

def ofId (s : String) : Except LexError Version :=
  match all.find? fun v => v.id = s with
  | some v => .ok v
  | none => .error (.unsupportedVersion s)

/-- The rules in order of precedence: the first one that applies wins. So
literals come before keywords, and keywords before identifiers. -/
def rules : Version → List LexRule
  | v10 =>
    [.newline, .whitespace, .stringLiteral, .numberLiteral,
     .keyword .let_,
     .typeName .number, .typeName .string,
     .builtin .println,
     .identifier,
     .operator .sum, .operator .subtract, .operator .multiply, .operator .divide,
     .operator .equal,
     .symbol ':' .colon, .symbol ';' .semicolon,
     .symbol '(' .openParen, .symbol ')' .closeParen]
  | v11 =>
    [.newline, .whitespace, .stringLiteral, .numberLiteral,
     .keyword .let_, .keyword .const_, .keyword .if_, .keyword .else_,
     .booleanLiteral,
     .typeName .number, .typeName .string, .typeName .boolean,
     .builtin .println, .builtin .readInput, .builtin .readEnv,
     .identifier,
     .operator .sum, .operator .subtract, .operator .multiply, .operator .divide,
     .operator .equal,
     .symbol ':' .colon, .symbol ';' .semicolon,
     .symbol '(' .openParen, .symbol ')' .closeParen,
     .symbol '\x7b' .openBrace, .symbol '\x7d' .closeBrace]

end Version

/-- The lexeme of the first rule that applies, or the error of a rule before it. -/
def firstLexeme (p : Position) (cs : List Char) :
    List LexRule → Except LexError (Option Lexeme)
  | [] => .ok none
  | r :: rs =>
    match r.scan p cs with
    | .error e => .error e
    | .ok (some l) => .ok (some l)
    | .ok none => firstLexeme p cs rs

theorem firstLexeme_heads {p : Position} {cs : List Char} {rs : List LexRule} {l : Lexeme}
    (h : firstLexeme p cs rs = .ok (some l)) : l.Heads cs := by
  induction rs with
  | nil => simp [firstLexeme] at h
  | cons r rs ih =>
    simp only [firstLexeme] at h
    split at h
    · simp at h
    · rename_i hr
      cases h
      exact LexRule.scan_heads hr
    · exact ih h

def tokensFrom (rs : List LexRule) (p : Position) : List Char → Except LexError (List Token)
  | [] => .ok []
  | c :: cs =>
    match _h : firstLexeme p (c :: cs) rs with
    | .error e => .error e
    | .ok none => .error (.unrecognizedCharacter c p)
    | .ok (some l) =>
      match tokensFrom rs (p.advance l.text) l.rest with
      | .error e => .error e
      | .ok ts => .ok (l.token p :: ts)
termination_by cs => cs.length
decreasing_by exact (firstLexeme_heads _h).length_lt

def Version.tokenize (v : Version) (source : String) : Except LexError (List Token) :=
  tokensFrom v.rules .start source.toList

def tokenize (source : String) (version : String) : Except LexError (List Token) := do
  (← Version.ofId version).tokenize source

/-- What is left of a text after its first `n` bytes in UTF-8. -/
def dropBytes : Nat → List Char → List Char
  | 0, cs => cs
  | _ + 1, [] => []
  | n + 1, c :: cs => dropBytes (n + 1 - c.utf8Size) cs

/-- Apply one rule after the first `offset` bytes of a text. The answer tells
how many bytes of the text come before what is left. -/
def LexRule.scanAt (r : LexRule) (source : String) (offset : Nat) (p : Position) :
    Except LexError (Option (Token × Nat)) := do
  match ← r.scan p (dropBytes offset source.toList) with
  | none => return none
  | some l => return some (l.token p, offset + (String.ofList l.text).utf8ByteSize)

end LetScript
