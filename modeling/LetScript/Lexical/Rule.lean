import LetScript.Token
import LetScript.Text.Character

/-! Lexical rules. A rule looks at the front of a text and either takes a
lexeme from it, does not apply, or finds a quotation mark without a partner. -/
namespace LetScript

inductive LexError where
  | unsupportedVersion (id : String)
  | unrecognizedCharacter (c : Char) (p : Position)
  | unmatchedQuote (quote : Char) (p : Position)
deriving DecidableEq, Repr

namespace LexError

def message : LexError → String
  | unsupportedVersion id => "unsupported version `" ++ id ++ "`, expected 1.0 or 1.1"
  | unrecognizedCharacter c p =>
    "unrecognized character '" ++ String.singleton c ++ "' at " ++ p.display
  | unmatchedQuote q p =>
    "unmatched quotation mark " ++ String.singleton q ++ " at " ++ p.display

def position? : LexError → Option Position
  | unsupportedVersion _ => none
  | unrecognizedCharacter _ p => some p
  | unmatchedQuote _ p => some p

end LexError

/-- A piece at the front of a text, what it stands for, and the text after it. -/
structure Lexeme where
  kind : Kind
  value : Value
  text : List Char
  rest : List Char
deriving DecidableEq, Repr

namespace Lexeme

def token (l : Lexeme) (p : Position) : Token := ⟨l.kind, l.value, p⟩

/-- The lexeme is a piece of the text that it was taken from, and not an empty
one. -/
def Heads (l : Lexeme) (cs : List Char) : Prop := l.text ≠ [] ∧ l.text ++ l.rest = cs

theorem Heads.length_lt {l : Lexeme} {cs : List Char} (h : l.Heads cs) :
    l.rest.length < cs.length := by
  have hp := List.length_pos_iff.mpr h.1
  rw [← h.2, List.length_append]
  omega

end Lexeme

/-- What follows `word` in a text that begins with it, unless the word goes on
there. -/
def afterWord? (word cs : List Char) : Option (List Char) :=
  match afterText? word cs with
  | none => none
  | some [] => some []
  | some (c :: rest) => if isWordPart c then none else some (c :: rest)

theorem afterWord?_eq_some {word cs rest : List Char} (h : afterWord? word cs = some rest) :
    word ++ rest = cs := by
  unfold afterWord? at h
  split at h
  · simp at h
  · rename_i ha
    cases h
    exact afterText?_eq_some ha
  · rename_i ha
    split at h
    · simp at h
    · cases h
      exact afterText?_eq_some ha

def Keyword.kind : Keyword → Kind
  | let_ => .declarator
  | const_ => .declarator
  | if_ => .ifWord
  | else_ => .elseWord

inductive LexRule where
  | newline
  | whitespace
  | stringLiteral
  | numberLiteral
  | keyword (k : Keyword)
  | booleanLiteral
  | typeName (t : TypeName)
  | builtin (f : Builtin)
  | identifier
  | operator (o : Operator)
  | symbol (c : Char) (kind : Kind)
deriving DecidableEq, Repr

namespace LexRule

def newline? : List Char → Option Lexeme
  | '\r' :: '\n' :: rest => some ⟨.newline, .raw "\r\n", ['\r', '\n'], rest⟩
  | '\n' :: rest => some ⟨.newline, .raw "\n", ['\n'], rest⟩
  | _ => none

def whitespace? : List Char → Option Lexeme
  | ' ' :: rest => some ⟨.whitespace, .raw " ", [' '], rest⟩
  | '\t' :: rest => some ⟨.whitespace, .raw "\t", ['\t'], rest⟩
  | _ => none

/-- A text between two equal quotation marks on one line. -/
def stringLiteral? (p : Position) : List Char → Except LexError (Option Lexeme)
  | [] => .ok none
  | q :: body =>
    if q = '\x22' ∨ q = '\x27' then
      let text := body.takeWhile fun c => c != q && c != '\n'
      match body.dropWhile fun c => c != q && c != '\n' with
      | [] => .error (.unmatchedQuote q p)
      | c :: rest =>
        if c = q then .ok (some ⟨.string, .string (String.ofList text), q :: text ++ [q], rest⟩)
        else .error (.unmatchedQuote q p)
    else .ok none

/-- Digits, and after a point further digits if there are any. -/
def numberLiteral? (cs : List Char) : Option Lexeme :=
  let whole := cs.takeWhile Char.isDigit
  let rest := cs.dropWhile Char.isDigit
  if whole = [] then none
  else
    match rest with
    | '.' :: more =>
      let fraction := more.takeWhile Char.isDigit
      if fraction = [] then some ⟨.number, .number (.ofDigits whole []), whole, rest⟩
      else some ⟨.number, .number (.ofDigits whole fraction), whole ++ '.' :: fraction,
        more.dropWhile Char.isDigit⟩
    | _ => some ⟨.number, .number (.ofDigits whole []), whole, rest⟩

def word? (word : String) (kind : Kind) (value : Value) (cs : List Char) : Option Lexeme :=
  (afterWord? word.toList cs).map fun rest => ⟨kind, value, word.toList, rest⟩

def identifier? : List Char → Option Lexeme
  | [] => none
  | c :: cs =>
    if isWordStart c then
      let text := c :: cs.takeWhile isWordPart
      some ⟨.identifier, .raw (String.ofList text), text, cs.dropWhile isWordPart⟩
    else none

def character? (c : Char) (kind : Kind) (value : Value) : List Char → Option Lexeme
  | [] => none
  | d :: rest => if d = c then some ⟨kind, value, [c], rest⟩ else none

def scan (r : LexRule) (p : Position) (cs : List Char) : Except LexError (Option Lexeme) :=
  match r with
  | newline => .ok (newline? cs)
  | whitespace => .ok (whitespace? cs)
  | stringLiteral => stringLiteral? p cs
  | numberLiteral => .ok (numberLiteral? cs)
  | keyword k => .ok (word? k.word k.kind (.raw k.word) cs)
  | booleanLiteral =>
    .ok ((word? "true" .boolean (.boolean true) cs).or
      (word? "false" .boolean (.boolean false) cs))
  | typeName t => .ok (t.spellings.findSome? fun w => word? w .typeName (.typeName t) cs)
  | builtin f => .ok (word? f.name .builtin (.builtin f) cs)
  | identifier => .ok (identifier? cs)
  | operator o => .ok (character? o.symbol .operator (.operator o) cs)
  | symbol c k => .ok (character? c k (.raw (String.singleton c)) cs)

theorem newline?_heads {cs : List Char} {l : Lexeme} (h : newline? cs = some l) :
    l.Heads cs := by
  unfold newline? at h
  split at h <;> simp_all [Lexeme.Heads] <;> simp [← h]

theorem whitespace?_heads {cs : List Char} {l : Lexeme} (h : whitespace? cs = some l) :
    l.Heads cs := by
  unfold whitespace? at h
  split at h <;> simp_all [Lexeme.Heads] <;> simp [← h]

theorem stringLiteral?_heads {p : Position} {cs : List Char} {l : Lexeme}
    (h : stringLiteral? p cs = .ok (some l)) : l.Heads cs := by
  cases cs with
  | nil => simp [stringLiteral?] at h
  | cons q body =>
    simp only [stringLiteral?] at h
    split at h
    · split at h
      · simp at h
      · rename_i hd
        split at h
        · rename_i hq
          simp only [Except.ok.injEq, Option.some.injEq] at h
          refine ⟨by simp [← h], ?_⟩
          rw [← h]
          have := List.takeWhile_append_dropWhile (p := fun c => c != q && c != '\n') (l := body)
          rw [hd, hq] at this
          simpa using this
        · simp at h
    · simp at h

theorem numberLiteral?_heads {cs : List Char} {l : Lexeme} (h : numberLiteral? cs = some l) :
    l.Heads cs := by
  have hcs := List.takeWhile_append_dropWhile (p := Char.isDigit) (l := cs)
  simp only [numberLiteral?] at h
  split at h
  · simp at h
  · rename_i hw
    split at h
    · rename_i more hm
      split at h
      · cases h
        exact ⟨hw, hcs⟩
      · cases h
        refine ⟨by simp, ?_⟩
        have := List.takeWhile_append_dropWhile (p := Char.isDigit) (l := more)
        rw [hm] at hcs
        simp [this, hcs]
    · cases h
      exact ⟨hw, hcs⟩

theorem word?_heads {w : String} {k : Kind} {v : Value} {cs : List Char} {l : Lexeme}
    (hw : w ≠ "") (h : word? w k v cs = some l) : l.Heads cs := by
  unfold word? at h
  obtain ⟨rest, hr, rfl⟩ := Option.map_eq_some_iff.mp h
  exact ⟨by simpa using hw, afterWord?_eq_some hr⟩

theorem identifier?_heads {cs : List Char} {l : Lexeme} (h : identifier? cs = some l) :
    l.Heads cs := by
  cases cs with
  | nil => simp [identifier?] at h
  | cons c cs =>
    simp only [identifier?] at h
    split at h
    · cases h
      exact ⟨by simp, by simp⟩
    · simp at h

theorem character?_heads {c : Char} {k : Kind} {v : Value} {cs : List Char} {l : Lexeme}
    (h : character? c k v cs = some l) : l.Heads cs := by
  cases cs with
  | nil => simp [character?] at h
  | cons d rest =>
    simp only [character?] at h
    split at h
    · rename_i hd
      cases h
      exact ⟨by simp, by simp [hd]⟩
    · simp at h

theorem scan_heads {r : LexRule} {p : Position} {cs : List Char} {l : Lexeme}
    (h : r.scan p cs = .ok (some l)) : l.Heads cs := by
  cases r with
  | newline => exact newline?_heads (by simpa [scan] using h)
  | whitespace => exact whitespace?_heads (by simpa [scan] using h)
  | stringLiteral => exact stringLiteral?_heads h
  | numberLiteral => exact numberLiteral?_heads (by simpa [scan] using h)
  | keyword k =>
    refine word?_heads ?_ (by simpa [scan] using h)
    cases k <;> decide
  | booleanLiteral =>
    simp only [scan, Except.ok.injEq, Option.or_eq_some_iff] at h
    rcases h with h | ⟨-, h⟩
    · exact word?_heads (by decide) h
    · exact word?_heads (by decide) h
  | typeName t =>
    simp only [scan, Except.ok.injEq] at h
    obtain ⟨w, hw, hl⟩ := List.exists_of_findSome?_eq_some h
    refine word?_heads ?_ hl
    rintro rfl
    cases t <;> simp [TypeName.spellings] at hw
  | builtin f =>
    refine word?_heads ?_ (by simpa [scan] using h)
    cases f <;> decide
  | identifier => exact identifier?_heads (by simpa [scan] using h)
  | operator o => exact character?_heads (by simpa [scan] using h)
  | symbol c k => exact character?_heads (by simpa [scan] using h)

end LexRule
end LetScript
