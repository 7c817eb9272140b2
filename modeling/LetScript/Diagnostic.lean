import LetScript.Position

/-! Diagnostics: what the tools have to say to their users, whatever part of them it comes from.
Each kind of message has a code, with a title and a category. -/
namespace LetScript

inductive Category where
  | lexical
  | syntactic
  | style
  | config
deriving DecidableEq, Repr

def Category.name : Category → String
  | lexical => "Lexical"
  | syntactic => "Syntax"
  | style => "Style"
  | config => "Config"

structure Code where
  id : String
  title : String
  category : Category
deriving DecidableEq, Repr

def codes : List Code :=
  [⟨"E0001", "unrecognized character", .lexical⟩,
   ⟨"E0002", "unmatched quotation mark", .lexical⟩,
   ⟨"E0100", "unexpected token", .syntactic⟩,
   ⟨"E0101", "too few tokens", .syntactic⟩,
   ⟨"E0102", "missing operator", .syntactic⟩,
   ⟨"E0103", "unbalanced parentheses", .syntactic⟩,
   ⟨"E0104", "unbalanced braces", .syntactic⟩,
   ⟨"E0105", "empty expression", .syntactic⟩,
   ⟨"E0106", "invalid expression", .syntactic⟩,
   ⟨"E0107", "uninitialized constant", .syntactic⟩,
   ⟨"E0108", "missing terminator", .syntactic⟩,
   ⟨"E0109", "unrecognized statement", .syntactic⟩,
   ⟨"E0200", "naming convention", .style⟩,
   ⟨"E0201", "spacing", .style⟩,
   ⟨"E0202", "line layout", .style⟩,
   ⟨"E0203", "brace placement", .style⟩,
   ⟨"E0204", "complex call argument", .style⟩,
   ⟨"E0300", "unsupported version", .config⟩,
   ⟨"E0301", "malformed configuration", .config⟩,
   ⟨"E0302", "invalid println blank lines", .config⟩,
   ⟨"E0303", "unknown rule", .config⟩]

def Code.find? (id : String) : Option Code := codes.find? fun c => c.id = id

inductive Severity where
  | error
  | warning
  | note
deriving DecidableEq, Repr

def Severity.name : Severity → String
  | error => "error"
  | warning => "warning"
  | note => "note"

def Severity.ofName? (s : String) : Option Severity :=
  [error, warning, note].find? fun v => v.name = s

/-- The place that a diagnostic points at, and what to write beside it. -/
structure Label where
  position : Position
  message : Option String
deriving DecidableEq, Repr

structure Diagnostic where
  severity : Severity
  message : String
  code : Option String
  label : Option Label
  notes : List String
  help : Option String
deriving DecidableEq, Repr

namespace Diagnostic

def plain (s : Severity) (message : String) : Diagnostic := ⟨s, message, none, none, [], none⟩

def error (message : String) : Diagnostic := plain .error message

def warning (message : String) : Diagnostic := plain .warning message

def withCode (d : Diagnostic) (code : String) : Diagnostic := { d with code := some code }

def withLabel (d : Diagnostic) (p : Position) (message : String) : Diagnostic :=
  { d with label := some ⟨p, some message⟩ }

def withNote (d : Diagnostic) (note : String) : Diagnostic := { d with notes := d.notes ++ [note] }

def withHelp (d : Diagnostic) (help : String) : Diagnostic := { d with help := some help }

def position? (d : Diagnostic) : Option Position := d.label.map Label.position

end Diagnostic

end LetScript
