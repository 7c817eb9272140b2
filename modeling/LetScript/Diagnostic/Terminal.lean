import LetScript.Diagnostic
import LetScript.Text.Character
import LetScript.Position

/-! Diagnostics on a terminal: a headline, the source line with carets under
the place in question, and notes below. -/
namespace LetScript

inductive Colour where
  | red
  | yellow
  | blue
  | cyan
deriving DecidableEq, Repr

def Colour.code : Colour → String
  | red => "31"
  | yellow => "33"
  | blue => "34"
  | cyan => "36"

structure Ink where
  bold : Bool
  colour : Option Colour
deriving DecidableEq, Repr

namespace Ink

def plainBold : Ink := ⟨true, none⟩

def light (c : Colour) : Ink := ⟨false, some c⟩

def strong (c : Colour) : Ink := ⟨true, some c⟩

def sequence (i : Ink) : List Char :=
  let bold := if i.bold then ["1"] else []
  let colour := i.colour.toList.map Colour.code
  "\x1b[".toList ++ (";".intercalate (bold ++ colour)).toList ++ ['m']

end Ink

def resetSequence : List Char := "\x1b[0m".toList

/-- Turn the ink on again behind every reset inside a text. -/
def resume (ink : List Char) : List Char → List Char
  | '\x1b' :: '[' :: '0' :: 'm' :: cs => resetSequence ++ ink ++ resume ink cs
  | c :: cs => c :: resume ink cs
  | [] => []

def paint (colours : Bool) (i : Ink) (cs : List Char) : List Char :=
  if colours then i.sequence ++ resume i.sequence cs ++ resetSequence else cs

structure Terminal where
  source : String
  file : Option String
  colours : Bool
deriving DecidableEq, Repr

namespace Terminal

def fileName (t : Terminal) : String := t.file.getD "<source>"

def blanks (n : Nat) : List Char := List.replicate n ' '

def severityInk : Severity → Ink
  | .error => .strong .red
  | .warning => .strong .yellow
  | .note => .strong .blue

def headline (t : Terminal) (d : Diagnostic) : List Char :=
  let severity := paint t.colours (severityInk d.severity) d.severity.name.toList
  let code := match d.code with
    | some c => '[' :: paint t.colours (.strong .red) c.toList ++ [']']
    | none => []
  severity ++ code ++ ": ".toList ++ paint t.colours .plainBold d.message.toList

/-- How many characters the number of a row takes, and two at least. -/
def gutterWidth (p : Position) : Nat := max 2 (toString p.row).length

def bar (t : Terminal) : List Char := paint t.colours (.light .blue) ['|']

def emptyGutter (t : Terminal) (width : Nat) : List Char := blanks (width + 2) ++ t.bar

def arrowLine (t : Terminal) (p : Position) : List Char :=
  blanks (gutterWidth p - 1) ++ paint t.colours (.light .blue) "-->".toList ++
    (" " ++ t.fileName ++ ":" ++ toString p.row ++ ":" ++ toString (p.column + 1)).toList

/-- The row with its number. The padding of the number belongs to it. -/
def sourceLine (t : Terminal) (p : Position) (line : List Char) : List Char :=
  let number := (toString p.row).toList.leftpad (gutterWidth p + 1) ' '
  paint t.colours (.strong .blue) number ++ ' ' :: t.bar ++ ' ' :: line

/-- How many characters to underline: the word at a column, or one character. -/
def caretCount (line : List Char) (column : Nat) : Nat :=
  max 1 ((line.drop column).takeWhile isWordPart).length

def caretLine (t : Terminal) (l : Label) (line : List Char) : List Char :=
  let carets := List.replicate (caretCount line l.position.column) '^'
  t.emptyGutter (gutterWidth l.position) ++ ' ' :: blanks l.position.column ++
    paint t.colours (.strong .red) carets ++
    ' ' :: paint t.colours (.strong .red) (l.message.getD "").toList

def labelLines (t : Terminal) (l : Label) : List (List Char) :=
  t.arrowLine l.position ::
    match lineText? t.source l.position.row with
    | some line =>
      [t.emptyGutter (gutterWidth l.position), t.sourceLine l.position line,
        t.caretLine l line]
    | none => []

def remarkLine (t : Terminal) (width : Nat) (title text : String) : List Char :=
  blanks (width + 2) ++ paint t.colours (.light .cyan) ['='] ++
    ' ' :: paint t.colours (.strong .cyan) title.toList ++ ": ".toList ++ text.toList

def remarkLines (t : Terminal) (d : Diagnostic) : List (List Char) :=
  let width := match d.label with
    | some l => gutterWidth l.position
    | none => 2
  let remarks := d.notes.map (t.remarkLine width "note") ++
    d.help.toList.map (t.remarkLine width "help")
  if remarks ≠ [] ∧ d.label.isSome then t.emptyGutter width :: remarks else remarks

def lines (t : Terminal) (d : Diagnostic) : List (List Char) :=
  t.headline d :: d.label.toList.flatMap t.labelLines ++ t.remarkLines d

def render (t : Terminal) (d : Diagnostic) : List Char := (t.lines d).flatMap (· ++ ['\n'])

def renderAll (t : Terminal) (ds : List Diagnostic) : List Char :=
  ['\n'].intercalate (ds.map t.render)

end Terminal
end LetScript
