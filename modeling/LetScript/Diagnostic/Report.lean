import LetScript.Diagnostic
import LetScript.Json.Basic
import LetScript.Position

/-! Diagnostics as a JSON report for other programs. -/
namespace LetScript

/-- A field that is left out if it has no value. -/
def optionalField (key : String) : Option (Json String) → List (String × Json String)
  | some v => [(key, v)]
  | none => []

def locationJson (source : String) (p : Position) : Json String :=
  .object
    [("line", .natural p.row),
     ("column", .natural p.column),
     ("source_line", .text (String.ofList ((lineText? source p.row).getD [])))]

namespace Diagnostic

def category? (d : Diagnostic) : Option Category :=
  (d.code.bind Code.find?).map Code.category

def toJson (source : String) (d : Diagnostic) : Json String :=
  let notes := if d.notes = [] then none else some (.array (d.notes.map .text))
  .object
    (("severity", .text d.severity.name) ::
      optionalField "code" (d.code.map .text) ++
      optionalField "category" (d.category?.map fun c => .text c.name) ++
      ("message", .text d.message) ::
      optionalField "location" (d.position?.map (locationJson source)) ++
      optionalField "notes" notes ++
      optionalField "help" (d.help.map .text))

def countSeverity (s : Severity) (ds : List Diagnostic) : Nat :=
  ds.countP fun d => d.severity = s

def report (source file phase : String) (ds : List Diagnostic) : Json String :=
  .object
    [("version", .natural 1),
     ("file", .text file),
     ("success", .bool (countSeverity .error ds == 0)),
     ("phase", .text phase),
     ("diagnostics", .array (ds.map (toJson source))),
     ("error_count", .natural (countSeverity .error ds)),
     ("warning_count", .natural (countSeverity .warning ds))]

end Diagnostic
end LetScript
