import SassVars.Reader.Search

/-!
# Markers

A marker attaches a field to a declaration: a fixed opening, a tag, and a literal in double
quotes on one line. `Marker.collect` finds the markers of a comment.
-/

namespace SassVars

open Reader

structure Marker where
  tag : Text
  /-- The literal with its quotes. -/
  quoted : Text
deriving DecidableEq

namespace Marker

/-- The beginning of every marker. -/
def opening : Text := "@sass-export-".toList

/-- The tag that belongs to section markers. -/
def reservedTag : Text := "subsection".toList

/-- A double-quoted text on one line that is not empty. -/
def quotedLiteral : Reader Text :=
  consumed do
    let _ ← char '"'
    let _ ← until1 fun c => c == '"' || Text.isLineEnd c
    char '"'

def reader : Reader Marker := do
  let _ ← literal opening
  let tag ← check (span1 Text.isWordChar) (· != reservedTag) .allowedWord
  let _ ← char '='
  let text ← quotedLiteral
  return ⟨tag, text⟩

/-- The markers of a text from left to right, where `inWord` says whether a word runs into
it. A marker counts only where no word runs into its opening. -/
def collectFrom (inWord : Bool) : Text → List Marker
  | [] => []
  | c :: t =>
    match if inWord then none else reader.read? (c :: t) with
    | some r =>
      if r.rest.length ≤ t.length then r.value :: collectFrom false r.rest
      else collectFrom (Text.isWordChar c) t
    | none => collectFrom (Text.isWordChar c) t
termination_by t => t.length

def collect (t : Text) : List Marker :=
  collectFrom false t

end Marker

end SassVars
