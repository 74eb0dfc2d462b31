import SassVars.Marker

/-!
# Marker comments

A marker comment holds markers and nothing else. A block comment may be empty and span
lines; a line comment has at least one marker and ends behind the last.
-/

namespace SassVars.MarkerComment

open Reader

def block : Reader (List Marker) := do
  let _ ← literal "/*".toList
  let markers ← many (do let _ ← layout; Marker.reader)
  let _ ← layout
  let _ ← literal "*/".toList
  return markers

def line : Reader (List Marker) := do
  let _ ← literal "//".toList
  many1 (do let _ ← inlineSpace; Marker.reader)

def reader : Reader (List Marker) :=
  block <|> line

/-- Whether a comment opens at the start of `t`. -/
def opensComment (t : Text) : Bool :=
  "/*".toList.isPrefixOf t || "//".toList.isPrefixOf t

end SassVars.MarkerComment
