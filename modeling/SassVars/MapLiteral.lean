import SassVars.MarkerComment
import SassVars.Identifier
import SassVars.Text.Bytes

/-!
# Map literals

A map literal is a value with `key: value` entries. Entries are looked for at every place of
the value, so its parentheses and commas need no reading of their own.

A parenthesised group ends at the first `)`, whatever it holds.
-/

namespace SassVars.MapLiteral

open Reader

structure Entry where
  key : Text
  value : Text
  /-- A marker comment behind a comma, as written. -/
  comment : Option Text
deriving DecidableEq

namespace Entry

/-- `name(…)` without a `)` in between. -/
def call : Reader Text :=
  consumed do
    let _ ← span1 fun c => c.isAlpha || c == '-'
    let _ ← char '('
    let _ ← until1 (· == ')')
    char ')'

/-- A value up to a parenthesis, a comma or a slash. -/
def bare : Reader Text :=
  span1 fun c => !(c == ')' || c == '(' || c == ',' || c == '/')

/-- `(…)` without a `)` in between. -/
def group : Reader Text :=
  consumed do
    let _ ← char '('
    let _ ← until1 (· == ')')
    char ')'

/-- A value behind layout, or else the layout itself as a bare value. -/
def valueReader : Reader Text :=
  (do let _ ← layout; call <|> bare <|> group) <|> bare

/-- A comma and the marker comment that follows it. -/
def trailingComment : Reader Text := do
  let _ ← char ','
  let _ ← layout
  MarkerComment.reader.consumed

def reader : Reader Entry := do
  let key ← VariableName.reader
  let _ ← layout
  let _ ← char ':'
  let value ← valueReader
  let comment ← optional trailingComment
  return ⟨key, value, comment⟩

end Entry

/-- The entries of a value from left to right, each with the text that it covers. -/
def entries (value : Text) : List (Reading Entry) :=
  Entry.reader.scan value

/-- A comma in front of a comment. -/
def commaBeforeComment : Reader Unit := do
  let _ ← char ','
  if MarkerComment.opensComment (Text.trimStart (← peek)) then pure ()
  else fail (.literal "/*".toList)

/-- Close the value of an entry with a marker comment: its first comma in front of a comment
becomes a `;`. -/
def closeValue (entry : Text) : Text :=
  if MarkerComment.reader.occursIn entry then
    match commaBeforeComment.find? entry with
    | some (before, r) => before ++ ';' :: r.rest
    | none => entry
  else entry

/-- An entry as a statement of its own. -/
def asStatement (entry : Text) : Text :=
  '$' :: closeValue entry ++ [';']

/-! ## Entries take their place in the value -/

theorem byteLength_closeValue_le (entry : Text) :
    Text.byteLength (closeValue entry) ≤ Text.byteLength entry := by
  unfold closeValue
  split
  · split
    · rename_i before r h
      obtain ⟨hr, rfl⟩ := find?_eq_some h
      simp only [commaBeforeComment, read_bind_eq_ok_iff, read_char_eq_ok_iff] at hr
      obtain ⟨_, _, ⟨_, _, rfl⟩, _, rfl⟩ := hr
      have hcomma : (',').utf8Size = 1 := by decide
      have hsemi : (';').utf8Size = 1 := by decide
      simp only [Text.byteLength_append, Text.byteLength_cons, Text.byteLength_nil]
      omega
    · exact Nat.le_refl _
  · exact Nat.le_refl _

theorem byteLength_asStatement_le (entry : Text) :
    Text.byteLength (asStatement entry) ≤ Text.byteLength entry + 2 := by
  have hdollar : ('$').utf8Size = 1 := by decide
  have hsemi : (';').utf8Size = 1 := by decide
  have := byteLength_closeValue_le entry
  simp only [asStatement, List.cons_append, Text.byteLength_append, Text.byteLength_cons,
    Text.byteLength_nil]
  omega

end SassVars.MapLiteral
