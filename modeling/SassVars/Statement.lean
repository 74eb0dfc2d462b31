import SassVars.MarkerComment
import SassVars.Identifier
import SassVars.Statement.Value

/-!
# Statements

A statement is a variable declaration as it stands in a stylesheet: `$`, a name, a colon,
a value up to its terminator, and then a marker comment or trailing space.

Whether a statement starts at a place depends only on the text from there on, since the
terminator looks ahead for braces and never back.
-/

namespace SassVars

open Reader

structure Statement where
  name : Text
  /-- The value as written. A flag in front of a bare `;` still belongs to it. -/
  value : Text
  /-- The marker comment behind the terminator, as written. -/
  comment : Option Text
deriving DecidableEq

namespace Statement

/-- A variable's name up to the start of its value. -/
def head : Reader Text := do
  let _ ← char '$'
  let name ← VariableName.reader
  let _ ← layout
  let _ ← char ':'
  let _ ← layout
  return name

def valueReader : Reader Text :=
  plainValue <|> quotedValue

/-- A block comment on any of the following lines, a line comment on the same line, or the
space up to the next character. -/
def tail : Reader (Option Text) :=
  (do let _ ← layout; return some (← MarkerComment.block.consumed)) <|>
  (do let _ ← inlineSpace; return some (← MarkerComment.line.consumed)) <|>
  (do let _ ← span Text.isSpace; return none)

def reader : Reader Statement := do
  let name ← head
  let value ← valueReader
  let comment ← tail
  return ⟨name, value, comment⟩

/-- The first statement in `t`. -/
def find? (t : Text) : Option (Reading Statement) :=
  (reader.find? t).map (·.2)

/-- A byte offset that lies beyond the end of a text or inside one of its characters. -/
structure BadOffset where
  offset : Nat
deriving DecidableEq

/-- The statement that starts at a byte offset, if there is one. -/
def atByte? (t : Text) (offset : Nat) : Except BadOffset (Option (Reading Statement)) :=
  match Text.dropBytes? offset t with
  | none => .error ⟨offset⟩
  | some rest => .ok (reader.read? rest)

theorem text_head? {t : Text} {r : Reading Statement} (h : reader.read t = .ok r) :
    r.text.head? = some '$' := by
  simp only [reader, head, read_bind_eq_ok_iff, read_char_eq_ok_iff] at h
  obtain ⟨_, _, ⟨_, _, ⟨_, _, rfl⟩, _, rfl⟩, _, rfl⟩ := h
  rfl

theorem text_ne_nil {t : Text} {r : Reading Statement} (h : reader.read t = .ok r) :
    r.text ≠ [] := by
  intro hnil
  have hhead := text_head? h
  simp [hnil] at hhead

/-! ## A statement is longer than its value -/

theorem length_text_head {t : Text} {r : Reading Text} (h : head.read t = .ok r) :
    3 ≤ r.text.length := by
  simp only [head, read_bind_eq_ok_iff, read_char_eq_ok_iff] at h
  obtain ⟨_, _, ⟨_, _, rfl⟩, ⟨n, _, hn, ⟨_, _, _, ⟨_, _, ⟨_, _, rfl⟩, _, rfl⟩, rfl⟩, rfl⟩, rfl⟩ := h
  have := List.length_pos_iff.2 (VariableName.text_ne_nil hn)
  simp only [List.length_append, List.length_cons, List.length_nil]
  omega

theorem byteLength_valueReader_lt {t : Text} {r : Reading Text}
    (h : valueReader.read t = .ok r) : Text.byteLength r.value < Text.byteLength r.text := by
  rcases read_orElse_eq_ok h with h | h
  · exact byteLength_plainValue_lt h
  · exact byteLength_quotedValue_lt h

/-- Besides its value a statement has `$`, a name, `:` and `;`. -/
theorem byteLength_value_add_four_le {t : Text} {r : Reading Statement}
    (h : reader.read t = .ok r) : Text.byteLength r.value.value + 4 ≤ Text.byteLength r.text := by
  simp only [reader, read_bind_eq_ok_iff, read_pure, Except.ok.injEq] at h
  obtain ⟨n, _, hn, ⟨v, _, hv, ⟨_, _, _, rfl, rfl⟩, rfl⟩, rfl⟩ := h
  have h₁ := length_text_head hn
  have h₂ := Text.length_le_byteLength n.text
  have h₃ := byteLength_valueReader_lt hv
  simp only [Text.byteLength_append]
  omega

end Statement

end SassVars
