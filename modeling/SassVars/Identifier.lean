import SassVars.Reader

/-!
# Identifiers and variable names

An identifier is a run of ASCII letters, digits, `_` and `-` that does not start with a
digit. A variable name is an identifier that may stand between quotes.
-/

namespace SassVars

open Reader

/-- An identifier, as long as the text allows. -/
def Identifier.reader : Reader Text := do
  let c ← one Text.isIdentStart .member
  let cs ← span Text.isIdentChar
  return c :: cs

/-- An identifier with an optional quote on either side; the quotes need not agree. -/
def VariableName.reader : Reader Text := do
  let _ ← optional (anyOf ['\'', '"'])
  let name ← Identifier.reader
  let _ ← optional (anyOf ['\'', '"'])
  return name

/-- The exported form of a name: its first `_` becomes `-`. -/
def VariableName.exported (name : Text) : Text :=
  name.replace '_' '-'

theorem Identifier.read_eq_ok_iff {t : Text} {r : Reading Text} :
    Identifier.reader.read t = .ok r ↔
      ∃ c cs, Text.isIdentStart c = true ∧ t = c :: cs ∧
        r = ⟨c :: cs.takeWhile Text.isIdentChar, c :: cs.takeWhile Text.isIdentChar,
          cs.dropWhile Text.isIdentChar⟩ := by
  simp only [Identifier.reader, read_bind_eq_ok_iff, read_one_eq_ok_iff, read_span, read_pure,
    Except.ok.injEq]
  constructor
  · rintro ⟨_, _, ⟨c, cs, hc, rfl, rfl⟩, ⟨_, _, rfl, rfl, rfl⟩, rfl⟩
    exact ⟨c, cs, hc, rfl, by simp⟩
  · rintro ⟨c, cs, hc, rfl, rfl⟩
    exact ⟨⟨c, [c], cs⟩, _, ⟨c, cs, hc, rfl, rfl⟩, ⟨_, _, rfl, rfl, rfl⟩, by simp⟩

/-- A name has at least one character. -/
theorem VariableName.text_ne_nil {t : Text} {r : Reading Text}
    (h : VariableName.reader.read t = .ok r) : r.text ≠ [] := by
  simp only [VariableName.reader, read_bind_eq_ok_iff, Identifier.read_eq_ok_iff] at h
  obtain ⟨_, _, _, ⟨_, _, ⟨_, _, _, _, rfl⟩, _, rfl⟩, rfl⟩ := h
  simp

end SassVars
