/-!
# Characters of a stylesheet

A stylesheet is a list of characters. This module holds that type and the character
classes of the grammar: three kinds of space, line ends, and the letters of names.

The grammar itself skips only the four layout characters. Values are trimmed of every
character with the Unicode property White_Space, which is a larger class.
-/

namespace SassVars

/-- A piece of stylesheet text, as its characters in order. -/
abbrev Text := List Char

namespace Text

/-- The Unicode property White_Space. -/
def isSpace (c : Char) : Bool :=
  (0x09 ≤ c.toNat && c.toNat ≤ 0x0D) || c.toNat == 0x20 || c.toNat == 0x85 ||
    c.toNat == 0xA0 || c.toNat == 0x1680 || (0x2000 ≤ c.toNat && c.toNat ≤ 0x200A) ||
    c.toNat == 0x2028 || c.toNat == 0x2029 || c.toNat == 0x202F || c.toNat == 0x205F ||
    c.toNat == 0x3000

/-- Space that stays on its line. -/
def isInline (c : Char) : Bool :=
  c == ' ' || c == '\t'

/-- Space that the grammar skips between the parts of a declaration. -/
def isLayout (c : Char) : Bool :=
  c == ' ' || c == '\t' || c == '\r' || c == '\n'

/-- Line feed, carriage return, and the two Unicode separators. -/
def isLineEnd (c : Char) : Bool :=
  c == '\n' || c == '\r' || c.toNat == 0x2028 || c.toNat == 0x2029

def isQuote (c : Char) : Bool :=
  c == '\'' || c == '"'

def isBrace (c : Char) : Bool :=
  c == '{' || c == '}'

/-- Characters of a marker's tag. -/
def isWordChar (c : Char) : Bool :=
  c.isAlphanum || c == '_'

/-- Characters of an identifier. -/
def isIdentChar (c : Char) : Bool :=
  c.isAlphanum || c == '_' || c == '-'

/-- An identifier may start with any of its characters except a digit. -/
def isIdentStart (c : Char) : Bool :=
  c.isAlpha || c == '_' || c == '-'

theorem isSpace_of_isLayout {c : Char} (h : isLayout c = true) : isSpace c = true := by
  simp only [isLayout, Bool.or_eq_true, beq_iff_eq] at h
  rcases h with ((rfl | rfl) | rfl) | rfl <;> decide

theorem isLayout_of_isInline {c : Char} (h : isInline c = true) : isLayout c = true := by
  simp only [isInline, Bool.or_eq_true, beq_iff_eq] at h
  rcases h with rfl | rfl <;> decide

theorem isIdentChar_of_isIdentStart {c : Char} (h : isIdentStart c = true) :
    isIdentChar c = true := by
  simp only [isIdentStart, Bool.or_eq_true] at h
  rcases h with (h | h) | h <;> simp [isIdentChar, Char.isAlphanum, h]

end Text

end SassVars
