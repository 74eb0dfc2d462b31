import SassVars.Text.Character

/-!
# JSON

The values that an export consists of, with their two written forms. Objects keep the order
of their members and may repeat a key.

Compact form has no space at all. Indented form puts every element and member on a line of
its own, two blanks deeper than its container.
-/

namespace SassVars

inductive Json where
  | string (text : Text)
  | array (elements : List Json)
  | object (members : List (Text × Json))

namespace Json

/-! ## Strings -/

/-- The digit for a number below sixteen, in lower case. -/
def hexDigit (n : Nat) : Char :=
  if n < 10 then Char.ofNat ('0'.toNat + n) else Char.ofNat ('a'.toNat + (n - 10))

/-- A character inside a string. Quote, backslash and the control characters are escaped,
five of these by a letter. -/
def escape (c : Char) : Text :=
  if c == '"' then ['\\', '"']
  else if c == '\\' then ['\\', '\\']
  else if c.toNat == 0x08 then ['\\', 'b']
  else if c == '\t' then ['\\', 't']
  else if c == '\n' then ['\\', 'n']
  else if c.toNat == 0x0C then ['\\', 'f']
  else if c == '\r' then ['\\', 'r']
  else if c.toNat < 0x20 then
    ['\\', 'u', '0', '0', hexDigit (c.toNat / 16), hexDigit (c.toNat % 16)]
  else [c]

def quoted (t : Text) : Text :=
  '"' :: t.flatMap escape ++ ['"']

/-! ## Compact form -/

mutual

def compact : Json → Text
  | .string t => quoted t
  | .array [] => "[]".toList
  | .array (x :: xs) => '[' :: compact x ++ compactElements xs
  | .object [] => ['{', '}']
  | .object ((k, v) :: ms) => '{' :: quoted k ++ ':' :: compact v ++ compactMembers ms

/-- The elements behind the first one, up to the closing bracket. -/
def compactElements : List Json → Text
  | [] => [']']
  | x :: xs => ',' :: compact x ++ compactElements xs

/-- The members behind the first one, up to the closing brace. -/
def compactMembers : List (Text × Json) → Text
  | [] => ['}']
  | (k, v) :: ms => ',' :: quoted k ++ ':' :: compact v ++ compactMembers ms

end

/-! ## Indented form -/

/-- The start of a line at some depth. -/
def newline (depth : Nat) : Text :=
  '\n' :: List.replicate (2 * depth) ' '

mutual

/-- The indented form of a value that stands at some depth. -/
def indented (depth : Nat) : Json → Text
  | .string t => quoted t
  | .array [] => "[]".toList
  | .array (x :: xs) =>
    '[' :: newline (depth + 1) ++ indented (depth + 1) x ++ indentedElements depth xs
  | .object [] => ['{', '}']
  | .object ((k, v) :: ms) =>
    '{' :: newline (depth + 1) ++ quoted k ++ ':' :: ' ' :: indented (depth + 1) v ++
      indentedMembers depth ms

def indentedElements (depth : Nat) : List Json → Text
  | [] => newline depth ++ [']']
  | x :: xs =>
    ',' :: newline (depth + 1) ++ indented (depth + 1) x ++ indentedElements depth xs

def indentedMembers (depth : Nat) : List (Text × Json) → Text
  | [] => newline depth ++ ['}']
  | (k, v) :: ms =>
    ',' :: newline (depth + 1) ++ quoted k ++ ':' :: ' ' :: indented (depth + 1) v ++
      indentedMembers depth ms

end

def pretty (v : Json) : Text :=
  indented 0 v

end Json

end SassVars
