import SassVars.Reader.Search
import SassVars.Text.Bytes

/-!
# Where a value ends

The value of a declaration is cut in one of two ways. A plain value runs to the first `;`.
A quoted value starts with `"` and runs to a closing quote that a terminator follows, so it
may hold a `;` itself.

A bare `;` ends a declaration only at the top level: when the next brace behind it closes a
block, the declaration is local to that block. With `!default` or `!global` in front of the
`;` it counts everywhere.
-/

namespace SassVars.Statement

open Reader

/-- Whether a block closes in `t` before another one opens. -/
def closesBlock (t : Text) : Bool :=
  t.find? Text.isBrace == some '}'

def defaultFlag : Text := "default".toList

def globalFlag : Text := "global".toList

/-! ## Plain values -/

/-- The value in front of a closing `!default` or `!global`, unless it is blank. -/
def withoutFlag? (value : Text) : Option Text :=
  let body := Text.trimEnd value
  let front := (Text.dropSuffix? ('!' :: defaultFlag) body).or
    (Text.dropSuffix? ('!' :: globalFlag) body)
  (front.map Text.trimEnd).filter (!Text.isBlank ·)

/-- A value up to the first `;`. Inside a block it needs a flag, which is cut off. -/
def plainValue : Reader Text := do
  let raw ← span (· != ';')
  let _ ← char ';'
  let following ← peek
  if Text.isBlank raw then fail .value
  else if closesBlock following then
    match withoutFlag? raw with
    | some value => return value
    | none => fail .value
  else return raw

/-! ## Quoted values -/

/-- The places of the escaped quotes in `t` up to its first unescaped quote, and the place
of that one, where `t` starts at place `i`. -/
def quotesFrom (i : Nat) : Text → List Nat × Option Nat
  | [] => ([], none)
  | '\\' :: '"' :: t =>
    let (escaped, closing) := quotesFrom (i + 2) t
    ((i + 1) :: escaped, closing)
  | '"' :: _ => ([], some i)
  | _ :: t => quotesFrom (i + 1) t

/-- Places where a quoted text that starts `t` may close, in the order of preference: the
first quote, unless the text would be empty; the first unescaped quote; the escaped quotes
from the last to the first. -/
def closingQuotes (t : Text) : List Nat :=
  let (escaped, closing) := quotesFrom 1 t.tail
  let first := (escaped ++ closing.toList).head?.filter (1 < ·)
  first.toList ++ closing.toList ++ escaped.reverse

/-- The end of a declaration: a flag and `;`, or a bare `;` outside any block. -/
def terminator : Reader Unit :=
  (do
    let _ ← layout
    let _ ← char '!'
    let _ ← literal globalFlag <|> literal defaultFlag
    let _ ← layout
    let _ ← char ';') <|>
  (do
    let _ ← layout
    let _ ← char ';'
    if closesBlock (← peek) then fail .value)

/-- A value in double quotes, up to the first place of `closingQuotes` that a terminator
follows. -/
def quotedValue : Reader Text := do
  let t ← peek
  if t.head? == some '"' then
    firstOf .value <| (closingQuotes t).map fun i => do
      let value ← take (i + 1)
      let _ ← terminator
      return value
  else fail .value

/-! ## The value is shorter than what was read -/

theorem byteLength_withoutFlag?_le {t s : Text} (h : withoutFlag? t = some s) :
    Text.byteLength s ≤ Text.byteLength t := by
  simp only [withoutFlag?, Option.filter_eq_some_iff, Option.map_eq_some_iff,
    Option.or_eq_some_iff, Text.dropSuffix?_eq_some_iff] at h
  obtain ⟨⟨front, hfront, rfl⟩, -⟩ := h
  have hbody : Text.byteLength front ≤ Text.byteLength (Text.trimEnd t) := by
    rcases hfront with h | ⟨-, h⟩ <;> rw [h, Text.byteLength_append] <;> omega
  have := Text.byteLength_trimEnd_le front
  have := Text.byteLength_trimEnd_le t
  omega

theorem byteLength_plainValue_lt {t : Text} {r : Reading Text} (h : plainValue.read t = .ok r) :
    Text.byteLength r.value < Text.byteLength r.text := by
  simp only [plainValue, read_bind_eq_ok_iff, read_span, read_char_eq_ok_iff, read_peek,
    Except.ok.injEq] at h
  obtain ⟨raw, _, rfl, ⟨_, _, ⟨_, _, rfl⟩, ⟨_, b, rfl, hb, rfl⟩, rfl⟩, rfl⟩ := h
  have hval : Text.byteLength b.value ≤ Text.byteLength (t.takeWhile (· != ';')) := by
    split at hb
    · simp at hb
    · split at hb
      · split at hb
        · rename_i hv
          cases hb
          exact byteLength_withoutFlag?_le hv
        · simp at hb
      · cases hb
        exact Nat.le_refl _
  have : (';').utf8Size = 1 := by decide
  simp only [Text.byteLength_append, Text.byteLength_cons, Text.byteLength_nil]
  omega

theorem text_terminator_ne_nil {t : Text} {r : Reading Unit} (h : terminator.read t = .ok r) :
    r.text ≠ [] := by
  rcases read_orElse_eq_ok h with h | h <;>
    simp only [read_bind_eq_ok_iff, read_char_eq_ok_iff] at h
  · obtain ⟨_, _, _, ⟨_, _, ⟨_, _, rfl⟩, _, rfl⟩, rfl⟩ := h
    simp
  · obtain ⟨_, _, _, ⟨_, _, ⟨_, _, rfl⟩, _, rfl⟩, rfl⟩ := h
    simp

theorem byteLength_quotedValue_lt {t : Text} {r : Reading Text}
    (h : quotedValue.read t = .ok r) : Text.byteLength r.value < Text.byteLength r.text := by
  simp only [quotedValue, read_bind_eq_ok_iff, read_peek, Except.ok.injEq] at h
  obtain ⟨_, b, rfl, hb, rfl⟩ := h
  split at hb
  · obtain ⟨p, hp, hr⟩ := exists_of_read_firstOf hb
    obtain ⟨i, -, rfl⟩ := List.mem_map.1 hp
    simp only [read_bind_eq_ok_iff, read_take, read_pure, Except.ok.injEq] at hr
    obtain ⟨_, _, rfl, ⟨e, _, he, rfl, rfl⟩, rfl⟩ := hr
    have hpos := List.length_pos_iff.2 (text_terminator_ne_nil he)
    have := Text.length_le_byteLength e.text
    simp only [Text.byteLength_append, List.nil_append, List.append_nil]
    omega
  · simp at hb

end SassVars.Statement
