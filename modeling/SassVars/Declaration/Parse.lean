import SassVars.Declaration
import SassVars.Statement

/-!
# From the text of a statement to a declaration

The text is read on its own, away from the stylesheet around it. A flag in front of the
terminator is removed first; then the first statement in what is left gives the name, the
value and the fields.
-/

namespace SassVars.Declaration

open Reader

/-- A flag up to its terminator, as `!default;` or `!global;`. -/
def flagEnd : Reader Unit := do
  let _ ← char '!'
  let _ ← literal Statement.defaultFlag <|> literal Statement.globalFlag
  let _ ← layout
  let _ ← char ';'

/-- Replace the first flag, the space around it and its terminator by `;`. -/
def withoutFlag (t : Text) : Text :=
  match flagEnd.find? t with
  | some (before, r) => Text.trimEnd before ++ ';' :: r.rest
  | none => t

/-- The exported form of a value: trimmed, on one line, without outer quotes. -/
def exportedValue (value : Text) : Text :=
  Text.unquote (Text.foldLineBreaks (Text.trim value))

/-- Attach markers in their order; a repeated tag keeps its place and takes the new value. -/
def attach (d : Declaration) (markers : List Marker) : Declaration :=
  markers.foldl (fun d m => d.setField m.tag (Text.unquote m.quoted)) d

/-- The declaration that a statement stands for. -/
def ofStatement (s : Statement) : Declaration :=
  (plain (VariableName.exported s.name) (exportedValue s.value)).attach
    ((s.comment.map Marker.collect).getD [])

/-- Read a declaration from the text of a statement. There is none when nothing but a flag
stood for the value. -/
def ofText? (t : Text) : Option Declaration :=
  (Statement.find? (withoutFlag t)).map fun r => ofStatement r.value

/-! ## A declaration is shorter than its text -/

theorem byteLength_withoutFlag_le (t : Text) :
    Text.byteLength (withoutFlag t) ≤ Text.byteLength t := by
  unfold withoutFlag
  split
  · rename_i before r h
    obtain ⟨hr, rfl⟩ := find?_eq_some h
    simp only [flagEnd, read_bind_eq_ok_iff, read_char_eq_ok_iff] at hr
    obtain ⟨_, _, ⟨_, _, rfl⟩, _, rfl⟩ := hr
    have hbang : ('!').utf8Size = 1 := by decide
    have hsemi : (';').utf8Size = 1 := by decide
    have := Text.byteLength_trimEnd_le before
    simp only [Text.byteLength_append, Text.byteLength_cons, Text.byteLength_nil]
    omega
  · exact Nat.le_refl _

theorem byteLength_exportedValue_le (t : Text) :
    Text.byteLength (exportedValue t) ≤ Text.byteLength t :=
  Nat.le_trans (Text.byteLength_unquote_le _)
    (Nat.le_trans (Text.byteLength_foldLineBreaks_le _) (Text.byteLength_trim_le _))

/-- Markers change the fields alone, one after the other. -/
theorem attach_eq (d : Declaration) (markers : List Marker) :
    d.attach markers = { d with
      fields := markers.foldl (fun fs m => Field.set m.tag (Text.unquote m.quoted) fs)
        d.fields } := by
  induction markers generalizing d with
  | nil => cases d; rfl
  | cons m ms ih =>
    rw [attach, List.foldl_cons, ← attach, ih]
    rfl

/-- Besides its value the text of a declaration has `$`, a name, `:` and `;`. -/
theorem byteLength_value_add_four_le {t : Text} {d : Declaration} (h : ofText? t = some d) :
    Text.byteLength d.value + 4 ≤ Text.byteLength t := by
  simp only [ofText?, Statement.find?, Option.map_eq_some_iff, Prod.exists] at h
  obtain ⟨_, ⟨before, r, hfind, rfl⟩, rfl⟩ := h
  obtain ⟨hr, hsplit⟩ := find?_eq_some hfind
  have h₁ := Statement.byteLength_value_add_four_le hr
  have h₂ := byteLength_withoutFlag_le t
  have h₃ := byteLength_exportedValue_le r.value.value
  rw [hsplit] at h₂
  simp only [Text.byteLength_append] at h₂
  simp only [ofStatement, attach_eq, plain]
  omega

end SassVars.Declaration
