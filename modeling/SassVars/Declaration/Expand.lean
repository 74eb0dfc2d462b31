import SassVars.Declaration.Parse
import SassVars.MapLiteral

/-!
# Expanding map literals

Every entry of a map literal is read as a declaration of its own and expanded in turn, so a
map inside a map becomes a declaration inside a declaration.

An entry's value is shorter than the value that holds the entry, which bounds the depth.
-/

namespace SassVars.Declaration

open Reader

/-- The declarations that the entries of a value stand for, not yet expanded. -/
def children (value : Text) : List Declaration :=
  (MapLiteral.entries value).filterMap fun r => ofText? (MapLiteral.asStatement r.text)

/-- A child's value is at least two bytes shorter than the value that it came from. -/
theorem byteLength_value_add_two_le {value : Text} {c : Declaration} (h : c ∈ children value) :
    Text.byteLength c.value + 2 ≤ Text.byteLength value := by
  obtain ⟨r, hr, hc⟩ := List.mem_filterMap.1 h
  have h₁ := byteLength_value_add_four_le hc
  have h₂ := MapLiteral.byteLength_asStatement_le r.text
  have h₃ := byteLength_text_le_of_mem_scan hr
  omega

/-- Fill in the map of a declaration whose value has entries, at every depth. Any other
declaration stays as it is. -/
def expand (d : Declaration) : Declaration :=
  if (MapLiteral.entries d.value).isEmpty then d
  else d.withMap ((children d.value).attach.map fun c => expand c.1)
termination_by Text.byteLength d.value
decreasing_by
  have := byteLength_value_add_two_le c.2
  omega

theorem expand_eq (d : Declaration) :
    expand d = if (MapLiteral.entries d.value).isEmpty then d
      else d.withMap ((children d.value).map expand) := by
  rw [expand]
  simp

/-- The exported declaration of a statement's text. -/
def exported? (t : Text) : Option Declaration :=
  (ofText? t).map expand

end SassVars.Declaration
