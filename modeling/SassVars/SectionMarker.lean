import SassVars.Reader.Search

/-!
# Section markers

A start marker names the section that the following declarations belong to; an end marker
closes it. Standing alone a marker is written in lower case. Inside the text of a
declaration it is recognised in any mix of cases.
-/

namespace SassVars.SectionMarker

open Reader

/-- The word that both markers share. -/
def tag : Text := "sass-export-subsection".toList

def startOpening : Text := "@".toList ++ tag ++ "=".toList

def endText : Text := "@end-".toList ++ tag

/-- A name in double quotes that runs to the last `"` of its line and has at least one
character in between. -/
def quotedName : Reader Text := do
  let raw := Text.throughLast '"' (Text.firstLine (← peek))
  if raw.head? == some '"' && 3 ≤ raw.length then take raw.length else fail (.literal ['"'])

/-- A start marker, giving the name with its quotes. -/
def start : Reader Text := do
  let _ ← literal startOpening
  quotedName

def stop : Reader Text :=
  literal endText

theorem start_text_head? {t : Text} {r : Reading Text} (h : start.read t = .ok r) :
    r.text.head? = some '@' := by
  obtain ⟨_, _, ha, _, rfl⟩ := read_bind_eq_ok_iff.1 h
  obtain ⟨_, _, rfl⟩ := read_literal_eq_ok_iff.1 ha
  rfl

theorem stop_text {t : Text} {r : Reading Text} (h : stop.read t = .ok r) : r.text = endText := by
  obtain ⟨_, _, rfl⟩ := read_literal_eq_ok_iff.1 h
  rfl

/-- The name of a section: the quoted name without any `"`. -/
def name (raw : Text) : Text :=
  raw.filter (· != '"')

/-- A start marker in any mix of cases, giving the name with its quotes. -/
def embeddedStart : Reader Text := do
  let _ ← literalAnyCase startOpening
  quotedName

/-- The name given by the first start marker in `t`, in any mix of cases. -/
def findStart? (t : Text) : Option Text :=
  (embeddedStart.find? t).map fun found => name found.2.value

/-- Whether an end marker stands in `t`, in any mix of cases. -/
def containsStop (t : Text) : Bool :=
  (literalAnyCase endText).occursIn t

end SassVars.SectionMarker
