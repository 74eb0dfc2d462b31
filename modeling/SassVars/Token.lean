import SassVars.SectionMarker
import SassVars.Statement

/-!
# Tokens

What a source is cut into: statements and section markers, with all other text skipped.
A statement whose text swallowed a section marker counts as that marker.
-/

namespace SassVars

open Reader

/-- What to look for in a source. -/
inductive Mode where
  /-- Statements only. -/
  | flat
  /-- Statements and section markers that stand alone. -/
  | structured
deriving DecidableEq

inductive Token where
  /-- The text of a statement, marker comment included. -/
  | declaration (text : Text)
  /-- The name of a section without its quotes, possibly empty. -/
  | sectionStart (name : Text)
  | sectionEnd
deriving DecidableEq

namespace Token

/-- The token of a statement's text. -/
def classify (text : Text) : Token :=
  match SectionMarker.findStart? text with
  | some name => .sectionStart name
  | none => if SectionMarker.containsStop text then .sectionEnd else .declaration text

def ofStatement : Reader Token := do
  return classify (← Statement.reader.consumed)

def ofMarker : Reader Token :=
  (do return .sectionStart (SectionMarker.name (← SectionMarker.start))) <|>
  (do let _ ← SectionMarker.stop; return .sectionEnd)

def reader : Mode → Reader Token
  | .flat => ofStatement
  | .structured => ofStatement <|> ofMarker

theorem read_ofStatement_eq_ok_iff {t : Text} {r : Reading Token} :
    ofStatement.read t = .ok r ↔
      ∃ a, Statement.reader.read t = .ok a ∧ r = ⟨classify a.text, a.text, a.rest⟩ := by
  simp only [ofStatement, read_bind_eq_ok_iff, read_consumed_eq_ok_iff, read_pure,
    Except.ok.injEq]
  constructor
  · rintro ⟨_, _, ⟨a, ha, rfl⟩, rfl, rfl⟩
    exact ⟨a, ha, by simp⟩
  · rintro ⟨a, ha, rfl⟩
    exact ⟨_, _, ⟨a, ha, rfl⟩, rfl, by simp⟩

theorem ofStatement_refuses {c : Char} (h : c ≠ '$') : ofStatement.Refuses c :=
  (((refuses_char h).bind _).bind _).consumed.bind _

/-- A standing marker is a start marker, or an end marker where none starts. -/
theorem read_ofMarker_eq_ok_iff {t : Text} {r : Reading Token} :
    ofMarker.read t = .ok r ↔
      (∃ a, SectionMarker.start.read t = .ok a ∧
        r = ⟨.sectionStart (SectionMarker.name a.value), a.text, a.rest⟩) ∨
      (∀ a, SectionMarker.start.read t ≠ .ok a) ∧
        ∃ a, SectionMarker.stop.read t = .ok a ∧ r = ⟨.sectionEnd, a.text, a.rest⟩ := by
  rw [ofMarker, read_orElse_eq_ok_iff]
  simp only [read_bind, read_pure]
  cases SectionMarker.start.read t <;> cases SectionMarker.stop.read t <;> simp [eq_comm]

theorem ofMarker_refuses {c : Char} (h : c ≠ '@') : ofMarker.Refuses c :=
  .orElse (((refuses_literal h).bind _).bind _) ((refuses_literal h).bind _)

/-- The tokens of a source from left to right, each with the text that it covers. -/
def scan (mode : Mode) (source : Text) : List (Reading Token) :=
  (reader mode).scan source

def list (mode : Mode) (source : Text) : List Token :=
  (scan mode source).map (·.value)

end Token

end SassVars
