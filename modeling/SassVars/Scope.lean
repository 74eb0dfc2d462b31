import SassVars.Declaration.Expand
import SassVars.Section
import SassVars.Token

/-!
# The active section

Tokens are sorted into sections one by one. A start marker makes its section the active
one, an end marker returns to the default section, and a declaration goes into the section
that is active. Sections do not nest.
-/

namespace SassVars

structure Scope where
  /-- The section outside any pair of markers. -/
  defaultSection : Text
  /-- The section that receives the next declaration. -/
  current : Text
  sections : Sections

namespace Scope

/-- The state before the first token: the default section is there and active. -/
def start (defaultSection : Text) : Scope :=
  ⟨defaultSection, defaultSection, Sections.empty.ensure defaultSection⟩

/-- Make the named section active. A start without a name changes nothing. -/
def enter (s : Scope) (name : Text) : Scope :=
  if name.isEmpty then s else { s with current := name, sections := s.sections.ensure name }

def leave (s : Scope) : Scope :=
  { s with current := s.defaultSection }

/-- Put the declaration of a statement into the active section. A text without one changes
nothing. -/
def add (s : Scope) (text : Text) : Scope :=
  match Declaration.exported? text with
  | some d => { s with sections := s.sections.push s.current d }
  | none => s

def step (s : Scope) : Token → Scope
  | .sectionStart name => s.enter name
  | .sectionEnd => s.leave
  | .declaration text => s.add text

def run (s : Scope) (tokens : List Token) : Scope :=
  tokens.foldl step s

end Scope

end SassVars
