import SassVars.Export
import SassVars.Scope

/-!
# Extraction

The two ways to extract the declarations of a stylesheet: as one list in the order of the
source, or grouped by the sections that its markers name.
-/

namespace SassVars

/-- Settings of an extraction. -/
structure Config where
  /-- The section of declarations outside any pair of markers. -/
  defaultSection : Text

/-- The name of the default section unless another one is set. -/
def Config.standardSection : Text := "variables".toList

def Config.standard : Config := ⟨standardSection⟩

namespace Extraction

/-- The declaration that a token stands for, if it is one. -/
def ofToken? : Token → Option Declaration
  | .declaration text => Declaration.exported? text
  | .sectionStart _ => none
  | .sectionEnd => none

/-- All declarations in the order of the source. -/
def declarations (source : Text) : List Declaration :=
  (Token.list .flat source).filterMap ofToken?

/-- The declarations grouped by section. A source without any token has no section; any
other has at least the default one. -/
def sections (config : Config) (source : Text) : Sections :=
  match Token.list .structured source with
  | [] => Sections.empty
  | tokens => ((Scope.start config.defaultSection).run tokens).sections

def declarationsJson (source : Text) : Text :=
  (Declaration.arrayToJson (declarations source)).compact

def sectionsJson (config : Config) (source : Text) : Text :=
  (sections config source).toJson.compact

def sectionsPrettyJson (config : Config) (source : Text) : Text :=
  (sections config source).toJson.pretty

end Extraction

end SassVars
