import SassVars.Extraction

/-!
# Journal

What an extraction decided on its way, as a list of events: statements taken for section
markers, texts dropped because they hold no declaration, sections entered and left, and at
the end the size of the result.

A flat extraction handles each token as soon as it is found. A structured one finds all
tokens first, so its events come in two rounds.
-/

namespace SassVars

inductive Level where
  | trace
  | debug
deriving DecidableEq

inductive Event where
  /-- A statement holds a start marker and counts as that marker. -/
  | embeddedStart (text : Text)
  /-- A statement holds an end marker and counts as that marker. -/
  | embeddedEnd (text : Text)
  /-- A text holds no declaration. -/
  | dropped (text : Text)
  /-- A flat extraction passes over a start marker. -/
  | skippedStart (name : Text)
  /-- A flat extraction passes over an end marker. -/
  | skippedEnd
  /-- A start marker without a name is ignored. -/
  | unnamedStart
  | entered (name : Text)
  | left (name : Text)
  | declarationCount (n : Nat)
  | sectionCount (n : Nat)
deriving DecidableEq

namespace Event

/-- Counts are for debugging; all else is traced. -/
def level : Event → Level
  | .declarationCount _ => .debug
  | .sectionCount _ => .debug
  | _ => .trace

/-- A character inside a quoted message text. Control characters other than tab and the line
ends are written by their number. -/
def quoteChar (c : Char) : Text :=
  if c == '"' then ['\\', '"']
  else if c == '\\' then ['\\', '\\']
  else if c == '\n' then ['\\', 'n']
  else if c == '\r' then ['\\', 'r']
  else if c == '\t' then ['\\', 't']
  else if c.toNat == 0 then ['\\', '0']
  else if c.toNat < 0x20 || c.toNat == 0x7F then
    ['\\', 'u', '{'] ++ Nat.toDigits 16 c.toNat ++ ['}']
  else [c]

def quote (t : Text) : Text :=
  '"' :: t.flatMap quoteChar ++ ['"']

def message : Event → Text
  | .embeddedStart text => "declaration text embeds a section start: ".toList ++ quote text
  | .embeddedEnd text => "declaration text embeds a section end: ".toList ++ quote text
  | .dropped text => "dropping unparseable declaration: ".toList ++ quote text
  | .skippedStart name =>
    "skipping section marker in flat mode: SectionStart(".toList ++ quote name ++ [')']
  | .skippedEnd => "skipping section marker in flat mode: SectionEnd".toList
  | .unnamedStart => "ignoring section start without a name".toList
  | .entered name => "entering section ".toList ++ quote name
  | .left name => "leaving section ".toList ++ quote name
  | .declarationCount n => "extracted ".toList ++ Nat.toDigits 10 n ++ " declarations".toList
  | .sectionCount n => "extracted ".toList ++ Nat.toDigits 10 n ++ " sections".toList

end Event

namespace Journal

/-- The events of finding a token: a marker that is found at a `$` was embedded. -/
def found (r : Reading Token) : List Event :=
  if r.text.head? == some '$' then
    match r.value with
    | .sectionStart _ => [.embeddedStart r.text]
    | .sectionEnd => [.embeddedEnd r.text]
    | .declaration _ => []
  else []

theorem mem_children_of_mem_entries {value : Text} {r : Reading MapLiteral.Entry}
    {c : Declaration} (hr : r ∈ MapLiteral.entries value)
    (hc : Declaration.ofText? (MapLiteral.asStatement r.text) = some c) :
    c ∈ Declaration.children value :=
  List.mem_filterMap.2 ⟨r, hr, hc⟩

/-- The entries that are dropped while a value is expanded, at every depth. -/
def expanded (value : Text) : List Event :=
  (MapLiteral.entries value).attach.flatMap fun r =>
    match _h : Declaration.ofText? (MapLiteral.asStatement r.1.text) with
    | none => [.dropped (MapLiteral.asStatement r.1.text)]
    | some c => expanded c.value
termination_by Text.byteLength value
decreasing_by
  have := Declaration.byteLength_value_add_two_le (mem_children_of_mem_entries r.2 _h)
  omega

/-- The events of exporting the declaration of a statement's text. -/
def exported (text : Text) : List Event :=
  match Declaration.ofText? text with
  | none => [.dropped text]
  | some d => expanded d.value

/-- The events of a token in a flat extraction. -/
def flatToken : Token → List Event
  | .declaration text => exported text
  | .sectionStart name => [.skippedStart name]
  | .sectionEnd => [.skippedEnd]

/-- The events of a token that is sorted into a section. -/
def step (s : Scope) : Token → List Event
  | .declaration text => exported text
  | .sectionStart name => if name.isEmpty then [.unnamedStart] else [.entered name]
  | .sectionEnd => [.left s.current]

def run (s : Scope) : List Token → List Event
  | [] => []
  | token :: tokens => step s token ++ run (s.step token) tokens

def ofDeclarations (source : Text) : List Event :=
  (Token.scan .flat source).flatMap (fun r => found r ++ flatToken r.value) ++
    [.declarationCount (Extraction.declarations source).length]

/-- A source without any token leaves no trace. -/
def ofSections (config : Config) (source : Text) : List Event :=
  match Token.scan .structured source with
  | [] => []
  | readings =>
    readings.flatMap found ++
      run (Scope.start config.defaultSection) (readings.map (·.value)) ++
      [.sectionCount (Extraction.sections config source).size]

end Journal

end SassVars
