import SassVars.Proofs.Grammar.Statement
import SassVars.Scope

/-!
# Documents

A document is a list of section marks and definitions. It can be written out as a
stylesheet, one item behind the other, and it can be sorted into sections directly, without
any text in between.

Every part of a document carries the conditions under which it can be written: no name ends
its own quotes, and no value ends its own definition.

## Main definitions

* `Document.Item`: the start of a section, the end of one, or a definition.
* `Document.render`: a document as a stylesheet.
* `Document.sections`: the sections of a document, read off the items.
-/

namespace SassVars

namespace Document

/-- None of the characters `bad` occurs in `t`. -/
def Avoids (bad : List Char) (t : Text) : Prop :=
  ∀ c ∈ t, c ∉ bad

instance (bad : List Char) (t : Text) : Decidable (Avoids bad t) :=
  List.decidableBAll (· ∉ bad) t

section Avoids

variable {bad : List Char} {s t : Text}

@[simp]
theorem avoids_nil : Avoids bad [] :=
  fun _ h => absurd h (by simp)

@[simp]
theorem avoids_cons {c : Char} : Avoids bad (c :: t) ↔ c ∉ bad ∧ Avoids bad t :=
  List.forall_mem_cons

@[simp]
theorem avoids_append : Avoids bad (s ++ t) ↔ Avoids bad s ∧ Avoids bad t :=
  List.forall_mem_append

theorem Avoids.mono {bad' : List Char} (h : Avoids bad t) (hsub : bad' ⊆ bad) : Avoids bad' t :=
  fun c hc hbad => h c hc (hsub hbad)

theorem Avoids.ne {c d : Char} (h : Avoids bad t) (hc : c ∈ t) (hd : d ∈ bad) : c ≠ d :=
  fun heq => h c hc (heq ▸ hd)

theorem Avoids.not_mem {c : Char} (h : Avoids bad t) (hc : c ∈ bad) : c ∉ t :=
  fun hmem => h c hmem hc

theorem avoids_of_class {p : Char → Bool} (h : t.all p = true) (hbad : bad.any p = false) :
    Avoids bad t := by
  intro c hc hmem
  have hp : p c = true := List.all_eq_true.1 h c hc
  exact List.any_eq_false.1 hbad c hmem hp

end Avoids

/-- The name that starts a section. -/
structure Title where
  name : Text
  name_ne_nil : name ≠ []
  name_clean : Avoids ['"', '{', '}'] name
  name_line : name.any Text.isLineEnd = false

/-- A tag with the text that it attaches to a definition. -/
structure Label where
  tag : Text
  literal : Text
  tag_ne_nil : tag ≠ []
  tag_word : tag.all Text.isWordChar = true
  /-- In any mix of cases this tag would start a section. -/
  tag_ne_subsection : Text.lower tag ≠ "subsection".toList
  literal_ne_nil : literal ≠ []
  literal_clean : Avoids ['"', '@', '!', '{', '}'] literal
  literal_line : literal.any Text.isLineEnd = false

/-- The form of a comment. -/
inductive Style where
  | block
  | line
deriving DecidableEq

/-- A comment with at least one label. -/
structure Note where
  style : Style
  labels : List Label
  labels_ne_nil : labels ≠ []

inductive Flag where
  | default
  | global
deriving DecidableEq

structure Definition where
  name : Text
  value : Text
  flag : Option Flag
  note : Option Note
  name_identifier : IsIdentifier name
  value_not_blank : Text.isBlank value = false
  value_clean : Avoids [';', '{', '}', '@', '!'] value

inductive Item where
  | enter (title : Title)
  | leave
  | define (d : Definition)

/-! ## Writing -/

def Label.written (l : Label) : Text :=
  "@sass-export-".toList ++ (l.tag ++ ("=\"".toList ++ (l.literal ++ "\"".toList)))

/-- Labels in a row, each behind a blank. -/
def writtenLabels (labels : List Label) : Text :=
  labels.flatMap fun l => ' ' :: l.written

def Note.written (n : Note) : Text :=
  match n.style with
  | .block => "/*".toList ++ (writtenLabels n.labels ++ " */".toList)
  | .line => "//".toList ++ writtenLabels n.labels

def Flag.written : Flag → Text
  | .default => " !default".toList
  | .global => " !global".toList

/-- A definition without the end of its line. -/
def Definition.written (d : Definition) : Text :=
  '$' :: (d.name ++ (": ".toList ++ (d.value ++ ((d.flag.map Flag.written).getD [] ++
    ';' :: (d.note.map fun n => ' ' :: n.written).getD []))))

/-- An item on a line of its own. -/
def Item.written : Item → Text
  | .enter title => "// @sass-export-subsection=\"".toList ++ (title.name ++ "\"\n".toList)
  | .leave => "// @end-sass-export-subsection\n".toList
  | .define d => d.written ++ ['\n']

def render (items : List Item) : Text :=
  items.flatMap Item.written

/-! ## Sorting into sections -/

def attachLabels (d : Declaration) (labels : List Label) : Declaration :=
  labels.foldl (fun d l => d.setField l.tag l.literal) d

/-- What a definition stands for. Its labels become fields in their order. -/
def Definition.declared (d : Definition) : Declaration :=
  attachLabels
    (.plain (VariableName.exported d.name) (Declaration.exportedValue d.value))
    ((d.note.map Note.labels).getD [])

def Item.apply (s : Scope) : Item → Scope
  | .enter title => ⟨s.defaultSection, title.name, s.sections.ensure title.name⟩
  | .leave => ⟨s.defaultSection, s.defaultSection, s.sections⟩
  | .define d => ⟨s.defaultSection, s.current, s.sections.push s.current d.declared.expand⟩

/-- The sections of a document. A document without items has none, any other has at least
the default section. -/
def sections (defaultSection : Text) : List Item → Sections
  | [] => Sections.empty
  | items => (items.foldl Item.apply (Scope.start defaultSection)).sections

end Document

end SassVars
