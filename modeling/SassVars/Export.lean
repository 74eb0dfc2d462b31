import SassVars.Json
import SassVars.Section

/-!
# Exported form

Declarations and sections as JSON. A declaration is an object with its name, its value, its
fields and, for a map, its entries; sections are an object with one member per section.
-/

namespace SassVars

/-- Why an export can fail. The encoders here are total; a destination that cannot take
their text reports this cause. -/
inductive ExportError where
  | encoding
deriving DecidableEq

def ExportError.message : ExportError → Text
  | .encoding => "failed to encode declarations as JSON".toList

def Field.toMember (f : Field) : Text × Json :=
  (f.key, .string f.value)

namespace Declaration

mutual

def toJson : Declaration → Json
  | ⟨name, value, fields, map⟩ =>
    .object (("name".toList, .string name) :: ("value".toList, .string value) ::
      fields.map Field.toMember ++ mapMember map)

/-- The member for the entries, absent unless the declaration is a map. -/
def mapMember : Option (List Declaration) → List (Text × Json)
  | none => []
  | some ds => [("mapValue".toList, .array (listToJson ds))]

def listToJson : List Declaration → List Json
  | [] => []
  | d :: ds => toJson d :: listToJson ds

end

theorem listToJson_eq_map (ds : List Declaration) : listToJson ds = ds.map toJson := by
  induction ds with
  | nil => rfl
  | cons d ds ih => simp [listToJson, ih]

/-- A list of declarations as an array. -/
def arrayToJson (ds : List Declaration) : Json :=
  .array (ds.map toJson)

end Declaration

def Section.toMember (s : Section) : Text × Json :=
  (s.name, Declaration.arrayToJson s.declarations)

def Sections.toJson (s : Sections) : Json :=
  .object (s.toList.map Section.toMember)

end SassVars
