import SassVars.Text.Character

/-!
# Declarations

The exported form of a variable: its name and value, the fields that its markers
attached, and the entries of its value when that is a map literal.

The value always holds the whole text, also beside the entries of a map.
-/

namespace SassVars

/-- A piece of metadata that a marker attached. -/
structure Field where
  tag : Text
  value : Text
deriving DecidableEq

namespace Field

/-- What the exported key of every field starts with. -/
def keyOpening : Text := "extend_".toList

/-- The key that the field is exported under. -/
def key (f : Field) : Text :=
  keyOpening ++ f.tag

/-- Give the field `tag` a value: the first field of that tag is overwritten in its place,
and without one a new field is added at the end. -/
def set (tag value : Text) : List Field → List Field
  | [] => [⟨tag, value⟩]
  | f :: fs => if f.tag = tag then ⟨tag, value⟩ :: fs else f :: set tag value fs

/-- The value of the first field of that tag. -/
def get? (tag : Text) (fs : List Field) : Option Text :=
  (fs.find? (·.tag == tag)).map (·.value)

theorem get?_set_self (tag value : Text) (fs : List Field) :
    get? tag (set tag value fs) = some value := by
  induction fs with
  | nil => simp [set, get?]
  | cons f fs ih =>
    by_cases h : f.tag = tag
    · simp [set, get?, h]
    · simp only [get?] at ih
      simp [set, get?, h, ih]

theorem get?_set_of_ne {tag other : Text} (h : tag ≠ other) (value : Text) (fs : List Field) :
    get? other (set tag value fs) = get? other fs := by
  induction fs with
  | nil => simp [set, get?, h]
  | cons f fs ih =>
    by_cases hf : f.tag = tag
    · subst hf
      simp [set, get?, h]
    · by_cases ho : f.tag = other
      · simp [set, get?, ho, Ne.symm h]
      · simp only [get?] at ih
        simp [set, get?, hf, ho, ih]

end Field

structure Declaration where
  name : Text
  value : Text
  /-- Fields in the order in which their tags were first seen. -/
  fields : List Field
  /-- The entries of a map literal in the order of the source. -/
  map : Option (List Declaration)

namespace Declaration

/-- A declaration without fields and without a map. -/
def plain (name value : Text) : Declaration :=
  ⟨name, value, [], none⟩

def setField (d : Declaration) (tag value : Text) : Declaration :=
  { d with fields := Field.set tag value d.fields }

/-- Add a field at the end, also when its tag is taken. -/
def addField (d : Declaration) (f : Field) : Declaration :=
  { d with fields := d.fields ++ [f] }

def field? (d : Declaration) (tag : Text) : Option Text :=
  Field.get? tag d.fields

def withMap (d : Declaration) (entries : List Declaration) : Declaration :=
  { d with map := some entries }

/-- The entries of the map, none for any other value. -/
def entries (d : Declaration) : List Declaration :=
  d.map.getD []

def isMap (d : Declaration) : Bool :=
  d.map.isSome

@[simp]
theorem field?_setField (d : Declaration) (tag value : Text) :
    (d.setField tag value).field? tag = some value :=
  Field.get?_set_self tag value d.fields

/-! ## Equality -/

mutual

/-- Whether two declarations agree in every part, entry by entry. -/
def same : Declaration → Declaration → Bool
  | ⟨n, v, fs, m⟩, ⟨n', v', fs', m'⟩ => n == n' && v == v' && fs == fs' && sameMap m m'

def sameMap : Option (List Declaration) → Option (List Declaration) → Bool
  | none, none => true
  | some ds, some ds' => sameList ds ds'
  | _, _ => false

def sameList : List Declaration → List Declaration → Bool
  | [], [] => true
  | d :: ds, d' :: ds' => same d d' && sameList ds ds'
  | _, _ => false

end

mutual

theorem same_iff : ∀ d e : Declaration, same d e = true ↔ d = e
  | ⟨n, v, fs, m⟩, ⟨n', v', fs', m'⟩ => by
    simp [same, sameMap_iff m m', and_assoc]

theorem sameMap_iff : ∀ m m' : Option (List Declaration), sameMap m m' = true ↔ m = m'
  | none, none => by simp [sameMap]
  | some ds, some ds' => by simp [sameMap, sameList_iff ds ds']
  | none, some _ => by simp [sameMap]
  | some _, none => by simp [sameMap]

theorem sameList_iff : ∀ ds es : List Declaration, sameList ds es = true ↔ ds = es
  | [], [] => by simp [sameList]
  | d :: ds, e :: es => by simp [sameList, same_iff d e, sameList_iff ds es]
  | [], _ :: _ => by simp [sameList]
  | _ :: _, [] => by simp [sameList]

end

instance : DecidableEq Declaration := fun d e =>
  decidable_of_iff (same d e = true) (same_iff d e)

end Declaration

end SassVars
