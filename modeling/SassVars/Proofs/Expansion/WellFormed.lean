import SassVars.Proofs.Expansion.Nested
import SassVars.Proofs.Grammar.Statement
import SassVars.Proofs.Text.Folding

/-!
# Well-formed declarations

What is true of every declaration that is read from a text, whatever the text is: of its name,
its value, its fields and its entries. Expansion keeps all of it, so the same is true of every
declaration inside.

## Main definitions

* `Text.IsQuotable`: a text that can stand between double quotes on one line.
* `Field.IsWellFormed`, `Field.AllWellFormed`: one field, and the fields of a declaration.
* `Declaration.IsWellFormed`: a declaration whose entries are those of its value.
-/

namespace SassVars

open Reader

/-! ## Texts -/

namespace Text

/-- A text that is not empty and can stand between double quotes on one line. -/
structure IsQuotable (t : Text) : Prop where
  ne_nil : t ≠ []
  no_quote : '"' ∉ t
  one_line : ∀ c ∈ t, isLineEnd c = false

instance : DecidablePred IsQuotable := fun t =>
  decidable_of_iff (t ≠ [] ∧ '"' ∉ t ∧ t.any isLineEnd = false)
    ⟨fun ⟨hne, hquote, hline⟩ => ⟨hne, hquote, by simpa using hline⟩,
      fun h => ⟨h.ne_nil, h.no_quote, by simpa using h.one_line⟩⟩

theorem mem_of_mem_unquote {c : Char} {t : Text} (h : c ∈ unquote t) : c ∈ t := by
  unfold unquote at h
  split at h
  · exact h
  · split at h
    · exact List.mem_cons_of_mem _ (List.dropLast_subset _ h)
    · exact h

/-- Between characters that are no space nothing is trimmed. -/
theorem trim_eq_self {t : Text} (hhead : ∀ c ∈ t.head?, isSpace c = false)
    (hlast : ∀ c ∈ t.getLast?, isSpace c = false) : trim t = t := by
  have hrun : IsRun isSpace [] t := ⟨by simp, hhead⟩
  have hstart : trimStart t = t := hrun.dropWhile_eq
  rw [trim, hstart, trimEnd_eq_self hlast]

theorem unquote_eq_self {t : Text} (h : ∀ c ∈ t.head?, isQuote c = false) : unquote t = t := by
  cases t with
  | nil => rfl
  | cons c t => simp [unquote, h c rfl]

end Text

/-! ## Names -/

theorem VariableName.mem_exported {c : Char} {name : Text} (h : c ∈ exported name) :
    c ∈ name ∨ c = '-' := by
  unfold exported at h
  induction name with
  | nil => simp at h
  | cons d name ih => grind

theorem VariableName.isIdentifier_exported {name : Text} (h : IsIdentifier name) :
    IsIdentifier (exported name) := by
  obtain ⟨c, cs, rfl, hc, hcs⟩ := h
  by_cases hunder : c = '_'
  · subst hunder
    exact ⟨'-', cs, by grind [exported], by decide, hcs⟩
  · refine ⟨c, exported cs, by grind [exported], hc, fun d hd => ?_⟩
    rcases mem_exported hd with hd | rfl
    · exact hcs d hd
    · decide

/-! ## Fields -/

namespace Field

structure IsWellFormed (f : Field) : Prop where
  tag_ne_nil : f.tag ≠ []
  tag_word : ∀ c ∈ f.tag, Text.isWordChar c = true
  tag_allowed : f.tag ≠ Marker.reservedTag
  value : Text.IsQuotable f.value

/-- Well-formed fields, no two of them with the same tag. -/
structure AllWellFormed (fs : List Field) : Prop where
  each : ∀ f ∈ fs, f.IsWellFormed
  distinct : (fs.map tag).Nodup

theorem mem_set {f : Field} {tag value : Text} {fs : List Field} (h : f ∈ set tag value fs) :
    f = ⟨tag, value⟩ ∨ f ∈ fs := by
  fun_induction set tag value fs <;> grind

theorem tags_set (tag value : Text) (fs : List Field) :
    (set tag value fs).map Field.tag =
      if tag ∈ fs.map Field.tag then fs.map Field.tag else fs.map Field.tag ++ [tag] := by
  fun_induction set tag value fs <;> grind

theorem allWellFormed_nil : AllWellFormed [] :=
  ⟨by simp, by simp⟩

/-- Setting a field keeps the tags distinct, whether the tag is there or not. -/
theorem AllWellFormed.set {fs : List Field} {tag value : Text} (h : AllWellFormed fs)
    (hf : IsWellFormed ⟨tag, value⟩) : AllWellFormed (Field.set tag value fs) where
  each f hmem := by
    rcases mem_set hmem with rfl | hmem
    · exact hf
    · exact h.each f hmem
  distinct := by
    rw [tags_set]
    split
    · exact h.distinct
    · exact List.nodup_append.2 ⟨h.distinct, by simp, by grind⟩

end Field

/-! ## Markers -/

namespace Marker

theorem unquote_literal {inner : Text}
    (h : ∀ c ∈ inner, (c == '"' || Text.isLineEnd c) = false) :
    Text.unquote ('"' :: (inner ++ ['"'])) = inner := by
  have hquote : Text.isQuote '"' = true := by decide
  have hany : inner.any Text.isLineEnd = false := List.any_eq_false.2 (by grind)
  simp [Text.unquote, hquote, hany]

theorem isQuotable_unquote {s : Text} (h : IsLiteral s) : Text.IsQuotable (Text.unquote s) := by
  obtain ⟨inner, hne, hinner, rfl⟩ := h
  rw [unquote_literal hinner]
  exact ⟨hne, fun h => by simpa using hinner _ h, by grind⟩

/-- The field that a marker attaches. -/
theorem IsValid.isWellFormed {m : Marker} (h : m.IsValid) :
    Field.IsWellFormed ⟨m.tag, Text.unquote m.quoted⟩ where
  tag_ne_nil := h.tag_ne_nil
  tag_word := h.tag_word
  tag_allowed := h.tag_allowed
  value := isQuotable_unquote h.quoted

theorem isValid_of_mem_collect {m : Marker} {t : Text} (h : m ∈ collect t) : m.IsValid :=
  MarkerComment.isValid_of_mem_collectFrom h

end Marker

/-! ## Declarations -/

namespace Declaration

structure IsWellFormed (d : Declaration) : Prop where
  name : IsIdentifier d.name
  /-- The value is one line. -/
  value : '\n' ∉ d.value
  fields : Field.AllWellFormed d.fields
  /-- A map is present exactly when the value has entries. -/
  isMap : d.isMap = true ↔ MapLiteral.entries d.value ≠ []
  /-- The entries of the value are all filled in. -/
  expanded : d.expand = d

theorem allWellFormed_attach {d : Declaration} {markers : List Marker}
    (hd : Field.AllWellFormed d.fields) (hmarkers : ∀ m ∈ markers, m.IsValid) :
    Field.AllWellFormed (d.attach markers).fields := by
  unfold attach
  induction markers generalizing d with
  | nil => exact hd
  | cons m ms ih =>
    obtain ⟨hm, hms⟩ := List.forall_mem_cons.1 hmarkers
    exact ih (hd.set hm.isWellFormed) hms

theorem lineFeed_not_mem_exportedValue (value : Text) : '\n' ∉ exportedValue value :=
  fun h => Text.lineFeed_not_mem_foldLineBreaks _ (Text.mem_of_mem_unquote h)

theorem exportedValue_eq_self {value : Text} (htrim : Text.trim value = value)
    (hline : '\n' ∉ value) (hunquote : Text.unquote value = value) :
    exportedValue value = value := by
  rw [exportedValue, htrim, Text.foldLineBreaks_eq_self hline, hunquote]

/-- Layout in front of a value does not show in its exported form. -/
theorem exportedValue_dropWhile_isLayout (value : Text) :
    exportedValue (value.dropWhile Text.isLayout) = exportedValue value := by
  have hlayout : ∀ c ∈ value.takeWhile Text.isLayout, Text.isSpace c = true :=
    fun c hc => Text.isSpace_of_isLayout ((Text.isRun_takeWhile Text.isLayout value).all c hc)
  have htrim := Text.trim_append_of_space_left hlayout (value.dropWhile Text.isLayout)
  rw [List.takeWhile_append_dropWhile] at htrim
  rw [exportedValue, ← htrim, exportedValue]

theorem exportedValue_cons_blank (value : Text) :
    exportedValue (' ' :: value) = exportedValue value := by
  have hblank : Text.isLayout ' ' = true := by decide
  rw [← exportedValue_dropWhile_isLayout (' ' :: value), List.dropWhile_cons_of_pos hblank,
    exportedValue_dropWhile_isLayout]

theorem isIdentifier_of_read {t : Text} {r : Reading Statement}
    (h : Statement.reader.read t = .ok r) : IsIdentifier r.value.name := by
  obtain ⟨_, _, _, _, ⟨_, _, _, ⟨_, _, _, hname, _⟩, _⟩, _⟩ := Statement.read_eq_ok_iff.1 h
  exact hname

@[simp]
theorem expand_expand (d : Declaration) : d.expand.expand = d.expand := by
  rw [expand_eq d.expand, value_expand]
  split
  · rfl
  · rename_i h
    rw [expand_eq d, if_neg h]
    rfl

theorem isMap_expand_iff {d : Declaration} (hmap : d.map = none) :
    d.expand.isMap = true ↔ MapLiteral.entries d.value ≠ [] := by
  rw [expand_eq]
  split
  · rename_i h
    simp [isMap, hmap, List.isEmpty_iff.1 h]
  · rename_i h
    simpa [isMap, withMap] using h

/-- What is read from a text is well formed once it is expanded. -/
theorem isWellFormed_expand {t : Text} {d : Declaration} (h : ofText? t = some d) :
    d.expand.IsWellFormed := by
  have hmap := map_of_ofText? h
  obtain ⟨r, hr, rfl⟩ := Option.map_eq_some_iff.1 h
  obtain ⟨⟨before, r⟩, hfind, rfl⟩ := Option.map_eq_some_iff.1 hr
  have hname := isIdentifier_of_read (find?_eq_some hfind).1
  constructor
  case name => simpa [ofStatement, attach_eq, plain] using VariableName.isIdentifier_exported hname
  case value => simpa [ofStatement, attach_eq, plain] using lineFeed_not_mem_exportedValue _
  case fields =>
    rw [fields_expand]
    refine allWellFormed_attach Field.allWellFormed_nil fun m hm => ?_
    cases hcomment : r.value.comment with
    | none => simp [hcomment] at hm
    | some comment =>
      refine Marker.isValid_of_mem_collect (t := comment) ?_
      simpa [hcomment] using hm
  case isMap => rw [value_expand, isMap_expand_iff hmap]
  case expanded => exact expand_expand _

/-- An exported declaration is well formed, and so is everything inside it. -/
theorem isWellFormed_of_exported? {t : Text} {d : Declaration} (h : exported? t = some d) :
    ∀ n ∈ d :: d.nested, n.IsWellFormed := by
  obtain ⟨c, hc, rfl⟩ := Option.map_eq_some_iff.1 h
  refine List.forall_mem_cons.2 ⟨isWellFormed_expand hc, ?_⟩
  refine forall_mem_nested_expand (fun value e he => ?_) (map_of_ofText? hc)
  obtain ⟨u, hu⟩ := exists_ofText?_of_mem_children he
  exact isWellFormed_expand hu

end Declaration

end SassVars
