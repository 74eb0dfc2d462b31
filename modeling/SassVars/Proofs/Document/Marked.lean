import SassVars.Extraction
import SassVars.Proofs.Document.Definition
import SassVars.Proofs.Scan.Tokens

/-!
# The text of a marker

A definition with a marker behind it is read twice before the marker is. Both readings look at
the text of the marker: its next brace tells whether a block ends in front of it, and a flag is
removed wherever it stands. A text that means nothing to either shows in the field of the marker
and nowhere else.

## Main definitions

* `Document.Definition.marked`: a definition with one marker in a block comment behind it.
* `Document.IsHarmless`: a text that only the marker takes for something.
-/

namespace SassVars

open Reader

namespace Document

/-! ## Markers in a comment -/

/-- The tag of a marker that starts no section, in any mix of cases. -/
structure IsTag (tag : Text) : Prop where
  ne_nil : tag ≠ []
  word : ∀ c ∈ tag, Text.isWordChar c = true
  ne_subsection : Text.lower tag ≠ "subsection".toList

instance : DecidablePred IsTag := fun tag =>
  decidable_of_iff
    (tag ≠ [] ∧ tag.all Text.isWordChar = true ∧ Text.lower tag ≠ "subsection".toList)
    ⟨fun ⟨hne, hword, htag⟩ => ⟨hne, List.all_eq_true.1 hword, htag⟩,
      fun h => ⟨h.ne_nil, List.all_eq_true.2 h.word, h.ne_subsection⟩⟩

/-- The text of a marker that the readings in front of it take for nothing else. -/
structure IsHarmless (flag : Option Flag) (literal : Text) : Prop where
  quotable : Text.IsQuotable literal
  no_at : '@' ∉ literal
  not_closes : ¬ Statement.ClosesNext literal
  /-- The flag of the definition comes first, and no other one is removed. -/
  no_flag : flag = none → ¬ Declaration.HoldsFlag literal

def marker (tag literal : Text) : Marker :=
  ⟨tag, '"' :: (literal ++ ['"'])⟩

/-- A block comment with one marker. -/
def blockOf (m : Marker) : Text :=
  "/* ".toList ++ (m.written ++ " */".toList)

/-- A block comment up to the text of its marker, behind a blank. -/
def blockFront (tag : Text) : Text :=
  " /* @sass-export-".toList ++ (tag ++ ['='])

theorem blockOf_marker (tag literal : Text) :
    ' ' :: blockOf (marker tag literal) =
      blockFront tag ++ '"' :: (literal ++ '"' :: " */".toList) := by
  unfold blockOf blockFront marker Marker.written
  simp only [List.append_assoc, List.cons_append, List.nil_append]
  rfl

section Comment

variable {tag literal : Text}

theorem IsTag.isValid_marker (ht : IsTag tag) (hl : Text.IsQuotable literal) :
    (marker tag literal).IsValid where
  tag_ne_nil := ht.ne_nil
  tag_word := ht.word
  tag_allowed h := ht.ne_subsection (by
    have htag : tag = Marker.reservedTag := h
    rw [htag]
    decide)
  quoted := by
    refine ⟨literal, hl.ne_nil, fun c hc => ?_, rfl⟩
    have hne : c ≠ '"' := fun h => hl.no_quote (h ▸ hc)
    simp [hne, hl.one_line c hc]

theorem unquote_marker (hl : Text.IsQuotable literal) :
    Text.unquote (marker tag literal).quoted = literal := by
  have hline : literal.any Text.isLineEnd = false := by simpa using hl.one_line
  simp [marker, Text.unquote, hline, Text.isQuote]

theorem isBlock_blockOf {m : Marker} (hm : m.IsValid) :
    MarkerComment.IsBlock [m] (blockOf m) := by
  refine ⟨[' '] ++ (m.written ++ []), [' '], .cons ?_ hm .nil, List.all_eq_true.1 rfl, ?_⟩
  · exact List.all_eq_true.1 rfl
  · simp [blockOf]

theorem IsTag.avoids_blockFront (ht : IsTag tag) : Avoids ['{', '}', '!', '"'] (blockFront tag) :=
  avoids_append.2 ⟨by decide,
    avoids_append.2 ⟨avoids_of_class (List.all_eq_true.2 ht.word) (by decide), by decide⟩⟩

/-- The next brace of the comment is the one of its marker's text. -/
theorem IsTag.closesNext_blockOf (ht : IsTag tag) :
    Statement.ClosesNext (' ' :: blockOf (marker tag literal)) ↔
      Statement.ClosesNext literal := by
  have hfront : (blockFront tag ++ ['"']).filter Text.isBrace = [] := by
    refine List.filter_eq_nil_iff.2 fun c hc => ?_
    have hclean : Avoids ['{', '}'] (blockFront tag ++ ['"']) :=
      avoids_append.2 ⟨ht.avoids_blockFront.mono (by decide), by decide⟩
    have hne := hclean c hc
    simp only [List.mem_cons, List.not_mem_nil, or_false, not_or] at hne
    simp [Text.isBrace, hne]
  have hsplit : ' ' :: blockOf (marker tag literal) =
      (blockFront tag ++ ['"']) ++ (literal ++ '"' :: " */".toList) := by
    simp [blockOf_marker]
  rw [hsplit, Statement.closesNext_append hfront, Statement.closesNext_append_of_not (by decide)]

/-- In the comment a flag can only stand in the text of the marker. -/
theorem IsTag.withoutFlag_blockOf (ht : IsTag tag) (hl : ¬ Declaration.HoldsFlag literal) :
    Declaration.withoutFlag (' ' :: blockOf (marker tag literal)) =
      ' ' :: blockOf (marker tag literal) := by
  have hfront : ¬ Declaration.HoldsFlag (blockFront tag) :=
    Declaration.not_holdsFlag_of_not_mem fun hbang => ht.avoids_blockFront '!' hbang (by simp)
  have hend : Declaration.withoutFlag " */".toList = " */".toList :=
    Declaration.withoutFlag_of_not_mem (by decide)
  rw [blockOf_marker, Declaration.withoutFlag_append_quote_of_not hfront,
    Declaration.withoutFlag_append_quote_of_not hl, hend]

end Comment

/-! ## Definitions with a marker behind them -/

/-- A statement with one marker in a block comment. -/
def withBlock (name value : Text) (m : Marker) : Text :=
  '$' :: (name ++ (": ".toList ++ (value ++ ';' :: ' ' :: blockOf m)))

/-- A definition with a marker behind it in place of its own note. -/
def Definition.marked (d : Definition) (m : Marker) : Text :=
  withBlock d.name d.flagged m

theorem read_withBlock {name value : Text} {m : Marker} (hname : IsIdentifier name)
    (hvalue : Avoids [';'] value) (hblank : Text.isBlank value = false) (hm : m.IsValid)
    (hopen : ¬ Statement.ClosesNext (' ' :: blockOf m)) :
    Statement.reader.read (withBlock name value m) =
      .ok ⟨⟨name, value.dropWhile Text.isLayout, some (blockOf m)⟩, withBlock name value m,
        []⟩ := by
  have htail : Statement.IsTail (some (blockOf m)) ([' '] ++ blockOf m) [] :=
    .block (List.all_eq_true.1 rfl) (isBlock_blockOf hm)
  have hread := Statement.read_of_plain hname (hvalue.not_mem (by simp)) hblank
    (by rwa [List.append_nil]) htail
  rwa [List.append_nil] at hread

namespace Definition

variable {tag literal : Text}

section Find

variable {α : Type} {p : Reader α} (hp : ∀ c, c ≠ '@' → p.Refuses c) (hnil : p.find? [] = none)

include hp hnil

/-- What the marker does not start is nowhere in the text. -/
theorem find?_marked (d : Definition) (ht : IsTag tag) (hat : '@' ∉ literal)
    (hfails : ∀ t r, p.read ((marker tag literal).written ++ t) ≠ .ok r) :
    p.find? (d.marked (marker tag literal)) = none := by
  have hsplit : d.marked (marker tag literal) =
      ('$' :: (d.name ++ (": ".toList ++ (d.flagged ++ [';']))) ++ " /* ".toList) ++
        ((marker tag literal).written ++ " */".toList) := by
    simp [marked, withBlock, blockOf]
  have hwritten : (marker tag literal).written =
      '@' :: ("sass-export-".toList ++ (tag ++ '=' :: '"' :: (literal ++ ['"']))) := rfl
  have htag : Avoids ['@'] tag := avoids_of_class (List.all_eq_true.2 ht.word) (by decide)
  have hliteral : Avoids ['@'] literal :=
    fun c hc hbad => hat (List.mem_singleton.1 hbad ▸ hc)
  have hbody : Avoids ['@']
      ("sass-export-".toList ++ (tag ++ '=' :: '"' :: (literal ++ ['"'])) ++ " */".toList) := by
    simp only [avoids_append, avoids_cons]
    exact ⟨⟨by decide, htag, by decide, by decide, hliteral, by decide, avoids_nil⟩, by decide⟩
  have hrest := find?_eq_none_of_avoids hp hbody hnil
  rw [List.append_nil] at hrest
  have hfront : Avoids ['@']
      ('$' :: (d.name ++ (": ".toList ++ (d.flagged ++ [';']))) ++ " /* ".toList) :=
    avoids_append.2 ⟨d.avoids_front, by decide⟩
  rw [hsplit]
  refine find?_eq_none_of_avoids hp hfront ?_
  have hat := hfails " */".toList
  rw [hwritten, List.cons_append] at hat ⊢
  rw [find?_cons_of_fails hat, hrest]
  rfl

end Find

theorem classify_marked (d : Definition) (ht : IsTag tag) (hat : '@' ∉ literal) :
    Token.classify (d.marked (marker tag literal)) =
      .declaration (d.marked (marker tag literal)) :=
  Token.classify_eq_declaration
    (d.find?_marked (fun _ h => (refuses_literalAnyCase h (by decide)).bind _) rfl ht hat
      (Marker.not_embeddedStart ht.word ht.ne_subsection))
    (d.find?_marked (fun _ h => refuses_literalAnyCase h (by decide)) rfl ht hat
      (marker tag literal).not_embeddedStop)

/-- What a definition stands for with one field of that tag and text. -/
def withField (d : Definition) (tag literal : Text) : Declaration :=
  ⟨VariableName.exported d.name, Declaration.exportedValue d.value, [⟨tag, literal⟩], none⟩

theorem ofText?_marked (d : Definition) (ht : IsTag tag) (hl : IsHarmless d.flag literal) :
    Declaration.ofText? (d.marked (marker tag literal)) = some (d.withField tag literal) := by
  have hflag : Declaration.withoutFlag (d.marked (marker tag literal)) =
      withBlock d.name d.bare (marker tag literal) :=
    d.withoutFlag_flagged fun h => ht.withoutFlag_blockOf (hl.no_flag h)
  have hvalid := ht.isValid_marker hl.quotable
  have hread := read_withBlock d.name_identifier d.avoids_bare d.isBlank_bare hvalid
    (mt ht.closesNext_blockOf.1 hl.not_closes)
  have hcollect := MarkerComment.collect_of_isBlock (isBlock_blockOf hvalid)
  have hunquote : Text.unquote (marker tag literal).quoted = literal := unquote_marker hl.quotable
  rw [Declaration.ofText?, hflag, Statement.find?, find?_of_read hread]
  simp only [Option.map_some, Declaration.ofStatement, exportedValue_bare, hcollect,
    Option.getD_some, Declaration.attach_eq, List.foldl_cons, List.foldl_nil, hunquote]
  rfl

/-- A definition with a harmless marker behind it is all that is extracted. -/
theorem declarations_marked (d : Definition) (ht : IsTag tag) (hl : IsHarmless d.flag literal) :
    Extraction.declarations (d.marked (marker tag literal)) =
      [(d.withField tag literal).expand] := by
  have hblank : Text.isBlank d.flagged = false := by
    rw [flagged, Text.isBlank_append, d.value_not_blank, Bool.false_and]
  have hread := read_withBlock d.name_identifier (d.avoids_flagged.mono (by decide)) hblank
    (ht.isValid_marker hl.quotable) (mt ht.closesNext_blockOf.1 hl.not_closes)
  have hexported : Declaration.exported? (d.marked (marker tag literal)) =
      some (d.withField tag literal).expand := by
    rw [Declaration.exported?, d.ofText?_marked ht hl]
    rfl
  exact Extraction.declarations_of_read hread (d.classify_marked ht hl.no_at) hexported

end Definition

/-- The text of a marker shows in its field and nowhere else: with either of two harmless texts
one declaration is extracted, and the two differ in that field alone. -/
theorem declarations_marked_congr (d : Definition) {tag l₁ l₂ : Text} (htag : IsTag tag)
    (h₁ : IsHarmless d.flag l₁) (h₂ : IsHarmless d.flag l₂) :
    ∃ e₁ e₂, Extraction.declarations (d.marked (marker tag l₁)) = [e₁] ∧
      Extraction.declarations (d.marked (marker tag l₂)) = [e₂] ∧
      e₁.name = e₂.name ∧ e₁.value = e₂.value ∧ e₁.map = e₂.map ∧
      e₁.fields = [⟨tag, l₁⟩] ∧ e₂.fields = [⟨tag, l₂⟩] := by
  refine ⟨_, _, d.declarations_marked htag h₁, d.declarations_marked htag h₂, ?_, ?_, ?_, ?_, ?_⟩
  case refine_3 =>
    rw [Declaration.map_expand rfl, Declaration.map_expand rfl]
    rfl
  all_goals simp [Definition.withField]

/-- `$a_b: 1 2 !default;` -/
def flaggedSample : Definition :=
  ⟨"a_b".toList, "1 2".toList, some .default, none,
    ⟨'a', "_b".toList, rfl, by decide, List.all_eq_true.1 rfl⟩, by decide, by decide⟩

/-- Behind a flag a text may hold another flag. -/
theorem declarations_marked_congr_flaggedSample :
    IsTag "x".toList ∧ IsHarmless flaggedSample.flag "y".toList ∧
      IsHarmless flaggedSample.flag "\x7b $c: 2 !global; */".toList ∧
      ∃ e₁ e₂, Extraction.declarations (flaggedSample.marked (marker "x".toList "y".toList)) = [e₁] ∧
        Extraction.declarations
          (flaggedSample.marked (marker "x".toList "\x7b $c: 2 !global; */".toList)) = [e₂] ∧
        e₁.name = e₂.name ∧ e₁.value = e₂.value ∧ e₁.map = e₂.map ∧
        e₁.fields = [⟨"x".toList, "y".toList⟩] ∧
        e₂.fields = [⟨"x".toList, "\x7b $c: 2 !global; */".toList⟩] := by
  have htag : IsTag "x".toList := by decide
  have hword : IsHarmless flaggedSample.flag "y".toList :=
    ⟨by decide, by decide, by decide, nofun⟩
  have hflag : IsHarmless flaggedSample.flag "\x7b $c: 2 !global; */".toList :=
    ⟨by decide, by decide, by decide, nofun⟩
  exact ⟨htag, hword, hflag, declarations_marked_congr flaggedSample htag hword hflag⟩

/-- `$a: 1;` -/
def plainSample : Definition :=
  ⟨"a".toList, "1".toList, none, none, ⟨'a', [], rfl, by decide, by simp⟩, by decide, by decide⟩

/-- A closing brace in the marker ends a block for the reading in front of it, which takes the
definition for a local one. -/
theorem not_declarations_marked_congr :
    plainSample.marked (marker "x".toList "\x7d".toList) =
        "$a: 1; /* @sass-export-x=\"\x7d\" */".toList ∧
      IsTag "x".toList ∧ Text.IsQuotable "\x7d".toList ∧ '@' ∉ "\x7d".toList ∧
      Extraction.declarations (plainSample.marked (marker "x".toList "\x7d".toList)) = [] ∧
      Extraction.declarations (plainSample.marked (marker "x".toList "y".toList)) =
        [⟨"a".toList, "1".toList, [⟨"x".toList, "y".toList⟩], none⟩] :=
  ⟨by decide, by decide, by decide, by decide, by decide +kernel, by decide +kernel⟩

end Document

end SassVars
