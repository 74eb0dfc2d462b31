import Mathlib.Data.List.Infix
import SassVars.Proofs.Scoping

/-!
# Flat and structured extraction

A structured scan stops at more places than a flat one and skips the text of every standing
marker. Where no start marker spans a `$` it still visits every `$` that the flat scan
visits, so both find the same statements.
-/

namespace SassVars

open Reader

/-- No start marker spans a `$`, wherever in `source` one is read. -/
def SectionMarker.SpansNoDollar (source : Text) : Prop :=
  ∀ rest, rest <:+ source → ∀ r, start.read rest = .ok r → '$' ∉ r.text

instance (source : Text) : Decidable (SectionMarker.SpansNoDollar source) :=
  decidable_of_iff
    (∀ rest ∈ source.tails, ∀ r ∈ SectionMarker.start.read? rest, '$' ∉ r.text) <| by
    simp [SectionMarker.SpansNoDollar, read?_eq_some_iff, List.mem_tails]

theorem SectionMarker.SpansNoDollar.suffix {source rest : Text} (h : SpansNoDollar source)
    (hrest : rest <:+ source) : SpansNoDollar rest :=
  fun inner hinner => h inner (hinner.trans hrest)

namespace Token

def isDeclaration : Token → Bool
  | .declaration _ => true
  | .sectionStart _ => false
  | .sectionEnd => false

/-- Whether a reading stands at the `@` of a marker. -/
def atMarker (r : Reading Token) : Bool :=
  r.text.head? == some '@'

theorem atMarker_ofStatement {t : Text} {r : Reading Token} (h : ofStatement.read t = .ok r) :
    atMarker r = false := by
  obtain ⟨a, ha, rfl⟩ := read_ofStatement_eq_ok_iff.1 h
  simp [atMarker, Statement.text_head? ha]

theorem atMarker_ofMarker {t : Text} {r : Reading Token} (h : ofMarker.read t = .ok r) :
    atMarker r = true := by
  rcases read_ofMarker_eq_ok_iff.1 h with ⟨a, ha, rfl⟩ | ⟨_, a, ha, rfl⟩
  · simp [atMarker, SectionMarker.start_text_head? ha]
  · simp only [atMarker, SectionMarker.stop_text ha]
    rfl

theorem isDeclaration_ofMarker {t : Text} {r : Reading Token} (h : ofMarker.read t = .ok r) :
    isDeclaration r.value = false := by
  rcases read_ofMarker_eq_ok_iff.1 h with ⟨a, ha, rfl⟩ | ⟨_, a, ha, rfl⟩ <;> rfl

/-- A standing marker hides no statement from a structured scan. -/
theorem dollar_not_mem_ofMarker {t : Text} (hspan : SectionMarker.SpansNoDollar t)
    {r : Reading Token} (h : ofMarker.read t = .ok r) : '$' ∉ r.text := by
  rcases read_ofMarker_eq_ok_iff.1 h with ⟨a, ha, rfl⟩ | ⟨_, a, ha, rfl⟩
  · exact hspan t (List.suffix_refl t) a ha
  · simp only [SectionMarker.stop_text ha]
    decide

theorem text_ne_nil {mode : Mode} {t : Text} {r : Reading Token}
    (h : (reader mode).read t = .ok r) : r.text ≠ [] := by
  have hstatement {r : Reading Token} (h : ofStatement.read t = .ok r) : r.text ≠ [] := by
    obtain ⟨a, ha, rfl⟩ := read_ofStatement_eq_ok_iff.1 h
    exact Statement.text_ne_nil ha
  cases mode with
  | flat => exact hstatement h
  | structured =>
    rcases read_orElse_eq_ok h with h | h
    · exact hstatement h
    · exact fun hnil => by simpa [atMarker, hnil] using atMarker_ofMarker h

/-- A scan reads a statement wherever the other one does, and the flat scan passes over the
text of a marker without finding any. -/
theorem scan_flat_eq_filter {source : Text} (h : SectionMarker.SpansNoDollar source) :
    scan .flat source = (scan .structured source).filter (!atMarker ·) := by
  unfold scan
  fun_induction Reader.scan (reader .structured) source with
  | case1 => simp [Reader.scan]
  | case2 c t r hr _ ih =>
    have hread := read?_eq_some_iff.1 hr
    have hsplit := (reader .structured).split hread
    have hscan := ih (h.suffix ⟨r.text, hsplit.symm⟩)
    rcases read_orElse_eq_ok hread with hstatement | hmarker
    · have hflat : (reader .flat).read (c :: t) = .ok r := hstatement
      rw [scan_of_read hflat (text_ne_nil hread), hscan, List.filter_cons]
      simp [atMarker_ofStatement hstatement]
    · have hskip : ∀ d ∈ r.text, (reader .flat).Refuses d := fun d hd =>
        ofStatement_refuses fun hdollar => dollar_not_mem_ofMarker h hmarker (hdollar ▸ hd)
      rw [hsplit, scan_append hskip, hscan, List.filter_cons]
      simp [atMarker_ofMarker hmarker]
  | case3 c t r hr hlong _ =>
    have hread := read?_eq_some_iff.1 hr
    have hpos := List.length_pos_iff.2 (text_ne_nil hread)
    have hlen := congrArg List.length ((reader .structured).split hread)
    simp only [List.length_cons, List.length_append] at hlen
    omega
  | case4 c t hr ih =>
    have hflat : ∀ r, (reader .flat).read (c :: t) ≠ .ok r := fun r hread =>
      read?_eq_none_iff.1 hr r (read_orElse_of_ok hread)
    rw [scan_cons_of_fails hflat]
    exact ih (h.suffix (List.suffix_cons c t))

theorem isDeclaration_of_mem_scan {source : Text} {r : Reading Token}
    (hr : r ∈ scan .structured source) (hmarker : atMarker r = true) :
    isDeclaration r.value = false := by
  rcases read_orElse_eq_ok (read_of_mem_scan hr) with h | h
  · simp [atMarker_ofStatement h] at hmarker
  · exact isDeclaration_ofMarker h

/-- A marker that the flat scan passes over is no declaration. -/
theorem list_filter_isDeclaration {source : Text} (h : SectionMarker.SpansNoDollar source) :
    (list .flat source).filter isDeclaration =
      (list .structured source).filter isDeclaration := by
  rw [list, list, scan_flat_eq_filter h, List.filter_map, List.filter_map, List.filter_filter]
  congr 1
  refine List.filter_congr fun r hr => ?_
  cases hmarker : atMarker r with
  | true => simp [isDeclaration_of_mem_scan hr hmarker]
  | false => simp

theorem filterMap_ofToken?_filter (tokens : List Token) :
    (tokens.filter isDeclaration).filterMap Extraction.ofToken? =
      tokens.filterMap Extraction.ofToken? := by
  rw [List.filterMap_filter]
  refine List.filterMap_congr fun token _ => ?_
  cases token <;> rfl

theorem declarationsIn_sublist (d x : Text) (tokens : List Token) :
    (declarationsIn d x tokens).Sublist (tokens.filterMap Extraction.ofToken?) := by
  induction tokens using List.reverseRecOn with
  | nil => exact .refl _
  | append_singleton tokens token ih =>
    rw [declarationsIn_concat, List.filterMap_append]
    refine ih.append ?_
    split
    · cases h : Extraction.ofToken? token <;> simp [h]
    · exact List.nil_sublist _

end Token

namespace Extraction

theorem declarations_eq_structured {source : Text}
    (h : SectionMarker.SpansNoDollar source) :
    declarations source = (Token.list .structured source).filterMap ofToken? := by
  rw [declarations, ← Token.filterMap_ofToken?_filter, Token.list_filter_isDeclaration h,
    Token.filterMap_ofToken?_filter]

/-- The sections of a source are those of its tokens, also when there are none. -/
theorem sections_declarations_perm (d source : Text) :
    (sections ⟨d⟩ source).declarations.Perm
      ((Token.list .structured source).filterMap ofToken?) := by
  cases htokens : Token.list .structured source with
  | nil => simp [sections, htokens, Sections.declarations, Sections.empty]
  | cons token tokens =>
    simpa [sections, htokens] using (Scope.follows_run d (token :: tokens)).total

theorem section_sublist {d source : Text} {s : Section}
    (hs : s ∈ (sections ⟨d⟩ source).toList) :
    s.declarations.Sublist ((Token.list .structured source).filterMap ofToken?) := by
  cases htokens : Token.list .structured source with
  | nil => simp [sections, htokens, Sections.empty] at hs
  | cons token tokens =>
    have hget := Sections.get?_of_mem hs
    have hcontents := (Scope.follows_run d (token :: tokens)).contents s.name
    simp only [sections, htokens] at hget
    rw [hget, Option.getD_some] at hcontents
    exact hcontents ▸ Token.declarationsIn_sublist d s.name _

end Extraction

/-- Where no start marker spans a `$`, the flat tokens are the structured ones without the
standing markers. So both modes find the same statements, and the sections of a source share
out the declarations of its flat extraction, each section in their order. -/
theorem flat_agrees_with_structured (source : Text)
    (h : SectionMarker.SpansNoDollar source) :
    Token.scan .flat source = (Token.scan .structured source).filter (!Token.atMarker ·) ∧
    (Token.list .flat source).filter Token.isDeclaration =
      (Token.list .structured source).filter Token.isDeclaration ∧
    ∀ d : Text,
      (Extraction.declarations source).Perm (Extraction.sections ⟨d⟩ source).declarations ∧
      ∀ s ∈ (Extraction.sections ⟨d⟩ source).toList,
        s.declarations.Sublist (Extraction.declarations source) := by
  refine ⟨Token.scan_flat_eq_filter h, Token.list_filter_isDeclaration h,
    fun d => ⟨?_, fun s hs => ?_⟩⟩
  · rw [Extraction.declarations_eq_structured h]
    exact (Extraction.sections_declarations_perm d source).symm
  · rw [Extraction.declarations_eq_structured h]
    exact Extraction.section_sublist hs

/-- Two sections and a declaration outside of them. -/
def sampleSource : Text :=
  ("$a: 1;\n// @sass-export-subsection=\"B\"\n$b: 2;\n// @end-sass-export-subsection\n" ++
    "$c: 3; // @sass-export-subsection=\"D\"\n$d: 4;").toList

theorem flat_agrees_with_structured_sample :
    SectionMarker.SpansNoDollar sampleSource ∧
    Token.scan .flat sampleSource =
      (Token.scan .structured sampleSource).filter (!Token.atMarker ·) ∧
    (Extraction.declarations sampleSource).Perm
      (Extraction.sections .standard sampleSource).declarations :=
  have hspan : SectionMarker.SpansNoDollar sampleSource := by decide +kernel
  have h := flat_agrees_with_structured sampleSource hspan
  ⟨hspan, h.1, (h.2.2 Config.standardSection).1⟩

end SassVars
