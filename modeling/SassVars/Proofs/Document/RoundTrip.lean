import SassVars.Extraction
import SassVars.Proofs.Document.Definition

/-!
# Extraction reads documents back

The sections that extraction finds in a written document are those of the document itself.
Every item becomes one token, whatever items follow it, and the token changes the scope as
the item does.
-/

namespace SassVars

open Reader

namespace Document

/-! ## Section marks -/

theorem StartsItem.written (item : Item) (rest : Text) : StartsItem (item.written ++ rest) := by
  cases item with
  | enter title => exact .comment _
  | leave => exact .comment _
  | define d => exact .definition _

theorem startsItem_render (items : List Item) : StartsItem (render items) := by
  cases items with
  | nil => exact .done
  | cons item items => exact .written item (render items)

/-- Text that starts no token is skipped. -/
theorem list_append_of_avoids {u : Text} (hu : Avoids ['$', '@'] u) (t : Text) :
    Token.list .structured (u ++ t) = Token.list .structured t := by
  have hrefuses : ∀ c ∈ u, (Token.reader .structured).Refuses c := by
    intro c hc
    have hne := hu c hc
    simp only [List.mem_cons, List.not_mem_nil, or_false, not_or] at hne
    exact .orElse (Token.ofStatement_refuses hne.1) (Token.ofMarker_refuses hne.2)
  rw [Token.list, Token.scan, scan_append hrefuses]
  rfl

/-- A token at the start of a text comes first, and the others are found behind it. -/
theorem list_of_read {t : Text} {r : Reading Token}
    (h : (Token.reader .structured).read t = .ok r) (hne : r.text ≠ []) :
    Token.list .structured t = r.value :: Token.list .structured r.rest := by
  rw [Token.list, Token.scan, scan_of_read h hne]
  rfl

/-- A section marker behind the start of a line comment is a token of its own. -/
theorem list_mark {mark rest : Text} {token : Token}
    (h : Token.ofMarker.read ('@' :: mark ++ '\n' :: rest) =
      .ok ⟨token, '@' :: mark, '\n' :: rest⟩) :
    Token.list .structured ("// ".toList ++ ('@' :: mark ++ '\n' :: rest)) =
      token :: Token.list .structured rest := by
  have hread : (Token.reader .structured).read ('@' :: mark ++ '\n' :: rest) =
      .ok ⟨token, '@' :: mark, '\n' :: rest⟩ :=
    read_orElse_eq_ok_iff.2 (.inr ⟨Token.ofStatement_refuses (by decide) _, h⟩)
  have hnewline := list_append_of_avoids (u := ['\n']) (by decide) rest
  rw [list_append_of_avoids (by decide), list_of_read hread (List.cons_ne_nil _ _)]
  exact congrArg _ hnewline

/-- The name of a section as it stands in its mark. -/
def Title.quoted (title : Title) : Text :=
  '"' :: (title.name ++ ['"'])

theorem Title.read_quotedName (title : Title) (rest : Text) :
    SectionMarker.quotedName.read (title.quoted ++ '\n' :: rest) =
      .ok ⟨title.quoted, title.quoted, '\n' :: rest⟩ := by
  have hrun : Text.IsRun (!Text.isLineEnd ·) title.quoted ('\n' :: rest) := by
    refine .of_cons (fun c hc => ?_) (by decide)
    simp only [quoted, List.mem_cons, List.mem_append, List.not_mem_nil, or_false] at hc
    rcases hc with rfl | hc | rfl
    · decide
    · simpa using List.any_eq_false.1 title.name_line c hc
    · decide
  have hline : Text.firstLine (title.quoted ++ '\n' :: rest) = title.quoted := hrun.takeWhile_eq
  have hlast : Text.throughLast '"' title.quoted = title.quoted :=
    Text.throughLast_concat '"' ('"' :: title.name)
  have hlong : 3 ≤ title.quoted.length := by
    have hpos := List.length_pos_iff.2 title.name_ne_nil
    simp only [quoted, List.length_cons, List.length_append, List.length_nil]
    omega
  have hhead : (title.quoted.head? == some '"') = true := rfl
  simp only [SectionMarker.quotedName, read_bind, read_peek, hline, hlast, hhead, hlong,
    decide_true, Bool.and_self, if_true, read_take, List.take_left, List.drop_left,
    List.nil_append]

theorem Title.name_quoted (title : Title) : SectionMarker.name title.quoted = title.name := by
  have hkeep : title.name.filter (· != '"') = title.name := by
    rw [List.filter_eq_self]
    intro c hc
    exact bne_iff_ne.2 (title.name_clean.ne hc (by decide))
  simp [SectionMarker.name, quoted, hkeep]

theorem list_enter (title : Title) (rest : Text) :
    Token.list .structured ((Item.enter title).written ++ rest) =
      .sectionStart title.name :: Token.list .structured rest := by
  have hsplit : (Item.enter title).written ++ rest =
      "// ".toList ++ ((SectionMarker.startOpening ++ title.quoted) ++ '\n' :: rest) := by
    unfold Item.written Title.quoted
    simp only [List.append_assoc, List.cons_append, List.nil_append]
    rfl
  have hstart : SectionMarker.start.read
      ((SectionMarker.startOpening ++ title.quoted) ++ '\n' :: rest) =
        .ok ⟨title.quoted, SectionMarker.startOpening ++ title.quoted, '\n' :: rest⟩ := by
    simp only [SectionMarker.start, read_bind, List.append_assoc, read_literal_append,
      title.read_quotedName]
  have hmark : Token.ofMarker.read
      ((SectionMarker.startOpening ++ title.quoted) ++ '\n' :: rest) =
        .ok ⟨.sectionStart title.name, SectionMarker.startOpening ++ title.quoted,
          '\n' :: rest⟩ :=
    Token.read_ofMarker_eq_ok_iff.2 (.inl ⟨_, hstart, by rw [title.name_quoted]⟩)
  rw [hsplit]
  exact list_mark hmark

theorem list_leave (rest : Text) :
    Token.list .structured (Item.leave.written ++ rest) =
      .sectionEnd :: Token.list .structured rest := by
  have hsplit : Item.leave.written ++ rest =
      "// ".toList ++ (SectionMarker.endText ++ '\n' :: rest) := rfl
  have hstart : ∀ a, SectionMarker.start.read (SectionMarker.endText ++ '\n' :: rest) ≠ .ok a := by
    intro a ha
    obtain ⟨_, _, hopening, _⟩ := read_bind_eq_ok_iff.1 ha
    obtain ⟨u, heq, _⟩ := read_literal_eq_ok_iff.1 hopening
    have hsecond : some 'e' = some 's' := congrArg (fun t : Text => t[1]?) heq
    exact absurd hsecond (by decide)
  rw [hsplit]
  exact list_mark (Token.read_ofMarker_eq_ok_iff.2
    (.inr ⟨hstart, _, read_literal_append SectionMarker.endText ('\n' :: rest), rfl⟩))

/-! ## Definitions -/

theorem list_define (d : Definition) {rest : Text} (hstart : StartsItem rest)
    (hrest : Avoids ['{', '}'] rest) :
    Token.list .structured ((Item.define d).written ++ rest) =
      .declaration d.text :: Token.list .structured rest := by
  have hsplit : (Item.define d).written ++ rest = d.text ++ (d.left ++ rest) := by
    rw [← d.written_append]
    exact List.append_assoc d.written ['\n'] rest
  have hread : (Token.reader .structured).read (d.text ++ (d.left ++ rest)) =
      .ok ⟨.declaration d.text, d.text, d.left ++ rest⟩ := by
    refine read_orElse_of_ok (Token.read_ofStatement_eq_ok_iff.2 ⟨_, d.read_text hstart hrest, ?_⟩)
    rw [d.classify_text]
  rw [hsplit, list_of_read hread (by simp [Definition.text]),
    list_append_of_avoids (d.avoids_left.mono (by decide))]

/-! ## Documents -/

theorem Item.avoids_written (item : Item) : Avoids ['{', '}'] item.written := by
  cases item with
  | enter title =>
    unfold Item.written
    exact avoids_append.2 ⟨by decide,
      avoids_append.2 ⟨title.name_clean.mono (by decide), by decide⟩⟩
  | leave => decide
  | define d =>
    have hsplit : (Item.define d).written = d.text ++ (d.left ++ []) := d.written_append []
    rw [hsplit, List.append_nil]
    exact avoids_append.2 ⟨d.avoids_text, d.avoids_left.mono (by decide)⟩

theorem avoids_render (items : List Item) : Avoids ['{', '}'] (render items) := by
  induction items with
  | nil => exact avoids_nil
  | cons item items ih => exact avoids_append.2 ⟨item.avoids_written, ih⟩

/-- One item is one token, which changes the scope as the item does. -/
theorem list_written (item : Item) {rest : Text} (hstart : StartsItem rest)
    (hrest : Avoids ['{', '}'] rest) :
    ∃ token, Token.list .structured (item.written ++ rest) =
        token :: Token.list .structured rest ∧
      ∀ s : Scope, s.step token = item.apply s := by
  cases item with
  | enter title =>
    refine ⟨_, list_enter title rest, fun s => ?_⟩
    have hname : title.name.isEmpty = false := by simpa using title.name_ne_nil
    simp [Scope.step, Scope.enter, hname, Item.apply]
  | leave => exact ⟨_, list_leave rest, fun s => rfl⟩
  | define d =>
    refine ⟨_, list_define d hstart hrest, fun s => ?_⟩
    have hexported : Declaration.exported? d.text = some d.declared.expand := by
      rw [Declaration.exported?, d.ofText?_text]
      rfl
    simp [Scope.step, Scope.add, hexported, Item.apply]

theorem list_nil : Token.list .structured [] = [] := by
  simp [Token.list, Token.scan, scan]

theorem run_render (items : List Item) (s : Scope) :
    s.run (Token.list .structured (render items)) = items.foldl Item.apply s := by
  induction items generalizing s with
  | nil =>
    rw [render, List.flatMap_nil, list_nil]
    rfl
  | cons item items ih =>
    obtain ⟨token, hlist, hstep⟩ :=
      list_written item (startsItem_render items) (avoids_render items)
    rw [render, List.flatMap_cons, ← render, hlist, Scope.run, List.foldl_cons, hstep,
      List.foldl_cons, ← ih]
    rfl

/-- The sections that are extracted from a written document are those of the document. -/
theorem sections_render (defaultSection : Text) (items : List Item) :
    Extraction.sections ⟨defaultSection⟩ (render items) = sections defaultSection items := by
  cases items with
  | nil =>
    rw [render, List.flatMap_nil, Extraction.sections, list_nil]
    rfl
  | cons item items =>
    have hrun := run_render (item :: items) (Scope.start defaultSection)
    obtain ⟨token, hlist, _⟩ :=
      list_written item (startsItem_render items) (avoids_render items)
    have hcons : Token.list .structured (render (item :: items)) =
        token :: Token.list .structured (render items) := hlist
    rw [hcons] at hrun
    rw [Extraction.sections, hcons]
    exact congrArg Scope.sections hrun

def brandSample : Title :=
  ⟨"brand".toList, by decide, by decide, by decide⟩

/-- A block note with two labels. -/
def blockSample : Note :=
  ⟨.block,
    [⟨"alias".toList, "Brand Blue".toList, by decide, by decide, by decide, by decide, by decide,
        by decide⟩,
      ⟨"use".toList, "text".toList, by decide, by decide, by decide, by decide, by decide,
        by decide⟩],
    by simp⟩

def lineSample : Note :=
  ⟨.line,
    [⟨"unit".toList, "px; or em".toList, by decide, by decide, by decide, by decide, by decide,
      by decide⟩],
    by simp⟩

def blueSample : Definition where
  name := "main_blue".toList
  value := "#00f".toList
  flag := some .default
  note := some blockSample
  name_identifier := ⟨'m', "ain_blue".toList, rfl, rfl, List.all_eq_true.1 rfl⟩
  value_not_blank := by decide
  value_clean := by decide

def gapSample : Definition where
  name := "gap".toList
  value := "4px".toList
  flag := none
  note := some lineSample
  name_identifier := ⟨'g', "ap".toList, rfl, rfl, List.all_eq_true.1 rfl⟩
  value_not_blank := by decide
  value_clean := by decide

def sizesSample : Definition where
  name := "sizes".toList
  value := "(small: 1, large: 2)".toList
  flag := some .global
  note := none
  name_identifier := ⟨'s', "izes".toList, rfl, rfl, List.all_eq_true.1 rfl⟩
  value_not_blank := by decide
  value_clean := by decide

/-- A section that is opened twice, with a definition in between that belongs to none. -/
def documentSample : List Item :=
  [.enter brandSample, .define blueSample, .leave, .define gapSample, .enter brandSample,
    .define sizesSample]

/-- The document as it is written. -/
def sourceSample : Text :=
  "// @sass-export-subsection=\"brand\"\n".toList ++
    ("$main_blue: #00f !default; ".toList ++
    ("/* @sass-export-alias=\"Brand Blue\" @sass-export-use=\"text\" */\n".toList ++
    ("// @end-sass-export-subsection\n".toList ++
    ("$gap: 4px; // @sass-export-unit=\"px; or em\"\n".toList ++
    ("// @sass-export-subsection=\"brand\"\n".toList ++
    "$sizes: (small: 1, large: 2) !global;\n".toList)))))

/-- Both definitions of the section come together under its name. -/
theorem sections_render_sample :
    (Extraction.sections ⟨"variables".toList⟩ sourceSample).toList =
      [⟨"variables".toList,
          [⟨"gap".toList, "4px".toList, [⟨"unit".toList, "px; or em".toList⟩], none⟩]⟩,
        ⟨"brand".toList,
          [⟨"main-blue".toList, "#00f".toList,
              [⟨"alias".toList, "Brand Blue".toList⟩, ⟨"use".toList, "text".toList⟩], none⟩,
            (Declaration.plain "sizes".toList "(small: 1, large: 2)".toList).withMap
              [.plain "small".toList "1".toList, .plain "large".toList "2".toList]]⟩] := by
  have hsource : sourceSample = render documentSample := by decide +kernel
  rw [hsource, sections_render]
  decide +kernel

end Document

end SassVars
