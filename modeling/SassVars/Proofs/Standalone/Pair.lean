import Mathlib.Data.List.Infix
import SassVars.Proofs.Document.Definition
import SassVars.Proofs.Output
import SassVars.Proofs.Standalone.Whole

/-!
# Reading an exported pair again

The name and the value of an exported declaration can be written down as a statement of their
own. Reading that statement gives the value back, since the steps that export a value change
nothing about their own results: it is trimmed, on one line and without quotes already. The name
loses one more `_`, when any is left.

A value that ends in a flag, or that holds a start marker by now, is read as something else.

## Main definitions

* `Declaration.pair`: the statement of a name and a value.
-/

namespace SassVars

open Reader

/-! ## What exporting a value leaves -/

namespace Text

/-- A word on one side of a character that it does not hold. -/
theorem infix_append_cons {w u z : Text} {c : Char} (hc : c ∉ w) (h : w <:+: u ++ c :: z) :
    w <:+: u ∨ w <:+: z := by
  obtain ⟨a, b, heq⟩ := h
  rw [List.append_assoc] at heq
  rcases (append_mid_eq_append_cons_iff hc).1 heq with ⟨y, rfl, _⟩ | ⟨y, _, rfl⟩
  · exact .inl ⟨a, y, by simp⟩
  · exact .inr ⟨y, b, by simp⟩

section Word

variable {w : Text} (hw : ∀ c ∈ w, isSpace c = false)

include hw

/-- Behind space a word starts nowhere earlier. -/
theorem infix_of_append_space {s t : Text} (hs : ∀ c ∈ s, isSpace c = true)
    (h : w <:+: s ++ t) : w <:+: t := by
  induction s with
  | nil => exact h
  | cons c s ih =>
    obtain ⟨hc, hs⟩ := List.forall_mem_cons.1 hs
    have hmem : c ∉ w := fun hmem => by simp [hw c hmem] at hc
    rcases infix_append_cons (u := []) hmem h with h | h
    · rw [List.infix_nil.1 h]
      exact List.nil_infix
    · exact ih hs h

theorem prefix_of_foldLineBreaks {t : Text} (h : w <+: foldLineBreaks t) : w <+: t := by
  fun_induction foldLineBreaks t generalizing w with
  | case1 => exact h
  | case2 c t hc _ =>
    obtain ⟨d, s, hd, hrun⟩ : ∃ d s, isSpace d = true ∧
        foldRun (c :: t.takeWhile isSpace) = d :: s := by
      unfold foldRun
      split
      · exact ⟨' ', [], by decide, rfl⟩
      · exact ⟨c, _, hc, rfl⟩
    rw [hrun, List.cons_append, List.prefix_cons_iff] at h
    obtain rfl | ⟨v, rfl, _⟩ := h
    · exact List.nil_prefix
    · simp [hw d] at hd
  | case3 c t _ ih =>
    obtain rfl | ⟨v, rfl, hv⟩ := List.prefix_cons_iff.1 h
    · exact List.nil_prefix
    · exact List.cons_prefix_cons.2 ⟨rfl, ih (List.forall_mem_cons.1 hw).2 hv⟩

/-- Folding makes no new words. -/
theorem infix_of_foldLineBreaks {t : Text} (h : w <:+: foldLineBreaks t) : w <:+: t := by
  fun_induction foldLineBreaks t with
  | case1 => exact h
  | case2 c t hc ih =>
    have hrun : ∀ d ∈ c :: t.takeWhile isSpace, isSpace d = true :=
      List.forall_mem_cons.2 ⟨hc, (isRun_takeWhile isSpace t).all⟩
    have hfold : ∀ d ∈ foldRun (c :: t.takeWhile isSpace), isSpace d = true := by
      unfold foldRun
      split
      · exact List.all_eq_true.1 rfl
      · exact hrun
    exact List.infix_cons ((ih (infix_of_append_space hw hfold h)).trans
      (List.dropWhile_suffix isSpace).isInfix)
  | case3 c t hc ih =>
    rcases List.infix_cons_iff.1 h with h | h
    · have hcons : foldLineBreaks (c :: t) = c :: foldLineBreaks t := by
        rw [foldLineBreaks.eq_def]
        exact if_neg hc
      rw [← hcons] at h
      exact (prefix_of_foldLineBreaks hw h).isInfix
    · exact List.infix_cons (ih h)

end Word

theorem trim_isInfix (t : Text) : trim t <:+: t :=
  (List.rdropWhile_prefix isSpace (t.dropWhile isSpace)).isInfix.trans
    (List.dropWhile_suffix isSpace).isInfix

theorem unquote_isInfix (t : Text) : unquote t <:+: t := by
  unfold unquote
  split
  · exact List.infix_refl []
  · split
    · exact List.infix_cons (List.dropLast_prefix _).isInfix
    · exact List.infix_refl _

/-- Space has no other case. -/
theorem toLower_of_isSpace {c : Char} (h : isSpace c = true) : c.toLower = c := by
  refine dif_neg fun hupper => ?_
  have hrange : 65 ≤ c.toNat ∧ c.toNat ≤ 90 := hupper
  simp only [isSpace, Bool.or_eq_true, Bool.and_eq_true, decide_eq_true_eq, beq_iff_eq] at h
  omega

end Text

namespace Statement

theorem IsValue.prefix_text {value text rest : Text} (h : IsValue value text rest) :
    value <+: text := by
  cases h with
  | plain h =>
    cases h with
    | topLevel _ _ _ => exact List.prefix_append value [';']
    | inBlock _ _ hflag =>
      obtain ⟨w₁, flag, w₂, rfl, _⟩ := hflag
      exact (List.prefix_append value _).trans (List.prefix_append _ [';'])
  | quoted _ h =>
    obtain ⟨_, _, _, e, _, _, _, _, rfl, _⟩ := h
    exact List.prefix_append value e

/-- The value of a statement stands in its text. -/
theorem value_infix_of_read {t : Text} {r : Reading Statement} (h : reader.read t = .ok r) :
    r.value.value <:+: r.text := by
  obtain ⟨_, head, value, tail, _, hvalue, _, htext⟩ := read_eq_ok_iff.1 h
  rw [htext]
  exact hvalue.prefix_text.isInfix.trans ⟨head, tail, by simp⟩

end Statement

/-! ## End markers -/

namespace SectionMarker

/-- An end marker, in any mix of cases. -/
def IsStop (word : Text) : Prop :=
  Text.lower word = endText

theorem containsStop_iff_isInfix {t : Text} :
    containsStop t = true ↔ ∃ word, IsStop word ∧ word <:+: t := by
  rw [containsStop_iff]
  constructor
  · rintro ⟨a, b, rfl, word, u, hword, rfl⟩
    exact ⟨word, hword, a, u, by simp⟩
  · rintro ⟨word, hword, a, u, rfl⟩
    exact ⟨a, word ++ u, by simp, word, u, hword, rfl⟩

theorem IsStop.not_mem {word : Text} (h : IsStop word) {c : Char} (hlower : c.toLower = c)
    (hc : c ∉ endText) : c ∉ word := by
  intro hmem
  have hlow : c.toLower ∈ Text.lower word := List.mem_map_of_mem hmem
  rw [hlower, h] at hlow
  exact hc hlow

theorem IsStop.not_space {word : Text} (h : IsStop word) : ∀ c ∈ word, Text.isSpace c = false := by
  intro c hc
  refine Bool.eq_false_iff.2 fun hspace => ?_
  refine h.not_mem (Text.toLower_of_isSpace hspace) (fun hmem => ?_) hc
  have hnone : endText.any Text.isSpace = false := by decide
  exact List.any_eq_false.1 hnone c hmem hspace

theorem containsStop_append_semicolon {t : Text} (h : containsStop t = false) :
    containsStop (t ++ [';']) = false := by
  refine Bool.eq_false_iff.2 fun hcontains => ?_
  obtain ⟨word, hword, hwithin⟩ := containsStop_iff_isInfix.1 hcontains
  rcases Text.infix_append_cons (hword.not_mem (by decide) (by decide)) hwithin with hw | hw
  · simp [containsStop_iff_isInfix.2 ⟨word, hword, hw⟩] at h
  · have hempty : Text.lower [] = endText := List.infix_nil.1 hw ▸ hword
    exact absurd hempty (by decide)

end SectionMarker

namespace Declaration

/-- A word without a `;` that is left when a flag is removed was there before. -/
theorem infix_of_withoutFlag {w t : Text} (hw : ';' ∉ w) (h : w <:+: withoutFlag t) :
    w <:+: t := by
  unfold withoutFlag at h
  split at h
  · rename_i before r hfind
    obtain ⟨_, rfl⟩ := find?_eq_some hfind
    rcases Text.infix_append_cons hw h with h | h
    · obtain ⟨v, hbefore, _⟩ := (Text.trimEnd_spec before).1
      rw [hbefore, List.append_assoc]
      exact h.trans (List.prefix_append _ _).isInfix
    · exact h.trans ⟨before ++ r.text, [], by simp⟩
  · exact h

/-- Reading the text of a statement makes no new end marker. -/
theorem not_containsStop_value {text : Text} {d : Declaration} (h : ofText? text = some d)
    (hstop : SectionMarker.containsStop text = false) :
    SectionMarker.containsStop d.value = false := by
  refine Bool.eq_false_iff.2 fun hvalue => ?_
  obtain ⟨word, hword, hwithin⟩ := SectionMarker.containsStop_iff_isInfix.1 hvalue
  obtain ⟨r, hr, rfl⟩ := Option.map_eq_some_iff.1 h
  obtain ⟨before, hfind⟩ := Statement.find?_eq_some_iff.1 hr
  obtain ⟨hread, hsplit⟩ := find?_eq_some hfind
  have hwritten : word <:+: r.value.value := by
    rw [value_ofStatement, exportedValue] at hwithin
    have hfold := Text.infix_of_foldLineBreaks hword.not_space
      (hwithin.trans (Text.unquote_isInfix _))
    exact hfold.trans (Text.trim_isInfix _)
  have hsemi : ';' ∉ word := hword.not_mem (by decide) (by decide)
  have hwithout : word <:+: withoutFlag text := by
    rw [hsplit]
    exact (hwritten.trans (Statement.value_infix_of_read hread)).trans ⟨before, r.rest, by simp⟩
  have hcontains := SectionMarker.containsStop_iff_isInfix.2
    ⟨word, hword, infix_of_withoutFlag hsemi hwithout⟩
  rw [hstop] at hcontains
  contradiction

end Declaration

/-! ## Start markers -/

namespace SectionMarker

/-- A `;` behind a text is no part of a quoted name. -/
theorem throughLast_firstLine_append (t : Text) :
    Text.throughLast '"' (Text.firstLine (t ++ [';'])) =
      Text.throughLast '"' (Text.firstLine t) := by
  have hsemi : [';'].takeWhile (!Text.isLineEnd ·) = [';'] := by decide
  rw [Text.firstLine, List.takeWhile_append, hsemi, Text.firstLine]
  split
  · rename_i hall
    rw [(List.takeWhile_prefix _).eq_of_length hall]
    simp [Text.throughLast]
  · rfl

theorem exists_read_quotedName_iff {t : Text} :
    (∃ r, quotedName.read t = .ok r) ↔
      (Text.throughLast '"' (Text.firstLine t)).head? = some '"' ∧
        3 ≤ (Text.throughLast '"' (Text.firstLine t)).length := by
  simp only [quotedName, read_bind, read_peek, Bool.and_eq_true, beq_iff_eq, decide_eq_true_eq]
  split_ifs with h <;> simp [h]

theorem findStart?_append_semicolon {t : Text} (h : findStart? t = none) :
    findStart? (t ++ [';']) = none := by
  rw [findStart?_eq_none_iff] at h ⊢
  rintro a b raw hsplit ⟨opening, u, r, hopening, rfl, hr, _⟩
  rcases List.eq_nil_or_concat u with rfl | ⟨u, c, rfl⟩
  · have hnil : ¬ ∃ r, quotedName.read [] = .ok r := by
      rw [exists_read_quotedName_iff]
      decide
    exact hnil ⟨r, hr⟩
  · rw [List.concat_eq_append] at hsplit hr
    rw [← List.append_assoc, ← List.append_assoc] at hsplit
    obtain ⟨rfl, hc⟩ := List.append_inj' hsplit rfl
    cases hc
    have hread : ∃ r, quotedName.read u = .ok r := by
      rw [exists_read_quotedName_iff, ← throughLast_firstLine_append, ← exists_read_quotedName_iff]
      exact ⟨r, hr⟩
    obtain ⟨r', hr'⟩ := hread
    exact h a (opening ++ u) r'.value (by simp) ⟨opening, u, r', hopening, rfl, hr', rfl⟩

end SectionMarker

/-! ## Pairs -/

namespace Declaration

/-- The name and the value of a declaration as a statement. -/
def pair (d : Declaration) : Text :=
  '$' :: (d.name ++ (": ".toList ++ (d.value ++ [';'])))

section Pair

variable {d : Declaration} (hname : IsIdentifier d.name)

include hname

theorem read_pair (hblank : Text.isBlank d.value = false) (hsemi : ';' ∉ d.value) :
    Statement.reader.read d.pair =
      .ok ⟨⟨d.name, d.value.dropWhile Text.isLayout, none⟩, d.pair, []⟩ := by
  have hopen : ¬ Statement.ClosesNext ([] ++ []) := by decide
  have hread := Statement.read_of_plain hname hsemi hblank hopen Statement.isTail_nil
  simpa [pair] using hread

theorem withoutFlag_pair (hsemi : ';' ∉ d.value) (hflag : ¬ EndsInFlag d.value) :
    withoutFlag d.pair = d.pair := by
  have hbang : '!' ∉ '$' :: (d.name ++ ": ".toList) := by
    simpa using hname.not_mem (c := '!') (by decide)
  have hclean : ';' ∉ '$' :: (d.name ++ ": ".toList) ++ d.value := by
    have hsemi' := hname.not_mem (c := ';') (by decide)
    simpa [hsemi] using hsemi'
  have hwithout := withoutFlag_of_not_flag hclean (mt (EndsInFlag.of_append hbang) hflag) []
  rw [withoutFlag_of_not_mem (t := []) (by simp)] at hwithout
  simpa [pair] using hwithout

theorem classify_pair (hstart : SectionMarker.findStart? d.value = none)
    (hstop : SectionMarker.containsStop d.value = false) :
    Token.classify d.pair = .declaration d.pair := by
  have hfront : Document.Avoids ['@'] ('$' :: (d.name ++ ": ".toList)) :=
    Document.avoids_cons.2 ⟨by decide,
      Document.avoids_append.2 ⟨Document.avoids_of_class hname.all (by decide), by decide⟩⟩
  have hsplit : d.pair = '$' :: (d.name ++ ": ".toList) ++ (d.value ++ [';']) := by simp [pair]
  have hstart' := SectionMarker.findStart?_append_semicolon hstart
  rw [SectionMarker.findStart?, Option.map_eq_none_iff] at hstart'
  have hstop' := SectionMarker.containsStop_append_semicolon hstop
  rw [SectionMarker.containsStop, occursIn, Option.isSome_eq_false_iff, Option.isNone_iff_eq_none]
    at hstop'
  rw [hsplit]
  exact Token.classify_eq_declaration
    (Document.find?_eq_none_of_avoids (fun _ h => (refuses_literalAnyCase h (by decide)).bind _)
      hfront hstart')
    (Document.find?_eq_none_of_avoids (fun _ h => refuses_literalAnyCase h (by decide)) hfront
      hstop')

end Pair

/-- A declaration of a source comes from the text of a statement without section markers. -/
theorem exists_ofText?_of_mem_declarations {source : Text} {d : Declaration}
    (h : d ∈ Extraction.declarations source) :
    ∃ text c, SectionMarker.containsStop text = false ∧ ofText? text = some c ∧ c.expand = d := by
  obtain ⟨token, htoken, hd⟩ := List.mem_filterMap.1 h
  cases token with
  | declaration text =>
    obtain ⟨span, hyields⟩ := Token.exists_yields_of_mem_list htoken
    obtain ⟨c, hc, rfl⟩ := Option.map_eq_some_iff.1 hd
    have hclass : Token.classify text = .declaration text := by
      cases hyields with
      | statement _ _ _ hclass =>
        cases hclass with
        | declaration hstart hstop => exact (Token.classified_iff.1 (.declaration hstart hstop)).symm
    refine ⟨text, c, ?_, hc, rfl⟩
    rw [Token.classify] at hclass
    grind
  | sectionStart name => simp [Extraction.ofToken?] at hd
  | sectionEnd => simp [Extraction.ofToken?] at hd

/-- A declaration of a source, written as a statement, is extracted again with the same value and
the same map. It must not have become something else: a value that ends in a flag, or one in
which a start marker can be read. The name loses its first `_`, if one is left. -/
theorem declarations_pair {source : Text} {d : Declaration}
    (h : d ∈ Extraction.declarations source) (hblank : Text.isBlank d.value = false)
    (hsemi : ';' ∉ d.value) (htrim : Text.trim d.value = d.value)
    (hunquote : Text.unquote d.value = d.value) (hflag : ¬ EndsInFlag d.value)
    (hstart : SectionMarker.findStart? d.value = none) :
    ∃ e, Extraction.declarations d.pair = [e] ∧ e.name = VariableName.exported d.name ∧
      ('_' ∉ d.name → e.name = d.name) ∧ e.value = d.value ∧ e.map = d.map ∧ e.fields = [] := by
  have hformed := Extraction.isWellFormed_of_mem_tokens h d (by simp)
  obtain ⟨text, c, hstop, hc, rfl⟩ := exists_ofText?_of_mem_declarations h
  have hstop' := not_containsStop_value hc hstop
  rw [← value_expand] at hstop'
  have hvalue : exportedValue c.expand.value = c.expand.value :=
    exportedValue_eq_self htrim hformed.value hunquote
  have hread := read_pair hformed.name hblank hsemi
  have hpair : exported? c.expand.pair =
      some (plain (VariableName.exported c.expand.name) c.expand.value).expand := by
    rw [exported?, ofText?, withoutFlag_pair hformed.name hsemi hflag, Statement.find?,
      find?_of_read hread]
    simp only [Option.map_some, ofStatement, exportedValue_dropWhile_isLayout, hvalue]
    rfl
  refine ⟨_, Extraction.declarations_of_read hread
    (classify_pair hformed.name hstart hstop') hpair, by simp [plain], ?_, by simp [plain], ?_,
    by simp [plain]⟩
  · intro hunder
    rw [name_expand, plain]
    exact List.replace_of_not_mem hunder
  · rw [map_expand rfl, map_expand (map_of_ofText? hc)]
    simp [plain]

/-- A name with one `_` less, a map and a field. -/
def pairSample : Declaration :=
  ⟨"n-x_y".toList, "(k: 1, l: 2)".toList, [⟨"t".toList, "u".toList⟩],
    some [plain "k".toList "1".toList, plain "l".toList "2".toList]⟩

theorem declarations_pair_pairSample :
    pairSample ∈ Extraction.declarations
        "$n_x_y: (k: 1,\n l: 2) !default; /* @sass-export-t=\"u\" */".toList ∧
      ∃ e, Extraction.declarations pairSample.pair = [e] ∧
        e.name = VariableName.exported pairSample.name ∧
        ('_' ∉ pairSample.name → e.name = pairSample.name) ∧ e.value = pairSample.value ∧
        e.map = pairSample.map ∧ e.fields = [] := by
  have hmem : pairSample ∈ Extraction.declarations
      "$n_x_y: (k: 1,\n l: 2) !default; /* @sass-export-t=\"u\" */".toList := by decide +kernel
  have hflag : ¬ EndsInFlag pairSample.value := fun h => absurd h.bang_mem (by decide)
  exact ⟨hmem, declarations_pair hmem (by decide) (by decide) (by decide +kernel) (by decide +kernel)
    hflag (by decide +kernel)⟩

/-- A second `_` goes too, a second flag is removed, and folding a line break can turn a text into
a start marker. -/
theorem not_declarations_pair :
    (Extraction.declarations "$my_var_two: 1;".toList =
        [plain "my-var_two".toList "1".toList] ∧
      Extraction.declarations (plain "my-var_two".toList "1".toList).pair =
        [plain "my-var-two".toList "1".toList]) ∧
    (Extraction.declarations "$a: 1 !default !default;".toList =
        [plain "a".toList "1 !default".toList] ∧
      Extraction.declarations (plain "a".toList "1 !default".toList).pair =
        [plain "a".toList "1".toList]) ∧
    Extraction.declarations "$v: x @sass-export-subsection=\"a\n b\";".toList =
        [plain "v".toList "x @sass-export-subsection=\"a b\"".toList] ∧
      Extraction.declarations
        (plain "v".toList "x @sass-export-subsection=\"a b\"".toList).pair = [] := by
  decide +kernel

end Declaration

end SassVars
