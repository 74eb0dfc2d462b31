import SassVars.Proofs.Grammar.Statement
import SassVars.Proofs.Modes
import SassVars.Proofs.Scan.Leftmost

/-!
# The tokens of a source

A source is cut into tokens by a leftmost scan. What stands at a span is said here in terms
of statements and markers, and what a statement counts as in terms of the markers in it.

## Main definitions

* `Token.Classified`: what a statement counts as.
* `Token.IsTokenization`: the spans and tokens of a source, said without a scanner.
* `Statement.findAll`: search by search, each behind the last finding.
-/

namespace SassVars

open Reader

/-! ## What a statement counts as -/

namespace SectionMarker

/-- A start marker in any mix of cases starts `t`, with `raw` as its quoted name. -/
def StartsAt (raw t : Text) : Prop :=
  ∃ opening u r, Text.lower opening = startOpening ∧ t = opening ++ u ∧
    quotedName.read u = .ok r ∧ r.value = raw

/-- An end marker in any mix of cases starts `t`. -/
def StopsAt (t : Text) : Prop :=
  ∃ word u, Text.lower word = endText ∧ t = word ++ u

theorem exists_read_embeddedStart_iff {t raw : Text} :
    (∃ r, embeddedStart.read t = .ok r ∧ r.value = raw) ↔ StartsAt raw t := by
  simp only [embeddedStart, read_bind_eq_ok_iff, read_literalAnyCase_eq_ok_iff]
  constructor
  · rintro ⟨_, ⟨_, r, ⟨opening, u, hopening, rfl, rfl⟩, hr, rfl⟩, rfl⟩
    exact ⟨opening, u, r, hopening, rfl, hr, rfl⟩
  · rintro ⟨opening, u, r, hopening, rfl, hr, rfl⟩
    exact ⟨_, ⟨_, r, ⟨opening, u, hopening, rfl, rfl⟩, hr, rfl⟩, rfl⟩

theorem findStart?_eq_none_iff {t : Text} :
    findStart? t = none ↔ ∀ a b raw, t = a ++ b → ¬ StartsAt raw b := by
  rw [findStart?, Option.map_eq_none_iff, find?_eq_none_iff]
  constructor
  · intro h a b raw hsplit hstart
    obtain ⟨r, hr, _⟩ := exists_read_embeddedStart_iff.2 hstart
    exact h a b hsplit r hr
  · intro h a b hsplit r hr
    exact h a b r.value hsplit (exists_read_embeddedStart_iff.1 ⟨r, hr, rfl⟩)

/-- The name that is found is the one of the first start marker. -/
theorem findStart?_eq_some_iff {t title : Text} :
    findStart? t = some title ↔ ∃ a b raw, t = a ++ b ∧ StartsAt raw b ∧
      (∀ a' b' raw', t = a' ++ b' → StartsAt raw' b' → a.length ≤ a'.length) ∧
      title = name raw := by
  constructor
  · intro h
    rw [findStart?, Option.map_eq_some_iff] at h
    obtain ⟨⟨before, r⟩, hfind, rfl⟩ := h
    obtain ⟨hsplit, hread, _⟩ := find?_eq_some_iff.1 hfind
    refine ⟨before, _, r.value, hsplit, exists_read_embeddedStart_iff.1 ⟨r, hread, rfl⟩, ?_, rfl⟩
    intro a' b' raw' hsplit' hstart
    obtain ⟨r', hr', _⟩ := exists_read_embeddedStart_iff.2 hstart
    exact length_le_of_find? hfind hsplit' hr'
  · rintro ⟨a, b, raw, hsplit, hstart, hfirst, rfl⟩
    obtain ⟨r, hr, rfl⟩ := exists_read_embeddedStart_iff.2 hstart
    rw [findStart?]
    cases hfind : embeddedStart.find? t with
    | none => exact absurd hr (find?_eq_none_iff.1 hfind a b hsplit r)
    | some found =>
      obtain ⟨before, r'⟩ := found
      obtain ⟨hsplit', hread, _⟩ := find?_eq_some_iff.1 hfind
      have hlen := Nat.le_antisymm (length_le_of_find? hfind hsplit hr)
        (hfirst before _ _ hsplit' (exists_read_embeddedStart_iff.1 ⟨r', hread, rfl⟩))
      obtain ⟨rfl, hrest⟩ := List.append_inj (hsplit'.symm.trans hsplit) hlen
      rw [hrest, hr] at hread
      cases hread
      rfl

theorem containsStop_iff {t : Text} :
    containsStop t = true ↔ ∃ a b, t = a ++ b ∧ StopsAt b := by
  simp only [containsStop, occursIn_iff, read_literalAnyCase_eq_ok_iff, StopsAt]
  constructor
  · rintro ⟨a, b, _, hsplit, word, u, hword, hb, _⟩
    exact ⟨a, b, hsplit, word, u, hword, hb⟩
  · rintro ⟨a, b, hsplit, word, u, hword, hb⟩
    exact ⟨a, b, _, hsplit, word, u, hword, hb, rfl⟩

end SectionMarker

namespace Token

open SectionMarker (StartsAt StopsAt)

/-- What the text of a statement counts as: the first start marker in it, else an end marker
in it, else a declaration. -/
inductive Classified (text : Text) : Token → Prop where
  | sectionStart {a b raw : Text} (hsplit : text = a ++ b) (hstart : StartsAt raw b)
      (hfirst : ∀ a' b' raw', text = a' ++ b' → StartsAt raw' b' → a.length ≤ a'.length) :
      Classified text (.sectionStart (SectionMarker.name raw))
  | sectionEnd {a b : Text} (hstart : ∀ a b raw, text = a ++ b → ¬ StartsAt raw b)
      (hsplit : text = a ++ b) (hstop : StopsAt b) : Classified text .sectionEnd
  | declaration (hstart : ∀ a b raw, text = a ++ b → ¬ StartsAt raw b)
      (hstop : ∀ a b, text = a ++ b → ¬ StopsAt b) : Classified text (.declaration text)

theorem classified_iff {text : Text} {token : Token} :
    Classified text token ↔ token = classify text := by
  constructor
  · intro h
    cases h with
    | sectionStart hsplit hstart hfirst =>
      have hname := SectionMarker.findStart?_eq_some_iff.2 ⟨_, _, _, hsplit, hstart, hfirst, rfl⟩
      rw [classify, hname]
    | sectionEnd hstart hsplit hstop =>
      rw [classify, SectionMarker.findStart?_eq_none_iff.2 hstart]
      exact (if_pos (SectionMarker.containsStop_iff.2 ⟨_, _, hsplit, hstop⟩)).symm
    | declaration hstart hstop =>
      rw [classify, SectionMarker.findStart?_eq_none_iff.2 hstart]
      refine (if_neg fun hcontains => ?_).symm
      obtain ⟨a, b, hsplit, h⟩ := SectionMarker.containsStop_iff.1 hcontains
      exact hstop a b hsplit h
  · rintro rfl
    unfold classify
    split
    · rename_i title htitle
      obtain ⟨a, b, raw, hsplit, hstart, hfirst, rfl⟩ :=
        SectionMarker.findStart?_eq_some_iff.1 htitle
      exact .sectionStart hsplit hstart hfirst
    · rename_i hnone
      have hstart := SectionMarker.findStart?_eq_none_iff.1 hnone
      split
      · rename_i hcontains
        obtain ⟨a, b, hsplit, hstop⟩ := SectionMarker.containsStop_iff.1 hcontains
        exact .sectionEnd hstart hsplit hstop
      · rename_i hcontains
        exact .declaration hstart fun a b hsplit hstop =>
          hcontains (SectionMarker.containsStop_iff.2 ⟨a, b, hsplit, hstop⟩)

/-! ## Tokens with their spans -/

/-- A token with its span: a statement at a `$`, or a standing marker at an `@` when these
are looked for. -/
inductive Yields (mode : Mode) (source : Text) : Span → Token → Prop where
  | statement {before : Text} {m : Reading Statement} {token : Token}
      (hsplit : source = before ++ (m.text ++ m.rest))
      (hm : Statement.atByte? source (Text.byteLength before) = .ok (some m))
      (hdollar : m.text.head? = some '$') (htoken : Classified m.text token) :
      Yields mode source (.behind before m.text) token
  | sectionStart {before : Text} {m : Reading Text} (hmode : mode = .structured)
      (hsplit : source = before ++ (m.text ++ m.rest))
      (hm : SectionMarker.start.read (m.text ++ m.rest) = .ok m)
      (hat : m.text.head? = some '@') :
      Yields mode source (.behind before m.text) (.sectionStart (SectionMarker.name m.value))
  | sectionEnd {before : Text} {m : Reading Text} (hmode : mode = .structured)
      (hsplit : source = before ++ (m.text ++ m.rest))
      (hstart : ∀ r, SectionMarker.start.read (m.text ++ m.rest) ≠ .ok r)
      (hm : SectionMarker.stop.read (m.text ++ m.rest) = .ok m)
      (hat : m.text.head? = some '@') :
      Yields mode source (.behind before m.text) .sectionEnd

/-- The spans and tokens of a source: in the order of the source and without overlap, with
nothing to be read at any place outside. -/
structure IsTokenization (mode : Mode) (source : Text) (spans : List Span)
    (tokens : List Token) : Prop where
  yields : List.Forall₂ (Yields mode source) spans tokens
  nonempty : ∀ s ∈ spans, s.start < s.stop
  ordered : spans.Pairwise fun s t => s.stop ≤ t.start
  skipped : ∀ before rest, source = before ++ rest →
    (∀ s ∈ spans, Text.byteLength before < s.start ∨ s.stop ≤ Text.byteLength before) →
    Statement.atByte? source (Text.byteLength before) = .ok none ∧
      (mode = .structured → (∀ r, SectionMarker.start.read rest ≠ .ok r) ∧
        ∀ r, SectionMarker.stop.read rest ≠ .ok r)

theorem isProductive_reader (mode : Mode) : (reader mode).IsProductive :=
  fun _ _ => text_ne_nil

/-- A statement is looked for first, but no marker can stand where one does. -/
theorem read_reader_eq_ok_iff {mode : Mode} {t : Text} {r : Reading Token} :
    (reader mode).read t = .ok r ↔
      (∃ m, Statement.reader.read t = .ok m ∧ r = ⟨classify m.text, m.text, m.rest⟩) ∨
        mode = .structured ∧ ofMarker.read t = .ok r := by
  have hmarker (h : ofMarker.read t = .ok r) (s : Reading Token) : ofStatement.read t ≠ .ok s := by
    cases t with
    | nil =>
      have hnil : r.text = [] := (List.append_eq_nil_iff.1 (ofMarker.split h).symm).1
      have hat := atMarker_ofMarker h
      simp [atMarker, hnil] at hat
    | cons c t =>
      intro hs
      by_cases hc : c = '$'
      · exact ofMarker_refuses (by rw [hc]; decide) t r h
      · exact ofStatement_refuses hc t s hs
  rw [← read_ofStatement_eq_ok_iff]
  cases mode with
  | flat => simp [reader]
  | structured =>
    simp only [reader, read_orElse_eq_ok_iff, true_and]
    exact or_congr_right ⟨And.right, fun h => ⟨hmarker h, h⟩⟩

theorem ofMarker_fails_iff {t : Text} :
    (∀ r, ofMarker.read t ≠ .ok r) ↔
      (∀ r, SectionMarker.start.read t ≠ .ok r) ∧ ∀ r, SectionMarker.stop.read t ≠ .ok r := by
  constructor
  · intro h
    have hstart : ∀ r, SectionMarker.start.read t ≠ .ok r :=
      fun r hr => h _ (read_ofMarker_eq_ok_iff.2 (.inl ⟨r, hr, rfl⟩))
    exact ⟨hstart, fun r hr => h _ (read_ofMarker_eq_ok_iff.2 (.inr ⟨hstart, r, hr, rfl⟩))⟩
  · rintro ⟨hstart, hstop⟩ r hr
    rcases read_ofMarker_eq_ok_iff.1 hr with ⟨a, ha, _⟩ | ⟨_, a, ha, _⟩
    · exact hstart a ha
    · exact hstop a ha

theorem reader_fails_iff {mode : Mode} {t : Text} :
    (∀ r, (reader mode).read t ≠ .ok r) ↔
      Statement.reader.read? t = none ∧
        (mode = .structured → (∀ r, SectionMarker.start.read t ≠ .ok r) ∧
          ∀ r, SectionMarker.stop.read t ≠ .ok r) := by
  rw [read?_eq_none_iff]
  constructor
  · intro h
    refine ⟨fun m hm => h _ (read_reader_eq_ok_iff.2 (.inl ⟨m, hm, rfl⟩)), fun hmode => ?_⟩
    exact ofMarker_fails_iff.1 fun r hr => h r (read_reader_eq_ok_iff.2 (.inr ⟨hmode, hr⟩))
  · rintro ⟨hstatement, hmarker⟩ r hr
    rcases read_reader_eq_ok_iff.1 hr with ⟨m, hm, _⟩ | ⟨hmode, hr⟩
    · exact hstatement m hm
    · exact ofMarker_fails_iff.2 (hmarker hmode) r hr

theorem yields_iff {mode : Mode} {source : Text} {span : Span} {token : Token} :
    Yields mode source span token ↔ ReadsAt (reader mode) source span token := by
  constructor
  · intro h
    cases h with
    | @statement before m token hsplit hm _ htoken =>
      rw [hsplit, Statement.atByte?_append, Except.ok.injEq, read?_eq_some_iff] at hm
      exact ⟨before, ⟨classify m.text, m.text, m.rest⟩, hsplit,
        read_reader_eq_ok_iff.2 (.inl ⟨m, hm, rfl⟩), rfl, classified_iff.1 htoken⟩
    | @sectionStart before m hmode hsplit hm _ =>
      exact ⟨before, ⟨_, m.text, m.rest⟩, hsplit, read_reader_eq_ok_iff.2
        (.inr ⟨hmode, read_ofMarker_eq_ok_iff.2 (.inl ⟨m, hm, rfl⟩)⟩), rfl, rfl⟩
    | @sectionEnd before m hmode hsplit hstart hm _ =>
      exact ⟨before, ⟨_, m.text, m.rest⟩, hsplit, read_reader_eq_ok_iff.2
        (.inr ⟨hmode, read_ofMarker_eq_ok_iff.2 (.inr ⟨hstart, m, hm, rfl⟩)⟩), rfl, rfl⟩
  · rintro ⟨before, r, hsplit, hr, rfl, rfl⟩
    rcases read_reader_eq_ok_iff.1 hr with ⟨m, hm, rfl⟩ | ⟨hmode, hr⟩
    · refine .statement hsplit ?_ (Statement.text_head? hm) (classified_iff.2 rfl)
      rw [hsplit, Statement.atByte?_append, read?_eq_some_iff.2 hm]
    · rcases read_ofMarker_eq_ok_iff.1 hr with ⟨m, hm, rfl⟩ | ⟨hstart, m, hm, rfl⟩
      · exact .sectionStart hmode hsplit hm (SectionMarker.start_text_head? hm)
      · refine .sectionEnd hmode hsplit hstart hm ?_
        rw [SectionMarker.stop_text hm]
        rfl

theorem isTokenization_iff {mode : Mode} {source : Text} {spans : List Span}
    {tokens : List Token} :
    IsTokenization mode source spans tokens ↔ IsScan (reader mode) source 0 spans tokens := by
  have hyields : Yields mode source = ReadsAt (reader mode) source :=
    funext fun _ => funext fun _ => propext yields_iff
  constructor
  · intro h
    refine ⟨hyields ▸ h.yields, h.ordered, fun s _ => Nat.zero_le _, ?_⟩
    rintro before rest rfl _ hout
    have hskipped := h.skipped before rest rfl hout
    rw [Statement.atByte?_append, Except.ok.injEq] at hskipped
    exact reader_fails_iff.2 hskipped
  · intro h
    refine ⟨hyields ▸ h.reads, h.start_lt_stop (isProductive_reader mode), h.ordered, ?_⟩
    rintro before rest rfl hout
    rw [Statement.atByte?_append, Except.ok.injEq]
    exact reader_fails_iff.1 (h.skipped before rest rfl (Nat.zero_le _) hout)

end Token

/-! ## Statements search by search -/

namespace Statement

theorem find?_eq_some_iff {t : Text} {r : Reading Statement} :
    find? t = some r ↔ ∃ before, reader.find? t = some (before, r) := by
  simp [find?]

theorem length_rest_lt {t : Text} {r : Reading Statement} (h : find? t = some r) :
    r.rest.length < t.length := by
  obtain ⟨before, hfind⟩ := find?_eq_some_iff.1 h
  obtain ⟨hread, rfl⟩ := find?_eq_some hfind
  have hpos := List.length_pos_iff.2 (text_ne_nil hread)
  simp only [List.length_append]
  omega

/-- All statements of a text, each found behind the one before. -/
def findAll (t : Text) : List (Reading Statement) :=
  match _ : find? t with
  | none => []
  | some r => r :: findAll r.rest
termination_by t.length
decreasing_by exact length_rest_lt (by assumption)

end Statement

namespace Token

/-- A search for the token of a statement is a search for the statement. -/
theorem find?_ofStatement (t : Text) : ofStatement.find? t =
    (Statement.reader.find? t).map fun found =>
      (found.1, ⟨classify found.2.text, found.2.text, found.2.rest⟩) := by
  cases hfind : Statement.reader.find? t with
  | none =>
    rw [find?_eq_none_iff] at hfind
    refine find?_eq_none_iff.2 fun u v hsplit r hr => ?_
    obtain ⟨m, hm, _⟩ := read_ofStatement_eq_ok_iff.1 hr
    exact hfind u v hsplit m hm
  | some found =>
    obtain ⟨before, m⟩ := found
    obtain ⟨hsplit, hm, hfirst⟩ := find?_eq_some_iff.1 hfind
    refine find?_eq_some_iff.2 ⟨hsplit, read_ofStatement_eq_ok_iff.2 ⟨m, hm, rfl⟩, ?_⟩
    intro a c b hb r hr
    obtain ⟨m', hm', _⟩ := read_ofStatement_eq_ok_iff.1 hr
    exact hfirst a c b hb m' hm'

theorem list_flat_eq_findAll (source : Text) :
    list .flat source = (Statement.findAll source).map fun m => classify m.text := by
  fun_induction Statement.findAll source with
  | case1 t hnone =>
    have hfind : ofStatement.find? t = none := by
      rw [find?_ofStatement, Option.map_eq_none_iff]
      simpa [Statement.find?] using hnone
    rw [list, scan, reader, scan_of_find?_eq_none hfind]
    rfl
  | case2 t m hsome ih =>
    obtain ⟨before, hm⟩ := Statement.find?_eq_some_iff.1 hsome
    have hfind : ofStatement.find? t = some (before, ⟨classify m.text, m.text, m.rest⟩) := by
      rw [find?_ofStatement, hm]
      rfl
    have hne := Statement.text_ne_nil (find?_eq_some hm).1
    rw [list, scan, reader, scan_of_find? hfind hne, List.map_cons, List.map_cons, ← ih]
    rfl

/-- The statement at the start of a source comes first, and the others are found behind it. -/
theorem list_flat_of_read {t : Text} {m : Reading Statement}
    (h : Statement.reader.read t = .ok m) :
    list .flat t = classify m.text :: list .flat m.rest := by
  have hread : (reader .flat).read t = .ok ⟨classify m.text, m.text, m.rest⟩ :=
    read_ofStatement_eq_ok_iff.2 ⟨m, h, rfl⟩
  rw [list, scan, scan_of_read hread (Statement.text_ne_nil h)]
  rfl

theorem exists_yields_of_mem_list {mode : Mode} {source : Text} {token : Token}
    (h : token ∈ list mode source) : ∃ span, Yields mode source span token := by
  obtain ⟨_, hscan⟩ := exists_isScan (isProductive_reader mode) [] source
  obtain ⟨span, hread⟩ := hscan.exists_readsAt h
  exact ⟨span, yields_iff.2 hread⟩

/-- The tokens of a source are the ones of its leftmost scan, and there is only one. Without
standing markers this is the search for one statement behind the other. -/
theorem eq_list_iff_isTokenization (mode : Mode) (source : Text) :
    (∀ tokens, tokens = list mode source ↔ ∃ spans, IsTokenization mode source spans tokens) ∧
      list .flat source = (Statement.findAll source).map fun m => classify m.text := by
  have hp := isProductive_reader mode
  obtain ⟨spans, hscan⟩ := exists_isScan hp [] source
  refine ⟨fun tokens => ?_, list_flat_eq_findAll source⟩
  constructor
  · rintro rfl
    exact ⟨spans, isTokenization_iff.2 hscan⟩
  · rintro ⟨spans', h⟩
    exact ((isTokenization_iff.1 h).unique hp hscan).2

end Token

/-- A source that is one statement throughout gives the declaration of its text. -/
theorem Extraction.declarations_of_read {t : Text} {s : Statement} {d : Declaration}
    (h : Statement.reader.read t = .ok ⟨s, t, []⟩) (htoken : Token.classify t = .declaration t)
    (hd : Declaration.exported? t = some d) : declarations t = [d] := by
  have hnil : Token.list .flat [] = [] := by simp [Token.list, Token.scan, scan]
  simp [declarations, Token.list_flat_of_read h, htoken, hnil, ofToken?, hd]

end SassVars
