import SassVars.MarkerComment

/-!
# The grammar of marker comments

The shapes of markers and marker comments, said without a reader. Each reader succeeds on
exactly the texts that start with its shape.

## Main definitions

* `Marker.written`: a marker as it stands in a comment.
* `MarkerComment.IsSeries`: markers in a row with space in front of each.
* `MarkerComment.IsBlock`, `MarkerComment.IsLine`: the two forms of a comment.
-/

namespace SassVars

open Reader

namespace Marker

/-- A text in double quotes that stays on its line and has something between them. -/
def IsLiteral (s : Text) : Prop :=
  ∃ inner, inner ≠ [] ∧ (∀ c ∈ inner, (c == '"' || Text.isLineEnd c) = false) ∧
    s = '"' :: (inner ++ ['"'])

structure IsValid (m : Marker) : Prop where
  tag_ne_nil : m.tag ≠ []
  tag_word : ∀ c ∈ m.tag, Text.isWordChar c = true
  tag_allowed : m.tag ≠ reservedTag
  quoted : IsLiteral m.quoted

/-- A marker as it stands in a comment. -/
def written (m : Marker) : Text :=
  opening ++ (m.tag ++ '=' :: m.quoted)

theorem read_quotedLiteral_eq_ok_iff {t : Text} {r : Reading Text} :
    quotedLiteral.read t = .ok r ↔
      ∃ s rest, IsLiteral s ∧ t = s ++ rest ∧ r = ⟨s, s, rest⟩ := by
  constructor
  · intro h
    simp only [quotedLiteral, until1, read_consumed_eq_ok_iff, read_bind_eq_ok_iff,
      read_char_eq_ok_iff, read_check_eq_ok_iff, read_span_eq_ok_iff] at h
    obtain ⟨_, ⟨_, _, ⟨_, rfl, rfl⟩, ⟨_, _, ⟨⟨inner, _, hrun, rfl, rfl⟩, hne⟩,
      ⟨rest, rfl, rfl⟩, rfl⟩, rfl⟩, rfl⟩ := h
    refine ⟨'"' :: (inner ++ ['"']), rest, ⟨inner, by simpa using hne, fun c hc => ?_, rfl⟩,
      by simp, by simp⟩
    simpa using hrun.all c hc
  · rintro ⟨s, rest, ⟨inner, hne, hinner, rfl⟩, rfl, rfl⟩
    have hinner' : (until1 fun c => c == '"' || Text.isLineEnd c).read (inner ++ '"' :: rest) =
        .ok ⟨inner, inner, '"' :: rest⟩ :=
      read_check_eq_ok_iff.2
        ⟨read_span_of_isRun (.of_cons (fun c hc => by simp [hinner c hc]) rfl), by simpa using hne⟩
    refine read_consumed_eq_ok_iff.2 ⟨⟨'"', '"' :: (inner ++ ['"']), rest⟩, ?_, rfl⟩
    simp [read_bind, hinner']

/-- The reader takes exactly the written form of a valid marker. -/
theorem read_eq_ok_iff {t : Text} {r : Reading Marker} :
    reader.read t = .ok r ↔
      ∃ m : Marker, ∃ rest, m.IsValid ∧ t = m.written ++ rest ∧ r = ⟨m, m.written, rest⟩ := by
  constructor
  · intro h
    simp only [reader, span1, read_bind_eq_ok_iff, read_literal_eq_ok_iff, read_check_eq_ok_iff,
      read_span_eq_ok_iff, read_char_eq_ok_iff, read_quotedLiteral_eq_ok_iff, read_pure,
      Except.ok.injEq] at h
    obtain ⟨_, _, ⟨_, rfl, rfl⟩, ⟨_, _, ⟨⟨⟨tag, _, hrun, rfl, rfl⟩, hne⟩, hallowed⟩,
      ⟨_, _, ⟨_, rfl, rfl⟩, ⟨_, _, ⟨s, rest, hs, rfl, rfl⟩, rfl, rfl⟩, rfl⟩, rfl⟩, rfl⟩ := h
    refine ⟨⟨tag, s⟩, rest, ⟨by simpa using hne, hrun.all, by simpa using hallowed, hs⟩, ?_, ?_⟩
      <;> simp [written]
  · rintro ⟨⟨tag, s⟩, rest, ⟨hne, hword, hallowed, hs⟩, rfl, rfl⟩
    have htag : (check (span1 Text.isWordChar) (· != reservedTag) .allowedWord).read
        (tag ++ '=' :: (s ++ rest)) = .ok ⟨tag, tag, '=' :: (s ++ rest)⟩ :=
      read_check_eq_ok_iff.2 ⟨read_check_eq_ok_iff.2
        ⟨read_span_of_isRun (.of_cons hword rfl), by simpa using hne⟩, by simpa using hallowed⟩
    have hquoted : quotedLiteral.read (s ++ rest) = .ok ⟨s, s, rest⟩ :=
      read_quotedLiteral_eq_ok_iff.2 ⟨s, rest, hs, rfl, rfl⟩
    simp [reader, written, read_bind, htag, hquoted]

theorem refuses_reader {c : Char} (h : c ≠ '@') : reader.Refuses c :=
  (refuses_literal h).bind _

theorem written_ne_nil (m : Marker) : m.written ≠ [] :=
  List.append_ne_nil_of_left_ne_nil (by decide) _

/-- Every marker starts with `@`, which is no space of any kind. -/
theorem isRun_written {gap : Char → Bool} (hgap : gap '@' = false) {w : Text}
    (hw : ∀ c ∈ w, gap c = true) (m : Marker) (rest : Text) :
    Text.IsRun gap w (m.written ++ rest) :=
  .of_cons hw hgap

/-- A marker behind space of the class `gap`. -/
def behind (gap : Char → Bool) : Reader Marker := do
  let _ ← span gap
  reader

/-- A marker starts `t`, behind space of the class `gap`. -/
def StartsBehind (gap : Char → Bool) (t : Text) : Prop :=
  ∃ (w : Text) (m : Marker) (rest : Text),
    (∀ c ∈ w, gap c = true) ∧ m.IsValid ∧ t = w ++ (m.written ++ rest)

section Behind

variable {gap : Char → Bool} (hgap : gap '@' = false)

include hgap

theorem read_behind_eq_ok_iff {t : Text} {r : Reading Marker} :
    (behind gap).read t = .ok r ↔
      ∃ w m rest, (∀ c ∈ w, gap c = true) ∧ m.IsValid ∧ t = w ++ (m.written ++ rest) ∧
        r = ⟨m, w ++ m.written, rest⟩ := by
  simp only [behind, read_bind_eq_ok_iff, read_span_eq_ok_iff, read_eq_ok_iff]
  constructor
  · rintro ⟨_, _, ⟨w, _, hrun, rfl, rfl⟩, ⟨m, rest, hm, rfl, rfl⟩, rfl⟩
    exact ⟨w, m, rest, hrun.all, hm, rfl, rfl⟩
  · rintro ⟨w, m, rest, hw, hm, rfl, rfl⟩
    exact ⟨_, _, ⟨w, _, isRun_written hgap hw m rest, rfl, rfl⟩, ⟨m, rest, hm, rfl, rfl⟩, rfl⟩

theorem behind_fails_iff {t : Text} :
    (∀ r, (behind gap).read t ≠ .ok r) ↔ ¬ StartsBehind gap t := by
  constructor
  · rintro h ⟨w, m, rest, hw, hm, ht⟩
    exact h _ ((read_behind_eq_ok_iff hgap).2 ⟨w, m, rest, hw, hm, ht, rfl⟩)
  · intro h r hr
    obtain ⟨w, m, rest, hw, hm, ht, _⟩ := (read_behind_eq_ok_iff hgap).1 hr
    exact h ⟨w, m, rest, hw, hm, ht⟩

/-- No marker starts behind space where something else than `@` follows it. -/
theorem not_startsBehind {w t : Text} (hw : ∀ c ∈ w, gap c = true)
    (ht : ∀ c ∈ t.head?, gap c = false ∧ c ≠ '@') : ¬ StartsBehind gap (w ++ t) := by
  rintro ⟨w', m, rest, hw', _, heq⟩
  have hrun : Text.IsRun gap w t := ⟨hw, fun c hc => (ht c hc).1⟩
  obtain ⟨_, rfl⟩ := hrun.unique (isRun_written hgap hw' m rest) heq
  exact (ht '@' rfl).2 rfl

theorem not_startsBehind_nil : ¬ StartsBehind gap [] :=
  not_startsBehind hgap (w := []) (List.forall_mem_nil _) (by simp)

end Behind

end Marker

namespace MarkerComment

open Marker

/-- Markers in a row, each behind space of the class `gap`. -/
inductive IsSeries (gap : Char → Bool) : List Marker → Text → Prop where
  | nil : IsSeries gap [] []
  | cons {w : Text} {m : Marker} {ms : List Marker} {text : Text}
      (hw : ∀ c ∈ w, gap c = true) (hm : m.IsValid) (hms : IsSeries gap ms text) :
      IsSeries gap (m :: ms) (w ++ (m.written ++ text))

/-- A block comment of markers. It may hold none and span lines. -/
def IsBlock (ms : List Marker) (s : Text) : Prop :=
  ∃ body w, IsSeries Text.isLayout ms body ∧ (∀ c ∈ w, Text.isLayout c = true) ∧
    s = "/*".toList ++ (body ++ (w ++ "*/".toList))

/-- A line comment of markers. It holds at least one and ends behind the last. -/
def IsLine (ms : List Marker) (s : Text) : Prop :=
  ms ≠ [] ∧ ∃ body, IsSeries Text.isInline ms body ∧ s = "//".toList ++ body

section Opening

variable {gap : Char → Bool} {w s : Text} {ms : List Marker}

/-- Space in front of a block comment is all of the space there. -/
theorem IsBlock.isRun (h : IsBlock ms s) (hw : ∀ c ∈ w, gap c = true) (rest : Text)
    (hgap : gap '/' = false) : Text.IsRun gap w (s ++ rest) := by
  obtain ⟨body, w', _, _, rfl⟩ := h
  exact .of_cons hw hgap

/-- Space in front of a line comment is all of the space there. -/
theorem IsLine.isRun (h : IsLine ms s) (hw : ∀ c ∈ w, gap c = true) (rest : Text)
    (hgap : gap '/' = false) : Text.IsRun gap w (s ++ rest) := by
  obtain ⟨_, body, _, rfl⟩ := h
  exact .of_cons hw hgap

end Opening

section Series

variable {gap : Char → Bool} (hgap : gap '@' = false)

include hgap

theorem isSeries_manyFrom (t : Text) :
    IsSeries gap (manyFrom (behind gap) t).value (manyFrom (behind gap) t).text ∧
      ¬ StartsBehind gap (manyFrom (behind gap) t).rest := by
  fun_induction manyFrom (behind gap) t with
  | case1 t e he => exact ⟨.nil, (behind_fails_iff hgap).1 (by simp [he])⟩
  | case2 t a ha _ s ih =>
    obtain ⟨w, m, rest, hw, hm, rfl, rfl⟩ := (read_behind_eq_ok_iff hgap).1 ha
    refine ⟨?_, ih.2⟩
    simpa using IsSeries.cons hw hm ih.1
  | case3 t a ha hlong =>
    obtain ⟨w, m, rest, hw, hm, rfl, rfl⟩ := (read_behind_eq_ok_iff hgap).1 ha
    have hpos := List.length_pos_iff.2 (written_ne_nil m)
    simp only [List.length_append] at hlong
    omega

theorem manyFrom_of_isSeries {ms : List Marker} {text rest : Text} (h : IsSeries gap ms text)
    (hstop : ¬ StartsBehind gap rest) :
    manyFrom (behind gap) (text ++ rest) = ⟨ms, text, rest⟩ := by
  induction h with
  | nil => exact manyFrom_of_fails ((behind_fails_iff hgap).2 hstop)
  | @cons w m ms text hw hm _ ih =>
    have hread := (read_behind_eq_ok_iff hgap).2 ⟨w, m, text ++ rest, hw, hm, rfl, rfl⟩
    simp only [List.append_assoc]
    rw [manyFrom_of_read hread (by simp [written_ne_nil]), ih]
    simp

/-- Repeated reading takes a series of markers up to a place where none follows. -/
theorem manyFrom_behind_eq_iff {t : Text} {r : Reading (List Marker)} :
    manyFrom (behind gap) t = r ↔
      IsSeries gap r.value r.text ∧ ¬ StartsBehind gap r.rest ∧ t = r.text ++ r.rest := by
  constructor
  · rintro rfl
    have h := isSeries_manyFrom hgap t
    exact ⟨h.1, h.2, manyFrom_split _ t⟩
  · rintro ⟨hseries, hstop, rfl⟩
    exact manyFrom_of_isSeries hgap hseries hstop

end Series

theorem block_eq : block = (do
    let _ ← literal "/*".toList
    let markers ← many (behind Text.isLayout)
    let _ ← span Text.isLayout
    let _ ← literal "*/".toList
    return markers) := rfl

/-- The reader takes exactly a block comment. -/
theorem read_block_eq_ok_iff {t : Text} {r : Reading (List Marker)} :
    block.read t = .ok r ↔
      ∃ ms s rest, IsBlock ms s ∧ t = s ++ rest ∧ r = ⟨ms, s, rest⟩ := by
  have hgap : Text.isLayout '@' = false := by decide
  rw [block_eq]
  constructor
  · intro h
    simp only [read_bind_eq_ok_iff, read_literal_eq_ok_iff, read_many, read_span_eq_ok_iff,
      read_pure, Except.ok.injEq, manyFrom_behind_eq_iff hgap] at h
    obtain ⟨_, _, ⟨_, rfl, rfl⟩, ⟨⟨ms, body, _⟩, _, ⟨hseries, _, rfl⟩,
      ⟨_, _, ⟨w, _, hrun, rfl, rfl⟩, ⟨_, _, ⟨rest, rfl, rfl⟩, rfl, rfl⟩, rfl⟩, rfl⟩, rfl⟩ := h
    refine ⟨ms, _, rest, ⟨body, w, hseries, hrun.all, rfl⟩, ?_, ?_⟩ <;>
      simp only [List.append_assoc, List.append_nil]
  · rintro ⟨ms, s, rest, ⟨body, w, hseries, hw, rfl⟩, rfl, rfl⟩
    have hrun : Text.IsRun Text.isLayout w ("*/".toList ++ rest) := .of_cons hw (by decide)
    have hstop : ¬ StartsBehind Text.isLayout (w ++ ("*/".toList ++ rest)) := by
      rintro ⟨w', m, rest', hw', _, heq⟩
      have hrest := (hrun.unique (isRun_written hgap hw' m rest') heq).2
      have hhead : some '*' = some '@' := congrArg List.head? hrest
      exact absurd hhead (by decide)
    have hmany := manyFrom_of_isSeries hgap hseries hstop
    have hspan := read_span_of_isRun hrun
    simp only [read_bind, List.append_assoc, read_literal_append, read_many, hmany, hspan,
      read_pure, List.append_nil]

theorem line_eq : line = (do
    let _ ← literal "//".toList
    let m ← behind Text.isInline
    let ms ← many (behind Text.isInline)
    return m :: ms) := rfl

/-- The reader takes exactly a line comment that no further marker follows. -/
theorem read_line_eq_ok_iff {t : Text} {r : Reading (List Marker)} :
    line.read t = .ok r ↔
      ∃ ms s rest, IsLine ms s ∧ ¬ StartsBehind Text.isInline rest ∧ t = s ++ rest ∧
        r = ⟨ms, s, rest⟩ := by
  have hgap : Text.isInline '@' = false := by decide
  rw [line_eq]
  constructor
  · intro h
    simp only [read_bind_eq_ok_iff, read_literal_eq_ok_iff, read_many, read_pure,
      Except.ok.injEq, manyFrom_behind_eq_iff hgap, read_behind_eq_ok_iff hgap] at h
    obtain ⟨_, _, ⟨_, rfl, rfl⟩, ⟨_, _, ⟨w, m, _, hw, hm, rfl, rfl⟩,
      ⟨⟨ms, body, rest⟩, _, ⟨hseries, hstop, rfl⟩, rfl, rfl⟩, rfl⟩, rfl⟩ := h
    refine ⟨m :: ms, _, rest, ⟨by simp, _, hseries.cons hw hm, rfl⟩, hstop, ?_, ?_⟩ <;>
      simp only [List.append_assoc, List.append_nil]
  · rintro ⟨_, s, rest, ⟨hne, body, hseries, rfl⟩, hstop, rfl, rfl⟩
    cases hseries with
    | nil => exact absurd rfl hne
    | @cons w m ms body hw hm hseries =>
      have hread := (read_behind_eq_ok_iff hgap).2 ⟨w, m, body ++ rest, hw, hm, rfl, rfl⟩
      have hmany := manyFrom_of_isSeries hgap hseries hstop
      simp only [read_bind, List.append_assoc, read_literal_append, read_many, hread, hmany,
        read_pure, List.append_nil]

/-- A line comment can always be read. It may turn out longer where markers go on. -/
theorem exists_read_line {ms : List Marker} {s : Text} (h : IsLine ms s) (rest : Text) :
    ∃ r, line.read (s ++ rest) = .ok r := by
  obtain ⟨hne, body, hseries, rfl⟩ := h
  cases hseries with
  | nil => exact absurd rfl hne
  | @cons w m ms body hw hm _ =>
    have hread := (read_behind_eq_ok_iff (by decide)).2
      ⟨w, m, body ++ rest, hw, hm, rfl, rfl⟩
    simp only [line_eq, read_bind, List.append_assoc, read_literal_append, read_many, hread,
      read_pure]
    exact ⟨_, rfl⟩

/-! ## Collecting the markers of a comment -/

@[simp]
theorem collectFrom_nil (inWord : Bool) : collectFrom inWord [] = [] := by
  rw [collectFrom]

/-- Neither the start of a marker nor the end of a word. -/
def isGap (c : Char) : Bool :=
  c != '@' && !Text.isWordChar c

theorem collectFrom_of_gap {w : Text} (hw : ∀ c ∈ w, isGap c = true) (t : Text) :
    collectFrom false (w ++ t) = collectFrom false t := by
  induction w with
  | nil => rfl
  | cons c w ih =>
    have hc := hw c (by simp)
    simp only [isGap, Bool.and_eq_true, bne_iff_ne, Bool.not_eq_true'] at hc
    obtain ⟨hne, hword⟩ := hc
    have hnone : Marker.reader.read? (c :: (w ++ t)) = none :=
      read?_eq_none_iff.2 (refuses_reader hne (w ++ t))
    rw [List.cons_append, collectFrom]
    simp only [hnone, hword, Bool.false_eq_true, if_false]
    exact ih fun d hd => hw d (by simp [hd])

theorem collectFrom_written {m : Marker} (hm : m.IsValid) (t : Text) :
    collectFrom false (m.written ++ t) = m :: collectFrom false t := by
  have hread : Marker.reader.read? (m.written ++ t) = some ⟨m, m.written, t⟩ :=
    read?_eq_some_iff.2 (Marker.read_eq_ok_iff.2 ⟨m, t, hm, rfl, rfl⟩)
  obtain ⟨c, u, hcons⟩ := List.exists_cons_of_ne_nil (written_ne_nil m)
  rw [hcons, List.cons_append] at hread ⊢
  rw [collectFrom]
  simp only [hread, Bool.false_eq_true, if_false]
  exact if_pos (by simp)

/-- The words of a series never run into a marker, since space stands in between. -/
theorem collectFrom_of_isSeries {gap : Char → Bool}
    (hgap : ∀ c, gap c = true → isGap c = true) {ms : List Marker}
    {text : Text} (h : IsSeries gap ms text) (t : Text) :
    collectFrom false (text ++ t) = ms ++ collectFrom false t := by
  induction h with
  | nil => rfl
  | cons hw hm _ ih =>
    rw [List.append_assoc, collectFrom_of_gap (fun c hc => hgap c (hw c hc)), List.append_assoc,
      collectFrom_written hm, ih]
    rfl

theorem isGap_of_isLayout {c : Char} (h : Text.isLayout c = true) : isGap c = true := by
  simp only [Text.isLayout, Bool.or_eq_true, beq_iff_eq] at h
  rcases h with ((rfl | rfl) | rfl) | rfl <;> decide

/-- Whatever the text is, what is collected there are markers. -/
theorem isValid_of_mem_collectFrom {inWord : Bool} {t : Text} {m : Marker}
    (h : m ∈ collectFrom inWord t) : m.IsValid := by
  fun_induction collectFrom inWord t with
  | case1 => simp at h
  | case2 inWord c t r hr _ ih =>
    rcases List.mem_cons.1 h with rfl | h
    · have hread : Marker.reader.read (c :: t) = .ok r := by
        rw [← read?_eq_some_iff]
        grind
      obtain ⟨m, rest, hm, _, rfl⟩ := Marker.read_eq_ok_iff.1 hread
      exact hm
    · exact ih h
  | case3 => grind
  | case4 => grind

/-- Collecting finds the markers of a block comment again. -/
theorem collect_of_isBlock {ms : List Marker} {s : Text} (h : IsBlock ms s) : collect s = ms := by
  obtain ⟨body, w, hseries, hw, rfl⟩ := h
  have hclose := collectFrom_of_gap (w := "*/".toList) (List.all_eq_true.1 rfl) []
  have hend : collectFrom false (w ++ "*/".toList) = [] := by
    rw [collectFrom_of_gap fun c hc => isGap_of_isLayout (hw c hc)]
    simpa using hclose
  rw [collect, collectFrom_of_gap (List.all_eq_true.1 rfl),
    collectFrom_of_isSeries (fun _ => isGap_of_isLayout) hseries, hend, List.append_nil]

/-- Collecting finds the markers of a line comment again. -/
theorem collect_of_isLine {ms : List Marker} {s : Text} (h : IsLine ms s) : collect s = ms := by
  obtain ⟨_, body, hseries, rfl⟩ := h
  have hgap : ∀ c, Text.isInline c = true → isGap c = true :=
    fun c hc => isGap_of_isLayout (Text.isLayout_of_isInline hc)
  have hbody := collectFrom_of_isSeries hgap hseries []
  rw [List.append_nil] at hbody
  rw [collect, collectFrom_of_gap (List.all_eq_true.1 rfl), hbody, collectFrom_nil, List.append_nil]

end MarkerComment

end SassVars
