import SassVars.Proofs.Expansion.WellFormed
import SassVars.Proofs.Grammar.Entry
import SassVars.Proofs.Scoping
import SassVars.Proofs.Standalone.Plain

/-!
# The fields of a declaration

The markers of a comment are read twice: as parts of the comment, and once more in its text when the
fields are attached. Both ways give the same markers in the same order. The fields are one for each
tag, in the order in which the tags come first, each with the text of the last marker of its tag.

The comment is read behind a flag that has been removed. When the value has no flag at its end, the
first one inside a literal of the comment is removed in its place, and that literal is shortened.

## Main definitions

* `Field.FromMarkers`: the fields that a list of markers stands for.
-/

namespace SassVars

open Reader

/-! ## Fields from markers -/

namespace Field

/-- One field for each tag, in the order in which the tags come first. Its value stands between the
quotes of the last marker of its tag. -/
structure FromMarkers (ms : List Marker) (fs : List Field) : Prop where
  tags : fs.map tag = (ms.map Marker.tag).eraseDups
  last : ∀ f ∈ fs, ∃ before m after, ms = before ++ m :: after ∧ m.tag = f.tag ∧
    (∀ k ∈ after, k.tag ≠ f.tag) ∧ m.quoted = '"' :: (f.value ++ ['"'])

theorem nodup_eraseDups (tags : List Text) : tags.eraseDups.Nodup := by
  induction tags using List.reverseRecOn with
  | nil => simp
  | append_singleton tags tag ih =>
    rw [Scope.eraseDups_concat]
    split
    · exact ih
    · rename_i hnew
      refine List.nodup_append.2 ⟨ih, by simp, ?_⟩
      rintro a ha b hb rfl
      rw [List.mem_singleton.1 hb, List.mem_eraseDups] at ha
      exact hnew ha

theorem fromMarkers_nil : FromMarkers [] [] :=
  ⟨by simp, by simp⟩

/-- Where no two fields have the same tag, setting one leaves the others as they are. -/
theorem mem_set_of_nodup {f : Field} {tag value : Text} {fs : List Field}
    (hfs : (fs.map Field.tag).Nodup) (h : f ∈ set tag value fs) :
    f = ⟨tag, value⟩ ∨ f ∈ fs ∧ f.tag ≠ tag := by
  fun_induction set tag value fs <;> grind

/-- A further marker adds its field, or it takes over the one of its tag. -/
theorem FromMarkers.concat {ms : List Marker} {fs : List Field} {m : Marker}
    (h : FromMarkers ms fs) (hm : m.IsValid) :
    FromMarkers (ms ++ [m]) (set m.tag (Text.unquote m.quoted) fs) := by
  have hnodup : (fs.map Field.tag).Nodup := h.tags ▸ nodup_eraseDups _
  refine ⟨?_, fun f hf => ?_⟩
  · rw [tags_set, List.map_append, List.map_singleton, Scope.eraseDups_concat, h.tags]
    simp only [List.mem_eraseDups]
  · rcases mem_set_of_nodup hnodup hf with rfl | ⟨hf, hne⟩
    · obtain ⟨inner, _, hinner, hquoted⟩ := hm.quoted
      refine ⟨ms, m, [], rfl, rfl, by simp, ?_⟩
      rw [hquoted, Marker.unquote_literal hinner]
    · obtain ⟨before, k, after, rfl, htag, hafter, hquoted⟩ := h.last f hf
      refine ⟨before, k, after ++ [m], by simp, htag, ?_, hquoted⟩
      simpa [or_imp, forall_and] using ⟨hafter, hne.symm⟩

theorem fromMarkers_foldl {ms : List Marker} (h : ∀ m ∈ ms, m.IsValid) :
    FromMarkers ms (ms.foldl (fun fs m => set m.tag (Text.unquote m.quoted) fs) []) := by
  induction ms using List.reverseRecOn with
  | nil => exact fromMarkers_nil
  | append_singleton ms m ih =>
    simp only [List.mem_append, List.mem_singleton, or_imp, forall_and, forall_eq] at h
    rw [List.foldl_concat]
    exact (ih h.1).concat h.2

end Field

/-! ## Markers of a comment -/

namespace MarkerComment

/-- The markers that are collected in the text of a comment are those that were read in it. -/
theorem collect_text_of_read {t : Text} {r : Reading (List Marker)} (h : reader.read t = .ok r) :
    Marker.collect r.text = r.value := by
  obtain ⟨ms, s, rest, hs, _, rfl⟩ := read_reader_eq_ok_iff.1 h
  exact hs.isComment.collect_eq

/-! ## Removing a flag from a comment -/

/-- A flag in a series of markers stands inside one literal. Removing it shortens that literal and
leaves the tags as they are. -/
theorem IsSeries.withoutFlag {gap : Char → Bool} (hgap : gap '!' = false) {ms : List Marker}
    {text rest : Text} (h : IsSeries gap ms text) (hrest : '!' ∉ rest) :
    ∃ ms' text', IsSeries gap ms' text' ∧ ms'.map Marker.tag = ms.map Marker.tag ∧
      ∀ front, '!' ∉ front →
        Declaration.withoutFlag (front ++ (text ++ rest)) = front ++ (text' ++ rest) := by
  induction h with
  | nil =>
    refine ⟨[], [], .nil, rfl, fun front hfront => Declaration.withoutFlag_of_not_mem ?_⟩
    simp [hfront, hrest]
  | @cons w m ms text hw hm hms ih =>
    obtain ⟨ms', text', hms', htags, hwithout⟩ := ih
    obtain ⟨inner, hne, hinner, hquoted⟩ := hm.quoted
    have hopening (front : Text) (hfront : '!' ∉ front) :
        '!' ∉ front ++ (w ++ (Marker.opening ++ (m.tag ++ ['=']))) := by
      have hspace : '!' ∉ w := fun hc => by simp [hw _ hc] at hgap
      have htag : '!' ∉ m.tag := fun hc => absurd (hm.tag_word _ hc) (by decide)
      have hword : '!' ∉ Marker.opening := by decide
      simp [hfront, hspace, htag, hword]
    have hfront (front : Text) (hfront : '!' ∉ front) :
        Declaration.withoutFlag (front ++ (w ++ (m.written ++ text) ++ rest)) =
          front ++ (w ++ (Marker.opening ++ (m.tag ++ ['=']))) ++
            '"' :: Declaration.withoutFlag (inner ++ '"' :: (text ++ rest)) := by
      rw [← Declaration.withoutFlag_append_quote_of_not
        (Declaration.not_holdsFlag_of_not_mem (hopening front hfront))]
      simp [Marker.written, hquoted]
    rcases Declaration.withoutFlag_append_quote inner (text ++ rest) with
      ⟨b, flag, y, _, rfl, heq⟩ | ⟨_, heq⟩
    · have hshort : Marker.IsValid ⟨m.tag, '"' :: (Text.trimEnd b ++ ';' :: y ++ ['"'])⟩ := by
        refine ⟨hm.tag_ne_nil, hm.tag_word, hm.tag_allowed, _, by simp, fun c hc => ?_, rfl⟩
        obtain ⟨u, hb, _⟩ := (Text.trimEnd_spec b).1
        simp only [List.mem_append, List.mem_cons] at hc
        rcases hc with hc | rfl | hc
        · exact hinner c (by rw [hb]; simp [hc])
        · decide
        · exact hinner c (by simp [hc])
      refine ⟨_, _, .cons hw hshort hms, by simp, fun front hclean => ?_⟩
      rw [hfront front hclean, heq]
      simp [Marker.written]
    · refine ⟨_, _, .cons hw hm hms', by simp [htags], fun front hclean => ?_⟩
      have hbehind := hwithout [] (by simp)
      simp only [List.nil_append] at hbehind
      rw [hfront front hclean, heq, hbehind]
      simp [Marker.written, hquoted]

/-- A block comment stays one, and space in front of it stays in place. -/
theorem IsBlock.withoutFlag {ms : List Marker} {s : Text} (h : IsBlock ms s) :
    ∃ ms', IsBlock ms' (Declaration.withoutFlag s) ∧ ms'.map Marker.tag = ms.map Marker.tag ∧
      ∀ front, '!' ∉ front →
        Declaration.withoutFlag (front ++ s) = front ++ Declaration.withoutFlag s := by
  obtain ⟨body, w, hbody, hw, rfl⟩ := h
  have hclose : '!' ∉ w ++ "*/".toList := by
    have hspace : '!' ∉ w := fun hc => absurd (hw _ hc) (by decide)
    simp [hspace]
  obtain ⟨ms', body', hbody', htags, hwithout⟩ := hbody.withoutFlag (by decide) hclose
  have hself := hwithout "/*".toList (by decide)
  rw [hself]
  refine ⟨ms', ⟨body', w, hbody', hw, rfl⟩, htags, fun front hfront => ?_⟩
  have hopen : '!' ∉ front ++ "/*".toList := by simp [hfront]
  simpa using hwithout _ hopen

/-- A line comment stays one, and space in front of it stays in place. -/
theorem IsLine.withoutFlag {ms : List Marker} {s : Text} (h : IsLine ms s) :
    ∃ ms', IsLine ms' (Declaration.withoutFlag s) ∧ ms'.map Marker.tag = ms.map Marker.tag ∧
      ∀ front, '!' ∉ front →
        Declaration.withoutFlag (front ++ s) = front ++ Declaration.withoutFlag s := by
  obtain ⟨hne, body, hbody, rfl⟩ := h
  obtain ⟨ms', body', hbody', htags, hwithout⟩ :=
    hbody.withoutFlag (by decide) (List.not_mem_nil (a := '!'))
  simp only [List.append_nil] at hwithout
  rw [hwithout "//".toList (by decide)]
  refine ⟨ms', ⟨?_, body', hbody', rfl⟩, htags, fun front hfront => ?_⟩
  · rintro rfl
    exact hne (List.map_eq_nil_iff.1 htags.symm)
  · have hopen : '!' ∉ front ++ "//".toList := by simp [hfront]
    simpa using hwithout _ hopen

end MarkerComment

namespace Statement

open MarkerComment (IsComment)

theorem IsTail.isComment {s tail rest : Text} (h : IsTail (some s) tail rest) :
    ∃ ms, IsComment ms s := by
  cases h with
  | block _ hs => exact ⟨_, .inl hs⟩
  | line _ hs _ => exact ⟨_, .inr hs⟩

/-- A tail with a flag in its comment stays a tail without it. -/
theorem IsTail.withoutFlag {s tail rest : Text} (h : IsTail (some s) tail rest) :
    ∃ ms, IsComment ms (Declaration.withoutFlag s) ∧
      ms.map Marker.tag = (Marker.collect s).map Marker.tag ∧
      IsTail (some (Declaration.withoutFlag s)) (Declaration.withoutFlag tail) [] := by
  cases h with
  | block hw hs =>
    obtain ⟨ms, hms, htags, hwithout⟩ := hs.withoutFlag
    refine ⟨ms, .inl hms, by rw [htags, MarkerComment.collect_of_isBlock hs], ?_⟩
    rw [hwithout _ fun hc => absurd (hw _ hc) (by decide)]
    exact .block hw hms
  | line hw hs _ =>
    obtain ⟨ms, hms, htags, hwithout⟩ := hs.withoutFlag
    refine ⟨ms, .inr hms, by rw [htags, MarkerComment.collect_of_isLine hs], ?_⟩
    rw [hwithout _ fun hc => absurd (hw _ hc) (by decide)]
    exact .line hw hms (Marker.not_startsBehind (w := []) rfl (by simp) (by simp))

end Statement

/-! ## The fields of a statement -/

namespace Declaration

open MarkerComment (IsComment)

theorem fromMarkers_ofStatement {s : Statement} {comment : Text} {ms : List Marker}
    (hcomment : s.comment = some comment) (hms : IsComment ms comment) :
    Field.FromMarkers ms (ofStatement s).fields := by
  have hvalid : ∀ m ∈ ms, m.IsValid := fun m hm =>
    Marker.isValid_of_mem_collect (hms.collect_eq.symm ▸ hm : m ∈ Marker.collect comment)
  rw [ofStatement, attach_eq, hcomment]
  simpa [plain, hms.collect_eq] using Field.fromMarkers_foldl hvalid

theorem ofText?_of_isDivided {s : Statement} {text rest head raw after tail : Text}
    {comment : Option Text} (h : Statement.IsDivided s text rest head raw after)
    (hcore : Text.isBlank (core raw) = false) (htail : Statement.IsTail comment tail [])
    (hcomment : ∀ c ∈ comment, ¬ Statement.ClosesNext c)
    (heq : withoutFlag text = head ++ (core raw ++ ';' :: tail)) :
    ofText? text = some (ofStatement ⟨s.name, core raw, comment⟩) := by
  have hopen : ¬ Statement.ClosesNext (tail ++ []) := by
    rw [List.append_nil]
    exact htail.not_closesNext hcomment
  have hread := Statement.read_of_head (h.head_core hcore _) h.no_semicolon_core hcore hopen htail
  rw [List.append_nil, ← heq] at hread
  rw [ofText?, Statement.find?, find?_of_read hread]
  rfl

/-- What is left of the comment of a statement gives the fields. Nothing is removed there when the
value ends in a flag. -/
theorem exists_fromMarkers_of_isStatement {s : Statement} {text rest comment : Text}
    (h : Statement.IsStatement s text rest) (hcomment : s.comment = some comment)
    (hvalue : ';' ∉ s.value) (hopen : ¬ Statement.ClosesNext comment)
    (hcore : Text.isBlank (core (Statement.writtenValue text)) = false) :
    ∃ kept ms d, IsComment ms kept ∧
      ms.map Marker.tag = (Marker.collect comment).map Marker.tag ∧
      ofText? text = some d ∧ Field.FromMarkers ms d.fields ∧
      (EndsInFlag (Statement.writtenValue text) → kept = comment) ∧
      (¬ EndsInFlag (Statement.writtenValue text) → kept = withoutFlag comment) := by
  obtain ⟨head, raw, after, hdivided⟩ := h.exists_divided
  have htail := hdivided.isTail hvalue
  rw [hcomment] at htail
  rw [hdivided.writtenValue_eq] at hcore ⊢
  by_cases hends : EndsInFlag raw
  · obtain ⟨ms, hms⟩ := htail.isComment
    have hread := ofText?_of_isDivided hdivided hcore htail.alone (by simpa using hopen)
      (hdivided.withoutFlag_of_endsInFlag hends hcore)
    exact ⟨comment, ms, _, hms, by rw [hms.collect_eq], hread, fromMarkers_ofStatement rfl hms,
      fun _ => rfl, fun hnot => absurd hends hnot⟩
  · obtain ⟨ms, hms, htags, htail'⟩ := htail.withoutFlag
    have heq := hdivided.withoutFlag_of_not_flag hends
    rw [← core_of_not_flag hends] at heq
    have hread := ofText?_of_isDivided hdivided hcore htail'
      (by simpa [Statement.closesNext_withoutFlag] using hopen) (by simpa using heq)
    exact ⟨withoutFlag comment, ms, _, hms, htags, hread, fromMarkers_ofStatement rfl hms,
      fun h => absurd h hends, fun _ => rfl⟩

/-- The markers collected in the text of a comment are those that were read in it. The fields of a
declaration are those of the comment that is read behind its value. This is the comment that was
written, unless no flag ends the value and one stands in a literal of the comment. Then the first
such flag is missing there. -/
theorem fields_of_comment (text : Text) :
    (∀ r, MarkerComment.reader.read text = .ok r → Marker.collect r.text = r.value) ∧
    (∀ m comment, Statement.find? (withoutFlag text) = some m → m.value.comment = some comment →
      ∃ ms d, MarkerComment.reader.read comment = .ok ⟨ms, comment, []⟩ ∧
        ofText? text = some d ∧ Field.FromMarkers ms d.fields) ∧
    ∀ offset m comment, Statement.atByte? text offset = .ok (some m) →
      m.value.comment = some comment → ';' ∉ m.value.value → ¬ Statement.ClosesNext comment →
      Text.isBlank (core (Statement.writtenValue m.text)) = false →
      ∃ kept ms d, MarkerComment.reader.read kept = .ok ⟨ms, kept, []⟩ ∧
        ms.map Marker.tag = (Marker.collect comment).map Marker.tag ∧
        ofText? m.text = some d ∧ Field.FromMarkers ms d.fields ∧
        (EndsInFlag (Statement.writtenValue m.text) ∨ ¬ HoldsFlag comment → kept = comment) ∧
        (¬ EndsInFlag (Statement.writtenValue m.text) → kept = withoutFlag comment) := by
  refine ⟨fun _ => MarkerComment.collect_text_of_read, fun m comment hfind hcomment => ?_,
    fun offset m comment hm hcomment hvalue hopen hcore => ?_⟩
  · obtain ⟨⟨before, r⟩, hbefore, rfl⟩ := Option.map_eq_some_iff.1 hfind
    obtain ⟨_, _, tail, _, _, htail, _⟩ :=
      (Statement.read_eq_ok_iff.1 (find?_eq_some hbefore).1).2
    rw [hcomment] at htail
    obtain ⟨ms, hms⟩ := htail.isComment
    exact ⟨ms, ofStatement r.value, hms.read_self, by rw [ofText?, hfind]; rfl,
      fromMarkers_ofStatement hcomment hms⟩
  · obtain ⟨kept, ms, d, hms, htags, hread, hfields, hflag, hnot⟩ :=
      exists_fromMarkers_of_isStatement (Statement.isStatement_of_atByte? hm) hcomment hvalue hopen
        hcore
    refine ⟨kept, ms, d, hms.read_self, htags, hread, hfields, fun hkept => ?_, hnot⟩
    by_cases hends : EndsInFlag (Statement.writtenValue m.text)
    · exact hflag hends
    · rw [hnot hends, withoutFlag_of_not_holdsFlag (hkept.resolve_left hends)]

/-- A comment with two markers of one tag. -/
def repeatedReading : Reading Statement :=
  ⟨⟨"a".toList, "1".toList, some "/* @sass-export-x=\"!\" @sass-export-x=\"2\" */".toList⟩,
    "$a: 1; /* @sass-export-x=\"!\" @sass-export-x=\"2\" */".toList, []⟩

theorem fields_of_comment_repeated :
    Statement.atByte? repeatedReading.text 0 = .ok (some repeatedReading) ∧
      ∃ ms d, ofText? repeatedReading.text = some d ∧ Field.FromMarkers ms d.fields ∧
        ms.map Marker.tag = ["x".toList, "x".toList] ∧ d.fields = [⟨"x".toList, "2".toList⟩] := by
  have hm : Statement.atByte? repeatedReading.text 0 = .ok (some repeatedReading) := by
    decide +kernel
  obtain ⟨_, ms, d, _, htags, hread, hfields, _⟩ :=
    (fields_of_comment _).2.2 0 repeatedReading _ hm rfl (by decide) (by decide) (by decide)
  have hd : ofText? repeatedReading.text =
      some ⟨"a".toList, "1".toList, [⟨"x".toList, "2".toList⟩], none⟩ := by decide +kernel
  refine ⟨hm, ms, d, hread, hfields, htags.trans (by decide +kernel), ?_⟩
  rw [hread] at hd
  cases hd
  rfl

/-- A flag in the literal of a marker, and none behind the value. -/
def clashReading : Reading Statement :=
  ⟨⟨"a".toList, "1".toList, some "/* @sass-export-x=\"!default;\" */".toList⟩,
    "$a: 1; /* @sass-export-x=\"!default;\" */".toList, []⟩

/-- The text of the marker is `!default;`, but the flag in it is gone. -/
theorem not_fields_of_comment :
    Statement.atByte? clashReading.text 0 = .ok (some clashReading) ∧
      Marker.collect "/* @sass-export-x=\"!default;\" */".toList =
        [⟨"x".toList, "\"!default;\"".toList⟩] ∧
      ¬ ∃ d, ofText? clashReading.text = some d ∧
        Field.FromMarkers [⟨"x".toList, "\"!default;\"".toList⟩] d.fields := by
  have hd : ofText? clashReading.text =
      some ⟨"a".toList, "1".toList, [⟨"x".toList, ";".toList⟩], none⟩ := by decide +kernel
  refine ⟨by decide +kernel, by decide +kernel, ?_⟩
  rintro ⟨d, hread, hfields⟩
  rw [hd] at hread
  cases hread
  obtain ⟨before, m, after, hms, _, _, hquoted⟩ := hfields.last ⟨"x".toList, ";".toList⟩ (by simp)
  have hm : m ∈ before ++ m :: after := by simp
  rw [← hms, List.mem_singleton] at hm
  rw [hm] at hquoted
  exact absurd hquoted (by decide)

end Declaration

end SassVars
