import SassVars.Proofs.Standalone.Division

/-!
# Reading a plain value again

The text of a statement is read a second time on its own, without its flag. For a plain value
both readings agree, whatever stood around the statement: the name is the same, the value is
the written one without a flag at its end, and the markers are those of the comment. When
nothing but a flag was written there is no declaration.

A comment with a `}` or a `!` in it is left out here. The first can pass for the end of a
block, the second for a flag.

## Main definitions

* `Statement.markers`: the markers of a statement's comment.
-/

namespace SassVars

open Reader

namespace Statement

def markers (s : Statement) : List Marker :=
  (s.comment.map Marker.collect).getD []

theorem refuses_reader {c : Char} (h : c ≠ '$') : reader.Refuses c :=
  ((refuses_char h).bind _).bind _

/-- Without the space behind its colon a head is a head still. -/
theorem IsHead.trimEnd_append {name head rest front : Text} (h : IsHead name head rest)
    (hfront : ∀ c ∈ front, Text.isSpace c = true) (z : Text) :
    ∃ head', IsHead name head' (';' :: z) ∧ Text.trimEnd (head ++ front) = head' := by
  obtain ⟨n, w₁, w₂, hn, hw₁, hw₂, rfl⟩ := h
  have hrun : Text.IsRun Text.isLayout [] (';' :: z) := .of_cons (by simp) (by decide)
  refine ⟨'$' :: (n ++ (w₁ ++ [':'])), ⟨n, w₁, [], hn, hw₁, hrun, rfl⟩, ?_⟩
  have hspace : ∀ c ∈ w₂ ++ front, Text.isSpace c = true := by
    intro c hc
    rcases List.mem_append.1 hc with hc | hc
    · exact Text.isSpace_of_isLayout (hw₂.all c hc)
    · exact hfront c hc
  have hsplit : '$' :: (n ++ (w₁ ++ ':' :: w₂)) ++ front =
      '$' :: (n ++ (w₁ ++ [':'])) ++ (w₂ ++ front) := by simp
  rw [hsplit, Text.trimEnd_append_of_space hspace]
  refine Text.trimEnd_eq_self fun c hc => ?_
  have hlast : '$' :: (n ++ (w₁ ++ [':'])) = '$' :: (n ++ w₁) ++ [':'] := by simp
  rw [hlast, List.getLast?_concat] at hc
  cases hc
  decide

/-- No value starts with `;`. -/
theorem not_read_of_semicolon {name head z : Text} (hhead : IsHead name head (';' :: z))
    (r : Reading Statement) : reader.read (head ++ ';' :: z) ≠ .ok r := by
  intro hr
  obtain ⟨hsplit, hstatement⟩ := read_eq_ok_iff.1 hr
  obtain ⟨head', raw, after, h⟩ := hstatement.exists_divided
  rw [h.text_eq, List.append_assoc] at hsplit
  have hhead' : IsHead r.value.name head' (raw ++ ';' :: after ++ r.rest) :=
    h.head.of_head? (by cases raw <;> rfl)
  have hrest := (hhead.unique hhead' hsplit).2
  cases raw with
  | nil => exact absurd h.not_blank (by decide)
  | cons c raw =>
    cases hrest
    exact h.no_semicolon (by simp)

/-! ## Removing the flag of a divided statement -/

namespace IsDivided

variable {s : Statement} {text rest head raw after : Text}

theorem not_mem_head (h : IsDivided s text rest head raw after) :
    ';' ∉ head ∧ '!' ∉ head := by
  obtain ⟨body, rfl, hbody⟩ := h.head.exists_body
  simp only [List.mem_cons, not_or]
  exact ⟨⟨by decide, hbody ';' (by decide) (by decide) (by decide) (by decide)⟩,
    by decide, hbody '!' (by decide) (by decide) (by decide) (by decide)⟩

theorem writtenValue_eq (h : IsDivided s text rest head raw after) :
    writtenValue text = raw := by
  rw [h.text_eq, Statement.writtenValue_eq h.head h.no_semicolon]

/-- A flag at the end of the written value goes. -/
theorem withoutFlag_of_flag (h : IsDivided s text rest head raw after) {front flag w : Text}
    (hraw : raw = front ++ '!' :: (flag ++ w)) (hflag : IsFlag flag)
    (hw : ∀ c ∈ w, Text.isLayout c = true) :
    Declaration.withoutFlag text = Text.trimEnd (head ++ front) ++ ';' :: after := by
  have hfront : ';' ∉ head ++ front := by
    have hclean := h.no_semicolon
    rw [hraw] at hclean
    simp only [List.mem_append, not_or] at hclean ⊢
    exact ⟨h.not_mem_head.1, hclean.1⟩
  rw [← Declaration.withoutFlag_of_flag hfront hflag hw, h.text_eq, hraw]
  simp

/-- Without such a flag, the flag is looked for behind the `;`. -/
theorem withoutFlag_of_not_flag (h : IsDivided s text rest head raw after)
    (hflag : ¬ Declaration.EndsInFlag raw) :
    Declaration.withoutFlag text = head ++ (raw ++ ';' :: Declaration.withoutFlag after) := by
  have hclean : ';' ∉ head ++ raw := by
    simp only [List.mem_append, not_or]
    exact ⟨h.not_mem_head.1, h.no_semicolon⟩
  have hends : ¬ Declaration.EndsInFlag (head ++ raw) :=
    mt (Declaration.EndsInFlag.of_append h.not_mem_head.2) hflag
  rw [h.text_eq, ← List.append_assoc, Declaration.withoutFlag_of_not_flag hclean hends,
    List.append_assoc]

/-- Of a value with a flag at its end the core is left, and nothing changes behind it. -/
theorem withoutFlag_of_endsInFlag (h : IsDivided s text rest head raw after)
    (hends : Declaration.EndsInFlag raw) (hcore : Text.isBlank (Declaration.core raw) = false) :
    Declaration.withoutFlag text = head ++ (Declaration.core raw ++ ';' :: after) := by
  obtain ⟨front, flag, w, hflag, hw, hraw⟩ := hends
  rw [hraw, Declaration.core_of_flag hflag hw] at hcore ⊢
  rw [Text.isBlank_trimEnd] at hcore
  rw [h.withoutFlag_of_flag hraw hflag hw, Text.trimEnd_append hcore, List.append_assoc]

/-- Of a written value that holds more than a flag, the core is left. -/
theorem withoutFlag_eq (h : IsDivided s text rest head raw after)
    (hcore : Text.isBlank (Declaration.core raw) = false) :
    ∃ after', (after' = after ∨ after' = Declaration.withoutFlag after) ∧
      Declaration.withoutFlag text = head ++ (Declaration.core raw ++ ';' :: after') := by
  by_cases hends : Declaration.EndsInFlag raw
  · exact ⟨after, .inl rfl, h.withoutFlag_of_endsInFlag hends hcore⟩
  · rw [Declaration.core_of_not_flag hends]
    exact ⟨_, .inr rfl, h.withoutFlag_of_not_flag hends⟩

/-- The head stays the head in front of a core that is not blank. -/
theorem head_core (h : IsDivided s text rest head raw after)
    (hcore : Text.isBlank (Declaration.core raw) = false) (z : Text) :
    IsHead s.name head (Declaration.core raw ++ z) := by
  obtain ⟨u, hu⟩ := Declaration.core_isPrefix raw
  refine h.head.of_head? ?_
  cases hc : Declaration.core raw with
  | nil =>
    rw [hc] at hcore
    exact absurd hcore (by decide)
  | cons c cs =>
    rw [← hu, hc]
    rfl

theorem no_semicolon_core (h : IsDivided s text rest head raw after) :
    ';' ∉ Declaration.core raw :=
  fun hmem => h.no_semicolon ((Declaration.core_isPrefix raw).subset hmem)

/-- A value that holds no `;` is a plain one. -/
theorem isTail (h : IsDivided s text rest head raw after) (hvalue : ';' ∉ s.value) :
    IsTail s.comment after rest := by
  cases h.continues with
  | plain _ htail => exact htail
  | quoted _ hquoted =>
    rw [hquoted] at hvalue
    simp at hvalue

/-- Behind a flag alone no value is read any more. -/
theorem find?_withoutFlag_of_blank (h : IsDivided s text rest head raw after)
    (hcore : Text.isBlank (Declaration.core raw) = true) (hafter : '$' ∉ after) :
    find? (Declaration.withoutFlag text) = none := by
  obtain ⟨front, flag, w, hflag, hfront, hw, hraw⟩ :=
    (Declaration.isFlagOnly_iff h.not_blank).2 hcore
  obtain ⟨head', hhead', htrim⟩ := h.head.trimEnd_append hfront after
  rw [h.withoutFlag_of_flag hraw hflag hw, htrim]
  obtain ⟨body, rfl, hbody⟩ := hhead'.exists_body
  have hclean : '$' ∉ body ++ ';' :: after := by
    have hdollar := hbody '$' (by decide) (by decide) (by decide) (by decide)
    simp [hdollar, hafter]
  rw [find?, Option.map_eq_none_iff, find?_eq_none_iff]
  intro u v hsplit r
  rcases List.cons_eq_append_iff.1 hsplit with ⟨rfl, rfl⟩ | ⟨u, rfl, hbehind⟩
  · exact not_read_of_semicolon hhead' r
  · -- No other `$` is left.
    cases v with
    | nil =>
      exact fun hr => text_ne_nil hr (List.append_eq_nil_iff.1 (reader.split hr).symm).1
    | cons c v =>
      refine refuses_reader (fun hc => hclean ?_) v r
      have hplace : body ++ ';' :: after = u ++ c :: v := hbehind
      rw [hplace, hc]
      simp

end IsDivided

end Statement

namespace Declaration

/-- Read on its own, the text of a statement gives what is written there. This does not
depend on what stood around the statement, nor on how its value ended there. -/
theorem ofText?_of_atByte? {source : Text} {offset : Nat} {m : Reading Statement}
    (hm : Statement.atByte? source offset = .ok (some m)) (hvalue : ';' ∉ m.value.value)
    (hcomment : ∀ s ∈ m.value.comment, '!' ∉ s ∧ '}' ∉ s) :
    (Text.isBlank (core (Statement.writtenValue m.text)) = false →
      ofText? m.text = some
        { name := VariableName.exported m.value.name
          value := Text.unquote (Text.foldLineBreaks
            (Text.trim (core (Statement.writtenValue m.text))))
          fields := m.value.markers.foldl
            (fun fs k => Field.set k.tag (Text.unquote k.quoted) fs) []
          map := none }) ∧
    (Text.isBlank (core (Statement.writtenValue m.text)) = true →
      (∀ s ∈ m.value.comment, '$' ∉ s) → ofText? m.text = none) := by
  obtain ⟨head, raw, after, h⟩ := (Statement.isStatement_of_atByte? hm).exists_divided
  have htail := h.isTail hvalue
  rw [h.writtenValue_eq]
  constructor
  · intro hcore
    obtain ⟨after', hafter', heq⟩ := h.withoutFlag_eq hcore
    have hbang : '!' ∉ after := htail.not_mem (by decide) fun s hs => (hcomment s hs).1
    have hbrace : '}' ∉ after := htail.not_mem (by decide) fun s hs => (hcomment s hs).2
    obtain rfl : after' = after := by
      rcases hafter' with rfl | rfl
      · rfl
      · exact withoutFlag_of_not_mem hbang
    have hopen : ¬ Statement.ClosesNext (after' ++ []) := by
      rintro ⟨u, v, hsplit, _⟩
      rw [List.append_nil] at hsplit
      exact hbrace (by simp [hsplit])
    have hread := Statement.read_of_head (h.head_core hcore _) h.no_semicolon_core hcore hopen
      htail.alone
    rw [List.append_nil, ← heq] at hread
    rw [ofText?, Statement.find?, find?_of_read hread, Option.map_some, Option.map_some,
      ofStatement, attach_eq]
    rfl
  · intro hcore hdollar
    rw [ofText?, h.find?_withoutFlag_of_blank hcore (htail.not_mem (by decide) hdollar)]
    rfl

/-- A statement in a block, with a flag and a marker. -/
def blockSource : Text :=
  "a \x7b $b_c : 1 2 !default ; // @sass-export-x=\"y\"\n\x7d".toList

def blockReading : Reading Statement :=
  ⟨⟨"b_c".toList, "1 2".toList, some "// @sass-export-x=\"y\"".toList⟩,
    "$b_c : 1 2 !default ; // @sass-export-x=\"y\"".toList, "\n\x7d".toList⟩

/-- A statement with nothing but a flag. -/
def flagReading : Reading Statement :=
  ⟨⟨"a".toList, "!default".toList, none⟩, "$a: !default;".toList, []⟩

theorem ofText?_of_atByte?_samples :
    (Statement.atByte? blockSource 4 = .ok (some blockReading) ∧
      ofText? blockReading.text =
        some ⟨"b-c".toList, "1 2".toList, [⟨"x".toList, "y".toList⟩], none⟩) ∧
    Statement.atByte? "$a: !default;".toList 0 = .ok (some flagReading) ∧
      ofText? flagReading.text = none := by
  have hblock : Statement.atByte? blockSource 4 = .ok (some blockReading) := by decide +kernel
  have hflag : Statement.atByte? "$a: !default;".toList 0 = .ok (some flagReading) := by
    decide +kernel
  refine ⟨⟨hblock, ?_⟩, hflag, ?_⟩
  · rw [(ofText?_of_atByte? hblock (by decide) (by decide)).1 (by decide)]
    decide +kernel
  · exact (ofText?_of_atByte? hflag (by decide) (by decide)).2 (by decide) (by decide)

end Declaration

end SassVars
