import SassVars.Proofs.Standalone.Kept
import SassVars.Proofs.Text.Folding

/-!
# Which quoted values are exported whole

A value in quotes may hold a `;` because the braces that follow in the stylesheet keep it
from ending there. Read again on its own it ends at that `;`, unless braces inside the value
have the same effect. Even then it is not whole when a flag stands in front of a later `;`
inside the quotes, since that one is removed in place of the flag behind the value.

Exporting a value removes space and quotes only. So the other characters can be counted to
tell a shortened value from the whole one.

## Main definitions

* `Statement.behindSemicolon`: a value from its first `;` on.
-/

namespace SassVars

open Reader

namespace Text

/-! ## Counting the characters of an exported value -/

variable {c : Char}

theorem count_eq_zero_of_space (hc : isSpace c = false) {w : Text}
    (hw : ∀ d ∈ w, isSpace d = true) : w.count c = 0 := by
  refine List.count_eq_zero.2 fun hmem => ?_
  rw [hw c hmem] at hc
  contradiction

theorem count_trimEnd (hc : isSpace c = false) (t : Text) : (trimEnd t).count c = t.count c := by
  obtain ⟨w, hw, hspace⟩ := (trimEnd_spec t).1
  calc (trimEnd t).count c
      _ = (trimEnd t ++ w).count c := by
        rw [List.count_append, count_eq_zero_of_space hc hspace, Nat.add_zero]
      _ = t.count c := by rw [← hw]

theorem count_trim (hc : isSpace c = false) (t : Text) : (trim t).count c = t.count c := by
  have hrun := isRun_takeWhile isSpace t
  calc (trim t).count c
      _ = (t.takeWhile isSpace ++ t.dropWhile isSpace).count c := by
        rw [trim, count_trimEnd hc, trimStart, List.count_append,
          count_eq_zero_of_space hc hrun.all, Nat.zero_add]
      _ = t.count c := by rw [List.takeWhile_append_dropWhile]

theorem count_foldLineBreaks (hc : isSpace c = false) (t : Text) :
    (foldLineBreaks t).count c = t.count c := by
  have hcount (u : Text) : (u.filter (!isSpace ·)).count c = u.count c :=
    List.count_filter (by simp [hc])
  rw [← hcount, filter_foldLineBreaks, hcount]

theorem count_unquote (hc : isQuote c = false) (t : Text) : (unquote t).count c = t.count c := by
  unfold unquote
  split
  · rfl
  · rename_i q t
    split
    · rename_i hquoted
      simp only [Bool.and_eq_true, beq_iff_eq] at hquoted
      obtain ⟨⟨hq, hlast⟩, _⟩ := hquoted
      have hne : q ≠ c := by
        rintro rfl
        rw [hq] at hc
        contradiction
      obtain ⟨u, rfl⟩ := List.getLast?_eq_some_iff.1 hlast
      rw [List.dropLast_concat, List.count_cons_of_ne hne, List.count_append,
        List.count_singleton, if_neg (by simpa using hne), Nat.add_zero]
    · rfl

end Text

namespace Declaration

/-- Exporting a value removes no character besides space and quotes. -/
theorem count_exportedValue {c : Char} (hspace : Text.isSpace c = false)
    (hquote : Text.isQuote c = false) (value : Text) :
    (exportedValue value).count c = value.count c := by
  rw [exportedValue, Text.count_unquote hquote, Text.count_foldLineBreaks hspace,
    Text.count_trim hspace]

/-- So a value in which such a character is missing is exported otherwise. -/
theorem exportedValue_ne {c : Char} (hspace : Text.isSpace c = false)
    (hquote : Text.isQuote c = false) {value value' : Text} (h : value.count c ≠ value'.count c) :
    exportedValue value ≠ exportedValue value' := by
  intro heq
  rw [← count_exportedValue hspace hquote value, heq, count_exportedValue hspace hquote] at h
  exact h rfl

theorem exportedValue_quoted (u : Text) : exportedValue ('"' :: (u ++ ['"'])) =
    Text.unquote (Text.foldLineBreaks ('"' :: (u ++ ['"']))) := by
  have hlast : ∀ c ∈ ('"' :: (u ++ ['"'])).getLast?, Text.isSpace c = false := by
    rw [← List.cons_append, List.getLast?_concat]
    intro c hc
    cases hc
    rfl
  have htrim : Text.trim ('"' :: (u ++ ['"'])) = '"' :: (u ++ ['"']) := Text.trimEnd_eq_self hlast
  rw [exportedValue, htrim]

theorem value_ofStatement (s : Statement) : (ofStatement s).value = exportedValue s.value := by
  rw [ofStatement, attach_eq, plain]

end Declaration

namespace Statement

/-- The value from behind its first `;` on. -/
def behindSemicolon (value : Text) : Text :=
  (value.dropWhile (· != ';')).drop 1

theorem behindSemicolon_append {raw : Text} (hraw : ';' ∉ raw) (u : Text) :
    behindSemicolon (raw ++ ';' :: u) = u := by
  rw [behindSemicolon, (Text.IsRun.of_not_mem hraw u).dropWhile_eq]
  rfl

/-- Where no plain value ends, a value without a quote inside runs to the next quote. -/
theorem read_valueReader_of_not_mem {raw u e rest : Text} (hraw : ';' ∉ raw)
    (hquote : '"' ∉ raw ++ ';' :: u) (hflag : ∀ value, ¬ IsFlagged value ('"' :: raw))
    (hcloses : ClosesNext (u ++ '"' :: (e ++ rest))) (he : IsTerminator e rest) :
    ∃ r, valueReader.read ('"' :: raw ++ ';' :: (u ++ '"' :: (e ++ rest))) = .ok r ∧
      r.value = '"' :: (raw ++ ';' :: u ++ ['"']) := by
  have hclean : ';' ∉ '"' :: raw := List.not_mem_cons_of_ne_of_not_mem (by decide) hraw
  have hplain := (forall_not_isPlainValue_iff hclean rfl).2 ⟨hcloses, hflag⟩
  have hread := read_quotedValue_of_not_mem hquote (by simp) he
  have hsplit : '"' :: (raw ++ ';' :: u) ++ '"' :: (e ++ rest) =
      '"' :: raw ++ ';' :: (u ++ '"' :: (e ++ rest)) := by simp
  rw [hsplit] at hread
  refine ⟨_, read_orElse_eq_ok_iff.2 (.inr ⟨fun s hs => ?_, hread⟩), rfl⟩
  obtain ⟨value, text, rest', hvalue, heq, _⟩ := read_plainValue_eq_ok_iff.1 hs
  exact hplain value text rest' heq hvalue

end Statement

namespace Declaration

theorem holdsFlag_append_quote {u : Text} : HoldsFlag (u ++ ['"']) ↔ HoldsFlag u := by
  constructor
  · rintro ⟨b, text, y, htext, heq⟩
    rcases (Text.append_mid_eq_append_cons_iff (quote_not_mem_of_isFlagEnd htext)).1 heq.symm with
      ⟨z, hu, _⟩ | ⟨z, _, hz⟩
    · exact ⟨b, text, z, htext, hu⟩
    · obtain ⟨_, _, _, _, rfl⟩ := htext
      simp at hz
  · rintro ⟨b, text, y, htext, rfl⟩
    exact ⟨b, text, y ++ ['"'], htext, by simp⟩

theorem exists_value_iff {text name head t value : Text} {v : Reading Text}
    (heq : withoutFlag text = head ++ t) (hhead : Statement.IsHead name head t)
    (hv : Statement.valueReader.read t = .ok v) :
    (∃ d, ofText? text = some d ∧ d.value = value) ↔ exportedValue v.value = value := by
  obtain ⟨r, hr, _, hvalue⟩ := Statement.find?_of_isHead hhead hv
  rw [ofText?, heq, hr, Option.map_some, ← hvalue, ← value_ofStatement]
  simp

section

variable {s : Statement} {text rest head raw after : Text}

/-- Where no block closes behind the first `;`, a value is cut off there. -/
theorem exists_value_iff_of_open (h : Statement.IsDivided s text rest head raw after)
    (hends : ¬ EndsInFlag raw) (hopen : ¬ Statement.ClosesNext after) {value : Text} :
    (∃ d, ofText? text = some d ∧ d.value = value) ↔ exportedValue raw = value := by
  have hcore : Text.isBlank (core raw) = false := by
    rw [core_of_not_flag hends]
    exact h.not_blank
  have hhead := h.head_core hcore
  rw [core_of_not_flag hends] at hhead
  exact exists_value_iff (h.withoutFlag_of_not_flag hends) (hhead _)
    (Statement.read_valueReader_of_open h.no_semicolon h.not_blank
      (mt Statement.closesNext_withoutFlag.1 hopen))

/-- Where one does, a quoted value is whole unless a flag inside is removed. -/
theorem exists_value_iff_of_closes {u inner e tail : Text}
    (h : Statement.IsDivided s text rest head ('"' :: u) (inner ++ '"' :: (e ++ tail)))
    (hflag : ∀ value, ¬ Statement.IsFlagged value ('"' :: u)) (hquotes : '"' ∉ u ++ ';' :: inner)
    (he : Statement.IsTerminator e tail) (hopen : ¬ Statement.ClosesNext tail)
    (hcloses : Statement.ClosesNext (inner ++ '"' :: (e ++ tail))) :
    (∃ d, ofText? text = some d ∧
        d.value = exportedValue ('"' :: (u ++ ';' :: inner ++ ['"']))) ↔ ¬ HoldsFlag inner := by
  have hends := Statement.not_endsInFlag_of_quote rfl hflag
  have heq := h.withoutFlag_of_not_flag hends
  obtain ⟨inner', z, hafter, ⟨e', rest', he', rfl⟩, hinner⟩ := he.exists_withoutFlag hopen inner
  have hquotes' : '"' ∉ u ++ ';' :: inner' := by
    rcases hinner with ⟨_, rfl⟩ | ⟨b, _, y, _, rfl, rfl⟩
    · exact hquotes
    · obtain ⟨w, hb, _⟩ := (Text.trimEnd_spec b).1
      rw [hb] at hquotes
      simp only [List.mem_append, List.mem_cons, not_or] at hquotes ⊢
      exact ⟨hquotes.1, by decide, hquotes.2.2.1.1, by decide, hquotes.2.2.2.2⟩
  rw [← Statement.closesNext_withoutFlag, hafter] at hcloses
  rw [hafter] at heq
  obtain ⟨v, hv, hvalue⟩ := Statement.read_valueReader_of_not_mem
    (List.not_mem_of_not_mem_cons h.no_semicolon) hquotes' hflag hcloses he'
  rw [exists_value_iff heq (h.head_of_quote rfl) hv, hvalue]
  rcases hinner with ⟨hno, rfl⟩ | ⟨b, _, y, htext, rfl, rfl⟩
  · simp [hno]
  · -- What is read lacks the `!` of the flag.
    refine iff_of_false (exportedValue_ne (c := '!') (by decide) (by decide) ?_)
      fun hno => hno ⟨b, _, y, htext, rfl⟩
    obtain ⟨flag, w, _, _, rfl⟩ := htext
    have htrim := Text.count_trimEnd (c := '!') (by decide) b
    simp only [List.count_append, List.count_cons, htrim]
    grind

end

/-- A value in quotes that holds a `;`, but no quote inside, is exported whole exactly when the
braces behind its first `;` close a block and no flag stands in front of a later `;`. -/
theorem exported_whole_iff {source : Text} {offset : Nat} {m : Reading Statement}
    (hm : Statement.atByte? source offset = .ok (some m)) (hsemicolon : ';' ∈ m.value.value)
    (hquotes : '"' ∉ m.value.value.tail.dropLast)
    (hcomment : ∀ c ∈ m.value.comment, ¬ Statement.ClosesNext c) :
    (∃ d, ofText? m.text = some d ∧
        d.value = Text.unquote (Text.foldLineBreaks m.value.value)) ↔
      Statement.ClosesNext (Statement.behindSemicolon m.value.value) ∧
        ¬ HoldsFlag (Statement.behindSemicolon m.value.value) := by
  obtain ⟨head, raw, after, h⟩ := (Statement.isStatement_of_atByte? hm).exists_divided
  cases h.continues with
  | plain hvalue _ => exact absurd hsemicolon hvalue.no_semicolon
  | @quoted inner e tail hquote hvalue _ _ hflag he htail =>
    obtain ⟨u, rfl⟩ := List.head?_eq_some_iff.1 hquote
    have hwhole : m.value.value = '"' :: (u ++ ';' :: inner ++ ['"']) := by simp [hvalue]
    have hopen := htail.not_closesNext hcomment
    have hlast : ¬ Statement.ClosesNext ['"'] := by decide
    have hend : ¬ Statement.ClosesNext ('"' :: (e ++ tail)) := by
      have hquote : ['"'].filter Text.isBrace = [] := by decide
      rwa [← List.singleton_append, Statement.closesNext_append hquote,
        Statement.closesNext_append he.filter_isBrace]
    have hafter := Statement.closesNext_append_of_not hend inner
    have hbehind : Statement.behindSemicolon m.value.value = inner ++ ['"'] := by
      rw [hvalue, Statement.behindSemicolon_append h.no_semicolon]
    rw [hbehind, holdsFlag_append_quote, Statement.closesNext_append_of_not hlast, hwhole,
      ← exportedValue_quoted]
    rw [hwhole, List.tail_cons, List.dropLast_concat] at hquotes
    by_cases hinner : Statement.ClosesNext inner
    · rw [exists_value_iff_of_closes h hflag hquotes (he.alone hopen) hopen (hafter.2 hinner)]
      simp [hinner]
    · rw [exists_value_iff_of_open h (Statement.not_endsInFlag_of_quote hquote hflag)
        (mt hafter.1 hinner)]
      -- A value that is cut off has no `;` any more.
      refine iff_of_false (exportedValue_ne (c := ';') (by decide) (by decide) ?_)
        fun hcloses => hinner hcloses.1
      rw [List.count_eq_zero.2 h.no_semicolon]
      exact fun hzero => List.count_eq_zero.1 hzero.symm (by simp)

/-- A value whose brace closes the block for both readings. -/
def wholeSource : Text :=
  "\x7b $font: \"a;\x7db\" !default; \x7d".toList

def wholeReading : Reading Statement :=
  ⟨⟨"font".toList, "\"a;\x7db\"".toList, none⟩, "$font: \"a;\x7db\" !default; ".toList,
    "\x7d".toList⟩

theorem exported_whole_sample :
    Statement.atByte? wholeSource 2 = .ok (some wholeReading) ∧
      ∃ d, ofText? wholeReading.text = some d ∧
        d.value = Text.unquote (Text.foldLineBreaks wholeReading.value.value) := by
  have hm : Statement.atByte? wholeSource 2 = .ok (some wholeReading) := by decide +kernel
  exact ⟨hm, (exported_whole_iff hm (by decide) (by decide) (by decide)).2
    ⟨by decide, not_holdsFlag_of_not_mem (by decide)⟩⟩

/-- The value ends in quotes only because of the block around it. -/
def cutSource : Text :=
  "\x7b $font: \"a;b\" !default; \x7d".toList

def cutReading : Reading Statement :=
  ⟨⟨"font".toList, "\"a;b\"".toList, none⟩, "$font: \"a;b\" !default; ".toList, "\x7d".toList⟩

/-- Read on its own the value ends at its `;`. -/
theorem not_exported_whole :
    Statement.atByte? cutSource 2 = .ok (some cutReading) ∧
      Token.list .flat cutSource = [.declaration cutReading.text] ∧
      ¬ ∃ d, ofText? cutReading.text = some d ∧
        d.value = Text.unquote (Text.foldLineBreaks cutReading.value.value) := by
  refine ⟨by decide +kernel, by decide +kernel, ?_⟩
  have hcut : ofText? cutReading.text = some ⟨"font".toList, "\"a".toList, [], none⟩ := by
    decide +kernel
  rintro ⟨d, hd, hvalue⟩
  rw [hcut] at hd
  cases hd
  revert hvalue
  decide +kernel

end Declaration

end SassVars
