import SassVars.Proofs.Scan.Tokens
import SassVars.Proofs.Standalone.Plain

/-!
# Which statements give a declaration

A statement that was found in a source is read again on its own to get its declaration. The
second reading does not see the rest of the source any more. In place of it the comment of
the statement can decide whether a block seems to close behind the value: without its flag a
statement is then lost. No other statement is lost, unless nothing but a flag was written.
-/

namespace SassVars

open Reader

namespace Statement

/-! ## Values behind a head -/

/-- A statement can be read where a value can, since anything can follow that. -/
theorem exists_read_of_isHead {name head t : Text} {v : Reading Text} (hhead : IsHead name head t)
    (hv : valueReader.read t = .ok v) :
    ∃ r, reader.read (head ++ t) = .ok r ∧ r.value.name = name ∧ r.value.value = v.value := by
  obtain ⟨value, text, rest, hvalue, rfl, rfl⟩ := read_valueReader_eq_ok_iff.1 hv
  obtain ⟨comment, tail, rest, htail, rfl⟩ := exists_isTail rest
  exact ⟨⟨⟨name, value, comment⟩, head ++ (text ++ tail), rest⟩,
    read_eq_ok_iff.2 ⟨by simp, head, text, tail, hhead, hvalue, htail, rfl⟩, rfl, rfl⟩

theorem find?_of_isHead {name head t : Text} {v : Reading Text} (hhead : IsHead name head t)
    (hv : valueReader.read t = .ok v) :
    ∃ r, find? (head ++ t) = some r ∧ r.value.name = name ∧ r.value.value = v.value := by
  obtain ⟨r, hr, hparts⟩ := exists_read_of_isHead hhead hv
  exact ⟨r, by rw [find?, find?_of_read hr, Option.map_some], hparts⟩

theorem read_valueReader_of_open {raw z : Text} (hraw : ';' ∉ raw)
    (hblank : Text.isBlank raw = false) (hopen : ¬ ClosesNext z) :
    valueReader.read (raw ++ ';' :: z) = .ok ⟨raw, raw ++ [';'], z⟩ := by
  have hclean : ∀ c ∈ raw, c ≠ ';' := fun c hc h => hraw (h ▸ hc)
  exact read_valueReader_eq_ok_iff.2
    ⟨raw, raw ++ [';'], z, .plain (.topLevel hclean hblank hopen), by simp, rfl⟩

theorem exists_read_valueReader_of_quoted {p z : Text} (hquote : p.head? = some '"')
    (hopen : IsOpen p) (hz : Terminated z) :
    ∃ r, valueReader.read (p ++ '"' :: z) = .ok r := by
  have hhead : (p ++ '"' :: z).head? = some '"' := by
    obtain ⟨u, rfl⟩ := List.head?_eq_some_iff.1 hquote
    rfl
  have hread := exists_read_quotedValue_iff.2 ⟨hhead, p, z, hopen, rfl, hz⟩
  exact exists_read_orElse_iff.2 (.inr hread)

/-! ## Terminators without what follows the statement -/

theorem IsTerminator.alone {e tail rest : Text} (he : IsTerminator e (tail ++ rest))
    (hopen : ¬ ClosesNext tail) : IsTerminator e tail := by
  cases he with
  | flagged hw₁ hflag hw₂ => exact .flagged hw₁ hflag hw₂
  | bare hw _ => exact .bare hw hopen

/-- Without its flag a terminator is a bare one. -/
theorem IsTerminator.withoutFlag {e tail : Text} (he : IsTerminator e tail)
    (hopen : ¬ ClosesNext tail) : Terminated (Declaration.withoutFlag (e ++ tail)) := by
  cases he with
  | @flagged w₁ flag w₂ _ hw₁ hflag hw₂ =>
    have hclean : ';' ∉ w₁ := fun hc => absurd (hw₁ ';' hc) (by decide)
    have hnil : Text.trimEnd w₁ = [] :=
      Text.trimEnd_append_of_space (fun c hc => Text.isSpace_of_isLayout (hw₁ c hc)) []
    have hsplit : w₁ ++ '!' :: (flag ++ (w₂ ++ [';'])) ++ tail =
        w₁ ++ '!' :: (flag ++ w₂) ++ ';' :: tail := by simp
    rw [hsplit, Declaration.withoutFlag_of_flag hclean hflag hw₂, hnil]
    exact ⟨[';'], tail, .bare (w := []) (by simp) hopen, rfl⟩
  | @bare w _ hw _ =>
    have hclean : ';' ∉ w := fun hc => absurd (hw ';' hc) (by decide)
    have hends : ¬ Declaration.EndsInFlag w := by
      rintro ⟨front, flag, u, _, _, rfl⟩
      exact absurd (hw '!' (by simp)) (by decide)
    rw [List.append_assoc, List.singleton_append, Declaration.withoutFlag_of_not_flag hclean hends]
    exact ⟨w ++ [';'], _, .bare hw (mt closesNext_withoutFlag.1 hopen), by simp⟩

/-! ## Quotes without the flag inside -/

/-- Replacing the part of an open text up to a `;` leaves it open. -/
theorem IsOpen.replace {u u' m y : Text} (h : IsOpen (u ++ (m ++ ';' :: y)))
    (hu : u' <+: u) : IsOpen (u' ++ ';' :: y) := by
  obtain ⟨v, rfl⟩ := hu
  rw [isOpen_iff_isChain] at h ⊢
  refine ⟨by simp, List.isChain_append.2 ⟨h.2.left_of_append.left_of_append, ?_, ?_⟩⟩
  · exact h.2.right_of_append.right_of_append
  · intro a _ b hb hquote
    cases hb
    exact absurd hquote (by decide)

theorem not_endsInFlag_of_quote {raw : Text} (hquote : raw.head? = some '"')
    (hflag : ∀ value, ¬ IsFlagged value raw) : ¬ Declaration.EndsInFlag raw := by
  rintro ⟨front, flag, w, hword, hw, rfl⟩
  have hfront : front.head? = some '"' := by
    cases front with
    | nil => simp at hquote
    | cons c front => exact hquote
  exact hflag _ (Declaration.isFlagged_trimEnd hword hw (not_blank_of_quote hfront))

/-- The closing quote of a value is kept, with a terminator behind it. The flag that is removed
stands inside the value, or else behind that quote. -/
theorem IsTerminator.exists_withoutFlag {e tail : Text} (he : IsTerminator e tail)
    (hopen : ¬ ClosesNext tail) (inner : Text) :
    ∃ inner' z, Declaration.withoutFlag (inner ++ '"' :: (e ++ tail)) = inner' ++ '"' :: z ∧
      Terminated z ∧ (¬ Declaration.HoldsFlag inner ∧ inner' = inner ∨
        ∃ b text y, Declaration.IsFlagEnd text ∧ inner = b ++ (text ++ y) ∧
          inner' = Text.trimEnd b ++ ';' :: y) := by
  rcases Declaration.withoutFlag_append_quote inner (e ++ tail) with
    ⟨b, text, y, htext, hinner, heq⟩ | ⟨hno, heq⟩
  · exact ⟨_, _, by rw [heq, List.append_assoc, List.cons_append], ⟨e, tail, he, rfl⟩,
      .inr ⟨b, text, y, htext, hinner, rfl⟩⟩
  · exact ⟨_, _, heq, he.withoutFlag hopen, .inl ⟨hno, rfl⟩⟩

/-- A quoted value can be read again where no block closes in its comment. -/
theorem exists_read_of_quoted {raw inner e tail : Text} (hquote : raw.head? = some '"')
    (hopen : IsOpen (raw ++ ';' :: inner)) (he : IsTerminator e tail) (htail : ¬ ClosesNext tail) :
    ∃ r, valueReader.read
      (raw ++ ';' :: Declaration.withoutFlag (inner ++ '"' :: (e ++ tail))) = .ok r := by
  obtain ⟨inner', z, heq, hz, hinner⟩ := he.exists_withoutFlag htail inner
  have hopen' : IsOpen (raw ++ ';' :: inner') := by
    rcases hinner with ⟨_, rfl⟩ | ⟨b, _, y, ⟨flag, w, _, _, rfl⟩, rfl, rfl⟩
    · exact hopen
    · obtain ⟨v, hb, _⟩ := (Text.trimEnd_spec b).1
      have hreplace : IsOpen (raw ++ ';' :: Text.trimEnd b ++ ';' :: y) := by
        refine IsOpen.replace (u := raw ++ ';' :: b) (m := '!' :: (flag ++ w)) ?_ ?_
        · simpa using hopen
        · exact ⟨v, by rw [List.append_assoc, List.cons_append, ← hb]⟩
      simpa using hreplace
  have hstart : (raw ++ ';' :: inner').head? = some '"' := by
    obtain ⟨v, rfl⟩ := List.head?_eq_some_iff.1 hquote
    rfl
  obtain ⟨r, hr⟩ := exists_read_valueReader_of_quoted hstart hopen' hz
  exact ⟨r, by simpa [heq] using hr⟩

/-- The head stays the head in front of what starts with the same quote. -/
theorem IsDivided.head_of_quote {s : Statement} {text rest head raw after : Text}
    (h : IsDivided s text rest head raw after) (hquote : raw.head? = some '"') {z : Text} :
    IsHead s.name head (raw ++ z) := by
  refine h.head.of_head? ?_
  obtain ⟨u, rfl⟩ := List.head?_eq_some_iff.1 hquote
  rfl

/-- Unless a block closes in its comment, a statement with more than a flag is read again at
its place. -/
theorem IsDivided.exists_find? {s : Statement} {text rest head raw after : Text}
    (h : IsDivided s text rest head raw after)
    (hcore : Text.isBlank (Declaration.core raw) = false)
    (hcomment : ∀ c ∈ s.comment, ¬ ClosesNext c) :
    ∃ r, find? (Declaration.withoutFlag text) = some r ∧ r.value.name = s.name := by
  cases h.continues with
  | plain _ htail =>
    obtain ⟨after', hafter', heq⟩ := h.withoutFlag_eq hcore
    have hopen := htail.not_closesNext hcomment
    have hafter : ¬ ClosesNext after' := by
      rcases hafter' with rfl | rfl
      · exact hopen
      · exact mt closesNext_withoutFlag.1 hopen
    obtain ⟨r, hr, hname, _⟩ := find?_of_isHead (h.head_core hcore _)
      (read_valueReader_of_open h.no_semicolon_core hcore hafter)
    exact ⟨r, heq ▸ hr, hname⟩
  | quoted hquote _ hinner _ hflag he htail =>
    have hends := not_endsInFlag_of_quote hquote hflag
    have hopen := htail.not_closesNext hcomment
    obtain ⟨v, hv⟩ := exists_read_of_quoted hquote hinner (he.alone hopen) hopen
    obtain ⟨r, hr, hname, _⟩ := find?_of_isHead (h.head_of_quote hquote) hv
    exact ⟨r, h.withoutFlag_of_not_flag hends ▸ hr, hname⟩

end Statement

namespace Declaration

/-- Every declaration among the tokens is a statement of the source. When no block closes in
its comment, and more than a flag was written, its text gives a declaration of its name. -/
theorem kept_of_mem_list {mode : Mode} {source text : Text}
    (h : .declaration text ∈ Token.list mode source) :
    ∃ offset m, Statement.atByte? source offset = .ok (some m) ∧ m.text = text ∧
      ((∀ c ∈ m.value.comment, ¬ Statement.ClosesNext c) →
        IsFlagOnly (Statement.writtenValue text) ∨
          ∃ d, ofText? text = some d ∧ d.name = VariableName.exported m.value.name) := by
  obtain ⟨span, hyields⟩ := Token.exists_yields_of_mem_list h
  cases hyields with
  | @statement before m _ _ hm _ htoken =>
    cases htoken with
    | declaration =>
      refine ⟨_, m, hm, rfl, fun hcomment => ?_⟩
      obtain ⟨head, raw, after, hdivided⟩ := (Statement.isStatement_of_atByte? hm).exists_divided
      rw [hdivided.writtenValue_eq, isFlagOnly_iff hdivided.not_blank]
      cases hcore : Text.isBlank (core raw) with
      | true => exact .inl rfl
      | false =>
        obtain ⟨r, hr, hname⟩ := hdivided.exists_find? hcore hcomment
        refine .inr ⟨ofStatement r.value, by rw [ofText?, hr, Option.map_some], ?_⟩
        rw [ofStatement, attach_eq, plain, hname]

/-- A block with one declaration, which has an opening brace in its comment. -/
def keptSource : Text :=
  "b \x7b $a_b: 1 !default; // @sass-export-x=\"\x7b\"\n\x7d".toList

def keptText : Text :=
  "$a_b: 1 !default; // @sass-export-x=\"\x7b\"".toList

/-- No block closes in the comment, more than a flag is written, and the declaration is kept. -/
theorem kept_of_mem_list_sample :
    .declaration keptText ∈ Token.list .structured keptSource ∧
    ∃ offset m, Statement.atByte? keptSource offset = .ok (some m) ∧ m.text = keptText ∧
      (∀ c ∈ m.value.comment, ¬ Statement.ClosesNext c) ∧
      ¬ IsFlagOnly (Statement.writtenValue keptText) ∧
      ∃ d, ofText? keptText = some d ∧ d.name = VariableName.exported m.value.name := by
  have hmem : .declaration keptText ∈ Token.list .structured keptSource := by decide +kernel
  obtain ⟨offset, m, hm, htext, hkept⟩ := kept_of_mem_list hmem
  have hcomment : ∀ c ∈ m.value.comment, ¬ Statement.ClosesNext c := by
    rintro c hc ⟨u, v, rfl, _⟩
    have hsuffix := (Statement.isStatement_of_atByte? hm).comment_isSuffix _ hc
    have hclose : '\x7d' ∈ m.text := hsuffix.subset (by simp)
    rw [htext] at hclose
    exact absurd hclose (by decide)
  have hflag : ¬ IsFlagOnly (Statement.writtenValue keptText) := by
    rw [isFlagOnly_iff (by decide)]
    decide
  exact ⟨hmem, offset, m, hm, htext, hcomment, hflag, (hkept hcomment).resolve_left hflag⟩

/-- A declaration with a closing brace in its comment. -/
def lostSource : Text :=
  "$a: 1 !default; /* @sass-export-x=\"\x7d\" */".toList

/-- Without its flag the declaration is lost, because a block seems to close behind it. -/
theorem not_kept_of_mem_list :
    Token.list .flat lostSource = [.declaration lostSource] ∧
      ¬ IsFlagOnly (Statement.writtenValue lostSource) ∧ ofText? lostSource = none := by
  refine ⟨by decide +kernel, ?_, by decide +kernel⟩
  rw [isFlagOnly_iff (by decide)]
  decide

end Declaration

end SassVars
