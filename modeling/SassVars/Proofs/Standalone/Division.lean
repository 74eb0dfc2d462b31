import SassVars.Proofs.Grammar.Statement
import SassVars.Proofs.Standalone.Flag

/-!
# The first `;` of a statement

The first `;` behind the colon divides the text of a statement into a head, a written value
and what follows. A plain value ends there. A quoted value goes on, because the braces that
follow in the stylesheet keep a plain value from ending there.

Read on its own, a text with such a head is a statement as soon as some value can be read
behind the head, since anything can follow a value.

## Main definitions

* `Statement.writtenValue`: the value as it stands in the text.
* `Statement.IsDivided`: a statement divided at that `;`.
-/

namespace SassVars

open Reader

namespace Statement

/-! ## Heads -/

/-- A head is the same in front of another text that starts alike. -/
theorem IsHead.of_head? {name text rest rest' : Text} (h : IsHead name text rest)
    (hrest : rest'.head? = rest.head?) : IsHead name text rest' := by
  obtain ⟨n, w₁, w₂, hn, hw₁, hw₂, rfl⟩ := h
  exact ⟨n, w₁, w₂, hn, hw₁, ⟨hw₂.all, hrest ▸ hw₂.stops⟩, rfl⟩

/-- A text has one head only. -/
theorem IsHead.unique {name name' text text' rest rest' : Text} (h : IsHead name text rest)
    (h' : IsHead name' text' rest') (heq : text ++ rest = text' ++ rest') :
    name = name' ∧ rest = rest' := by
  have hread := read_head_eq_ok_iff.2 ⟨name, text, rest, h, rfl, rfl⟩
  have hread' := read_head_eq_ok_iff.2 ⟨name', text', rest', h', heq, rfl⟩
  rw [hread] at hread'
  cases hread'
  exact ⟨rfl, rfl⟩

/-- A name in its quotes holds no character of another use. -/
theorem not_mem_variableName {name n : Text} (h : IsVariableName name n) {c : Char}
    (hident : Text.isIdentChar c = false) (hquote : Text.isQuote c = false) : c ∉ n := by
  obtain ⟨q₁, q₂, hq₁, hname, hq₂, rfl⟩ := h
  have hquotes {q : Text} (hq : IsOptionalQuote q) : c ∉ q := by
    rcases hq with rfl | ⟨e, he, rfl⟩
    · simp
    · intro hc
      rw [List.mem_singleton.1 hc, he] at hquote
      contradiction
  simp only [List.mem_append, not_or]
  exact ⟨hquotes hq₁, hname.not_mem hident, hquotes hq₂⟩

/-- Behind its `$` a head holds no character of another use. -/
theorem IsHead.exists_body {name text rest : Text} (h : IsHead name text rest) :
    ∃ body, text = '$' :: body ∧ ∀ c, c ≠ ':' → Text.isIdentChar c = false →
      Text.isQuote c = false → Text.isLayout c = false → c ∉ body := by
  obtain ⟨n, w₁, w₂, hn, hw₁, hw₂, rfl⟩ := h
  refine ⟨_, rfl, fun c hcolon hident hquote hlayout => ?_⟩
  have hspace {w : Text} (hw : ∀ d ∈ w, Text.isLayout d = true) : c ∉ w := by
    intro hc
    rw [hw c hc] at hlayout
    contradiction
  simp only [List.mem_append, List.mem_cons, not_or]
  exact ⟨not_mem_variableName hn hident hquote, hspace hw₁, hcolon, hspace hw₂.all⟩

/-! ## Written values -/

/-- The value as it stands in the text of a statement: behind the colon and the layout there,
up to the first `;`. -/
def writtenValue (text : Text) : Text :=
  (((text.dropWhile (· != ':')).drop 1).dropWhile Text.isLayout).takeWhile (· != ';')

theorem writtenValue_eq {name head raw after : Text}
    (hhead : IsHead name head (raw ++ ';' :: after)) (hraw : ';' ∉ raw) :
    writtenValue (head ++ (raw ++ ';' :: after)) = raw := by
  obtain ⟨n, w₁, w₂, hn, hw₁, hw₂, rfl⟩ := hhead
  have hcolon : Text.IsRun (· != ':') ('$' :: (n ++ w₁))
      (':' :: (w₂ ++ (raw ++ ';' :: after))) := by
    refine .of_not_mem ?_ _
    simp only [List.mem_cons, List.mem_append, not_or]
    exact ⟨by decide, not_mem_variableName hn (by decide) (by decide),
      fun hc => absurd (hw₁ ':' hc) (by decide)⟩
  have hsplit : '$' :: (n ++ (w₁ ++ ':' :: w₂)) ++ (raw ++ ';' :: after) =
      '$' :: (n ++ w₁) ++ ':' :: (w₂ ++ (raw ++ ';' :: after)) := by simp
  rw [writtenValue, hsplit, hcolon.dropWhile_eq, List.drop_succ_cons, List.drop_zero,
    hw₂.dropWhile_eq, (Text.IsRun.of_not_mem hraw after).takeWhile_eq]

/-! ## Tails -/

theorem exists_isTail (t : Text) :
    ∃ comment tail rest, IsTail comment tail rest ∧ t = tail ++ rest := by
  have hread : ∃ r, Statement.tail.read t = .ok r := by
    rw [tail_eq, exists_read_orElse_iff, exists_read_orElse_iff]
    exact .inr (.inr ⟨_, rfl⟩)
  obtain ⟨r, hr⟩ := hread
  obtain ⟨comment, tail, rest, htail, ht, _⟩ := read_tail_eq_ok_iff.1 hr
  exact ⟨comment, tail, rest, htail, ht⟩

/-- A tail is its comment behind space, or space alone. -/
theorem IsTail.eq_append {comment : Option Text} {tail rest : Text}
    (h : IsTail comment tail rest) :
    ∃ w, (∀ c ∈ w, Text.isSpace c = true) ∧ tail = w ++ comment.getD [] := by
  cases h with
  | block hw hs => exact ⟨_, fun c hc => Text.isSpace_of_isLayout (hw c hc), rfl⟩
  | line hw hs hrest =>
    exact ⟨_, fun c hc => Text.isSpace_of_isLayout (Text.isLayout_of_isInline (hw c hc)), rfl⟩
  | space hw hcomment => exact ⟨_, hw.all, by simp⟩

/-- The next brace of a tail is the one of its comment. -/
theorem IsTail.closesNext_iff {comment : Option Text} {tail rest : Text}
    (h : IsTail comment tail rest) : ClosesNext tail ↔ ∃ s ∈ comment, ClosesNext s := by
  obtain ⟨w, hw, rfl⟩ := h.eq_append
  rw [closesNext_append (Declaration.filter_isBrace_of_space hw)]
  cases comment with
  | none => simp [ClosesNext]
  | some s => simp

/-- The comment of a statement is the end of its text. -/
theorem IsStatement.comment_isSuffix {s : Statement} {text rest : Text}
    (h : IsStatement s text rest) : ∀ c ∈ s.comment, c <:+ text := by
  obtain ⟨head, value, tail, _, _, htail, rfl⟩ := h
  obtain ⟨w, _, rfl⟩ := htail.eq_append
  intro c hc
  exact ⟨head ++ (value ++ w), by simp [Option.mem_def.1 hc]⟩

theorem IsTail.not_closesNext {comment : Option Text} {tail rest : Text}
    (h : IsTail comment tail rest) (hcomment : ∀ c ∈ comment, ¬ ClosesNext c) :
    ¬ ClosesNext tail := by
  intro hcloses
  obtain ⟨c, hc, hcloses⟩ := h.closesNext_iff.1 hcloses
  exact hcomment c hc hcloses

theorem IsTail.not_mem {comment : Option Text} {tail rest : Text} (h : IsTail comment tail rest)
    {c : Char} (hc : Text.isSpace c = false) (hcomment : ∀ s ∈ comment, c ∉ s) : c ∉ tail := by
  obtain ⟨w, hw, rfl⟩ := h.eq_append
  intro hmem
  rcases List.mem_append.1 hmem with hmem | hmem
  · rw [hw c hmem] at hc
    contradiction
  · cases comment with
    | none => simp at hmem
    | some s => exact hcomment s rfl hmem

/-- Every comment starts with a slash. -/
theorem StartsWithComment.slash_mem {t : Text} (h : StartsWithComment t) : '/' ∈ t := by
  cases h with
  | block _ hs =>
    obtain ⟨body, u, _, _, rfl⟩ := hs
    simp
  | line _ hs =>
    obtain ⟨_, body, _, rfl⟩ := hs
    simp

theorem isTail_nil : IsTail none [] [] :=
  .space ⟨by simp, by simp⟩ fun hcomment => by simpa using hcomment.slash_mem

/-- The tail of a statement is the same where the text of the statement stands alone. -/
theorem IsTail.alone {comment : Option Text} {tail rest : Text} (h : IsTail comment tail rest) :
    IsTail comment tail [] := by
  cases h with
  | block hw hs => exact .block hw hs
  | line hw hs _ =>
    exact .line hw hs (Marker.not_startsBehind (w := []) rfl (by simp) (by simp))
  | space hw _ =>
    refine .space ⟨hw.all, by simp⟩ fun hcomment => ?_
    have hslash := hcomment.slash_mem
    rw [List.append_nil] at hslash
    exact absurd (hw.all '/' hslash) (by decide)

/-! ## Division at the first `;` -/

/-- What stands behind the first `;` of a statement whose value is written `raw` up to there. -/
inductive Continues (s : Statement) (raw rest : Text) : Text → Prop where
  | plain {tail : Text} (hvalue : IsPlainValue s.value (raw ++ [';']) (tail ++ rest))
      (htail : IsTail s.comment tail rest) : Continues s raw rest tail
  | quoted {inner e tail : Text} (hquote : raw.head? = some '"')
      (hvalue : s.value = raw ++ ';' :: (inner ++ ['"'])) (hopen : IsOpen (raw ++ ';' :: inner))
      (hcloses : ClosesNext (inner ++ '"' :: (e ++ (tail ++ rest))))
      (hflag : ∀ value, ¬ IsFlagged value raw) (he : IsTerminator e (tail ++ rest))
      (htail : IsTail s.comment tail rest) : Continues s raw rest (inner ++ '"' :: (e ++ tail))

/-- A statement with its text divided at the first `;` behind the colon. -/
structure IsDivided (s : Statement) (text rest head raw after : Text) : Prop where
  text_eq : text = head ++ (raw ++ ';' :: after)
  head : IsHead s.name head (raw ++ ';' :: after)
  no_semicolon : ';' ∉ raw
  not_blank : Text.isBlank raw = false
  continues : Continues s raw rest after

theorem IsPlainValue.exists_raw {value text rest : Text} (h : IsPlainValue value text rest) :
    ∃ raw, text = raw ++ [';'] ∧ ';' ∉ raw ∧ Text.isBlank raw = false := by
  cases h with
  | topLevel hraw hblank _ => exact ⟨_, rfl, fun h => hraw _ h rfl, hblank⟩
  | inBlock hraw _ hflag => exact ⟨_, rfl, fun h => hraw _ h rfl, hflag.not_blank⟩

theorem not_blank_of_quote {t : Text} (h : t.head? = some '"') : Text.isBlank t = false := by
  obtain ⟨u, rfl⟩ := List.head?_eq_some_iff.1 h
  rfl

/-- A quoted value that holds no `;` would be a plain one. -/
theorem IsTerminator.semicolon_mem {p e rest : Text} (he : IsTerminator e rest)
    (hquote : (p ++ ['"']).head? = some '"')
    (hplain : ∀ value text' rest', p ++ '"' :: (e ++ rest) = text' ++ rest' →
      ¬ IsPlainValue value text' rest') : ';' ∈ p := by
  refine Classical.byContradiction fun hp => ?_
  have hlayout {w : Text} (hw : ∀ c ∈ w, Text.isLayout c = true) : ';' ∉ w :=
    fun hc => absurd (hw ';' hc) (by decide)
  have hstart (u : Text) : (p ++ '"' :: u).head? = some '"' := by
    cases p with
    | nil => rfl
    | cons c p => exact hquote
  cases he with
  | @flagged w₁ flag w₂ _ hw₁ hflag hw₂ =>
    have hclean : ';' ∉ p ++ '"' :: w₁ ++ '!' :: (flag ++ w₂) := by
      have hword := Declaration.not_mem_flag hflag hw₂ (c := ';') (by decide) (by decide)
      simp only [List.mem_append, List.mem_cons, not_or] at hword ⊢
      exact ⟨⟨hp, by decide, hlayout hw₁⟩, by decide, hword⟩
    have hblank := not_blank_of_quote (t := p ++ '"' :: w₁ ++ '!' :: (flag ++ w₂))
      (by simpa using hstart (w₁ ++ '!' :: (flag ++ w₂)))
    have hfront := not_blank_of_quote (hstart w₁)
    have hno : ClosesNext rest ∧ ∀ value, ¬ IsFlagged value _ :=
      (forall_not_isPlainValue_iff hclean hblank).1 fun v t r heq =>
        hplain v t r (by simpa using heq)
    exact hno.2 _ (Declaration.isFlagged_trimEnd hflag hw₂ hfront)
  | @bare w _ hw hrest =>
    have hclean : ';' ∉ p ++ '"' :: w := by
      simp only [List.mem_append, List.mem_cons, not_or]
      exact ⟨hp, by decide, hlayout hw⟩
    have hno : ClosesNext rest ∧ ∀ value, ¬ IsFlagged value _ :=
      (forall_not_isPlainValue_iff hclean (not_blank_of_quote (hstart w))).1 fun v t r heq =>
        hplain v t r (by simpa using heq)
    exact hrest hno.1

/-- Every statement is divided at a first `;` behind its colon. -/
theorem IsStatement.exists_divided {s : Statement} {text rest : Text}
    (h : IsStatement s text rest) : ∃ head raw after, IsDivided s text rest head raw after := by
  obtain ⟨head, v, tail, hhead, hvalue, htail, rfl⟩ := h
  cases hvalue with
  | plain h =>
    obtain ⟨raw, rfl, hraw, hblank⟩ := h.exists_raw
    refine ⟨head, raw, tail, by simp, hhead.of_head? ?_, hraw, hblank, .plain h htail⟩
    cases raw <;> rfl
  | quoted hplain h =>
    obtain ⟨before, i, after, e, hquote, horder, _, hv, rfl, he⟩ := h
    have hclose : MayClose (s.value ++ e ++ (tail ++ rest)) i :=
      mem_closingOrder_iff.1 (by rw [horder]; simp)
    obtain ⟨p, z, hp, hsplit, rfl⟩ := mayClose_iff_exists.1 hclose
    have hvalue : s.value = p ++ ['"'] := by
      rw [hv, hsplit, List.take_length_add_append]
      rfl
    have hplain' : ∀ value text' rest', p ++ '"' :: (e ++ (tail ++ rest)) = text' ++ rest' →
        ¬ IsPlainValue value text' rest' :=
      fun v t r heq => hplain v t r (by rw [← heq, hvalue]; simp)
    have hquote' : (p ++ ['"']).head? = some '"' := by
      rw [hvalue] at hquote
      cases p with
      | nil => rfl
      | cons c p => exact hquote
    obtain ⟨raw, inner, rfl, hraw⟩ := List.eq_append_cons_of_mem (he.semicolon_mem hquote' hplain')
    have hquote'' : raw.head? = some '"' := by
      cases raw with
      | nil => simp at hquote'
      | cons c raw => simpa using hquote'
    have hblank := not_blank_of_quote hquote''
    have hno : ClosesNext (inner ++ '"' :: (e ++ (tail ++ rest))) ∧
        ∀ value, ¬ IsFlagged value raw :=
      (forall_not_isPlainValue_iff hraw hblank).1 fun v t r heq =>
        hplain' v t r (by rw [← heq]; simp)
    refine ⟨head, raw, inner ++ '"' :: (e ++ tail), by simp [hvalue], hhead.of_head? ?_, hraw,
      hblank, .quoted hquote'' (by simp [hvalue]) hp hno.1 hno.2 he htail⟩
    cases raw with
    | nil => simp at hquote''
    | cons c raw => simp [hvalue]

end Statement

end SassVars
