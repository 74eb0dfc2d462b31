import SassVars.Proofs.Scan.Tokens
import SassVars.Proofs.Standalone.Division

/-!
# Declarations inside of blocks

Without a flag a declaration counts at the top level only. What decides is the next brace
behind its `;`, and not how many blocks are open there. Where the braces of a source are
balanced, the two agree but for one case: in front of a block inside of a block the next brace
opens one, so a declaration there is taken for one at the top level.

## Main definitions

* `Text.depth`: how many blocks are open behind a text.
* `Text.IsBalanced`: every block is closed, and only blocks that are open.
* `Statement.ClosedByFlag`: a flag stands in front of the `;` of a statement.
-/

namespace SassVars

open Reader

/-! ## Depth -/

namespace Text

/-- How many blocks are open behind a text. -/
def depth (t : Text) : Int :=
  t.count '{' - t.count '}'

/-- Every block is closed, and only blocks that are open. -/
structure IsBalanced (t : Text) : Prop where
  opened : ∀ before, before <+: t → 0 ≤ depth before
  closed : depth t = 0

instance (t : Text) : Decidable (IsBalanced t) :=
  decidable_of_iff ((∀ before ∈ t.inits, 0 ≤ depth before) ∧ depth t = 0) <| by
    simp only [List.mem_inits]
    exact ⟨fun h => ⟨h.1, h.2⟩, fun h => ⟨h.1, h.2⟩⟩

@[simp]
theorem depth_append (s t : Text) : depth (s ++ t) = depth s + depth t := by
  simp only [depth, List.count_append]
  omega

theorem depth_of_no_brace {t : Text} (h : ∀ c ∈ t, isBrace c = false) : depth t = 0 := by
  have hopen : '{' ∉ t := fun hmem => absurd (h _ hmem) (by decide)
  have hclose : '}' ∉ t := fun hmem => absurd (h _ hmem) (by decide)
  simp [depth, List.count_eq_zero_of_not_mem hopen, List.count_eq_zero_of_not_mem hclose]

end Text

namespace Statement

open Text (depth IsBalanced)

/-- The next brace in `t` opens a block. -/
def OpensNext (t : Text) : Prop :=
  ∃ u v, t = u ++ '{' :: v ∧ ∀ c ∈ u, Text.isBrace c = false

theorem brace_cases (t : Text) :
    (∀ c ∈ t, Text.isBrace c = false) ∨ OpensNext t ∨ ClosesNext t := by
  cases h : t.find? Text.isBrace with
  | none => exact .inl (by simpa using h)
  | some c =>
    obtain ⟨hc, u, v, rfl, hu⟩ := List.find?_eq_some_iff_append.1 h
    have hu' : ∀ d ∈ u, Text.isBrace d = false := by simpa using hu
    simp only [Text.isBrace, Bool.or_eq_true, beq_iff_eq] at hc
    rcases hc with rfl | rfl
    · exact .inr (.inl ⟨u, v, rfl, hu'⟩)
    · exact .inr (.inr ⟨u, v, rfl, hu'⟩)

/-- Where no block closes next, either none is open or the next brace opens another. -/
theorem depth_eq_zero_or_opensNext {before rest : Text} (hbalanced : IsBalanced (before ++ rest))
    (hrest : ¬ ClosesNext rest) : depth before = 0 ∨ OpensNext rest := by
  rcases brace_cases rest with hnone | hopens | hcloses
  · have hclosed := hbalanced.closed
    rw [Text.depth_append, Text.depth_of_no_brace hnone, Int.add_zero] at hclosed
    exact .inl hclosed
  · exact .inr hopens
  · exact absurd hcloses hrest

/-! ## Statements without a flag -/

/-- A flag stands in front of the `;` that closes a statement. -/
def ClosedByFlag (s : Statement) (text : Text) : Prop :=
  ∃ front flag w₁ w₂, IsFlag flag ∧ (∀ c ∈ w₁, Text.isSpace c = true) ∧
    (∀ c ∈ w₂, Text.isSpace c = true) ∧
    text = front ++ '!' :: (flag ++ (w₁ ++ ';' :: (w₂ ++ s.comment.getD [])))

theorem ClosedByFlag.bang_mem {s : Statement} {text : Text} (h : ClosedByFlag s text) :
    '!' ∈ text := by
  obtain ⟨front, flag, w₁, w₂, _, _, _, rfl⟩ := h
  simp

/-- The value of a statement ends in a flag, or else no block closes next. -/
theorem IsValue.flagged_or_open {value text rest : Text} (h : IsValue value text rest) :
    (∃ front flag w, IsFlag flag ∧ (∀ c ∈ w, Text.isSpace c = true) ∧
      text = front ++ '!' :: (flag ++ (w ++ [';']))) ∨ ¬ ClosesNext rest := by
  cases h with
  | plain h =>
    cases h with
    | topLevel _ _ hopen => exact .inr hopen
    | inBlock _ _ hflag =>
      obtain ⟨w₁, flag, w₂, rfl, hword, _, hw₂, _, _⟩ := hflag
      exact .inl ⟨value ++ w₁, flag, w₂, hword, hw₂, by simp⟩
  | quoted _ h =>
    obtain ⟨_, _, _, e, _, _, _, _, rfl, he⟩ := h
    cases he with
    | @flagged w₁ flag w₂ _ _ hword hw₂ =>
      exact .inl ⟨value ++ w₁, flag, w₂, hword, fun c hc => Text.isSpace_of_isLayout (hw₂ c hc),
        by simp⟩
    | bare _ hopen => exact .inr hopen

theorem IsStatement.not_closesNext {s : Statement} {text rest : Text} (h : IsStatement s text rest)
    (hflag : ¬ ClosedByFlag s text) (hbrace : ∀ c ∈ text, Text.isBrace c = false) :
    ¬ ClosesNext rest := by
  obtain ⟨head, value, tail, _, hvalue, htail, rfl⟩ := h
  rcases hvalue.flagged_or_open with ⟨front, flag, w, hword, hw, rfl⟩ | hopen
  · obtain ⟨w', hw', rfl⟩ := htail.eq_append
    exact absurd ⟨head ++ front, flag, w, w', hword, hw, hw', by simp⟩ hflag
  · have htail : tail.filter Text.isBrace = [] := by
      simp only [List.filter_eq_nil_iff, Bool.not_eq_true]
      exact fun c hc => hbrace c (by simp [hc])
    rwa [closesNext_append htail] at hopen

end Statement

/-! ## Tokens -/

namespace Token

open Text (depth IsBalanced)
open Statement (ClosedByFlag OpensNext)

theorem exists_statement_of_mem_scan {mode : Mode} {source : Text} {r : Reading Token}
    (hr : r ∈ scan mode source) (hdeclaration : isDeclaration r.value = true) :
    ∃ m, Statement.reader.read (r.text ++ r.rest) = .ok m ∧ m.text = r.text ∧ m.rest = r.rest := by
  rcases read_reader_eq_ok_iff.1 (read_of_mem_scan hr) with ⟨m, hm, heq⟩ | ⟨_, hmarker⟩
  · have htext : r.text = m.text := congrArg Reading.text heq
    have hrest : r.rest = m.rest := congrArg Reading.rest heq
    exact ⟨m, hm, htext.symm, hrest.symm⟩
  · rw [isDeclaration_ofMarker hmarker] at hdeclaration
    contradiction

/-- In a source with balanced braces, take a declaration among the tokens whose text holds no
brace and whose `;` has no flag in front of it. No block is open where it starts, or else the
next brace behind it opens another block. -/
theorem depth_eq_zero_or_opensNext_of_mem_scan {mode : Mode} {source : Text}
    (hbalanced : IsBalanced source) :
    ∀ r ∈ scan mode source, isDeclaration r.value = true →
      ∃ before m, source = before ++ (r.text ++ r.rest) ∧
        Statement.atByte? source (Text.byteLength before) = .ok (some m) ∧ m.text = r.text ∧
        ((∀ c ∈ r.text, Text.isBrace c = false) → ¬ ClosedByFlag m.value r.text →
          depth before = 0 ∨ OpensNext r.rest) := by
  intro r hr hdeclaration
  obtain ⟨before, rfl⟩ := exists_append_of_mem_scan hr
  obtain ⟨m, hm, htext, hrest⟩ := exists_statement_of_mem_scan hr hdeclaration
  refine ⟨before, m, rfl, ?_, htext, fun hbrace hflag => ?_⟩
  · rw [Statement.atByte?_append, read?_eq_some_iff.2 hm]
  · have hstatement := (Statement.read_eq_ok_iff.1 hm).2
    rw [htext, hrest] at hstatement
    have hopen := hstatement.not_closesNext hflag hbrace
    rw [← List.append_assoc] at hbalanced
    have hdepth := Statement.depth_eq_zero_or_opensNext hbalanced hopen
    rwa [Text.depth_append, Text.depth_of_no_brace hbrace, Int.add_zero] at hdepth

/-- A block with a declaration and a block behind that. -/
def nestedSource : Text :=
  "a \x7b $x: 1; b \x7b c: d; \x7d \x7d".toList

def nestedReading : Reading Token :=
  ⟨.declaration "$x: 1; ".toList, "$x: 1; ".toList, "b \x7b c: d; \x7d \x7d".toList⟩

theorem isBrace_nestedReading : ∀ c ∈ nestedReading.text, Text.isBrace c = false := by
  have hbrace : nestedReading.text.all (!Text.isBrace ·) = true := by decide
  simpa using hbrace

theorem not_closedByFlag_nestedReading (s : Statement) : ¬ ClosedByFlag s nestedReading.text :=
  fun h => absurd h.bang_mem (by decide)

/-- The declaration has neither braces nor a flag, and it is the next block that opens. -/
theorem depth_eq_zero_or_opensNext_nested :
    IsBalanced nestedSource ∧ nestedReading ∈ scan .flat nestedSource ∧
      isDeclaration nestedReading.value = true ∧
      ∃ before m, nestedSource = before ++ (nestedReading.text ++ nestedReading.rest) ∧
        Statement.atByte? nestedSource (Text.byteLength before) = .ok (some m) ∧
        m.text = nestedReading.text ∧
        (∀ c ∈ nestedReading.text, Text.isBrace c = false) ∧
        ¬ ClosedByFlag m.value nestedReading.text ∧
        (depth before = 0 ∨ OpensNext nestedReading.rest) := by
  have hbalanced : IsBalanced nestedSource := by decide +kernel
  have hmem : nestedReading ∈ scan .flat nestedSource := by decide +kernel
  obtain ⟨before, m, hsplit, hm, htext, hdepth⟩ :=
    depth_eq_zero_or_opensNext_of_mem_scan hbalanced nestedReading hmem rfl
  have hflag := not_closedByFlag_nestedReading m.value
  exact ⟨hbalanced, hmem, rfl, before, m, hsplit, hm, htext, isBrace_nestedReading, hflag,
    hdepth isBrace_nestedReading hflag⟩

/-- A declaration without a flag that both modes find in an open block. -/
theorem not_depth_eq_zero_of_mem_scan :
    IsBalanced nestedSource ∧
    scan .flat nestedSource = [nestedReading] ∧ scan .structured nestedSource = [nestedReading] ∧
    isDeclaration nestedReading.value = true ∧
    (∀ c ∈ nestedReading.text, Text.isBrace c = false) ∧
    (∀ s : Statement, ¬ ClosedByFlag s nestedReading.text) ∧
    nestedSource = "a \x7b ".toList ++ (nestedReading.text ++ nestedReading.rest) ∧
    depth "a \x7b ".toList = 1 := by
  exact ⟨by decide +kernel, by decide +kernel, by decide +kernel, rfl, isBrace_nestedReading,
    not_closedByFlag_nestedReading, rfl, by decide⟩

end Token

end SassVars
