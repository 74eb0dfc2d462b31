import SassVars.Declaration.Parse
import SassVars.Proofs.Grammar.Value

/-!
# Removing the flag of a statement

Before the text of a statement is read on its own, its first flag is replaced by `;`. The
first `;` of the text divides what can happen: either a flag stands right in front of it and
goes, or everything up to it stays and the flag is looked for behind it.

Nothing but a flag and space is ever removed, so the braces of a text stay as they are.

## Main definitions

* `Declaration.IsFlagEnd`: a flag up to its `;`.
* `Declaration.EndsInFlag`: a text that a flag ends.
* `Declaration.core`: a written value without the flag at its end.
* `Declaration.IsFlagOnly`: a written value of nothing but space and a flag.
-/

namespace SassVars

open Reader

namespace Text

/-! ## Cutting off the end of a text -/

theorem trimEnd_cons {c : Char} (hc : isSpace c = false) (t : Text) :
    trimEnd (c :: t) = c :: trimEnd t := by
  rw [trimEnd, List.reverse_cons, List.dropWhile_append, isEmpty_dropWhile_isSpace,
    isBlank_reverse, trimEnd]
  split
  · rename_i hblank
    have hnil : t.reverse.dropWhile isSpace = [] := by
      rw [← List.isEmpty_iff, isEmpty_dropWhile_isSpace, isBlank_reverse, hblank]
    simp [hnil, hc]
  · simp

/-- Nothing is cut off in front of a character that is no space. -/
theorem trimEnd_append_cons {c : Char} (hc : isSpace c = false) (s t : Text) :
    trimEnd (s ++ c :: t) = s ++ c :: trimEnd t := by
  have hblank : isBlank (c :: t) = false := by simp [isBlank, hc]
  rw [trimEnd_append hblank, trimEnd_cons hc]

/-! ## Splitting a text at a character -/

/-- Where a character falls that stands outside of `mid`. -/
theorem append_mid_eq_append_cons_iff {before mid rest u z : Text} {c : Char} (hc : c ∉ mid) :
    before ++ (mid ++ rest) = u ++ c :: z ↔
      (∃ y, u = before ++ (mid ++ y) ∧ rest = y ++ c :: z) ∨
        ∃ b, before = u ++ c :: b ∧ z = b ++ (mid ++ rest) := by
  constructor
  · intro h
    rcases List.append_eq_append_iff.1 h with ⟨v, rfl, hv⟩ | ⟨v, rfl, hv⟩
    · rcases List.append_eq_append_iff.1 hv with ⟨y, rfl, hy⟩ | ⟨y, rfl, hy⟩
      · exact .inl ⟨y, by simp, hy⟩
      · cases y with
        | nil => exact .inl ⟨[], by simp, by simpa using hy.symm⟩
        | cons d y =>
          cases hy
          exact absurd (by simp) hc
    · cases v with
      | nil =>
        cases mid with
        | nil => exact .inl ⟨[], by simp, by simpa using hv.symm⟩
        | cons d mid =>
          cases hv
          exact absurd (by simp) hc
      | cons d v =>
        cases hv
        exact .inr ⟨v, rfl, rfl⟩
  · rintro (⟨y, rfl, rfl⟩ | ⟨b, rfl, rfl⟩) <;> simp

/-- A character that the front does not hold stands behind it. -/
theorem append_eq_append_cons_iff {front rest u z : Text} {c : Char} (hc : c ∉ front) :
    front ++ rest = u ++ c :: z ↔ ∃ y, u = front ++ y ∧ rest = y ++ c :: z := by
  have h : [] ++ (front ++ rest) = u ++ c :: z ↔ _ := append_mid_eq_append_cons_iff hc
  simpa using h

/-- The last character stands behind every other one. -/
theorem concat_eq_append_cons_iff {u a b : Text} {c d : Char} (hne : d ≠ c) :
    u ++ [c] = a ++ d :: b ↔ ∃ b', b = b' ++ [c] ∧ u = a ++ d :: b' := by
  constructor
  · intro heq
    rcases List.eq_nil_or_concat b with rfl | ⟨b', e, rfl⟩
    · have hlast := congrArg List.getLast? heq
      simp [hne.symm] at hlast
    · have hsplit : u ++ [c] = (a ++ d :: b') ++ [e] := by simpa using heq
      obtain ⟨rfl, hc⟩ := List.append_inj' hsplit rfl
      cases hc
      exact ⟨b', List.concat_eq_append, rfl⟩
  · rintro ⟨b', rfl, rfl⟩
    simp

end Text

namespace Declaration

/-! ## Flags up to their `;` -/

/-- A flag with its `!`, the layout behind it and the `;`. -/
def IsFlagEnd (text : Text) : Prop :=
  ∃ flag w, Statement.IsFlag flag ∧ (∀ c ∈ w, Text.isLayout c = true) ∧
    text = '!' :: (flag ++ (w ++ [';']))

/-- A flag stands at the end of `u`, with nothing but layout behind it. -/
def EndsInFlag (u : Text) : Prop :=
  ∃ front flag w, Statement.IsFlag flag ∧ (∀ c ∈ w, Text.isLayout c = true) ∧
    u = front ++ '!' :: (flag ++ w)

theorem EndsInFlag.bang_mem {u : Text} (h : EndsInFlag u) : '!' ∈ u := by
  obtain ⟨_, _, _, _, _, rfl⟩ := h
  simp

/-- The flag at the end of a text starts behind everything that has no `!`. -/
theorem EndsInFlag.of_append {u v : Text} (hu : '!' ∉ u) (h : EndsInFlag (u ++ v)) :
    EndsInFlag v := by
  obtain ⟨front, flag, w, hflag, hw, heq⟩ := h
  rcases List.append_eq_append_iff.1 heq with ⟨a, rfl, hv⟩ | ⟨a, rfl, ha⟩
  · exact ⟨a, flag, w, hflag, hw, hv⟩
  · cases a with
    | nil => exact ⟨[], flag, w, hflag, hw, by simpa using ha.symm⟩
    | cons c a =>
      obtain ⟨rfl, _⟩ := List.cons.inj ha
      exact absurd (by simp) hu

/-- A flag up to its `;` stands somewhere in `t`. -/
def HoldsFlag (t : Text) : Prop :=
  ∃ b text y, IsFlagEnd text ∧ t = b ++ (text ++ y)

/-- The inside of a flag and the layout behind it hold no character of any other use. -/
theorem not_mem_flag {flag w : Text} (hflag : Statement.IsFlag flag)
    (hw : ∀ c ∈ w, Text.isLayout c = true) {c : Char} (hc : c ∉ "default".toList ++ "global".toList)
    (hlayout : Text.isLayout c = false) : c ∉ flag ++ w := by
  intro hmem
  rcases List.mem_append.1 hmem with hmem | hmem
  · rcases hflag with rfl | rfl
    · exact hc (List.mem_append_left _ hmem)
    · exact hc (List.mem_append_right _ hmem)
  · rw [hw c hmem] at hlayout
    contradiction

theorem read_flagEnd_eq_ok_iff {t : Text} {r : Reading Unit} :
    flagEnd.read t = .ok r ↔
      ∃ text rest, IsFlagEnd text ∧ t = text ++ rest ∧ r = ⟨(), text, rest⟩ := by
  have hword {t : Text} {r : Reading Text} :
      (literal Statement.defaultFlag <|> literal Statement.globalFlag).read t = .ok r ↔
        ∃ flag rest, Statement.IsFlag flag ∧ t = flag ++ rest ∧ r = ⟨flag, flag, rest⟩ := by
    rw [read_orElse_comm, Statement.read_flag_eq_ok_iff]
    intro a b ha
    obtain ⟨rest, rfl, _⟩ := read_literal_eq_ok_iff.1 ha
    have hne : 'd' ≠ 'g' := by decide
    exact refuses_literal hne _ b
  simp only [flagEnd, layout, read_bind_eq_ok_iff, read_char_eq_ok_iff, hword,
    read_span_eq_ok_iff, read_pure, Except.ok.injEq]
  constructor
  · rintro ⟨_, _, ⟨_, rfl, rfl⟩, ⟨_, _, ⟨flag, _, hflag, rfl, rfl⟩, ⟨_, _, ⟨w, _, hw, rfl, rfl⟩,
      ⟨_, _, ⟨rest, rfl, rfl⟩, rfl, rfl⟩, rfl⟩, rfl⟩, rfl⟩
    exact ⟨_, rest, ⟨flag, w, hflag, hw.all, rfl⟩, by simp, by simp⟩
  · rintro ⟨_, rest, ⟨flag, w, hflag, hw, rfl⟩, rfl, rfl⟩
    have hrun : Text.IsRun Text.isLayout w (';' :: rest) := .of_cons hw (by decide)
    refine ⟨_, _, ⟨_, rfl, rfl⟩, ⟨_, _, ⟨flag, w ++ ';' :: rest, hflag, by simp, rfl⟩,
      ⟨_, _, ⟨w, _, hrun, rfl, rfl⟩, ⟨_, _, ⟨rest, rfl, rfl⟩, rfl, rfl⟩, rfl⟩, rfl⟩, by simp⟩

/-! ## The first `;` of a text -/

/-- Up to the first `;` a flag can only be read right in front of it. -/
theorem eq_of_read_flagEnd {u z : Text} (hu : ';' ∉ u) {r : Reading Unit}
    (h : flagEnd.read (u ++ ';' :: z) = .ok r) :
    ∃ flag w, Statement.IsFlag flag ∧ (∀ c ∈ w, Text.isLayout c = true) ∧
      u = '!' :: (flag ++ w) := by
  obtain ⟨_, rest, ⟨flag, w, hflag, hw, rfl⟩, heq, _⟩ := read_flagEnd_eq_ok_iff.1 h
  have hclean : ';' ∉ '!' :: (flag ++ w) :=
    List.not_mem_cons_of_ne_of_not_mem (by decide) (not_mem_flag hflag hw (by decide) (by decide))
  have hsplit : u ++ ';' :: z = '!' :: (flag ++ w) ++ ';' :: rest := by
    rw [heq]
    simp
  have hrun := Text.IsRun.of_not_mem hu z
  exact ⟨flag, w, hflag, hw, (hrun.unique (.of_not_mem hclean rest) hsplit).1⟩

/-- A flag in front of the first `;` goes, together with the space around it. -/
theorem withoutFlag_of_flag {front flag w : Text} (hfront : ';' ∉ front)
    (hflag : Statement.IsFlag flag) (hw : ∀ c ∈ w, Text.isLayout c = true) (z : Text) :
    withoutFlag (front ++ '!' :: (flag ++ w) ++ ';' :: z) = Text.trimEnd front ++ ';' :: z := by
  have hread : flagEnd.read ('!' :: (flag ++ (w ++ [';'])) ++ z) =
      .ok ⟨(), '!' :: (flag ++ (w ++ [';'])), z⟩ :=
    read_flagEnd_eq_ok_iff.2 ⟨_, z, ⟨flag, w, hflag, hw, rfl⟩, rfl, rfl⟩
  have hfind : flagEnd.find? (front ++ '!' :: (flag ++ w) ++ ';' :: z) =
      some (front, ⟨(), '!' :: (flag ++ (w ++ [';'])), z⟩) := by
    refine find?_eq_some_iff.2 ⟨by simp, hread, fun _ c b hsplit s hs => ?_⟩
    -- An earlier flag would have to run through the `!` of this one.
    have hclean : ';' ∉ c :: (b ++ '!' :: (flag ++ w)) := by
      have hflag := not_mem_flag hflag hw (c := ';') (by decide) (by decide)
      rw [hsplit] at hfront
      simp only [List.mem_append, List.mem_cons, not_or] at hfront hflag ⊢
      exact ⟨hfront.2.1, hfront.2.2, by decide, hflag⟩
    have hplace : c :: (b ++ ('!' :: (flag ++ (w ++ [';'])) ++ z)) =
        c :: (b ++ '!' :: (flag ++ w)) ++ ';' :: z := by simp
    rw [hplace] at hs
    obtain ⟨flag', w', hflag', hw', heq⟩ := eq_of_read_flagEnd hclean hs
    have hmem : '!' ∈ flag' ++ w' := by
      rw [← (List.cons.inj heq).2]
      simp
    exact not_mem_flag hflag' hw' (by decide) (by decide) hmem
  rw [withoutFlag, hfind]

theorem not_holdsFlag_of_not_mem {u : Text} (h : '!' ∉ u) : ¬ HoldsFlag u := by
  rintro ⟨_, _, _, ⟨_, _, _, _, rfl⟩, rfl⟩
  simp at h

theorem withoutFlag_of_not_holdsFlag {t : Text} (h : ¬ HoldsFlag t) : withoutFlag t = t := by
  have hnone : flagEnd.find? t = none := by
    refine find?_eq_none_iff.2 fun u v hsplit r hr => h ?_
    obtain ⟨text, rest, htext, rfl, _⟩ := read_flagEnd_eq_ok_iff.1 hr
    exact ⟨u, text, rest, htext, hsplit⟩
  rw [withoutFlag, hnone]

theorem withoutFlag_of_not_mem {t : Text} (h : '!' ∉ t) : withoutFlag t = t :=
  withoutFlag_of_not_holdsFlag (not_holdsFlag_of_not_mem h)

/-- Where no flag is read up to a character of another use, the text up to there stays. -/
theorem withoutFlag_append_of_fails {u z : Text} {c : Char} (hc : Text.isSpace c = false)
    (hbang : c ≠ '!')
    (h : ∀ a d b, u = a ++ d :: b → ∀ r, flagEnd.read (d :: b ++ c :: z) ≠ .ok r) :
    withoutFlag (u ++ c :: z) = u ++ c :: withoutFlag z := by
  have hfails : ∀ a d b, u ++ [c] = a ++ d :: b → ∀ r, flagEnd.read (d :: (b ++ z)) ≠ .ok r := by
    intro a d b hsplit r hr
    obtain ⟨_, _, ⟨_, _, _, _, rfl⟩, heq, _⟩ := read_flagEnd_eq_ok_iff.1 hr
    obtain rfl : d = '!' := (List.cons.inj heq).1
    obtain ⟨b, rfl, rfl⟩ := (Text.concat_eq_append_cons_iff hbang.symm).1 hsplit
    exact h a '!' b rfl r (by simpa using hr)
  have hsplit : u ++ c :: z = (u ++ [c]) ++ z := by simp
  rw [hsplit, withoutFlag, find?_append_of_fails hfails, withoutFlag]
  cases flagEnd.find? z with
  | none => simp
  | some found => simp [Text.trimEnd_append_cons hc]

/-- Where no flag stands in front of the first `;`, the text up to there stays. -/
theorem withoutFlag_of_not_flag {u : Text} (hu : ';' ∉ u) (hflag : ¬ EndsInFlag u) (z : Text) :
    withoutFlag (u ++ ';' :: z) = u ++ ';' :: withoutFlag z := by
  refine withoutFlag_append_of_fails (by decide) (by decide) fun a d b hsplit r hr => ?_
  have hclean : ';' ∉ d :: b := fun hmem => hu (hsplit ▸ List.mem_append_right a hmem)
  obtain ⟨flag, w, hword, hw, heq⟩ := eq_of_read_flagEnd hclean hr
  exact hflag ⟨a, flag, w, hword, hw, by rw [hsplit, heq]⟩

theorem quote_not_mem_of_isFlagEnd {text : Text} (h : IsFlagEnd text) : '"' ∉ text := by
  obtain ⟨flag, w, hflag, hw, rfl⟩ := h
  have hclean := not_mem_flag hflag hw (c := '"') (by decide) (by decide)
  simpa [and_assoc] using hclean

/-- A flag holds no quote, so it is removed either in front of a quote or behind it. -/
theorem withoutFlag_append_quote (u z : Text) :
    (∃ b text y, IsFlagEnd text ∧ u = b ++ (text ++ y) ∧
        withoutFlag (u ++ '"' :: z) = Text.trimEnd b ++ ';' :: (y ++ '"' :: z)) ∨
      ¬ HoldsFlag u ∧ withoutFlag (u ++ '"' :: z) = u ++ '"' :: withoutFlag z := by
  by_cases h : HoldsFlag u
  · left
    obtain ⟨b₀, text₀, y₀, h₀, hu₀⟩ := h
    obtain ⟨s, hs⟩ : ∃ s, flagEnd.read (text₀ ++ (y₀ ++ '"' :: z)) = .ok s :=
      ⟨_, read_flagEnd_eq_ok_iff.2 ⟨text₀, _, h₀, rfl, rfl⟩⟩
    cases hfind : flagEnd.find? (u ++ '"' :: z) with
    | none => exact absurd hs (find?_eq_none_iff.1 hfind b₀ _ (by rw [hu₀]; simp) s)
    | some found =>
      obtain ⟨before, r⟩ := found
      obtain ⟨hsplit, hread, hfirst⟩ := find?_eq_some_iff.1 hfind
      obtain ⟨text, rest, htext, _, rfl⟩ := read_flagEnd_eq_ok_iff.1 hread
      rcases (Text.append_mid_eq_append_cons_iff (quote_not_mem_of_isFlagEnd htext)).1 hsplit.symm
        with ⟨y, hu, rfl⟩ | ⟨b, hbefore, rfl⟩
      · exact ⟨before, text, y, htext, hu, by rw [withoutFlag, hfind]⟩
      · -- The flag in front of the quote would have been found before this one.
        obtain ⟨flag₀, w₀, _, _, rfl⟩ := h₀
        have hsplit₀ : before = b₀ ++ '!' :: (flag₀ ++ (w₀ ++ [';']) ++ (y₀ ++ '"' :: b)) := by
          rw [hbefore, hu₀]
          simp
        exact absurd (by simpa using hs) (hfirst b₀ '!' _ hsplit₀ s)
  · right
    refine ⟨h, withoutFlag_append_of_fails (by decide) (by decide) fun a d b hsplit r hr => ?_⟩
    obtain ⟨text, rest, htext, heq, _⟩ := read_flagEnd_eq_ok_iff.1 hr
    have hplace : [] ++ (text ++ rest) = d :: b ++ '"' :: z := heq.symm
    rcases (Text.append_mid_eq_append_cons_iff (quote_not_mem_of_isFlagEnd htext)).1 hplace with
      ⟨y, hy, _⟩ | ⟨_, hnil, _⟩
    · exact h ⟨a, text, y, htext, by rw [hsplit, hy, List.nil_append]⟩
    · simp at hnil

theorem withoutFlag_append_quote_of_not {u : Text} (h : ¬ HoldsFlag u) (z : Text) :
    withoutFlag (u ++ '"' :: z) = u ++ '"' :: withoutFlag z := by
  rcases withoutFlag_append_quote u z with ⟨b, text, y, htext, hu, _⟩ | ⟨_, heq⟩
  · exact absurd ⟨b, text, y, htext, hu⟩ h
  · exact heq

/-! ## Written values -/

/-- A written value without the flag at its end and the space in front of that. -/
def core (written : Text) : Text :=
  let body := (written.reverse.dropWhile Text.isLayout).reverse
  match (Text.dropSuffix? ('!' :: Statement.defaultFlag) body).or
    (Text.dropSuffix? ('!' :: Statement.globalFlag) body) with
  | some front => Text.trimEnd front
  | none => written

theorem core_of_flag {front flag w : Text} (hflag : Statement.IsFlag flag)
    (hw : ∀ c ∈ w, Text.isLayout c = true) :
    core (front ++ '!' :: (flag ++ w)) = Text.trimEnd front := by
  have hrun : Text.IsRun Text.isLayout w.reverse (front ++ '!' :: flag).reverse := by
    refine ⟨by simpa using hw, fun c hc => Bool.eq_false_iff.2 fun hlayout => ?_⟩
    rw [List.head?_reverse, Statement.getLast?_flag hflag] at hc
    have hspace := Statement.getLast?_of_isFlag hflag c hc
    rw [Text.isSpace_of_isLayout hlayout] at hspace
    contradiction
  have hsplit : (front ++ '!' :: (flag ++ w)).reverse =
      w.reverse ++ (front ++ '!' :: flag).reverse := by simp
  rw [core, hsplit, hrun.dropWhile_eq, List.reverse_reverse]
  simp only [Statement.dropSuffix?_flags hflag]

theorem core_of_not_flag {u : Text} (h : ¬ EndsInFlag u) : core u = u := by
  rw [core]
  split
  · rename_i front hfront
    have hrun := Text.isRun_takeWhile Text.isLayout u.reverse
    have hbody : ∃ flag, Statement.IsFlag flag ∧
        (u.reverse.dropWhile Text.isLayout).reverse = front ++ '!' :: flag := by
      rcases Option.or_eq_some_iff.1 hfront with hfront | ⟨_, hfront⟩
      · exact ⟨_, .inl rfl, Text.dropSuffix?_eq_some_iff.1 hfront⟩
      · exact ⟨_, .inr rfl, Text.dropSuffix?_eq_some_iff.1 hfront⟩
    obtain ⟨flag, hflag, hbody⟩ := hbody
    refine absurd ⟨front, flag, (u.reverse.takeWhile Text.isLayout).reverse, hflag, ?_, ?_⟩ h
    · intro c hc
      exact hrun.all c (List.mem_reverse.1 hc)
    · calc u
          _ = (u.reverse.takeWhile Text.isLayout ++ u.reverse.dropWhile Text.isLayout).reverse := by
            rw [List.takeWhile_append_dropWhile, List.reverse_reverse]
          _ = front ++ '!' :: (flag ++ (u.reverse.takeWhile Text.isLayout).reverse) := by
            rw [List.reverse_append, hbody]
            simp
  · rfl

/-- A value with a flag behind it is what the block rule asks for, unless it is blank. -/
theorem isFlagged_trimEnd {front flag w : Text} (hflag : Statement.IsFlag flag)
    (hw : ∀ c ∈ w, Text.isLayout c = true) (hblank : Text.isBlank front = false) :
    Statement.IsFlagged (Text.trimEnd front) (front ++ '!' :: (flag ++ w)) := by
  obtain ⟨⟨w₁, hfront, hw₁⟩, hlast⟩ := Text.trimEnd_spec front
  refine ⟨w₁, flag, w, ?_, hflag, hw₁, fun c hc => Text.isSpace_of_isLayout (hw c hc), ?_, hlast⟩
  · rw [← List.append_assoc, ← hfront]
  · rw [Text.isBlank_trimEnd, hblank]

/-- A core is a beginning of the written value. -/
theorem core_isPrefix (written : Text) : core written <+: written := by
  by_cases h : EndsInFlag written
  · obtain ⟨front, flag, w, hflag, hw, rfl⟩ := h
    obtain ⟨u, hfront, _⟩ := (Text.trimEnd_spec front).1
    rw [core_of_flag hflag hw]
    exact List.IsPrefix.trans ⟨u, hfront.symm⟩ (List.prefix_append _ _)
  · exact ⟨[], by rw [core_of_not_flag h, List.append_nil]⟩

/-- Nothing but space and a flag was written for the value. -/
def IsFlagOnly (written : Text) : Prop :=
  ∃ w₁ flag w₂, Statement.IsFlag flag ∧ (∀ c ∈ w₁, Text.isSpace c = true) ∧
    (∀ c ∈ w₂, Text.isLayout c = true) ∧ written = w₁ ++ '!' :: (flag ++ w₂)

theorem isFlagOnly_iff {written : Text} (hblank : Text.isBlank written = false) :
    IsFlagOnly written ↔ Text.isBlank (core written) = true := by
  constructor
  · rintro ⟨w₁, flag, w₂, hflag, hw₁, hw₂, rfl⟩
    rw [core_of_flag hflag hw₂, Text.isBlank_trimEnd]
    exact List.all_eq_true.2 hw₁
  · intro hcore
    have hends : EndsInFlag written := Classical.byContradiction fun hends => by
      rw [core_of_not_flag hends, hblank] at hcore
      contradiction
    obtain ⟨front, flag, w, hflag, hw, rfl⟩ := hends
    rw [core_of_flag hflag hw, Text.isBlank_trimEnd] at hcore
    exact ⟨front, flag, w, hflag, List.all_eq_true.1 hcore, hw, rfl⟩

/-! ## Braces -/

theorem isBrace_of_isSpace {c : Char} (h : Text.isSpace c = true) : Text.isBrace c = false := by
  refine Bool.eq_false_iff.2 fun hbrace => ?_
  simp only [Text.isBrace, Bool.or_eq_true, beq_iff_eq] at hbrace
  rcases hbrace with rfl | rfl <;> exact absurd h (by decide)

theorem filter_isBrace_of_space {w : Text} (hw : ∀ c ∈ w, Text.isSpace c = true) :
    w.filter Text.isBrace = [] :=
  List.filter_eq_nil_iff.2 fun c hc => by simp [isBrace_of_isSpace (hw c hc)]

theorem filter_isBrace_flagEnd {text : Text} (h : IsFlagEnd text) :
    text.filter Text.isBrace = [] := by
  obtain ⟨flag, w, hflag, hw, rfl⟩ := h
  have hword : flag.filter Text.isBrace = [] := by rcases hflag with rfl | rfl <;> decide
  have hspace := filter_isBrace_of_space fun c hc => Text.isSpace_of_isLayout (hw c hc)
  have hbang : Text.isBrace '!' = false := by decide
  have hsemi : Text.isBrace ';' = false := by decide
  simp [hword, hspace, hbang, hsemi]

theorem filter_isBrace_trimEnd (t : Text) :
    (Text.trimEnd t).filter Text.isBrace = t.filter Text.isBrace := by
  obtain ⟨w, hw, hspace⟩ := (Text.trimEnd_spec t).1
  calc (Text.trimEnd t).filter Text.isBrace
      _ = (Text.trimEnd t ++ w).filter Text.isBrace := by
        rw [List.filter_append, filter_isBrace_of_space hspace, List.append_nil]
      _ = t.filter Text.isBrace := by rw [← hw]

/-- Removing a flag leaves the braces of a text as they are. -/
theorem filter_isBrace_withoutFlag (t : Text) :
    (withoutFlag t).filter Text.isBrace = t.filter Text.isBrace := by
  unfold withoutFlag
  split
  · rename_i before r hfind
    obtain ⟨hread, rfl⟩ := find?_eq_some hfind
    obtain ⟨text, rest, htext, _, rfl⟩ := read_flagEnd_eq_ok_iff.1 hread
    have hsemi : Text.isBrace ';' = false := by decide
    simp [filter_isBrace_flagEnd htext, filter_isBrace_trimEnd, hsemi]
  · rfl

end Declaration

namespace Statement

/-- What the next brace does depends on the braces of a text only. -/
theorem closesNext_iff_filter {t : Text} :
    ClosesNext t ↔ (t.filter Text.isBrace).head? = some '}' := by
  rw [← closesBlock_iff, closesBlock, beq_iff_eq, List.head?_filter]

theorem closesNext_withoutFlag {t : Text} :
    ClosesNext (Declaration.withoutFlag t) ↔ ClosesNext t := by
  rw [closesNext_iff_filter, Declaration.filter_isBrace_withoutFlag, closesNext_iff_filter]

theorem closesNext_append {u : Text} (hu : u.filter Text.isBrace = []) (t : Text) :
    ClosesNext (u ++ t) ↔ ClosesNext t := by
  rw [closesNext_iff_filter, List.filter_append, hu, List.nil_append, closesNext_iff_filter]

/-- What no block closes in can be left out behind a text. -/
theorem closesNext_append_of_not {t : Text} (ht : ¬ ClosesNext t) (u : Text) :
    ClosesNext (u ++ t) ↔ ClosesNext u := by
  rw [closesNext_iff_filter] at ht ⊢
  rw [closesNext_iff_filter, List.filter_append, List.head?_append, Option.or_eq_some_iff]
  simp only [ht, and_false, or_false]

theorem IsTerminator.filter_isBrace {e rest : Text} (he : IsTerminator e rest) :
    e.filter Text.isBrace = [] := by
  have hspace {w : Text} (hw : ∀ c ∈ w, Text.isLayout c = true) : w.filter Text.isBrace = [] :=
    Declaration.filter_isBrace_of_space fun c hc => Text.isSpace_of_isLayout (hw c hc)
  cases he with
  | flagged hw₁ hflag hw₂ =>
    rw [List.filter_append, hspace hw₁, Declaration.filter_isBrace_flagEnd ⟨_, _, hflag, hw₂, rfl⟩]
    rfl
  | bare hw _ =>
    rw [List.filter_append, hspace hw]
    rfl

end Statement

end SassVars
