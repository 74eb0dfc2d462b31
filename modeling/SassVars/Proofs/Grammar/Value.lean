import SassVars.Statement.Value

/-!
# The grammar of plain values

Where a plain value ends, said without a reader: at the first `;`. Inside a block, which the
next brace behind the `;` tells, it needs a flag. The terminators of quoted values follow the
same rule.

## Main definitions

* `Statement.ClosesNext`: the next brace closes a block.
* `Statement.IsPlainValue`: a value up to the first `;`.
* `Statement.IsTerminator`: the end of a quoted value.
-/

namespace SassVars.Statement

open Reader

/-! ## Braces -/

/-- The next brace in `t` closes a block. -/
def ClosesNext (t : Text) : Prop :=
  ∃ u v, t = u ++ '}' :: v ∧ ∀ c ∈ u, Text.isBrace c = false

theorem closesBlock_iff {t : Text} : closesBlock t = true ↔ ClosesNext t := by
  rw [closesBlock, beq_iff_eq, List.find?_eq_some_iff_append]
  simp [ClosesNext, Text.isBrace]

instance (t : Text) : Decidable (ClosesNext t) :=
  decidable_of_iff _ closesBlock_iff

theorem not_closesNext_of_no_brace {t : Text} (h : ∀ c ∈ t, Text.isBrace c = false) :
    ¬ ClosesNext t := by
  rintro ⟨u, v, rfl, _⟩
  exact absurd (h '}' (by simp)) (by decide)

/-! ## Flags -/

def IsFlag (flag : Text) : Prop :=
  flag = defaultFlag ∨ flag = globalFlag

/-- `raw` is `value` with a flag behind it. The value is not blank, and the space between
the two belongs to neither. -/
def IsFlagged (value raw : Text) : Prop :=
  ∃ w₁ flag w₂, raw = value ++ (w₁ ++ '!' :: (flag ++ w₂)) ∧ IsFlag flag ∧
    (∀ c ∈ w₁, Text.isSpace c = true) ∧ (∀ c ∈ w₂, Text.isSpace c = true) ∧
    Text.isBlank value = false ∧ ∀ c ∈ value.getLast?, Text.isSpace c = false

theorem IsFlagged.not_blank {value raw : Text} (h : IsFlagged value raw) :
    Text.isBlank raw = false := by
  obtain ⟨w₁, flag, w₂, rfl, _, _, _, hblank, _⟩ := h
  rw [Text.isBlank_append, hblank, Bool.false_and]

theorem getLast?_flag {flag : Text} (h : IsFlag flag) (front : Text) :
    (front ++ '!' :: flag).getLast? = flag.getLast? := by
  have hne : flag ≠ [] := by rcases h with rfl | rfl <;> decide
  obtain ⟨c, cs, rfl⟩ := List.exists_cons_of_ne_nil hne
  rw [List.getLast?_append, List.getLast?_cons_cons, List.getLast?_cons, Option.some_or]

theorem getLast?_of_isFlag {flag : Text} (h : IsFlag flag) :
    ∀ c ∈ flag.getLast?, Text.isSpace c = false := by
  intro c hc
  rcases h with rfl | rfl <;> cases hc <;> decide

/-- A text ends in one of the two flags at most. -/
theorem dropSuffix?_flags {front flag : Text} (h : IsFlag flag) :
    (Text.dropSuffix? ('!' :: defaultFlag) (front ++ '!' :: flag)).or
      (Text.dropSuffix? ('!' :: globalFlag) (front ++ '!' :: flag)) = some front := by
  rcases h with rfl | rfl
  · rw [Option.or_eq_some_iff]
    exact .inl (Text.dropSuffix?_eq_some_iff.2 rfl)
  · have hnone : Text.dropSuffix? ('!' :: defaultFlag) (front ++ '!' :: globalFlag) = none := by
      refine Option.eq_none_iff_forall_ne_some.2 fun u hu => ?_
      have hlast := congrArg List.getLast? (Text.dropSuffix?_eq_some_iff.1 hu)
      rw [getLast?_flag (.inl rfl), getLast?_flag (.inr rfl)] at hlast
      exact absurd hlast (by decide)
    rw [hnone, Option.none_or]
    exact Text.dropSuffix?_eq_some_iff.2 rfl

theorem withoutFlag?_eq_some_iff {value raw : Text} :
    withoutFlag? raw = some value ↔ IsFlagged value raw := by
  simp only [withoutFlag?, Option.filter_eq_some_iff, Option.map_eq_some_iff]
  constructor
  · rintro ⟨⟨front, hfront, rfl⟩, hblank⟩
    obtain ⟨⟨w₂, hraw, hw₂⟩, _⟩ := Text.trimEnd_spec raw
    obtain ⟨⟨w₁, hfrontw, hw₁⟩, hlast⟩ := Text.trimEnd_spec front
    have hbody : ∃ flag, IsFlag flag ∧ Text.trimEnd raw = front ++ '!' :: flag := by
      rcases Option.or_eq_some_iff.1 hfront with h | ⟨_, h⟩
      · exact ⟨defaultFlag, .inl rfl, Text.dropSuffix?_eq_some_iff.1 h⟩
      · exact ⟨globalFlag, .inr rfl, Text.dropSuffix?_eq_some_iff.1 h⟩
    obtain ⟨flag, hflag, hbody⟩ := hbody
    refine ⟨w₁, flag, w₂, ?_, hflag, hw₁, hw₂, by simpa using hblank, hlast⟩
    calc raw
        _ = front ++ '!' :: flag ++ w₂ := by rw [← hbody, ← hraw]
        _ = (Text.trimEnd front ++ w₁) ++ '!' :: flag ++ w₂ := by rw [← hfrontw]
        _ = Text.trimEnd front ++ (w₁ ++ '!' :: (flag ++ w₂)) := by simp
  · rintro ⟨w₁, flag, w₂, rfl, hflag, hw₁, hw₂, hblank, hlast⟩
    have hend : ∀ c ∈ ((value ++ w₁) ++ '!' :: flag).getLast?, Text.isSpace c = false := by
      rw [getLast?_flag hflag]
      exact getLast?_of_isFlag hflag
    have hbody : Text.trimEnd (value ++ (w₁ ++ '!' :: (flag ++ w₂))) =
        (value ++ w₁) ++ '!' :: flag := by
      rw [← Text.trimEnd_eq_self hend, ← Text.trimEnd_append_of_space hw₂ (_ ++ '!' :: flag)]
      simp
    rw [hbody]
    refine ⟨⟨value ++ w₁, dropSuffix?_flags hflag, ?_⟩, by simp [hblank]⟩
    rw [Text.trimEnd_append_of_space hw₁, Text.trimEnd_eq_self hlast]

/-! ## Plain values -/

/-- A plain value, its text up to and with the `;`, and what follows. A flag in a block is
no part of the value, elsewhere it is. -/
inductive IsPlainValue : Text → Text → Text → Prop where
  | topLevel {raw rest : Text} (hraw : ∀ c ∈ raw, c ≠ ';') (hblank : Text.isBlank raw = false)
      (hrest : ¬ ClosesNext rest) : IsPlainValue raw (raw ++ [';']) rest
  | inBlock {value raw rest : Text} (hraw : ∀ c ∈ raw, c ≠ ';') (hrest : ClosesNext rest)
      (hflag : IsFlagged value raw) : IsPlainValue value (raw ++ [';']) rest

theorem IsPlainValue.no_semicolon {value text rest : Text} (h : IsPlainValue value text rest) :
    ';' ∉ value := by
  cases h with
  | topLevel hraw _ _ => exact fun h => hraw _ h rfl
  | inBlock hraw _ hflag =>
    obtain ⟨_, _, _, rfl, _⟩ := hflag
    exact fun h => hraw _ (List.mem_append_left _ h) rfl

theorem read_plainValue_eq_ok_iff {t : Text} {r : Reading Text} :
    plainValue.read t = .ok r ↔
      ∃ value text rest, IsPlainValue value text rest ∧ t = text ++ rest ∧
        r = ⟨value, text, rest⟩ := by
  constructor
  · intro h
    simp only [plainValue, read_bind_eq_ok_iff, read_span_eq_ok_iff, read_char_eq_ok_iff,
      read_peek, Except.ok.injEq] at h
    obtain ⟨_, _, ⟨raw, _, hrun, rfl, rfl⟩, ⟨_, _, ⟨rest, rfl, rfl⟩, ⟨_, b, rfl, hb, rfl⟩, rfl⟩,
      rfl⟩ := h
    have hraw : ∀ c ∈ raw, c ≠ ';' := fun c hc => by simpa using hrun.all c hc
    split at hb
    · simp at hb
    · rename_i hblank
      split at hb
      · rename_i hcloses
        split at hb
        · rename_i value hvalue
          cases hb
          exact ⟨value, raw ++ [';'], rest, .inBlock hraw (closesBlock_iff.1 hcloses)
            (withoutFlag?_eq_some_iff.1 hvalue), by simp, by simp⟩
        · simp at hb
      · rename_i hopen
        cases hb
        exact ⟨raw, raw ++ [';'], rest, .topLevel hraw (by simpa using hblank)
          (mt closesBlock_iff.2 hopen), by simp, by simp⟩
  · rintro ⟨value, text, rest, h, rfl, rfl⟩
    have hspan {raw : Text} (hraw : ∀ c ∈ raw, c ≠ ';') :
        (span (· != ';')).read (raw ++ ';' :: rest) = .ok ⟨raw, raw, ';' :: rest⟩ :=
      read_span_of_isRun (.of_not_mem (fun h => hraw _ h rfl) rest)
    cases h with
    | topLevel hraw hblank hrest =>
      have hopen : closesBlock rest = false := by simpa using mt closesBlock_iff.1 hrest
      simp only [plainValue, read_bind, List.append_assoc, List.singleton_append, hspan hraw,
        read_char_cons, read_peek, hblank, hopen, Bool.false_eq_true, if_false, read_pure,
        List.append_nil]
    | inBlock hraw hrest hflag =>
      have hcloses := closesBlock_iff.2 hrest
      have hvalue := withoutFlag?_eq_some_iff.2 hflag
      simp only [plainValue, read_bind, List.append_assoc, List.singleton_append, hspan hraw,
        read_char_cons, read_peek, hflag.not_blank, hcloses, hvalue, Bool.false_eq_true, if_false,
        if_true, read_pure, List.append_nil]

/-- Whether a plain value ends at the first `;` depends on the block around it and on a flag. -/
theorem forall_not_isPlainValue_iff {raw rest : Text} (hraw : ';' ∉ raw)
    (hblank : Text.isBlank raw = false) :
    (∀ value text' rest', raw ++ ';' :: rest = text' ++ rest' →
        ¬ IsPlainValue value text' rest') ↔
      ClosesNext rest ∧ ∀ value, ¬ IsFlagged value raw := by
  have hclean : ∀ c ∈ raw, c ≠ ';' := fun c hc h => hraw (h ▸ hc)
  have hsplit : raw ++ ';' :: rest = (raw ++ [';']) ++ rest := by simp
  constructor
  · intro h
    have hrest : ClosesNext rest := Classical.byContradiction fun hopen =>
      h raw _ rest hsplit (.topLevel hclean hblank hopen)
    exact ⟨hrest, fun value hflag => h value _ rest hsplit (.inBlock hclean hrest hflag)⟩
  · rintro ⟨hrest, hflag⟩ value text' rest' heq hvalue
    have hsame {raw' : Text} (hclean' : ∀ c ∈ raw', c ≠ ';')
        (heq : raw ++ ';' :: rest = raw' ++ [';'] ++ rest') : raw = raw' ∧ rest = rest' := by
      have hrun := Text.IsRun.of_not_mem hraw rest
      have hrun' := Text.IsRun.of_not_mem (fun h => hclean' _ h rfl) rest'
      have h := hrun.unique hrun' (by simpa using heq)
      exact ⟨h.1, (List.cons.inj h.2).2⟩
    cases hvalue with
    | topLevel hclean' _ hopen =>
      obtain ⟨rfl, rfl⟩ := hsame hclean' heq
      exact hopen hrest
    | inBlock hclean' _ hflag' =>
      obtain ⟨rfl, rfl⟩ := hsame hclean' heq
      exact hflag _ hflag'

/-! ## Terminators -/

/-- The end of a quoted value, and what follows. -/
inductive IsTerminator : Text → Text → Prop where
  | flagged {w₁ flag w₂ rest : Text} (hw₁ : ∀ c ∈ w₁, Text.isLayout c = true)
      (hflag : IsFlag flag) (hw₂ : ∀ c ∈ w₂, Text.isLayout c = true) :
      IsTerminator (w₁ ++ '!' :: (flag ++ (w₂ ++ [';']))) rest
  | bare {w rest : Text} (hw : ∀ c ∈ w, Text.isLayout c = true) (hrest : ¬ ClosesNext rest) :
      IsTerminator (w ++ [';']) rest

theorem read_flag_eq_ok_iff {t : Text} {r : Reading Text} :
    (literal globalFlag <|> literal defaultFlag).read t = .ok r ↔
      ∃ flag rest, IsFlag flag ∧ t = flag ++ rest ∧ r = ⟨flag, flag, rest⟩ := by
  rw [read_orElse_eq_ok_iff]
  constructor
  · rintro (h | ⟨_, h⟩) <;> obtain ⟨rest, rfl, rfl⟩ := read_literal_eq_ok_iff.1 h
    · exact ⟨globalFlag, rest, .inr rfl, rfl, rfl⟩
    · exact ⟨defaultFlag, rest, .inl rfl, rfl, rfl⟩
  · rintro ⟨flag, rest, rfl | rfl, rfl, rfl⟩
    · have hne : 'd' ≠ 'g' := by decide
      exact .inr ⟨refuses_literal hne _, read_literal_append _ _⟩
    · exact .inl (read_literal_append _ _)

theorem read_terminator_eq_ok_iff {t : Text} {r : Reading Unit} :
    terminator.read t = .ok r ↔
      ∃ text rest, IsTerminator text rest ∧ t = text ++ rest ∧ r = ⟨(), text, rest⟩ := by
  rw [terminator, read_orElse_eq_ok_iff]
  constructor
  · rintro (h | ⟨_, h⟩)
    · simp only [layout, read_bind_eq_ok_iff, read_span_eq_ok_iff, read_char_eq_ok_iff,
        read_flag_eq_ok_iff, read_pure, Except.ok.injEq] at h
      obtain ⟨_, _, ⟨w₁, _, hw₁, rfl, rfl⟩, ⟨_, _, ⟨_, rfl, rfl⟩, ⟨_, _, ⟨flag, _, hflag, rfl, rfl⟩,
        ⟨_, _, ⟨w₂, _, hw₂, rfl, rfl⟩, ⟨_, _, ⟨rest, rfl, rfl⟩, rfl, rfl⟩, rfl⟩, rfl⟩, rfl⟩,
        rfl⟩ := h
      refine ⟨_, rest, .flagged hw₁.all hflag hw₂.all, ?_, ?_⟩ <;> simp
    · simp only [layout, read_bind_eq_ok_iff, read_span_eq_ok_iff, read_char_eq_ok_iff, read_peek,
        Except.ok.injEq] at h
      obtain ⟨_, _, ⟨w, _, hw, rfl, rfl⟩, ⟨_, _, ⟨rest, rfl, rfl⟩, ⟨_, b, rfl, hb, rfl⟩, rfl⟩,
        rfl⟩ := h
      split at hb
      · simp at hb
      · rename_i hopen
        cases hb
        refine ⟨_, rest, .bare hw.all (mt closesBlock_iff.2 hopen), ?_, ?_⟩ <;> simp
  · rintro ⟨text, rest, h, rfl, rfl⟩
    have hspan {w t : Text} {c : Char} (hw : ∀ c ∈ w, Text.isLayout c = true)
        (hc : Text.isLayout c = false) :
        (span Text.isLayout).read (w ++ c :: t) = .ok ⟨w, w, c :: t⟩ :=
      read_span_of_isRun (.of_cons hw hc)
    cases h with
    | @flagged w₁ flag w₂ _ hw₁ hflag hw₂ =>
      have hread : (literal globalFlag <|> literal defaultFlag).read
          (flag ++ (w₂ ++ ';' :: rest)) = .ok ⟨flag, flag, w₂ ++ ';' :: rest⟩ :=
        read_flag_eq_ok_iff.2 ⟨flag, _, hflag, rfl, rfl⟩
      left
      have hw₁' := hspan (t := flag ++ (w₂ ++ ';' :: rest)) hw₁ (c := '!') (by decide)
      have hw₂' := hspan (t := rest) hw₂ (c := ';') (by decide)
      simp only [layout, read_bind, List.append_assoc, List.cons_append, List.nil_append, hw₁',
        read_char_cons, hread, hw₂', read_pure, List.append_nil]
    | @bare w _ hw hrest =>
      have hopen : closesBlock rest = false := by simpa using mt closesBlock_iff.1 hrest
      have hw' := hspan (t := rest) hw (c := ';') (by decide)
      right
      refine ⟨fun s hs => ?_, ?_⟩
      · simp only [layout, read_bind_eq_ok_iff, List.append_assoc, List.singleton_append, hw',
          Except.ok.injEq] at hs
        obtain ⟨_, _, rfl, ⟨_, _, hbang, _⟩, _⟩ := hs
        exact refuses_char (by decide) _ _ hbang
      · simp only [layout, read_bind, List.append_assoc, List.singleton_append, hw',
          read_char_cons, read_peek, hopen, Bool.false_eq_true, if_false, read_pure,
          List.append_nil]

end SassVars.Statement
