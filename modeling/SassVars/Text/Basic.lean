import SassVars.Text.Character

/-!
# Trimming, folding and unquoting

The steps that turn the raw text of a value into the exported one: space around it is
cut off, line breaks inside it become single spaces, and one pair of quotes is removed.
-/

namespace SassVars.Text

/-! ## Runs -/

/-- `run` is the longest beginning of `run ++ rest` whose characters satisfy `p`. -/
structure IsRun (p : Char → Bool) (run rest : Text) : Prop where
  all : ∀ c ∈ run, p c = true
  stops : ∀ c ∈ rest.head?, p c = false

theorem isRun_takeWhile (p : Char → Bool) (t : Text) :
    IsRun p (t.takeWhile p) (t.dropWhile p) where
  all := List.all_eq_true.1 List.all_takeWhile
  stops c hc := by
    have hstop := List.head?_dropWhile_not p t
    rw [Option.mem_def.1 hc] at hstop
    simpa using hstop

namespace IsRun

variable {p : Char → Bool} {run rest : Text}

theorem of_cons {c : Char} (hrun : ∀ d ∈ run, p d = true) (hc : p c = false) :
    IsRun p run (c :: rest) :=
  ⟨hrun, by simp [hc]⟩

/-- The text up to the first `c` is a run. -/
theorem of_not_mem {c : Char} (h : c ∉ run) (rest : Text) : IsRun (· != c) run (c :: rest) :=
  .of_cons (fun _ hd => bne_iff_ne.2 fun heq => h (heq ▸ hd)) (by simp)

theorem takeWhile_eq (h : IsRun p run rest) : (run ++ rest).takeWhile p = run := by
  have hnil : rest.takeWhile p = [] := by
    cases rest with
    | nil => rfl
    | cons c rest => simp [h.stops c (by simp)]
  rw [List.takeWhile_append_of_pos h.all, hnil, List.append_nil]

theorem dropWhile_eq (h : IsRun p run rest) : (run ++ rest).dropWhile p = rest := by
  rw [List.dropWhile_append_of_pos h.all]
  cases rest with
  | nil => rfl
  | cons c rest => simp [h.stops c (by simp)]

/-- A text has only one longest run. -/
theorem unique {run' rest' : Text} (h : IsRun p run rest) (h' : IsRun p run' rest')
    (heq : run ++ rest = run' ++ rest') : run = run' ∧ rest = rest' := by
  have hrun : run = run' := by rw [← h.takeWhile_eq, heq, h'.takeWhile_eq]
  exact ⟨hrun, List.append_cancel_left (hrun ▸ heq)⟩

end IsRun

/-! ## Trimming -/

def trimStart (t : Text) : Text :=
  t.dropWhile isSpace

def trimEnd (t : Text) : Text :=
  (t.reverse.dropWhile isSpace).reverse

def trim (t : Text) : Text :=
  trimEnd (trimStart t)

/-- A blank text has no character besides space. -/
def isBlank (t : Text) : Bool :=
  t.all isSpace

/-- Trimming cuts off space and leaves none at the end. -/
theorem trimEnd_spec (t : Text) :
    (∃ w, t = trimEnd t ++ w ∧ ∀ c ∈ w, isSpace c = true) ∧
      ∀ c ∈ (trimEnd t).getLast?, isSpace c = false := by
  have hrun := isRun_takeWhile isSpace t.reverse
  refine ⟨⟨(t.reverse.takeWhile isSpace).reverse, ?_, fun c hc => hrun.all c (by simpa using hc)⟩,
    fun c hc => hrun.stops c (by simpa [trimEnd] using hc)⟩
  rw [trimEnd, ← List.reverse_append, List.takeWhile_append_dropWhile, List.reverse_reverse]

theorem trimEnd_append_of_space {w : Text} (hw : ∀ c ∈ w, isSpace c = true) (t : Text) :
    trimEnd (t ++ w) = trimEnd t := by
  rw [trimEnd, trimEnd, List.reverse_append, List.dropWhile_append_of_pos]
  simpa using hw

theorem trimEnd_eq_self {t : Text} (h : ∀ c ∈ t.getLast?, isSpace c = false) : trimEnd t = t := by
  have hrun : IsRun isSpace [] t.reverse := ⟨by simp, by simpa using h⟩
  have hdrop := hrun.dropWhile_eq
  rw [List.nil_append] at hdrop
  rw [trimEnd, hdrop, List.reverse_reverse]

@[simp]
theorem isBlank_append (s t : Text) : isBlank (s ++ t) = (isBlank s && isBlank t) := by
  simp [isBlank]

@[simp]
theorem isBlank_trimEnd (t : Text) : isBlank (trimEnd t) = isBlank t := by
  obtain ⟨w, hw, hspace⟩ := (trimEnd_spec t).1
  have hblank : isBlank w = true := List.all_eq_true.2 hspace
  calc isBlank (trimEnd t)
      _ = isBlank (trimEnd t ++ w) := by rw [isBlank_append, hblank, Bool.and_true]
      _ = isBlank t := by rw [← hw]

/-- Layout in front is no part of what makes a text blank. -/
theorem isBlank_dropWhile_isLayout (t : Text) : isBlank (t.dropWhile isLayout) = isBlank t := by
  have hspace : isBlank (t.takeWhile isLayout) = true :=
    List.all_eq_true.2 fun c hc => isSpace_of_isLayout ((isRun_takeWhile isLayout t).all c hc)
  calc isBlank (t.dropWhile isLayout)
      _ = isBlank (t.takeWhile isLayout ++ t.dropWhile isLayout) := by
        rw [isBlank_append, hspace, Bool.true_and]
      _ = isBlank t := by rw [List.takeWhile_append_dropWhile]

/-- The layout in front of a text that is not blank ends in it. -/
theorem isRun_layout {t : Text} (h : isBlank t = false) (rest : Text) :
    IsRun isLayout (t.takeWhile isLayout) (t.dropWhile isLayout ++ rest) := by
  obtain ⟨hall, hstops⟩ := isRun_takeWhile isLayout t
  rw [← isBlank_dropWhile_isLayout] at h
  cases hdrop : t.dropWhile isLayout with
  | nil => simp [hdrop, isBlank] at h
  | cons c u => exact .of_cons hall (hstops c (by simp [hdrop]))

theorem isEmpty_dropWhile_isSpace (t : Text) : (t.dropWhile isSpace).isEmpty = isBlank t := by
  induction t with
  | nil => rfl
  | cons c t ih =>
    by_cases hc : isSpace c = true
    · simpa [isBlank, hc] using ih
    · simp [isBlank, hc]

@[simp]
theorem isBlank_reverse (t : Text) : isBlank t.reverse = isBlank t := by
  simp [isBlank]

/-- A text that is not blank keeps everything in front of it. -/
theorem trimEnd_append {t : Text} (h : isBlank t = false) (s : Text) :
    trimEnd (s ++ t) = s ++ trimEnd t := by
  rw [trimEnd, List.reverse_append, List.dropWhile_append, isEmpty_dropWhile_isSpace,
    isBlank_reverse, h]
  simp [trimEnd]

theorem trim_append_of_space {t w : Text} (h : isBlank t = false)
    (hw : ∀ c ∈ w, isSpace c = true) : trim (t ++ w) = trim t := by
  have hstart : trimStart (t ++ w) = trimStart t ++ w := by
    rw [trimStart, List.dropWhile_append, isEmpty_dropWhile_isSpace, h]
    rfl
  rw [trim, hstart, trimEnd_append_of_space hw, trim]

theorem trim_append_of_space_left {w : Text} (hw : ∀ c ∈ w, isSpace c = true) (t : Text) :
    trim (w ++ t) = trim t := by
  rw [trim, trimStart, List.dropWhile_append_of_pos hw, trim, trimStart]

theorem trim_trimEnd {t : Text} (h : isBlank t = false) : trim (trimEnd t) = trim t := by
  obtain ⟨w, hw, hspace⟩ := (trimEnd_spec t).1
  have hblank : isBlank (trimEnd t) = false := by rw [isBlank_trimEnd, h]
  rw [← trim_append_of_space hblank hspace, ← hw]

/-! ## Line breaks -/

/-- A run of space as it is exported: one blank when it spans a line feed. -/
def foldRun (run : Text) : Text :=
  if '\n' ∈ run then [' '] else run

/-- Replace every maximal run of space that spans a line feed by one blank. -/
def foldLineBreaks : Text → Text
  | [] => []
  | c :: t =>
    if isSpace c then foldRun (c :: t.takeWhile isSpace) ++ foldLineBreaks (t.dropWhile isSpace)
    else c :: foldLineBreaks t
termination_by t => t.length
decreasing_by
  · have := (List.dropWhile_sublist isSpace (l := t)).length_le
    simp only [List.length_cons]; omega
  · simp

/-! ## Quotes -/

/-- Remove one matching pair of outer quotes from a text on a single line. -/
def unquote : Text → Text
  | [] => []
  | q :: t =>
    if isQuote q && t.getLast? == some q && !t.dropLast.any isLineEnd then t.dropLast
    else q :: t

/-! ## Case and search -/

/-- Lower the ASCII letters and keep every other character. -/
def lower (t : Text) : Text :=
  t.map Char.toLower

/-- The longest beginning of `t` that ends in `c`, empty when `c` does not occur. -/
def throughLast (c : Char) (t : Text) : Text :=
  (t.reverse.dropWhile (· != c)).reverse

theorem throughLast_concat (c : Char) (t : Text) : throughLast c (t ++ [c]) = t ++ [c] := by
  simp [throughLast]

/-- What precedes `s` at the end of `t`, when `t` ends in `s`. -/
def dropSuffix? (s t : Text) : Option Text :=
  if s.isSuffixOf t then some (t.take (t.length - s.length)) else none

theorem dropSuffix?_eq_some_iff {s t front : Text} :
    dropSuffix? s t = some front ↔ t = front ++ s := by
  unfold dropSuffix?
  constructor
  · intro h
    split at h
    · rename_i hs
      obtain ⟨u, rfl⟩ := List.isSuffixOf_iff_suffix.1 hs
      simp at h
      rw [h]
    · contradiction
  · rintro rfl
    simp

/-- Lowering never makes a character that is no lower-case letter. -/
theorem eq_of_toLower_eq {c d : Char} (h : c.toLower = d) (hd : d.isLower = false) : c = d := by
  by_cases hc : c.val ≥ 'A'.val ∧ c.val ≤ 'Z'.val
  · have hval : d.val = c.val + 32 := h ▸ congrArg Char.val (dif_pos hc)
    have hlower : d.val < 97 ∨ 122 < d.val := by simpa using Bool.and_eq_false_iff.1 hd
    have hupper : 65 ≤ c.val ∧ c.val ≤ 90 := hc
    grind
  · exact (dif_neg hc).symm.trans h

@[simp]
theorem lower_append (s t : Text) : lower (s ++ t) = lower s ++ lower t :=
  List.map_append

/-- The part of `t` before the first line end. -/
def firstLine (t : Text) : Text :=
  t.takeWhile (!isLineEnd ·)

end SassVars.Text
