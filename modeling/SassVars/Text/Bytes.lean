import SassVars.Text.Basic

/-!
# Text measured in bytes

Places in a source are counted in bytes of its UTF-8 form. Only some offsets fall between
two characters: `dropBytes?` answers for exactly those. The second half shows that the
steps of value export never make a text longer in bytes.
-/

namespace SassVars.Text

/-- The length of the UTF-8 form. -/
def byteLength : Text → Nat
  | [] => 0
  | c :: t => c.utf8Size + byteLength t

/-- What follows the first `n` bytes, when these are whole characters. -/
def dropBytes? : Nat → Text → Option Text
  | 0, t => some t
  | _ + 1, [] => none
  | n + 1, c :: t => if c.utf8Size ≤ n + 1 then dropBytes? (n + 1 - c.utf8Size) t else none

@[simp]
theorem byteLength_nil : byteLength [] = 0 := rfl

@[simp]
theorem byteLength_cons (c : Char) (t : Text) :
    byteLength (c :: t) = c.utf8Size + byteLength t := rfl

@[simp]
theorem byteLength_append (s t : Text) : byteLength (s ++ t) = byteLength s + byteLength t := by
  induction s with
  | nil => simp
  | cons c s ih => simp [ih, Nat.add_assoc]

@[simp]
theorem byteLength_reverse (t : Text) : byteLength t.reverse = byteLength t := by
  induction t with
  | nil => rfl
  | cons c t ih => simp [ih, Nat.add_comm]

theorem length_le_byteLength (t : Text) : t.length ≤ byteLength t := by
  induction t with
  | nil => simp
  | cons c t ih => have := c.utf8Size_pos; simp only [List.length_cons, byteLength_cons]; omega

theorem byteLength_pos {t : Text} (h : t ≠ []) : 0 < byteLength t :=
  Nat.lt_of_lt_of_le (List.length_pos_iff.2 h) (length_le_byteLength t)

/-- Bytes that `dropBytes?` drops and bytes that it keeps add up to the whole. -/
theorem dropBytes?_eq_some {n : Nat} {s t : Text} (h : dropBytes? n t = some s) :
    ∃ before, t = before ++ s ∧ byteLength before = n := by
  fun_induction dropBytes? n t with
  | case1 t => exact ⟨[], by simpa using h, rfl⟩
  | case2 => simp at h
  | case3 n c t hc ih =>
    obtain ⟨before, rfl, hb⟩ := ih h
    exact ⟨c :: before, rfl, by simp only [byteLength_cons]; omega⟩
  | case4 => simp at h

/-- The byte length of a beginning is a place where a text can be cut. -/
@[simp]
theorem dropBytes?_append (before t : Text) :
    dropBytes? (byteLength before) (before ++ t) = some t := by
  induction before with
  | nil => cases t <;> rfl
  | cons c before ih =>
    obtain ⟨n, hn⟩ := Nat.exists_eq_add_of_lt c.utf8Size_pos
    have hlen : byteLength (c :: before) = byteLength before + n + 1 := by
      rw [byteLength_cons]
      omega
    rw [hlen, List.cons_append, dropBytes?, if_pos (by omega)]
    rw [← ih]
    congr 1
    omega

/-- Of two ways to cut a text at the same byte offset there is only one. -/
theorem append_inj_of_byteLength {s s' t t' : Text} (h : s ++ t = s' ++ t')
    (hlen : byteLength s = byteLength s') : s = s' ∧ t = t' := by
  have hrest : some t = some t' := by
    rw [← dropBytes?_append s t, h, hlen, dropBytes?_append]
  obtain rfl := Option.some.inj hrest
  exact ⟨List.append_cancel_right h, rfl⟩

/-- A place that is not in front of another one stands behind some of the text there. -/
theorem exists_mid_of_byteLength_le {s s' t t' : Text} (h : s ++ t = s' ++ t')
    (hlen : byteLength s ≤ byteLength s') : ∃ m, s' = s ++ m ∧ t = m ++ t' := by
  rcases List.append_eq_append_iff.1 h with ⟨m, rfl, rfl⟩ | ⟨m, rfl, rfl⟩
  · exact ⟨m, rfl, rfl⟩
  · rw [byteLength_append] at hlen
    have hnil : m = [] := Classical.byContradiction fun hne => by
      have := byteLength_pos hne
      omega
    exact ⟨[], by simp [hnil], by simp [hnil]⟩

/-! ## Export never lengthens a text -/

theorem byteLength_dropWhile_le (p : Char → Bool) (t : Text) :
    byteLength (t.dropWhile p) ≤ byteLength t := by
  induction t with
  | nil => simp
  | cons c t ih =>
    rw [List.dropWhile_cons]
    split
    · simp only [byteLength_cons]; omega
    · exact Nat.le_refl _

theorem byteLength_takeWhile_add_dropWhile (p : Char → Bool) (t : Text) :
    byteLength (t.takeWhile p) + byteLength (t.dropWhile p) = byteLength t := by
  rw [← byteLength_append, List.takeWhile_append_dropWhile]

theorem byteLength_trimEnd_le (t : Text) : byteLength (trimEnd t) ≤ byteLength t := by
  simpa [trimEnd] using byteLength_dropWhile_le isSpace t.reverse

theorem byteLength_trim_le (t : Text) : byteLength (trim t) ≤ byteLength t :=
  Nat.le_trans (byteLength_trimEnd_le _) (byteLength_dropWhile_le _ _)

theorem byteLength_foldRun_le (run : Text) : byteLength (foldRun run) ≤ byteLength run := by
  unfold foldRun
  split
  · rename_i h
    have hlen := length_le_byteLength run
    have hpos := List.length_pos_of_mem h
    have hone : byteLength [' '] = 1 := by decide
    omega
  · exact Nat.le_refl _

theorem byteLength_foldLineBreaks_le (t : Text) :
    byteLength (foldLineBreaks t) ≤ byteLength t := by
  fun_induction foldLineBreaks t with
  | case1 => simp
  | case2 c t _ ih =>
    have hrun := byteLength_foldRun_le (c :: t.takeWhile isSpace)
    have hsplit := byteLength_takeWhile_add_dropWhile isSpace t
    simp only [byteLength_append, byteLength_cons] at hrun ⊢
    omega
  | case3 c t _ ih => simp only [byteLength_cons]; omega

theorem byteLength_dropLast_le (t : Text) : byteLength t.dropLast ≤ byteLength t := by
  induction t with
  | nil => simp
  | cons c t ih =>
    cases t with
    | nil => simp
    | cons d t => simp only [List.dropLast_cons_cons, byteLength_cons] at ih ⊢; omega

theorem byteLength_unquote_le (t : Text) : byteLength (unquote t) ≤ byteLength t := by
  unfold unquote
  split
  · simp
  · rename_i q t
    split
    · have := byteLength_dropLast_le t
      simp only [byteLength_cons]; omega
    · exact Nat.le_refl _

end SassVars.Text
