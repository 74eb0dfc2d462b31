import SassVars.Proofs.Json.Compact

/-!
# The space of the indented form

The indented form differs from the compact one in space alone, and none of that space stands
inside a string. Taking it away needs no reading of values: it is enough to know at each
character whether a string is open there. The space that may stand between the parts of a value
is the layout of a stylesheet.

## Main definitions

* `Json.withoutSpace`: a text without the space outside of its strings.
-/

namespace SassVars.Json

/-- A text without the space outside of its strings, where `inString` says whether it starts
inside of one. Behind a backslash no quote closes a string. -/
def withoutSpaceFrom (inString : Bool) : Text → Text
  | [] => []
  | '\\' :: c :: t =>
    if inString then '\\' :: c :: withoutSpaceFrom true t
    else '\\' :: withoutSpaceFrom false (c :: t)
  | c :: t =>
    if inString then c :: withoutSpaceFrom (c != '"') t
    else if Text.isLayout c then withoutSpaceFrom false t
    else c :: withoutSpaceFrom (c == '"') t

def withoutSpace (t : Text) : Text :=
  withoutSpaceFrom false t

/-! ## Outside of strings -/

theorem withoutSpace_of_isLayout {c : Char} (h : Text.isLayout c = true) (t : Text) :
    withoutSpace (c :: t) = withoutSpace t := by
  have hne : c ≠ '\\' := by rintro rfl; exact absurd h (by decide)
  simp [withoutSpace, withoutSpaceFrom, h, hne]

theorem withoutSpace_spaces_append {w : Text} (hw : ∀ c ∈ w, Text.isLayout c = true) (t : Text) :
    withoutSpace (w ++ t) = withoutSpace t := by
  induction w with
  | nil => rfl
  | cons c w ih =>
    obtain ⟨hc, hw⟩ := List.forall_mem_cons.1 hw
    rw [List.cons_append, withoutSpace_of_isLayout hc, ih hw]

@[simp]
theorem withoutSpace_newline_append (depth : Nat) (t : Text) :
    withoutSpace (newline depth ++ t) = withoutSpace t := by
  apply withoutSpace_spaces_append
  intro c hc
  rcases List.mem_cons.1 hc with rfl | hc
  · decide
  · rw [List.eq_of_mem_replicate hc]
    decide

@[simp]
theorem withoutSpace_blank (t : Text) : withoutSpace (' ' :: t) = withoutSpace t :=
  withoutSpace_of_isLayout (by decide) t

/-- The characters that structure a value. -/
def isPunctuation (c : Char) : Bool :=
  c == '[' || c == ']' || c == '{' || c == '}' || c == ',' || c == ':'

@[simp]
theorem withoutSpace_punctuation {c : Char} (h : isPunctuation c = true) (t : Text) :
    withoutSpace (c :: t) = c :: withoutSpace t := by
  simp only [isPunctuation, Bool.or_eq_true, beq_iff_eq] at h
  rcases h with ((((rfl | rfl) | rfl) | rfl) | rfl) | rfl <;> rfl

/-! ## Inside a string -/

theorem hexDigit_ne : ∀ n < 16, hexDigit n ≠ '\\' ∧ hexDigit n ≠ '"' := by
  decide

/-- A character is copied as it is written, and the string stays open. -/
theorem withoutSpaceFrom_escape_append (c : Char) (t : Text) :
    withoutSpaceFrom true (escape c ++ t) = escape c ++ withoutSpaceFrom true t := by
  have h := isEscaped_escape c
  generalize escape c = s at h
  cases h with
  | plain hquote hbackslash =>
    have hopen : (c != '"') = true := bne_iff_ne.2 hquote
    simp [withoutSpaceFrom, hbackslash, hopen]
  | letter _ _ => simp [withoutSpaceFrom]
  | control h =>
    have hhigh := hexDigit_ne (c.toNat / 16) (by omega)
    have hlow := hexDigit_ne (c.toNat % 16) (by omega)
    have hopen : (hexDigit (c.toNat % 16) != '"') = true := bne_iff_ne.2 hlow.2
    simp [withoutSpaceFrom, hhigh, hlow, hopen]

theorem withoutSpaceFrom_characters_append (s t : Text) :
    withoutSpaceFrom true (s.flatMap escape ++ '"' :: t) =
      s.flatMap escape ++ '"' :: withoutSpace t := by
  induction s with
  | nil => rfl
  | cons c s ih =>
    simp only [List.flatMap_cons, List.append_assoc, withoutSpaceFrom_escape_append, ih]

@[simp]
theorem withoutSpace_quoted_append (s t : Text) :
    withoutSpace (quoted s ++ t) = quoted s ++ withoutSpace t := by
  have hopen (u : Text) : withoutSpace ('"' :: u) = '"' :: withoutSpaceFrom true u := rfl
  simp [quoted, hopen, withoutSpaceFrom_characters_append]

/-! ## Values -/

/-- The indented form of a value loses its space and nothing else. -/
def LosesSpace (v : Json) : Prop :=
  ∀ (depth : Nat) (t : Text), withoutSpace (indented depth v ++ t) = compact v ++ withoutSpace t

theorem withoutSpace_indentedElements_append {xs : List Json} (hxs : ∀ x ∈ xs, LosesSpace x)
    (depth : Nat) (t : Text) :
    withoutSpace (indentedElements depth xs ++ t) = compactElements xs ++ withoutSpace t := by
  induction xs with
  | nil => simp [indentedElements, compactElements, isPunctuation]
  | cons x xs ih =>
    obtain ⟨hx, hxs⟩ := List.forall_mem_cons.1 hxs
    simp [indentedElements, compactElements, isPunctuation, hx _ _, ih hxs]

theorem withoutSpace_indentedMembers_append {ms : List (Text × Json)}
    (hms : ∀ m ∈ ms, LosesSpace m.2) (depth : Nat) (t : Text) :
    withoutSpace (indentedMembers depth ms ++ t) = compactMembers ms ++ withoutSpace t := by
  induction ms with
  | nil => simp [indentedMembers, compactMembers, isPunctuation]
  | cons m ms ih =>
    obtain ⟨k, v⟩ := m
    obtain ⟨hm, hms⟩ := List.forall_mem_cons.1 hms
    simp [indentedMembers, compactMembers, isPunctuation, hm _ _, ih hms]

theorem losesSpace_array {xs : List Json} (hxs : ∀ x ∈ xs, LosesSpace x) :
    LosesSpace (.array xs) := by
  intro depth t
  cases xs with
  | nil => simp [indented, compact, isPunctuation]
  | cons x xs =>
    obtain ⟨hx, hxs⟩ := List.forall_mem_cons.1 hxs
    simp [indented, compact, isPunctuation, hx _ _, withoutSpace_indentedElements_append hxs]

theorem losesSpace_object {ms : List (Text × Json)} (hms : ∀ m ∈ ms, LosesSpace m.2) :
    LosesSpace (.object ms) := by
  intro depth t
  cases ms with
  | nil => simp [indented, compact, isPunctuation]
  | cons m ms =>
    obtain ⟨k, v⟩ := m
    obtain ⟨hm, hms⟩ := List.forall_mem_cons.1 hms
    simp [indented, compact, isPunctuation, hm _ _, withoutSpace_indentedMembers_append hms]

theorem losesSpace (v : Json) : LosesSpace v := by
  induction v using valueInduction with
  | string s => exact fun depth t => withoutSpace_quoted_append s t
  | array xs ih => exact losesSpace_array ih
  | object ms ih => exact losesSpace_object ih

theorem withoutSpace_pretty (v : Json) : withoutSpace v.pretty = v.compact := by
  have h := losesSpace v 0 []
  simpa [pretty, withoutSpace, withoutSpaceFrom] using h

/-- An escaped quote closes no string, so the space behind it stays. -/
example : withoutSpace (array [.string "a\" b".toList, .array []]).pretty =
    "[\"a\\\" b\",[]]".toList := by
  decide

end SassVars.Json
