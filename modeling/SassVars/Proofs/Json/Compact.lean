import Mathlib.Logic.Function.Basic
import Mathlib.Tactic.SplitIfs
import SassVars.Json

/-!
# Decoding the compact form

A string gives its characters back one by one, and the quote that closes it cannot come from
any of them. So the text of a value tells where the value ends, and with that which value it
is.

## Main definitions

* `Json.IsEscaped`: the ways to write a character inside a string.
* `Json.unescape`: the first character of a string's text, with what follows it.
* `Json.EndsItself`: the text of a value tells the value and where it ends.
-/

namespace SassVars.Json

/-- Induction from the elements of an array and the values of an object's members. -/
@[elab_as_elim]
theorem valueInduction {motive : Json → Prop} (string : ∀ t, motive (.string t))
    (array : ∀ xs, (∀ x ∈ xs, motive x) → motive (.array xs))
    (object : ∀ ms, (∀ m ∈ ms, motive m.2) → motive (.object ms)) (v : Json) : motive v :=
  match v with
  | .string t => string t
  | .array xs => array xs fun x _ => valueInduction string array object x
  | .object ms => object ms fun m _ => valueInduction string array object m.2
termination_by sizeOf v
decreasing_by
  · have := List.sizeOf_lt_of_mem (show x ∈ xs by assumption)
    simp only [Json.array.sizeOf_spec]
    omega
  · have := List.sizeOf_lt_of_mem (show m ∈ ms by assumption)
    obtain ⟨k, v⟩ := m
    simp only [Json.object.sizeOf_spec, Prod.mk.sizeOf_spec] at *
    omega

/-! ## Strings -/

/-- The value of a digit below sixteen. -/
def hexValue (c : Char) : Nat :=
  if c.isDigit then c.toNat - '0'.toNat else 10 + (c.toNat - 'a'.toNat)

/-- The character that a backslash and a letter stand for. -/
def ofLetter (c : Char) : Char :=
  if c == 'b' then Char.ofNat 0x08
  else if c == 't' then '\t'
  else if c == 'n' then '\n'
  else if c == 'f' then Char.ofNat 0x0C
  else if c == 'r' then '\r'
  else c

theorem hexValue_hexDigit : ∀ n < 16, hexValue (hexDigit n) = n := by
  decide

/-- The ways to write a character inside a string: as itself, by a letter, or by digits. -/
inductive IsEscaped (c : Char) : Text → Prop where
  | plain (hquote : c ≠ '"') (hbackslash : c ≠ '\\') : IsEscaped c [c]
  | letter {l : Char} (hl : l ≠ 'u') (hc : ofLetter l = c) : IsEscaped c ['\\', l]
  | control (h : c.toNat < 0x20) : IsEscaped c
      ['\\', 'u', '0', '0', hexDigit (c.toNat / 16), hexDigit (c.toNat % 16)]

theorem isEscaped_escape (c : Char) : IsEscaped c (escape c) := by
  have hnat (n : Nat) (h : (c.toNat == n) = true) : Char.ofNat n = c := by
    rw [← beq_iff_eq.1 h, Char.ofNat_toNat]
  unfold escape
  split_ifs with hquote hbackslash hback htab hfeed hform hreturn hcontrol
  · exact .letter (by decide) (beq_iff_eq.1 hquote).symm
  · exact .letter (by decide) (beq_iff_eq.1 hbackslash).symm
  · exact .letter (by decide) (hnat 0x08 hback)
  · exact .letter (by decide) (beq_iff_eq.1 htab).symm
  · exact .letter (by decide) (beq_iff_eq.1 hfeed).symm
  · exact .letter (by decide) (hnat 0x0C hform)
  · exact .letter (by decide) (beq_iff_eq.1 hreturn).symm
  · exact .control hcontrol
  · exact .plain (mt beq_iff_eq.2 hquote) (mt beq_iff_eq.2 hbackslash)

/-- The first character of a string's text, with what follows it. There is none where the
string closes. -/
def unescape : Text → Option (Char × Text)
  | [] => none
  | '\\' :: 'u' :: _ :: _ :: a :: b :: t => some (Char.ofNat (16 * hexValue a + hexValue b), t)
  | '\\' :: c :: t => some (ofLetter c, t)
  | c :: t => if c == '"' then none else some (c, t)

theorem unescape_escape_append (c : Char) (t : Text) : unescape (escape c ++ t) = some (c, t) := by
  have h := isEscaped_escape c
  generalize escape c = s at h
  cases h with
  | plain hquote hbackslash => simp [unescape, hquote, hbackslash]
  | letter hl hc => simp [unescape, hl, hc]
  | control h =>
    have hhigh := hexValue_hexDigit (c.toNat / 16) (by omega)
    have hlow := hexValue_hexDigit (c.toNat % 16) (by omega)
    have hsum : 16 * (c.toNat / 16) + c.toNat % 16 = c.toNat := by omega
    simp [unescape, hhigh, hlow, hsum]

/-- No character of a string starts with a quote, so the next one closes it. -/
theorem characters_append_inj {s t r r' : Text}
    (h : s.flatMap escape ++ '"' :: r = t.flatMap escape ++ '"' :: r') : s = t ∧ r = r' := by
  have hclose (u : Text) : unescape ('"' :: u) = none := rfl
  have hfirst := congrArg unescape h
  induction s generalizing t with
  | nil =>
    cases t with
    | nil => exact ⟨rfl, (List.cons.inj h).2⟩
    | cons d t => simp [hclose, unescape_escape_append] at hfirst
  | cons c s ih =>
    cases t with
    | nil => simp [hclose, unescape_escape_append] at hfirst
    | cons d t =>
      simp only [List.flatMap_cons, List.append_assoc, unescape_escape_append,
        Option.some.injEq, Prod.mk.injEq] at hfirst
      obtain ⟨rfl, htail⟩ := hfirst
      obtain ⟨rfl, rfl⟩ := ih htail (congrArg unescape htail)
      exact ⟨rfl, rfl⟩

theorem quoted_append_inj {s t r r' : Text} (h : quoted s ++ r = quoted t ++ r') :
    s = t ∧ r = r' := by
  simp only [quoted, List.cons_append, List.append_assoc] at h
  exact characters_append_inj (List.cons.inj h).2

/-! ## Values -/

/-- The text of a value tells the value and where it ends, whatever stands behind it. -/
def EndsItself (v : Json) : Prop :=
  ∀ {w : Json} {r r' : Text}, compact v ++ r = compact w ++ r' → v = w ∧ r = r'

/-- A value does not start like the end of an array. -/
theorem compact_append_ne (v : Json) (r r' : Text) : compact v ++ r ≠ ']' :: r' := by
  cases v with
  | string t => simp [compact, quoted]
  | array xs => cases xs <;> simp [compact]
  | object ms => cases ms <;> simp [compact]

theorem compactElements_append_inj {xs ys : List Json} (hxs : ∀ x ∈ xs, EndsItself x)
    {r r' : Text} (h : compactElements xs ++ r = compactElements ys ++ r') :
    xs = ys ∧ r = r' := by
  induction xs generalizing ys with
  | nil => cases ys <;> simp_all [compactElements]
  | cons x xs ih =>
    obtain ⟨hx, hxs⟩ := List.forall_mem_cons.1 hxs
    cases ys with
    | nil => simp [compactElements] at h
    | cons y ys =>
      simp only [compactElements, List.cons_append, List.append_assoc, List.cons.injEq,
        true_and] at h
      obtain ⟨rfl, htail⟩ := hx h
      obtain ⟨rfl, rfl⟩ := ih hxs htail
      exact ⟨rfl, rfl⟩

theorem compactMembers_append_inj {ms ns : List (Text × Json)}
    (hms : ∀ m ∈ ms, EndsItself m.2) {r r' : Text}
    (h : compactMembers ms ++ r = compactMembers ns ++ r') : ms = ns ∧ r = r' := by
  induction ms generalizing ns with
  | nil => cases ns <;> simp_all [compactMembers]
  | cons m ms ih =>
    obtain ⟨k, v⟩ := m
    obtain ⟨hm, hms⟩ := List.forall_mem_cons.1 hms
    cases ns with
    | nil => simp [compactMembers] at h
    | cons n ns =>
      obtain ⟨l, w⟩ := n
      simp only [compactMembers, List.cons_append, List.append_assoc, List.cons.injEq,
        true_and] at h
      obtain ⟨rfl, hvalue⟩ := quoted_append_inj h
      obtain ⟨rfl, htail⟩ := hm (List.cons.inj hvalue).2
      obtain ⟨rfl, rfl⟩ := ih hms htail
      exact ⟨rfl, rfl⟩

theorem endsItself_string (t : Text) : EndsItself (.string t) := by
  intro w r r' h
  cases w with
  | string u =>
    obtain ⟨rfl, rfl⟩ := quoted_append_inj h
    exact ⟨rfl, rfl⟩
  | array ys => cases ys <;> simp [compact, quoted] at h
  | object ns => cases ns <;> simp [compact, quoted] at h

theorem endsItself_array {xs : List Json} (hxs : ∀ x ∈ xs, EndsItself x) :
    EndsItself (.array xs) := by
  intro w r r' h
  cases w with
  | string u => cases xs <;> simp [compact, quoted] at h
  | object ns => cases xs <;> cases ns <;> simp [compact] at h
  | array ys =>
    cases xs with
    | nil =>
      cases ys with
      | nil => simpa [compact] using h
      | cons y ys =>
        simp only [compact, List.cons_append, List.append_assoc] at h
        exact absurd (List.cons.inj h).2.symm (compact_append_ne _ _ _)
    | cons x xs =>
      cases ys with
      | nil =>
        simp only [compact, List.cons_append, List.append_assoc] at h
        exact absurd (List.cons.inj h).2 (compact_append_ne _ _ _)
      | cons y ys =>
        -- Behind their first character both texts go on like those of further elements.
        have helements : compactElements (x :: xs) ++ r = compactElements (y :: ys) ++ r' := by
          simpa [compact, compactElements] using h
        obtain ⟨heq, hrest⟩ := compactElements_append_inj hxs helements
        exact ⟨congrArg Json.array heq, hrest⟩

theorem endsItself_object {ms : List (Text × Json)} (hms : ∀ m ∈ ms, EndsItself m.2) :
    EndsItself (.object ms) := by
  intro w r r' h
  cases w with
  | string u => cases ms <;> simp [compact, quoted] at h
  | array ys => cases ms <;> cases ys <;> simp [compact] at h
  | object ns =>
    cases ms with
    | nil => cases ns <;> simp_all [compact, quoted]
    | cons m ms =>
      cases ns with
      | nil => simp [compact, quoted] at h
      | cons n ns =>
        have hmembers : compactMembers (m :: ms) ++ r = compactMembers (n :: ns) ++ r' := by
          simpa [compact, compactMembers] using h
        obtain ⟨heq, hrest⟩ := compactMembers_append_inj hms hmembers
        exact ⟨congrArg Json.object heq, hrest⟩

theorem endsItself (v : Json) : EndsItself v := by
  induction v using valueInduction with
  | string t => exact endsItself_string t
  | array xs ih => exact endsItself_array ih
  | object ms ih => exact endsItself_object ih

theorem compact_injective : Function.Injective compact := by
  intro v w h
  exact (endsItself v (congrArg (· ++ []) h)).1

end SassVars.Json
