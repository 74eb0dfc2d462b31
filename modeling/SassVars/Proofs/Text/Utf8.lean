import SassVars.Text.Bytes

/-!
# The bytes of a text

In the UTF-8 form of a text an ASCII byte stands exactly where its character stands, since every
other character is made of larger bytes. So a byte of this kind is always found between two
characters.

## Main definitions

* `Text.utf8`: the bytes of a text.
* `Text.offset`: the byte at which a character starts.
-/

namespace SassVars.Text

def utf8 (t : Text) : List UInt8 :=
  t.flatMap String.utf8EncodeChar

/-- The byte at which the character at place `i` starts. -/
def offset (t : Text) (i : Nat) : Nat :=
  byteLength (t.take i)

@[simp]
theorem utf8_cons (c : Char) (t : Text) : utf8 (c :: t) = String.utf8EncodeChar c ++ utf8 t :=
  List.flatMap_cons

@[simp]
theorem length_utf8 (t : Text) : (utf8 t).length = byteLength t := by
  induction t with
  | nil => rfl
  | cons c t ih => rw [utf8_cons, List.length_append, String.length_utf8EncodeChar, ih,
      byteLength_cons]

/-! ## ASCII bytes -/

/-- A character beyond ASCII has larger bytes only. -/
theorem le_of_mem_utf8EncodeChar {c : Char} (hc : 128 ≤ c.toNat) {b : UInt8}
    (hb : b ∈ String.utf8EncodeChar c) : 128 ≤ b.toNat := by
  have hbyte {m : Nat} (hlow : 128 ≤ m) (hhigh : m < 256) : 128 ≤ (UInt8.ofNat m).toNat := by
    rwa [UInt8.toNat_ofNat', Nat.mod_eq_of_lt hhigh]
  have hval : ¬ c.val.toNat ≤ 127 := Nat.not_le.2 hc
  simp only [String.utf8EncodeChar, if_neg hval] at hb
  split at hb
  · simp only [List.mem_cons, List.not_mem_nil, or_false] at hb
    rcases hb with rfl | rfl <;> exact hbyte (by omega) (by omega)
  · split at hb <;> simp only [List.mem_cons, List.not_mem_nil, or_false] at hb
    · rcases hb with rfl | rfl | rfl <;> exact hbyte (by omega) (by omega)
    · rcases hb with rfl | rfl | rfl | rfl <;> exact hbyte (by omega) (by omega)

theorem utf8EncodeChar_of_lt {c : Char} (hc : c.toNat < 128) :
    String.utf8EncodeChar c = [c.toUInt8] := by
  have hsize : c.utf8Size = 1 :=
    Char.utf8Size_eq_one_iff.2 (UInt32.le_iff_toNat_le.2 (Nat.le_of_lt_succ hc))
  exact String.utf8EncodeChar_eq_singleton hsize

theorem toNat_toUInt8 {c : Char} (hc : c.toNat < 128) : c.toUInt8.toNat = c.toNat := by
  have hmod : c.toUInt8.toNat = c.toNat % 256 := UInt32.toNat_toUInt8 c.val
  omega

/-- The byte of an ASCII character belongs to no other character. -/
theorem getElem?_utf8EncodeChar_eq_some_iff {a : Char} (ha : a.toNat < 128) {c : Char} {k : Nat} :
    (String.utf8EncodeChar c)[k]? = some a.toUInt8 ↔ k = 0 ∧ c = a := by
  constructor
  · intro h
    rcases Nat.lt_or_ge c.toNat 128 with hc | hc
    · rw [utf8EncodeChar_of_lt hc, List.getElem?_singleton] at h
      split at h
      · have hbyte := congrArg UInt8.toNat (Option.some.inj h)
        rw [toNat_toUInt8 hc, toNat_toUInt8 ha] at hbyte
        exact ⟨by assumption, Char.toNat_inj.1 hbyte⟩
      · contradiction
    · have hle := le_of_mem_utf8EncodeChar hc (List.mem_of_getElem? h)
      rw [toNat_toUInt8 ha] at hle
      omega
  · rintro ⟨rfl, rfl⟩
    rw [utf8EncodeChar_of_lt ha]
    rfl

theorem offset_zero (t : Text) : offset t 0 = 0 := rfl

theorem offset_succ (c : Char) (t : Text) (i : Nat) :
    offset (c :: t) (i + 1) = c.utf8Size + offset t i := rfl

/-- The byte of an ASCII character stands exactly where the character starts. -/
theorem getElem?_utf8_eq_some_iff {a : Char} (ha : a.toNat < 128) {t : Text} {k : Nat} :
    (utf8 t)[k]? = some a.toUInt8 ↔ ∃ i, t[i]? = some a ∧ offset t i = k := by
  induction t generalizing k with
  | nil => simp [utf8]
  | cons c t ih =>
    have hpos := c.utf8Size_pos
    rcases Nat.lt_or_ge k c.utf8Size with hk | hk
    · rw [utf8_cons, List.getElem?_append_left (by rwa [String.length_utf8EncodeChar]),
        getElem?_utf8EncodeChar_eq_some_iff ha]
      constructor
      · rintro ⟨rfl, rfl⟩
        exact ⟨0, rfl, rfl⟩
      · rintro ⟨i, hget, rfl⟩
        cases i with
        | zero => exact ⟨rfl, by simpa using hget⟩
        | succ i => rw [offset_succ] at hk; omega
    · rw [utf8_cons, List.getElem?_append_right (by rwa [String.length_utf8EncodeChar]),
        String.length_utf8EncodeChar, ih]
      constructor
      · rintro ⟨i, hget, hoffset⟩
        exact ⟨i + 1, hget, by rw [offset_succ]; omega⟩
      · rintro ⟨i, hget, rfl⟩
        cases i with
        | zero => rw [offset_zero] at hk; omega
        | succ i => exact ⟨i, hget, by rw [offset_succ]; omega⟩

/-! ## Offsets -/

theorem offset_add (t : Text) (i n : Nat) :
    offset t (i + n) = offset t i + offset (t.drop i) n := by
  rw [offset, List.take_add, byteLength_append, offset, offset]

theorem offset_lt_offset {t : Text} {i j : Nat} (hij : i < j) (hj : j ≤ t.length) :
    offset t i < offset t j := by
  obtain ⟨n, rfl⟩ := Nat.exists_eq_add_of_lt hij
  have hne : (t.drop i).take (n + 1) ≠ [] := by
    rw [← List.length_pos_iff, List.length_take, List.length_drop]
    omega
  have hpos : 0 < offset (t.drop i) (n + 1) := byteLength_pos hne
  rw [Nat.add_assoc, offset_add]
  omega

theorem offset_lt_offset_iff {t : Text} {i j : Nat} (hi : i ≤ t.length) (hj : j ≤ t.length) :
    offset t i < offset t j ↔ i < j := by
  refine ⟨fun h => ?_, fun h => offset_lt_offset h hj⟩
  rcases Nat.lt_trichotomy i j with hlt | rfl | hgt
  · exact hlt
  · omega
  · have := offset_lt_offset hgt hi
    omega

theorem offset_inj {t : Text} {i j : Nat} (hi : i ≤ t.length) (hj : j ≤ t.length)
    (h : offset t i = offset t j) : i = j := by
  have hlt := offset_lt_offset_iff hi hj
  have hgt := offset_lt_offset_iff hj hi
  omega

theorem offset_succ_of_getElem? {t : Text} {i : Nat} {c : Char} (h : t[i]? = some c) :
    offset t (i + 1) = offset t i + c.utf8Size := by
  obtain ⟨hlt, hget⟩ := List.getElem?_eq_some_iff.1 h
  rw [offset_add, List.drop_eq_getElem_cons hlt, hget, offset_succ, offset_zero, Nat.add_zero]

/-- A text is cut between two characters at an offset. -/
theorem dropBytes?_offset (t : Text) (i : Nat) : dropBytes? (offset t i) t = some (t.drop i) := by
  have h := dropBytes?_append (t.take i) (t.drop i)
  rwa [List.take_append_drop] at h

end SassVars.Text
