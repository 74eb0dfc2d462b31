import Mathlib.Data.List.Sort
import SassVars.Proofs.Grammar.Quoted
import SassVars.Proofs.Text.Utf8

/-!
# Closing quotes among the bytes

The places where a quoted text may close, counted in bytes of its UTF-8 form and told from these
bytes alone. They are the quotes up to the first one that is not escaped, and the order in which
they are tried can be read off the row of all quotes.

## Main definitions

* `Statement.closingBytes`: the places that are tried, in bytes.
* `Statement.quoteBytes`: all quotes behind the first character.
* `Statement.ClosesAtByte`: a quote with nothing but escaped quotes in front of it.
* `Statement.IsClosedAtByte`: a quoted value that closes at a given byte.
-/

namespace SassVars.Statement

open Reader

/-! ## Quotes and backslashes among the bytes -/

/-- A quote stands at byte `k`, which is not the one that opens the text. -/
def IsQuoteByte (t : Text) (k : Nat) : Prop :=
  1 ≤ k ∧ (Text.utf8 t)[k]? = some '"'.toUInt8

/-- A backslash stands in front of byte `k`, behind the quote that opens the text. -/
def IsEscapedByte (t : Text) (k : Nat) : Prop :=
  1 ≤ k - 1 ∧ (Text.utf8 t)[k - 1]? = some '\\'.toUInt8

/-- A quoted text may close at byte `k`: every quote in between is escaped. -/
def ClosesAtByte (t : Text) (k : Nat) : Prop :=
  IsQuoteByte t k ∧ ∀ j, j < k → IsQuoteByte t j → IsEscapedByte t j

instance (t : Text) : DecidablePred (IsQuoteByte t) :=
  fun k => inferInstanceAs (Decidable (1 ≤ k ∧ (Text.utf8 t)[k]? = some '"'.toUInt8))

instance (t : Text) : DecidablePred (IsEscapedByte t) :=
  fun k => inferInstanceAs (Decidable (1 ≤ k - 1 ∧ (Text.utf8 t)[k - 1]? = some '\\'.toUInt8))

instance (t : Text) : DecidablePred (ClosesAtByte t) :=
  fun k => inferInstanceAs
    (Decidable (IsQuoteByte t k ∧ ∀ j, j < k → IsQuoteByte t j → IsEscapedByte t j))

/-- The quotes of a text from left to right, without the one that opens it. -/
def quoteBytes (t : Text) : List Nat :=
  (List.range (Text.byteLength t)).filter fun k => IsQuoteByte t k

/-- The places where a quoted text may close, in the order in which they are tried. -/
def closingBytes (t : Text) : List Nat :=
  (closingQuotes t).map (Text.offset t)

theorem isQuoteByte_iff {t : Text} {k : Nat} :
    IsQuoteByte t k ↔ ∃ i, 0 < i ∧ t[i]? = some '"' ∧ Text.offset t i = k := by
  have hoffset {i : Nat} (hi : t[i]? = some '"') : 0 < Text.offset t i ↔ 0 < i := by
    have hlt := (List.getElem?_eq_some_iff.1 hi).1
    exact Text.offset_lt_offset_iff (Nat.zero_le _) hlt.le
  rw [IsQuoteByte, Text.getElem?_utf8_eq_some_iff (by decide)]
  constructor
  · rintro ⟨hk, i, hi, rfl⟩
    exact ⟨i, (hoffset hi).1 hk, hi, rfl⟩
  · rintro ⟨i, hpos, hi, rfl⟩
    exact ⟨(hoffset hi).2 hpos, i, hi, rfl⟩

theorem mem_quoteBytes_iff {t : Text} {k : Nat} : k ∈ quoteBytes t ↔ IsQuoteByte t k := by
  rw [quoteBytes, List.mem_filter, List.mem_range, decide_eq_true_iff, and_iff_right_iff_imp]
  intro h
  rw [← Text.length_utf8]
  exact (List.getElem?_eq_some_iff.1 h.2).1

/-! ## A row of places up to the first that fails a test -/

section Row

variable (p : Nat → Prop) [DecidablePred p] {l : List Nat}

/-- The places of a row up to the first one that `p` refuses. -/
def throughFirst : List Nat → List Nat
  | [] => []
  | k :: l => if p k then k :: throughFirst l else [k]

theorem head?_throughFirst : (throughFirst p l).head? = l.head? := by
  cases l <;> grind [throughFirst]

theorem filter_throughFirst :
    (throughFirst p l).filter (fun k => p k) = l.takeWhile fun k => p k := by
  fun_induction throughFirst p l with
  | case1 => rfl
  | case2 k l hk ih => simp [hk, ih]
  | case3 k l hk => simp [hk]

theorem filter_not_throughFirst :
    (throughFirst p l).filter (fun k => ¬ p k) = (l.find? fun k => ¬ p k).toList := by
  fun_induction throughFirst p l with
  | case1 => rfl
  | case2 k l hk ih => simpa [hk] using ih
  | case3 k l hk => simp [hk]

/-- Nothing in a rising row stands in front of its first place. -/
theorem not_lt_of_pairwise_cons {k : Nat} (h : (k :: l).Pairwise (· < ·)) :
    ∀ j ∈ k :: l, ¬ j < k := by
  rw [List.forall_mem_cons]
  exact ⟨Nat.lt_irrefl k, fun j hj => Nat.lt_asymm (List.rel_of_pairwise_cons h hj)⟩

/-- In a rising row these are the places with no failure in front of them. -/
theorem filter_eq_throughFirst (h : l.Pairwise (· < ·)) :
    l.filter (fun k => ∀ j ∈ l, j < k → p j) = throughFirst p l := by
  fun_induction throughFirst p l with
  | case1 => rfl
  | case2 k l hk ih =>
    have hrow : ∀ i ∈ l, (∀ j ∈ k :: l, j < i → p j) ↔ ∀ j ∈ l, j < i → p j := by
      simp [hk]
    rw [List.filter_cons_of_pos, ← ih h.of_cons]
    · exact congrArg (k :: ·) (List.filter_congr fun i hi => decide_eq_decide.2 (hrow i hi))
    · exact decide_eq_true fun j hj hlt => absurd hlt (not_lt_of_pairwise_cons h j hj)
  | case3 k l hk =>
    rw [List.filter_cons_of_pos]
    · refine congrArg (k :: ·) (List.filter_eq_nil_iff.2 fun i hi => ?_)
      simp [hk, List.rel_of_pairwise_cons h hi]
    · exact decide_eq_true fun j hj hlt => absurd hlt (not_lt_of_pairwise_cons h j hj)

/-- Choosing among the images of places is choosing among the places. -/
theorem filter_map_of_iff {q : Nat → Prop} [DecidablePred q] {f : Nat → Nat}
    (h : ∀ i ∈ l, p (f i) ↔ q i) :
    (l.map f).filter (fun k => p k) = (l.filter fun i => q i).map f := by
  rw [List.filter_map]
  exact congrArg (List.map f) (List.filter_congr fun i hi => decide_eq_decide.2 (h i hi))

end Row

section Quoted

variable {t : Text} (hquote : t.head? = some '"')

include hquote

/-- The byte in front of a character belongs to the character in front of it. -/
theorem isEscapedByte_offset_iff {i : Nat} (hpos : 0 < i) (hi : i < t.length) :
    IsEscapedByte t (Text.offset t i) ↔ EscapedAt t i := by
  obtain ⟨j, rfl⟩ := Nat.exists_eq_add_of_lt hpos
  have hsize : '\\'.utf8Size = 1 := by decide
  rw [Nat.zero_add] at hi ⊢
  rw [IsEscapedByte, EscapedAt, Nat.add_sub_cancel, Text.getElem?_utf8_eq_some_iff (by decide)]
  constructor
  · rintro ⟨hlow, m, hm, hoffset⟩
    have hnext := Text.offset_succ_of_getElem? hm
    have hlt := (List.getElem?_eq_some_iff.1 hm).1
    have hsame : m + 1 = j + 1 := Text.offset_inj hlt hi.le (by omega)
    rwa [Nat.succ.inj hsame] at hm
  · intro hj
    have hnext := Text.offset_succ_of_getElem? hj
    have hne : j ≠ 0 := by
      rintro rfl
      rw [← List.head?_eq_getElem?, hquote] at hj
      exact absurd hj (by decide)
    have hlow := Text.offset_lt_offset (Nat.pos_of_ne_zero hne) (Nat.lt_of_succ_lt hi).le
    rw [Text.offset_zero] at hlow
    exact ⟨by omega, j, hj, by omega⟩

theorem closesAtByte_iff {k : Nat} :
    ClosesAtByte t k ↔ ∃ i, MayClose t i ∧ Text.offset t i = k := by
  constructor
  · rintro ⟨hk, hinside⟩
    obtain ⟨i, hpos, hi, rfl⟩ := isQuoteByte_iff.1 hk
    have hlt := (List.getElem?_eq_some_iff.1 hi).1
    refine ⟨i, ⟨hpos, hi, fun j hji hj hquote' => ?_⟩, rfl⟩
    have hbyte := isQuoteByte_iff.2 ⟨j, hj, hquote', rfl⟩
    exact (isEscapedByte_offset_iff hquote hj (hji.trans hlt)).1
      (hinside _ (Text.offset_lt_offset hji hlt.le) hbyte)
  · rintro ⟨i, hclose, rfl⟩
    have hlt := hclose.lt_length
    obtain ⟨hpos, hi, hinside⟩ := hclose
    refine ⟨isQuoteByte_iff.2 ⟨i, hpos, hi, rfl⟩, fun k hk hbyte => ?_⟩
    obtain ⟨j, hj, hquote', rfl⟩ := isQuoteByte_iff.1 hbyte
    have hjlt := (List.getElem?_eq_some_iff.1 hquote').1
    have hji := (Text.offset_lt_offset_iff hjlt.le hlt.le).1 hk
    exact (isEscapedByte_offset_iff hquote hj hjlt).2 (hinside j hji hj hquote')

theorem mem_closingBytes_iff {k : Nat} : k ∈ closingBytes t ↔ ClosesAtByte t k := by
  simp only [closingBytes, List.mem_map, closingQuotes_eq hquote, mem_closingOrder_iff,
    closesAtByte_iff hquote]

/-- The quotes that may close the text are those up to the first one that is not escaped. -/
theorem map_closers :
    (closers t).map (Text.offset t) =
      throughFirst (IsEscapedByte t) (quoteBytes t) := by
  have hrow : (quoteBytes t).Pairwise (· < ·) := List.pairwise_lt_range.filter _
  rw [← filter_eq_throughFirst _ hrow]
  refine List.Pairwise.eq_of_mem_iff (r := (· < ·)) ?_ (hrow.filter _) fun k => ?_
  · rw [List.pairwise_map]
    refine (List.pairwise_lt_range.filter _).imp_of_mem fun _ hj hij => ?_
    exact Text.offset_lt_offset hij (mem_closers_iff.1 hj).lt_length.le
  · simp only [List.mem_map, mem_closers_iff, List.mem_filter, mem_quoteBytes_iff,
      decide_eq_true_eq, ← closesAtByte_iff hquote]
    exact and_congr_right fun _ => forall_congr' fun j => imp.swap

theorem one_lt_offset_iff {i : Nat} (hi : i < t.length) : 1 < Text.offset t i ↔ 1 < i := by
  obtain ⟨u, rfl⟩ := List.head?_eq_some_iff.1 hquote
  have hone : Text.offset ('"' :: u) 1 = 1 := Text.offset_succ '"' u 0
  have hmono := Text.offset_lt_offset_iff (Nat.le_add_left 1 u.length) hi.le
  rwa [hone] at hmono

/-- The order in which the quotes are tried: the first one unless it stands right behind the
opening one, the first one that is not escaped, and those in front of it from the last on. -/
theorem closingBytes_eq :
    closingBytes t =
      ((quoteBytes t).head?.filter (1 < ·)).toList ++
        ((quoteBytes t).find? fun k => ¬ IsEscapedByte t k).toList ++
          ((quoteBytes t).takeWhile fun k => IsEscapedByte t k).reverse := by
  have hescaped : ∀ i ∈ closers t, IsEscapedByte t (Text.offset t i) ↔ EscapedAt t i := by
    intro i hi
    have hclose := mem_closers_iff.1 hi
    exact isEscapedByte_offset_iff hquote hclose.1 hclose.lt_length
  have hfirst : ((quoteBytes t).head?.filter (1 < ·)).toList =
      ((closers t).head?.filter (1 < ·)).toList.map (Text.offset t) := by
    rw [← head?_throughFirst (IsEscapedByte t), ← map_closers hquote, List.head?_map]
    cases hall : closers t with
    | nil => rfl
    | cons i l =>
      have hclose := mem_closers_iff.1 (hall ▸ List.mem_cons_self)
      have hone := one_lt_offset_iff hquote hclose.lt_length
      by_cases hi : 1 < i <;> simp [Option.filter_some, hone, hi]
  have hplain : ((quoteBytes t).find? fun k => ¬ IsEscapedByte t k).toList =
      ((closers t).filter fun i => ¬ EscapedAt t i).map (Text.offset t) := by
    rw [← filter_not_throughFirst, ← map_closers hquote]
    exact filter_map_of_iff _ fun i hi => not_congr (hescaped i hi)
  have hrest : ((quoteBytes t).takeWhile fun k => IsEscapedByte t k) =
      ((closers t).filter fun i => EscapedAt t i).map (Text.offset t) := by
    rw [← filter_throughFirst, ← map_closers hquote]
    exact filter_map_of_iff _ hescaped
  rw [closingBytes, closingQuotes_eq hquote, closingOrder, List.map_append, List.map_append,
    List.map_reverse, hfirst, hplain, hrest]

/-- A place where the text may close lies between two characters. -/
theorem ClosesAtByte.dropBytes? {k : Nat} (h : ClosesAtByte t k) :
    ∃ v, Text.dropBytes? k t = some ('"' :: v) := by
  obtain ⟨i, ⟨-, hi, -⟩, rfl⟩ := (closesAtByte_iff hquote).1 h
  obtain ⟨hlt, hget⟩ := List.getElem?_eq_some_iff.1 hi
  exact ⟨_, by rw [Text.dropBytes?_offset, List.drop_eq_getElem_cons hlt, hget]⟩

end Quoted

/-! ## The quote that closes a value -/

/-- The value goes up to byte `k`, and a terminator is accepted behind it. -/
def IsClosedAtByte (t : Text) (k : Nat) (r : Reading Text) : Prop :=
  ∃ value v e, Text.dropBytes? (k + 1) t = some v ∧ t = value ++ v ∧
    terminator.read v = .ok e ∧ r = ⟨value, value ++ e.text, e.rest⟩

theorem read_closedAt_eq_ok_iff_isClosedAtByte {t : Text} {i : Nat} {r : Reading Text}
    (hi : t[i]? = some '"') :
    (closedAt i).read t = .ok r ↔ IsClosedAtByte t (Text.offset t i) r := by
  have hnext : Text.offset t i + 1 = Text.offset t (i + 1) := by
    rw [Text.offset_succ_of_getElem? hi]
    rfl
  rw [IsClosedAtByte, hnext, Text.dropBytes?_offset]
  simp only [closedAt, read_bind_eq_ok_iff, read_take, read_pure, Except.ok.injEq]
  constructor
  · rintro ⟨_, _, rfl, ⟨e, _, he, rfl, rfl⟩, rfl⟩
    exact ⟨_, _, e, rfl, (List.take_append_drop _ _).symm, he, by simp⟩
  · rintro ⟨value, _, e, hv, hsplit, he, rfl⟩
    cases hv
    obtain rfl : value = t.take (i + 1) := by
      refine (List.append_left_inj (t.drop (i + 1))).1 ?_
      rw [← hsplit, List.take_append_drop]
    exact ⟨_, _, rfl, ⟨e, _, he, rfl, rfl⟩, by simp⟩

section Quoted

variable {t : Text} (hquote : t.head? = some '"')

include hquote

theorem read_closedAt_of_mem_closingQuotes {i : Nat} (hi : i ∈ closingQuotes t)
    {r : Reading Text} :
    (closedAt i).read t = .ok r ↔ IsClosedAtByte t (Text.offset t i) r := by
  rw [closingQuotes_eq hquote, mem_closingOrder_iff] at hi
  exact read_closedAt_eq_ok_iff_isClosedAtByte hi.2.1

/-- Whether there is a quoted value depends on a terminator behind one of the places only. -/
theorem exists_read_quotedValue_iff_closesAtByte :
    (∃ r, quotedValue.read t = .ok r) ↔
      ∃ k, ClosesAtByte t k ∧ ∃ r, IsClosedAtByte t k r := by
  simp only [exists_read_quotedValue_iff_exists_mem, ← mem_closingBytes_iff hquote, closingBytes,
    List.mem_map, exists_exists_and_eq_and]
  rw [and_iff_right hquote]
  refine exists_congr fun i => and_congr_right fun hi => ?_
  simp only [read_closedAt_of_mem_closingQuotes hquote hi]

/-- The first place with a terminator behind it closes the value. -/
theorem read_quotedValue_eq_ok_iff_isClosedAtByte {r : Reading Text} :
    quotedValue.read t = .ok r ↔
      ∃ before k after, closingBytes t = before ++ k :: after ∧
        (∀ j ∈ before, ∀ s, ¬ IsClosedAtByte t j s) ∧ IsClosedAtByte t k r := by
  rw [read_quotedValue_eq_ok_iff_read_firstOf, and_iff_right hquote, read_firstOf_map_eq_ok_iff]
  constructor
  · rintro ⟨before, i, after, hplaces, hfails, hi⟩
    have hread {j : Nat} (hj : j ∈ before ++ i :: after) {s : Reading Text} :=
      read_closedAt_of_mem_closingQuotes hquote (hplaces ▸ hj) (r := s)
    refine ⟨before.map (Text.offset t), Text.offset t i, after.map (Text.offset t), ?_, ?_, ?_⟩
    · rw [closingBytes, hplaces, List.map_append, List.map_cons]
    · rw [List.forall_mem_map]
      exact fun j hj s => mt (hread (List.mem_append_left _ hj)).2 (hfails j hj s)
    · exact (hread (by simp)).1 hi
  · rintro ⟨_, _, _, hbytes, hfails, hk⟩
    obtain ⟨before, _, hplaces, rfl, hmap⟩ := List.map_eq_append_iff.1 hbytes
    obtain ⟨i, after, rfl, rfl, rfl⟩ := List.map_eq_cons_iff.1 hmap
    have hread {j : Nat} (hj : j ∈ before ++ i :: after) {s : Reading Text} :=
      read_closedAt_of_mem_closingQuotes hquote (hplaces ▸ hj) (r := s)
    rw [List.forall_mem_map] at hfails
    exact ⟨before, i, after, hplaces, fun j hj s =>
      mt (hread (List.mem_append_left _ hj)).1 (hfails j hj s), (hread (by simp)).2 hk⟩

end Quoted

/-- The places where a quoted text may close are known from its bytes, with the order in which they
are tried, and the first one with a terminator behind it decides about the value. -/
theorem closingBytes_characterized {t : Text} (hquote : t.head? = some '"') :
    (∀ k, k ∈ closingBytes t ↔ ClosesAtByte t k) ∧
    closingBytes t =
      ((quoteBytes t).head?.filter (1 < ·)).toList ++
        ((quoteBytes t).find? fun k => ¬ IsEscapedByte t k).toList ++
          ((quoteBytes t).takeWhile fun k => IsEscapedByte t k).reverse ∧
    (∀ k ∈ closingBytes t, ∃ v, Text.dropBytes? k t = some ('"' :: v)) ∧
    ((∃ r, quotedValue.read t = .ok r) ↔ ∃ k, ClosesAtByte t k ∧ ∃ r, IsClosedAtByte t k r) ∧
    ∀ r, quotedValue.read t = .ok r ↔
      ∃ before k after, closingBytes t = before ++ k :: after ∧
        (∀ j ∈ before, ∀ s, ¬ IsClosedAtByte t j s) ∧ IsClosedAtByte t k r := by
  refine ⟨fun k => mem_closingBytes_iff hquote, closingBytes_eq hquote, fun k hk => ?_,
    exists_read_quotedValue_iff_closesAtByte hquote,
    fun r => read_quotedValue_eq_ok_iff_isClosedAtByte hquote⟩
  exact ((mem_closingBytes_iff hquote).1 hk).dropBytes? hquote

/-- The quote behind the backslash is tried first and last, and the other one closes the value. -/
theorem closingBytes_characterized_escaped :
    ("\"é\\\"b\";".toList.head? = some '"') ∧
      closingBytes "\"é\\\"b\";".toList = [4, 6, 4] ∧
      ClosesAtByte "\"é\\\"b\";".toList 6 ∧
      quotedValue.read "\"é\\\"b\";".toList =
        .ok ⟨"\"é\\\"b\"".toList, "\"é\\\"b\";".toList, []⟩ := by
  have hquote : "\"é\\\"b\";".toList.head? = some '"' := rfl
  obtain ⟨hmem, horder, -, -, hread⟩ := closingBytes_characterized hquote
  have hplaces : closingBytes "\"é\\\"b\";".toList = [4, 6, 4] := by
    rw [horder]
    decide
  refine ⟨hquote, hplaces, (hmem 6).1 (hplaces ▸ by decide),
    (hread _).2 ⟨[4], 6, [4], hplaces, ?_, ?_⟩⟩
  · simp only [List.mem_singleton, forall_eq]
    rintro s ⟨_, v, e, hv, -, he, -⟩
    cases hv
    contradiction
  · exact ⟨_, [';'], ⟨(), [';'], []⟩, rfl, rfl, rfl, rfl⟩

end SassVars.Statement
