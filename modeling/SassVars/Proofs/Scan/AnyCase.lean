import Mathlib.Order.Bounds.Basic
import SassVars.Proofs.Scan.Tokens

/-!
# Start markers in any mix of cases

A start marker inside a statement may be written in any mix of ASCII cases. Looking for one is the
same as looking for a standing marker in the lowered text: lowering keeps the bytes of every
character, the quotes and the line ends, so a place in the lowered text is a place in the text
itself, and what is cut out there is the name as it was written.

## Main definitions

* `SectionMarker.IsQuotedName`: a quoted name and what follows it.
* `Reading.lowered`: a reading of a text as one of the lowered text.
* `SectionMarker.StartsAtByte`: a standing start marker at a byte offset.
-/

namespace SassVars

open Reader

namespace Text

/-! ## Lowering -/

/-- Lowering moves the capital letters and nothing else. -/
theorem toLower_eq_self_or (c : Char) :
    c.toLower = c ∨ (65 ≤ c.toNat ∧ c.toNat ≤ 90) ∧ c.toLower.toNat = c.toNat + 32 := by
  by_cases hc : c.val ≥ 'A'.val ∧ c.val ≤ 'Z'.val
  · right
    have hrange : 65 ≤ c.toNat ∧ c.toNat ≤ 90 := hc
    have hval : c.toLower.val = c.val + 32 := congrArg Char.val (dif_pos hc)
    refine ⟨hrange, ?_⟩
    rw [Char.toNat, hval, UInt32.toNat_add, Nat.mod_eq_of_lt]
    · rfl
    · have : c.val.toNat ≤ 90 := hrange.2
      have : (32 : UInt32).toNat = 32 := rfl
      omega
  · exact .inl (dif_neg hc)

theorem isLineEnd_toLower (c : Char) : isLineEnd c.toLower = isLineEnd c := by
  have hletter {d : Char} (hd : 65 ≤ d.toNat ∧ d.toNat ≤ 122) : isLineEnd d = false := by
    simp only [isLineEnd, Bool.or_eq_false_iff, beq_eq_false_iff_ne]
    refine ⟨⟨⟨?_, ?_⟩, by omega⟩, by omega⟩ <;> rintro rfl <;> revert hd <;> decide
  rcases toLower_eq_self_or c with h | ⟨hrange, h⟩
  · rw [h]
  · rw [hletter (d := c.toLower) (by omega), hletter (d := c) (by omega)]

theorem utf8Size_toLower (c : Char) : c.toLower.utf8Size = c.utf8Size := by
  have hascii {d : Char} (hd : d.toNat ≤ 127) : d.utf8Size = 1 :=
    Char.utf8Size_eq_one_iff.2 (UInt32.le_iff_toNat_le.2 hd)
  rcases toLower_eq_self_or c with h | ⟨hrange, h⟩
  · rw [h]
  · rw [hascii (d := c.toLower) (by omega), hascii (d := c) (by omega)]

theorem toLower_eq_quote_iff {c : Char} : c.toLower = '"' ↔ c = '"' := by
  refine ⟨fun h => eq_of_toLower_eq h (by decide), ?_⟩
  rintro rfl
  decide

@[simp]
theorem byteLength_lower (t : Text) : byteLength (lower t) = byteLength t := by
  induction t with
  | nil => rfl
  | cons c t ih =>
    rw [lower, List.map_cons, byteLength_cons, utf8Size_toLower, byteLength_cons, ← ih, lower]

theorem quote_mem_lower_iff {t : Text} : '"' ∈ lower t ↔ '"' ∈ t := by
  simp [lower, toLower_eq_quote_iff]

theorem firstLine_lower (t : Text) : firstLine (lower t) = lower (firstLine t) := by
  rw [firstLine, lower, List.takeWhile_map, firstLine, lower]
  simp only [Function.comp_def, isLineEnd_toLower]

/-- A part of a lowered text was a part of the text. -/
theorem lower_eq_append_iff {t u v : Text} :
    lower t = u ++ v ↔ ∃ a b, t = a ++ b ∧ lower a = u ∧ lower b = v :=
  List.map_eq_append_iff

/-! ## The last `c` of a text -/

theorem throughLast_append {c : Char} {q : Text} (h : c ∉ q) (p : Text) :
    throughLast c (p ++ (c :: q)) = p ++ [c] := by
  have hrun : IsRun (· != c) q.reverse (c :: p.reverse) := .of_not_mem (by simpa using h) _
  have hsplit : (p ++ (c :: q)).reverse = q.reverse ++ c :: p.reverse := by simp
  rw [throughLast, hsplit, hrun.dropWhile_eq]
  simp

theorem exists_of_throughLast_ne_nil {c : Char} {t : Text} (h : throughLast c t ≠ []) :
    ∃ p q, t = p ++ c :: q ∧ c ∉ q ∧ throughLast c t = p ++ [c] := by
  have hmem : c ∈ t.reverse := Classical.byContradiction fun hmem => h <| by
    rw [throughLast, List.dropWhile_eq_nil_iff.2, List.reverse_nil]
    exact fun d hd => bne_iff_ne.2 fun heq => hmem (heq ▸ hd)
  obtain ⟨q, p, hsplit, hq⟩ := List.eq_append_cons_of_mem hmem
  have ht : t = p.reverse ++ c :: q.reverse := by
    rw [← List.reverse_reverse t, hsplit]
    simp
  have hq' : c ∉ q.reverse := by simpa using hq
  exact ⟨p.reverse, q.reverse, ht, hq', by rw [ht, throughLast_append hq']⟩

end Text

/-! ## Quoted names -/

namespace SectionMarker

/-- A name in quotes on one line, up to the last quote of that line. -/
structure IsQuotedName (raw rest : Text) : Prop where
  quoted : ∃ inner, inner ≠ [] ∧ raw = '"' :: (inner ++ ['"'])
  one_line : ∀ c ∈ raw, Text.isLineEnd c = false
  last : '"' ∉ Text.firstLine rest

theorem IsQuotedName.throughLast_eq {raw rest : Text} (h : IsQuotedName raw rest) :
    Text.throughLast '"' (Text.firstLine (raw ++ rest)) = raw := by
  have hline : Text.firstLine (raw ++ rest) = raw ++ Text.firstLine rest :=
    List.takeWhile_append_of_pos fun c hc => by simp [h.one_line c hc]
  obtain ⟨inner, _, hraw⟩ := h.quoted
  have hsplit : raw ++ Text.firstLine rest = ('"' :: inner) ++ ('"' :: Text.firstLine rest) := by
    simp [hraw]
  rw [hline, hsplit, Text.throughLast_append h.last, hraw]
  rfl

/-- Up to its last quote the first line is a quoted name when it starts with a quote and has
something in between. -/
theorem exists_isQuotedName {t : Text}
    (hhead : (Text.throughLast '"' (Text.firstLine t)).head? = some '"')
    (hlen : 3 ≤ (Text.throughLast '"' (Text.firstLine t)).length) :
    ∃ rest, IsQuotedName (Text.throughLast '"' (Text.firstLine t)) rest ∧
      t = Text.throughLast '"' (Text.firstLine t) ++ rest := by
  obtain ⟨u, ht, hline⟩ : ∃ u, t = Text.firstLine t ++ u ∧
      Text.IsRun (!Text.isLineEnd ·) (Text.firstLine t) u :=
    ⟨_, List.takeWhile_append_dropWhile.symm, Text.isRun_takeWhile _ t⟩
  have hne : Text.throughLast '"' (Text.firstLine t) ≠ [] := fun hnil => by simp [hnil] at hlen
  obtain ⟨p, q, hsplit, hq, hraw⟩ := Text.exists_of_throughLast_ne_nil hne
  rw [hsplit] at hline
  rw [hraw] at hhead hlen ⊢
  have hrest : Text.IsRun (!Text.isLineEnd ·) q u :=
    ⟨fun c hc => hline.all c (by simp [hc]), hline.stops⟩
  refine ⟨q ++ u, ⟨?_, fun c hc => ?_, ?_⟩, by rw [ht, hsplit]; simp⟩
  · cases p with
    | nil => simp at hlen
    | cons c inner =>
      obtain rfl : c = '"' := by simpa using hhead
      exact ⟨inner, by rintro rfl; simp at hlen, rfl⟩
  · have hmem : c ∈ p ++ '"' :: q := by
      rw [← List.singleton_append, ← List.append_assoc]
      exact List.mem_append_left _ hc
    simpa using hline.all c hmem
  · rwa [Text.firstLine, hrest.takeWhile_eq]

theorem read_quotedName_eq_ok_iff {t : Text} {r : Reading Text} :
    quotedName.read t = .ok r ↔
      ∃ raw rest, IsQuotedName raw rest ∧ t = raw ++ rest ∧ r = ⟨raw, raw, rest⟩ := by
  simp only [quotedName, read_bind_eq_ok_iff, read_peek, Except.ok.injEq]
  constructor
  · rintro ⟨_, b, rfl, hb, rfl⟩
    split at hb
    · rename_i hraw
      simp only [Bool.and_eq_true, beq_iff_eq, decide_eq_true_eq] at hraw
      obtain ⟨rest, hname, ht⟩ := exists_isQuotedName hraw.1 hraw.2
      refine ⟨_, rest, hname, ht, ?_⟩
      rw [read_take] at hb
      cases hb
      generalize Text.throughLast '"' (Text.firstLine t) = raw at ht
      simp [ht]
    · simp at hb
  · rintro ⟨raw, rest, h, rfl, rfl⟩
    obtain ⟨inner, hne, hraw⟩ := h.quoted
    have hlen : 3 ≤ raw.length := by
      have := List.length_pos_iff.2 hne
      simp only [hraw, List.length_cons, List.length_append, List.length_nil]
      omega
    have hhead : raw.head? = some '"' := by rw [hraw]; rfl
    refine ⟨_, ⟨raw, raw, rest⟩, rfl, ?_, by simp⟩
    simp [h.throughLast_eq, hhead, hlen]

/-- Lowering neither makes nor spoils a quoted name. -/
theorem isQuotedName_lower_iff {raw rest : Text} :
    IsQuotedName (Text.lower raw) (Text.lower rest) ↔ IsQuotedName raw rest := by
  have hline : (∀ c ∈ Text.lower raw, Text.isLineEnd c = false) ↔
      ∀ c ∈ raw, Text.isLineEnd c = false := by
    simp [Text.lower, Text.isLineEnd_toLower]
  have hlast : '"' ∉ Text.firstLine (Text.lower rest) ↔ '"' ∉ Text.firstLine rest := by
    rw [Text.firstLine_lower, Text.quote_mem_lower_iff]
  have hquoted : (∃ inner, inner ≠ [] ∧ Text.lower raw = '"' :: (inner ++ ['"'])) ↔
      ∃ inner, inner ≠ [] ∧ raw = '"' :: (inner ++ ['"']) := by
    constructor
    · rintro ⟨inner, hne, h⟩
      rw [← List.singleton_append] at h
      obtain ⟨a, b, rfl, ha, hb⟩ := Text.lower_eq_append_iff.1 h
      obtain ⟨b, c, rfl, rfl, hc⟩ := Text.lower_eq_append_iff.1 hb
      obtain ⟨q, rfl, hq⟩ := List.map_eq_singleton_iff.1 ha
      obtain ⟨q', rfl, hq'⟩ := List.map_eq_singleton_iff.1 hc
      rw [Text.toLower_eq_quote_iff] at hq hq'
      exact ⟨b, by simpa [Text.lower] using hne, by simp [hq, hq']⟩
    · rintro ⟨inner, hne, rfl⟩
      exact ⟨Text.lower inner, by simpa [Text.lower] using hne, by simp [Text.lower]⟩
  constructor
  · exact fun h => ⟨hquoted.1 h.quoted, hline.1 h.one_line, hlast.1 h.last⟩
  · exact fun h => ⟨hquoted.2 h.quoted, hline.2 h.one_line, hlast.2 h.last⟩

/-! ## Start markers -/

theorem read_start_eq_ok_iff {t : Text} {r : Reading Text} :
    start.read t = .ok r ↔ ∃ raw rest, IsQuotedName raw rest ∧
      t = startOpening ++ (raw ++ rest) ∧ r = ⟨raw, startOpening ++ raw, rest⟩ := by
  simp only [start, read_bind_eq_ok_iff, read_literal_eq_ok_iff, read_quotedName_eq_ok_iff]
  constructor
  · rintro ⟨_, _, ⟨_, rfl, rfl⟩, ⟨raw, rest, h, rfl, rfl⟩, rfl⟩
    exact ⟨raw, rest, h, rfl, rfl⟩
  · rintro ⟨raw, rest, h, rfl, rfl⟩
    exact ⟨_, _, ⟨_, rfl, rfl⟩, ⟨raw, rest, h, rfl, rfl⟩, rfl⟩

theorem read_embeddedStart_eq_ok_iff {t : Text} {r : Reading Text} :
    embeddedStart.read t = .ok r ↔ ∃ opening raw rest, Text.lower opening = startOpening ∧
      IsQuotedName raw rest ∧ t = opening ++ (raw ++ rest) ∧ r = ⟨raw, opening ++ raw, rest⟩ := by
  simp only [embeddedStart, read_bind_eq_ok_iff, read_literalAnyCase_eq_ok_iff,
    read_quotedName_eq_ok_iff]
  constructor
  · rintro ⟨_, _, ⟨opening, _, hopening, rfl, rfl⟩, ⟨raw, rest, h, rfl, rfl⟩, rfl⟩
    exact ⟨opening, raw, rest, hopening, h, rfl, rfl⟩
  · rintro ⟨opening, raw, rest, hopening, h, rfl, rfl⟩
    exact ⟨_, _, ⟨opening, _, hopening, rfl, rfl⟩, ⟨raw, rest, h, rfl, rfl⟩, rfl⟩

end SectionMarker

/-- The same reading of the lowered text. -/
def Reading.lowered (r : Reading Text) : Reading Text :=
  ⟨Text.lower r.value, Text.lower r.text, Text.lower r.rest⟩

namespace SectionMarker

/-- A standing marker in the lowered text is a marker in any mix of cases in the text. -/
theorem read_start_lower_eq_ok_iff {t : Text} {s : Reading Text} :
    start.read (Text.lower t) = .ok s ↔ ∃ r, embeddedStart.read t = .ok r ∧ s = r.lowered := by
  rw [read_start_eq_ok_iff]
  constructor
  · rintro ⟨_, _, h, hsplit, rfl⟩
    obtain ⟨opening, u, rfl, hopening, hu⟩ := Text.lower_eq_append_iff.1 hsplit
    obtain ⟨raw, rest, rfl, rfl, rfl⟩ := Text.lower_eq_append_iff.1 hu
    refine ⟨⟨raw, opening ++ raw, rest⟩, read_embeddedStart_eq_ok_iff.2
      ⟨opening, raw, rest, hopening, isQuotedName_lower_iff.1 h, rfl, rfl⟩, ?_⟩
    rw [Reading.lowered, Text.lower_append, hopening]
  · rintro ⟨r, hr, rfl⟩
    obtain ⟨opening, raw, rest, hopening, h, rfl, rfl⟩ := read_embeddedStart_eq_ok_iff.1 hr
    refine ⟨Text.lower raw, Text.lower rest, isQuotedName_lower_iff.2 h, ?_, ?_⟩
    · rw [Text.lower_append, Text.lower_append, hopening]
    · rw [Reading.lowered, Text.lower_append, hopening]

theorem read?_start_lower (t : Text) :
    start.read? (Text.lower t) = (embeddedStart.read? t).map Reading.lowered := by
  cases hread : embeddedStart.read? t with
  | none =>
    refine read?_eq_none_iff.2 fun s hs => ?_
    obtain ⟨r, hr, _⟩ := read_start_lower_eq_ok_iff.1 hs
    exact read?_eq_none_iff.1 hread r hr
  | some r =>
    exact read?_eq_some_iff.2
      (read_start_lower_eq_ok_iff.2 ⟨r, read?_eq_some_iff.1 hread, rfl⟩)

/-- The search for a standing marker in the lowered text stops where the search for a marker in
any mix of cases stops in the text. -/
theorem find?_start_lower (t : Text) : start.find? (Text.lower t) =
    (embeddedStart.find? t).map fun (before, r) => (Text.lower before, r.lowered) := by
  induction t with
  | nil =>
    have hnil : start.read? [] = (embeddedStart.read? []).map Reading.lowered :=
      read?_start_lower []
    rw [Text.lower, List.map_nil, find?, find?, hnil]
    cases embeddedStart.read? [] <;> rfl
  | cons c t ih =>
    rw [Text.lower, List.map_cons, find?, find?, ← List.map_cons, ← Text.lower, ← Text.lower,
      read?_start_lower, ih]
    cases embeddedStart.read? (c :: t) with
    | some r => rfl
    | none => cases embeddedStart.find? t <;> rfl

theorem name_lower (raw : Text) : name (Text.lower raw) = Text.lower (name raw) := by
  have hquote (c : Char) : (c.toLower != '"') = (c != '"') := by
    rw [Bool.eq_iff_iff, bne_iff_ne, bne_iff_ne, Ne, Text.toLower_eq_quote_iff]
  simp only [name, Text.lower, List.filter_map, Function.comp_def, hquote]

/-- The name that is found in a text and the one that is found in the lowered text differ in
case only. -/
theorem lower_findStart? (t : Text) : (findStart? t).map Text.lower =
    (start.find? (Text.lower t)).map fun found => name found.2.value := by
  rw [findStart?, find?_start_lower, Option.map_map, Option.map_map]
  exact congrArg (Option.map · _) (funext fun found => (name_lower found.2.value).symm)

/-! ## The first start marker by its place -/

/-- A standing start marker is what the text reads from byte `i` on. -/
def StartsAtByte (t : Text) (i : Nat) : Prop :=
  ∃ u r, Text.dropBytes? i t = some u ∧ start.read u = .ok r

/-- The marker at byte `i` has the quoted name `raw`. It is read in the lowered text, and the two
places where the name is cut out of `t` are counted back from the end. -/
structure NameCutAt (t : Text) (i : Nat) (raw : Text) : Prop where
  written : ∃ before opening after, t = before ++ (opening ++ (raw ++ after)) ∧
    Text.byteLength before = i ∧ Text.lower opening = startOpening ∧ IsQuotedName raw after
  cut : ∃ u r after, Text.dropBytes? i (Text.lower t) = some u ∧ start.read u = .ok r ∧
    r.value = Text.lower raw ∧
    Text.byteLength r.rest + Text.byteLength r.value ≤ Text.byteLength t ∧
    Text.dropBytes? (Text.byteLength t - Text.byteLength r.rest - Text.byteLength r.value) t =
      some (raw ++ after) ∧
    Text.dropBytes? (Text.byteLength t - Text.byteLength r.rest) t = some after

theorem startsAtByte_iff {t : Text} {i : Nat} :
    StartsAtByte t i ↔ ∃ before u r, t = before ++ u ∧ Text.byteLength before = i ∧
      start.read u = .ok r := by
  constructor
  · rintro ⟨u, r, hdrop, hr⟩
    obtain ⟨before, rfl, rfl⟩ := Text.dropBytes?_eq_some hdrop
    exact ⟨before, u, r, rfl, rfl, hr⟩
  · rintro ⟨before, u, r, rfl, rfl, hr⟩
    exact ⟨u, r, Text.dropBytes?_append before u, hr⟩

theorem find?_start_eq_none_iff {t : Text} :
    start.find? t = none ↔ ∀ i, ¬ StartsAtByte t i := by
  rw [find?_eq_none_iff]
  constructor
  · intro h i hi
    obtain ⟨before, u, r, hsplit, _, hr⟩ := startsAtByte_iff.1 hi
    exact h before u hsplit r hr
  · intro h u v hsplit r hr
    exact h _ (startsAtByte_iff.2 ⟨u, v, r, hsplit, rfl, hr⟩)

/-- A search stops at the first byte where a marker stands. -/
theorem isLeast_of_find?_start {t before : Text} {r : Reading Text}
    (h : start.find? t = some (before, r)) :
    IsLeast {i | StartsAtByte t i} (Text.byteLength before) := by
  obtain ⟨hread, hsplit⟩ := find?_eq_some h
  refine ⟨startsAtByte_iff.2 ⟨before, _, r, hsplit, rfl, hread⟩, fun i hi => ?_⟩
  obtain ⟨u, v, s, hsplit', rfl, hs⟩ := startsAtByte_iff.1 hi
  have hlen := length_le_of_find? h hsplit' hs
  obtain ⟨m, rfl⟩ := List.prefix_of_prefix_length_le ⟨_, hsplit.symm⟩ ⟨v, hsplit'.symm⟩ hlen
  rw [Text.byteLength_append]
  exact Nat.le_add_right _ _

theorem nameCutAt_of_find? {t before : Text} {r : Reading Text}
    (h : embeddedStart.find? t = some (before, r)) :
    NameCutAt t (Text.byteLength before) r.value := by
  obtain ⟨hread, ht⟩ := find?_eq_some h
  have hlower := read_start_lower_eq_ok_iff.2 ⟨r, hread, rfl⟩
  obtain ⟨opening, raw, after, hopening, hname, hsplit, rfl⟩ := read_embeddedStart_eq_ok_iff.1 hread
  rw [hsplit] at ht hlower
  refine ⟨⟨before, opening, after, ht, rfl, hopening, hname⟩,
    ⟨Text.lower (opening ++ (raw ++ after)), _, after, ?_, hlower, rfl, ?_, ?_, ?_⟩⟩
  · rw [ht, Text.lower_append, ← Text.byteLength_lower before, Text.dropBytes?_append]
  · simp only [Reading.lowered, Text.byteLength_lower, ht, Text.byteLength_append]
    omega
  · have hlen : Text.byteLength t - Text.byteLength (Text.lower after) -
        Text.byteLength (Text.lower raw) = Text.byteLength (before ++ opening) := by
      simp only [Text.byteLength_lower, ht, Text.byteLength_append]
      omega
    rw [Reading.lowered, hlen, ht, ← List.append_assoc, Text.dropBytes?_append]
  · have hlen : Text.byteLength t - Text.byteLength (Text.lower after) =
        Text.byteLength (before ++ (opening ++ raw)) := by
      simp only [Text.byteLength_lower, ht, Text.byteLength_append]
      omega
    have hassoc : t = (before ++ (opening ++ raw)) ++ after := by rw [ht]; simp
    rw [Reading.lowered, hlen, hassoc, Text.dropBytes?_append]

/-- At one place of a text there is at most one name. -/
theorem NameCutAt.unique {t raw raw' : Text} {i : Nat} (h : NameCutAt t i raw)
    (h' : NameCutAt t i raw') : raw = raw' := by
  obtain ⟨before, opening, after, ht, hi, hopening, hname⟩ := h.written
  obtain ⟨before', opening', after', ht', hi', hopening', hname'⟩ := h'.written
  obtain ⟨-, hrest⟩ := Text.append_inj_of_byteLength (ht.symm.trans ht') (hi.trans hi'.symm)
  have hr := read_embeddedStart_eq_ok_iff.2 ⟨opening, raw, after, hopening, hname, rfl, rfl⟩
  have hr' := read_embeddedStart_eq_ok_iff.2 ⟨opening', raw', after', hopening', hname', rfl, rfl⟩
  rw [hrest, hr'] at hr
  exact (congrArg Reading.value (Except.ok.inj hr)).symm

/-- The start marker of a text is the first standing one of the lowered text, whose name is cut
out as it was written. Texts that differ in case only give names that differ in case only. -/
theorem findStart?_anyCase (t : Text) :
    (findStart? t = none ↔ ∀ i, ¬ StartsAtByte (Text.lower t) i) ∧
    (∀ title, findStart? t = some title ↔
      ∃ i raw, IsLeast {i | StartsAtByte (Text.lower t) i} i ∧ NameCutAt t i raw ∧
        title = name raw) ∧
    ∀ t', Text.lower t = Text.lower t' →
      (findStart? t).map Text.lower = (findStart? t').map Text.lower := by
  have hnone : findStart? t = none ↔ ∀ i, ¬ StartsAtByte (Text.lower t) i := by
    rw [← find?_start_eq_none_iff, find?_start_lower, findStart?, Option.map_eq_none_iff,
      Option.map_eq_none_iff]
  have hfound {before : Text} {r : Reading Text} (h : embeddedStart.find? t = some (before, r)) :
      IsLeast {i | StartsAtByte (Text.lower t) i} (Text.byteLength before) := by
    rw [← Text.byteLength_lower before]
    exact isLeast_of_find?_start (by rw [find?_start_lower, h]; rfl)
  refine ⟨hnone, fun title => ⟨fun h => ?_, ?_⟩, fun t' h => ?_⟩
  · rw [findStart?, Option.map_eq_some_iff] at h
    obtain ⟨⟨before, r⟩, hfind, rfl⟩ := h
    exact ⟨_, r.value, hfound hfind, nameCutAt_of_find? hfind, rfl⟩
  · rintro ⟨i, raw, hleast, hcut, rfl⟩
    cases hfind : embeddedStart.find? t with
    | none => exact absurd hleast.1 (hnone.1 (by rw [findStart?, hfind]; rfl) i)
    | some found =>
      obtain ⟨before, r⟩ := found
      have hi := (hfound hfind).unique hleast
      have hraw := (nameCutAt_of_find? hfind).unique (hi ▸ hcut)
      rw [findStart?, hfind, ← hraw]
      rfl
  · rw [lower_findStart?, lower_findStart?, h]

/-- A name in two spellings, behind a longer character and a marker without a name. -/
theorem findStart?_two_spellings :
    Text.lower "é @Sass-Export-Subsection= @SASS-EXPORT-subsection=\"Äon\"".toList =
      Text.lower "é @sass-export-subsection= @sass-export-subsection=\"ÄON\"".toList ∧
    (findStart? "é @Sass-Export-Subsection= @SASS-EXPORT-subsection=\"Äon\"".toList).map
        Text.lower =
      (findStart? "é @sass-export-subsection= @sass-export-subsection=\"ÄON\"".toList).map
        Text.lower ∧
    findStart? "é @Sass-Export-Subsection= @SASS-EXPORT-subsection=\"Äon\"".toList =
      some "Äon".toList :=
  ⟨by decide, (findStart?_anyCase _).2.2 _ (by decide), by decide⟩

end SectionMarker

end SassVars
