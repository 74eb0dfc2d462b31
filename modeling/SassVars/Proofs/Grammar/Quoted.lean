import Mathlib.Data.List.Chain
import SassVars.Proofs.Grammar.Value

/-!
# The grammar of quoted values

A quoted value closes at a quote that a terminator follows. Only quotes with nothing but
escaped quotes in front of them come into question, and these are tried in a fixed order.

## Main definitions

* `Statement.MayClose`: the places where a quoted text may close.
* `Statement.closingOrder`: these places in the order in which they are tried.
* `Statement.IsQuotedValue`: a value in quotes with its terminator.
-/

namespace SassVars.Statement

open Reader

/-! ## Closing quotes -/

/-- The quote at place `i` has a backslash in front of it. -/
def EscapedAt (t : Text) (i : Nat) : Prop :=
  t[i - 1]? = some '\\'

instance (t : Text) : DecidablePred (EscapedAt t) :=
  fun i => inferInstanceAs (Decidable (t[i - 1]? = some '\\'))

/-- A quoted text that starts `t` may close at place `i`: a quote stands there, and every
quote inside is escaped. -/
def MayClose (t : Text) (i : Nat) : Prop :=
  0 < i ∧ t[i]? = some '"' ∧ ∀ j, j < i → 0 < j → t[j]? = some '"' → EscapedAt t j

instance (t : Text) : DecidablePred (MayClose t) :=
  fun i => inferInstanceAs
    (Decidable (0 < i ∧ t[i]? = some '"' ∧
      ∀ j, j < i → 0 < j → t[j]? = some '"' → EscapedAt t j))

theorem MayClose.lt_length {t : Text} {i : Nat} (h : MayClose t i) : i < t.length :=
  (List.getElem?_eq_some_iff.1 h.2.1).1

def closers (t : Text) : List Nat :=
  (List.range t.length).filter fun i => MayClose t i

/-- The places of `closers` in the order of preference: the first one, unless the text would
be empty; the one that is not escaped; the escaped ones from the last to the first. -/
def closingOrder (t : Text) : List Nat :=
  ((closers t).head?.filter (1 < ·)).toList ++
    (closers t).filter (fun i => ¬ EscapedAt t i) ++
      ((closers t).filter fun i => EscapedAt t i).reverse

/-- `p` starts a quoted text, and every quote in it is escaped. -/
def IsOpen (p : Text) : Prop :=
  p ≠ [] ∧ ∀ j, 0 < j → p[j]? = some '"' → EscapedAt p j

theorem IsOpen.append_cons {p : Text} {c : Char} (h : IsOpen p)
    (hc : c = '"' → p.getLast? = some '\\') : IsOpen (p ++ [c]) := by
  refine ⟨by simp, fun j hj hquote => ?_⟩
  have hpos := List.length_pos_iff.2 h.1
  rw [EscapedAt, List.getElem?_append_left (by grind)]
  rcases Nat.lt_or_ge j p.length with hlt | hge
  · exact h.2 j hj (by rwa [List.getElem?_append_left hlt] at hquote)
  · have hj : j = p.length := by grind
    subst hj
    rw [List.getLast?_eq_getElem?] at hc
    exact hc (by simpa using hquote)

/-- Behind an open beginning a quoted text may close at the next quote. -/
theorem IsOpen.mayClose_iff {p : Text} (h : IsOpen p) (c : Char) (u : Text) :
    MayClose (p ++ c :: u) p.length ↔ c = '"' := by
  have hpos := List.length_pos_iff.2 h.1
  constructor
  · rintro ⟨_, hquote, _⟩
    simpa using hquote
  · rintro rfl
    refine ⟨hpos, by simp, fun j hlt hj hquote => ?_⟩
    rw [List.getElem?_append_left hlt] at hquote
    rw [EscapedAt, List.getElem?_append_left (by omega)]
    exact h.2 j hj hquote

theorem escapedAt_length_iff {p : Text} (hp : p ≠ []) (u : Text) :
    EscapedAt (p ++ u) p.length ↔ p.getLast? = some '\\' := by
  have hpos := List.length_pos_iff.2 hp
  rw [EscapedAt, List.getElem?_append_left (by omega), List.getLast?_eq_getElem?]

/-- Nothing closes behind a quote that is not escaped. -/
theorem not_mayClose_of_lt {t : Text} {i j : Nat} (hi : 0 < i) (hquote : t[i]? = some '"')
    (hplain : ¬ EscapedAt t i) (hij : i < j) : ¬ MayClose t j :=
  fun h => hplain (h.2.2 i hij hi hquote)

/-- The scan for quotes lists the places where the text may close, from `p` on. -/
theorem quotesFrom_spec {p u : Text} (h : IsOpen p)
    (hedge : p.getLast? = some '\\' → u.head? ≠ some '"') :
    (List.range' p.length u.length).filter (fun i => MayClose (p ++ u) i) =
        (quotesFrom p.length u).1 ++ (quotesFrom p.length u).2.toList ∧
      (∀ i ∈ (quotesFrom p.length u).1, EscapedAt (p ++ u) i) ∧
      ∀ i ∈ (quotesFrom p.length u).2, ¬ EscapedAt (p ++ u) i := by
  generalize hn : p.length = n
  fun_induction quotesFrom n u generalizing p with
  | case1 => simp
  | case2 n t escaped closing heq ih =>
    subst hn
    have hslash : IsOpen (p ++ ['\\']) := h.append_cons (by simp)
    have hopen : IsOpen (p ++ ['\\', '"']) := by simpa using hslash.append_cons (by simp)
    have hfirst := h.mayClose_iff '\\' ('"' :: t)
    have hsecond := hslash.mayClose_iff '"' t
    have hescaped := escapedAt_length_iff (p := p ++ ['\\']) (by simp) ('"' :: t)
    have ih := ih hopen (by simp) (by simp)
    simp only [List.append_assoc, List.cons_append, List.nil_append, List.length_append,
      List.length_cons, List.length_nil, Nat.zero_add] at *
    simp only [heq] at ih ⊢
    refine ⟨?_, ?_, ih.2.2⟩
    · simp [List.range'_succ, hfirst, hsecond, ih.1]
    · simpa [hescaped] using ih.2.1
  | case3 n t =>
    subst hn
    have hquote := (h.mayClose_iff '"' t).2 rfl
    have hplain : ¬ EscapedAt (p ++ '"' :: t) p.length := by
      rw [escapedAt_length_iff h.1]
      exact fun hslash => hedge hslash rfl
    refine ⟨?_, by simp, by simpa using hplain⟩
    have hrest : (List.range' (p.length + 1) t.length).filter
        (fun i => MayClose (p ++ '"' :: t) i) = [] := by
      simp only [List.filter_eq_nil_iff, List.mem_range'_1, decide_eq_true_eq]
      exact fun i hi => not_mayClose_of_lt hquote.1 hquote.2.1 hplain (by omega)
    simp [List.range'_succ, hquote, hrest]
  | case4 n c t hne₁ hne₂ ih =>
    subst hn
    have hopen : IsOpen (p ++ [c]) := h.append_cons (fun hc => absurd hc hne₂)
    have hfirst := mt (h.mayClose_iff c t).1 hne₂
    have hedge' : (p ++ [c]).getLast? = some '\\' → t.head? ≠ some '"' := by
      intro hlast hhead
      obtain ⟨u, rfl⟩ := List.head?_eq_some_iff.1 hhead
      exact hne₁ u (by simpa using hlast) rfl
    have ih := ih hopen hedge' (by simp)
    simp only [List.append_assoc, List.singleton_append] at ih
    refine ⟨?_, ih.2⟩
    simp [List.range'_succ, hfirst, ih.1]

/-- The places that the scan lists are tried in the order of preference. -/
theorem closingQuotes_eq {t : Text} (h : t.head? = some '"') :
    closingQuotes t = closingOrder t := by
  obtain ⟨u, rfl⟩ := List.head?_eq_some_iff.1 h
  have hopen : IsOpen ['"'] := by
    refine ⟨by simp, fun j hj hquote => ?_⟩
    have hlt := (List.getElem?_eq_some_iff.1 hquote).1
    grind
  obtain ⟨hall, hescaped, hplain⟩ := quotesFrom_spec (p := ['"']) (u := u) hopen (by simp)
  simp only [List.length_singleton, List.singleton_append] at hall hescaped hplain
  have hzero : ¬ MayClose ('"' :: u) 0 := fun hclose => absurd hclose.1 (by omega)
  have hclosers : closers ('"' :: u) =
      (quotesFrom 1 u).1 ++ (quotesFrom 1 u).2.toList := by
    rw [closers, List.range_eq_range', List.length_cons, List.range'_succ,
      List.filter_cons_of_neg (by simpa using hzero), hall]
  rw [closingQuotes, closingOrder, hclosers]
  have hkeep : (quotesFrom 1 u).1.filter (fun i => EscapedAt ('"' :: u) i) =
      (quotesFrom 1 u).1 := by
    simpa using hescaped
  have hdrop : (quotesFrom 1 u).1.filter (fun i => ¬ EscapedAt ('"' :: u) i) = [] := by
    simpa using hescaped
  have hkeep' : (quotesFrom 1 u).2.toList.filter (fun i => ¬ EscapedAt ('"' :: u) i) =
      (quotesFrom 1 u).2.toList := by
    simpa using hplain
  have hdrop' : (quotesFrom 1 u).2.toList.filter (fun i => EscapedAt ('"' :: u) i) = [] := by
    simpa using hplain
  simp only [List.filter_append, hkeep, hdrop, hkeep', hdrop', List.tail_cons, List.nil_append,
    List.append_nil]

theorem mem_closers_iff {t : Text} {i : Nat} : i ∈ closers t ↔ MayClose t i := by
  simp only [closers, List.mem_filter, List.mem_range, decide_eq_true_eq, and_iff_right_iff_imp]
  exact MayClose.lt_length

theorem mem_closingOrder_iff {t : Text} {i : Nat} : i ∈ closingOrder t ↔ MayClose t i := by
  have hhead : i ∈ ((closers t).head?.filter (1 < ·)).toList → i ∈ closers t := by
    intro h
    rw [Option.mem_toList, Option.filter_eq_some_iff] at h
    exact List.mem_of_mem_head? h.1
  rw [← mem_closers_iff]
  simp only [closingOrder, List.mem_append, List.mem_reverse, List.mem_filter, decide_eq_true_eq]
  constructor
  · rintro ((h | h) | h)
    · exact hhead h
    · exact h.1
    · exact h.1
  · intro h
    by_cases hescaped : EscapedAt t i
    · exact .inr ⟨h, hescaped⟩
    · exact .inl (.inr ⟨h, hescaped⟩)

/-- A quoted text may close exactly behind its open beginnings. -/
theorem mayClose_iff_exists {t : Text} {i : Nat} :
    MayClose t i ↔ ∃ p z, IsOpen p ∧ t = p ++ '"' :: z ∧ p.length = i := by
  constructor
  · rintro ⟨hpos, hquote, hinside⟩
    obtain ⟨hlt, hget⟩ := List.getElem?_eq_some_iff.1 hquote
    have hlen : (t.take i).length = i := List.length_take_of_le hlt.le
    refine ⟨t.take i, t.drop (i + 1), ⟨List.ne_nil_of_length_pos (by omega), ?_⟩, ?_, hlen⟩
    · intro j hj hj'
      have hji : j < i := hlen ▸ (List.getElem?_eq_some_iff.1 hj').1
      rw [List.getElem?_take_of_lt hji] at hj'
      rw [EscapedAt, List.getElem?_take_of_lt (by omega)]
      exact hinside j hji hj hj'
    · rw [← hget, List.getElem_cons_drop, List.take_append_drop]
  · rintro ⟨p, z, hp, rfl, rfl⟩
    exact (hp.mayClose_iff '"' z).2 rfl

theorem isOpen_iff_isChain {p : Text} :
    IsOpen p ↔ p ≠ [] ∧ p.IsChain fun a b => b = '"' → a = '\\' := by
  refine and_congr_right fun _ => ?_
  rw [List.isChain_iff_getElem]
  constructor
  · intro h i hi hquote
    have hescaped := h (i + 1) (by omega) (by rw [List.getElem?_eq_getElem hi, hquote])
    rw [EscapedAt, Nat.add_sub_cancel, List.getElem?_eq_getElem (by omega)] at hescaped
    exact Option.some.inj hescaped
  · intro h j hj hquote
    obtain ⟨hlt, hget⟩ := List.getElem?_eq_some_iff.1 hquote
    obtain ⟨i, rfl⟩ := Nat.exists_eq_add_of_lt hj
    rw [EscapedAt, List.getElem?_eq_getElem (by omega)]
    exact congrArg some (h _ (by omega) (by simpa using hget))

/-- A terminator starts `t`. -/
def Terminated (t : Text) : Prop :=
  ∃ e rest, IsTerminator e rest ∧ t = e ++ rest

/-- A quoted value, its text up to and with the `;`, and what follows. It closes at the first
place, in the order of preference, that a terminator follows. -/
def IsQuotedValue (value text rest : Text) : Prop :=
  ∃ (before : List Nat) (i : Nat) (after : List Nat) (e : Text),
    (text ++ rest).head? = some '"' ∧
    closingOrder (text ++ rest) = before ++ i :: after ∧
    (∀ j ∈ before, ¬ Terminated ((text ++ rest).drop (j + 1))) ∧
    value = (text ++ rest).take (i + 1) ∧ text = value ++ e ∧ IsTerminator e rest

/-- A value up to place `i` with a terminator behind it. -/
def closedAt (i : Nat) : Reader Text := do
  let value ← take (i + 1)
  let _ ← terminator
  return value

theorem read_closedAt_eq_ok_iff {i : Nat} {t : Text} {r : Reading Text} :
    (closedAt i).read t = .ok r ↔
      ∃ e rest, IsTerminator e rest ∧ t.drop (i + 1) = e ++ rest ∧
        r = ⟨t.take (i + 1), t.take (i + 1) ++ e, rest⟩ := by
  simp only [closedAt, read_bind_eq_ok_iff, read_take, read_terminator_eq_ok_iff, read_pure,
    Except.ok.injEq]
  constructor
  · rintro ⟨_, _, rfl, ⟨_, _, ⟨e, rest, he, hdrop, rfl⟩, rfl, rfl⟩, rfl⟩
    exact ⟨e, rest, he, hdrop, by simp⟩
  · rintro ⟨e, rest, he, hdrop, rfl⟩
    exact ⟨_, _, rfl, ⟨_, _, ⟨e, rest, he, hdrop, rfl⟩, rfl, rfl⟩, by simp⟩

theorem closedAt_fails_iff {i : Nat} {t : Text} :
    (∀ r, (closedAt i).read t ≠ .ok r) ↔ ¬ Terminated (t.drop (i + 1)) := by
  constructor
  · rintro h ⟨e, rest, he, hdrop⟩
    exact h _ (read_closedAt_eq_ok_iff.2 ⟨e, rest, he, hdrop, rfl⟩)
  · intro h r hr
    obtain ⟨e, rest, he, hdrop, _⟩ := read_closedAt_eq_ok_iff.1 hr
    exact h ⟨e, rest, he, hdrop⟩

theorem quotedValue_eq : quotedValue = (do
    let t ← peek
    if t.head? == some '"' then firstOf .value ((closingQuotes t).map closedAt)
    else fail .value) := rfl

theorem read_quotedValue_eq_ok_iff_read_firstOf {t : Text} {r : Reading Text} :
    quotedValue.read t = .ok r ↔ t.head? = some '"' ∧
      (firstOf .value ((closingQuotes t).map closedAt)).read t = .ok r := by
  rw [quotedValue_eq]
  simp only [read_bind_eq_ok_iff, read_peek, Except.ok.injEq]
  constructor
  · rintro ⟨_, b, rfl, hb, rfl⟩
    split at hb
    · rename_i hhead
      exact ⟨by simpa using hhead, hb⟩
    · contradiction
  · rintro ⟨hhead, hr⟩
    exact ⟨_, r, rfl, by rw [if_pos (beq_iff_eq.2 hhead), hr], rfl⟩

theorem read_quotedValue_eq_ok_iff {t : Text} {r : Reading Text} :
    quotedValue.read t = .ok r ↔
      ∃ value text rest, IsQuotedValue value text rest ∧ t = text ++ rest ∧
        r = ⟨value, text, rest⟩ := by
  rw [read_quotedValue_eq_ok_iff_read_firstOf, read_firstOf_map_eq_ok_iff]
  constructor
  · rintro ⟨hhead, before, i, after, hplaces, hfails, hi⟩
    rw [closingQuotes_eq hhead] at hplaces
    obtain ⟨e, rest, he, hdrop, rfl⟩ := read_closedAt_eq_ok_iff.1 hi
    have hsplit : t = (t.take (i + 1) ++ e) ++ rest := by
      rw [List.append_assoc, ← hdrop, List.take_append_drop]
    refine ⟨t.take (i + 1), t.take (i + 1) ++ e, rest, ⟨before, i, after, e, ?_⟩, hsplit, rfl⟩
    rw [← hsplit]
    exact ⟨hhead, hplaces, fun j hj => closedAt_fails_iff.1 (hfails j hj), rfl, rfl, he⟩
  · rintro ⟨value, text, rest, ⟨before, i, after, e, hhead, hplaces, hfails, hvalue, htext, he⟩,
      rfl, rfl⟩
    have hdrop : (text ++ rest).drop (i + 1) = e ++ rest := by
      refine List.append_cancel_left (?_ : value ++ _ = value ++ _)
      rw [hvalue, List.take_append_drop, ← hvalue, ← List.append_assoc, ← htext]
    rw [← closingQuotes_eq hhead] at hplaces
    exact ⟨hhead, before, i, after, hplaces, fun j hj => closedAt_fails_iff.2 (hfails j hj),
      read_closedAt_eq_ok_iff.2 ⟨e, rest, he, hdrop, by rw [← hvalue, ← htext]⟩⟩

/-- A quoted value can be read where one of the quotes that may close it has a terminator
behind it. -/
theorem exists_read_quotedValue_iff_exists_mem {t : Text} :
    (∃ r, quotedValue.read t = .ok r) ↔
      t.head? = some '"' ∧ ∃ i ∈ closingQuotes t, ∃ r, (closedAt i).read t = .ok r := by
  simp only [read_quotedValue_eq_ok_iff_read_firstOf, exists_and_left, exists_read_firstOf_iff,
    List.mem_map, exists_exists_and_eq_and]

theorem exists_read_quotedValue_iff {t : Text} :
    (∃ r, quotedValue.read t = .ok r) ↔
      t.head? = some '"' ∧ ∃ p z, IsOpen p ∧ t = p ++ '"' :: z ∧ Terminated z := by
  rw [exists_read_quotedValue_iff_exists_mem]
  refine and_congr_right fun hhead => ?_
  simp only [closingQuotes_eq hhead, mem_closingOrder_iff, mayClose_iff_exists]
  constructor
  · rintro ⟨_, ⟨p, z, hp, rfl, rfl⟩, r, hr⟩
    obtain ⟨e, rest, he, hdrop, _⟩ := read_closedAt_eq_ok_iff.1 hr
    exact ⟨p, z, hp, rfl, e, rest, he, by simpa using hdrop⟩
  · rintro ⟨p, z, hp, rfl, e, rest, he, rfl⟩
    exact ⟨_, ⟨p, _, hp, rfl, rfl⟩, _,
      read_closedAt_eq_ok_iff.2 ⟨e, rest, he, by simp, rfl⟩⟩

/-! ## Values with no quote inside -/

/-- The first quote is tried first, unless the value would be empty. -/
theorem closingOrder_of_not_mem {u z : Text} (hu : '"' ∉ u) (hne : u ≠ []) :
    ∃ after, closingOrder ('"' :: u ++ '"' :: z) = (u.length + 1) :: after := by
  have hopen : IsOpen ('"' :: u) := by
    refine ⟨by simp, fun j hj hquote => absurd ?_ hu⟩
    obtain ⟨i, rfl⟩ := Nat.exists_eq_add_of_lt hj
    exact List.mem_of_getElem? (by simpa using hquote)
  have hclose := (hopen.mayClose_iff '"' z).2 rfl
  have hfirst : ∀ j < u.length + 1, ¬ MayClose ('"' :: u ++ '"' :: z) j := by
    rintro j hj ⟨hpos, hquote, _⟩
    rw [List.getElem?_append_left (by simpa using hj)] at hquote
    obtain ⟨i, rfl⟩ := Nat.exists_eq_add_of_lt hpos
    exact hu (List.mem_of_getElem? (by simpa using hquote))
  have hhead : (closers ('"' :: u ++ '"' :: z)).head? = some (u.length + 1) := by
    rw [closers, List.head?_filter, List.find?_range_eq_some]
    exact ⟨by simpa using hclose, by simp, by simpa using hfirst⟩
  have hpos := List.length_pos_iff.2 hne
  rw [closingOrder, hhead, Option.filter_some, if_pos (by simp; omega)]
  exact ⟨_, rfl⟩

theorem read_quotedValue_of_not_mem {u e rest : Text} (hu : '"' ∉ u) (hne : u ≠ [])
    (he : IsTerminator e rest) : quotedValue.read ('"' :: u ++ '"' :: (e ++ rest)) =
      .ok ⟨'"' :: u ++ ['"'], '"' :: u ++ '"' :: e, rest⟩ := by
  obtain ⟨after, horder⟩ := closingOrder_of_not_mem (z := e ++ rest) hu hne
  have hsplit : ('"' :: u ++ '"' :: e) ++ rest = '"' :: u ++ '"' :: (e ++ rest) := by simp
  refine read_quotedValue_eq_ok_iff.2
    ⟨_, _, rest, ⟨[], u.length + 1, after, e, ?_⟩, hsplit.symm, rfl⟩
  rw [hsplit]
  have htake : u.take (u.length + 1) = u := List.take_of_length_le (Nat.le_succ _)
  exact ⟨rfl, horder, by simp, by simp [List.take_append, htake], by simp, he⟩

end SassVars.Statement
