import SassVars.Text.Basic

/-!
# Readers

A reader recognises one shape at the start of a text. When it succeeds it gives a value,
the text that it consumed and the rest; when it fails it says what it expected and where.

Every reader carries the proof that the consumed text followed by the rest is its input,
so nothing is lost or invented however readers are combined.

## Main definitions

* `Reading`: a value with the consumed text and the rest.
* `Reader`: a reading function with its splitting law, as a monad.
* `Reader.orElse`: try two readers in order; the failure of the last one counts.
* `Reader.many`: repeat a reader for as long as it succeeds and makes progress.
-/

namespace SassVars

/-- What a reader wanted to see at the place where it failed. -/
inductive Expected where
  /-- This very text. -/
  | literal (text : Text)
  /-- This very character. -/
  | character (c : Char)
  /-- One of these characters. -/
  | anyOf (choices : List Char)
  /-- A character of some class. -/
  | member
  /-- At least one character of some class. -/
  | span
  /-- At least one character before a stop. -/
  | stretch
  /-- A word that is not reserved. -/
  | allowedWord
  /-- The value of a declaration up to its terminator. -/
  | value
deriving DecidableEq

structure Failure where
  expected : Expected
  /-- The input from the place of the failure on. -/
  remaining : Text
deriving DecidableEq

structure Reading (α : Type) where
  value : α
  /-- The consumed text. -/
  text : Text
  rest : Text
deriving DecidableEq

structure Reader (α : Type) where
  read : Text → Except Failure (Reading α)
  /-- The consumed text and the rest make up the input. -/
  split : ∀ {t : Text} {r : Reading α}, read t = .ok r → t = r.text ++ r.rest

namespace Reader

variable {α β : Type}

/-- The reading without the cause of a failure. -/
def read? (p : Reader α) (t : Text) : Option (Reading α) :=
  (p.read t).toOption

theorem read?_eq_some_iff {p : Reader α} {t : Text} {r : Reading α} :
    p.read? t = some r ↔ p.read t = .ok r := by
  unfold read?
  cases p.read t <;> simp [Except.toOption]

theorem read?_eq_none_iff {p : Reader α} {t : Text} :
    p.read? t = none ↔ ∀ r, p.read t ≠ .ok r := by
  unfold read?
  cases p.read t <;> simp [Except.toOption]

/-! ## Sequencing -/

protected def pure (a : α) : Reader α where
  read t := .ok ⟨a, [], t⟩
  split h := by cases h; rfl

protected def bind (p : Reader α) (f : α → Reader β) : Reader β where
  read t :=
    match p.read t with
    | .error e => .error e
    | .ok r =>
      match (f r.value).read r.rest with
      | .error e => .error e
      | .ok s => .ok ⟨s.value, r.text ++ s.text, s.rest⟩
  split {t r} h := by
    split at h
    · contradiction
    · rename_i a ha
      split at h
      · contradiction
      · rename_i b hb
        cases h
        rw [p.split ha, (f a.value).split hb, List.append_assoc]

instance : Monad Reader where
  pure := Reader.pure
  bind := Reader.bind

@[simp]
theorem read_pure (a : α) (t : Text) : (pure a : Reader α).read t = .ok ⟨a, [], t⟩ := rfl

theorem read_bind (p : Reader α) (f : α → Reader β) (t : Text) :
    (p >>= f).read t =
      match p.read t with
      | .error e => .error e
      | .ok r =>
        match (f r.value).read r.rest with
        | .error e => .error e
        | .ok s => .ok ⟨s.value, r.text ++ s.text, s.rest⟩ := rfl

/-- A sequence succeeds when both parts do, the second on what the first left. -/
theorem read_bind_eq_ok_iff {p : Reader α} {f : α → Reader β} {t : Text} {r : Reading β} :
    (p >>= f).read t = .ok r ↔
      ∃ a b, p.read t = .ok a ∧ (f a.value).read a.rest = .ok b ∧
        r = ⟨b.value, a.text ++ b.text, b.rest⟩ := by
  rw [read_bind]
  constructor
  · intro h
    split at h
    · contradiction
    · rename_i a ha
      split at h
      · contradiction
      · rename_i b hb
        cases h
        exact ⟨a, b, ha, hb, rfl⟩
  · rintro ⟨a, b, ha, hb, rfl⟩
    simp [ha, hb]

/-! ## Looking ahead and failing -/

/-- Fail here. -/
def fail (e : Expected) : Reader α where
  read t := .error ⟨e, t⟩
  split h := by cases h

/-- Look at the whole rest without consuming any of it. -/
def peek : Reader Text where
  read t := .ok ⟨t, [], t⟩
  split h := by cases h; rfl

@[simp]
theorem read_fail (e : Expected) (t : Text) : (fail e : Reader α).read t = .error ⟨e, t⟩ := rfl

@[simp]
theorem read_peek (t : Text) : peek.read t = .ok ⟨t, [], t⟩ := rfl

/-! ## Single characters and fixed texts -/

/-- One character that satisfies `p`; `e` is reported otherwise. -/
def one (p : Char → Bool) (e : Expected) : Reader Char where
  read
    | [] => .error ⟨e, []⟩
    | c :: t => if p c then .ok ⟨c, [c], t⟩ else .error ⟨e, c :: t⟩
  split {t r} h := by
    split at h
    · contradiction
    · split at h
      · cases h; rfl
      · contradiction

def char (c : Char) : Reader Char :=
  one (· == c) (.character c)

def anyOf (choices : List Char) : Reader Char :=
  one choices.contains (.anyOf choices)

theorem read_one_eq_ok_iff {p : Char → Bool} {e : Expected} {t : Text} {r : Reading Char} :
    (one p e).read t = .ok r ↔ ∃ c rest, p c = true ∧ t = c :: rest ∧ r = ⟨c, [c], rest⟩ := by
  cases t with
  | nil => simp [one]
  | cons d t =>
    by_cases hd : p d = true
    · simp only [one, hd, if_true, Except.ok.injEq]
      constructor
      · rintro rfl
        exact ⟨d, t, hd, rfl, rfl⟩
      · rintro ⟨c, rest, _, h, rfl⟩
        cases h
        rfl
    · simp only [one, hd, reduceIte, reduceCtorEq, false_iff]
      rintro ⟨c, rest, hc, h, _⟩
      cases h
      exact hd hc

theorem read_char_eq_ok_iff {c : Char} {t : Text} {r : Reading Char} :
    (char c).read t = .ok r ↔ ∃ rest, t = c :: rest ∧ r = ⟨c, [c], rest⟩ := by
  rw [char, read_one_eq_ok_iff]
  simp

@[simp]
theorem read_char_cons (c : Char) (t : Text) : (char c).read (c :: t) = .ok ⟨c, [c], t⟩ :=
  read_char_eq_ok_iff.2 ⟨t, rfl, rfl⟩

/-- The next `n` characters, or all of them when there are fewer. -/
def take (n : Nat) : Reader Text where
  read t := .ok ⟨t.take n, t.take n, t.drop n⟩
  split h := by cases h; exact (List.take_append_drop n _).symm

@[simp]
theorem read_take (n : Nat) (t : Text) :
    (take n).read t = .ok ⟨t.take n, t.take n, t.drop n⟩ := rfl

/-- The text `s` as `same` compares it with the input. -/
def literalBy (same : Text → Text → Bool) (s : Text) : Reader Text where
  read t :=
    if same (t.take s.length) s then .ok ⟨t.take s.length, t.take s.length, t.drop s.length⟩
    else .error ⟨.literal s, t⟩
  split {t r} h := by
    split at h
    · cases h; exact (List.take_append_drop _ _).symm
    · contradiction

/-- The very text `s`. -/
def literal (s : Text) : Reader Text :=
  literalBy (· == ·) s

/-- The text `s`, given in lower case, in any mix of ASCII cases. -/
def literalAnyCase (s : Text) : Reader Text :=
  literalBy (fun t s => Text.lower t == s) s

theorem read_literal_eq_ok_iff {s t : Text} {r : Reading Text} :
    (literal s).read t = .ok r ↔ ∃ rest, t = s ++ rest ∧ r = ⟨s, s, rest⟩ := by
  simp only [literal, literalBy]
  constructor
  · intro h
    split at h
    · rename_i hs
      simp only [beq_iff_eq] at hs
      cases h
      have ht := List.take_append_drop s.length t
      rw [hs] at ht ⊢
      exact ⟨_, ht.symm, rfl⟩
    · contradiction
  · rintro ⟨rest, rfl, rfl⟩
    simp

@[simp]
theorem read_literal_append (s t : Text) : (literal s).read (s ++ t) = .ok ⟨s, s, t⟩ :=
  read_literal_eq_ok_iff.2 ⟨t, rfl, rfl⟩

theorem read_literalAnyCase_eq_ok_iff {s t : Text} {r : Reading Text} :
    (literalAnyCase s).read t = .ok r ↔
      ∃ u rest, Text.lower u = s ∧ t = u ++ rest ∧ r = ⟨u, u, rest⟩ := by
  simp only [literalAnyCase, literalBy, beq_iff_eq]
  constructor
  · intro h
    split at h
    · rename_i hs
      cases h
      exact ⟨_, _, hs, (List.take_append_drop _ _).symm, rfl⟩
    · contradiction
  · rintro ⟨u, rest, rfl, rfl, rfl⟩
    have hlen : (Text.lower u).length = u.length := List.length_map _
    rw [hlen, List.take_left, List.drop_left, if_pos rfl]

/-! ## Runs of characters -/

/-- All characters up to the first that fails `p`; possibly none. -/
def span (p : Char → Bool) : Reader Text where
  read t := .ok ⟨t.takeWhile p, t.takeWhile p, t.dropWhile p⟩
  split h := by cases h; exact List.takeWhile_append_dropWhile.symm

@[simp]
theorem read_span (p : Char → Bool) (t : Text) :
    (span p).read t = .ok ⟨t.takeWhile p, t.takeWhile p, t.dropWhile p⟩ := rfl

/-- A span takes a run, and nothing decides about it but where the run stops. -/
theorem read_span_eq_ok_iff {p : Char → Bool} {t : Text} {r : Reading Text} :
    (span p).read t = .ok r ↔
      ∃ run rest, Text.IsRun p run rest ∧ t = run ++ rest ∧ r = ⟨run, run, rest⟩ := by
  rw [read_span, Except.ok.injEq]
  constructor
  · rintro rfl
    exact ⟨_, _, Text.isRun_takeWhile p t, List.takeWhile_append_dropWhile.symm, rfl⟩
  · rintro ⟨run, rest, h, rfl, rfl⟩
    rw [h.takeWhile_eq, h.dropWhile_eq]

theorem read_span_of_isRun {p : Char → Bool} {run rest : Text} (h : Text.IsRun p run rest) :
    (span p).read (run ++ rest) = .ok ⟨run, run, rest⟩ :=
  read_span_eq_ok_iff.2 ⟨run, rest, h, rfl, rfl⟩

/-- Read with `p`, and fail in front of it when `ok` refuses the value. -/
def check (p : Reader α) (ok : α → Bool) (e : Expected) : Reader α where
  read t :=
    match p.read t with
    | .error e => .error e
    | .ok r => if ok r.value then .ok r else .error ⟨e, t⟩
  split {t r} h := by
    split at h
    · contradiction
    · rename_i a ha
      split at h
      · cases h; exact p.split ha
      · contradiction

theorem read_check_eq_ok_iff {p : Reader α} {ok : α → Bool} {e : Expected} {t : Text}
    {r : Reading α} :
    (check p ok e).read t = .ok r ↔ p.read t = .ok r ∧ ok r.value = true := by
  simp only [check]
  constructor
  · intro h
    split at h
    · contradiction
    · rename_i a ha
      split at h
      · cases h; exact ⟨ha, by assumption⟩
      · contradiction
  · rintro ⟨h, hr⟩
    simp [h, hr]

/-- A non-empty run of characters that satisfy `p`. -/
def span1 (p : Char → Bool) : Reader Text :=
  check (span p) (!·.isEmpty) .span

/-- A non-empty run of characters before the first that satisfies `stop`. -/
def until1 (stop : Char → Bool) : Reader Text :=
  check (span (!stop ·)) (!·.isEmpty) .stretch

/-- Skip spaces, tabs and line breaks. -/
def layout : Reader Text :=
  span Text.isLayout

/-- Skip spaces and tabs. -/
def inlineSpace : Reader Text :=
  span Text.isInline

/-! ## Alternatives -/

protected def orElse (p : Reader α) (q : Unit → Reader α) : Reader α where
  read t :=
    match p.read t with
    | .ok r => .ok r
    | .error _ => (q ()).read t
  split {t r} h := by
    split at h
    · cases h; exact p.split (by assumption)
    · exact (q ()).split h

instance : OrElse (Reader α) where
  orElse := Reader.orElse

theorem read_orElse (p q : Reader α) (t : Text) :
    (p <|> q).read t =
      match p.read t with
      | .ok r => .ok r
      | .error _ => q.read t := rfl

theorem read_orElse_of_ok {p q : Reader α} {t : Text} {r : Reading α} (h : p.read t = .ok r) :
    (p <|> q).read t = .ok r := by
  rw [read_orElse, h]

/-- The second reader has a say only where the first one fails. -/
theorem read_orElse_eq_ok_iff {p q : Reader α} {t : Text} {r : Reading α} :
    (p <|> q).read t = .ok r ↔
      p.read t = .ok r ∨ (∀ s, p.read t ≠ .ok s) ∧ q.read t = .ok r := by
  rw [read_orElse]
  cases p.read t <;> simp

theorem read_orElse_eq_ok {p q : Reader α} {t : Text} {r : Reading α}
    (h : (p <|> q).read t = .ok r) : p.read t = .ok r ∨ q.read t = .ok r :=
  (read_orElse_eq_ok_iff.1 h).imp_right And.right

/-- The order of two readers that never both succeed does not matter for what is read. -/
theorem read_orElse_comm {p q : Reader α} {t : Text}
    (h : ∀ a b, p.read t = .ok a → q.read t ≠ .ok b) {r : Reading α} :
    (p <|> q).read t = .ok r ↔ (q <|> p).read t = .ok r := by
  rw [read_orElse, read_orElse]
  cases hp : p.read t <;> cases hq : q.read t <;> simp
  exact absurd hq (h _ _ hp)

theorem exists_read_orElse_iff {p q : Reader α} {t : Text} :
    (∃ r, (p <|> q).read t = .ok r) ↔ (∃ r, p.read t = .ok r) ∨ ∃ r, q.read t = .ok r := by
  rw [read_orElse]
  cases p.read t <;> simp

/-- The first reader of the list that succeeds. -/
def firstOf (e : Expected) (ps : List (Reader α)) : Reader α :=
  ps.foldr (fun p q => p <|> q) (fail e)

/-- The readers in front of the one that succeeds all fail. -/
theorem read_firstOf_eq_ok_iff {e : Expected} {ps : List (Reader α)} {t : Text}
    {r : Reading α} :
    (firstOf e ps).read t = .ok r ↔
      ∃ before p after, ps = before ++ p :: after ∧ (∀ q ∈ before, ∀ s, q.read t ≠ .ok s) ∧
        p.read t = .ok r := by
  induction ps with
  | nil => simp [firstOf]
  | cons q ps ih =>
    rw [show firstOf e (q :: ps) = (q <|> firstOf e ps) from rfl, read_orElse_eq_ok_iff, ih]
    constructor
    · rintro (h | ⟨hq, before, p, after, rfl, hbefore, h⟩)
      · exact ⟨[], q, ps, rfl, by simp, h⟩
      · exact ⟨q :: before, p, after, rfl, by simpa using ⟨hq, hbefore⟩, h⟩
    · rintro ⟨before, p, after, heq, hbefore, h⟩
      cases before with
      | nil =>
        cases heq
        exact .inl h
      | cons b before =>
        cases heq
        simp only [List.mem_cons, forall_eq_or_imp] at hbefore
        exact .inr ⟨hbefore.1, before, p, after, rfl, hbefore.2, h⟩

theorem read_firstOf_map_eq_ok_iff {e : Expected} {f : β → Reader α} {bs : List β} {t : Text}
    {r : Reading α} :
    (firstOf e (bs.map f)).read t = .ok r ↔
      ∃ before b after, bs = before ++ b :: after ∧
        (∀ c ∈ before, ∀ s, (f c).read t ≠ .ok s) ∧ (f b).read t = .ok r := by
  rw [read_firstOf_eq_ok_iff]
  constructor
  · rintro ⟨_, _, _, hmap, hbefore, hp⟩
    obtain ⟨before, _, rfl, rfl, hmap'⟩ := List.map_eq_append_iff.1 hmap
    obtain ⟨b, after, rfl, rfl, rfl⟩ := List.map_eq_cons_iff.1 hmap'
    exact ⟨before, b, after, rfl, fun c hc => hbefore _ (List.mem_map_of_mem hc), hp⟩
  · rintro ⟨before, b, after, rfl, hbefore, hb⟩
    exact ⟨before.map f, f b, after.map f, by simp, by simpa using hbefore, hb⟩

theorem exists_of_read_firstOf {e : Expected} {ps : List (Reader α)} {t : Text} {r : Reading α}
    (h : (firstOf e ps).read t = .ok r) : ∃ p ∈ ps, p.read t = .ok r := by
  obtain ⟨before, p, after, rfl, _, hp⟩ := read_firstOf_eq_ok_iff.1 h
  exact ⟨p, by simp, hp⟩

theorem exists_read_firstOf_iff {e : Expected} {ps : List (Reader α)} {t : Text} :
    (∃ r, (firstOf e ps).read t = .ok r) ↔ ∃ p ∈ ps, ∃ r, p.read t = .ok r := by
  induction ps with
  | nil => simp [firstOf]
  | cons q ps ih =>
    rw [show firstOf e (q :: ps) = (q <|> firstOf e ps) from rfl, exists_read_orElse_iff, ih]
    simp

/-- Read with `p`, or consume nothing. -/
def optional (p : Reader α) : Reader (Option α) :=
  (do return some (← p)) <|> pure none

theorem read_optional_eq_ok_iff {p : Reader α} {t : Text} {r : Reading (Option α)} :
    (optional p).read t = .ok r ↔
      (∃ a, p.read t = .ok a ∧ r = ⟨some a.value, a.text, a.rest⟩) ∨
      (∀ a, p.read t ≠ .ok a) ∧ r = ⟨none, [], t⟩ := by
  rw [optional, read_orElse_eq_ok_iff]
  simp only [read_bind, read_pure]
  cases p.read t <;> simp [eq_comm]

/-- Give the consumed text in place of the value. -/
def consumed (p : Reader α) : Reader Text where
  read t := (p.read t).map fun r => ⟨r.text, r.text, r.rest⟩
  split {t r} h := by
    cases hp : p.read t with
    | error e => simp [hp, Except.map] at h
    | ok a =>
      simp only [hp, Except.map, Except.ok.injEq] at h
      subst h
      exact p.split hp

theorem read_consumed_eq_ok_iff {p : Reader α} {t : Text} {r : Reading Text} :
    p.consumed.read t = .ok r ↔
      ∃ a, p.read t = .ok a ∧ r = ⟨a.text, a.text, a.rest⟩ := by
  cases hp : p.read t with
  | error e => simp [consumed, hp, Except.map]
  | ok a => simp [consumed, hp, Except.map, eq_comm]

/-! ## Repetition -/

/-- The values read by `p` one after the other, up to the first place where it fails or
consumes nothing. -/
def manyFrom (p : Reader α) (t : Text) : Reading (List α) :=
  match p.read t with
  | .error _ => ⟨[], [], t⟩
  | .ok r =>
    if r.rest.length < t.length then
      let s := manyFrom p r.rest
      ⟨r.value :: s.value, r.text ++ s.text, s.rest⟩
    else ⟨[], [], t⟩
termination_by t.length

theorem manyFrom_split (p : Reader α) (t : Text) :
    t = (manyFrom p t).text ++ (manyFrom p t).rest := by
  fun_induction manyFrom p t with
  | case1 => simp
  | case2 t r hr _ s ih => rw [List.append_assoc, ← ih]; exact p.split hr
  | case3 => simp

theorem manyFrom_of_read {p : Reader α} {t : Text} {r : Reading α} (h : p.read t = .ok r)
    (hne : r.text ≠ []) :
    manyFrom p t = ⟨r.value :: (manyFrom p r.rest).value, r.text ++ (manyFrom p r.rest).text,
      (manyFrom p r.rest).rest⟩ := by
  have hlen := congrArg List.length (p.split h)
  have hpos := List.length_pos_iff.2 hne
  rw [List.length_append] at hlen
  rw [manyFrom, h]
  exact if_pos (by omega)

theorem manyFrom_of_fails {p : Reader α} {t : Text} (h : ∀ r, p.read t ≠ .ok r) :
    manyFrom p t = ⟨[], [], t⟩ := by
  rw [manyFrom]
  split
  · rfl
  · exact absurd (by assumption) (h _)

/-- Zero or more times `p`. -/
def many (p : Reader α) : Reader (List α) where
  read t := .ok (manyFrom p t)
  split h := by cases h; exact manyFrom_split p _

/-- One or more times `p`. -/
def many1 (p : Reader α) : Reader (List α) := do
  let a ← p
  let as ← many p
  return a :: as

@[simp]
theorem read_many (p : Reader α) (t : Text) : (many p).read t = .ok (manyFrom p t) := rfl

end Reader

end SassVars
