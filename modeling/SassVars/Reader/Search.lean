import SassVars.Reader
import SassVars.Text.Bytes

/-!
# Searching a text

A reader answers for the start of a text. Here it is tried at every place from left to
right: `find?` stops at the first success, `scan` goes on behind it.
-/

namespace SassVars.Reader

variable {α β : Type}

/-- The first reading in `t`, together with the text before it. -/
def find? (p : Reader α) : Text → Option (Text × Reading α)
  | [] => (p.read? []).map ([], ·)
  | c :: t =>
    match p.read? (c :: t) with
    | some r => some ([], r)
    | none => (find? p t).map fun (before, r) => (c :: before, r)

/-- Whether `p` succeeds anywhere in `t`. -/
def occursIn (p : Reader α) (t : Text) : Bool :=
  (find? p t).isSome

/-- All readings in `t` from left to right. After a reading the scan goes on with its rest,
otherwise with the next character. -/
def scan (p : Reader α) : Text → List (Reading α)
  | [] => []
  | c :: t =>
    match p.read? (c :: t) with
    | some r => if r.rest.length ≤ t.length then r :: scan p r.rest else scan p t
    | none => scan p t
termination_by t => t.length

/-! ## Characters at which a reader fails -/

/-- `p` fails in front of every `c`. -/
def Refuses (p : Reader α) (c : Char) : Prop :=
  ∀ t r, p.read (c :: t) ≠ .ok r

theorem Refuses.bind {p : Reader α} {c : Char} (h : p.Refuses c) (f : α → Reader β) :
    (p >>= f).Refuses c := by
  intro t r hr
  obtain ⟨a, _, ha, _⟩ := read_bind_eq_ok_iff.1 hr
  exact h t a ha

theorem Refuses.orElse {p q : Reader α} {c : Char} (hp : p.Refuses c) (hq : q.Refuses c) :
    (p <|> q).Refuses c := by
  intro t r hr
  rcases read_orElse_eq_ok hr with hr | hr
  · exact hp t r hr
  · exact hq t r hr

theorem Refuses.consumed {p : Reader α} {c : Char} (h : p.Refuses c) : p.consumed.Refuses c := by
  intro t r hr
  obtain ⟨a, ha, _⟩ := read_consumed_eq_ok_iff.1 hr
  exact h t a ha

theorem refuses_char {c d : Char} (h : d ≠ c) : (char c).Refuses d := by
  intro t r hr
  obtain ⟨rest, ht, _⟩ := read_char_eq_ok_iff.1 hr
  cases ht
  exact h rfl

theorem refuses_literal {c d : Char} {s : Text} (h : d ≠ c) : (literal (c :: s)).Refuses d := by
  intro t r hr
  obtain ⟨rest, ht, _⟩ := read_literal_eq_ok_iff.1 hr
  cases ht
  exact h rfl

/-- A text in any mix of cases starts with its first character in one of both cases. -/
theorem refuses_literalAnyCase {c d : Char} {s : Text} (h : d ≠ c) (hc : c.isLower = false) :
    (literalAnyCase (c :: s)).Refuses d := by
  intro t r hr
  obtain ⟨u, rest, hu, ht, _⟩ := read_literalAnyCase_eq_ok_iff.1 hr
  obtain ⟨e, v, rfl, he, _⟩ := List.map_eq_cons_iff.1 hu
  cases ht
  exact h (Text.eq_of_toLower_eq he hc)

/-! ## What a search finds -/

theorem find?_cons_of_fails {p : Reader α} {c : Char} {t : Text}
    (h : ∀ r, p.read (c :: t) ≠ .ok r) :
    find? p (c :: t) = (find? p t).map fun (before, r) => (c :: before, r) := by
  rw [find?, read?_eq_none_iff.2 h]

/-- A text where `p` fails at every place is skipped. -/
theorem find?_append_of_fails {p : Reader α} {u t : Text}
    (h : ∀ a c b, u = a ++ c :: b → ∀ r, p.read (c :: (b ++ t)) ≠ .ok r) :
    find? p (u ++ t) = (find? p t).map fun (before, r) => (u ++ before, r) := by
  induction u with
  | nil => simp
  | cons c u ih =>
    have hu : ∀ a d b, u = a ++ d :: b → ∀ r, p.read (d :: (b ++ t)) ≠ .ok r :=
      fun a d b hsplit => h (c :: a) d b (by rw [hsplit, List.cons_append])
    rw [List.cons_append, find?_cons_of_fails (h [] c u rfl), ih hu]
    cases find? p t <;> rfl

theorem find?_append {p : Reader α} {u : Text} (h : ∀ c ∈ u, p.Refuses c) (t : Text) :
    find? p (u ++ t) = (find? p t).map fun (before, r) => (u ++ before, r) :=
  find?_append_of_fails fun a c b hsplit => h c (by simp [hsplit]) (b ++ t)

/-- Nothing is found in a text of refused characters, nor behind one where nothing is found. -/
theorem find?_append_eq_none {p : Reader α} {u t : Text} (hu : ∀ c ∈ u, p.Refuses c)
    (ht : find? p t = none) : find? p (u ++ t) = none := by
  rw [find?_append hu, ht]
  rfl

theorem find?_of_read {p : Reader α} {t : Text} {r : Reading α} (h : p.read t = .ok r) :
    find? p t = some ([], r) := by
  have hsome := read?_eq_some_iff.2 h
  cases t with
  | nil => simp [find?, hsome]
  | cons c t => simp [find?, hsome]

/-- A found reading is one that `p` gives on what follows the skipped text. -/
theorem find?_eq_some {p : Reader α} {t before : Text} {r : Reading α}
    (h : find? p t = some (before, r)) : p.read (r.text ++ r.rest) = .ok r ∧
      t = before ++ (r.text ++ r.rest) := by
  induction t generalizing before with
  | nil =>
    simp only [find?, Option.map_eq_some_iff, Prod.mk.injEq] at h
    obtain ⟨a, ha, rfl, rfl⟩ := h
    have hs := read?_eq_some_iff.1 ha
    rw [← p.split hs]
    exact ⟨hs, rfl⟩
  | cons c t ih =>
    rw [find?] at h
    split at h
    · rename_i a ha
      cases h
      have hs := read?_eq_some_iff.1 ha
      rw [← p.split hs]
      exact ⟨hs, rfl⟩
    · simp only [Option.map_eq_some_iff, Prod.mk.injEq, Prod.exists] at h
      obtain ⟨b, a, hb, rfl, rfl⟩ := h
      obtain ⟨h₁, h₂⟩ := ih hb
      exact ⟨h₁, by rw [h₂]; rfl⟩

/-- A search stops at the first place where `p` succeeds. -/
theorem find?_eq_some_iff {p : Reader α} {t before : Text} {r : Reading α} :
    find? p t = some (before, r) ↔
      t = before ++ (r.text ++ r.rest) ∧ p.read (r.text ++ r.rest) = .ok r ∧
        ∀ a c b, before = a ++ c :: b → ∀ s, p.read (c :: (b ++ (r.text ++ r.rest))) ≠ .ok s := by
  constructor
  · intro h
    obtain ⟨hread, rfl⟩ := find?_eq_some h
    refine ⟨rfl, hread, ?_⟩
    induction before with
    | nil => simp
    | cons d before ih =>
      have hfails : ∀ s, p.read (d :: (before ++ (r.text ++ r.rest))) ≠ .ok s := by
        intro s hs
        have hfound := find?_of_read hs
        rw [← List.cons_append, h] at hfound
        cases hfound
      rw [List.cons_append, find?_cons_of_fails hfails, Option.map_eq_some_iff] at h
      obtain ⟨_, hfound, heq⟩ := h
      cases heq
      intro a c b hsplit
      rcases List.cons_eq_append_iff.1 hsplit with ⟨rfl, hcons⟩ | ⟨a, rfl, hrest⟩
      · cases hcons
        exact hfails
      · exact ih hfound a c b hrest
  · rintro ⟨rfl, hread, hfirst⟩
    rw [find?_append_of_fails hfirst, find?_of_read hread]
    simp

/-- A search finds nothing when `p` fails at every place, the end included. -/
theorem find?_eq_none_iff {p : Reader α} {t : Text} :
    find? p t = none ↔ ∀ u v, t = u ++ v → ∀ r, p.read v ≠ .ok r := by
  induction t with
  | nil => simp [find?, read?_eq_none_iff]
  | cons c t ih =>
    constructor
    · intro h
      rw [find?] at h
      split at h
      · contradiction
      · rename_i hnone
        rw [Option.map_eq_none_iff, ih] at h
        intro u v hsplit
        rcases List.cons_eq_append_iff.1 hsplit with ⟨rfl, rfl⟩ | ⟨u, rfl, rfl⟩
        · exact read?_eq_none_iff.1 hnone
        · exact h u v rfl
    · intro h
      rw [find?_cons_of_fails (h [] _ rfl), Option.map_eq_none_iff, ih]
      exact fun u v hsplit => h (c :: u) v (by rw [hsplit, List.cons_append])

/-- No place in front of the one that a search stops at would do. -/
theorem length_le_of_find? {p : Reader α} {t before u v : Text} {r s : Reading α}
    (h : find? p t = some (before, r)) (hsplit : t = u ++ v) (hs : p.read v = .ok s) :
    before.length ≤ u.length := by
  obtain ⟨ht, _, hfirst⟩ := find?_eq_some_iff.1 h
  rcases List.append_eq_append_iff.1 (ht.symm.trans hsplit) with ⟨m, rfl, _⟩ | ⟨m, rfl, rfl⟩
  · simp
  · cases m with
    | nil => simp
    | cons c m => exact absurd hs (hfirst u c m rfl s)

theorem occursIn_iff {p : Reader α} {t : Text} :
    occursIn p t = true ↔ ∃ u v r, t = u ++ v ∧ p.read v = .ok r := by
  rw [occursIn, Option.isSome_iff_ne_none, Ne, find?_eq_none_iff]
  constructor
  · intro h
    refine Classical.byContradiction fun hnone => h fun u v hsplit r hr => ?_
    exact hnone ⟨u, v, r, hsplit, hr⟩
  · rintro ⟨u, v, r, hsplit, hr⟩ h
    exact h u v hsplit r hr

/-! ## What a scan visits -/

theorem scan_of_read {p : Reader α} {t : Text} {r : Reading α} (h : p.read t = .ok r)
    (hne : r.text ≠ []) : scan p t = r :: scan p r.rest := by
  have hsplit := p.split h
  cases t with
  | nil => simp [hne] at hsplit
  | cons c t =>
    have hlen := congrArg List.length hsplit
    have hpos := List.length_pos_iff.2 hne
    simp only [List.length_cons, List.length_append] at hlen
    rw [scan, read?_eq_some_iff.2 h]
    exact if_pos (by omega)

theorem scan_cons_of_fails {p : Reader α} {c : Char} {t : Text}
    (h : ∀ r, p.read (c :: t) ≠ .ok r) : scan p (c :: t) = scan p t := by
  rw [scan, read?_eq_none_iff.2 h]

theorem scan_append_of_fails {p : Reader α} {u t : Text}
    (h : ∀ a c b, u = a ++ c :: b → ∀ r, p.read (c :: (b ++ t)) ≠ .ok r) :
    scan p (u ++ t) = scan p t := by
  induction u with
  | nil => rfl
  | cons c u ih =>
    rw [List.cons_append, scan_cons_of_fails (h [] c u rfl)]
    exact ih fun a d b hsplit => h (c :: a) d b (by rw [hsplit, List.cons_append])

theorem scan_append {p : Reader α} {u : Text} (h : ∀ c ∈ u, p.Refuses c) (t : Text) :
    scan p (u ++ t) = scan p t :=
  scan_append_of_fails fun a c b hsplit => h c (by simp [hsplit]) (b ++ t)

/-- A scan is a search, and then a scan of what the finding leaves. -/
theorem scan_of_find? {p : Reader α} {t before : Text} {r : Reading α}
    (h : find? p t = some (before, r)) (hne : r.text ≠ []) : scan p t = r :: scan p r.rest := by
  obtain ⟨rfl, hread, hfirst⟩ := find?_eq_some_iff.1 h
  rw [scan_append_of_fails hfirst, scan_of_read hread hne]

theorem scan_of_find?_eq_none {p : Reader α} {t : Text} (h : find? p t = none) :
    scan p t = [] := by
  have hfails : ∀ a c b, t = a ++ c :: b → ∀ r, p.read (c :: (b ++ [])) ≠ .ok r :=
    fun a c b hsplit => find?_eq_none_iff.1 h a _ (by simpa using hsplit)
  have hscan := scan_append_of_fails hfails
  rwa [List.append_nil, scan] at hscan

/-- Every reading of a scan is one that `p` gives at its place. -/
theorem read_of_mem_scan {p : Reader α} {t : Text} {r : Reading α} (h : r ∈ scan p t) :
    p.read (r.text ++ r.rest) = .ok r := by
  fun_induction scan p t with
  | case1 => simp at h
  | case2 c t a ha _ ih =>
    rcases List.mem_cons.1 h with rfl | h
    · have hs := read?_eq_some_iff.1 ha
      rwa [← p.split hs]
    · exact ih h
  | case3 c t a ha _ ih => exact ih h
  | case4 c t _ ih => exact ih h

/-- The place of a reading is told by what follows it. -/
theorem exists_append_of_mem_scan {p : Reader α} {t : Text} {r : Reading α} (h : r ∈ scan p t) :
    ∃ before, t = before ++ (r.text ++ r.rest) := by
  fun_induction scan p t with
  | case1 => simp at h
  | case2 c t a ha _ ih =>
    have hsplit := p.split (read?_eq_some_iff.1 ha)
    rcases List.mem_cons.1 h with rfl | h
    · exact ⟨[], hsplit⟩
    · obtain ⟨before, hrest⟩ := ih h
      exact ⟨a.text ++ before, by rw [List.append_assoc, ← hrest, hsplit]⟩
  | case3 c t a ha _ ih =>
    obtain ⟨before, ht⟩ := ih h
    exact ⟨c :: before, by rw [List.cons_append, ← ht]⟩
  | case4 c t _ ih =>
    obtain ⟨before, ht⟩ := ih h
    exact ⟨c :: before, by rw [List.cons_append, ← ht]⟩

/-- The readings of a scan do not overlap, so their texts fit into the scanned one. -/
theorem byteLength_scan_le (p : Reader α) (t : Text) :
    Text.byteLength ((scan p t).flatMap (·.text)) ≤ Text.byteLength t := by
  fun_induction scan p t with
  | case1 => simp
  | case2 c t r hr _ ih =>
    rw [p.split (read?_eq_some_iff.1 hr), List.flatMap_cons, Text.byteLength_append,
      Text.byteLength_append]
    omega
  | case3 c t r _ _ ih => rw [Text.byteLength_cons]; omega
  | case4 c t _ ih => rw [Text.byteLength_cons]; omega

theorem byteLength_text_le_of_mem_scan {p : Reader α} {t : Text} {r : Reading α}
    (h : r ∈ scan p t) : Text.byteLength r.text ≤ Text.byteLength t := by
  have hsum := byteLength_scan_le p t
  obtain ⟨before, after, hscan⟩ := List.append_of_mem h
  simp only [hscan, List.flatMap_append, List.flatMap_cons, Text.byteLength_append] at hsum
  omega

end SassVars.Reader
