import Mathlib.Data.List.Forall2
import SassVars.Reader.Search

/-!
# Leftmost scans

A scan takes the first place where something can be read, and then the first place behind
what was read there. Said without a scanner: the spans of a scan stand in the order of the
source without overlap, and nothing can be read at any place outside of them. There is only
one such list of spans.

## Main definitions

* `Span`: a stretch of a source, by its byte offsets.
* `Reader.IsScan`: the spans and values of a leftmost scan.
-/

namespace SassVars

open Reader

/-- The stretch of a source from one byte offset up to another. -/
structure Span where
  start : Nat
  stop : Nat
deriving DecidableEq

/-- The span of `text` with `before` in front of it. -/
def Span.behind (before text : Text) : Span :=
  ⟨Text.byteLength before, Text.byteLength before + Text.byteLength text⟩

namespace Reader

variable {α : Type} {p : Reader α} {source : Text}

/-! ## Leftmost scans -/

/-- At the span in `source` the value is read. -/
def ReadsAt (p : Reader α) (source : Text) (span : Span) (a : α) : Prop :=
  ∃ before r, source = before ++ (r.text ++ r.rest) ∧ p.read (r.text ++ r.rest) = .ok r ∧
    span = .behind before r.text ∧ a = r.value

/-- The spans and values that a leftmost scan finds in `source` from the byte offset `n` on. -/
structure IsScan (p : Reader α) (source : Text) (n : Nat) (spans : List Span)
    (values : List α) : Prop where
  reads : List.Forall₂ (ReadsAt p source) spans values
  ordered : spans.Pairwise fun s t => s.stop ≤ t.start
  le_start : ∀ s ∈ spans, n ≤ s.start
  /-- Nothing can be read at a place outside of the spans. -/
  skipped : ∀ before rest, source = before ++ rest → n ≤ Text.byteLength before →
    (∀ s ∈ spans, Text.byteLength before < s.start ∨ s.stop ≤ Text.byteLength before) →
    ∀ r, p.read rest ≠ .ok r

/-- A reader that never succeeds without taking something. -/
def IsProductive (p : Reader α) : Prop :=
  ∀ t r, p.read t = .ok r → r.text ≠ []

theorem IsProductive.fails_nil (hp : p.IsProductive) (r : Reading α) : p.read [] ≠ .ok r :=
  fun h => hp [] r h (List.append_eq_nil_iff.1 (p.split h).symm).1

theorem ReadsAt.start_lt_stop (hp : p.IsProductive) {span : Span} {a : α}
    (h : ReadsAt p source span a) : span.start < span.stop := by
  obtain ⟨before, r, _, hread, rfl, _⟩ := h
  have := Text.byteLength_pos (hp _ r hread)
  simp only [Span.behind]
  omega

theorem ReadsAt.unique {span span' : Span} {a a' : α} (h : ReadsAt p source span a)
    (h' : ReadsAt p source span' a') (hstart : span.start = span'.start) :
    span = span' ∧ a = a' := by
  obtain ⟨before, r, hsplit, hread, rfl, rfl⟩ := h
  obtain ⟨before', r', hsplit', hread', rfl, rfl⟩ := h'
  obtain ⟨rfl, hrest⟩ := Text.append_inj_of_byteLength (hsplit.symm.trans hsplit') hstart
  rw [hrest, hread'] at hread
  cases hread
  exact ⟨rfl, rfl⟩

theorem IsScan.start_lt_stop (hp : p.IsProductive) {n : Nat} {spans : List Span}
    {values : List α} (h : IsScan p source n spans values) : ∀ s ∈ spans, s.start < s.stop := by
  have hreads := h.reads
  clear h
  induction hreads with
  | nil => simp
  | cons ha _ ih => exact List.forall_mem_cons.2 ⟨ha.start_lt_stop hp, ih⟩

theorem IsScan.exists_readsAt {n : Nat} {spans : List Span} {values : List α}
    (h : IsScan p source n spans values) {a : α} (ha : a ∈ values) :
    ∃ span, ReadsAt p source span a := by
  have hreads := h.reads
  clear h
  induction hreads with
  | nil => simp at ha
  | cons hread _ ih =>
    rcases List.mem_cons.1 ha with rfl | ha
    · exact ⟨_, hread⟩
    · exact ih ha

/-! ## A scan is leftmost -/

theorem IsScan.nil (hp : p.IsProductive) (before : Text) :
    IsScan p (before ++ []) (Text.byteLength before) [] [] where
  reads := .nil
  ordered := .nil
  le_start := by simp
  skipped u v hsplit hle _ := by
    obtain ⟨m, rfl, hm⟩ := Text.exists_mid_of_byteLength_le hsplit hle
    obtain ⟨_, rfl⟩ := List.append_eq_nil_iff.1 hm.symm
    exact hp.fails_nil

/-- A place where nothing is read is skipped. -/
theorem IsScan.skip {before t : Text} {c : Char} {spans : List Span} {values : List α}
    (hfails : ∀ r, p.read (c :: t) ≠ .ok r)
    (h : IsScan p (before ++ [c] ++ t) (Text.byteLength (before ++ [c])) spans values) :
    IsScan p (before ++ c :: t) (Text.byteLength before) spans values := by
  have hsource : before ++ [c] ++ t = before ++ c :: t := by simp
  rw [hsource] at h
  refine ⟨h.reads, h.ordered, fun s hs => ?_, fun u v hsplit hle hout => ?_⟩
  · have := h.le_start s hs
    rw [Text.byteLength_append] at this
    omega
  · obtain ⟨m, rfl, hm⟩ := Text.exists_mid_of_byteLength_le hsplit hle
    cases m with
    | nil =>
      obtain rfl : c :: t = v := hm
      exact hfails
    | cons d m =>
      obtain ⟨rfl, _⟩ := List.cons.inj hm
      refine h.skipped _ v hsplit ?_ hout
      simp only [Text.byteLength_append, Text.byteLength_cons, Text.byteLength_nil]
      omega

/-- Behind a reading the scan goes on with the rest. -/
theorem IsScan.cons (hp : p.IsProductive) {before : Text} {r : Reading α} {spans : List Span}
    {values : List α} (hread : p.read (r.text ++ r.rest) = .ok r)
    (h : IsScan p (before ++ r.text ++ r.rest) (Text.byteLength (before ++ r.text)) spans values) :
    IsScan p (before ++ (r.text ++ r.rest)) (Text.byteLength before)
      (.behind before r.text :: spans) (r.value :: values) := by
  rw [List.append_assoc] at h
  have hstop : (Span.behind before r.text).stop = Text.byteLength (before ++ r.text) := by
    simp [Span.behind]
  have hpos := Text.byteLength_pos (hp _ r hread)
  refine ⟨.cons ⟨before, r, rfl, hread, rfl, rfl⟩ h.reads, ?_, ?_, fun u v hsplit hle hout => ?_⟩
  · exact List.pairwise_cons.2 ⟨fun s hs => hstop ▸ h.le_start s hs, h.ordered⟩
  · intro s hs
    rcases List.mem_cons.1 hs with rfl | hs
    · exact Nat.le_refl _
    · have := h.le_start s hs
      rw [Text.byteLength_append] at this
      omega
  · refine h.skipped u v hsplit ?_ fun s hs => hout s (List.mem_cons_of_mem _ hs)
    rcases hout _ List.mem_cons_self with hlt | hge
    · simp only [Span.behind] at hlt
      omega
    · exact hstop ▸ hge

theorem exists_isScan (hp : p.IsProductive) (before t : Text) :
    ∃ spans, IsScan p (before ++ t) (Text.byteLength before) spans
      ((scan p t).map (·.value)) := by
  fun_induction scan p t generalizing before with
  | case1 => exact ⟨[], .nil hp before⟩
  | case2 c t r hr _ ih =>
    have hread := read?_eq_some_iff.1 hr
    have hsplit := p.split hread
    rw [hsplit] at hread ⊢
    obtain ⟨spans, h⟩ := ih (before ++ r.text)
    exact ⟨_, h.cons hp hread⟩
  | case3 c t r hr hlong _ =>
    have hread := read?_eq_some_iff.1 hr
    have hpos := List.length_pos_iff.2 (hp _ r hread)
    have hlen := congrArg List.length (p.split hread)
    simp only [List.length_cons, List.length_append] at hlen
    omega
  | case4 c t hr ih =>
    obtain ⟨spans, h⟩ := ih (before ++ [c])
    exact ⟨spans, h.skip (read?_eq_none_iff.1 hr)⟩

/-! ## A source determines its scan -/

/-- What is read at all lies at or behind the start of some span. -/
theorem IsScan.exists_of_readsAt {n : Nat} {spans : List Span} {values : List α}
    (h : IsScan p source n spans values) {span : Span} {a : α} (ha : ReadsAt p source span a)
    (hn : n ≤ span.start) : ∃ s ∈ spans, s.start ≤ span.start ∧ span.start < s.stop := by
  obtain ⟨before, r, hsplit, hread, rfl, _⟩ := ha
  refine Classical.byContradiction fun hout => ?_
  refine h.skipped before _ hsplit hn (fun s hs => ?_) r hread
  rcases Nat.lt_or_ge (Text.byteLength before) s.start with hlt | hge
  · exact .inl hlt
  · exact .inr (Nat.le_of_not_lt fun hlt => hout ⟨s, hs, hge, hlt⟩)

/-- The first span starts at the first place where something is read. -/
theorem IsScan.start_le (hp : p.IsProductive) {n : Nat} {span span' : Span}
    {spans spans' : List Span} {values values' : List α}
    (h : IsScan p source n (span :: spans) values)
    (h' : IsScan p source n (span' :: spans') values') : span.start ≤ span'.start := by
  obtain ⟨a', _, ha', _, rfl⟩ := List.forall₂_cons_left_iff.1 h'.reads
  obtain ⟨a, _, ha, _, rfl⟩ := List.forall₂_cons_left_iff.1 h.reads
  obtain ⟨s, hs, hle, _⟩ := h.exists_of_readsAt ha' (h'.le_start _ List.mem_cons_self)
  rcases List.mem_cons.1 hs with rfl | hs
  · exact hle
  · have hstop := (List.pairwise_cons.1 h.ordered).1 s hs
    have hpos := ha.start_lt_stop hp
    omega

/-- What is left of a scan is a scan from the end of its first span on. -/
theorem IsScan.tail (hp : p.IsProductive) {n : Nat} {span : Span} {spans : List Span} {a : α}
    {values : List α} (h : IsScan p source n (span :: spans) (a :: values)) :
    IsScan p source span.stop spans values := by
  obtain ⟨ha, hreads⟩ := List.forall₂_cons.1 h.reads
  obtain ⟨hfirst, hordered⟩ := List.pairwise_cons.1 h.ordered
  have hpos := ha.start_lt_stop hp
  have hn := h.le_start span List.mem_cons_self
  refine ⟨hreads, hordered, hfirst, fun before rest hsplit hle hout => ?_⟩
  refine h.skipped before rest hsplit (by omega) fun s hs => ?_
  rcases List.mem_cons.1 hs with rfl | hs
  · exact .inr hle
  · exact hout s hs

theorem IsScan.unique (hp : p.IsProductive) {n : Nat} {spans spans' : List Span}
    {values values' : List α} (h : IsScan p source n spans values)
    (h' : IsScan p source n spans' values') : spans = spans' ∧ values = values' := by
  -- Where one scan has a span left, the other one cannot have skipped its place.
  have hnil {n : Nat} {span : Span} {spans : List Span} {values values' : List α}
      (h : IsScan p source n (span :: spans) values) (h' : IsScan p source n [] values') :
      False := by
    obtain ⟨a, _, ha, _, rfl⟩ := List.forall₂_cons_left_iff.1 h.reads
    obtain ⟨s, hs, _⟩ := h'.exists_of_readsAt ha (h.le_start span List.mem_cons_self)
    simp at hs
  induction spans generalizing n values spans' values' with
  | nil =>
    cases spans' with
    | nil =>
      have hvalues := h.reads
      have hvalues' := h'.reads
      rw [List.forall₂_nil_left_iff] at hvalues hvalues'
      exact ⟨rfl, hvalues.trans hvalues'.symm⟩
    | cons span' spans' => exact (hnil h' h).elim
  | cons span spans ih =>
    cases spans' with
    | nil => exact (hnil h h').elim
    | cons span' spans' =>
      have hstart := Nat.le_antisymm (h.start_le hp h') (h'.start_le hp h)
      obtain ⟨a, as, ha, _, rfl⟩ := List.forall₂_cons_left_iff.1 h.reads
      obtain ⟨a', as', ha', _, rfl⟩ := List.forall₂_cons_left_iff.1 h'.reads
      obtain ⟨rfl, rfl⟩ := ha.unique ha' hstart
      obtain ⟨rfl, rfl⟩ := ih (h.tail hp) (h'.tail hp)
      exact ⟨rfl, rfl⟩

end Reader

end SassVars
