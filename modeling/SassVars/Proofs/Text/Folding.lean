import Mathlib.Data.List.SplitBy
import SassVars.Text.Bytes

/-!
# Folding line breaks

A text falls into runs: as much space as stands together, and as much else. Folding goes by these
runs. One that spans a line feed becomes a blank, and every other one stays. So folding is the
same as a pass that holds back the space it has read until it sees what follows.

## Main definitions

* `Text.runs`: the division of a text into its runs.
* `Text.Folding`: the state of the pass, with the space that is held back.
-/

namespace SassVars.Text

/-! ## Folding part by part -/

theorem foldRun_eq_self {run : Text} (h : '\n' ∉ run) : foldRun run = run :=
  if_neg h

theorem foldRun_of_mem {run : Text} (h : '\n' ∈ run) : foldRun run = [' '] :=
  if_pos h

theorem lineFeed_not_mem_foldRun (run : Text) : '\n' ∉ foldRun run := by
  unfold foldRun
  split
  · decide
  · assumption

theorem isSpace_lineFeed : isSpace '\n' = true := by decide

/-- A run of space is folded as a whole, wherever it stands in front. -/
theorem foldLineBreaks_append_of_isRun {w v : Text} (h : IsRun isSpace w v) :
    foldLineBreaks (w ++ v) = foldRun w ++ foldLineBreaks v := by
  cases w with
  | nil => rfl
  | cons c w =>
    have hc : isSpace c = true := h.all c (by simp)
    have hrun : IsRun isSpace w v := ⟨fun d hd => h.all d (by simp [hd]), h.stops⟩
    rw [List.cons_append, foldLineBreaks, if_pos hc, hrun.takeWhile_eq, hrun.dropWhile_eq]

theorem foldLineBreaks_of_space {w : Text} (h : ∀ c ∈ w, isSpace c = true) :
    foldLineBreaks w = foldRun w := by
  have hrun := foldLineBreaks_append_of_isRun (v := []) ⟨h, by simp⟩
  rwa [List.append_nil, foldLineBreaks, List.append_nil] at hrun

theorem foldLineBreaks_cons {c : Char} (h : isSpace c = false) (t : Text) :
    foldLineBreaks (c :: t) = c :: foldLineBreaks t := by
  rw [foldLineBreaks, if_neg (by simp [h])]

/-- Two parts are folded on their own where no run of space goes across. -/
theorem foldLineBreaks_append {u v : Text}
    (h : (∀ c ∈ u.getLast?, isSpace c = false) ∨ ∀ c ∈ v.head?, isSpace c = false) :
    foldLineBreaks (u ++ v) = foldLineBreaks u ++ foldLineBreaks v := by
  fun_induction foldLineBreaks u with
  | case1 => rfl
  | case2 c t hc ih =>
    obtain ⟨hall, hstops⟩ := isRun_takeWhile isSpace t
    have hsplit : c :: t = (c :: t.takeWhile isSpace) ++ t.dropWhile isSpace := by
      rw [List.cons_append, List.takeWhile_append_dropWhile]
    have hspace : ∀ d ∈ c :: t.takeWhile isSpace, isSpace d = true :=
      List.forall_mem_cons.2 ⟨hc, hall⟩
    have hrun : IsRun isSpace (c :: t.takeWhile isSpace) (t.dropWhile isSpace ++ v) := by
      refine ⟨hspace, fun d hd => ?_⟩
      cases hrest : t.dropWhile isSpace with
      | nil =>
        -- All of `u` is space, so it is `v` that the run may not go on in.
        have hv := h.resolve_left fun hu => by
          have := hu _ (List.getLast_mem_getLast? (List.cons_ne_nil c t))
          grind
        exact hv d (by simpa [hrest] using hd)
      | cons e rest => exact hstops d (by simpa [hrest] using hd)
    have hrest : (∀ d ∈ (t.dropWhile isSpace).getLast?, isSpace d = false) ∨
        ∀ d ∈ v.head?, isSpace d = false := by
      refine h.imp_left fun hu d hd => hu d ?_
      rw [hsplit]
      exact List.mem_getLast?_append_of_mem_getLast? hd
    rw [hsplit, List.append_assoc, foldLineBreaks_append_of_isRun hrun, ih hrest,
      List.append_assoc]
  | case3 c t hc ih =>
    have hrest : (∀ d ∈ t.getLast?, isSpace d = false) ∨ ∀ d ∈ v.head?, isSpace d = false := by
      refine h.imp_left fun hu d hd => hu d ?_
      rw [← List.singleton_append]
      exact List.mem_getLast?_append_of_mem_getLast? hd
    rw [List.cons_append, foldLineBreaks_cons (by simpa using hc), ih hrest, List.cons_append]

/-! ## Folding run by run -/

/-- The longest stretches of a text that are space throughout or have none. -/
def runs (t : Text) : List Text :=
  t.splitBy fun a b => isSpace a == isSpace b

theorem foldLineBreaks_of_no_space {t : Text} (h : ∀ c ∈ t, isSpace c = false) :
    foldLineBreaks t = t := by
  induction t with
  | nil => simp [foldLineBreaks]
  | cons c t ih =>
    rw [foldLineBreaks_cons (h c (by simp)), ih fun d hd => h d (by simp [hd])]

/-- The characters of a run are all space, or none of them is. -/
theorem exists_isSpace_eq_of_mem_runs {t g : Text} (h : g ∈ runs t) :
    ∃ b, ∀ c ∈ g, isSpace c = b := by
  obtain ⟨c, g, rfl⟩ := List.exists_cons_of_ne_nil (List.ne_nil_of_mem_splitBy h)
  refine ⟨isSpace c, (List.isChain_of_mem_splitBy h).induction _ _ ?_ fun _ => rfl⟩
  intro a b hab ha
  rw [← ha, beq_iff_eq.1 hab]

theorem lineFeed_not_mem_of_no_space {g : Text} (h : ∀ c ∈ g, isSpace c = false) : '\n' ∉ g := by
  intro hmem
  have := h _ hmem
  rw [isSpace_lineFeed] at this
  contradiction

/-- Either kind of run is folded as a run of space is, since elsewhere no line feed stands. -/
theorem foldLineBreaks_of_mem_runs {t g : Text} (h : g ∈ runs t) :
    foldLineBreaks g = foldRun g := by
  obtain ⟨b, hb⟩ := exists_isSpace_eq_of_mem_runs h
  cases b with
  | true => exact foldLineBreaks_of_space hb
  | false =>
    rw [foldLineBreaks_of_no_space hb, foldRun_eq_self (lineFeed_not_mem_of_no_space hb)]

/-- Texts in a row that change between space and other characters are folded one by one. -/
theorem foldLineBreaks_flatten {gs : List Text} (h : gs.IsChain fun a b =>
    ∃ ha hb, (isSpace (a.getLast ha) == isSpace (b.head hb)) = false) :
    foldLineBreaks gs.flatten = gs.flatMap foldLineBreaks := by
  induction gs with
  | nil => simp [foldLineBreaks]
  | cons g gs ih =>
    have hborder : (∀ c ∈ g.getLast?, isSpace c = false) ∨
        ∀ c ∈ gs.flatten.head?, isSpace c = false := by
      cases gs with
      | nil => simp
      | cons g' gs =>
        obtain ⟨hg, hg', hne⟩ := h.rel
        obtain ⟨c, g', rfl⟩ := List.exists_cons_of_ne_nil hg'
        rw [List.getLast?_eq_some_getLast hg]
        grind
    rw [List.flatten_cons, foldLineBreaks_append hborder, ih h.tail, List.flatMap_cons]

theorem foldLineBreaks_eq_flatMap_runs (t : Text) :
    foldLineBreaks t = (runs t).flatMap foldRun := by
  calc foldLineBreaks t
      _ = foldLineBreaks (runs t).flatten := by rw [runs, List.flatten_splitBy]
      _ = (runs t).flatMap foldLineBreaks :=
        foldLineBreaks_flatten
          (List.isChain_getLast_head_splitBy (fun a b => isSpace a == isSpace b) t)
      _ = (runs t).flatMap foldRun :=
        List.flatMap_congr fun g hg => foldLineBreaks_of_mem_runs hg

/-! ## What folding keeps -/

/-- No line feed is left, since each belongs to a run of space. -/
theorem lineFeed_not_mem_foldLineBreaks (t : Text) : '\n' ∉ foldLineBreaks t := by
  intro h
  rw [foldLineBreaks_eq_flatMap_runs, List.mem_flatMap] at h
  obtain ⟨g, _, hg⟩ := h
  exact lineFeed_not_mem_foldRun g hg

/-- A text without line feeds has nothing to fold. -/
theorem foldLineBreaks_eq_self {t : Text} (h : '\n' ∉ t) : foldLineBreaks t = t := by
  have hsplit : t = (runs t).flatten := (List.flatten_splitBy _ t).symm
  rw [foldLineBreaks_eq_flatMap_runs]
  calc (runs t).flatMap foldRun
      _ = (runs t).flatMap id := List.flatMap_congr fun g hg =>
        foldRun_eq_self fun hmem => h (by rw [hsplit]; exact List.mem_flatten_of_mem hg hmem)
      _ = t := by rw [List.flatMap_id, ← hsplit]

theorem filter_foldRun {g : Text} {b : Bool} (h : ∀ c ∈ g, isSpace c = b) :
    (foldRun g).filter (!isSpace ·) = g.filter (!isSpace ·) := by
  by_cases hline : '\n' ∈ g
  · have hb : b = true := by rw [← h _ hline, isSpace_lineFeed]
    have hnone : g.filter (!isSpace ·) = [] := by
      refine List.filter_eq_nil_iff.2 fun c hc => ?_
      simp [h c hc, hb]
    rw [foldRun_of_mem hline, hnone]
    rfl
  · rw [foldRun_eq_self hline]

/-- Every character that is no space stays, in the same order. -/
theorem filter_foldLineBreaks (t : Text) :
    (foldLineBreaks t).filter (!isSpace ·) = t.filter (!isSpace ·) := by
  calc (foldLineBreaks t).filter (!isSpace ·)
      _ = (runs t).flatMap fun g => (foldRun g).filter (!isSpace ·) := by
        rw [foldLineBreaks_eq_flatMap_runs, List.filter_flatMap]
      _ = (runs t).flatMap fun g => g.filter (!isSpace ·) := by
        refine List.flatMap_congr fun g hg => ?_
        obtain ⟨b, hb⟩ := exists_isSpace_eq_of_mem_runs hg
        exact filter_foldRun hb
      _ = ((runs t).flatMap id).filter (!isSpace ·) := (List.filter_flatMap ..).symm
      _ = t.filter (!isSpace ·) := by rw [List.flatMap_id, runs, List.flatten_splitBy]

/-! ## Folding in one pass -/

/-- A pass over a text that folds what it has read so far. -/
structure Folding where
  folded : Text
  /-- The space at the end, which is held back since more may follow. -/
  run : Text

namespace Folding

def start : Folding := ⟨[], []⟩

def step (s : Folding) (c : Char) : Folding :=
  if isSpace c then { s with run := s.run ++ [c] } else ⟨s.folded ++ foldRun s.run ++ [c], []⟩

def finish (s : Folding) : Text :=
  s.folded ++ foldRun s.run

/-- The pass has come to the end of `t`. -/
structure HasRead (s : Folding) (t : Text) : Prop where
  space : ∀ c ∈ s.run, isSpace c = true
  split : ∃ u, t = u ++ s.run ∧ (∀ c ∈ u.getLast?, isSpace c = false) ∧ s.folded = foldLineBreaks u

theorem HasRead.finish_eq {s : Folding} {t : Text} (h : s.HasRead t) :
    s.finish = foldLineBreaks t := by
  obtain ⟨u, rfl, hlast, hfolded⟩ := h.split
  rw [foldLineBreaks_append (.inl hlast), foldLineBreaks_of_space h.space, finish, hfolded]

theorem HasRead.step {s : Folding} {t : Text} (h : s.HasRead t) (c : Char) :
    (s.step c).HasRead (t ++ [c]) := by
  cases hc : isSpace c with
  | true =>
    obtain ⟨u, rfl, hlast, hfolded⟩ := h.split
    rw [Folding.step, if_pos hc]
    refine ⟨?_, u, by simp, hlast, hfolded⟩
    intro d hd
    rcases List.mem_append.1 hd with hd | hd
    · exact h.space d hd
    · rw [List.mem_singleton.1 hd, hc]
  | false =>
    rw [Folding.step, if_neg (by simp [hc])]
    refine ⟨by simp, t ++ [c], by simp, by simp [hc], ?_⟩
    have hfinish := h.finish_eq
    rw [finish] at hfinish
    rw [foldLineBreaks_append (.inr (by simp [hc])), ← hfinish, foldLineBreaks_cons hc,
      foldLineBreaks]

theorem hasRead_foldl (t : Text) : (t.foldl step start).HasRead t := by
  induction t using List.reverseRecOn with
  | nil => exact ⟨by simp [start], [], by simp [start], by simp, by simp [start, foldLineBreaks]⟩
  | append_singleton t c ih =>
    rw [List.foldl_concat]
    exact ih.step c

end Folding

/-- Folding replaces each longest run of space that spans a line feed by a blank and keeps all
else in its place. -/
theorem foldLineBreaks_runwise (t : Text) :
    foldLineBreaks t = (runs t).flatMap (fun run => if '\n' ∈ run then [' '] else run) ∧
      (t.foldl Folding.step Folding.start).finish = foldLineBreaks t ∧
      '\n' ∉ foldLineBreaks t ∧
      (foldLineBreaks t).filter (!isSpace ·) = t.filter (!isSpace ·) ∧
      byteLength (foldLineBreaks t) ≤ byteLength t ∧
      (foldLineBreaks t = t ↔ '\n' ∉ t) ∧
      foldLineBreaks (foldLineBreaks t) = foldLineBreaks t := by
  have hnone := lineFeed_not_mem_foldLineBreaks t
  refine ⟨foldLineBreaks_eq_flatMap_runs t, (Folding.hasRead_foldl t).finish_eq, hnone,
    filter_foldLineBreaks t, byteLength_foldLineBreaks_le t, ?_, foldLineBreaks_eq_self hnone⟩
  constructor
  · intro h
    rwa [h] at hnone
  · exact foldLineBreaks_eq_self

end SassVars.Text
