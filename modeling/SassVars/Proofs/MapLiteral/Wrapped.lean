import SassVars.Proofs.Expansion.WellFormed
import SassVars.Proofs.Grammar.Entry
import SassVars.Proofs.Standalone.Plain

/-!
# Entries as statements

An entry is read as a declaration after it has been made a statement: it gets a `$` in front and
a `;` behind, and the comma in front of its comment becomes a `;`. That comma is looked for from
the left, so it must be the first one that a comment follows.

## Main definitions

* `MapLiteral.KeepsCommas`: a text whose own commas are not taken for the one in front of the
  comment.
-/

namespace SassVars

open Reader

namespace MarkerComment

theorem opensComment_of_isComment {ms : List Marker} {s : Text} (h : IsComment ms s) :
    opensComment s = true := by
  rcases h with ⟨_, _, _, _, rfl⟩ | ⟨_, _, _, rfl⟩ <;> simp [opensComment]

theorem occursIn_of_isComment {ms : List Marker} {s : Text} (front : Text) (h : IsComment ms s) :
    reader.occursIn (front ++ s) = true := by
  obtain ⟨r, hr⟩ := exists_read_reader h []
  exact occursIn_iff.2 ⟨front, s ++ [], r, by simp, hr⟩

theorem not_opensComment {c : Char} (hc : c ≠ '/') (t : Text) : opensComment (c :: t) = false := by
  have hslash : ('/' == c) = false := beq_false_of_ne hc.symm
  simp [opensComment, List.isPrefixOf, hslash]

end MarkerComment

namespace MapLiteral

open MarkerComment (IsComment)

/-! ## The comma in front of the comment -/

/-- Behind each comma of `front` stands something that starts no comment. -/
def KeepsCommas (front : Text) : Prop :=
  ∀ a b, front = a ++ ',' :: b → ∃ c ∈ (Text.trimStart b).head?, c ≠ '/'

theorem keepsCommas_of_not_mem {front : Text} (h : ',' ∉ front) : KeepsCommas front := by
  rintro a b rfl
  simp at h

/-- A last `)` stands behind every comma. -/
theorem keepsCommas_concat {u : Text} (h : '/' ∉ u) : KeepsCommas (u ++ [')']) := by
  intro a b heq
  obtain ⟨b, rfl, rfl⟩ := (Text.concat_eq_append_cons_iff (by decide)).1 heq
  cases hdrop : Text.trimStart (b ++ [')']) with
  | nil =>
    have hblank := Text.isEmpty_dropWhile_isSpace (b ++ [')'])
    have hclose : Text.isBlank [')'] = false := by decide
    rw [← Text.trimStart, hdrop, Text.isBlank_append, hclose] at hblank
    simp at hblank
  | cons c v =>
    have hsub : Text.trimStart (b ++ [')']) ⊆ b ++ [')'] :=
      (List.dropWhile_suffix Text.isSpace).subset
    have hmem : c ∈ b ++ [')'] := hsub (by simp [hdrop])
    refine ⟨c, by simp, ?_⟩
    rintro rfl
    simp at h hmem
    exact h.2 hmem

theorem KeepsCommas.append {u v : Text} (hv : KeepsCommas v) (hu : ',' ∉ u) :
    KeepsCommas (u ++ v) := by
  intro a b heq
  rcases List.append_eq_append_iff.1 heq with ⟨m, rfl, hm⟩ | ⟨m, rfl, hm⟩
  · exact hv m b hm
  · cases m with
    | nil => exact hv [] b hm.symm
    | cons c m =>
      obtain ⟨rfl, _⟩ := List.cons.inj hm
      simp at hu

/-- The reader takes exactly a comma that a comment follows. -/
theorem read_commaBeforeComment_eq_ok_iff {t : Text} {r : Reading Unit} :
    commaBeforeComment.read t = .ok r ↔
      ∃ rest, MarkerComment.opensComment (Text.trimStart rest) = true ∧ t = ',' :: rest ∧
        r = ⟨(), [','], rest⟩ := by
  simp only [commaBeforeComment, read_bind_eq_ok_iff, read_char_eq_ok_iff, read_peek,
    Except.ok.injEq]
  constructor
  · rintro ⟨_, _, ⟨rest, rfl, rfl⟩, ⟨_, b, rfl, hb, rfl⟩, rfl⟩
    split at hb
    · rename_i hopens
      cases hb
      exact ⟨rest, hopens, rfl, rfl⟩
    · simp at hb
  · rintro ⟨rest, hopens, rfl, rfl⟩
    exact ⟨_, _, ⟨rest, rfl, rfl⟩, ⟨_, ⟨(), [], rest⟩, rfl, by simp [hopens], rfl⟩, by simp⟩

/-- Such a comma is none in front of a comment, whatever follows the text. -/
theorem KeepsCommas.not_opensComment {front a b : Text} (h : KeepsCommas front)
    (heq : front = a ++ ',' :: b) (rest : Text) :
    MarkerComment.opensComment (Text.trimStart (b ++ rest)) = false := by
  obtain ⟨d, hd, hne⟩ := h a b heq
  obtain ⟨v, hv⟩ := List.head?_eq_some_iff.1 hd
  have hdrop : Text.trimStart (b ++ rest) = d :: v ++ rest := by
    rw [Text.trimStart, List.dropWhile_append, ← Text.trimStart, hv]
    rfl
  rw [hdrop]
  exact MarkerComment.not_opensComment hne _

theorem find?_commaBeforeComment {front rest : Text}
    (hrest : MarkerComment.opensComment (Text.trimStart rest))
    (hfront : ∀ a b, front = a ++ ',' :: b →
      MarkerComment.opensComment (Text.trimStart (b ++ ',' :: rest)) = false) :
    commaBeforeComment.find? (front ++ ',' :: rest) = some (front, ⟨(), [','], rest⟩) := by
  refine find?_eq_some_iff.2
    ⟨by simp, read_commaBeforeComment_eq_ok_iff.2 ⟨rest, hrest, rfl, rfl⟩, ?_⟩
  rintro a c b rfl r hr
  obtain ⟨_, hopens, heq, _⟩ := read_commaBeforeComment_eq_ok_iff.1 hr
  obtain ⟨rfl, rfl⟩ := List.cons.inj heq
  have hclosed : MarkerComment.opensComment (Text.trimStart (b ++ ([','] ++ rest))) = false :=
    hfront a b rfl
  rw [hclosed] at hopens
  contradiction

section Closing

variable {front w s : Text} {ms : List Marker}

theorem trimStart_comment (hw : ∀ c ∈ w, Text.isLayout c = true) (hs : IsComment ms s) :
    Text.trimStart (w ++ s) = s := by
  have hspace : ∀ c ∈ w, Text.isSpace c = true := fun c hc => Text.isSpace_of_isLayout (hw c hc)
  have hslash : Text.isSpace '/' = false := by decide
  obtain ⟨u, rfl⟩ := List.head?_eq_some_iff.1 hs.head?
  exact (Text.IsRun.of_cons hspace hslash).dropWhile_eq

/-- Of the commas only the one in front of the comment becomes a `;`. -/
theorem closeValue_of_comment (hfront : ∀ a b, front = a ++ ',' :: b →
      MarkerComment.opensComment (Text.trimStart (b ++ ',' :: (w ++ s))) = false)
    (hw : ∀ c ∈ w, Text.isLayout c = true) (hs : IsComment ms s) :
    closeValue (front ++ ',' :: (w ++ s)) = front ++ ';' :: (w ++ s) := by
  have hoccurs := MarkerComment.occursIn_of_isComment (front ++ ',' :: w) hs
  rw [List.append_assoc, List.cons_append] at hoccurs
  have hopens : MarkerComment.opensComment (Text.trimStart (w ++ s)) := by
    rw [trimStart_comment hw hs, MarkerComment.opensComment_of_isComment hs]
  rw [closeValue, if_pos hoccurs, find?_commaBeforeComment hopens hfront]

theorem closeValue_of_not_mem {t : Text} (h : '/' ∉ t) : closeValue t = t := by
  refine if_neg fun hoccurs => ?_
  obtain ⟨u, v, r, rfl, hr⟩ := occursIn_iff.1 hoccurs
  obtain ⟨ms, s, rest, hs, rfl, _⟩ := MarkerComment.read_reader_eq_ok_iff.1 hr
  obtain ⟨s, rfl⟩ := List.head?_eq_some_iff.1 hs.isComment.head?
  simp at h

end Closing

/-! ## The statement of an entry -/

/-- What an entry of that key, value and markers stands for. A repeated tag keeps its place and
takes the new value. -/
def declared (key value : Text) (ms : List Marker) : Declaration where
  name := VariableName.exported key
  value := Declaration.exportedValue value
  fields := ms.foldl (fun fs m => Field.set m.tag (Text.unquote m.quoted) fs) []
  map := none

theorem comma_not_mem_front {key n w : Text} (hkey : IsVariableName key n)
    (hw : ∀ c ∈ w, Text.isLayout c = true) : ',' ∉ n ++ (w ++ [':']) := by
  have hname : ',' ∉ n := Statement.not_mem_variableName hkey (by decide) (by decide)
  have hlayout : ',' ∉ w := fun hc => absurd (hw ',' hc) (by decide)
  simp [hname, hlayout]

section Wrapping

variable {key n w value : Text} (hkey : IsVariableName key n)
  (hw : ∀ c ∈ w, Text.isLayout c = true) (hblank : Text.isBlank value = false)

include hkey hw hblank

/-- A statement without any flag is read as it stands. -/
theorem ofText?_statement {tail rest : Text} {comment : Option Text} (hsemi : ';' ∉ value)
    (hopen : ¬ Statement.ClosesNext (tail ++ rest)) (htail : Statement.IsTail comment tail rest)
    (hbang : '!' ∉ value ++ ';' :: (tail ++ rest)) :
    Declaration.ofText? ('$' :: (n ++ (w ++ ':' :: (value ++ ';' :: (tail ++ rest))))) =
      some (declared key value ((comment.map Marker.collect).getD [])) := by
  have hname : '!' ∉ n := Statement.not_mem_variableName hkey (by decide) (by decide)
  have hlayout : '!' ∉ w := fun hc => absurd (hw '!' hc) (by decide)
  have hclean : '!' ∉ '$' :: (n ++ (w ++ ':' :: (value ++ ';' :: (tail ++ rest)))) := by
    simp only [List.mem_cons, List.mem_append, not_or] at hbang ⊢
    exact ⟨by decide, hname, hlayout, by decide, hbang⟩
  have hread := Statement.read_of_variableName hkey hw hsemi hblank hopen htail
  rw [Declaration.ofText?, Declaration.withoutFlag_of_not_mem hclean, Statement.find?,
    find?_of_read hread]
  simp only [Option.map_some, Declaration.ofStatement, Declaration.attach_eq,
    Declaration.exportedValue_dropWhile_isLayout]
  rfl

/-- An entry that is left as it is stands for its key and its value. -/
theorem ofText?_asStatement_of_closed (hvalue : ∀ c ∈ [';', '!'], c ∉ value)
    (hclose : closeValue (n ++ (w ++ ':' :: value)) = n ++ (w ++ ':' :: value)) :
    Declaration.ofText? (asStatement (n ++ (w ++ ':' :: value))) =
      some (declared key value []) := by
  have hread := ofText?_statement hkey hw hblank (hvalue ';' (by simp)) (by decide)
    Statement.isTail_nil (by simpa using hvalue '!' (by simp))
  rw [asStatement, hclose]
  simpa using hread

/-- An entry without a comment stands for its key and its value. -/
theorem ofText?_asStatement (hvalue : ∀ c ∈ [';', '!', '/'], c ∉ value) :
    Declaration.ofText? (asStatement (n ++ (w ++ ':' :: value))) =
      some (declared key value []) := by
  have hslash : '/' ∉ n ++ (w ++ ':' :: value) := by
    have hname : '/' ∉ n := Statement.not_mem_variableName hkey (by decide) (by decide)
    have hlayout : '/' ∉ w := fun hc => absurd (hw '/' hc) (by decide)
    simp only [List.mem_append, List.mem_cons, not_or]
    exact ⟨hname, hlayout, by decide, hvalue '/' (by simp)⟩
  exact ofText?_asStatement_of_closed hkey hw hblank (by simp_all) (closeValue_of_not_mem hslash)

section Comment

variable {gap s : Text} {ms : List Marker} (hvalue : ∀ c ∈ [';', '!'], c ∉ value)
  (hcommas : ∀ a b, value = a ++ ',' :: b →
    MarkerComment.opensComment (Text.trimStart (b ++ ',' :: (gap ++ s))) = false)
  (hclean : ∀ c ∈ ['!', '}'], c ∉ s)

include hvalue hcommas hclean

/-- An entry with a comment stands for its key and its value with the markers of what the
statement takes for its comment. -/
theorem ofText?_asStatement_of_tail {tail rest : Text} {comment : Option Text}
    (hgap : ∀ c ∈ gap, Text.isLayout c = true) (hs : IsComment ms s)
    (htail : Statement.IsTail comment tail rest) (heq : gap ++ (s ++ [';']) = tail ++ rest) :
    Declaration.ofText? (asStatement (n ++ (w ++ ':' :: (value ++ ',' :: (gap ++ s))))) =
      some (declared key value ((comment.map Marker.collect).getD [])) := by
  have hopen : ¬ Statement.ClosesNext (tail ++ rest) := by
    rw [← heq]
    rintro ⟨u, v, heq, _⟩
    have hbrace : '}' ∈ gap ++ (s ++ [';']) := by simp [heq]
    have hlayout : '}' ∉ gap := fun hc => absurd (hgap '}' hc) (by decide)
    simp [hlayout, hclean] at hbrace
  have hbang : '!' ∉ value ++ ';' :: (tail ++ rest) := by
    have hlayout : '!' ∉ gap := fun hc => absurd (hgap '!' hc) (by decide)
    rw [← heq]
    simp [hlayout, hclean, hvalue]
  have hfront (a b : Text) (hsplit : n ++ (w ++ ':' :: value) = a ++ ',' :: b) :
      MarkerComment.opensComment (Text.trimStart (b ++ ',' :: (gap ++ s))) = false := by
    obtain ⟨y, _, hvalue⟩ :=
      (Text.append_eq_append_cons_iff (comma_not_mem_front hkey hw)).1 (by simpa using hsplit)
    exact hcommas y b hvalue
  have hclose := closeValue_of_comment hfront hgap hs
  have hread := ofText?_statement hkey hw hblank (hvalue ';' (by simp)) hopen htail hbang
  rw [asStatement]
  simp only [List.append_assoc, List.cons_append, ← heq] at hclose hread ⊢
  rw [hclose]
  simpa using hread

/-- The markers are those of the comment when it stands where a statement may have it. -/
theorem ofText?_asStatement_of_comment
    (hs : MarkerComment.IsBlock ms s ∧ (∀ c ∈ gap, Text.isLayout c = true) ∨
      MarkerComment.IsLine ms s ∧ ∀ c ∈ gap, Text.isInline c = true) :
    Declaration.ofText? (asStatement (n ++ (w ++ ':' :: (value ++ ',' :: (gap ++ s))))) =
      some (declared key value ms) := by
  have hcomment : IsComment ms s := hs.imp And.left And.left
  have hgap : ∀ c ∈ gap, Text.isLayout c = true := by
    rcases hs with ⟨_, hgap⟩ | ⟨_, hgap⟩
    · exact hgap
    · exact fun c hc => Text.isLayout_of_isInline (hgap c hc)
  have htail : Statement.IsTail (some s) (gap ++ s) [';'] := by
    rcases hs with ⟨hs, hgap⟩ | ⟨hs, hgap⟩
    · exact .block hgap hs
    · exact .line hgap hs (Marker.not_startsBehind (w := []) rfl (by simp) (by simp; decide))
  have hread := ofText?_asStatement_of_tail hkey hw hblank hvalue hcommas hclean hgap hcomment htail
    (by simp)
  simpa [hcomment.collect_eq] using hread

end Comment

end Wrapping

end MapLiteral

end SassVars
