import SassVars.Proofs.Document.Item
import SassVars.Proofs.MapLiteral.Wrapped
import SassVars.Proofs.Standalone.Whole

/-!
# The comma behind a value

The comma that separates the value of an entry from its comment is not remembered. It is looked
for again, as the first comma in front of any comment. A comma inside the parentheses of the value
can come earlier, and then the value is cut off there. In every other entry the value is kept, and
with it the markers of the comment, unless that is a line comment on a line of its own.

## Main definitions

* `MapLiteral.OpensBehindComma`: a comma with a comment behind it.
* `MapLiteral.CutsValue`: an entry whose value is cut off.
* `MapLiteral.BreaksLine`: an entry whose line comment is lost.
-/

namespace SassVars

open Reader

namespace MarkerComment

/-- Two characters tell whether a comment opens, and behind a `)` none of them stands. -/
theorem opensComment_append_close (u t : Text) :
    opensComment (u ++ ')' :: t) = opensComment (u ++ [')']) := by
  match u with
  | [] => rfl
  | [c] => simp [opensComment, List.isPrefixOf]
  | c :: d :: u => simp [opensComment, List.isPrefixOf]

theorem opensComment_trimStart_append_close (u t : Text) :
    opensComment (Text.trimStart (u ++ ')' :: t)) =
      opensComment (Text.trimStart (u ++ [')'])) := by
  have htrim (t : Text) : Text.trimStart (u ++ ')' :: t) = Text.trimStart u ++ ')' :: t := by
    rw [Text.trimStart, List.dropWhile_append]
    split
    · rename_i hnil
      rw [Text.trimStart, List.isEmpty_iff.1 hnil]
      rfl
    · rfl
  rw [htrim, htrim, opensComment_append_close]

end MarkerComment

namespace MapLiteral

open Document (Avoids avoids_append avoids_cons avoids_nil avoids_of_class)
open MarkerComment (IsComment IsBlock IsLine)
open Entry (IsValue IsTrailing)

/-! ## Commas inside parentheses -/

/-- The only `)` is at the end, and every comma stands behind a `(`. -/
def IsEnclosed (v : Text) : Prop :=
  ∃ f args, ',' ∉ f ∧ ')' ∉ f ++ args ∧ v = f ++ '(' :: (args ++ [')'])

/-- What stands in front of a comma has lost the `)`. -/
theorem IsEnclosed.of_comma {v a b : Text} (h : IsEnclosed v) (heq : v = a ++ ',' :: b) :
    '(' ∈ a ∧ ')' ∉ a ∧ ∃ b', b = b' ++ [')'] := by
  obtain ⟨f, args, hcomma, hclose, rfl⟩ := h
  have hopen : ',' ∉ f ++ ['('] := by simp [hcomma]
  have hsplit : f ++ ['('] ++ (args ++ [')']) = a ++ ',' :: b := by simpa using heq
  obtain ⟨y, rfl, hargs⟩ := (Text.append_eq_append_cons_iff hopen).1 hsplit
  obtain ⟨b', rfl, rfl⟩ := (Text.concat_eq_append_cons_iff (by decide)).1 hargs
  simp only [List.mem_append, not_or] at hclose
  exact ⟨by simp, by simp [hclose], b', rfl⟩

theorem IsEnclosed.append {w v : Text} (h : IsEnclosed v)
    (hw : ∀ c ∈ w, Text.isLayout c = true) : IsEnclosed (w ++ v) := by
  obtain ⟨f, args, hcomma, hclose, rfl⟩ := h
  have hclean : Avoids [',', ')'] w := avoids_of_class (List.all_eq_true.2 hw) (by decide)
  refine ⟨w ++ f, args, ?_, ?_, by simp⟩
  · simp [hclean.not_mem (c := ',') (by simp), hcomma]
  · simpa [hclean.not_mem (c := ')') (by simp)] using hclose

/-- A value that is not blank has its commas in parentheses. -/
theorem Entry.IsValue.isEnclosed {v text rest : Text} (h : IsValue v text rest)
    (hblank : Text.isBlank v = false) :
    ∃ gap, (∀ c ∈ gap, Text.isLayout c = true) ∧ text = gap ++ v ∧
      (',' ∉ text ∨ IsEnclosed text) := by
  cases h with
  | @call w _ _ hw hs =>
    obtain ⟨f, args, _, hf, _, hclose, rfl⟩ := hs
    have hclean : Avoids [',', ')'] f := avoids_of_class (List.all_eq_true.2 hf) (by decide)
    have hcall : IsEnclosed (f ++ '(' :: (args ++ [')'])) :=
      ⟨f, args, hclean.not_mem (by simp),
        by simpa using ⟨hclean.not_mem (c := ')') (by simp), hclose⟩, rfl⟩
    exact ⟨w, hw, rfl, .inr (hcall.append hw)⟩
  | @bare w _ _ hw _ hv _ =>
    refine ⟨w, hw.all, rfl, .inl ?_⟩
    simp only [List.mem_append, not_or]
    exact ⟨fun hc => absurd (hw.all ',' hc) (by decide),
      fun hc => absurd (hv.all ',' hc) (by decide)⟩
  | @group w _ _ hw hs =>
    obtain ⟨inner, _, hclose, rfl⟩ := hs
    have hgroup : IsEnclosed ('(' :: (inner ++ [')'])) :=
      ⟨[], inner, by simp, by simpa using hclose, rfl⟩
    exact ⟨w, hw, rfl, .inr (hgroup.append hw)⟩
  | layout _ hw _ _ =>
    have hspace : Text.isBlank v = true :=
      List.all_eq_true.2 fun c hc => Text.isSpace_of_isLayout (hw.all c hc)
    rw [hspace] at hblank
    contradiction

/-- What keeps a comment clean keeps the comma and the layout in front of it clean. -/
theorem Entry.IsTrailing.avoids {comment : Option Text} {trailing rest : Text}
    (h : IsTrailing comment trailing rest) (hcomment : ∀ s ∈ comment, Avoids ['!', '}'] s) :
    Avoids ['!', '}'] trailing := by
  cases h with
  | @comment gap _ _ _ hgap _ =>
    have hspace : Avoids ['!', '}'] gap := avoids_of_class (List.all_eq_true.2 hgap) (by decide)
    exact avoids_cons.2 ⟨by decide, avoids_append.2 ⟨hspace, hcomment _ rfl⟩⟩
  | none _ => exact avoids_nil

/-! ## Which comma is replaced -/

/-- Behind some comma of `t` a comment opens. -/
def OpensBehindComma (t : Text) : Prop :=
  ∃ a b, t = a ++ ',' :: b ∧ MarkerComment.opensComment (Text.trimStart b) = true

theorem occursIn_commaBeforeComment_iff {t : Text} :
    commaBeforeComment.occursIn t = true ↔ OpensBehindComma t := by
  simp only [occursIn_iff, read_commaBeforeComment_eq_ok_iff]
  constructor
  · rintro ⟨a, _, _, rfl, b, hb, rfl, _⟩
    exact ⟨a, b, rfl, hb⟩
  · rintro ⟨a, b, rfl, hb⟩
    exact ⟨a, _, _, rfl, b, hb, rfl, rfl⟩

instance (t : Text) : Decidable (OpensBehindComma t) :=
  decidable_of_iff _ occursIn_commaBeforeComment_iff

theorem opensBehindComma_append {u : Text} (hu : ',' ∉ u) (t : Text) :
    OpensBehindComma (u ++ t) ↔ OpensBehindComma t := by
  constructor
  · rintro ⟨a, b, heq, hb⟩
    obtain ⟨y, rfl, rfl⟩ := (Text.append_eq_append_cons_iff hu).1 heq
    exact ⟨y, b, rfl, hb⟩
  · rintro ⟨a, b, rfl, hb⟩
    exact ⟨u ++ a, b, by simp, hb⟩

/-- Where that is not so for a value, nothing behind the value makes it so. -/
theorem opensComment_eq_false {value a b : Text} (hcommas : ',' ∉ value ∨ IsEnclosed value)
    (hkept : ¬ OpensBehindComma value) (heq : value = a ++ ',' :: b) (rest : Text) :
    MarkerComment.opensComment (Text.trimStart (b ++ rest)) = false := by
  rcases hcommas with hcomma | henclosed
  · simp [heq] at hcomma
  · obtain ⟨_, _, b, rfl⟩ := henclosed.of_comma heq
    rw [List.append_assoc, List.singleton_append,
      MarkerComment.opensComment_trimStart_append_close]
    exact Bool.eq_false_iff.2 fun hopens => hkept ⟨a, _, heq, hopens⟩

theorem closeValue_eq_self {t : Text}
    (h : MarkerComment.reader.occursIn t = true → ¬ OpensBehindComma t) : closeValue t = t := by
  unfold closeValue
  split
  · rename_i hoccurs
    have hnone : commaBeforeComment.find? t = none := by
      simpa [occursIn] using mt occursIn_commaBeforeComment_iff.1 (h hoccurs)
    rw [hnone]
  · rfl

/-- A comma of the value is replaced when a comment opens behind one. -/
theorem exists_closeValue {front a b rest : Text} (hfront : ',' ∉ front)
    (hoccurs : MarkerComment.reader.occursIn (front ++ (a ++ ',' :: b ++ rest)) = true)
    (hopens : MarkerComment.opensComment (Text.trimStart (b ++ rest)) = true) :
    ∃ a' b', a ++ ',' :: b = a' ++ ',' :: b' ∧
      closeValue (front ++ (a ++ ',' :: b ++ rest)) = front ++ (a' ++ ';' :: (b' ++ rest)) := by
  have hsplit : front ++ (a ++ ',' :: b ++ rest) = (front ++ a) ++ ',' :: (b ++ rest) := by simp
  have hread := read_commaBeforeComment_eq_ok_iff.2 ⟨b ++ rest, hopens, rfl, rfl⟩
  cases hfind : commaBeforeComment.find? (front ++ (a ++ ',' :: b ++ rest)) with
  | none => exact absurd hread (find?_eq_none_iff.1 hfind _ _ hsplit _)
  | some found =>
    obtain ⟨before, r⟩ := found
    have hlen := length_le_of_find? hfind hsplit hread
    obtain ⟨hread', hbefore⟩ := find?_eq_some hfind
    obtain ⟨z, _, hz, rfl⟩ := read_commaBeforeComment_eq_ok_iff.1 hread'
    rw [hz] at hbefore
    obtain ⟨y, rfl, hy⟩ := (Text.append_eq_append_cons_iff hfront).1 hbefore
    -- The comma that is found is one of the value.
    have hcomma : y ++ [','] <+: a ++ ',' :: b ++ rest :=
      ⟨z, by rw [hy, List.append_assoc, List.singleton_append]⟩
    have hprefix : y ++ [','] <+: a ++ ',' :: b := by
      refine List.prefix_of_prefix_length_le hcomma (List.prefix_append _ _) ?_
      simp only [List.length_append, List.length_cons, List.length_nil] at hlen ⊢
      omega
    obtain ⟨b', hb'⟩ := hprefix
    have hvalue : a ++ ',' :: b = y ++ ',' :: b' := by rw [← hb']; simp
    refine ⟨y, b', hvalue, ?_⟩
    have hrest : z = b' ++ rest := by
      rw [hvalue, List.append_assoc, List.append_cancel_left_eq, List.cons_append] at hy
      exact (List.cons.inj hy).2.symm
    rw [closeValue, if_pos hoccurs, hfind]
    simp [hrest]

/-! ## The statement of an entry -/

/-- The markers of the comment behind an entry. -/
def Entry.IsMarked (e : Entry) (ms : List Marker) : Prop :=
  match e.comment with
  | none => ms = []
  | some s => IsComment ms s

/-- A marker comment is somewhere in the entry, and a comment opens behind a comma of its value. -/
def CutsValue (e : Entry) (text : Text) : Prop :=
  MarkerComment.reader.occursIn text = true ∧ OpensBehindComma e.value

/-- A line comment does not stand on the line of its comma. -/
def BreaksLine (e : Entry) (text : Text) : Prop :=
  ∃ front gap s ms, text = front ++ ',' :: (gap ++ s) ∧ e.comment = some s ∧ IsLine ms s ∧
    (∀ c ∈ gap, Text.isLayout c = true) ∧ ∃ c ∈ gap, Text.isInline c = false

/-- There is only one comma that layout separates from the comment. -/
theorem breaksLine_iff {e : Entry} {gap s : Text} (hcomment : e.comment = some s)
    (hgap : ∀ c ∈ gap, Text.isLayout c = true) (front : Text) :
    BreaksLine e (front ++ ',' :: (gap ++ s)) ↔
      (∃ ms, IsLine ms s) ∧ ∃ c ∈ gap, Text.isInline c = false := by
  have hrun {gap : Text} (hgap : ∀ c ∈ gap, Text.isLayout c = true) (front : Text) :
      Text.IsRun (· != ',') gap.reverse (',' :: front.reverse) :=
    .of_not_mem (fun hc => absurd (hgap ',' (by simpa using hc)) (by decide)) _
  constructor
  · rintro ⟨front', gap', s', ms, heq, hs', hline, hgap', hbreak⟩
    cases hcomment.symm.trans hs'
    have hwhole : front ++ ',' :: gap ++ s = front' ++ ',' :: gap' ++ s := by simpa using heq
    have hreverse := congrArg List.reverse (List.append_cancel_right hwhole)
    simp only [List.reverse_append, List.reverse_cons, List.append_assoc,
      List.singleton_append] at hreverse
    obtain rfl := List.reverse_injective ((hrun hgap front).unique (hrun hgap' front') hreverse).1
    exact ⟨⟨ms, hline⟩, hbreak⟩
  · rintro ⟨⟨ms, hline⟩, hbreak⟩
    exact ⟨front, gap, s, ms, rfl, hcomment, hline, hgap, hbreak⟩

/-- A statement leaves a line comment alone that is not on its line. -/
theorem isTail_of_break {gap s : Text} {ms : List Marker}
    (hgap : ∀ c ∈ gap, Text.isLayout c = true) (hbreak : ∃ c ∈ gap, Text.isInline c = false)
    (hs : IsLine ms s) (rest : Text) : Statement.IsTail none gap (s ++ rest) := by
  have hspace : ∀ c ∈ gap, Text.isSpace c = true :=
    fun c hc => Text.isSpace_of_isLayout (hgap c hc)
  refine .space (hs.isRun hspace rest (by decide)) fun hstarts => ?_
  generalize heq : gap ++ (s ++ rest) = t at hstarts
  cases hstarts with
  | block hw' hs' => exact Statement.block_ne_line hw' hs' hgap hs heq.symm
  | @line w' s' rest' ms' hw' hs' =>
    have hlayout : ∀ c ∈ w', Text.isLayout c = true :=
      fun c hc => Text.isLayout_of_isInline (hw' c hc)
    have hrun : Text.IsRun Text.isLayout gap (s ++ rest) := hs.isRun hgap rest (by decide)
    obtain ⟨rfl, _⟩ := hrun.unique (hs'.isRun hlayout rest' (by decide)) heq
    obtain ⟨c, hc, hline⟩ := hbreak
    simp [hw' c hc] at hline

theorem exportedValue_append_of_layout {gap : Text} (hgap : ∀ c ∈ gap, Text.isLayout c = true)
    (value : Text) :
    Declaration.exportedValue (gap ++ value) = Declaration.exportedValue value := by
  have hspace : ∀ c ∈ gap, Text.isSpace c = true :=
    fun c hc => Text.isSpace_of_isLayout (hgap c hc)
  rw [Declaration.exportedValue, Text.trim_append_of_space_left hspace, Declaration.exportedValue]

theorem fields_declared_ne_nil {ms : List Marker} (h : ms ≠ []) (key value : Text) :
    (declared key value ms).fields ≠ [] := by
  rcases List.eq_nil_or_concat ms with rfl | ⟨init, m, rfl⟩
  · exact absurd rfl h
  · rw [declared, List.concat_eq_append, List.foldl_concat]
    cases init.foldl (fun fs m => Field.set m.tag (Text.unquote m.quoted) fs) [] with
    | nil => simp [Field.set]
    | cons f fs =>
      rw [Field.set]
      split <;> simp

section Wrapping

variable {key n w value : Text} (hkey : IsVariableName key n)
  (hw : ∀ c ∈ w, Text.isLayout c = true)

include hkey hw

/-- An entry in which some `;` ends the value stands for what is in front of it. -/
theorem exists_ofText?_asStatement {entry rest : Text} (hblank : Text.isBlank value = false)
    (hsemi : ';' ∉ value) (hclean : Avoids ['!', '}'] (value ++ rest))
    (hclose : closeValue entry = n ++ (w ++ ':' :: (value ++ ';' :: rest))) :
    ∃ ms, Declaration.ofText? (asStatement entry) = some (declared key value ms) := by
  obtain ⟨comment, tail, rest', htail, heq⟩ := Statement.exists_isTail (rest ++ [';'])
  obtain ⟨hvalue, hrest⟩ := avoids_append.1 hclean
  have hopen : ¬ Statement.ClosesNext (tail ++ rest') := by
    rw [← heq]
    rintro ⟨u, v, hsplit, _⟩
    have hbrace : '}' ∈ rest ++ [';'] := by simp [hsplit]
    simp [hrest.not_mem (c := '}') (by simp)] at hbrace
  have hbang : '!' ∉ value ++ ';' :: (tail ++ rest') := by
    rw [← heq]
    simp [hvalue.not_mem (c := '!') (by simp), hrest.not_mem (c := '!') (by simp)]
  have hread := ofText?_statement hkey hw hblank hsemi hopen htail hbang
  refine ⟨(comment.map Marker.collect).getD [], ?_⟩
  rw [asStatement, hclose]
  simpa [← heq] using hread

/-- An entry that cuts its value stands for a value without the `)` at the end. -/
theorem ofText?_asStatement_of_opensBehindComma {rest : Text} (henclosed : IsEnclosed value)
    (hvalue : Avoids [';', '!', '}'] value) (hrest : Avoids ['!', '}'] rest)
    (hopens : OpensBehindComma value)
    (hoccurs : MarkerComment.reader.occursIn (n ++ (w ++ ':' :: (value ++ rest))) = true) :
    ∃ cut ms, Declaration.ofText? (asStatement (n ++ (w ++ ':' :: (value ++ rest)))) =
        some (declared key cut ms) ∧
      Declaration.exportedValue cut ≠ Declaration.exportedValue value := by
  obtain ⟨a, b, rfl, hb⟩ := hopens
  obtain ⟨_, _, b, rfl⟩ := henclosed.of_comma rfl
  have hb' : MarkerComment.opensComment (Text.trimStart (b ++ [')'] ++ rest)) = true := by
    rw [List.append_assoc, List.singleton_append,
      MarkerComment.opensComment_trimStart_append_close, hb]
  obtain ⟨cut, behind, hsplit, hclose⟩ :=
    exists_closeValue (comma_not_mem_front hkey hw) (by simpa using hoccurs) hb'
  rw [hsplit] at henclosed hvalue ⊢
  rw [hsplit] at hclose
  obtain ⟨hparen, hcut, _⟩ := henclosed.of_comma rfl
  have hblank : Text.isBlank cut = false := List.all_eq_false.2 ⟨'(', hparen, by decide⟩
  simp only [avoids_append, avoids_cons] at hvalue
  obtain ⟨ms, hread⟩ := exists_ofText?_asStatement hkey hw hblank (hvalue.1.not_mem (by simp))
    (avoids_append.2 ⟨hvalue.1.mono (by decide),
      avoids_append.2 ⟨hvalue.2.2.mono (by decide), hrest⟩⟩)
    (by simpa using hclose)
  obtain ⟨_, _, behind, rfl⟩ := henclosed.of_comma rfl
  have hcount : cut.count ')' ≠ (cut ++ ',' :: (behind ++ [')'])).count ')' := by
    rw [List.count_eq_zero.2 hcut]
    exact fun hzero => List.count_eq_zero.1 hzero.symm (by simp)
  exact ⟨cut, ms, by simpa using hread,
    Declaration.exportedValue_ne (c := ')') (by decide) (by decide) hcount⟩

theorem ofText?_of_no_comment (hblank : Text.isBlank value = false)
    (hvalue : Avoids [';', '!'] value)
    (hkept : MarkerComment.reader.occursIn (n ++ (w ++ ':' :: value)) = true →
      ¬ OpensBehindComma value) :
    Declaration.ofText? (asStatement (n ++ (w ++ ':' :: value))) =
      some (declared key value []) := by
  refine ofText?_asStatement_of_closed hkey hw hblank (fun c hc => hvalue.not_mem hc)
    (closeValue_eq_self fun hoccurs => ?_)
  have hfront := opensBehindComma_append (comma_not_mem_front hkey hw) value
  simp only [List.append_assoc, List.singleton_append] at hfront
  exact mt hfront.1 (hkept hoccurs)

/-- An entry that keeps its value has the markers of its comment, unless its line is broken. -/
theorem exists_ofText?_of_comment {gap s : Text} {ms : List Marker}
    (hblank : Text.isBlank value = false) (hvalue : Avoids [';', '!'] value)
    (hcommas : ∀ a b, value = a ++ ',' :: b →
      MarkerComment.opensComment (Text.trimStart (b ++ ',' :: (gap ++ s))) = false)
    (hclean : Avoids ['!', '}'] s) (hgap : ∀ c ∈ gap, Text.isLayout c = true)
    (hs : IsComment ms s) :
    ∃ ms', Declaration.ofText? (asStatement (n ++ (w ++ ':' :: (value ++ ',' :: (gap ++ s))))) =
        some (declared key value ms') ∧
      ((declared key value ms').fields = (declared key value ms).fields ↔
        ¬ ((∃ ms, IsLine ms s) ∧ ∃ c ∈ gap, Text.isInline c = false)) := by
  have hvalue' : ∀ c ∈ [';', '!'], c ∉ value := fun c hc => hvalue.not_mem hc
  have hclean' : ∀ c ∈ ['!', '}'], c ∉ s := fun c hc => hclean.not_mem hc
  rcases hs with hs | hs
  · refine ⟨ms,
      ofText?_asStatement_of_comment hkey hw hblank hvalue' hcommas hclean' (.inl ⟨hs, hgap⟩),
      iff_of_true rfl ?_⟩
    rintro ⟨⟨ms', hline⟩, _⟩
    have hne : [] ++ (s ++ []) ≠ [] ++ (s ++ []) :=
      Statement.block_ne_line (List.forall_mem_nil _) hs (List.forall_mem_nil _) hline
    exact hne rfl
  · by_cases hinline : ∀ c ∈ gap, Text.isInline c = true
    · refine ⟨ms,
        ofText?_asStatement_of_comment hkey hw hblank hvalue' hcommas hclean' (.inr ⟨hs, hinline⟩),
        iff_of_true rfl ?_⟩
      rintro ⟨_, c, hc, hbreak⟩
      simp [hinline c hc] at hbreak
    · have hbreak : ∃ c ∈ gap, Text.isInline c = false := by simpa using hinline
      have hread := ofText?_asStatement_of_tail hkey hw hblank hvalue' hcommas hclean' hgap
        (.inr hs) (isTail_of_break hgap hbreak hs [';']) rfl
      refine ⟨[], hread, iff_of_false (fun heq => ?_) (not_not.2 ⟨⟨ms, hs⟩, hbreak⟩)⟩
      exact fields_declared_ne_nil hs.1 key value heq.symm

/-- An entry that keeps its value differs from what it says in the markers of a broken line. -/
theorem exists_ofText?_of_kept {e : Entry} {trailing rest : Text} {ms : List Marker}
    (hblank : Text.isBlank value = false) (hvalue : Avoids [';', '!'] value)
    (hcommas : ',' ∉ value ∨ IsEnclosed value) (htrailing : IsTrailing e.comment trailing rest)
    (hms : e.IsMarked ms) (hcomment : ∀ s ∈ e.comment, Avoids ['!', '}'] s)
    (hkept : MarkerComment.reader.occursIn (n ++ (w ++ ':' :: (value ++ trailing))) = true →
      ¬ OpensBehindComma value) :
    ∃ ms', Declaration.ofText? (asStatement (n ++ (w ++ ':' :: (value ++ trailing)))) =
        some (declared key value ms') ∧
      ((declared key value ms').fields = (declared key value ms).fields ↔
        ¬ BreaksLine e (n ++ (w ++ ':' :: (value ++ trailing)))) := by
  unfold Entry.IsMarked at hms
  cases hc : e.comment with
  | none =>
    simp only [hc] at hms htrailing
    cases htrailing
    subst hms
    rw [List.append_nil] at hkept ⊢
    refine ⟨[], ofText?_of_no_comment hkey hw hblank hvalue hkept, iff_of_true rfl ?_⟩
    rintro ⟨_, _, s, _, _, hs, _⟩
    simp [hc] at hs
  | some s =>
    simp only [hc] at hms htrailing
    cases htrailing with
    | @comment gap _ _ _ hgap _ =>
      have hoccurs :=
        MarkerComment.occursIn_of_isComment (n ++ (w ++ ':' :: (value ++ ',' :: gap))) hms
      simp only [List.append_assoc, List.cons_append] at hoccurs hkept ⊢
      have hcloses := fun a b heq =>
        opensComment_eq_false (a := a) (b := b) hcommas (hkept hoccurs) heq (',' :: (gap ++ s))
      obtain ⟨ms', hread, hfields⟩ :=
        exists_ofText?_of_comment hkey hw hblank hvalue hcloses (hcomment s hc) hgap hms
      have hbreaks := breaksLine_iff hc hgap (n ++ (w ++ ':' :: value))
      simp only [List.append_assoc, List.cons_append] at hbreaks
      exact ⟨ms', hread, by rw [hfields, hbreaks]⟩

end Wrapping

/-! ## The children of a value -/

theorem exists_isMarked {e : Entry} {text rest : Text} (h : IsTrailing e.comment text rest) :
    ∃ ms, e.IsMarked ms := by
  unfold Entry.IsMarked
  generalize e.comment = comment at h
  cases h with
  | comment _ hs => exact ⟨_, hs.isComment⟩
  | none _ => exact ⟨[], rfl⟩

/-- What the statement of an entry stands for, with the two ways in which it differs from what the
entry says. -/
theorem exists_ofText?_of_isEntry {e : Entry} {text rest : Text} (h : e.IsEntry text rest)
    (hblank : Text.isBlank e.value = false) (hvalue : Avoids [';', '!', '{', '}'] e.value)
    (hcomment : ∀ s ∈ e.comment, Avoids ['!', '{', '}'] s) :
    ∃ ms value ms', e.IsMarked ms ∧
      Declaration.ofText? (asStatement text) = some (declared e.key value ms') ∧
      (Declaration.exportedValue value = Declaration.exportedValue e.value ↔ ¬ CutsValue e text) ∧
      (¬ CutsValue e text →
        ((declared e.key value ms').fields = (declared e.key e.value ms).fields ↔
          ¬ BreaksLine e text)) := by
  obtain ⟨n, w, _, trailing, hkey, hw, hval, htrailing, rfl⟩ := h
  obtain ⟨gap, hgap, rfl, hcommas⟩ := hval.isEnclosed hblank
  obtain ⟨ms, hms⟩ := exists_isMarked htrailing
  have hblank' : Text.isBlank (gap ++ e.value) = false := by
    rw [Text.isBlank_append, hblank, Bool.and_false]
  have hvalue' : Avoids [';', '!', '{', '}'] (gap ++ e.value) :=
    avoids_append.2 ⟨avoids_of_class (List.all_eq_true.2 hgap) (by decide), hvalue⟩
  have hexported := exportedValue_append_of_layout hgap e.value
  have hopens : OpensBehindComma (gap ++ e.value) ↔ OpensBehindComma e.value :=
    opensBehindComma_append (fun hc => absurd (hgap ',' hc) (by decide)) _
  by_cases hcut : CutsValue e (n ++ (w ++ ':' :: (gap ++ e.value ++ trailing)))
  · have henclosed : IsEnclosed (gap ++ e.value) := by
      refine hcommas.resolve_left fun hcomma => ?_
      obtain ⟨a, b, heq, _⟩ := hopens.2 hcut.2
      simp [heq] at hcomma
    have hrest := htrailing.avoids fun s hs => (hcomment s hs).mono (by decide)
    obtain ⟨cut, ms', hread, hne⟩ := ofText?_asStatement_of_opensBehindComma hkey hw henclosed
      (hvalue'.mono (by decide)) hrest (hopens.2 hcut.2) hcut.1
    rw [hexported] at hne
    exact ⟨ms, cut, ms', hms, hread, iff_of_false hne (not_not.2 hcut), fun h => absurd hcut h⟩
  · have hkept :
        MarkerComment.reader.occursIn (n ++ (w ++ ':' :: (gap ++ e.value ++ trailing))) = true →
          ¬ OpensBehindComma (gap ++ e.value) :=
      fun hoccurs h => hcut ⟨hoccurs, hopens.1 h⟩
    have hbehind : ∀ s ∈ e.comment, Avoids ['!', '}'] s :=
      fun s hs => (hcomment s hs).mono (by decide)
    obtain ⟨ms', hread, hfields⟩ := exists_ofText?_of_kept hkey hw hblank'
      (hvalue'.mono (by decide)) hcommas htrailing hms hbehind hkept
    exact ⟨ms, gap ++ e.value, ms', hms, hread, iff_of_true hexported hcut, fun _ => hfields⟩

/-- Every entry whose value is not blank and holds no `;`, no flag and no brace becomes a
declaration of its name. The value is the one of the entry, unless a comma inside it is taken for
the one in front of the comment. Where it is, the fields are those of the markers of the comment,
unless that is a line comment behind a line break. -/
theorem exists_child_of_mem_entries {d : Declaration} {r : Reading Entry}
    (hr : r ∈ entries d.value) (hblank : Text.isBlank r.value.value = false)
    (hvalue : Avoids [';', '!', '{', '}'] r.value.value)
    (hcomment : ∀ s ∈ r.value.comment, Avoids ['!', '{', '}'] s) :
    ∃ ms child, r.value.IsMarked ms ∧
      Declaration.exported? (asStatement r.text) = some child ∧ child ∈ d.expand.entries ∧
      child.name = VariableName.exported r.value.key ∧
      (child.value = Declaration.exportedValue r.value.value ↔ ¬ CutsValue r.value r.text) ∧
      (¬ CutsValue r.value r.text →
        (child.fields = (declared r.value.key r.value.value ms).fields ↔
          ¬ BreaksLine r.value r.text)) := by
  have hentry := (Entry.read_eq_ok_iff.1 (read_of_mem_scan hr)).2
  obtain ⟨ms, value, ms', hms, hread, hkept, hfields⟩ :=
    exists_ofText?_of_isEntry hentry hblank hvalue hcomment
  have hmem : declared r.value.key value ms' ∈ Declaration.children d.value :=
    List.mem_filterMap.2 ⟨r, hr, hread⟩
  have hexported : Declaration.exported? (asStatement r.text) =
      some (declared r.value.key value ms').expand := by
    rw [Declaration.exported?, hread]
    rfl
  refine ⟨ms, _, hms, hexported, ?_, by simp [declared], by simpa [declared] using hkept,
    by simpa using hfields⟩
  rw [Declaration.expand_eq, if_neg (by simpa using List.ne_nil_of_mem hr)]
  exact List.mem_map_of_mem hmem

/-- A call with a comma inside, and a comment behind it. -/
def callValue : Text :=
  "(a: mix(1, 2), /* @sass-export-x=\"y\" */ b_c: 3)".toList

def callEntry : Reading Entry :=
  ⟨⟨"a".toList, "mix(1, 2)".toList, some "/* @sass-export-x=\"y\" */".toList⟩,
    "a: mix(1, 2), /* @sass-export-x=\"y\" */".toList, " b_c: 3)".toList⟩

theorem exists_child_of_mem_entries_call :
    callEntry ∈ entries callValue ∧ ∃ ms child, callEntry.value.IsMarked ms ∧
      child ∈ (Declaration.plain "m".toList callValue).expand.entries ∧
      child.name = "a".toList ∧ child.value = "mix(1, 2)".toList ∧
      child.fields = (declared "a".toList "mix(1, 2)".toList ms).fields := by
  have hr : callEntry ∈ entries callValue := by decide +kernel
  have hkept : ¬ CutsValue callEntry.value callEntry.text :=
    fun h => absurd h.2 (by decide +kernel)
  have hbreak : ¬ BreaksLine callEntry.value callEntry.text := by
    rintro ⟨_, _, s, ms, _, hs, ⟨_, body, _, rfl⟩, _⟩
    simp [callEntry] at hs
  obtain ⟨ms, child, hms, _, hmem, hname, hvalue, hfields⟩ :=
    exists_child_of_mem_entries (d := .plain "m".toList callValue) hr (by decide) (by decide)
      (by decide)
  exact ⟨hr, ms, child, hms, hmem, hname.trans (by decide),
    (hvalue.2 hkept).trans (by decide +kernel), (hfields hkept).2 hbreak⟩

/-- A map inside a map, with a comment behind its comma. -/
def nestedValue : Text :=
  "(b: (c: 1, /* @sass-export-x=\"y\" */ d: 2))".toList

def nestedEntry : Reading Entry :=
  ⟨⟨"b".toList, "(c: 1, /* @sass-export-x=\"y\" */ d: 2)".toList, none⟩,
    "b: (c: 1, /* @sass-export-x=\"y\" */ d: 2)".toList, ")".toList⟩

/-- A line comment behind a line break. -/
def brokenValue : Text :=
  "(a: 1,\n// @sass-export-x=\"y\"\n)".toList

def brokenEntry : Reading Entry :=
  ⟨⟨"a".toList, "1".toList, some "// @sass-export-x=\"y\"".toList⟩,
    "a: 1,\n// @sass-export-x=\"y\"".toList, "\n)".toList⟩

/-- The inner map is cut off at its comma, and the line comment is lost. -/
theorem not_exists_child_of_mem_entries :
    (nestedEntry ∈ entries nestedValue ∧
      ∀ child, Declaration.exported? (asStatement nestedEntry.text) = some child →
        child.value ≠ Declaration.exportedValue nestedEntry.value.value) ∧
    (brokenEntry ∈ entries brokenValue ∧
      Marker.collect (brokenEntry.value.comment.getD []) = [⟨"x".toList, "\"y\"".toList⟩] ∧
      ∀ child, Declaration.exported? (asStatement brokenEntry.text) = some child →
        child.fields = []) := by
  have hnested : Declaration.ofText? (asStatement nestedEntry.text) =
      some ⟨"b".toList, "(c: 1".toList, [⟨"x".toList, "y".toList⟩], none⟩ := by decide +kernel
  have hbroken : Declaration.ofText? (asStatement brokenEntry.text) =
      some ⟨"a".toList, "1".toList, [], none⟩ := by decide +kernel
  refine ⟨⟨by decide +kernel, fun child hchild => ?_⟩, by decide +kernel, by decide +kernel,
    fun child hchild => ?_⟩
  · rw [Declaration.exported?, hnested] at hchild
    cases hchild
    rw [Declaration.value_expand]
    decide +kernel
  · rw [Declaration.exported?, hbroken] at hchild
    cases hchild
    rw [Declaration.fields_expand]

end MapLiteral

end SassVars
