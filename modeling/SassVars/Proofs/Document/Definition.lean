import SassVars.Proofs.Document.Note
import SassVars.Proofs.Expansion.WellFormed
import SassVars.Proofs.Standalone.Division

/-!
# Reading a definition back

A written definition is one statement. Its text runs through the note, or through the end of
the line when there is none, and it stands for the declaration of the definition wherever it
is read.

## Main definitions

* `Document.StartsItem`: where an item may start.
* `Document.Definition.text`: the text of the statement of a definition.
-/

namespace SassVars

open Reader

namespace Document

/-! ## What follows a definition -/

/-- A place where an item may start, or the end of the document. -/
inductive StartsItem : Text → Prop where
  | done : StartsItem []
  | comment (t : Text) : StartsItem ('/' :: '/' :: t)
  | definition (t : Text) : StartsItem ('$' :: t)

/-- No class of space reaches into an item. -/
theorem StartsItem.isRun {gap : Char → Bool} {w rest : Text} (h : StartsItem rest)
    (hw : ∀ c ∈ w, gap c = true) (hslash : gap '/' = false) (hdollar : gap '$' = false) :
    Text.IsRun gap w rest := by
  cases h with
  | done => exact ⟨hw, by simp⟩
  | comment t => exact .of_cons hw hslash
  | definition t => exact .of_cons hw hdollar

theorem StartsItem.not_block {s rest : Text} {ms : List Marker} (h : StartsItem (s ++ rest)) :
    ¬ MarkerComment.IsBlock ms s := by
  intro hs
  obtain ⟨body, w, _, _, rfl⟩ := hs
  cases h

/-- Behind a definition without a note, no comment is taken for one. The line break keeps a
line comment away, and no item starts with a block comment. -/
theorem not_startsWithComment_newline {rest : Text} (h : StartsItem rest) :
    ¬ Statement.StartsWithComment ('\n' :: rest) := by
  intro hcomment
  generalize ht : '\n' :: rest = t at hcomment
  cases hcomment with
  | @block w s rest' ms hw hs =>
    have hrun : Text.IsRun Text.isLayout ['\n'] rest :=
      h.isRun (List.all_eq_true.1 rfl) (by decide) (by decide)
    have heq := (hrun.unique (hs.isRun hw rest' (by decide)) ht).2
    rw [heq] at h
    exact h.not_block hs
  | @line w s rest' ms hw hs =>
    have hrun : Text.IsRun Text.isInline [] ('\n' :: rest) := .of_cons (by simp) (by decide)
    have heq := (hrun.unique (hs.isRun hw rest' (by decide)) ht).2
    obtain ⟨_, body, _, rfl⟩ := hs
    have hhead : some '\n' = some '/' := congrArg List.head? heq
    exact absurd hhead (by decide)

theorem isTail_newline {rest : Text} (h : StartsItem rest) :
    Statement.IsTail none ['\n'] rest := by
  refine .space ?_ (not_startsWithComment_newline h)
  exact h.isRun (List.all_eq_true.1 rfl) (by decide) (by decide)

theorem not_closesNext_of_avoids {t : Text} (h : Avoids ['{', '}'] t) :
    ¬ Statement.ClosesNext t := by
  refine Statement.not_closesNext_of_no_brace fun c hc => ?_
  have hne := h c hc
  simp only [List.mem_cons, List.not_mem_nil, or_false, not_or] at hne
  simp [Text.isBrace, hne]

namespace Definition

/-! ## The text of a definition -/

/-- What a statement takes behind the `;` of a definition. -/
def tail (d : Definition) : Text :=
  match d.note with
  | none => ['\n']
  | some n => ' ' :: n.written

/-- What a statement leaves of the line of a definition. -/
def left (d : Definition) : Text :=
  match d.note with
  | none => []
  | some _ => ['\n']

theorem isTail (d : Definition) {rest : Text} (h : StartsItem rest) :
    Statement.IsTail (d.note.map Note.written) d.tail (d.left ++ rest) := by
  cases hnote : d.note with
  | none => simpa [tail, left, hnote] using isTail_newline h
  | some n =>
    have hn : Statement.IsTail (some n.written) (' ' :: n.written) ('\n' :: rest) :=
      n.isTail (by simp; decide)
    simpa [tail, left, hnote] using hn

/-- The tail is the same where the text of the statement stands alone. -/
theorem isTail_alone (d : Definition) :
    Statement.IsTail (d.note.map Note.written) d.tail [] :=
  (d.isTail .done).alone

/-- The value as it is written, with the flag behind it. -/
def flagged (d : Definition) : Text :=
  d.value ++ (d.flag.map Flag.written).getD []

/-- The text of the statement of a definition. -/
def text (d : Definition) : Text :=
  '$' :: (d.name ++ (": ".toList ++ (d.flagged ++ ';' :: d.tail)))

theorem written_append (d : Definition) (rest : Text) :
    d.written ++ '\n' :: rest = d.text ++ (d.left ++ rest) := by
  cases hnote : d.note <;> simp [written, text, flagged, tail, left, hnote]

/-! ## Characters that a definition avoids -/

theorem avoids_name (d : Definition) : Avoids [';', '{', '}', '@', '!'] d.name :=
  avoids_of_class d.name_identifier.all (by decide)

theorem avoids_tail (d : Definition) : Avoids ['{', '}', '!'] d.tail := by
  unfold tail
  split
  · decide
  · exact avoids_cons.2 ⟨by decide, Note.avoids_written _⟩

theorem avoids_left (d : Definition) : Avoids ['{', '}', '$', '@'] d.left := by
  unfold left
  split <;> decide

theorem avoids_flagged (d : Definition) : Avoids [';', '{', '}', '@'] d.flagged := by
  refine avoids_append.2 ⟨d.value_clean.mono (by decide), ?_⟩
  cases d.flag with
  | none => exact avoids_nil
  | some f => cases f <;> decide

/-- In front of its tail a definition has no `@`. -/
theorem avoids_front (d : Definition) :
    Avoids ['@'] ('$' :: (d.name ++ (": ".toList ++ (d.flagged ++ [';'])))) := by
  simp only [avoids_cons, avoids_append]
  exact ⟨by decide, d.avoids_name.mono (by decide), by decide,
    d.avoids_flagged.mono (by decide), by decide, avoids_nil⟩

theorem avoids_text (d : Definition) : Avoids ['{', '}'] d.text := by
  simp only [text, avoids_cons, avoids_append]
  exact ⟨by decide, d.avoids_name.mono (by decide), by decide,
    d.avoids_flagged.mono (by decide), by decide, d.avoids_tail.mono (by decide)⟩

/-! ## The statement of a definition -/

/-- In a document the statement of a definition is read up to its tail. -/
theorem read_text (d : Definition) {rest : Text} (hstart : StartsItem rest)
    (hrest : Avoids ['{', '}'] rest) :
    Statement.reader.read (d.text ++ (d.left ++ rest)) =
      .ok ⟨⟨d.name, d.flagged.dropWhile Text.isLayout, d.note.map Note.written⟩, d.text,
        d.left ++ rest⟩ := by
  have hopen : ¬ Statement.ClosesNext (d.tail ++ (d.left ++ rest)) :=
    not_closesNext_of_avoids
      (avoids_append.2 ⟨d.avoids_tail.mono (by decide),
        avoids_append.2 ⟨d.avoids_left.mono (by decide), hrest⟩⟩)
  have hblank : Text.isBlank d.flagged = false := by
    rw [flagged, Text.isBlank_append, d.value_not_blank, Bool.false_and]
  have hvalue : ';' ∉ d.flagged := d.avoids_flagged.not_mem (by simp)
  have hread := Statement.read_of_plain d.name_identifier hvalue hblank hopen (d.isTail hstart)
  simpa [text] using hread

/-! ## The token of a definition -/

end Definition

end Document

/-- A statement counts as a declaration when no section marker is found in it. -/
theorem Token.classify_eq_declaration {t : Text}
    (hstart : SectionMarker.embeddedStart.find? t = none)
    (hstop : (literalAnyCase SectionMarker.endText).find? t = none) :
    Token.classify t = .declaration t := by
  have hcontains : SectionMarker.containsStop t = false := by
    rw [SectionMarker.containsStop, occursIn, hstop]
    rfl
  rw [Token.classify, SectionMarker.findStart?, hstart, hcontains]
  rfl

namespace Document

namespace Definition

section Find

variable {α : Type} {p : Reader α} (hp : ∀ c, c ≠ '@' → p.Refuses c) (hnil : p.find? [] = none)
  (hlabel : ∀ (l : Label) (t : Text) (r : Reading α), p.read (l.written ++ t) ≠ .ok r)

include hp hnil hlabel

/-- What labels do not start is nowhere in the text of a definition. -/
theorem find?_text (d : Definition) : p.find? d.text = none := by
  have hsplit : d.text =
      ('$' :: (d.name ++ (": ".toList ++ (d.flagged ++ [';'])))) ++ d.tail := by
    simp only [Definition.text, List.cons_append, List.append_assoc, List.nil_append]
  rw [hsplit]
  refine find?_eq_none_of_avoids hp d.avoids_front ?_
  unfold Definition.tail
  split
  · have hnewline := find?_eq_none_of_avoids (u := ['\n']) hp (by decide) hnil
    rwa [List.append_nil] at hnewline
  · exact find?_note hp hnil hlabel _

end Find

theorem classify_text (d : Definition) :
    Token.classify d.text = .declaration d.text :=
  Token.classify_eq_declaration
    (find?_text (fun _ h => (refuses_literalAnyCase h (by decide)).bind _) rfl
      Label.not_embeddedStart d)
    (find?_text (fun _ h => refuses_literalAnyCase h (by decide)) rfl Label.not_embeddedStop d)

end Definition

/-! ## The declaration of a definition -/

/-- A flag without the blank and the `!` in front of it. -/
def Flag.word : Flag → Text
  | .default => Statement.defaultFlag
  | .global => Statement.globalFlag

theorem Flag.written_eq (f : Flag) : f.written = ' ' :: '!' :: f.word := by
  cases f <;> rfl

theorem Flag.isFlag_word (f : Flag) : Statement.IsFlag f.word := by
  cases f
  · exact .inl rfl
  · exact .inr rfl

namespace Definition

/-- The value that is left when the flag is gone. -/
def bare (d : Definition) : Text :=
  match d.flag with
  | none => d.value
  | some _ => Text.trimEnd d.value

/-- Only the flag and the space in front of it are cut out, unless the text behind the `;` has a
flag of its own. -/
theorem withoutFlag_flagged (d : Definition) {z : Text}
    (hz : d.flag = none → Declaration.withoutFlag z = z) :
    Declaration.withoutFlag ('$' :: (d.name ++ (": ".toList ++ (d.flagged ++ ';' :: z)))) =
      '$' :: (d.name ++ (": ".toList ++ (d.bare ++ ';' :: z))) := by
  have hvalue : Avoids [';'] d.value := d.value_clean.mono (by decide)
  cases hflag : d.flag with
  | none =>
    have hclean : Avoids ['!', ';'] ('$' :: (d.name ++ (": ".toList ++ d.value))) := by
      simp only [avoids_cons, avoids_append]
      exact ⟨by decide, d.avoids_name.mono (by decide), by decide, d.value_clean.mono (by decide)⟩
    have hends : ¬ Declaration.EndsInFlag ('$' :: (d.name ++ (": ".toList ++ d.value))) :=
      fun hends => hclean '!' hends.bang_mem (by simp)
    have hsemi : ';' ∉ '$' :: (d.name ++ (": ".toList ++ d.value)) :=
      fun hmem => hclean ';' hmem (by simp)
    have hwithout := Declaration.withoutFlag_of_not_flag hsemi hends z
    rw [hz hflag] at hwithout
    simpa only [flagged, bare, hflag, Option.map_none, Option.getD_none, List.append_nil,
      List.cons_append, List.append_assoc] using hwithout
  | some f =>
    have htext : '$' :: (d.name ++ (": ".toList ++ (d.flagged ++ ';' :: z))) =
        ('$' :: (d.name ++ ": ".toList) ++ (d.value ++ [' '])) ++
          '!' :: (f.word ++ []) ++ ';' :: z := by
      simp only [flagged, hflag, Option.map_some, Option.getD_some, f.written_eq,
        List.append_assoc, List.cons_append, List.nil_append]
    have hclean : Avoids [';'] ('$' :: (d.name ++ ": ".toList) ++ (d.value ++ [' '])) := by
      simp only [avoids_cons, avoids_append]
      exact ⟨⟨by decide, d.avoids_name.mono (by decide), by decide⟩, hvalue, by decide, avoids_nil⟩
    have hblank : Text.isBlank (d.value ++ [' ']) = false := by
      rw [Text.isBlank_append, d.value_not_blank, Bool.false_and]
    rw [htext, Declaration.withoutFlag_of_flag (fun hsemi => hclean ';' hsemi (by simp))
      f.isFlag_word (by simp), Text.trimEnd_append hblank,
      Text.trimEnd_append_of_space (List.all_eq_true.1 rfl)]
    simp only [bare, hflag, List.append_assoc, List.cons_append]

theorem withoutFlag_text (d : Definition) : Declaration.withoutFlag d.text =
    '$' :: (d.name ++ (": ".toList ++ (d.bare ++ ';' :: d.tail))) :=
  d.withoutFlag_flagged fun _ =>
    Declaration.withoutFlag_of_not_mem fun hbang => d.avoids_tail '!' hbang (by simp)

theorem isBlank_bare (d : Definition) : Text.isBlank d.bare = false := by
  unfold bare
  split
  · exact d.value_not_blank
  · rw [Text.isBlank_trimEnd, d.value_not_blank]

theorem avoids_bare (d : Definition) : Avoids [';'] d.bare := by
  have hvalue : Avoids [';'] d.value := d.value_clean.mono (by decide)
  unfold bare
  split
  · exact hvalue
  · obtain ⟨w, hw, _⟩ := (Text.trimEnd_spec d.value).1
    rw [hw] at hvalue
    exact (avoids_append.1 hvalue).1

/-- Neither the flag nor the space around a value shows in its exported form. -/
theorem exportedValue_bare (d : Definition) :
    Declaration.exportedValue (d.bare.dropWhile Text.isLayout) =
      Declaration.exportedValue d.value := by
  have htrim : Text.trim d.bare = Text.trim d.value := by
    unfold bare
    split
    · rfl
    · exact Text.trim_trimEnd d.value_not_blank
  rw [Declaration.exportedValue_dropWhile_isLayout, Declaration.exportedValue, htrim,
    Declaration.exportedValue]

/-- The text of a definition, read on its own, gives the declaration back. -/
theorem ofText?_text (d : Definition) : Declaration.ofText? d.text = some d.declared := by
  have hvalue : ';' ∉ d.bare := d.avoids_bare.not_mem (by simp)
  have hopen : ¬ Statement.ClosesNext (d.tail ++ []) := by
    rw [List.append_nil]
    exact not_closesNext_of_avoids (d.avoids_tail.mono (by decide))
  have hread := Statement.read_of_plain d.name_identifier hvalue d.isBlank_bare hopen
    d.isTail_alone
  rw [List.append_nil] at hread
  have hmarkers : ((d.note.map Note.written).map Marker.collect).getD [] =
      ((d.note.map Note.labels).getD []).map Label.marker := by
    cases d.note with
    | none => rfl
    | some n => exact n.collect_written
  rw [Declaration.ofText?, withoutFlag_text, Statement.find?, find?_of_read hread]
  simp only [Option.map_some, Declaration.ofStatement, exportedValue_bare, hmarkers,
    attach_markers, declared]

end Definition

end Document

end SassVars
