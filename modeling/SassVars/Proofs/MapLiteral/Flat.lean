import SassVars.Proofs.Document.Note
import SassVars.Proofs.Expansion.Nested
import SassVars.Proofs.MapLiteral.Wrapped
import SassVars.Proofs.Standalone.Whole

/-!
# Flat map literals

A map literal without maps inside is written out entry by entry, each with a comment of its own
if it has one. Expanding it gives one declaration for each entry, in their order: the scan finds
every entry where it starts and takes its comment along, and the comma that separates two entries
is in neither of them.

## Main definitions

* `MapLiteral.FlatEntry`: an entry whose value is a bare text or a call.
* `MapLiteral.literal`: a map literal of such entries.
-/

namespace SassVars

open Reader

namespace MapLiteral

open Document (Avoids avoids_cons avoids_append)
open MarkerComment (IsComment)
open Entry (IsCall IsValue IsTrailing isBareChar isCallChar)

/-! ## Flat entries -/

/-- A marker comment without flags and braces. -/
structure Remark where
  markers : List Marker
  text : Text
  isComment : IsComment markers text
  clean : ∀ m ∈ markers, Avoids ['!', '{', '}'] m.quoted

/-- A note of a document as a comment behind an entry. -/
def Remark.ofNote (n : Document.Note) : Remark where
  markers := n.labels.map Document.Label.marker
  text := n.written
  isComment := by
    cases h : n.style with
    | block => exact .inl (n.isBlock h)
    | line => exact .inr (n.isLine h)
  clean := by
    refine List.forall_mem_map.2 fun l _ => ?_
    have hliteral : Avoids ['!', '{', '}'] l.literal := l.literal_clean.mono (by decide)
    exact avoids_cons.2 ⟨by decide, avoids_append.2 ⟨hliteral, by decide⟩⟩

/-- A text, or a call. -/
inductive IsFlatValue : Text → Prop where
  | bare {v : Text} (hblank : Text.isBlank v = false)
      (hv : Avoids ['(', ')', ',', '/', ':', ';', '!', '{', '}'] v) : IsFlatValue v
  | call {f args : Text} (hne : f ≠ []) (hf : ∀ c ∈ f, isCallChar c = true) (hargs : args ≠ [])
      (hclean : Avoids [')', '/', ':', ';', '!', '{', '}'] args) :
      IsFlatValue (f ++ '(' :: (args ++ [')']))

structure FlatEntry where
  key : Text
  /-- The key with the quotes around it. -/
  quotedKey : Text
  value : Text
  remark : Option Remark
  isName : IsVariableName key quotedKey
  isFlat : IsFlatValue value

namespace FlatEntry

/-- The comment with the comma in front of it. -/
def trailing (e : FlatEntry) : Text :=
  match e.remark with
  | none => []
  | some r => ", ".toList ++ r.text

def written (e : FlatEntry) : Text :=
  e.quotedKey ++ (": ".toList ++ (e.value ++ e.trailing))

/-- What stands between the entry and the next one. Behind a comment no comma is left. -/
def separator (e : FlatEntry) : Text :=
  match e.remark with
  | none => ", ".toList
  | some _ => " ".toList

/-- What the entry stands for. -/
def declared (e : FlatEntry) : Declaration :=
  MapLiteral.declared e.key e.value ((e.remark.map Remark.markers).getD [])

end FlatEntry

def render : List FlatEntry → Text
  | [] => []
  | [e] => e.written
  | e :: e' :: es => e.written ++ (e.separator ++ render (e' :: es))

/-- A map literal. -/
def literal (es : List FlatEntry) : Text :=
  '(' :: (render es ++ [')'])

/-! ## Values -/

/-- A value is over: at a comma, at a closing parenthesis or at the end. -/
def EndsValue (t : Text) : Prop :=
  ∀ c ∈ t.head?, c = ',' ∨ c = ')'

theorem EndsValue.isRun {v t : Text} (h : EndsValue t) (hv : ∀ c ∈ v, isBareChar c = true) :
    Text.IsRun isBareChar v t := by
  refine ⟨hv, fun c hc => ?_⟩
  rcases h c hc with rfl | rfl <;> decide

/-- In front of such an end a bare text is no call. -/
theorem EndsValue.not_call {v t s u : Text} (h : EndsValue t) (hv : ∀ c ∈ v, isBareChar c = true)
    (heq : v ++ t = s ++ u) : ¬ IsCall s := by
  rintro ⟨f, args, _, hf, _, _, rfl⟩
  have hrun : Text.IsRun isBareChar f ('(' :: (args ++ ')' :: u)) :=
    .of_cons (fun c hc => Entry.isBareChar_of_class (hf c hc) (by decide)) (by decide)
  have hrest := ((h.isRun hv).unique hrun (by simpa using heq)).2
  rcases h '(' (by simp [hrest]) with h | h <;> exact absurd h (by decide)

namespace IsFlatValue

variable {v : Text} (h : IsFlatValue v)

include h

theorem not_blank : Text.isBlank v = false := by
  cases h with
  | bare hblank _ => exact hblank
  | call _ _ _ _ =>
    have hparen : Text.isSpace '(' = false := by decide
    simp [Text.isBlank, hparen]

theorem avoids : Avoids ['/', ':', ';', '!', '{', '}'] v := by
  cases h with
  | bare _ hv => exact hv.mono (by decide)
  | @call f args _ hf _ hclean =>
    have hf' : Avoids ['/', ':', ';', '!', '{', '}'] f :=
      Document.avoids_of_class (List.all_eq_true.2 hf) (by decide)
    refine avoids_append.2 ⟨hf', avoids_cons.2 ⟨by decide, ?_⟩⟩
    refine avoids_append.2 ⟨hclean.mono (by decide), ?_⟩
    decide

/-- The commas of a call have its closing parenthesis behind them. -/
theorem keepsCommas : KeepsCommas v := by
  have hslash : '/' ∉ v := fun hc => h.avoids '/' hc (by simp)
  cases h with
  | bare _ hv => exact keepsCommas_of_not_mem fun hc => hv ',' hc (by simp)
  | @call f args _ _ _ _ =>
    rw [← List.cons_append, ← List.append_assoc] at hslash ⊢
    exact keepsCommas_concat fun hc => hslash (List.mem_append_left _ hc)

/-- Up to its end the value is read, without the layout in front of it. -/
theorem isValue {t : Text} (ht : EndsValue t) :
    IsValue (v.dropWhile Text.isLayout) (' ' :: v) t := by
  have hblank := h.not_blank
  have hsplit : ' ' :: v.takeWhile Text.isLayout ++ v.dropWhile Text.isLayout = ' ' :: v := by
    rw [List.cons_append, List.takeWhile_append_dropWhile]
  have hrun : Text.IsRun Text.isLayout (' ' :: v.takeWhile Text.isLayout)
      (v.dropWhile Text.isLayout ++ t) :=
    ⟨List.forall_mem_cons.2 ⟨rfl, (Text.isRun_layout hblank t).all⟩,
      (Text.isRun_layout hblank t).stops⟩
  cases h with
  | bare _ hv =>
    have hbare : ∀ c ∈ v.dropWhile Text.isLayout, isBareChar c = true := by
      intro c hc
      have hne := hv c ((List.dropWhile_suffix Text.isLayout).subset hc)
      simp only [List.mem_cons, not_or] at hne
      simp [isBareChar, hne]
    have hne : v.dropWhile Text.isLayout ≠ [] := by
      intro hnil
      have hlayout := Text.isBlank_dropWhile_isLayout v
      rw [hnil, hblank] at hlayout
      exact absurd hlayout (by decide)
    rw [← hsplit]
    exact .bare hrun hne (ht.isRun hbare) fun s u heq => ht.not_call hbare heq
  | @call f args hne hf hargs hclean =>
    have hcall : IsCall (f ++ '(' :: (args ++ [')'])) :=
      ⟨f, args, hne, hf, hargs, fun hc => hclean ')' hc (by simp), rfl⟩
    have hnone : Text.IsRun Text.isLayout [] (f ++ '(' :: (args ++ [')']) ++ []) :=
      hcall.isRun (by simp) []
    have hdrop := hnone.dropWhile_eq
    rw [List.append_nil, List.nil_append] at hdrop
    rw [hdrop]
    exact .call (w := [' ']) (List.all_eq_true.1 rfl) hcall

end IsFlatValue

/-! ## What follows an entry -/

/-- A name starts `t`. -/
def StartsName (t : Text) : Prop :=
  ∃ c ∈ t.head?, Text.isQuote c = true ∨ Text.isIdentStart c = true

theorem startsName_append {key n : Text} (h : IsVariableName key n) (t : Text) :
    StartsName (n ++ t) := by
  obtain ⟨q₁, q₂, rfl | ⟨q, hq, rfl⟩, ⟨c, cs, rfl, hc, _⟩, _, rfl⟩ := h
  · exact ⟨c, rfl, .inr hc⟩
  · exact ⟨q, rfl, .inl hq⟩

/-- A name starts with no character of another use. -/
theorem StartsName.not_mem_head? {t : Text} (h : StartsName t) {c : Char}
    (hquote : Text.isQuote c = false) (hstart : Text.isIdentStart c = false) : c ∉ t.head? := by
  obtain ⟨d, hd, hname⟩ := h
  intro hc
  obtain rfl : c = d := Option.some.inj (hc.symm.trans hd)
  simp [hquote, hstart] at hname

theorem StartsName.isRun {w t : Text} (h : StartsName t) (hw : ∀ c ∈ w, Text.isLayout c = true) :
    Text.IsRun Text.isLayout w t := by
  refine ⟨hw, fun c hc => Bool.eq_false_iff.2 fun hlayout => ?_⟩
  simp only [Text.isLayout, Bool.or_eq_true, beq_iff_eq] at hlayout
  rcases hlayout with ((rfl | rfl) | rfl) | rfl <;>
    exact h.not_mem_head? (by decide) (by decide) hc

/-- What follows an entry without a comment: the end of the literal, or a comma and the next
entry. -/
inductive Follows : Text → Prop where
  | done : Follows []
  | close (t : Text) : Follows (')' :: t)
  | comma {t : Text} (ht : StartsName t) : Follows (',' :: ' ' :: t)

theorem Follows.endsValue {t : Text} (h : Follows t) : EndsValue t := by
  cases h with
  | done => simp [EndsValue]
  | close t => exact fun c hc => .inr (Option.some.inj hc).symm
  | comma _ => exact fun c hc => .inl (Option.some.inj hc).symm

theorem Follows.not_startsTrailing {t : Text} (h : Follows t) : ¬ Entry.StartsTrailing t := by
  rintro ⟨w, s, rest, ms, hw, hs, heq⟩
  cases h with
  | done => simp at heq
  | close t => simp at heq
  | @comma t ht =>
    have hrun : Text.IsRun Text.isLayout [' '] t := ht.isRun (List.all_eq_true.1 rfl)
    obtain ⟨_, rfl⟩ := hrun.unique (hs.isRun hw rest) (List.cons.inj heq).2
    refine ht.not_mem_head? (c := '/') (by decide) (by decide) ?_
    simp [hs.head?]

/-! ## The scan of a value -/

/-- The texts of the entries of a value. -/
def entryTexts (t : Text) : List Text :=
  (entries t).map (·.text)

/-- Expanding gives one declaration for each entry whose statement stands for one. -/
theorem expand_of_entryTexts (d : Declaration) {value : Text} (h : entryTexts value ≠ []) :
    { d with value }.expand =
      { d with
        value
        map := some ((entryTexts value).filterMap fun t =>
          Declaration.exported? (asStatement t)) } := by
  have hentries : entries value ≠ [] := fun hnil => h (by rw [entryTexts, hnil]; rfl)
  have hchildren : (Declaration.children value).map Declaration.expand =
      (entryTexts value).filterMap fun t => Declaration.exported? (asStatement t) := by
    rw [Declaration.children, List.map_filterMap, entryTexts, List.filterMap_map]
    rfl
  rw [Declaration.expand_eq, if_neg (by simpa using hentries), hchildren]
  rfl

theorem Entry.refuses_reader {c : Char} (hquote : Text.isQuote c = false)
    (hstart : Text.isIdentStart c = false) : Entry.reader.Refuses c := by
  intro t r hr
  obtain ⟨hsplit, n, w, value, trailing, hn, _, _, _, htext⟩ := Entry.read_eq_ok_iff.1 hr
  rw [htext, List.append_assoc] at hsplit
  have hname := startsName_append hn (w ++ ':' :: (value ++ trailing) ++ r.rest)
  rw [← hsplit] at hname
  exact hname.not_mem_head? hquote hstart rfl

/-- What stands between entries is skipped. -/
theorem entryTexts_append {u : Text} (hu : u ⊆ ['(', ')', ',', ' ']) (t : Text) :
    entryTexts (u ++ t) = entryTexts t := by
  have hskip : ∀ c ∈ u, Entry.reader.Refuses c := by
    intro c hc
    have hmem := hu hc
    simp only [List.mem_cons, List.not_mem_nil, or_false] at hmem
    rcases hmem with rfl | rfl | rfl | rfl <;> exact Entry.refuses_reader (by decide) (by decide)
  rw [entryTexts, entries, scan_append hskip, entryTexts, entries]

@[simp]
theorem entryTexts_nil : entryTexts [] = [] := by
  simp [entryTexts, entries, scan]

theorem entryTexts_open (t : Text) : entryTexts ('(' :: t) = entryTexts t :=
  entryTexts_append (u := ['(']) (by simp) t

theorem entryTexts_close (t : Text) : entryTexts (')' :: t) = entryTexts t :=
  entryTexts_append (u := [')']) (by simp) t

theorem entryTexts_comma (t : Text) : entryTexts (", ".toList ++ t) = entryTexts t :=
  entryTexts_append (by decide) t

/-- An entry that is read at its place comes first, and the others are found behind it. -/
theorem entryTexts_of_isEntry {e : Entry} {text rest : Text} (h : e.IsEntry text rest) :
    entryTexts (text ++ rest) = text :: entryTexts rest := by
  have hread : Entry.reader.read (text ++ rest) = .ok ⟨e, text, rest⟩ :=
    Entry.read_eq_ok_iff.2 ⟨rfl, h⟩
  have hne : text ≠ [] := by
    obtain ⟨n, w, value, trailing, _, _, _, _, rfl⟩ := h
    simp
  rw [entryTexts, entries, scan_of_read hread hne]
  rfl

/-- Every entry has a colon. -/
theorem entries_eq_nil {t : Text} (h : ':' ∉ t) : entries t = [] := by
  refine scan_of_find?_eq_none (find?_eq_none_iff.2 ?_)
  rintro u v rfl r hr
  obtain ⟨rfl, n, w, value, trailing, _, _, _, _, htext⟩ := Entry.read_eq_ok_iff.1 hr
  simp [htext] at h

/-! ## Flat entries in a literal -/

/-- Besides its literals a series of markers holds neither flags nor braces. -/
theorem avoids_of_isSeries {gap : Char → Bool} (hgap : ['!', '{', '}'].any gap = false)
    {ms : List Marker} {text : Text} (h : MarkerComment.IsSeries gap ms text)
    (hclean : ∀ m ∈ ms, Avoids ['!', '{', '}'] m.quoted) : Avoids ['!', '{', '}'] text := by
  induction h with
  | nil => exact Document.avoids_nil
  | @cons w m ms text hw hm _ ih =>
    obtain ⟨hquoted, hclean⟩ := List.forall_mem_cons.1 hclean
    have hspace : Avoids ['!', '{', '}'] w :=
      Document.avoids_of_class (List.all_eq_true.2 hw) hgap
    have htag : Avoids ['!', '{', '}'] m.tag :=
      Document.avoids_of_class (List.all_eq_true.2 hm.tag_word) (by decide)
    simp only [Marker.written, avoids_append, avoids_cons]
    exact ⟨hspace, ⟨by decide, htag, by decide, hquoted⟩, ih hclean⟩

theorem Remark.avoids (r : Remark) : Avoids ['!', '{', '}'] r.text := by
  rcases r.isComment with ⟨body, w, hseries, hw, htext⟩ | ⟨_, body, hseries, htext⟩
  · have hspace : Avoids ['!', '{', '}'] w :=
      Document.avoids_of_class (List.all_eq_true.2 hw) (by decide)
    have hbody := avoids_of_isSeries (by decide) hseries r.clean
    simp only [htext, avoids_append]
    exact ⟨by decide, hbody, hspace, by decide⟩
  · have hbody := avoids_of_isSeries (by decide) hseries r.clean
    rw [htext]
    exact avoids_append.2 ⟨by decide, hbody⟩

namespace FlatEntry

/-- What the entry is read as. -/
def entry (e : FlatEntry) : Entry :=
  ⟨e.key, e.value.dropWhile Text.isLayout, e.remark.map Remark.text⟩

/-- What may follow the entry. -/
def IsFollowedBy (e : FlatEntry) (rest : Text) : Prop :=
  match e.remark with
  | none => Follows rest
  | some _ => ¬ Marker.StartsBehind Text.isInline rest

theorem isEntry (e : FlatEntry) {rest : Text} (h : e.IsFollowedBy rest) :
    e.entry.IsEntry e.written rest := by
  have hblank : ∀ c ∈ [' '], Text.isLayout c = true := List.all_eq_true.1 rfl
  have htrailing : IsTrailing e.entry.comment e.trailing rest ∧ EndsValue (e.trailing ++ rest) := by
    unfold IsFollowedBy at h
    unfold entry trailing
    cases hremark : e.remark with
    | none =>
      simp only [hremark] at h
      exact ⟨.none h.not_startsTrailing, h.endsValue⟩
    | some r =>
      simp only [hremark] at h
      refine ⟨.comment (w := [' ']) hblank (r.isComment.imp_right fun hline => ⟨hline, h⟩), ?_⟩
      exact fun c hc => .inl (Option.some.inj hc).symm
  exact ⟨e.quotedKey, [], ' ' :: e.value, e.trailing, e.isName, by simp,
    e.isFlat.isValue htrailing.2, htrailing.1, rfl⟩

/-- The statement of an entry stands for what the entry says. -/
theorem ofText?_asStatement (e : FlatEntry) :
    Declaration.ofText? (asStatement e.written) = some e.declared := by
  have hvalue : Avoids [';', '!', '/'] (' ' :: e.value) :=
    avoids_cons.2 ⟨by decide, e.isFlat.avoids.mono (by decide)⟩
  have hblank : Text.isBlank (' ' :: e.value) = false := by
    rw [← List.singleton_append, Text.isBlank_append, e.isFlat.not_blank, Bool.and_false]
  have hmarkers (ms : List Marker) :
      MapLiteral.declared e.key (' ' :: e.value) ms = MapLiteral.declared e.key e.value ms := by
    rw [MapLiteral.declared, Declaration.exportedValue_cons_blank, MapLiteral.declared]
  cases hremark : e.remark with
  | none =>
    have hread := MapLiteral.ofText?_asStatement e.isName (w := []) (by simp) hblank
      fun c hc => hvalue.not_mem hc
    simpa [written, trailing, declared, hremark, hmarkers] using hread
  | some r =>
    have hcommas : KeepsCommas (' ' :: e.value) :=
      e.isFlat.keepsCommas.append (u := [' ']) (by simp)
    have hgap : ∀ c ∈ [' '], Text.isInline c = true := List.all_eq_true.1 rfl
    have hread := ofText?_asStatement_of_comment e.isName (w := []) (by simp) hblank
      (fun c hc => (hvalue.mono (by decide)).not_mem hc)
      (fun a b heq => hcommas.not_opensComment heq _)
      (fun c hc => (r.avoids.mono (by decide)).not_mem hc)
      (r.isComment.imp (⟨·, List.all_eq_true.1 rfl⟩) (⟨·, hgap⟩))
    simpa [written, trailing, declared, hremark, hmarkers] using hread

theorem isFollowedBy_separator (e : FlatEntry) {t : Text} (ht : StartsName t) :
    e.IsFollowedBy (e.separator ++ t) := by
  unfold IsFollowedBy separator
  cases e.remark with
  | none => exact .comma ht
  | some r =>
    refine Marker.not_startsBehind (w := [' ']) rfl (List.all_eq_true.1 rfl) fun c hc => ?_
    refine ⟨Bool.eq_false_iff.2 fun hinline => ?_, ?_⟩
    · have hrun : Text.IsRun Text.isLayout [] t := ht.isRun (by simp)
      have hlayout := Text.isLayout_of_isInline hinline
      rw [hrun.stops c hc] at hlayout
      contradiction
    · rintro rfl
      exact ht.not_mem_head? (by decide) (by decide) hc

theorem isFollowedBy_close (e : FlatEntry) (t : Text) : e.IsFollowedBy (')' :: t) := by
  unfold IsFollowedBy
  cases e.remark with
  | none => exact .close t
  | some r => exact Marker.not_startsBehind (w := []) rfl (by simp) (by simp; decide)

end FlatEntry

theorem startsName_render (e : FlatEntry) (es : List FlatEntry) (t : Text) :
    StartsName (render (e :: es) ++ t) := by
  cases es <;> simpa [render, FlatEntry.written] using startsName_append e.isName _

/-- The entries of a literal are found one by one, each with its comment. -/
theorem entryTexts_render (e : FlatEntry) (es : List FlatEntry) (t : Text) :
    entryTexts (render (e :: es) ++ ')' :: t) =
      (e :: es).map FlatEntry.written ++ entryTexts t := by
  induction es generalizing e with
  | nil =>
    rw [render, entryTexts_of_isEntry (e.isEntry (e.isFollowedBy_close t)), entryTexts_close]
    rfl
  | cons e' es ih =>
    have hnext := e.isEntry (e.isFollowedBy_separator (startsName_render e' es (')' :: t)))
    have hskip : e.separator ⊆ ['(', ')', ',', ' '] := by
      unfold FlatEntry.separator
      split <;> decide
    rw [render, List.append_assoc, List.append_assoc, entryTexts_of_isEntry hnext,
      entryTexts_append hskip, ih e']
    rfl

theorem entryTexts_literal (e : FlatEntry) (es : List FlatEntry) :
    entryTexts (literal (e :: es)) = (e :: es).map FlatEntry.written := by
  rw [literal, entryTexts_open, entryTexts_render, entryTexts_nil, List.append_nil]

/-! ## Expansion -/

/-- A value without a colon has no entries. -/
theorem expand_of_not_mem {d : Declaration} (h : ':' ∉ d.value) : d.expand = d := by
  rw [Declaration.expand_eq, entries_eq_nil h]
  rfl

theorem FlatEntry.exported?_asStatement (e : FlatEntry) :
    Declaration.exported? (asStatement e.written) = some e.declared := by
  have hcolon : ':' ∉ e.declared.value := by
    have hcount := Declaration.count_exportedValue (c := ':') (by decide) (by decide) e.value
    rw [List.count_eq_zero.2 fun hc => e.isFlat.avoids ':' hc (by simp)] at hcount
    exact List.count_eq_zero.1 hcount
  rw [Declaration.exported?, e.ofText?_asStatement, Option.map_some, expand_of_not_mem hcolon]

/-- Expanding a literal gives one declaration for each of its entries, in their order, and changes
nothing else. -/
theorem expand_literal (d : Declaration) (e : FlatEntry) (es : List FlatEntry) :
    { d with value := literal (e :: es) }.expand =
      { d with
        value := literal (e :: es)
        map := some ((e :: es).map FlatEntry.declared) } := by
  have htexts := entryTexts_literal e es
  have hexported : ((e :: es).map FlatEntry.written).filterMap
      (fun t => Declaration.exported? (asStatement t)) = (e :: es).map FlatEntry.declared := by
    rw [List.filterMap_map, List.filterMap_eq_map_iff_forall_eq_some]
    exact fun e _ => e.exported?_asStatement
  rw [expand_of_entryTexts d (by simp [htexts]), htexts, hexported]

/-- A call under a quoted key, with a comment behind it. -/
def callSample : FlatEntry where
  key := "brand_main".toList
  quotedKey := "'brand_main'".toList
  value := "darken(red, 10%)".toList
  remark := some (.ofNote ⟨.block,
    [⟨"note".toList, "50%".toList, by decide, by decide, by decide, by decide, by decide,
      by decide⟩],
    by simp⟩)
  isName := ⟨['\''], ['\''], .inr ⟨'\'', rfl, rfl⟩,
    ⟨'b', "rand_main".toList, rfl, rfl, List.all_eq_true.1 rfl⟩, .inr ⟨'\'', rfl, rfl⟩, rfl⟩
  isFlat := @IsFlatValue.call "darken".toList "red, 10%".toList (by decide)
    (List.all_eq_true.1 rfl) (by decide) (by decide)

def bareSample : FlatEntry where
  key := "gap".toList
  quotedKey := "gap".toList
  value := "4px".toList
  remark := none
  isName := IsIdentifier.isVariableName ⟨'g', "ap".toList, rfl, rfl, List.all_eq_true.1 rfl⟩
  isFlat := .bare rfl (by decide)

/-- The two entries as a literal. -/
def literalSample : Text :=
  "('brand_main': darken(red, 10%), /* @sass-export-note=\"50%\" */ gap: 4px)".toList

/-- The call keeps its comma and takes its comment along. -/
theorem expand_literal_sample :
    (Declaration.plain "m".toList literalSample).expand =
      (Declaration.plain "m".toList literalSample).withMap
        [⟨"brand-main".toList, "darken(red, 10%)".toList, [⟨"note".toList, "50%".toList⟩], none⟩,
          .plain "gap".toList "4px".toList] := by
  have hexpand := expand_literal (.plain "m".toList literalSample) callSample [bareSample]
  have hliteral : literal [callSample, bareSample] = literalSample := rfl
  have hdeclared : [callSample, bareSample].map FlatEntry.declared =
      [⟨"brand-main".toList, "darken(red, 10%)".toList, [⟨"note".toList, "50%".toList⟩], none⟩,
        .plain "gap".toList "4px".toList] := by decide +kernel
  rwa [hdeclared, hliteral] at hexpand

end MapLiteral

end SassVars
