import SassVars.Proofs.MapLiteral.Flat

/-!
# Maps inside maps

A map literal can hold maps at any depth. A group in parentheses ends at the first `)`, so an entry
that is a map has the text up to the first `)` for its value, and the entries up to there are
inside it. Whatever stands behind that `)` is found as well, but in the outermost map: it spills
over.

No entry is lost and none changes its place in the text. The maps come out as they were written
exactly when no map inside holds another one, for then the first `)` is its own.

## Main definitions

* `MapLiteral.Tree`: a map of any depth, `Tree.written` its literal and `Tree.declared` what it
  says.
* `MapLiteral.Tree.inside`, `MapLiteral.Tree.spill`: the entries up to the first `)` and those
  behind it, as expansion nests them.
-/

namespace SassVars

open Reader

namespace MapLiteral

open Declaration (plain nestedList)
open Document (Avoids avoids_cons avoids_append)
open Entry (IsValue)

/-! ## Trees -/

/-- A key that is exported under its own name. -/
structure Key where
  name : Text
  isIdentifier : IsIdentifier name
  no_underscore : '_' ∉ name

def isLeafChar (c : Char) : Bool :=
  c.isAlphanum || c == '.' || c == '%' || c == '#'

structure Leaf where
  text : Text
  ne_nil : text ≠ []
  isLeaf : ∀ c ∈ text, isLeafChar c = true

/-- A map with its entries in a row. It has at least one. -/
inductive Tree where
  | leaf (key : Key) (value : Leaf)
  | node (key : Key) (inner : Tree)
  | leafThen (key : Key) (value : Leaf) (rest : Tree)
  | nodeThen (key : Key) (inner rest : Tree)

/-- An entry as it is written. -/
def entryText (name value : Text) : Text :=
  name ++ (": ".toList ++ value)

namespace Tree

/-- The entries without the parentheses around them. -/
def body : Tree → Text
  | leaf k v => entryText k.name v.text
  | node k i => entryText k.name ('(' :: (i.body ++ [')']))
  | leafThen k v r => entryText k.name v.text ++ (", ".toList ++ r.body)
  | nodeThen k i r => entryText k.name ('(' :: (i.body ++ [')'])) ++ (", ".toList ++ r.body)

/-- The map as a literal. -/
def written (t : Tree) : Text :=
  '(' :: (t.body ++ [')'])

/-- The entries of the map, with those of the maps inside. -/
def declared : Tree → List Declaration
  | leaf k v => [plain k.name v.text]
  | node k i => [(plain k.name i.written).withMap i.declared]
  | leafThen k v r => plain k.name v.text :: r.declared
  | nodeThen k i r => (plain k.name i.written).withMap i.declared :: r.declared

/-- A map without maps. -/
def IsFlat : Tree → Prop
  | leaf _ _ => True
  | node _ _ => False
  | leafThen _ _ r => r.IsFlat
  | nodeThen _ _ _ => False

/-- A map in which no map holds another one. -/
def IsShallow : Tree → Prop
  | leaf _ _ => True
  | node _ i => i.IsFlat
  | leafThen _ _ r => r.IsShallow
  | nodeThen _ i r => i.IsFlat ∧ r.IsShallow

/-! ## Cut at the first `)` -/

/-- The body up to the first `)`. -/
def head : Tree → Text
  | leaf k v => entryText k.name v.text
  | node k i => entryText k.name ('(' :: i.head)
  | leafThen k v r => entryText k.name v.text ++ (", ".toList ++ r.head)
  | nodeThen k i _ => entryText k.name ('(' :: i.head)

/-- The text behind that `)`. -/
def behind : Tree → Text
  | leaf _ _ => []
  | node _ i => i.behind ++ [')']
  | leafThen _ _ r => r.behind
  | nodeThen _ i r => i.behind ++ (", ".toList ++ (r.body ++ [')']))

/-- What is taken for the whole map when it is a value. -/
def group (t : Tree) : Text :=
  '(' :: (t.head ++ [')'])

/-- The entries up to the first `)`. The maps among them end there too. -/
def inside : Tree → List Declaration
  | leaf k v => [plain k.name v.text]
  | node k i => [(plain k.name i.group).withMap i.inside]
  | leafThen k v r => plain k.name v.text :: r.inside
  | nodeThen k i _ => [(plain k.name i.group).withMap i.inside]

/-- The entries behind the first `)`. -/
def spill : Tree → List Declaration
  | leaf _ _ => []
  | node _ i => i.spill
  | leafThen _ _ r => r.spill
  | nodeThen _ i r => i.spill ++ (r.inside ++ r.spill)

theorem body_concat (t : Tree) : t.body ++ [')'] = t.head ++ ')' :: t.behind := by
  induction t with
  | leaf k v => rfl
  | node k i ih => simp [body, head, behind, entryText, ih]
  | leafThen k v r ih => simp [body, head, behind, ih]
  | nodeThen k i r ih _ => simp [body, head, behind, entryText, ih]

theorem written_eq (t : Tree) : t.written = t.group ++ t.behind := by
  simp [written, group, body_concat]

theorem avoids_head (t : Tree) : Avoids ['\n', ';', '!', '/', ')'] t.head := by
  have hentry (k : Key) {v : Text} (hv : Avoids ['\n', ';', '!', '/', ')'] v) :
      Avoids ['\n', ';', '!', '/', ')'] (entryText k.name v) := by
    have hname : Avoids ['\n', ';', '!', '/', ')'] k.name :=
      Document.avoids_of_class k.isIdentifier.all (by decide)
    exact avoids_append.2 ⟨hname, avoids_append.2 ⟨by decide, hv⟩⟩
  have hleaf (v : Leaf) : Avoids ['\n', ';', '!', '/', ')'] v.text :=
    Document.avoids_of_class (List.all_eq_true.2 v.isLeaf) (by decide)
  induction t with
  | leaf k v => exact hentry k (hleaf v)
  | node k i ih => exact hentry k (avoids_cons.2 ⟨by decide, ih⟩)
  | leafThen k v r ih =>
    exact avoids_append.2 ⟨hentry k (hleaf v), avoids_append.2 ⟨by decide, ih⟩⟩
  | nodeThen k i r ih _ => exact hentry k (avoids_cons.2 ⟨by decide, ih⟩)

theorem startsName_entryText (k : Key) (v t : Text) : StartsName (entryText k.name v ++ t) := by
  rw [entryText, List.append_assoc]
  exact startsName_append k.isIdentifier.isVariableName _

theorem startsName_head (t : Tree) (z : Text) : StartsName (t.head ++ z) := by
  cases t with
  | leaf k v => exact startsName_entryText k _ z
  | node k i => exact startsName_entryText k _ z
  | leafThen k v r => simpa [head] using startsName_entryText k v.text (", ".toList ++ r.head ++ z)
  | nodeThen k i r => exact startsName_entryText k _ z

end Tree

/-! ## Entries one by one -/

theorem isSpace_of_isLeafChar {c : Char} (h : isLeafChar c = true) : Text.isSpace c = false := by
  simp only [isLeafChar, Bool.or_eq_true, beq_iff_eq] at h
  rcases h with ((h | rfl) | rfl) | rfl
  · have hclass : (decide (65 ≤ c.val ∧ c.val ≤ 90) ||
        (decide (97 ≤ c.val) && decide (c.val ≤ 122)) ||
        (decide (48 ≤ c.val) && decide (c.val ≤ 57))) = true := h
    simp only [Bool.or_eq_true, Bool.and_eq_true, decide_eq_true_eq, UInt32.le_iff_toNat_le,
      UInt32.reduceToNat] at hclass
    refine Bool.eq_false_iff.2 fun hspace => ?_
    simp only [Text.isSpace, Char.toNat, Bool.or_eq_true, Bool.and_eq_true, decide_eq_true_eq,
      beq_iff_eq] at hspace
    omega
  all_goals decide

/-- An entry is read as it stands, with the value behind a space. -/
theorem entryTexts_entryText (k : Key) {value v rest : Text} (hv : IsValue v (' ' :: value) rest)
    (hrest : Follows rest) :
    entryTexts (entryText k.name value ++ rest) = entryText k.name value :: entryTexts rest := by
  have hentry : (⟨k.name, v, none⟩ : Entry).IsEntry (entryText k.name value) rest :=
    ⟨k.name, [], ' ' :: value, [], k.isIdentifier.isVariableName, by simp, hv,
      .none hrest.not_startsTrailing, by simp [entryText]⟩
  exact entryTexts_of_isEntry hentry

/-- The statement of an entry stands for its key and its value, both unchanged. -/
theorem ofText?_entryText (k : Key) {value : Text} (hclean : Avoids ['\n', ';', '!', '/'] value)
    (hhead : ∃ c ∈ value.head?, Text.isSpace c = false ∧ Text.isQuote c = false)
    (hlast : ∀ c ∈ value.getLast?, Text.isSpace c = false) :
    Declaration.ofText? (asStatement (entryText k.name value)) = some (plain k.name value) := by
  obtain ⟨c, hc, hspace, hquote⟩ := hhead
  have hfirst : ∀ d ∈ value.head?, d = c := fun d hd => Option.some.inj (hd.symm.trans hc)
  have hblank : Text.isBlank (' ' :: value) = false := by
    obtain ⟨t, rfl⟩ := List.head?_eq_some_iff.1 hc
    simp [Text.isBlank, hspace]
  have hvalue' : Avoids [';', '!', '/'] (' ' :: value) :=
    avoids_cons.2 ⟨by decide, hclean.mono (by decide)⟩
  have hread := ofText?_asStatement k.isIdentifier.isVariableName (w := []) (by simp) hblank
    fun d hd => hvalue'.not_mem hd
  have hname : VariableName.exported k.name = k.name := List.replace_of_not_mem k.no_underscore
  have hvalue : Declaration.exportedValue value = value :=
    Declaration.exportedValue_eq_self
      (Text.trim_eq_self (fun d hd => hfirst d hd ▸ hspace) hlast)
      (hclean.not_mem (by simp)) (Text.unquote_eq_self fun d hd => hfirst d hd ▸ hquote)
  rw [declared, Declaration.exportedValue_cons_blank, hname, hvalue] at hread
  simpa [entryText, plain] using hread

/-- Written as an entry of its own, the declaration is what it was, entries and all. -/
def ReadsBack (d : Declaration) : Prop :=
  Declaration.exported? (asStatement (entryText d.name d.value)) = some d

namespace Leaf

variable (k : Key) (v : Leaf)

theorem avoids : Avoids ['\n', ';', '!', '/', ':', '(', ')', ',', '{', '}'] v.text :=
  Document.avoids_of_class (List.all_eq_true.2 v.isLeaf) (by decide)

theorem head? : ∃ c ∈ v.text.head?, isLeafChar c = true := by
  obtain ⟨c, t, heq⟩ := List.exists_cons_of_ne_nil v.ne_nil
  exact ⟨c, by simp [heq], v.isLeaf c (by simp [heq])⟩

theorem isFlatValue : IsFlatValue v.text := by
  obtain ⟨c, hc, hleaf⟩ := v.head?
  obtain ⟨t, heq⟩ := List.head?_eq_some_iff.1 hc
  exact .bare (by simp [heq, Text.isBlank, isSpace_of_isLeafChar hleaf]) (v.avoids.mono (by decide))

theorem entryTexts_entryText {rest : Text} (hrest : Follows rest) :
    entryTexts (entryText k.name v.text ++ rest) =
      entryText k.name v.text :: entryTexts rest :=
  MapLiteral.entryTexts_entryText k (v.isFlatValue.isValue hrest.endsValue) hrest

theorem readsBack : ReadsBack (plain k.name v.text) := by
  obtain ⟨c, hc, hleaf⟩ := v.head?
  have hquote : Text.isQuote c = false := by
    refine Bool.eq_false_iff.2 fun hquote => ?_
    simp only [Text.isQuote, Bool.or_eq_true, beq_iff_eq] at hquote
    rcases hquote with rfl | rfl <;> exact absurd hleaf (by decide)
  have hlast : ∀ d ∈ v.text.getLast?, Text.isSpace d = false :=
    fun d hd => isSpace_of_isLeafChar (v.isLeaf d (List.mem_of_getLast? hd))
  have hread := ofText?_entryText k (v.avoids.mono (by decide))
    ⟨c, hc, isSpace_of_isLeafChar hleaf, hquote⟩ hlast
  have hcolon : ':' ∉ (plain k.name v.text).value := v.avoids.not_mem (by simp)
  have hexpand := expand_of_not_mem hcolon
  simp only [ReadsBack, Declaration.exported?, plain] at hread hexpand ⊢
  rw [hread, Option.map_some, hexpand]

end Leaf

namespace Tree

theorem entryTexts_group_entry (k : Key) (t : Tree) {rest : Text} (hrest : Follows rest) :
    entryTexts (entryText k.name t.group ++ rest) =
      entryText k.name t.group :: entryTexts rest := by
  have hhead : t.head ≠ [] := by
    intro hnil
    obtain ⟨c, hc, _⟩ := t.startsName_head []
    simp [hnil] at hc
  have hgroup : Entry.IsGroup t.group := ⟨t.head, hhead, t.avoids_head.not_mem (by simp), rfl⟩
  exact entryTexts_entryText k (.group (w := [' ']) (List.all_eq_true.1 rfl) hgroup) hrest

/-! ## The scan of a map -/

theorem follows_comma (t : Tree) (z : Text) : Follows (", ".toList ++ (t.head ++ z)) :=
  .comma (t.startsName_head z)

/-- The texts of entries. -/
def texts (ds : List Declaration) : List Text :=
  ds.map fun d => entryText d.name d.value

theorem entryTexts_head (t : Tree) {z : Text} (hz : Follows z) :
    entryTexts (t.head ++ ')' :: z) = texts t.inside ++ entryTexts z := by
  have hnode (k : Key) (i : Tree) : entryTexts (entryText k.name ('(' :: i.head) ++ ')' :: z) =
      texts [(plain k.name i.group).withMap i.inside] ++ entryTexts z := by
    have h := entryTexts_group_entry k i hz
    simpa [group, entryText, texts, plain, Declaration.withMap] using h
  induction t with
  | leaf k v => rw [head, Leaf.entryTexts_entryText k v (.close z), entryTexts_close]; rfl
  | node k i _ => exact hnode k i
  | leafThen k v r ih =>
    have hrest := r.follows_comma (')' :: z)
    rw [head, List.append_assoc, List.append_assoc, Leaf.entryTexts_entryText k v hrest,
      entryTexts_comma, ih]
    rfl
  | nodeThen k i r _ _ => exact hnode k i

/-- What stands behind the first `)` goes on as a map does, and its entries are found. -/
theorem entryTexts_behind (t : Tree) {z : Text} (hz : Follows z) :
    Follows (t.behind ++ z) ∧ entryTexts (t.behind ++ z) = texts t.spill ++ entryTexts z := by
  induction t generalizing z with
  | leaf k v => exact ⟨hz, rfl⟩
  | node k i ih =>
    obtain ⟨hfollows, htexts⟩ := ih (.close z)
    rw [behind, List.append_assoc]
    exact ⟨hfollows, by rw [List.singleton_append, htexts, entryTexts_close]; rfl⟩
  | leafThen k v r ih => exact ih hz
  | nodeThen k i r ihi ihr =>
    -- Behind the inner map the others come first up to the next `)`, then what they leave behind.
    obtain ⟨hfollows, htexts⟩ := ihr hz
    obtain ⟨hcomma, hinner⟩ := ihi (r.follows_comma (')' :: (r.behind ++ z)))
    have hsplit : (nodeThen k i r).behind ++ z =
        i.behind ++ (", ".toList ++ (r.head ++ ')' :: (r.behind ++ z))) := by
      simp [behind, body_concat]
    rw [hsplit, hinner, entryTexts_comma, r.entryTexts_head hfollows, htexts]
    exact ⟨hcomma, by simp [texts, spill]⟩

theorem entryTexts_group (t : Tree) : entryTexts t.group = texts t.inside := by
  rw [group, entryTexts_open, t.entryTexts_head .done, entryTexts_nil, List.append_nil]

theorem entryTexts_written (t : Tree) : entryTexts t.written = texts (t.inside ++ t.spill) := by
  obtain ⟨hfollows, htexts⟩ := t.entryTexts_behind .done
  rw [List.append_nil] at hfollows htexts
  rw [written, entryTexts_open, body_concat, t.entryTexts_head hfollows, htexts, entryTexts_nil,
    List.append_nil, texts, texts, texts, List.map_append]

/-! ## Expansion -/

/-- A value whose entries are written like those declarations expands to them. -/
theorem expand_of_texts (d : Declaration) {value : Text} {ds : List Declaration} (hne : ds ≠ [])
    (htexts : entryTexts value = texts ds)
    (hds : ∀ e ∈ ds, ReadsBack e) :
    { d with value }.expand = { d with value, map := some ds } := by
  have hexported : (texts ds).filterMap (fun t => Declaration.exported? (asStatement t)) = ds := by
    rw [texts, List.filterMap_map]
    exact (List.filterMap_congr hds).trans List.filterMap_some
  rw [expand_of_entryTexts d (by simpa [htexts, texts] using hne), htexts, hexported]

theorem inside_ne_nil (t : Tree) : t.inside ≠ [] := by
  cases t <;> simp [inside]

theorem readsBack_group (k : Key) {t : Tree} (hinside : ∀ e ∈ t.inside, ReadsBack e) :
    ReadsBack ((plain k.name t.group).withMap t.inside) := by
  have hclean : Avoids ['\n', ';', '!', '/'] t.group :=
    avoids_cons.2 ⟨by decide, avoids_append.2 ⟨t.avoids_head.mono (by decide), by decide⟩⟩
  have hlast : ∀ c ∈ t.group.getLast?, Text.isSpace c = false := by
    rw [group, ← List.cons_append, List.getLast?_concat]
    exact fun c hc => Option.some.inj hc ▸ (by decide)
  have hread := ofText?_entryText k hclean ⟨'(', rfl, by decide, by decide⟩ hlast
  have hexpand := expand_of_texts (plain k.name t.group) t.inside_ne_nil t.entryTexts_group hinside
  simp only [ReadsBack, Declaration.exported?, Declaration.withMap, plain] at hread hexpand ⊢
  rw [hread, Option.map_some, hexpand]

theorem readsBack_of_mem_inside (t : Tree) : ∀ e ∈ t.inside, ReadsBack e := by
  induction t with
  | leaf k v => exact List.forall_mem_singleton.2 (v.readsBack k)
  | node k i ih => exact List.forall_mem_singleton.2 (readsBack_group k ih)
  | leafThen k v r ih => exact List.forall_mem_cons.2 ⟨v.readsBack k, ih⟩
  | nodeThen k i r ih _ => exact List.forall_mem_singleton.2 (readsBack_group k ih)

theorem readsBack_of_mem_spill (t : Tree) : ∀ e ∈ t.spill, ReadsBack e := by
  induction t with
  | leaf k v => simp [spill]
  | node k i ih => exact ih
  | leafThen k v r ih => exact ih
  | nodeThen k i r ihi ihr =>
    exact List.forall_mem_append.2 ⟨ihi, List.forall_mem_append.2 ⟨r.readsBack_of_mem_inside, ihr⟩⟩

theorem expand_value (d : Declaration) (t : Tree) :
    { d with value := t.written }.expand =
      { d with value := t.written, map := some (t.inside ++ t.spill) } :=
  expand_of_texts d (by simp [inside_ne_nil]) t.entryTexts_written
    (List.forall_mem_append.2 ⟨t.readsBack_of_mem_inside, t.readsBack_of_mem_spill⟩)

/-! ## Maps as they were written -/

/-- Without maps inside, the first `)` of a map is its own. -/
theorem IsFlat.eq {t : Tree} (h : t.IsFlat) :
    t.group = t.written ∧ t.inside = t.declared ∧ t.spill = [] := by
  have hbehind : t.behind = [] ∧ t.inside = t.declared ∧ t.spill = [] := by
    induction t with
    | leaf k v => exact ⟨rfl, rfl, rfl⟩
    | node k i _ => exact h.elim
    | leafThen k v r ih =>
      obtain ⟨hbehind, hinside, hspill⟩ := ih h
      exact ⟨hbehind, congrArg _ hinside, hspill⟩
    | nodeThen k i r _ _ => exact h.elim
  obtain ⟨hbehind, hrest⟩ := hbehind
  exact ⟨by rw [written_eq, hbehind, List.append_nil], hrest⟩

/-- A map inside leaves text behind the first `)`. -/
theorem isFlat_of_group {t : Tree} (h : t.group = t.written) : t.IsFlat := by
  have hbehind : t.behind = [] := by
    rw [written_eq] at h
    simpa using h
  clear h
  induction t with
  | leaf k v => trivial
  | node k i _ => simp [behind] at hbehind
  | leafThen k v r ih => exact ih hbehind
  | nodeThen k i r _ _ => simp [behind] at hbehind

theorem inside_append_spill_eq_declared_iff (t : Tree) :
    t.inside ++ t.spill = t.declared ↔ t.IsShallow := by
  have hnode (k : Key) (i : Tree) : i.IsFlat ↔
      (plain k.name i.group).withMap i.inside = (plain k.name i.written).withMap i.declared := by
    refine ⟨fun h => ?_, fun h => isFlat_of_group (congrArg Declaration.value h)⟩
    obtain ⟨hgroup, hinside, _⟩ := h.eq
    rw [hgroup, hinside]
  induction t with
  | leaf k v => exact iff_of_true rfl trivial
  | node k i _ =>
    constructor
    · exact fun h => (hnode k i).2 (List.cons.inj h).1
    · exact fun (h : i.IsFlat) => congrArg₂ List.cons ((hnode k i).1 h) h.eq.2.2
  | leafThen k v r ih =>
    exact ⟨fun h => ih.1 (List.cons.inj h).2, fun h => congrArg _ (ih.2 h)⟩
  | nodeThen k i r _ ih =>
    have hcons : (nodeThen k i r).inside ++ (nodeThen k i r).spill =
        (plain k.name i.group).withMap i.inside :: (i.spill ++ (r.inside ++ r.spill)) := rfl
    rw [hcons, declared, List.cons.injEq, ← hnode, IsShallow]
    refine and_congr_right fun h => ?_
    rw [h.eq.2.2, List.nil_append]
    exact ih

/-! ## The order of the entries -/

/-- A text up to its first `)`, which is included. -/
def throughClose (t : Text) : Text :=
  t.takeWhile (· != ')') ++ (t.dropWhile (· != ')')).take 1

theorem throughClose_eq_self {t : Text} (h : ')' ∉ t) : throughClose t = t := by
  have hrun : Text.IsRun (· != ')') t [] :=
    ⟨fun c hc => bne_iff_ne.2 fun heq => h (heq ▸ hc), by simp⟩
  have htake := hrun.takeWhile_eq
  have hdrop := hrun.dropWhile_eq
  rw [List.append_nil] at htake hdrop
  rw [throughClose, htake, hdrop, List.take_nil, List.append_nil]

theorem throughClose_written (t : Tree) : throughClose t.written = t.group := by
  have hclose : ')' ∉ '(' :: t.head := by
    simpa using t.avoids_head.not_mem (c := ')') (by simp)
  have hrun := Text.IsRun.of_not_mem hclose t.behind
  have hsplit : t.written = '(' :: t.head ++ ')' :: t.behind := by
    rw [written, body_concat, List.cons_append]
  rw [throughClose, hsplit, hrun.takeWhile_eq, hrun.dropWhile_eq]
  rfl

/-- What a declaration says, its map left out. -/
def face (value : Text → Text) (d : Declaration) : Text × Text × List Field × Bool :=
  (d.name, value d.value, d.fields, d.isMap)

theorem face_leaf (k : Key) (v : Leaf) :
    face throughClose (plain k.name v.text) = face id (plain k.name v.text) := by
  have hclose : throughClose v.text = v.text := throughClose_eq_self (v.avoids.not_mem (by simp))
  simp [face, plain, hclose]

theorem face_node (k : Key) (i : Tree) :
    face throughClose ((plain k.name i.written).withMap i.declared) =
      face id ((plain k.name i.group).withMap i.inside) := by
  simp [face, plain, Declaration.withMap, Declaration.isMap, throughClose_written]

theorem map_face_nestedList (t : Tree) :
    (nestedList (t.inside ++ t.spill)).map (face id) =
      (nestedList t.declared).map (face throughClose) := by
  induction t with
  | leaf k v => simp [inside, spill, declared, nestedList, face_leaf]
  | node k i ih =>
    rw [Declaration.nestedList_append, List.map_append] at ih
    simp [inside, spill, declared, nestedList, face_node, ih]
  | leafThen k v r ih =>
    rw [Declaration.nestedList_append, List.map_append] at ih
    simp [inside, spill, declared, nestedList, face_leaf, ih]
  | nodeThen k i r ihi ihr =>
    simp only [Declaration.nestedList_append, List.map_append] at ihi ihr
    simp [inside, spill, declared, nestedList, face_node, ← ihi, ← ihr]

/-- The entries up to the first map among them, which is included. -/
def throughMap (ds : List Declaration) : List Declaration :=
  ds.takeWhile (!·.isMap) ++ (ds.dropWhile (!·.isMap)).take 1

/-- Up to its first `)` a map has its own entries up to the first map among them. -/
theorem map_face_inside (t : Tree) :
    t.inside.map (face id) = (throughMap t.declared).map (face throughClose) := by
  have hplain (k : Key) (v : Leaf) : (plain k.name v.text).isMap = false := rfl
  have hmap (k : Key) (i : Tree) : ((plain k.name i.written).withMap i.declared).isMap = true := rfl
  induction t with
  | leaf k v => simp [inside, declared, throughMap, hplain, face_leaf]
  | node k i _ => simp [inside, declared, throughMap, hmap, face_node]
  | leafThen k v r ih =>
    rw [throughMap, List.map_append] at ih
    simp [inside, declared, throughMap, hplain, face_leaf, ih]
  | nodeThen k i r _ _ => simp [inside, declared, throughMap, hmap, face_node]

/-- Expanding a map finds the entries up to its first `)`, and in the same row all those behind it.
So a map inside keeps its own entries up to the first map among them, and the ones behind stand in
the outermost map. The map comes out as it was written exactly when no map inside holds another one.
In the order of the text the entries of every depth are all there: a leaf with its text, and a map
with its text up to the first `)`. Nothing else changes. -/
theorem expand_written (d : Declaration) (t : Tree) :
    { d with value := t.written }.expand =
        { d with value := t.written, map := some (t.inside ++ t.spill) } ∧
      t.inside.map (face id) = (throughMap t.declared).map (face throughClose) ∧
      (t.inside ++ t.spill = t.declared ↔ t.IsShallow) ∧
      (nestedList (t.inside ++ t.spill)).map (face id) =
        (nestedList t.declared).map (face throughClose) :=
  ⟨t.expand_value d, t.map_face_inside, t.inside_append_spill_eq_declared_iff,
    t.map_face_nestedList⟩

/-- The map `(a: (b: (c: 1), d: 2))`. -/
def spillingSample : Tree :=
  .node ⟨['a'], ⟨'a', [], rfl, by decide, by simp⟩, by decide⟩
    (.nodeThen ⟨['b'], ⟨'b', [], rfl, by decide, by simp⟩, by decide⟩
      (.leaf ⟨['c'], ⟨'c', [], rfl, by decide, by simp⟩, by decide⟩
        ⟨['1'], by simp, List.all_eq_true.1 rfl⟩)
      (.leaf ⟨['d'], ⟨'d', [], rfl, by decide, by simp⟩, by decide⟩
        ⟨['2'], by simp, List.all_eq_true.1 rfl⟩))

/-- The entry `d` behind the innermost map ends up beside `a`, and the value of `a` lacks its
end. -/
theorem not_expand_written :
    (plain "m".toList spillingSample.written).expand.map ≠ some spillingSample.declared ∧
      (plain "m".toList spillingSample.written).expand.entries.map (fun e => (e.name, e.value)) =
        [("a".toList, "(b: (c: 1)".toList), ("d".toList, "2".toList)] := by
  decide +kernel

end Tree

end MapLiteral

end SassVars
