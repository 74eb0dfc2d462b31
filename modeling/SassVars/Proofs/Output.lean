import Mathlib.Data.List.DropRight
import SassVars.Proofs.Expansion.WellFormed
import SassVars.Proofs.Json.Keys
import SassVars.Proofs.Scan.Tokens

/-!
# Well-formed output

What a user of an export can rely on for every source: well-formed declarations at every
depth, sections with names of their own, and objects without repeated keys.
-/

namespace SassVars

open Reader

/-! ## Names of sections -/

namespace SectionMarker

/-- A quoted name is the beginning of a line. -/
theorem one_line_of_read_quotedName {t : Text} {r : Reading Text} (h : quotedName.read t = .ok r) :
    ∀ c ∈ r.value, Text.isLineEnd c = false := by
  simp only [quotedName, read_bind_eq_ok_iff, read_peek, Except.ok.injEq] at h
  obtain ⟨_, b, rfl, hb, rfl⟩ := h
  have hline : Text.throughLast '"' (Text.firstLine t) <+: Text.firstLine t :=
    List.rdropWhile_prefix _ _
  have hprefix := List.prefix_iff_eq_take.1 (hline.trans (List.takeWhile_prefix _))
  split at hb
  · rw [read_take, ← hprefix] at hb
    cases hb
    intro c hc
    simpa using (Text.isRun_takeWhile _ t).all c (hline.subset hc)
  · simp at hb

theorem StartsAt.one_line {raw t : Text} (h : StartsAt raw t) :
    ∀ c ∈ raw, Text.isLineEnd c = false := by
  obtain ⟨_, _, r, _, _, hr, rfl⟩ := h
  exact one_line_of_read_quotedName hr

theorem one_line_of_read_start {t : Text} {r : Reading Text} (h : start.read t = .ok r) :
    ∀ c ∈ r.value, Text.isLineEnd c = false := by
  obtain ⟨_, raw, _, hraw, rfl⟩ := read_bind_eq_ok_iff.1 h
  have hline := one_line_of_read_quotedName hraw
  exact hline

theorem isQuotable_name {raw : Text} (h : ∀ c ∈ raw, Text.isLineEnd c = false)
    (hne : name raw ≠ []) : Text.IsQuotable (name raw) where
  ne_nil := hne
  no_quote := by simp [name]
  one_line c hc := h c (List.mem_of_mem_filter hc)

end SectionMarker

namespace Token

/-- Every section that a source opens has a name that could stand in quotes. -/
theorem isQuotable_of_opened? {mode : Mode} {source name : Text} {token : Token}
    (h : token ∈ list mode source) (hname : opened? token = some name) : Text.IsQuotable name := by
  cases token with
  | sectionStart title =>
    obtain ⟨hne, rfl⟩ : title ≠ [] ∧ title = name := by simpa [opened?] using hname
    obtain ⟨span, hyields⟩ := exists_yields_of_mem_list h
    cases hyields with
    | statement _ _ _ htoken =>
      cases htoken with
      | sectionStart _ hstart _ => exact SectionMarker.isQuotable_name hstart.one_line hne
    | sectionStart _ _ hm _ =>
      exact SectionMarker.isQuotable_name (SectionMarker.one_line_of_read_start hm) hne
  | sectionEnd => simp [opened?] at hname
  | declaration text => simp [opened?] at hname

end Token

namespace Sections

/-- The names of the sections of a source: all different, the default one first. -/
structure AreNamed (d : Text) (s : Sections) : Prop where
  distinct : s.names.Nodup
  first : ∀ name ∈ s.names.head?, name = d
  opened : ∀ name ∈ s.names.tail, Text.IsQuotable name

theorem areNamed_of_follows {d : Text} {tokens : List Token} {s : Scope}
    (h : Scope.Follows d tokens s)
    (hopened : ∀ token ∈ tokens, ∀ name ∈ Token.opened? token, Text.IsQuotable name) :
    AreNamed d s.sections where
  distinct := s.sections.nodup_names
  first name hname := by
    rw [h.names, List.eraseDups_cons, List.head?_cons] at hname
    exact (Option.some.inj hname).symm
  opened name hname := by
    rw [h.names, List.eraseDups_cons, List.tail_cons, List.mem_eraseDups] at hname
    obtain ⟨token, htoken, hsome⟩ := List.mem_filterMap.1 (List.mem_of_mem_filter hname)
    exact hopened token htoken name hsome

end Sections

/-! ## Output -/

namespace Extraction

theorem areNamed_sections (config : Config) (source : Text) :
    Sections.AreNamed config.defaultSection (sections config source) := by
  cases htokens : Token.list .structured source with
  | nil => constructor <;> simp [sections, htokens]
  | cons token tokens =>
    have hfollows := Scope.follows_run config.defaultSection (token :: tokens)
    have hnamed := Sections.areNamed_of_follows hfollows fun t ht name hname =>
      Token.isQuotable_of_opened? (htokens ▸ ht) hname
    simpa [sections, htokens] using hnamed

theorem isWellFormed_of_mem_tokens {tokens : List Token} {d : Declaration}
    (h : d ∈ tokens.filterMap ofToken?) : ∀ n ∈ d :: d.nested, n.IsWellFormed := by
  obtain ⟨token, _, hd⟩ := List.mem_filterMap.1 h
  cases token with
  | declaration text => exact Declaration.isWellFormed_of_exported? hd
  | sectionStart name => simp [ofToken?] at hd
  | sectionEnd => simp [ofToken?] at hd

theorem isWellFormed_of_mem_section {config : Config} {source : Text} {s : Section}
    (hs : s ∈ (sections config source).toList) {d : Declaration} (hd : d ∈ s.declarations) :
    ∀ n ∈ d :: d.nested, n.IsWellFormed :=
  isWellFormed_of_mem_tokens ((section_sublist hs).subset hd)

theorem hasDistinctKeys_of_isWellFormed {d : Declaration}
    (h : ∀ n ∈ d :: d.nested, n.IsWellFormed) : d.toJson.HasDistinctKeys :=
  Declaration.hasDistinctKeys_toJson fun n hn => (h n hn).fields.distinct

/-- Whatever the source is, every declaration in its output is well formed, at every depth.
The sections have names of their own: the first is the default section, the others can be
written between quotes. So no object of an export repeats a key. -/
theorem output_isWellFormed (config : Config) (source : Text) :
    (∀ d ∈ declarations source, ∀ n ∈ d :: d.nested, n.IsWellFormed) ∧
    (∀ s ∈ (sections config source).toList, ∀ d ∈ s.declarations,
      ∀ n ∈ d :: d.nested, n.IsWellFormed) ∧
    Sections.AreNamed config.defaultSection (sections config source) ∧
    (Declaration.arrayToJson (declarations source)).HasDistinctKeys ∧
    (sections config source).toJson.HasDistinctKeys := by
  have hflat : ∀ d ∈ declarations source, ∀ n ∈ d :: d.nested, n.IsWellFormed :=
    fun d hd => isWellFormed_of_mem_tokens hd
  refine ⟨hflat, fun s hs d hd => isWellFormed_of_mem_section hs hd, areNamed_sections config source,
    Declaration.hasDistinctKeys_arrayToJson fun d hd => ?_,
    Sections.hasDistinctKeys_toJson fun s hs d hd => ?_⟩
  · exact hasDistinctKeys_of_isWellFormed (hflat d hd)
  · exact hasDistinctKeys_of_isWellFormed (isWellFormed_of_mem_section hs hd)

end Extraction

end SassVars
