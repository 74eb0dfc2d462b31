import Mathlib.Data.List.DropRight
import SassVars.Extraction

/-!
# Scoping of sections

The active section is state that start and end markers change. Here it is described from
the tokens alone: it is the last section opened since the last end marker. From that follows
which sections a run of tokens yields, and which declarations each of them holds.

## Main definitions

* `Token.activeSection`: the section that is active behind some tokens.
* `Token.declarationsIn`: the declarations of the tokens for which a section is active.
* `Scope.Follows`: the invariant that relates a scope to the tokens before it.
-/

namespace SassVars

namespace Token

/-- The section that a token opens. A start marker without a name opens none. -/
def opened? : Token → Option Text
  | .sectionStart name => if name.isEmpty then none else some name
  | .sectionEnd => none
  | .declaration _ => none

/-- The section that is active behind `before`: the last one opened since the last end
marker, and the default section `d` when there is none. -/
def activeSection (d : Text) (before : List Token) : Text :=
  ((before.rtakeWhile (· != .sectionEnd)).filterMap opened?).getLast?.getD d

/-- The declarations that the tokens yield while section `x` is active, in their order. -/
def declarationsIn (d x : Text) (tokens : List Token) : List Declaration :=
  tokens.zipIdx.filterMap fun (token, i) =>
    if activeSection d (tokens.take i) = x then Extraction.ofToken? token else none

theorem activeSection_concat (d : Text) (before : List Token) (token : Token) :
    activeSection d (before ++ [token]) =
      match token with
      | .sectionEnd => d
      | token => (opened? token).getD (activeSection d before) := by
  cases token with
  | sectionEnd => simp [activeSection]
  | declaration text => simp [activeSection, opened?]
  | sectionStart name => by_cases h : name = [] <;> simp [activeSection, opened?, h]

/-- A section is active only after a marker has opened it, apart from the default one. -/
theorem activeSection_mem (d : Text) (before : List Token) :
    activeSection d before ∈ d :: before.filterMap opened? := by
  cases h : ((before.rtakeWhile (· != .sectionEnd)).filterMap opened?).getLast? with
  | none => simp [activeSection, h]
  | some name =>
    have hmem := List.mem_of_getLast? h
    have hsub := (List.rtakeWhile_suffix (· != Token.sectionEnd) before).sublist.filterMap opened?
    simpa [activeSection, h] using Or.inr (hsub.subset hmem)

theorem declarationsIn_concat (d x : Text) (tokens : List Token) (token : Token) :
    declarationsIn d x (tokens ++ [token]) = declarationsIn d x tokens ++
      if activeSection d tokens = x then (Extraction.ofToken? token).toList else [] := by
  have hold : ∀ p ∈ tokens.zipIdx, (tokens ++ [token]).take p.2 = tokens.take p.2 := by
    intro p hp
    have := List.snd_lt_of_mem_zipIdx hp
    exact List.take_append_of_le_length (by omega)
  rw [declarationsIn, List.zipIdx_append, List.filterMap_append]
  congr 1
  · refine List.filterMap_congr fun p hp => ?_
    simp only [hold p hp]
  · by_cases h : activeSection d tokens = x <;>
      cases ht : Extraction.ofToken? token <;> simp [h, ht]

end Token

namespace Sections

/-- The declarations of all sections, section by section. -/
def declarations (s : Sections) : List Declaration :=
  s.toList.flatMap Section.declarations

@[simp]
theorem declarations_ensure (s : Sections) (name : Text) :
    (s.ensure name).declarations = s.declarations := by
  unfold ensure
  split <;> simp [declarations]

/-- Names are distinct, so an appended declaration is added exactly once. -/
theorem declarations_append_perm {s : Sections} {name : Text} (h : name ∈ s.names)
    (d : Declaration) : (s.append name d).declarations.Perm (s.declarations ++ [d]) := by
  obtain ⟨l, hdistinct⟩ := s
  simp only [names] at h
  simp only [declarations, append]
  induction l with
  | nil => simp at h
  | cons x l ih =>
    simp only [List.map_cons, List.nodup_cons] at hdistinct
    by_cases hx : x.name = name
    · have hl : ∀ y ∈ l, y.name ≠ name := fun y hy hyn =>
        hdistinct.1 (hx ▸ hyn ▸ List.mem_map_of_mem hy)
      have hkeep : l.map (fun y : Section => if y.name = name then
          { y with declarations := y.declarations ++ [d] } else y) = l := by
        conv_rhs => rw [← List.map_id l]
        exact List.map_congr_left fun y hy => by simp [hl y hy]
      simp only [List.map_cons, hx, if_true, List.flatMap_cons, hkeep, List.append_assoc]
      exact List.Perm.append_left _ List.perm_append_comm
    · have hmem : name ∈ l.map Section.name := by simpa [Ne.symm hx] using h
      simpa [hx] using (ih hdistinct.2 hmem).append_left x.declarations

theorem declarations_push_perm {s : Sections} {name : Text} (h : name ∈ s.names)
    (d : Declaration) : (s.push name d).declarations.Perm (s.declarations ++ [d]) := by
  have hmem : name ∈ (s.ensure name).names := by simp [names_ensure, h]
  simpa [push] using declarations_append_perm hmem d

end Sections

namespace Scope

theorem eraseDups_concat (l : List Text) (a : Text) :
    (l ++ [a]).eraseDups = if a ∈ l then l.eraseDups else l.eraseDups ++ [a] := by
  rw [List.eraseDups_append]
  by_cases h : a ∈ l <;> simp [List.removeAll, List.eraseDups_cons, h]

/-- What a scope is behind `tokens` when the default section is `d`. -/
structure Follows (d : Text) (tokens : List Token) (s : Scope) : Prop where
  defaultSection : s.defaultSection = d
  current : s.current = Token.activeSection d tokens
  names : s.sections.names = (d :: tokens.filterMap Token.opened?).eraseDups
  contents : ∀ x, (s.sections.get? x).getD [] = Token.declarationsIn d x tokens
  total : s.sections.declarations.Perm (tokens.filterMap Extraction.ofToken?)

theorem follows_start (d : Text) : Follows d [] (start d) where
  defaultSection := rfl
  current := rfl
  names := by simp [start, Sections.names_ensure, List.eraseDups_cons]
  contents x := by
    by_cases hx : x = d <;> simp [start, Sections.get?_ensure, Token.declarationsIn, hx]
  total := by
    rw [start, Sections.declarations_ensure]
    exact .refl _

namespace Follows

variable {d : Text} {tokens : List Token} {s : Scope}

/-- The active section is always there, so a declaration never adds one. -/
theorem current_mem (h : Follows d tokens s) : s.current ∈ s.sections.names := by
  rw [h.current, h.names, List.mem_eraseDups]
  exact Token.activeSection_mem d tokens

/-- A token that opens no section and yields no declaration leaves the sections alone. -/
theorem of_sections_eq (h : Follows d tokens s) {token : Token} {s' : Scope}
    (hopened : Token.opened? token = none) (hdeclared : Extraction.ofToken? token = none)
    (hdefault : s'.defaultSection = d)
    (hcurrent : s'.current = Token.activeSection d (tokens ++ [token]))
    (hsections : s'.sections = s.sections) : Follows d (tokens ++ [token]) s' where
  defaultSection := hdefault
  current := hcurrent
  names := by simp [hsections, h.names, hopened]
  contents x := by simp [Token.declarationsIn_concat, hsections, h.contents, hdeclared]
  total := by simpa [hsections, hdeclared] using h.total

theorem enter (h : Follows d tokens s) (name : Text) :
    Follows d (tokens ++ [.sectionStart name]) (s.enter name) := by
  by_cases hname : name = []
  · subst hname
    refine h.of_sections_eq rfl rfl h.defaultSection ?_ rfl
    simpa [Scope.enter, Token.activeSection_concat, Token.opened?] using h.current
  have hopened : Token.opened? (.sectionStart name) = some name := by
    simp [Token.opened?, hname]
  have henter : s.enter name = { s with current := name, sections := s.sections.ensure name } := by
    simp [Scope.enter, hname]
  rw [henter]
  exact
    { defaultSection := h.defaultSection
      current := by simp [Token.activeSection_concat, hopened]
      names := by
        have hmem : name ∈ s.sections.names ↔ name ∈ d :: tokens.filterMap Token.opened? := by
          rw [h.names, List.mem_eraseDups]
        simp only [List.filterMap_append, List.filterMap_cons, hopened, List.filterMap_nil]
        rw [← List.cons_append, eraseDups_concat, Sections.names_ensure, ← h.names]
        simp only [hmem]
      contents x := by
        rw [Token.declarationsIn_concat, Sections.get?_ensure]
        by_cases hx : x = name <;> simp [Extraction.ofToken?, hx, ← h.contents]
      total := by simpa [List.filterMap_cons, Extraction.ofToken?] using h.total }

theorem leave (h : Follows d tokens s) : Follows d (tokens ++ [.sectionEnd]) s.leave :=
  h.of_sections_eq rfl rfl h.defaultSection
    (by simp [Scope.leave, Token.activeSection_concat, h.defaultSection]) rfl

theorem add (h : Follows d tokens s) (text : Text) :
    Follows d (tokens ++ [.declaration text]) (s.add text) := by
  have hactive : Token.activeSection d (tokens ++ [.declaration text]) =
      Token.activeSection d tokens := by simp [Token.activeSection_concat, Token.opened?]
  cases hd : Declaration.exported? text with
  | none =>
    have hadd : s.add text = s := by simp [Scope.add, hd]
    rw [hadd]
    exact h.of_sections_eq rfl hd h.defaultSection (h.current.trans hactive.symm) rfl
  | some declaration =>
    have hadd : s.add text =
        { s with sections := s.sections.push s.current declaration } := by simp [Scope.add, hd]
    have hdeclared : Extraction.ofToken? (.declaration text) = some declaration := hd
    rw [hadd]
    exact
      { defaultSection := h.defaultSection
        current := h.current.trans hactive.symm
        names := by
          have hopened : Token.opened? (.declaration text) = none := rfl
          rw [Sections.names_push, Sections.names_ensure, if_pos h.current_mem, h.names]
          simp [hopened]
        contents x := by
          rw [Token.declarationsIn_concat, Sections.get?_push, ← h.current, hdeclared]
          by_cases hx : x = s.current
          · simp [hx, h.contents]
          · simp [hx, Ne.symm hx, h.contents]
        total := by
          rw [List.filterMap_append, List.filterMap_cons, hdeclared]
          exact (Sections.declarations_push_perm h.current_mem _).trans (h.total.append_right _) }

/-- Every step keeps the scope in accord with the tokens. -/
theorem step (h : Follows d tokens s) (token : Token) :
    Follows d (tokens ++ [token]) (s.step token) := by
  cases token with
  | sectionStart name => exact h.enter name
  | sectionEnd => exact h.leave
  | declaration text => exact h.add text

end Follows

theorem follows_run (d : Text) (tokens : List Token) : Follows d tokens ((start d).run tokens) := by
  induction tokens using List.reverseRecOn with
  | nil => exact follows_start d
  | append_singleton tokens token ih => simpa [run] using ih.step token

end Scope

/-- The sections of a run of tokens are the default one and those opened, in the order in
which they first appear, and each of them holds the declarations of the tokens for which it
is active. No declaration is lost or repeated. A source gives the sections of its tokens,
and it gives none at all exactly when it has no token. -/
theorem sections_run_characterized (d : Text) :
    (∀ tokens : List Token,
      let s := ((Scope.start d).run tokens).sections
      s.names = (d :: tokens.filterMap Token.opened?).eraseDups ∧
      (∀ x, s.get? x = if x ∈ s.names then some (Token.declarationsIn d x tokens) else none) ∧
      s.declarations.Perm (tokens.filterMap Extraction.ofToken?)) ∧
    ∀ source : Text,
      (Extraction.sections ⟨d⟩ source = Sections.empty ↔ Token.list .structured source = []) ∧
      (Token.list .structured source ≠ [] → Extraction.sections ⟨d⟩ source =
        ((Scope.start d).run (Token.list .structured source)).sections) := by
  refine ⟨fun tokens => ?_, fun source => ?_⟩
  · have h := Scope.follows_run d tokens
    refine ⟨h.names, fun x => ?_, h.total⟩
    split
    · rename_i hx
      have hsome := mt Sections.get?_eq_none_iff.1 (not_not.2 hx)
      obtain ⟨ds, hds⟩ := Option.ne_none_iff_exists'.1 hsome
      simpa [hds] using h.contents x
    · exact Sections.get?_eq_none_iff.2 (by assumption)
  · cases htokens : Token.list .structured source with
    | nil => simp [Extraction.sections, htokens]
    | cons token tokens =>
      have hsections : Extraction.sections ⟨d⟩ source =
          ((Scope.start d).run (token :: tokens)).sections := by
        simp [Extraction.sections, htokens]
      refine ⟨⟨fun hempty => ?_, by simp⟩, fun _ => hsections⟩
      have hnames := (Scope.follows_run d (token :: tokens)).names
      rw [← hsections, hempty] at hnames
      simp [List.eraseDups_cons] at hnames

end SassVars
