import SassVars.Proofs.Scoping

/-!
# Sections as a multimap

Sections are built by two calls: one makes sure that a name is there, the other puts a
declaration under a name. Whatever the calls are, the sections are told by them alone: the names
in the order of their first use, and under each name what was put there. A call touches no other
section than its own.

The state of an extraction makes only these calls, so the default section stays in front and the
active section is always there.

## Main definitions

* `Sections.Call`: a call that changes sections.
* `Sections.Holds`: the invariant that relates sections to the calls before.
-/

namespace SassVars

namespace Sections

/-! ## Calls -/

inductive Call where
  | ensure (name : Text)
  | push (name : Text) (d : Declaration)

namespace Call

/-- The section that a call is about. -/
def name : Call → Text
  | .ensure name => name
  | .push name _ => name

/-- What a call adds to its section. -/
def added : Call → List Declaration
  | .ensure _ => []
  | .push _ d => [d]

/-- What the calls put under `x`, in their order. -/
def addedTo (x : Text) (calls : List Call) : List Declaration :=
  (calls.filter (·.name = x)).flatMap added

theorem addedTo_concat (x : Text) (calls : List Call) (call : Call) :
    addedTo x (calls ++ [call]) = addedTo x calls ++ if call.name = x then call.added else [] := by
  by_cases h : call.name = x <;> simp [addedTo, h]

end Call

def apply (s : Sections) : Call → Sections
  | .ensure name => s.ensure name
  | .push name d => s.push name d

def applyAll (s : Sections) (calls : List Call) : Sections :=
  calls.foldl apply s

/-- All sections but the named one, in their order. -/
def others (s : Sections) (name : Text) : List Section :=
  s.toList.filter (·.name ≠ name)

/-! ## What one call does -/

theorem names_apply (s : Sections) (call : Call) :
    (s.apply call).names = if call.name ∈ s.names then s.names else s.names ++ [call.name] := by
  cases call with
  | ensure name => exact names_ensure s name
  | push name d => exact (names_push s name d).trans (names_ensure s name)

theorem get?_apply (s : Sections) (call : Call) (x : Text) :
    (s.apply call).get? x =
      if x = call.name then some ((s.get? x).getD [] ++ call.added) else s.get? x := by
  cases call with
  | ensure name => by_cases h : x = name <;> simp [apply, Call.name, Call.added, get?_ensure, h]
  | push name d => by_cases h : x = name <;> simp [apply, Call.name, Call.added, get?_push, h]

theorem others_ensure (s : Sections) (name : Text) :
    (s.ensure name).others name = s.others name := by
  unfold ensure others
  split <;> simp

theorem others_append (s : Sections) (name : Text) (d : Declaration) :
    (s.append name d).others name = s.others name := by
  simp only [others, append, List.filter_map]
  have hname : ((fun x : Section => decide (x.name ≠ name)) ∘ fun x : Section =>
      if x.name = name then { x with declarations := x.declarations ++ [d] } else x) =
      fun x : Section => decide (x.name ≠ name) := by
    funext x
    by_cases h : x.name = name <;> simp [h]
  rw [hname]
  conv_rhs => rw [← List.map_id (s.toList.filter _)]
  refine List.map_congr_left fun x hx => ?_
  have hne : x.name ≠ name := by simpa using (List.mem_filter.1 hx).2
  simp [hne]

/-- A call changes its own section only. -/
theorem others_apply (s : Sections) (call : Call) :
    (s.apply call).others call.name = s.others call.name := by
  cases call with
  | ensure name => exact s.others_ensure name
  | push name d =>
    calc ((s.ensure name).append name d).others name
        _ = (s.ensure name).others name := others_append _ name d
        _ = s.others name := s.others_ensure name

/-! ## What a run of calls does -/

/-- What sections are behind `calls`. -/
structure Holds (calls : List Call) (s : Sections) : Prop where
  names : s.names = (calls.map Call.name).eraseDups
  contents : ∀ x, (s.get? x).getD [] = Call.addedTo x calls

theorem holds_empty : Holds [] empty where
  names := by simp
  contents _ := rfl

namespace Holds

variable {calls : List Call} {s : Sections}

theorem mem_names_iff (h : Holds calls s) {x : Text} : x ∈ s.names ↔ x ∈ calls.map Call.name := by
  rw [h.names, List.mem_eraseDups]

/-- Every call keeps the sections in accord with the calls. -/
theorem apply (h : Holds calls s) (call : Call) : Holds (calls ++ [call]) (s.apply call) where
  names := by
    rw [names_apply, List.map_append, List.map_singleton, Scope.eraseDups_concat, ← h.names]
    simp only [h.mem_names_iff]
  contents x := by
    rw [get?_apply, Call.addedTo_concat, ← h.contents]
    by_cases hx : x = call.name
    · simp [hx]
    · simp [hx, Ne.symm hx]

theorem get?_eq (h : Holds calls s) (x : Text) :
    s.get? x = if x ∈ calls.map Call.name then some (Call.addedTo x calls) else none := by
  split
  · rename_i hx
    have hsome := mt get?_eq_none_iff.1 (not_not.2 (h.mem_names_iff.2 hx))
    obtain ⟨ds, hds⟩ := Option.ne_none_iff_exists'.1 hsome
    have hcontents := h.contents x
    rw [hds, Option.getD_some] at hcontents
    rw [hds, hcontents]
  · rename_i hx
    exact get?_eq_none_iff.2 (mt h.mem_names_iff.1 hx)

/-- The sections in their order, each with what was put there. -/
theorem toList_eq (h : Holds calls s) :
    s.toList = s.names.map fun name => ⟨name, Call.addedTo name calls⟩ := by
  rw [Sections.names, List.map_map]
  conv_lhs => rw [← List.map_id s.toList]
  refine List.map_congr_left fun x hx => ?_
  have hcontents := h.contents x.name
  rw [get?_of_mem hx, Option.getD_some] at hcontents
  rw [id, Function.comp_apply, ← hcontents]

end Holds

theorem holds_applyAll (calls : List Call) : Holds calls (empty.applyAll calls) := by
  induction calls using List.reverseRecOn with
  | nil => exact holds_empty
  | append_singleton calls call ih => simpa [applyAll] using ih.apply call

end Sections

/-! ## The calls of a scope -/

namespace Scope

/-- A token makes one call at most. -/
theorem exists_calls_step (s : Scope) (token : Token) :
    ∃ calls, (s.step token).sections = s.sections.applyAll calls := by
  cases token with
  | sectionStart name =>
    by_cases h : name.isEmpty = true
    · exact ⟨[], by simp [step, enter, h, Sections.applyAll]⟩
    · exact ⟨[.ensure name], by simp [step, enter, h, Sections.applyAll, Sections.apply]⟩
  | sectionEnd => exact ⟨[], rfl⟩
  | declaration text =>
    cases h : Declaration.exported? text with
    | none => exact ⟨[], by simp [step, add, h, Sections.applyAll]⟩
    | some d =>
      exact ⟨[.push s.current d], by simp [step, add, h, Sections.applyAll, Sections.apply]⟩

theorem exists_calls_run (s : Scope) (tokens : List Token) :
    ∃ calls, (s.run tokens).sections = s.sections.applyAll calls := by
  induction tokens generalizing s with
  | nil => exact ⟨[], rfl⟩
  | cons token tokens ih =>
    obtain ⟨first, hfirst⟩ := s.exists_calls_step token
    obtain ⟨others, hothers⟩ := ih (s.step token)
    refine ⟨first ++ others, ?_⟩
    rw [run, List.foldl_cons, ← run, hothers, hfirst, Sections.applyAll, Sections.applyAll,
      Sections.applyAll, List.foldl_append]

end Scope

namespace Scope.Follows

variable {d : Text} {tokens : List Token} {s : Scope}

theorem head?_names (h : Follows d tokens s) : s.sections.names.head? = some d := by
  rw [h.names, List.eraseDups_cons, List.head?_cons]

theorem names_add (h : Follows d tokens s) (text : Text) :
    (s.add text).sections.names = s.sections.names := by
  unfold Scope.add
  split
  · rw [Sections.names_push, Sections.names_ensure, if_pos h.current_mem]
  · rfl

end Scope.Follows

/-- Sections that start empty are told by the calls that were made: their names are different and
stand in the order of their first use, under a name stands what was put there, and all ways to
look at them agree with that. Each further call leaves all sections but its own as and where they
are. The sections of an extraction are made by such calls. In its state the default section is
first and the active one is there, so a declaration adds no section. -/
theorem sections_multimap :
    (∀ calls : List Sections.Call,
      let s := Sections.empty.applyAll calls
      let used := calls.map Sections.Call.name
      s.names.Nodup ∧ s.names = used.eraseDups ∧
      (∀ x, s.get? x = if x ∈ used then some (Sections.Call.addedTo x calls) else none) ∧
      (∀ x, s.contains x = true ↔ x ∈ used) ∧
      s.size = used.eraseDups.length ∧ (s.isEmpty = true ↔ calls = []) ∧
      s.toList = used.eraseDups.map (fun name => ⟨name, Sections.Call.addedTo name calls⟩) ∧
      ∀ call : Sections.Call, (s.apply call).others call.name = s.others call.name) ∧
    ∀ (d : Text) (tokens : List Token),
      let s := (Scope.start d).run tokens
      (∃ calls, s.sections = Sections.empty.applyAll (.ensure d :: calls)) ∧
      s.current ∈ s.sections.names ∧ s.sections.names.head? = some d ∧
      ∀ text, (s.step (.declaration text)).sections.names = s.sections.names := by
  constructor
  · intro calls s used
    have h : Sections.Holds calls s := Sections.holds_applyAll calls
    have hlist := h.toList_eq
    rw [h.names] at hlist
    refine ⟨s.nodup_names, h.names, h.get?_eq, fun x => ?_, ?_, ?_, hlist, s.others_apply⟩
    · rw [Sections.contains_iff, h.mem_names_iff]
    · rw [Sections.size, hlist, List.length_map]
    · rw [Sections.isEmpty, hlist]
      cases calls <;> simp [List.eraseDups_cons]
  · intro d tokens s
    have h : Scope.Follows d tokens s := Scope.follows_run d tokens
    exact ⟨(Scope.start d).exists_calls_run tokens, h.current_mem, h.head?_names, h.names_add⟩

end SassVars
