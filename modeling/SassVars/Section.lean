import SassVars.Declaration

/-!
# Sections

Declarations grouped under names. Sections keep the order in which their names were first
seen, and no name occurs twice.

## Main definitions

* `Sections.ensure`: add an empty section unless the name is there.
* `Sections.push`: append a declaration to a section, adding the section if needed.
* `Sections.get?`: the declarations under a name.
-/

namespace SassVars

structure Section where
  name : Text
  declarations : List Declaration
deriving DecidableEq

structure Sections where
  toList : List Section
  distinct : (toList.map Section.name).Nodup

namespace Sections

def empty : Sections :=
  ⟨[], by simp⟩

def names (s : Sections) : List Text :=
  s.toList.map Section.name

def size (s : Sections) : Nat :=
  s.toList.length

def isEmpty (s : Sections) : Bool :=
  s.toList.isEmpty

def section? (s : Sections) (name : Text) : Option Section :=
  s.toList.find? (·.name == name)

def get? (s : Sections) (name : Text) : Option (List Declaration) :=
  (s.section? name).map (·.declarations)

def contains (s : Sections) (name : Text) : Bool :=
  (s.section? name).isSome

theorem contains_iff {s : Sections} {name : Text} :
    s.contains name = true ↔ name ∈ s.names := by
  simp [contains, section?, names]

/-- Add an empty section at the end unless the name is already there. -/
def ensure (s : Sections) (name : Text) : Sections :=
  if h : name ∈ s.names then s
  else
    { toList := s.toList ++ [⟨name, []⟩]
      distinct := by
        rw [List.map_append, List.nodup_append]
        refine ⟨s.distinct, by simp, ?_⟩
        rintro a ha b hb rfl
        simp only [List.map_cons, List.map_nil, List.mem_singleton] at hb
        exact h (hb ▸ ha) }

/-- Append `d` to the sections of that name. -/
def append (s : Sections) (name : Text) (d : Declaration) : Sections where
  toList := s.toList.map fun x =>
    if x.name = name then { x with declarations := x.declarations ++ [d] } else x
  distinct := by
    rw [List.map_map]
    have hname : (Section.name ∘ fun x : Section =>
        if x.name = name then { x with declarations := x.declarations ++ [d] } else x) =
        Section.name := by
      funext x
      by_cases h : x.name = name <;> simp [h]
    rw [hname]
    exact s.distinct

/-- Append a declaration to the named section, adding the section if needed. -/
def push (s : Sections) (name : Text) (d : Declaration) : Sections :=
  (s.ensure name).append name d

/-! ## Names -/

@[simp]
theorem names_empty : empty.names = [] := rfl

theorem names_ensure (s : Sections) (name : Text) :
    (s.ensure name).names = if name ∈ s.names then s.names else s.names ++ [name] := by
  unfold ensure
  split <;> simp [names]

@[simp]
theorem names_append (s : Sections) (name : Text) (d : Declaration) :
    (s.append name d).names = s.names := by
  simp only [names, append, List.map_map]
  apply List.map_congr_left
  intro x _
  by_cases h : x.name = name <;> simp [h]

@[simp]
theorem names_push (s : Sections) (name : Text) (d : Declaration) :
    (s.push name d).names = (s.ensure name).names := by
  simp [push]

theorem nodup_names (s : Sections) : s.names.Nodup :=
  s.distinct

/-! ## Contents -/

theorem get?_eq_none_iff {s : Sections} {name : Text} : s.get? name = none ↔ name ∉ s.names := by
  simp [get?, section?, names]

/-- Names are distinct, so every section is found under its own. -/
theorem get?_of_mem {s : Sections} {x : Section} (h : x ∈ s.toList) :
    s.get? x.name = some x.declarations := by
  obtain ⟨l, hdistinct⟩ := s
  simp only [get?, section?]
  induction l with
  | nil => simp at h
  | cons y l ih =>
    simp only [List.map_cons, List.nodup_cons] at hdistinct
    rcases List.mem_cons.1 h with rfl | hx
    · simp
    · have hne : y.name ≠ x.name := fun hyx => hdistinct.1 (hyx ▸ List.mem_map_of_mem hx)
      simpa [hne] using ih hdistinct.2 hx

@[simp]
theorem get?_empty (name : Text) : empty.get? name = none := rfl

theorem get?_ensure (s : Sections) (name x : Text) :
    (s.ensure name).get? x = if x = name then some ((s.get? name).getD []) else s.get? x := by
  by_cases h : name ∈ s.names
  · have hsome : s.get? name ≠ none := by simpa [get?_eq_none_iff] using h
    obtain ⟨ds, hds⟩ := Option.ne_none_iff_exists'.1 hsome
    by_cases hx : x = name <;> simp [ensure, h, hx, hds]
  · have hfind : s.toList.find? (·.name == name) = none := by
      simpa [get?, section?] using get?_eq_none_iff.2 h
    by_cases hx : x = name
    · subst hx
      simp [ensure, h, get?, section?, List.find?_append, hfind]
    · simp [ensure, h, get?, section?, hx, List.find?_append, Ne.symm hx]

theorem get?_append (s : Sections) (name x : Text) (d : Declaration) :
    (s.append name d).get? x = if x = name then (s.get? x).map (· ++ [d]) else s.get? x := by
  simp only [get?, section?, append]
  induction s.toList with
  | nil => simp
  | cons y ys ih =>
    by_cases hyx : y.name = x
    · subst hyx
      by_cases hy : y.name = name <;> simp [hy]
    · by_cases hy : y.name = name
      · subst hy
        simpa [hyx] using ih
      · simpa [hy, hyx] using ih

/-- A push extends the section of that name at its end and leaves all others alone. -/
theorem get?_push (s : Sections) (name x : Text) (d : Declaration) :
    (s.push name d).get? x =
      if x = name then some ((s.get? name).getD [] ++ [d]) else s.get? x := by
  rw [push, get?_append, get?_ensure]
  by_cases hx : x = name <;> simp [hx]

end Sections

end SassVars
