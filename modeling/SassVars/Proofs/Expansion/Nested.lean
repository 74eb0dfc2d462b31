import Mathlib.Data.List.Forall2
import SassVars.Declaration.Expand

/-!
# Declarations inside declarations

An expanded declaration is a tree: its entries are declarations with entries of their own.
This module lists all that stand inside a declaration, says what it means for the entries to
be filled in at every depth, and shows that everything inside an expanded declaration is the
expansion of a child of some value.

## Main definitions

* `Declaration.nested`: the declarations inside a declaration, at every depth.
* `Declaration.IsExpansion`: the entries of every value are filled in, said without `expand`.
-/

namespace SassVars.Declaration

/-! ## Trees of declarations -/

mutual

/-- The declarations inside a declaration, each in front of those inside it. -/
def nested : Declaration → List Declaration
  | ⟨_, _, _, none⟩ => []
  | ⟨_, _, _, some ds⟩ => nestedList ds

def nestedList : List Declaration → List Declaration
  | [] => []
  | d :: ds => d :: (nested d ++ nestedList ds)

end

theorem nestedList_eq_flatMap (ds : List Declaration) :
    nestedList ds = ds.flatMap fun c => c :: c.nested := by
  induction ds with
  | nil => rfl
  | cons d ds ih => simp [nestedList, ih]

theorem nested_eq_flatMap (d : Declaration) :
    d.nested = d.entries.flatMap fun c => c :: c.nested := by
  obtain ⟨name, value, fields, _ | ds⟩ := d
  · rfl
  · exact nestedList_eq_flatMap ds

@[simp]
theorem nestedList_append (ds es : List Declaration) :
    nestedList (ds ++ es) = nestedList ds ++ nestedList es := by
  simp only [nestedList_eq_flatMap, List.flatMap_append]

@[simp]
theorem nested_plain (name value : Text) : (plain name value).nested = [] :=
  rfl

@[simp]
theorem nested_withMap (d : Declaration) (ds : List Declaration) :
    (d.withMap ds).nested = nestedList ds :=
  rfl

theorem mem_nested_iff {n d : Declaration} :
    n ∈ d.nested ↔ ∃ c ∈ d.entries, n = c ∨ n ∈ c.nested := by
  rw [nested_eq_flatMap]
  simp only [List.mem_flatMap, List.mem_cons]

theorem sizeOf_lt_of_mem_entries {c d : Declaration} (h : c ∈ d.entries) :
    sizeOf c < sizeOf d := by
  obtain ⟨name, value, fields, _ | ds⟩ := d
  · simp [entries] at h
  · have := List.sizeOf_lt_of_mem (show c ∈ ds from h)
    simp only [mk.sizeOf_spec, Option.some.sizeOf_spec]
    omega

/-- Induction from the entries of a declaration to the declaration. -/
@[elab_as_elim]
theorem entriesInduction {motive : Declaration → Prop}
    (step : ∀ d, (∀ c ∈ d.entries, motive c) → motive d) (d : Declaration) : motive d :=
  step d fun c _ => entriesInduction step c
termination_by sizeOf d
decreasing_by exact sizeOf_lt_of_mem_entries (by assumption)

/-- Induction from the children of a declaration's value to the declaration. Their values are
shorter. -/
@[elab_as_elim]
theorem childrenInduction {motive : Declaration → Prop}
    (step : ∀ d, (∀ c ∈ children d.value, motive c) → motive d) (d : Declaration) : motive d :=
  step d fun c _ => childrenInduction step c
termination_by Text.byteLength d.value
decreasing_by
  have := byteLength_value_add_two_le (by assumption)
  omega

/-! ## What expansion keeps and what it adds -/

@[simp]
theorem name_expand (d : Declaration) : d.expand.name = d.name := by
  rw [expand_eq]; split <;> rfl

@[simp]
theorem value_expand (d : Declaration) : d.expand.value = d.value := by
  rw [expand_eq]; split <;> rfl

@[simp]
theorem fields_expand (d : Declaration) : d.expand.fields = d.fields := by
  rw [expand_eq]; split <;> rfl

/-- The entries of an expanded declaration are the children of its value, expanded. -/
theorem entries_expand {d : Declaration} (hmap : d.map = none) :
    d.expand.entries = (children d.value).map expand := by
  rw [expand_eq]
  split
  · rename_i h
    simp [entries, hmap, children, List.isEmpty_iff.1 h]
  · rfl

/-- The map of an expanded declaration depends on its value alone. -/
theorem map_expand {d : Declaration} (hmap : d.map = none) :
    d.expand.map = if (MapLiteral.entries d.value).isEmpty then none
      else some ((children d.value).map expand) := by
  rw [expand_eq]
  split
  · exact hmap
  · rfl

/-- A declaration that was read from a text has no map yet. -/
theorem map_of_ofText? {t : Text} {d : Declaration} (h : ofText? t = some d) : d.map = none := by
  obtain ⟨r, _, rfl⟩ := Option.map_eq_some_iff.1 h
  simp [ofStatement, attach_eq, plain]

theorem exists_ofText?_of_mem_children {value : Text} {c : Declaration} (h : c ∈ children value) :
    ∃ t, ofText? t = some c := by
  obtain ⟨r, _, hc⟩ := List.mem_filterMap.1 h
  exact ⟨_, hc⟩

theorem map_of_mem_children {value : Text} {c : Declaration} (h : c ∈ children value) :
    c.map = none := by
  obtain ⟨t, ht⟩ := exists_ofText?_of_mem_children h
  exact map_of_ofText? ht

/-- What is known of all expanded children is known of everything inside an expanded
declaration. -/
theorem forall_mem_nested_expand {p : Declaration → Prop}
    (hchild : ∀ value, ∀ c ∈ children value, p c.expand) {d : Declaration} (hmap : d.map = none) :
    ∀ n ∈ d.expand.nested, p n := by
  induction d using childrenInduction with
  | step d ih =>
    intro n hn
    obtain ⟨e, he, hn⟩ := mem_nested_iff.1 hn
    rw [entries_expand hmap] at he
    obtain ⟨c, hc, rfl⟩ := List.mem_map.1 he
    rcases hn with rfl | hn
    · exact hchild d.value c hc
    · exact ih c hc (map_of_mem_children hc) n hn

/-! ## Expansion as a finite process -/

/-- `e` is `d` with the entries of its value filled in, and theirs in turn, until no value has
entries any more. -/
inductive IsExpansion : Declaration → Declaration → Prop where
  | leaf {d : Declaration} (h : MapLiteral.entries d.value = []) : IsExpansion d d
  | node {d : Declaration} {es : List Declaration} (h : MapLiteral.entries d.value ≠ [])
      (hes : List.Forall₂ IsExpansion (children d.value) es) : IsExpansion d (d.withMap es)

theorem isExpansion_expand (d : Declaration) : IsExpansion d d.expand := by
  induction d using childrenInduction with
  | step d ih =>
    rw [expand_eq]
    split
    · rename_i h
      exact .leaf (List.isEmpty_iff.1 h)
    · rename_i h
      exact .node (mt List.isEmpty_iff.2 h)
        (List.forall₂_map_right_iff.2 (List.forall₂_same.2 ih))

theorem eq_map_of_forall₂ {α β : Type} {r : α → β → Prop} {f : α → β} {as : List α}
    {bs : List β} (h : List.Forall₂ r as bs) (hf : ∀ a ∈ as, ∀ b, r a b → b = f a) :
    bs = as.map f := by
  induction h with
  | nil => rfl
  | cons hab _ ih =>
    obtain ⟨hhead, htail⟩ := List.forall_mem_cons.1 hf
    rw [List.map_cons, hhead _ hab, ih htail]

/-- The process ends for every value, and in one result only. -/
theorem isExpansion_iff {d e : Declaration} : IsExpansion d e ↔ e = d.expand := by
  refine ⟨fun h => ?_, fun h => h ▸ isExpansion_expand d⟩
  induction d using childrenInduction generalizing e with
  | step d ih =>
    rw [expand_eq]
    cases h with
    | leaf h => simp [h]
    | @node _ es h hes =>
      have hchildren := eq_map_of_forall₂ hes fun c hc e he => ih c hc he
      simp [h, hchildren]

end SassVars.Declaration
