import Mathlib.Algebra.BigOperators.Ring.List
import Mathlib.Algebra.Order.BigOperators.Group.List
import Mathlib.Algebra.Order.Ring.Nat
import SassVars.Proofs.Expansion.Nested

/-!
# The size of an expansion

The entries of a value stand in it side by side, and each child gives up at least two bytes of
its entry. So the values of all children together are shorter than the value that they came
from. The same holds of each child in its turn, which bounds how many declarations an expansion
can hold by half the length of its value.
-/

namespace SassVars.Declaration

open Reader

/-- A child's value is at least two bytes shorter than the entry that it came from. -/
theorem byteLength_value_add_two_le_text {r : Reading MapLiteral.Entry} {c : Declaration}
    (h : ofText? (MapLiteral.asStatement r.text) = some c) :
    Text.byteLength c.value + 2 ≤ Text.byteLength r.text := by
  have h₁ := byteLength_value_add_four_le h
  have h₂ := MapLiteral.byteLength_asStatement_le r.text
  omega

/-- The children of some entries need no more room than the entries themselves. -/
theorem sum_filterMap_le (rs : List (Reading MapLiteral.Entry)) :
    ((rs.filterMap fun r => ofText? (MapLiteral.asStatement r.text)).map
      fun c => Text.byteLength c.value + 2).sum ≤ Text.byteLength (rs.flatMap (·.text)) := by
  induction rs with
  | nil => simp
  | cons r rs ih =>
    rw [List.flatMap_cons, Text.byteLength_append]
    cases hc : ofText? (MapLiteral.asStatement r.text) with
    | none =>
      simp only [List.filterMap_cons, hc]
      omega
    | some c =>
      have := byteLength_value_add_two_le_text hc
      simp only [List.filterMap_cons, hc, List.map_cons, List.sum_cons]
      omega

theorem sum_children_le (value : Text) :
    ((children value).map fun c => Text.byteLength c.value + 2).sum ≤ Text.byteLength value :=
  calc ((children value).map fun c => Text.byteLength c.value + 2).sum
      _ ≤ Text.byteLength ((MapLiteral.entries value).flatMap (·.text)) := sum_filterMap_le _
      _ ≤ Text.byteLength value := byteLength_scan_le _ value

/-- The values of the entries of an expanded declaration fit into its own. -/
theorem sum_entries_expand_le {d : Declaration} (hmap : d.map = none) :
    (d.expand.entries.map fun c => Text.byteLength c.value + 2).sum ≤
      Text.byteLength d.expand.value := by
  simpa only [entries_expand hmap, List.map_map, Function.comp_def, value_expand] using
    sum_children_le d.value

/-- Each entry counts for two bytes of the value, besides those of its own value. -/
theorem two_mul_length_nested_le {d : Declaration} (hmap : d.map = none) :
    2 * d.expand.nested.length ≤ Text.byteLength d.value := by
  induction d using childrenInduction with
  | step d ih =>
    have hchild : ∀ c ∈ children d.value,
        2 * (c.expand.nested.length + 1) ≤ Text.byteLength c.value + 2 := by
      intro c hc
      have := ih c hc (map_of_mem_children hc)
      omega
    calc 2 * d.expand.nested.length
        _ = ((children d.value).map fun c => 2 * (c.expand.nested.length + 1)).sum := by
          rw [nested_eq_flatMap, List.length_flatMap, entries_expand hmap, List.map_map,
            List.sum_map_mul_left]
          rfl
        _ ≤ ((children d.value).map fun c => Text.byteLength c.value + 2).sum :=
          List.sum_le_sum hchild
        _ ≤ Text.byteLength d.value := sum_children_le d.value

/-- Expansion ends for every value in one result. At every depth the values of the entries fit
into the value that holds them, with two bytes to spare for each. So a value is longer by two
bytes than the value of each of its entries, and the declarations inside an expanded one are no
more than half of the bytes of its value. -/
theorem expand_bounded {d : Declaration} (hmap : d.map = none) :
    (∀ e, IsExpansion d e ↔ e = d.expand) ∧ d.expand.value = d.value ∧
    (∀ n ∈ d.expand :: d.expand.nested,
      (n.entries.map fun c => Text.byteLength c.value + 2).sum ≤ Text.byteLength n.value ∧
        ∀ c ∈ n.entries, Text.byteLength c.value + 2 ≤ Text.byteLength n.value) ∧
    2 * d.expand.nested.length ≤ Text.byteLength d.value := by
  have hsum : ∀ n ∈ d.expand :: d.expand.nested,
      (n.entries.map fun c => Text.byteLength c.value + 2).sum ≤ Text.byteLength n.value := by
    refine List.forall_mem_cons.2 ⟨sum_entries_expand_le hmap, ?_⟩
    exact forall_mem_nested_expand (fun _ _ hc => sum_entries_expand_le (map_of_mem_children hc))
      hmap
  refine ⟨fun e => isExpansion_iff, value_expand d, fun n hn => ⟨hsum n hn, fun c hc => ?_⟩,
    two_mul_length_nested_le hmap⟩
  have hone := List.le_sum_of_mem (List.mem_map_of_mem
    (f := fun c : Declaration => Text.byteLength c.value + 2) hc)
  exact hone.trans (hsum n hn)

/-- A map with a map inside. -/
def nestedMap : Declaration :=
  plain "sizes".toList "(a: 1px, b: (c: 2, d: 3))".toList

theorem expand_bounded_nestedMap :
    nestedMap.map = none ∧ nestedMap.expand.nested.length = 4 ∧
      2 * nestedMap.expand.nested.length ≤ Text.byteLength nestedMap.value :=
  ⟨rfl, by decide +kernel, (expand_bounded rfl).2.2.2⟩

end SassVars.Declaration
