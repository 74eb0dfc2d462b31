import SassVars.Export
import SassVars.Proofs.Expansion.Nested

/-!
# Keys of an export

Whoever reads JSON may keep only one of two members with the same key. The keys of an exported
declaration cannot clash as long as its tags are distinct: those of the fields have an opening
of their own, and that opening hides no difference between two tags.

## Main definitions

* `Json.HasDistinctKeys`: no object in a value repeats a key, at any depth.
-/

namespace SassVars

namespace Json

/-- No object in a value repeats a key, at any depth. -/
inductive HasDistinctKeys : Json → Prop where
  | string (t : Text) : HasDistinctKeys (.string t)
  | array {xs : List Json} (h : ∀ x ∈ xs, HasDistinctKeys x) : HasDistinctKeys (.array xs)
  | object {ms : List (Text × Json)} (hkeys : (ms.map Prod.fst).Nodup)
      (h : ∀ m ∈ ms, HasDistinctKeys m.2) : HasDistinctKeys (.object ms)

end Json

open Json

/-! ## Keys of the fields -/

namespace Field

theorem tag_eq_of_key_eq {f g : Field} (h : f.key = g.key) : f.tag = g.tag :=
  List.append_cancel_left h

theorem nodup_keys {fs : List Field} (h : (fs.map tag).Nodup) : (fs.map key).Nodup := by
  rw [List.Nodup, List.pairwise_map] at h ⊢
  exact h.imp fun hne hkey => hne (tag_eq_of_key_eq hkey)

/-- The opening tells the key of a field from every key that starts otherwise. -/
theorem key_ne {k : Text} (h : k.head? ≠ some 'e') (f : Field) : f.key ≠ k := by
  rintro rfl
  exact h rfl

end Field

/-! ## Declarations and sections -/

namespace Declaration

/-- The members of a declaration's object. -/
def members (d : Declaration) : List (Text × Json) :=
  ("name".toList, .string d.name) :: ("value".toList, .string d.value) ::
    (d.fields.map Field.toMember ++ mapMember d.map)

theorem toJson_eq (d : Declaration) : d.toJson = .object d.members := by
  cases d
  simp [toJson, members]

theorem mapMember_some (ds : List Declaration) :
    mapMember (some ds) = [("mapValue".toList, arrayToJson ds)] := by
  rw [mapMember, listToJson_eq_map, arrayToJson]

theorem keys_fields (fs : List Field) :
    (fs.map Field.toMember).map Prod.fst = fs.map Field.key := by
  simp [Field.toMember]

theorem nodup_keys_members {d : Declaration} (h : (d.fields.map Field.tag).Nodup) :
    (d.members.map Prod.fst).Nodup := by
  have hfield : ∀ k : Text, k.head? ≠ some 'e' → k ∉ d.fields.map Field.key := by
    intro k hk hmem
    obtain ⟨f, _, hf⟩ := List.mem_map.1 hmem
    exact Field.key_ne hk f hf
  have hname := hfield "name".toList (by decide)
  have hvalue := hfield "value".toList (by decide)
  have hmap := hfield "mapValue".toList (by decide)
  have hkeys := Field.nodup_keys h
  cases hm : d.map <;>
    simp only [members, hm, mapMember, List.map_cons, List.map_append, keys_fields, List.map_nil] <;>
    grind

theorem hasDistinctKeys_arrayToJson {ds : List Declaration}
    (h : ∀ d ∈ ds, d.toJson.HasDistinctKeys) : (arrayToJson ds).HasDistinctKeys :=
  .array (List.forall_mem_map.2 h)

theorem hasDistinctKeys_of_mem_mapMember {d : Declaration}
    (h : ∀ c ∈ d.entries, c.toJson.HasDistinctKeys) {m : Text × Json} (hm : m ∈ mapMember d.map) :
    m.2.HasDistinctKeys := by
  cases hmap : d.map with
  | none => simp [hmap, mapMember] at hm
  | some ds =>
    have hentries : d.entries = ds := by simp [entries, hmap]
    rw [hmap, mapMember_some, List.mem_singleton] at hm
    rw [hm]
    exact hasDistinctKeys_arrayToJson (hentries ▸ h)

/-- It is enough that the tags are distinct in every declaration of the tree. -/
theorem hasDistinctKeys_toJson {d : Declaration}
    (h : ∀ n ∈ d :: d.nested, (n.fields.map Field.tag).Nodup) : d.toJson.HasDistinctKeys := by
  induction d using entriesInduction with
  | step d ih =>
    obtain ⟨htags, hnested⟩ := List.forall_mem_cons.1 h
    have hentries : ∀ c ∈ d.entries, c.toJson.HasDistinctKeys := fun c hc =>
      ih c hc fun n hn => hnested n (mem_nested_iff.2 ⟨c, hc, List.mem_cons.1 hn⟩)
    rw [toJson_eq]
    refine .object (nodup_keys_members htags) fun m hm => ?_
    simp only [members, List.mem_cons, List.mem_append, List.mem_map] at hm
    rcases hm with rfl | rfl | ⟨f, _, rfl⟩ | hm
    · exact .string _
    · exact .string _
    · exact .string _
    · exact hasDistinctKeys_of_mem_mapMember hentries hm

end Declaration

theorem Sections.hasDistinctKeys_toJson {s : Sections}
    (h : ∀ x ∈ s.toList, ∀ d ∈ x.declarations, d.toJson.HasDistinctKeys) :
    s.toJson.HasDistinctKeys := by
  refine .object ?_ (List.forall_mem_map.2 fun x hx => ?_)
  · simpa [Section.toMember, Function.comp_def] using s.distinct
  · exact Declaration.hasDistinctKeys_arrayToJson (h x hx)

end SassVars
