import Mathlib.Data.List.Basic
import SassVars.Proofs.Json.Keys
import SassVars.Proofs.Json.Spacing

/-!
# Nothing is lost in an export

Two exports with the same text come from the same declarations. The text tells which value
was written; what is left is that a value tells which declaration it came from. The fields of
an object are its strings behind the first two, and the entries of a map are the only array.
-/

namespace SassVars

open Json

/-! ## Declarations -/

theorem Field.toMember_injective : Function.Injective Field.toMember := by
  intro f g h
  have htag : f.tag = g.tag := tag_eq_of_key_eq (congrArg Prod.fst h)
  have hvalue : f.value = g.value := Json.string.inj (congrArg Prod.snd h)
  cases f
  cases g
  simp_all

namespace Declaration

/-- A field is a string and the entries are an array, so the fields end where the map starts,
whatever their keys are. -/
theorem toMember_append_inj {fs gs : List Field} {m m' : Option (List Declaration)}
    (h : fs.map Field.toMember ++ mapMember m = gs.map Field.toMember ++ mapMember m') :
    fs = gs ∧ mapMember m = mapMember m' := by
  have hne (f : Field) (ms : List (Text × Json)) (m : Option (List Declaration)) :
      Field.toMember f :: ms ≠ mapMember m := by
    cases m <;> simp [mapMember, Field.toMember]
  induction fs generalizing gs with
  | nil =>
    cases gs with
    | nil => exact ⟨rfl, h⟩
    | cons g gs => exact absurd h.symm (hne _ _ _)
  | cons f fs ih =>
    cases gs with
    | nil => exact absurd h (hne _ _ _)
    | cons g gs =>
      obtain ⟨hfield, htail⟩ := List.cons.inj h
      obtain ⟨rfl, hmap⟩ := ih htail
      exact ⟨by rw [Field.toMember_injective hfield], hmap⟩

theorem eq_of_map_toJson_eq {ds es : List Declaration}
    (hds : ∀ d ∈ ds, ∀ e : Declaration, d.toJson = e.toJson → d = e)
    (h : ds.map toJson = es.map toJson) : ds = es := by
  induction ds generalizing es with
  | nil => simpa [eq_comm] using h
  | cons d ds ih =>
    cases es with
    | nil => simp at h
    | cons e es => grind

/-- A map without entries is written, so it differs from no map at all. -/
theorem eq_of_mapMember_eq {m m' : Option (List Declaration)}
    (hm : ∀ d ∈ m.getD [], ∀ e : Declaration, d.toJson = e.toJson → d = e)
    (h : mapMember m = mapMember m') : m = m' := by
  cases m with
  | none => cases m' <;> simp_all [mapMember]
  | some ds =>
    cases m' with
    | none => simp [mapMember] at h
    | some es =>
      have hentries : ds.map toJson = es.map toJson := by
        simpa [mapMember, listToJson_eq_map] using h
      exact congrArg some (eq_of_map_toJson_eq hm hentries)

theorem toJson_injective : Function.Injective toJson := by
  intro d e h
  induction d using entriesInduction generalizing e with
  | step d ih =>
    rw [toJson_eq, toJson_eq] at h
    simp only [members, Json.object.injEq, List.cons.injEq, Prod.mk.injEq, true_and,
      Json.string.injEq] at h
    obtain ⟨hname, hvalue, hmembers⟩ := h
    obtain ⟨hfields, hmember⟩ := toMember_append_inj hmembers
    have hmap : d.map = e.map := eq_of_mapMember_eq (fun c hc e h => ih c hc h) hmember
    cases d
    cases e
    simp_all

theorem arrayToJson_injective : Function.Injective arrayToJson := by
  intro ds es h
  exact List.map_injective_iff.2 toJson_injective (Json.array.inj h)

end Declaration

/-! ## Sections -/

namespace Section

theorem toMember_injective : Function.Injective toMember := by
  intro s s' h
  have hname : s.name = s'.name := congrArg Prod.fst h
  have hdeclarations := Declaration.arrayToJson_injective (congrArg Prod.snd h)
  cases s
  cases s'
  simp_all

/-- Sections as they are exported, also where two of them have the same name. -/
def objectOf (l : List Section) : Json :=
  .object (l.map toMember)

theorem objectOf_injective : Function.Injective objectOf := by
  intro l l' h
  exact List.map_injective_iff.2 toMember_injective (Json.object.inj h)

end Section

theorem Sections.toJson_injective : Function.Injective Sections.toJson := by
  intro s s' h
  obtain ⟨l, hdistinct⟩ := s
  obtain ⟨l', hdistinct'⟩ := s'
  obtain rfl : l = l' := Section.objectOf_injective h
  rfl

/-- The text of an export determines what was exported: a list of declarations, or sections in
their order. Names need not be distinct for this, neither those of sections nor the tags of
fields. The indented text is the compact one with space added outside of its strings. -/
theorem export_lossless :
    Function.Injective (fun ds : List Declaration => (Declaration.arrayToJson ds).compact) ∧
    Function.Injective (fun s : Sections => s.toJson.compact) ∧
    Function.Injective (fun l : List Section => (Section.objectOf l).compact) ∧
    (∀ s : Sections, withoutSpace s.toJson.pretty = s.toJson.compact) ∧
    ∀ l : List Section, withoutSpace (Section.objectOf l).pretty = (Section.objectOf l).compact := by
  refine ⟨?_, ?_, ?_, fun s => withoutSpace_pretty _, fun l => withoutSpace_pretty _⟩
  · exact compact_injective.comp Declaration.arrayToJson_injective
  · exact compact_injective.comp Sections.toJson_injective
  · exact compact_injective.comp Section.objectOf_injective

end SassVars
