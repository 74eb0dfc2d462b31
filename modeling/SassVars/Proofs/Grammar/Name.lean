import SassVars.Identifier

/-!
# The grammar of names

The name of a variable with the quotes that may stand around it, said without a reader.

## Main definitions

* `IsIdentifier`: an identifier.
* `IsVariableName`: an identifier with an optional quote on either side.
-/

namespace SassVars

open Reader

/-! ## Identifiers and quotes -/

def IsIdentifier (n : Text) : Prop :=
  ∃ c cs, n = c :: cs ∧ Text.isIdentStart c = true ∧ ∀ d ∈ cs, Text.isIdentChar d = true

theorem IsIdentifier.all {n : Text} (h : IsIdentifier n) : n.all Text.isIdentChar = true := by
  obtain ⟨d, ds, rfl, hd, hds⟩ := h
  exact List.all_eq_true.2 (List.forall_mem_cons.2 ⟨Text.isIdentChar_of_isIdentStart hd, hds⟩)

theorem IsIdentifier.not_mem {n : Text} (h : IsIdentifier n) {c : Char}
    (hc : Text.isIdentChar c = false) : c ∉ n := by
  intro hmem
  rw [List.all_eq_true.1 h.all c hmem] at hc
  contradiction

/-- Nothing, or one quote of either kind. -/
def IsOptionalQuote (q : Text) : Prop :=
  q = [] ∨ ∃ c, Text.isQuote c = true ∧ q = [c]

theorem not_isQuote_of_isIdentStart {c : Char} (h : Text.isIdentStart c = true) :
    Text.isQuote c = false := by
  refine Bool.eq_false_iff.2 fun hq => ?_
  simp only [Text.isQuote, Bool.or_eq_true, beq_iff_eq] at hq
  rcases hq with rfl | rfl <;> exact absurd h (by decide)

theorem not_isIdentChar_of_isQuote {c : Char} (h : Text.isQuote c = true) :
    Text.isIdentChar c = false := by
  simp only [Text.isQuote, Bool.or_eq_true, beq_iff_eq] at h
  rcases h with rfl | rfl <;> decide

theorem read_anyQuote_eq_ok_iff {t : Text} {r : Reading Char} :
    (anyOf ['\'', '"']).read t = .ok r ↔
      ∃ c rest, Text.isQuote c = true ∧ t = c :: rest ∧ r = ⟨c, [c], rest⟩ := by
  rw [anyOf, read_one_eq_ok_iff]
  simp [Text.isQuote]

theorem read_optionalQuote {q rest : Text} (hq : IsOptionalQuote q)
    (hrest : ∀ c ∈ rest.head?, Text.isQuote c = false) :
    ∃ v, (optional (anyOf ['\'', '"'])).read (q ++ rest) = .ok ⟨v, q, rest⟩ := by
  simp only [read_optional_eq_ok_iff]
  rcases hq with rfl | ⟨c, hc, rfl⟩
  · refine ⟨none, .inr ⟨fun a ha => ?_, rfl⟩⟩
    obtain ⟨c, u, hc, hu, _⟩ := read_anyQuote_eq_ok_iff.1 ha
    rw [List.nil_append] at hu
    rw [hrest c (by simp [hu])] at hc
    contradiction
  · exact ⟨some c, .inl ⟨_, read_anyQuote_eq_ok_iff.2 ⟨c, rest, hc, rfl, rfl⟩, rfl⟩⟩

theorem isOptionalQuote_of_read {t : Text} {r : Reading (Option Char)}
    (h : (optional (anyOf ['\'', '"'])).read t = .ok r) : IsOptionalQuote r.text := by
  simp only [read_optional_eq_ok_iff, read_anyQuote_eq_ok_iff] at h
  obtain ⟨_, ⟨c, rest, hc, rfl, rfl⟩, rfl⟩ | ⟨_, rfl⟩ := h
  · exact .inr ⟨c, hc, rfl⟩
  · exact .inl rfl

/-- An identifier reads back in front of anything that does not go on with it. -/
theorem Identifier.read_of_isIdentifier {n rest : Text} (hn : IsIdentifier n)
    (hrest : ∀ c ∈ rest.head?, Text.isIdentChar c = false) :
    Identifier.reader.read (n ++ rest) = .ok ⟨n, n, rest⟩ := by
  obtain ⟨c, cs, rfl, hc, hcs⟩ := hn
  have hrun : Text.IsRun Text.isIdentChar cs rest := ⟨hcs, hrest⟩
  refine Identifier.read_eq_ok_iff.2 ⟨c, cs ++ rest, hc, rfl, ?_⟩
  rw [hrun.takeWhile_eq, hrun.dropWhile_eq]

theorem Identifier.isIdentifier_of_read {t : Text} {r : Reading Text}
    (h : Identifier.reader.read t = .ok r) : IsIdentifier r.value ∧ r.text = r.value := by
  obtain ⟨c, cs, hc, rfl, rfl⟩ := Identifier.read_eq_ok_iff.1 h
  exact ⟨⟨c, _, rfl, hc, (Text.isRun_takeWhile Text.isIdentChar cs).all⟩, rfl⟩

/-! ## Variable names -/

/-- A name as it stands in a statement. The quotes around it need not agree. -/
def IsVariableName (name text : Text) : Prop :=
  ∃ q₁ q₂, IsOptionalQuote q₁ ∧ IsIdentifier name ∧ IsOptionalQuote q₂ ∧
    text = q₁ ++ (name ++ q₂)

theorem IsIdentifier.isVariableName {n : Text} (h : IsIdentifier n) : IsVariableName n n :=
  ⟨[], [], .inl rfl, h, .inl rfl, by simp⟩

theorem VariableName.isVariableName_of_read {t : Text} {r : Reading Text}
    (h : VariableName.reader.read t = .ok r) : IsVariableName r.value r.text := by
  simp only [VariableName.reader, read_bind_eq_ok_iff, read_pure, Except.ok.injEq] at h
  obtain ⟨q₁, _, hq₁, ⟨n, _, hn, ⟨q₂, _, hq₂, rfl, rfl⟩, rfl⟩, rfl⟩ := h
  obtain ⟨hname, htext⟩ := Identifier.isIdentifier_of_read hn
  refine ⟨q₁.text, q₂.text, isOptionalQuote_of_read hq₁, hname, isOptionalQuote_of_read hq₂, ?_⟩
  simp [htext]

/-- A name reads back in front of anything that does not go on with it. -/
theorem VariableName.read_of_isVariableName {name text rest : Text}
    (h : IsVariableName name text)
    (hrest : ∀ c ∈ rest.head?, Text.isIdentChar c = false ∧ Text.isQuote c = false) :
    VariableName.reader.read (text ++ rest) = .ok ⟨name, text, rest⟩ := by
  obtain ⟨q₁, q₂, hq₁, hname, hq₂, rfl⟩ := h
  have hstart : ∀ c ∈ (name ++ (q₂ ++ rest)).head?, Text.isQuote c = false := by
    obtain ⟨c, cs, rfl, hc, _⟩ := hname
    simpa using not_isQuote_of_isIdentStart hc
  have hend : ∀ c ∈ (q₂ ++ rest).head?, Text.isIdentChar c = false := by
    rcases hq₂ with rfl | ⟨c, hc, rfl⟩
    · exact fun c hc => (hrest c hc).1
    · simpa using not_isIdentChar_of_isQuote hc
  obtain ⟨v₁, hv₁⟩ := read_optionalQuote hq₁ hstart
  obtain ⟨v₂, hv₂⟩ := read_optionalQuote hq₂ fun c hc => (hrest c hc).2
  have hread := Identifier.read_of_isIdentifier hname hend
  simp only [VariableName.reader, read_bind, List.append_assoc, hv₁, hread, hv₂, read_pure,
    List.append_nil]

end SassVars
