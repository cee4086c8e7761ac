import PageContent.Proofs.Phrasing

/-! # Pattern colors

    The operands of `SCN` and `scn`: the components of a color, and the name of a
    pattern after them or not.

    * **The rule**: no more than 32 components, with or without a name, and one
      operand at least.
    * **The check** counts all operands together, and asks of the last one whether it
      is a component or a name. It does not see that the last of 33 operands has to
      be the name, so that 33 components pass.
-/

namespace PageContent

namespace Operand

/-- Components of a color: numbers, and no more of them than a color can have. -/
def AreComponents (xs : List Operand) : Prop :=
  xs.length ≤ Arity.maxColorComponents ∧ ∀ x ∈ xs, x.isNumber = true

/-- The rule for pattern colors. -/
inductive IsPatternColor : List Operand → Prop where
  /-- A color by its components alone. -/
  | components {xs : List Operand} (hne : xs ≠ []) (hxs : AreComponents xs) : IsPatternColor xs
  /-- A pattern by its name, after the components that it is painted with, if any. -/
  | pattern {xs : List Operand} (hxs : AreComponents xs) (text : String) :
      IsPatternColor (xs ++ [.name text])

variable {xs : List Operand} {x : Operand}

theorem kind_eq_name_iff : x.kind = .name ↔ ∃ text, x = .name text := by
  cases x <;> simp [kind]

/-- Every pattern color has a last operand, which is a component or a name. -/
theorem isPatternColor_concat_iff :
    IsPatternColor (xs ++ [x]) ↔
      AreComponents (xs ++ [x]) ∨ AreComponents xs ∧ x.kind = .name := by
  constructor
  · intro h
    generalize hys : xs ++ [x] = ys at h
    cases h with
    | components hne hxs => exact .inl (hys ▸ hxs)
    | pattern hxs text =>
      obtain ⟨rfl, hx⟩ := List.append_inj' hys rfl
      obtain rfl := (List.cons.inj hx).1
      exact .inr ⟨hxs, rfl⟩
  · intro h
    rcases h with hxs | ⟨hxs, hx⟩
    · exact IsPatternColor.components (by simp) hxs
    · obtain ⟨text, rfl⟩ := kind_eq_name_iff.mp hx
      exact IsPatternColor.pattern hxs text

theorem not_isPatternColor_nil : ¬ IsPatternColor [] := by
  intro h
  generalize hys : ([] : List Operand) = ys at h
  cases h with
  | components hne hxs => exact hne hys.symm
  | pattern hxs text => exact absurd hys (by simp)

end Operand

namespace Arity

variable {xs : List Operand} {x : Operand}

/-- What is asked for at each place of a pattern color. -/
theorem demands_patternColor_iff :
    (∀ (i : Nat) (y : Operand) (demand : Demand), (xs ++ [x])[i]? = some y →
      patternColor.demand? i (xs ++ [x]).length = some demand → demand.accepts y = true) ↔
      (∀ y ∈ xs, y.isNumber = true) ∧ (x.isNumber = true ∨ x.kind = .name) := by
  have hlength : (xs ++ [x]).length = xs.length + 1 := List.length_append
  have hlast : (xs ++ [x])[xs.length]? = some x := List.getElem?_concat_length
  rw [hlength]
  constructor
  · intro h
    constructor
    · intro y hy
      obtain ⟨i, hi, hget⟩ := List.mem_iff_getElem.mp hy
      have hat : (xs ++ [x])[i]? = some y := by
        rw [List.getElem?_append_left hi, List.getElem?_eq_getElem hi, hget]
      have hdemand : patternColor.demand? i (xs.length + 1) = some (.exactly .number) := by
        simp [demand?, Nat.ne_of_lt hi]
      exact h i y _ hat hdemand
    · have hdemand : patternColor.demand? xs.length (xs.length + 1) = some .numberOrName := by
        simp [demand?]
      simpa [Demand.accepts] using h xs.length x _ hlast hdemand
  · intro h i y demand hy hdemand
    obtain ⟨hnumbers, hx⟩ := h
    by_cases hi : i < xs.length
    · -- a place before the last
      have hmem : y ∈ xs := by
        rw [List.getElem?_append_left hi] at hy
        exact List.mem_of_getElem? hy
      obtain rfl : Demand.exactly .number = demand := by
        simpa [demand?, Nat.ne_of_lt hi] using hdemand
      exact hnumbers y hmem
    · obtain rfl : i = xs.length := by
        have := (List.getElem?_eq_some_iff.mp hy).1
        omega
      obtain rfl : x = y := Option.some.inj (hlast.symm.trans hy)
      obtain rfl : Demand.numberOrName = demand := by
        simpa [demand?] using hdemand
      simpa [Demand.accepts] using hx

/-- The operands that are accepted for a pattern color. -/
theorem fits_patternColor_iff :
    patternColor.Fits xs ↔ Operand.IsPatternColor xs ∨
      xs.length = maxColorComponents + 1 ∧ ∀ x ∈ xs, x.isNumber = true := by
  rcases List.eq_nil_or_concat xs with rfl | ⟨ys, y, rfl⟩
  · simp [Fits, acceptsCount, Operand.not_isPatternColor_nil]
  · rw [List.concat_eq_append, Operand.isPatternColor_concat_iff]
    have hcount : patternColor.acceptsCount (ys ++ [y]).length = true ↔
        ys.length ≤ maxColorComponents := by
      simp [acceptsCount]
    unfold Fits Operand.AreComponents
    rw [demands_patternColor_iff, hcount]
    simp only [List.mem_append, List.mem_singleton, List.length_append, List.length_singleton]
    constructor
    · intro h
      obtain ⟨hle, hnumbers, hy⟩ := h
      rcases hy with hy | hy
      · have hall : ∀ x, x ∈ ys ∨ x = y → x.isNumber = true := by
          intro x hx
          rcases hx with hx | rfl
          · exact hnumbers x hx
          · exact hy
        -- all are components, and there may be one too many of them
        rcases Nat.lt_or_eq_of_le hle with hlt | heq
        · exact .inl (.inl ⟨hlt, hall⟩)
        · exact .inr ⟨congrArg (· + 1) heq, hall⟩
      · exact .inl (.inr ⟨⟨hle, hnumbers⟩, hy⟩)
    · intro h
      rcases h with (⟨hle, hall⟩ | ⟨⟨hle, hnumbers⟩, hy⟩) | ⟨heq, hall⟩
      · exact ⟨Nat.le_of_succ_le hle, fun x hx => hall x (.inl hx), .inl (hall y (.inr rfl))⟩
      · exact ⟨hle, hnumbers, .inr hy⟩
      · exact ⟨Nat.le_of_eq (Nat.succ_inj.mp heq), fun x hx => hall x (.inl hx),
          .inl (hall y (.inr rfl))⟩

end Arity

namespace Operator

/-- **Pattern colors** are what the operators `SCN` and `scn` accept, together with lists of
    33 components. -/
theorem check_patternColor_iff {keyword : String} (h : keyword = "SCN" ∨ keyword = "scn") :
    ∃ op, lookup? keyword = some op ∧ ∀ xs spans place, op.check xs spans place = .ok () ↔
      Operand.IsPatternColor xs ∨
        xs.length = Arity.maxColorComponents + 1 ∧ ∀ x ∈ xs, x.isNumber = true := by
  have hop : lookup? keyword = some ⟨keyword, .color, .colorN, .patternColor⟩ := by
    rcases h with rfl | rfl
    · decide +kernel
    · decide +kernel
  refine ⟨_, hop, ?_⟩
  intro xs spans place
  rw [check_eq_ok_iff]
  exact Arity.fits_patternColor_iff

/-- A pattern that is painted with 32 components. -/
theorem check_patternColor_painted :
    let xs := List.replicate 32 (Operand.integer 0) ++ [.name "P0"]
    ("scn" = "SCN" ∨ "scn" = "scn") ∧ ∃ op, lookup? "scn" = some op ∧
      Operand.IsPatternColor xs ∧ op.check xs [] ⟨0, 3⟩ = .ok () := by
  intro xs
  have hpattern : Operand.IsPatternColor xs := by
    refine Operand.IsPatternColor.pattern ⟨by decide, ?_⟩ "P0"
    intro x hx
    rw [List.eq_of_mem_replicate hx]
    rfl
  obtain ⟨op, hop, hcheck⟩ := check_patternColor_iff (.inr rfl : "scn" = "SCN" ∨ "scn" = "scn")
  exact ⟨.inr rfl, op, hop, hpattern, (hcheck xs [] ⟨0, 3⟩).mpr (.inl hpattern)⟩

/-- The operators accept 33 components, although these are no pattern color. -/
theorem check_components_of_no_color :
    let xs := List.replicate 33 (Operand.integer 0)
    (∃ op, lookup? "SCN" = some op ∧ op.check xs [] ⟨0, 3⟩ = .ok ()) ∧
    (∃ op, lookup? "scn" = some op ∧ op.check xs [] ⟨0, 3⟩ = .ok ()) ∧
    ¬ Operand.IsPatternColor xs := by
  intro xs
  refine ⟨⟨_, rfl, rfl⟩, ⟨_, rfl, rfl⟩, ?_⟩
  have hxs : xs = List.replicate 32 (Operand.integer 0) ++ [.integer 0] := rfl
  rw [hxs, Operand.isPatternColor_concat_iff]
  intro h
  rcases h with ⟨hle, -⟩ | ⟨-, hkind⟩
  · exact absurd hle (by decide)
  · exact absurd hkind (by decide)

end Operator

end PageContent
