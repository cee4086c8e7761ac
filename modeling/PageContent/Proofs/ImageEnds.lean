import PageContent.Proofs.Confinement

/-! # The first terminator

    Where image data ends, in terms of the positions at which an `EI` stands that can
    end it. Of these the first one counts, and no other.

    * **Terminators** are `EI` with a blank or the end of the bytes after them. They
      follow a blank, or stand where the data begins.
    * **The search** finds nothing if and only if there is no terminator. A blank after
      the data neither adds terminators to it nor takes any away.
    * **After `ID`** the lexer reads the data up to the first terminator, without the
      blank before it, and then the terminator itself.
-/

namespace PageContent

namespace InlineData

/-! ## Terminators -/

/-- There is a blank right before position `i`. -/
def followsBlank (bytes : List UInt8) : Nat → Bool
  | 0 => false
  | i + 1 => bytes[i]?.any Byte.isBlank

/-- An `EI` that can end image data stands at position `i`. The data begins at `start`. -/
structure IsTerminator (start : Nat) (bytes : List UInt8) (i : Nat) : Prop where
  mark : ∃ r, bytes.drop i = InlineData.mark ++ r ∧ StandsAlone r
  before : i = start ∨ followsBlank bytes i = true

variable {start i j : Nat} {bytes d r rest : List UInt8} {b : UInt8}

theorem isTerminator_iff :
    IsTerminator start bytes i ↔
      startsTerminator (bytes.drop i) = true ∧ (i = start ∨ followsBlank bytes i = true) :=
  ⟨fun h => ⟨startsTerminator_iff.mpr h.mark, h.before⟩,
    fun h => ⟨startsTerminator_iff.mp h.1, h.2⟩⟩

instance : Decidable (IsTerminator start bytes i) :=
  decidable_of_iff _ isTerminator_iff.symm

theorem IsTerminator.le_length (h : IsTerminator start bytes i) : i + 2 ≤ bytes.length := by
  obtain ⟨r, hdrop, -⟩ := h.mark
  have hlength := congrArg List.length hdrop
  rw [List.length_drop, List.length_append] at hlength
  have htwo : InlineData.mark.length = 2 := rfl
  omega

/-- The positions of the data from what is before it. -/
theorem isTerminator_cons :
    IsTerminator 1 (b :: bytes) (i + 1) ↔ IsTerminator 0 bytes i := by
  rw [isTerminator_iff, isTerminator_iff, List.drop_succ_cons]
  cases i with
  | zero => simp
  | succ i => simp [followsBlank]

/-- A blank after some bytes leaves their terminators as they are. -/
theorem isTerminator_append_blank (hb : Byte.isBlank b = true) (hi : i < d.length) :
    IsTerminator start (d ++ b :: rest) i ↔ IsTerminator start d i := by
  have hfollows : followsBlank (d ++ b :: rest) i = followsBlank d i := by
    cases i with
    | zero => rfl
    | succ i =>
      simp only [followsBlank]
      rw [List.getElem?_append_left (by omega)]
  have hdrop : (d ++ b :: rest).drop i = d[i] :: (d.drop (i + 1) ++ b :: rest) := by
    rw [List.drop_append_of_le_length (by omega), List.drop_eq_getElem_cons hi]
    rfl
  rw [isTerminator_iff, isTerminator_iff, hfollows, hdrop,
    startsTerminator_append_blank hb, ← List.drop_eq_getElem_cons hi]

/-! ## The search -/

theorem terminator?_eq_none_iff {mayStart : Bool} :
    terminator? mayStart bytes = none ↔
      ∀ i, startsTerminator (bytes.drop i) = true →
        ¬ (i = 0 ∧ mayStart = true ∨ followsBlank bytes i = true) := by
  induction bytes generalizing mayStart with
  | nil => simp [terminator?, startsTerminator]
  | cons b bytes ih =>
    rw [terminator?_cons, ← Nat.and_forall_add_one]
    -- position 0 is this byte, and the others are those of the bytes after it
    have hlater : (∀ i, startsTerminator ((b :: bytes).drop (i + 1)) = true →
        ¬ (i + 1 = 0 ∧ mayStart = true ∨ followsBlank (b :: bytes) (i + 1) = true)) ↔
        terminator? (Byte.isBlank b) bytes = none := by
      rw [ih]
      refine forall_congr' fun i => ?_
      cases i with
      | zero => simp [followsBlank]
      | succ i => simp [followsBlank]
    rw [hlater]
    cases mayStart with
    | false => simp [followsBlank]
    | true =>
      by_cases hstarts : startsTerminator (b :: bytes) = true
      · simp [hstarts]
      · simp [hstarts]

theorem length?_eq_none_iff : length? bytes = none ↔ ∀ i, ¬ IsTerminator 0 bytes i := by
  unfold length?
  rw [Option.map_eq_none_iff, terminator?_eq_none_iff]
  simp only [isTerminator_iff, and_true, not_and]

/-- The blank after the data is not needed to say that it has no terminators. -/
theorem unterminated_iff : Unterminated d ↔ ∀ i, ¬ IsTerminator 0 d i := by
  unfold Unterminated
  rw [← Option.map_eq_none_iff, ← length?, length?_eq_none_iff]
  have hblank : Byte.isBlank 0x20 = true := by decide
  constructor
  · intro h i hi
    have hlength := hi.le_length
    exact h i ((isTerminator_append_blank hblank (by omega)).mpr hi)
  · intro h i hi
    have hlength := hi.le_length
    rw [List.length_append, List.length_singleton] at hlength
    exact h i ((isTerminator_append_blank hblank (by omega)).mp hi)

theorem standsAlone_append_blank (hb : Byte.isBlank b = true) (hr : StandsAlone r) :
    StandsAlone (r ++ b :: rest) := by
  refine standsAlone_append_imp (r := []) ?_ (by rwa [List.append_nil])
  intro _ x hx
  exact Option.some.inj hx ▸ hb

/-- There are no terminators in what is before the first one. -/
theorem unterminated_take (hj : j < d.length) (hblank : Byte.isBlank d[j] = true)
    (hfirst : ∀ k < j, ¬ IsTerminator 0 d k) : Unterminated (d.take j) := by
  rw [unterminated_iff]
  intro k hk
  have hle := hk.le_length
  rw [List.length_take] at hle
  have hsplit : d = d.take j ++ d[j] :: d.drop (j + 1) := by
    rw [← List.drop_eq_getElem_cons hj, List.take_append_drop]
  refine hfirst k (by omega) ?_
  rw [hsplit]
  refine (isTerminator_append_blank hblank ?_).mpr hk
  rw [List.length_take]
  omega

/-- The data that ends at its first terminator, with a blank and more after it. -/
theorem exists_delimits (hi : IsTerminator 0 d i) (hfirst : ∀ j < i, ¬ IsTerminator 0 d j)
    (hb : Byte.isBlank b = true) (rest : List UInt8) :
    ∃ gap r, d ++ b :: rest = d.take (i - 1) ++ (gap ++ (mark ++ r)) ∧
      (d.take (i - 1)).length + gap.length = i ∧ Delimits (d.take (i - 1)) gap r := by
  have hlength := hi.le_length
  obtain ⟨⟨r, hdrop, hr⟩, hbefore⟩ := hi
  have hr' : StandsAlone (r ++ b :: rest) := standsAlone_append_blank hb hr
  cases i with
  | zero =>
    rw [List.drop_zero] at hdrop
    refine ⟨[], r ++ b :: rest, ?_, rfl, hr', .inl ⟨rfl, rfl⟩⟩
    simp [hdrop]
  | succ j =>
    -- the byte before the terminator is a blank, and no part of the data
    have hj : j < d.length := by omega
    have hblank : Byte.isBlank d[j] = true := by
      rcases hbefore with hzero | hblank
      · exact absurd hzero (by omega)
      · simpa [followsBlank, hj] using hblank
    have hd : d = d.take j ++ d[j] :: (mark ++ r) := by
      rw [← hdrop, ← List.drop_eq_getElem_cons hj, List.take_append_drop]
    have htake : (d.take j).length = j := by
      rw [List.length_take]
      omega
    refine ⟨[d[j]], r ++ b :: rest, ?_, ?_, hr', .inr ⟨d[j], rfl, hblank, ?_⟩⟩
    · rw [Nat.add_sub_cancel]
      calc d ++ b :: rest
          = (d.take j ++ d[j] :: (mark ++ r)) ++ b :: rest := by rw [← hd]
        _ = d.take j ++ ([d[j]] ++ (mark ++ (r ++ b :: rest))) := by simp
    · rw [Nat.add_sub_cancel, htake, List.length_singleton]
    · rw [Nat.add_sub_cancel]
      exact unterminated_take hj hblank fun k hk => hfirst k (by omega)

end InlineData

namespace Lexer

open InlineData

variable {l l' : Lexer} {t : Token}

/-! ## After the operator -/

/-- From `l` on the lexer reads `data`, and then the terminator that stands `i` bytes
    after the start of the data. All bytes after it are left. -/
def ReadsImage (l : Lexer) (data : List UInt8) (i : Nat) : Prop :=
  ∃ l₁ : Lexer,
    l.next = (.ok ⟨.inlineData data,
      ⟨l.position + l.gap, l.position + l.gap + data.length⟩⟩, l₁) ∧
    l₁.next = (.ok ⟨.operator "EI",
        ⟨l.position + l.gap + i, l.position + l.gap + i + 2⟩⟩,
      ⟨(l.rest.drop l.gap).drop (i + 2), l.position + l.gap + i + 2, false⟩)

theorem gap_of_dataNext (h : l.dataNext = true) : l.gap = separator l.rest := by
  rw [gap, h, if_pos rfl]

theorem readsImage_of_delimits {data gap r : List UInt8} (hnext : l.dataNext = true)
    (hrest : l.rest.drop l.gap = data ++ (gap ++ (mark ++ r))) (h : Delimits data gap r) :
    l.ReadsImage data (data.length + gap.length) := by
  obtain ⟨bytes, position, dataNext⟩ := l
  obtain rfl : dataNext = true := hnext
  rw [ReadsImage, gap_of_dataNext rfl]
  rw [gap_of_dataNext rfl] at hrest
  have htake : (bytes.take (separator bytes)).length = separator bytes := by
    rw [List.length_take]
    exact Nat.min_eq_left (separator_le_length bytes)
  have hbytes : bytes.take (separator bytes) ++ (data ++ (gap ++ (mark ++ r))) = bytes := by
    rw [← hrest, List.take_append_drop]
  have hsep : separator (bytes.take (separator bytes) ++ (data ++ (gap ++ (mark ++ r)))) =
      (bytes.take (separator bytes)).length := by
    rw [hbytes, htake]
  have hdata := next_data hsep h position
  rw [hbytes, htake] at hdata
  have hmark := next_mark h (position + separator bytes + data.length)
  rw [Nat.add_assoc _ data.length gap.length] at hmark
  have hafter : (bytes.drop (separator bytes)).drop (data.length + gap.length + 2) = r := by
    rw [hrest, ← List.append_assoc, ← List.append_assoc]
    exact List.drop_left' (by simp [mark, Nat.add_assoc])
  refine ⟨_, hdata, ?_⟩
  rw [hafter]
  exact hmark

theorem next_of_unterminated (hnext : l.dataNext = true)
    (h : ∀ i, ¬ IsTerminator (separator l.rest) l.rest i) :
    ∃ l₁, l.next = (.error ⟨l.position + separator l.rest, .unterminatedData⟩, l₁) := by
  have hnone : length? (l.rest.drop l.gap) = none := by
    rw [length?_eq_none_iff, gap_of_dataNext hnext]
    intro i hi
    cases hrest : l.rest with
    | nil =>
      rw [hrest] at hi
      exact absurd hi.le_length (by simp)
    | cons b bytes =>
      rw [hrest] at h hi
      by_cases hb : Byte.isBlank b = true
      · simp only [separator, if_pos hb, List.drop_one, List.tail_cons] at h hi
        exact h (i + 1) (isTerminator_cons.mpr hi)
      · simp only [separator, if_neg hb, List.drop_zero] at h hi
        exact h i hi
  have hread : l.reading = .fault .unterminatedData 0 0 := by
    rw [reading, hnext, if_pos rfl, Reading.inlineData, hnone]
  rw [next, hread, gap_of_dataNext hnext]
  exact ⟨_, rfl⟩

/-- **Image data** ends at the first terminator. Right after `ID`, with a space, `d`,
    another space and a terminator left, the data is `d`, unless there is a terminator
    within `d` already. With no terminator at all there is a fault. -/
theorem readsImage_of_operator (h : l.next = (.ok t, l')) (ht : t.lexeme = .operator "ID") :
    (∀ d r, StandsAlone r → l'.rest = 0x20 :: (d ++ 0x20 :: (mark ++ r)) →
      ((∀ i, ¬ IsTerminator 0 d i) → l'.ReadsImage d (d.length + 1)) ∧
      ∀ i, IsTerminator 0 d i → (∀ j < i, ¬ IsTerminator 0 d j) →
        l'.ReadsImage (d.take (i - 1)) i) ∧
    ((∀ i, ¬ IsTerminator (separator l'.rest) l'.rest i) →
      ∃ l₁, l'.next = (.error ⟨l'.position + separator l'.rest, .unterminatedData⟩, l₁)) := by
  have hdata : l'.dataNext = true := by
    have hiff := dataNext_iff (l := l)
    rw [h] at hiff
    exact hiff.mpr ⟨t, rfl, ht⟩
  have hblank : Byte.isBlank 0x20 = true := by decide
  refine ⟨?_, next_of_unterminated hdata⟩
  intro d r hr hrest
  have hdrop : l'.rest.drop l'.gap = d ++ 0x20 :: (mark ++ r) := by
    rw [gap_of_dataNext hdata, hrest]
    rfl
  constructor
  · intro hnone
    have hdelimits : Delimits d [0x20] r :=
      ⟨hr, .inr ⟨0x20, rfl, hblank, unterminated_iff.mpr hnone⟩⟩
    exact readsImage_of_delimits hdata hdrop hdelimits
  · intro i hi hfirst
    obtain ⟨gap, r', hsplit, hlength, hdelimits⟩ := exists_delimits hi hfirst hblank (mark ++ r)
    rw [hsplit] at hdrop
    have hreads := readsImage_of_delimits hdata hdrop hdelimits
    rwa [hlength] at hreads

/-- Two times `EI` that end nothing, and then two that could. -/
theorem readsImage_of_operator_twice :
    ∃ t l', (ofBytes (Byte.ofChars "ID xEI EIy EI EI".toList)).next = (.ok t, l') ∧
      t.lexeme = .operator "ID" ∧ l'.ReadsImage (Byte.ofChars "xEI EIy".toList) 8 := by
  have hread : (ofBytes (Byte.ofChars "ID xEI EIy EI EI".toList)).reading =
      .token (.operator "ID") 2 := by
    decide +kernel
  have hnext := next_of_token hread
  obtain ⟨himage, -⟩ := readsImage_of_operator hnext rfl
  obtain ⟨-, hfirst⟩ := himage (Byte.ofChars "xEI EIy EI".toList) []
    (fun b hb => absurd hb (by simp)) (by decide +kernel)
  exact ⟨_, _, hnext, rfl, hfirst 8 (by decide) (by decide)⟩

end Lexer

end PageContent
