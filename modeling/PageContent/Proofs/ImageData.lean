import PageContent.Proofs.Reading

/-! # Image data and its end

    Where the data of an inline image ends, as a statement about the bytes: they
    are the data, at most one blank, the terminator, and what follows it. The
    search finds the only way to divide them so.
-/

namespace PageContent

namespace InlineData

/-- The two bytes of a terminator. -/
def mark : List UInt8 :=
  [Byte.ofChar 'E', Byte.ofChar 'I']

/-- No terminator lies within the data when a blank follows it. -/
def Unterminated (data : List UInt8) : Prop :=
  terminator? true (data ++ [0x20]) = none

/-- What comes after the data of an image, up to its terminator: a blank, or
    nothing if there is no data. The terminator stands by itself before `r`. -/
def Delimits (data gap r : List UInt8) : Prop :=
  StandsAlone r ∧
    (gap = [] ∧ data = [] ∨ ∃ b, gap = [b] ∧ Byte.isBlank b = true ∧ Unterminated data)

theorem startsTerminator_iff {bytes : List UInt8} :
    startsTerminator bytes = true ↔ ∃ r, bytes = mark ++ r ∧ StandsAlone r := by
  constructor
  · intro h
    match bytes with
    | e :: i :: r =>
      simp only [startsTerminator, Bool.and_eq_true, beq_iff_eq] at h
      obtain ⟨⟨rfl, rfl⟩, hr⟩ := h
      refine ⟨r, rfl, ?_⟩
      intro b hb
      cases r with
      | nil => exact absurd hb (by simp)
      | cons b' r =>
        obtain rfl := Option.some.inj hb
        exact hr
  · intro h
    obtain ⟨r, rfl, hr⟩ := h
    cases r with
    | nil => decide
    | cons b r => simp [mark, startsTerminator, hr b rfl]

/-- A blank after some bytes does not change where terminators start, whatever follows. -/
theorem startsTerminator_append_blank {b : UInt8} (hb : Byte.isBlank b = true) (x : UInt8)
    (d rest : List UInt8) :
    startsTerminator (x :: (d ++ b :: rest)) = startsTerminator (x :: d) := by
  match d with
  | [] =>
    have hne : b ≠ Byte.ofChar 'I' := by
      rintro rfl
      exact absurd hb (by decide)
    simp [startsTerminator, hne]
  | [y] => simp [startsTerminator, hb]
  | y :: z :: d => simp [startsTerminator]

theorem startsTerminator_blank {b : UInt8} (hb : Byte.isBlank b = true) (rest : List UInt8) :
    startsTerminator (b :: rest) = false := by
  apply Bool.eq_false_iff.mpr
  intro h
  obtain ⟨r, hmark, -⟩ := startsTerminator_iff.mp h
  obtain ⟨rfl, -⟩ := List.cons.inj hmark
  exact absurd hb (by decide)

theorem terminator?_cons (mayStart : Bool) (b : UInt8) (rest : List UInt8) :
    terminator? mayStart (b :: rest) =
      if mayStart && startsTerminator (b :: rest) then some 0
      else (terminator? (Byte.isBlank b) rest).map (· + 1) :=
  rfl

/-- The search goes past data without terminators, and past the blank after it. -/
theorem terminator?_append {mayStart : Bool} {data : List UInt8} {b : UInt8}
    (hdata : terminator? mayStart (data ++ [0x20]) = none) (hb : Byte.isBlank b = true)
    (rest : List UInt8) :
    terminator? mayStart (data ++ b :: rest) =
      (terminator? true rest).map (· + (data.length + 1)) := by
  induction data generalizing mayStart with
  | nil => simp [terminator?_cons, startsTerminator_blank hb, hb]
  | cons x data ih =>
    rw [List.cons_append, terminator?_cons,
      startsTerminator_append_blank (show Byte.isBlank 0x20 = true by decide)] at hdata
    rw [List.cons_append, terminator?_cons, startsTerminator_append_blank hb]
    -- no terminator starts here, or there would be one in the data
    by_cases hfound : (mayStart && startsTerminator (x :: data)) = true
    · rw [if_pos hfound] at hdata
      exact absurd hdata (by simp)
    · rw [if_neg hfound] at hdata ⊢
      rw [ih (Option.map_eq_none_iff.mp hdata)]
      cases terminator? true rest with
      | none => rfl
      | some n =>
        simp
        omega

theorem terminator?_mark {r : List UInt8} (hr : StandsAlone r) :
    terminator? true (mark ++ r) = some 0 := by
  have hstarts : startsTerminator (mark ++ r) = true := startsTerminator_iff.mpr ⟨r, rfl, hr⟩
  show (if true && startsTerminator (mark ++ r) then some 0 else _) = some 0
  simp only [hstarts, Bool.and_self, if_true]

/-- Where a terminator is found: at the front, or after a blank with no terminator
    before it. -/
theorem exists_of_terminator? {mayStart : Bool} {bytes : List UInt8} {n : Nat}
    (h : terminator? mayStart bytes = some n) :
    (n = 0 ∧ mayStart = true ∧ startsTerminator bytes = true) ∨
      ∃ data b rest, bytes = data ++ b :: rest ∧ n = data.length + 1 ∧ Byte.isBlank b = true ∧
        terminator? mayStart (data ++ [0x20]) = none ∧ startsTerminator rest = true := by
  induction bytes generalizing mayStart n with
  | nil => exact absurd h (by simp [terminator?])
  | cons x bytes ih =>
    rw [terminator?_cons] at h
    by_cases hfound : (mayStart && startsTerminator (x :: bytes)) = true
    · rw [if_pos hfound] at h
      obtain ⟨hmay, hstarts⟩ := Bool.and_eq_true_iff.mp hfound
      exact .inl ⟨(Option.some.inj h).symm, hmay, hstarts⟩
    · rw [if_neg hfound] at h
      obtain ⟨m, hm, rfl⟩ := Option.map_eq_some_iff.mp h
      right
      -- found right after this byte, which is a blank then, or later
      rcases ih hm with ⟨rfl, hblank, hstarts⟩ | ⟨data, b, rest, rfl, rfl, hb, hdata, hstarts⟩
      · refine ⟨[], x, bytes, rfl, rfl, hblank, ?_, hstarts⟩
        simp [terminator?, startsTerminator]
      · refine ⟨x :: data, b, rest, rfl, by simp, hb, ?_, hstarts⟩
        rw [startsTerminator_append_blank hb] at hfound
        rw [List.cons_append, terminator?_cons,
          startsTerminator_append_blank (show Byte.isBlank 0x20 = true by decide),
          if_neg hfound, hdata]
        rfl

theorem separator_le_length (bytes : List UInt8) : separator bytes ≤ bytes.length := by
  cases bytes with
  | nil => exact Nat.le_refl _
  | cons b rest =>
    simp only [separator, List.length_cons]
    split <;> omega

theorem length?_of_delimits {data gap r : List UInt8} (h : Delimits data gap r) :
    length? (data ++ (gap ++ (mark ++ r))) = some data.length := by
  unfold length?
  obtain ⟨hr, ⟨rfl, rfl⟩ | ⟨b, rfl, hb, hdata⟩⟩ := h
  · rw [List.nil_append, List.nil_append, terminator?_mark hr]
    rfl
  · have happend := terminator?_append hdata hb (mark ++ r)
    rw [terminator?_mark hr] at happend
    rw [List.singleton_append, happend]
    simp

/-- **Image data** ends where the first terminator begins, or at the blank before
    it. -/
theorem delimits_of_length? {bytes : List UInt8} {n : Nat} (h : length? bytes = some n) :
    ∃ data gap r, bytes = data ++ (gap ++ (mark ++ r)) ∧ data.length = n ∧
      Delimits data gap r := by
  unfold length? at h
  obtain ⟨m, hm, rfl⟩ := Option.map_eq_some_iff.mp h
  rcases exists_of_terminator? hm with
    ⟨rfl, -, hstarts⟩ | ⟨data, b, rest, rfl, rfl, hb, hdata, hstarts⟩
  · obtain ⟨r, rfl, hr⟩ := startsTerminator_iff.mp hstarts
    exact ⟨[], [], r, rfl, rfl, hr, .inl ⟨rfl, rfl⟩⟩
  · obtain ⟨r, rfl, hr⟩ := startsTerminator_iff.mp hstarts
    exact ⟨data, [b], r, rfl, by simp, hr, .inr ⟨b, rfl, hb, hdata⟩⟩

end InlineData

end PageContent
