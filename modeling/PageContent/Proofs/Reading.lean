import PageContent.Token.Scan

/-! # Tokens and what comes after them

    A token that stands at the front of some bytes also stands at the front of
    other bytes that begin in the same way.

    * **Words** end before the first byte that is not regular, so what follows
      them must go on in such a way.
    * **Strings and brackets** show their end, and anything may follow them.
    * **Gaps** between tokens: blanks, and comments up to the end of the line.
-/

namespace PageContent

/-! ## Boundaries -/

/-- A word may end in front of these bytes. -/
def WordEnds (rest : List UInt8) : Prop :=
  ∀ b, rest.head? = some b → Byte.isRegular b = false

/-- A terminator of image data may end in front of these bytes. -/
def StandsAlone (rest : List UInt8) : Prop :=
  ∀ b, rest.head? = some b → Byte.isBlank b = true

theorem StandsAlone.wordEnds {rest : List UInt8} (h : StandsAlone rest) : WordEnds rest := by
  intro b hb
  simp [Byte.isRegular, h b hb]

theorem wordEnds_nil : WordEnds [] := by
  intro b hb
  exact absurd hb (by simp)

/-- Only the first byte matters to a boundary. -/
theorem wordEnds_append_imp {c r r' : List UInt8} (h : WordEnds r → WordEnds r') :
    WordEnds (c ++ r) → WordEnds (c ++ r') := by
  cases c with
  | nil => exact h
  | cons b c => exact id

theorem standsAlone_append_imp {c r r' : List UInt8} (h : StandsAlone r → StandsAlone r') :
    StandsAlone (c ++ r) → StandsAlone (c ++ r') := by
  cases c with
  | nil => exact h
  | cons b c => exact id

namespace Reading

/-! ## Words -/

/-- A word is all regular, and ends where it may. -/
theorem word_append {c r : List UInt8} (hc : ∀ b ∈ c, Byte.isRegular b = true)
    (hr : WordEnds r) : word (c ++ r) = c := by
  unfold word
  rw [List.takeWhile_append_of_pos hc]
  cases r with
  | nil => simp
  | cons b r => simp [hr b rfl]

theorem isRegular_of_mem_word {bytes : List UInt8} :
    ∀ b ∈ word bytes, Byte.isRegular b = true := by
  have hall := List.all_takeWhile (l := bytes) (p := Byte.isRegular)
  exact fun b hb => List.all_eq_true.mp hall b hb

/-- A word that takes up the bytes `c` is `c`. -/
theorem eq_of_word_length {c r : List UInt8} (h : (word (c ++ r)).length = c.length) :
    word (c ++ r) = c ∧ WordEnds r := by
  have hprefix : word (c ++ r) <+: c ++ r := List.takeWhile_prefix _
  have hword : word (c ++ r) = c := by
    have := List.prefix_iff_eq_take.mp hprefix
    rw [h, List.take_left] at this
    exact this
  refine ⟨hword, ?_⟩
  intro b hb
  cases r with
  | nil => exact absurd hb (by simp)
  | cons b' r =>
    obtain rfl := Option.some.inj hb
    by_cases hregular : Byte.isRegular b' = true
    · -- the word would go on
      have hc : ∀ x ∈ c, Byte.isRegular x = true := by
        intro x hx
        rw [← hword] at hx
        exact isRegular_of_mem_word x hx
      have hlonger : (word (c ++ b' :: r)).length = c.length + (word (b' :: r)).length := by
        unfold word
        rw [List.takeWhile_append_of_pos hc, List.length_append]
      have hpos := word_length_pos r hregular
      omega
    · exact Bool.eq_false_iff.mpr hregular

theorem numeral_append {c r r' : List UInt8} {lexeme : Lexeme}
    (h : numeral (c ++ r) = .token lexeme c.length) (hr : WordEnds r → WordEnds r') :
    numeral (c ++ r') = .token lexeme c.length := by
  unfold numeral at h
  split at h
  · next lexeme' hparse =>
    obtain ⟨hlexeme, hlength⟩ := Reading.token.inj h
    obtain ⟨hword, hends⟩ := eq_of_word_length hlength
    have hc : ∀ b ∈ c, Byte.isRegular b = true := hword ▸ isRegular_of_mem_word
    rw [hword] at hparse
    simp [numeral, word_append hc (hr hends), hparse, hlexeme]
  · exact absurd h (by simp)

theorem name_append {c r r' : List UInt8} {lexeme : Lexeme}
    (h : name (c ++ r) = .token lexeme (c.length + 1)) (hr : WordEnds r → WordEnds r') :
    name (c ++ r') = .token lexeme (c.length + 1) := by
  unfold name at h
  split at h
  · next bytes hbytes =>
    obtain ⟨hlexeme, hlength⟩ := Reading.token.inj h
    obtain ⟨hword, hends⟩ := eq_of_word_length (Nat.succ_inj.mp hlength)
    have hc : ∀ b ∈ c, Byte.isRegular b = true := hword ▸ isRegular_of_mem_word
    rw [hword] at hbytes
    simp [name, word_append hc (hr hends), hbytes, hlexeme]
  · exact absurd h (by simp)

/-! ## Strings -/

/-- A hex string is read up to its bracket. -/
theorem hex_eq {inner : List UInt8} (hinner : ∀ b ∈ inner, HexString.isInner b = true)
    (r : List UInt8) :
    hex (inner ++ Byte.ofChar '>' :: r) =
      .token (.hex (HexString.contents inner)) (inner.length + 2) := by
  have hbracket : HexString.isInner (Byte.ofChar '>') = false := by decide +kernel
  have htake : HexString.inner (inner ++ Byte.ofChar '>' :: r) = inner := by
    unfold HexString.inner
    rw [List.takeWhile_append_of_pos hinner]
    simp [hbracket]
  simp [hex, htake]

theorem of_hex {rest : List UInt8} {lexeme : Lexeme} {width : Nat}
    (h : hex rest = .token lexeme width) :
    ∃ inner r, rest = inner ++ Byte.ofChar '>' :: r ∧ width = inner.length + 2 ∧
      (∀ b ∈ inner, HexString.isInner b = true) ∧ lexeme = .hex (HexString.contents inner) := by
  have hinner : ∀ b ∈ HexString.inner rest, HexString.isInner b = true := by
    have hall := List.all_takeWhile (l := rest) (p := HexString.isInner)
    exact fun b hb => List.all_eq_true.mp hall b hb
  have happend : HexString.inner rest ++ rest.drop (HexString.inner rest).length = rest := by
    have hprefix : HexString.inner rest <+: rest := List.takeWhile_prefix _
    have htake := List.prefix_iff_eq_take.mp hprefix
    calc _ = rest.take (HexString.inner rest).length ++
          rest.drop (HexString.inner rest).length := by rw [← htake]
      _ = _ := List.take_append_drop _ _
  simp only [hex] at h
  split at h
  · exact absurd h (by simp)
  · next b tail hdrop =>
    rw [hdrop] at happend
    by_cases hb : b = Byte.ofChar '>'
    · rw [if_pos hb] at h
      obtain ⟨hlexeme, hwidth⟩ := Reading.token.inj h
      exact ⟨_, tail, hb ▸ happend.symm, hwidth.symm, hinner, hlexeme.symm⟩
    · rw [if_neg hb] at h
      exact absurd h (by simp)

theorem hex_append {c r r' : List UInt8} {lexeme : Lexeme}
    (h : hex (c ++ r) = .token lexeme (c.length + 1)) :
    hex (c ++ r') = .token lexeme (c.length + 1) := by
  obtain ⟨inner, tail, hsplit, hwidth, hinner, rfl⟩ := of_hex h
  -- the token is what stands inside the brackets, and the second bracket
  have hc : c = inner ++ [Byte.ofChar '>'] := by
    have hsplit' : c ++ r = (inner ++ [Byte.ofChar '>']) ++ tail := by simpa using hsplit
    exact (List.append_inj hsplit' (by simp; omega)).1
  rw [hc, List.append_assoc, List.singleton_append, hex_eq hinner]
  simp

end Reading

namespace LiteralString

/-- A run that stops within some bytes does not depend on the others. -/
theorem takeWhile_take_append {p : UInt8 → Bool} {xs : List UInt8} {k : Nat}
    (hk : (xs.takeWhile p).length < k) (hlen : k ≤ xs.length) (r : List UInt8) :
    (xs.take k ++ r).takeWhile p = xs.takeWhile p := by
  induction xs generalizing k with
  | nil => simp at hlen; omega
  | cons x xs ih =>
    match k with
    | 0 => omega
    | k + 1 =>
      by_cases hx : p x = true
      · simp only [List.takeWhile_cons, hx, if_true, List.length_cons] at hk hlen
        have hrest := ih (k := k) (by omega) (by omega)
        simp [hx, hrest]
      · simp [hx]

theorem octalDigits_take_append {xs : List UInt8} {k : Nat} (hk : (octalDigits xs).length < k)
    (hlen : k ≤ xs.length) (r : List UInt8) : octalDigits (xs.take k ++ r) = octalDigits xs := by
  unfold octalDigits at hk ⊢
  -- at most three bytes count, and fewer only if a byte within `k` ends the digits
  by_cases h3 : 3 ≤ k
  · -- all three bytes that count are there
    rw [List.take_append_of_le_length (by simp; omega), List.take_take, Nat.min_eq_left h3]
  · have htake : (xs.take k ++ r).take 3 = (xs.take 3).take k ++ r.take (3 - k) := by
      rw [List.take_append, List.take_take, List.take_take, List.length_take,
        Nat.min_eq_left hlen, Nat.min_eq_right (by omega), Nat.min_eq_left (by omega)]
    rw [htake]
    exact takeWhile_take_append hk (by simp; omega) _

theorem lineFeedAfter_take_append {xs : List UInt8} {k : Nat} (hk : 0 < k) (hlen : k ≤ xs.length)
    (r : List UInt8) : lineFeedAfter (xs.take k ++ r) = lineFeedAfter xs := by
  cases xs with
  | nil => simp at hlen; omega
  | cons x xs =>
    match k with
    | k + 1 => rfl

/-- An element does not depend on more than one byte after it. -/
theorem element_take_append {b : UInt8} {xs : List UInt8} {k : Nat}
    (hk : (element b xs).2 < k) (hlen : k ≤ xs.length) (r : List UInt8) :
    element b (xs.take k ++ r) = element b xs := by
  have hpos : 0 < k := by omega
  unfold element at hk ⊢
  by_cases hb : b = Byte.ofChar '\\'
  · simp only [hb, if_true] at hk ⊢
    match xs, k with
    | [], _ => simp at hlen; omega
    | x :: xs, k + 1 =>
      rw [List.take_succ_cons, List.cons_append]
      unfold escape at hk ⊢
      by_cases hoctal : Byte.isOctalDigit x = true
      · simp only [hoctal, if_true] at hk ⊢
        have hdigits := octalDigits_take_append hk hlen r
        rw [List.take_succ_cons, List.cons_append] at hdigits
        rw [hdigits]
      · by_cases hreturn : x = 0x0D
        · simp only [if_neg hoctal, if_pos hreturn] at hk ⊢
          have hlen' : k ≤ xs.length := by simpa using hlen
          rw [lineFeedAfter_take_append (by omega) hlen' r]
        · simp only [if_neg hoctal, if_neg hreturn]
  · by_cases hreturn : b = 0x0D
    · simp only [if_neg hb, if_pos hreturn]
      rw [lineFeedAfter_take_append hpos hlen r]
    · simp only [if_neg hb, if_neg hreturn]

theorem paren_ne : Byte.ofChar ')' ≠ Byte.ofChar '(' := by
  decide

theorem contents_open (depth : Nat) (rest : List UInt8) :
    contents depth (Byte.ofChar '(' :: rest) =
      (contents (depth + 1) rest).map fun (value, width) =>
        (Byte.ofChar '(' :: value, width + 1) := by
  rw [contents.eq_def]
  simp

theorem contents_end (rest : List UInt8) :
    contents 0 (Byte.ofChar ')' :: rest) = some ([], 1) := by
  rw [contents.eq_def]
  simp [paren_ne]

theorem contents_close (depth : Nat) (rest : List UInt8) :
    contents (depth + 1) (Byte.ofChar ')' :: rest) =
      (contents depth rest).map fun (value, width) => (Byte.ofChar ')' :: value, width + 1) := by
  rw [contents.eq_def]
  simp [paren_ne]

theorem contents_element {depth : Nat} {b : UInt8} {rest : List UInt8}
    (hopen : b ≠ Byte.ofChar '(') (hclose : b ≠ Byte.ofChar ')') :
    contents depth (b :: rest) =
      (contents depth (rest.drop (element b rest).2)).map fun (value, width) =>
        ((element b rest).1 ++ value, width + (element b rest).2 + 1) := by
  rw [contents.eq_def]
  simp [hopen, hclose]

/-- The contents of a string are measured by the bytes up to its end. -/
theorem width_le_of_contents {depth : Nat} {bytes value : List UInt8} {width : Nat}
    (h : contents depth bytes = some (value, width)) : 0 < width ∧ width ≤ bytes.length := by
  fun_induction contents depth bytes generalizing value width with
  | case1 depth => exact absurd h (by simp)
  | case2 depth rest ih =>
    obtain ⟨⟨v, w⟩, hrest, heq⟩ := Option.map_eq_some_iff.mp h
    obtain ⟨rfl, rfl⟩ := Prod.mk.inj heq
    have := (ih hrest).2
    simp only [List.length_cons]
    omega
  | case3 rest hopen =>
    obtain ⟨rfl, rfl⟩ := Prod.mk.inj (Option.some.inj h)
    simp
  | case4 rest outer hopen ih =>
    obtain ⟨⟨v, w⟩, hrest, heq⟩ := Option.map_eq_some_iff.mp h
    obtain ⟨rfl, rfl⟩ := Prod.mk.inj heq
    have := (ih hrest).2
    simp only [List.length_cons]
    omega
  | case5 depth b rest hopen hclose denoted taken helement ih =>
    obtain ⟨⟨v, w⟩, hrest, heq⟩ := Option.map_eq_some_iff.mp h
    obtain ⟨rfl, rfl⟩ := Prod.mk.inj heq
    have := ih hrest
    simp only [List.length_drop, List.length_cons] at this ⊢
    omega

/-- The contents of a string do not depend on what comes after its end. -/
theorem contents_take_append {depth : Nat} {bytes value : List UInt8} {width : Nat}
    (h : contents depth bytes = some (value, width)) (r : List UInt8) :
    contents depth (bytes.take width ++ r) = some (value, width) := by
  fun_induction contents depth bytes generalizing value width with
  | case1 depth => exact absurd h (by simp)
  | case2 depth rest ih =>
    obtain ⟨⟨v, w⟩, hrest, heq⟩ := Option.map_eq_some_iff.mp h
    obtain ⟨rfl, rfl⟩ := Prod.mk.inj heq
    rw [List.take_succ_cons, List.cons_append, contents_open, ih hrest]
    rfl
  | case3 rest hopen =>
    obtain ⟨rfl, rfl⟩ := Prod.mk.inj (Option.some.inj h)
    rw [List.take_succ_cons, List.cons_append, contents_end]
  | case4 rest outer hopen ih =>
    obtain ⟨⟨v, w⟩, hrest, heq⟩ := Option.map_eq_some_iff.mp h
    obtain ⟨rfl, rfl⟩ := Prod.mk.inj heq
    rw [List.take_succ_cons, List.cons_append, contents_close, ih hrest]
    rfl
  | case5 depth b rest hopen hclose denoted taken helement ih =>
    obtain ⟨⟨v, w⟩, hrest, heq⟩ := Option.map_eq_some_iff.mp h
    obtain ⟨rfl, rfl⟩ := Prod.mk.inj heq
    obtain ⟨hpos, hle⟩ := width_le_of_contents hrest
    rw [List.length_drop] at hle
    -- the element lies within the contents, and so does the byte after it
    have helement' : element b (rest.take (w + taken) ++ r) = (denoted, taken) := by
      rw [← helement]
      apply element_take_append
      · rw [helement]
        show taken < w + taken
        omega
      · omega
    have hdrop : (rest.take (w + taken) ++ r).drop taken = (rest.drop taken).take w ++ r := by
      rw [List.drop_append_of_le_length (by simp; omega), List.drop_take]
      simp
    rw [List.take_succ_cons, List.cons_append, contents_element hopen hclose, helement', hdrop,
      ih hrest]
    rfl

/-- A string that is cut has no end. -/
theorem contents_take_of_lt {depth : Nat} {bytes value : List UInt8} {width k : Nat}
    (h : contents depth bytes = some (value, width)) (hk : k < width) :
    contents depth (bytes.take k) = none := by
  cases hcut : contents depth (bytes.take k) with
  | none => rfl
  | some found =>
    obtain ⟨value', width'⟩ := found
    have hle := (width_le_of_contents hcut).2
    rw [List.length_take] at hle
    -- the same end would be found in the whole string
    have hwhole := contents_take_append hcut (bytes.drop width')
    rw [List.take_take, Nat.min_eq_left (by omega), List.take_append_drop, h] at hwhole
    obtain ⟨-, rfl⟩ := Prod.mk.inj (Option.some.inj hwhole)
    omega

end LiteralString

namespace Reading

theorem literal_append {c r r' : List UInt8} {lexeme : Lexeme}
    (h : literal (c ++ r) = .token lexeme (c.length + 1)) :
    literal (c ++ r') = .token lexeme (c.length + 1) := by
  unfold literal at h
  split at h
  · next value width hcontents =>
    obtain ⟨hlexeme, hwidth⟩ := Reading.token.inj h
    obtain rfl : width = c.length := by omega
    have hcontents' := LiteralString.contents_take_append hcontents r'
    rw [List.take_left] at hcontents'
    simp [literal, hcontents', hlexeme]
  · exact absurd h (by simp)

end Reading

/-- A numeral is an integer or a real. -/
theorem Numeral.exists_of_parse? {word : List UInt8} {lexeme : Lexeme}
    (h : parse? word = some lexeme) :
    (∃ i, lexeme = .integer i) ∨
      ∃ negative d, lexeme = .real (Binary64.ofDecimal negative d) := by
  unfold parse? at h
  simp only at h
  split at h
  · split at h
    · next i _ _ => exact .inl ⟨i, (Option.some.inj h).symm⟩
    · exact .inr ⟨_, _, (Option.some.inj h).symm⟩
  · exact absurd h (by simp)

namespace Reading

/-! ## Tokens -/

theorem ofBytes_numeral {b : UInt8} (hb : Numeral.isLead b = true) (rest : List UInt8) :
    ofBytes (b :: rest) = numeral (b :: rest) := by
  simp [ofBytes, hb]

/-- A word that is a number, where it may end. -/
theorem ofBytes_number {b : UInt8} {c r : List UInt8} {lexeme : Lexeme}
    (hlead : Numeral.isLead b = true) (hc : ∀ x ∈ b :: c, Byte.isRegular x = true)
    (hr : WordEnds r) (hparse : Numeral.parse? (b :: c) = some lexeme) :
    ofBytes (b :: c ++ r) = .token lexeme (b :: c).length := by
  have hword := word_append hc hr
  rw [List.cons_append] at hword ⊢
  rw [ofBytes_numeral hlead]
  unfold numeral
  rw [hword, hparse]

theorem ofBytes_literal (rest : List UInt8) :
    ofBytes (Byte.ofChar '(' :: rest) = literal rest := by
  have hlead : Numeral.isLead (Byte.ofChar '(') = false := by decide
  simp [ofBytes, hlead]

theorem ofBytes_dictOpen (rest : List UInt8) :
    ofBytes (Byte.ofChar '<' :: Byte.ofChar '<' :: rest) = .token .dictOpen 2 := by
  have hlead : Numeral.isLead (Byte.ofChar '<') = false := by decide
  have hliteral : Byte.ofChar '<' ≠ Byte.ofChar '(' := by decide
  simp [ofBytes, hlead, hliteral]

theorem ofBytes_hex {rest : List UInt8} (h : rest.head? ≠ some (Byte.ofChar '<')) :
    ofBytes (Byte.ofChar '<' :: rest) = hex rest := by
  have hlead : Numeral.isLead (Byte.ofChar '<') = false := by decide
  have hliteral : Byte.ofChar '<' ≠ Byte.ofChar '(' := by decide
  simp [ofBytes, hlead, hliteral, h]

theorem ofBytes_dictClose (rest : List UInt8) :
    ofBytes (Byte.ofChar '>' :: Byte.ofChar '>' :: rest) = .token .dictClose 2 := by
  have hlead : Numeral.isLead (Byte.ofChar '>') = false := by decide
  have hliteral : Byte.ofChar '>' ≠ Byte.ofChar '(' := by decide
  have hopen : Byte.ofChar '>' ≠ Byte.ofChar '<' := by decide
  simp [ofBytes, hlead, hliteral, hopen]

theorem ofBytes_strayAngle {rest : List UInt8} (h : rest.head? ≠ some (Byte.ofChar '>')) :
    ofBytes (Byte.ofChar '>' :: rest) = .fault .strayAngle 0 0 := by
  have hlead : Numeral.isLead (Byte.ofChar '>') = false := by decide
  have hliteral : Byte.ofChar '>' ≠ Byte.ofChar '(' := by decide
  have hopen : Byte.ofChar '>' ≠ Byte.ofChar '<' := by decide
  simp [ofBytes, hlead, hliteral, hopen, h]

theorem ofBytes_arrayOpen (rest : List UInt8) :
    ofBytes (Byte.ofChar '[' :: rest) = .token .arrayOpen 1 := by
  have hlead : Numeral.isLead (Byte.ofChar '[') = false := by decide
  have hliteral : Byte.ofChar '[' ≠ Byte.ofChar '(' := by decide
  have hopen : Byte.ofChar '[' ≠ Byte.ofChar '<' := by decide
  have hclose : Byte.ofChar '[' ≠ Byte.ofChar '>' := by decide
  simp [ofBytes, hlead, hliteral, hopen, hclose]

theorem ofBytes_arrayClose (rest : List UInt8) :
    ofBytes (Byte.ofChar ']' :: rest) = .token .arrayClose 1 := by
  have hlead : Numeral.isLead (Byte.ofChar ']') = false := by decide
  have hliteral : Byte.ofChar ']' ≠ Byte.ofChar '(' := by decide
  have hopen : Byte.ofChar ']' ≠ Byte.ofChar '<' := by decide
  have hclose : Byte.ofChar ']' ≠ Byte.ofChar '>' := by decide
  have harray : Byte.ofChar ']' ≠ Byte.ofChar '[' := by decide
  simp [ofBytes, hlead, hliteral, hopen, hclose, harray]

theorem ofBytes_name (rest : List UInt8) : ofBytes (Byte.ofChar '/' :: rest) = name rest := by
  have hlead : Numeral.isLead (Byte.ofChar '/') = false := by decide
  have hliteral : Byte.ofChar '/' ≠ Byte.ofChar '(' := by decide
  have hopen : Byte.ofChar '/' ≠ Byte.ofChar '<' := by decide
  have hclose : Byte.ofChar '/' ≠ Byte.ofChar '>' := by decide
  have harray : Byte.ofChar '/' ≠ Byte.ofChar '[' := by decide
  have harray' : Byte.ofChar '/' ≠ Byte.ofChar ']' := by decide
  simp [ofBytes, hlead, hliteral, hopen, hclose, harray, harray']

/-- Delimiters are not regular. -/
theorem ne_delimiter_of_isRegular {b : UInt8} (hb : Byte.isRegular b = true) :
    b ≠ Byte.ofChar '(' ∧ b ≠ Byte.ofChar '<' ∧ b ≠ Byte.ofChar '>' ∧ b ≠ Byte.ofChar '[' ∧
      b ≠ Byte.ofChar ']' ∧ b ≠ Byte.ofChar '/' := by
  refine ⟨?_, ?_, ?_, ?_, ?_, ?_⟩
  all_goals
    intro h
    rw [h] at hb
    exact absurd hb (by decide)

theorem ofBytes_word {b : UInt8} (hb : Byte.isRegular b = true)
    (hlead : Numeral.isLead b = false) (rest : List UInt8) :
    ofBytes (b :: rest) =
      .token (keyword (Utf8.decode (word (b :: rest)))) (word (b :: rest)).length := by
  obtain ⟨hliteral, hopen, hclose, harray, harray', hname⟩ := ne_delimiter_of_isRegular hb
  simp [ofBytes, hlead, hliteral, hopen, hclose, harray, harray', hname, hb]

theorem ofBytes_keyword {b : UInt8} {c r : List UInt8} (hlead : Numeral.isLead b = false)
    (hc : ∀ x ∈ b :: c, Byte.isRegular x = true) (hr : WordEnds r) :
    ofBytes (b :: c ++ r) = .token (keyword (Utf8.decode (b :: c))) (b :: c).length := by
  have hword := word_append hc hr
  rw [List.cons_append] at hword ⊢
  rw [ofBytes_word (hc b (by simp)) hlead, hword]

/-- The ways in which a reading can start. -/
inductive Start : UInt8 → Prop where
  | numeral {b : UInt8} (hb : Numeral.isLead b = true) : Start b
  | literal : Start (Byte.ofChar '(')
  | angleOpen : Start (Byte.ofChar '<')
  | angleClose : Start (Byte.ofChar '>')
  | arrayOpen : Start (Byte.ofChar '[')
  | arrayClose : Start (Byte.ofChar ']')
  | name : Start (Byte.ofChar '/')
  | word {b : UInt8} (hb : Byte.isRegular b = true) (hlead : Numeral.isLead b = false) : Start b
  | illegal {b : UInt8} (h : ∀ rest, ofBytes (b :: rest) = .fault (.illegalByte b) 0 0) : Start b

theorem start (b : UInt8) : Start b := by
  by_cases hlead : Numeral.isLead b = true
  · exact Start.numeral hlead
  by_cases hliteral : b = Byte.ofChar '('
  · exact hliteral ▸ Start.literal
  by_cases hopen : b = Byte.ofChar '<'
  · exact hopen ▸ Start.angleOpen
  by_cases hclose : b = Byte.ofChar '>'
  · exact hclose ▸ Start.angleClose
  by_cases harray : b = Byte.ofChar '['
  · exact harray ▸ Start.arrayOpen
  by_cases harray' : b = Byte.ofChar ']'
  · exact harray' ▸ Start.arrayClose
  by_cases hname : b = Byte.ofChar '/'
  · exact hname ▸ Start.name
  by_cases hregular : Byte.isRegular b = true
  · exact Start.word hregular (Bool.eq_false_iff.mpr hlead)
  · apply Start.illegal
    intro rest
    simp [ofBytes, hlead, hliteral, hopen, hclose, harray, harray', hname, hregular]

/-- **Tokens** by their first byte: what `b` and the bytes after it can say. -/
inductive Says (b : UInt8) (rest : List UInt8) : Lexeme → Nat → Prop where
  | numeral {lexeme : Lexeme} (hb : Numeral.isLead b = true)
      (h : Numeral.parse? (word (b :: rest)) = some lexeme) :
      Says b rest lexeme (word (b :: rest)).length
  | literal {value : List UInt8} {width : Nat} (hb : b = Byte.ofChar '(')
      (h : LiteralString.contents 0 rest = some (value, width)) :
      Says b rest (.literal value) (width + 1)
  | hex {inner r : List UInt8} (hrest : rest = inner ++ Byte.ofChar '>' :: r) :
      Says b rest (.hex (HexString.contents inner)) (inner.length + 2)
  | dictOpen (hrest : rest ≠ []) : Says b rest .dictOpen 2
  | dictClose (hrest : rest ≠ []) : Says b rest .dictClose 2
  | arrayOpen : Says b rest .arrayOpen 1
  | arrayClose : Says b rest .arrayClose 1
  | name {bytes : List UInt8} (h : Name.unescape (word rest) = .ok bytes) :
      Says b rest (.name (Utf8.decode bytes)) ((word rest).length + 1)
  | word (hb : Byte.isRegular b = true) (hlead : Numeral.isLead b = false) :
      Says b rest (keyword (Utf8.decode (word (b :: rest)))) (word (b :: rest)).length

theorem says_of_token {b : UInt8} {rest : List UInt8} {lexeme : Lexeme} {width : Nat}
    (h : ofBytes (b :: rest) = .token lexeme width) : Says b rest lexeme width := by
  cases start b with
  | numeral hb =>
    rw [ofBytes_numeral hb] at h
    unfold numeral at h
    split at h
    · next lexeme' hparse =>
      obtain ⟨rfl, rfl⟩ := Reading.token.inj h
      exact Says.numeral hb hparse
    · exact absurd h (by simp)
  | literal =>
    rw [ofBytes_literal] at h
    unfold literal at h
    split at h
    · next value width' hcontents =>
      obtain ⟨rfl, rfl⟩ := Reading.token.inj h
      exact Says.literal rfl hcontents
    · exact absurd h (by simp)
  | angleOpen =>
    by_cases hrest : rest.head? = some (Byte.ofChar '<')
    · obtain ⟨tail, rfl⟩ := List.head?_eq_some_iff.mp hrest
      rw [ofBytes_dictOpen] at h
      obtain ⟨rfl, rfl⟩ := Reading.token.inj h
      exact Says.dictOpen (List.cons_ne_nil _ _)
    · rw [ofBytes_hex hrest] at h
      obtain ⟨inner, r, hsplit, rfl, -, rfl⟩ := of_hex h
      exact Says.hex hsplit
  | angleClose =>
    by_cases hrest : rest.head? = some (Byte.ofChar '>')
    · obtain ⟨tail, rfl⟩ := List.head?_eq_some_iff.mp hrest
      rw [ofBytes_dictClose] at h
      obtain ⟨rfl, rfl⟩ := Reading.token.inj h
      exact Says.dictClose (List.cons_ne_nil _ _)
    · rw [ofBytes_strayAngle hrest] at h
      exact absurd h (by simp)
  | arrayOpen =>
    rw [ofBytes_arrayOpen] at h
    obtain ⟨rfl, rfl⟩ := Reading.token.inj h
    exact Says.arrayOpen
  | arrayClose =>
    rw [ofBytes_arrayClose] at h
    obtain ⟨rfl, rfl⟩ := Reading.token.inj h
    exact Says.arrayClose
  | name =>
    rw [ofBytes_name] at h
    unfold name at h
    split at h
    · next bytes hbytes =>
      obtain ⟨rfl, rfl⟩ := Reading.token.inj h
      exact Says.name hbytes
    · exact absurd h (by simp)
  | word hb hlead =>
    rw [ofBytes_word hb hlead] at h
    obtain ⟨rfl, rfl⟩ := Reading.token.inj h
    exact Says.word hb hlead
  | illegal hb =>
    rw [hb] at h
    exact absurd h (by simp)

/-- A token lies within the bytes. -/
theorem width_le_of_token {bytes : List UInt8} {lexeme : Lexeme} {width : Nat}
    (h : ofBytes bytes = .token lexeme width) : width ≤ bytes.length := by
  match bytes with
  | [] =>
    obtain ⟨-, rfl⟩ := Reading.token.inj h
    exact Nat.le_refl _
  | b :: rest =>
    have hword : ∀ bytes, (word bytes).length ≤ bytes.length :=
      fun bytes => (List.takeWhile_sublist _).length_le
    cases says_of_token h with
    | numeral => exact hword (b :: rest)
    | literal hb hcontents =>
      exact Nat.succ_le_succ (LiteralString.width_le_of_contents hcontents).2
    | hex hrest => simp [hrest]
    | dictOpen hrest => exact Nat.succ_le_succ (List.length_pos_iff.mpr hrest)
    | dictClose hrest => exact Nat.succ_le_succ (List.length_pos_iff.mpr hrest)
    | arrayOpen => exact Nat.succ_le_succ (Nat.zero_le _)
    | arrayClose => exact Nat.succ_le_succ (Nat.zero_le _)
    | name => exact Nat.succ_le_succ (hword rest)
    | word => exact hword (b :: rest)

/-- A token that starts with an angle bracket takes a second byte, at least. -/
theorem one_lt_width_of_angle {b : UInt8} {rest : List UInt8} {lexeme : Lexeme} {width : Nat}
    (hb : b = Byte.ofChar '<' ∨ b = Byte.ofChar '>')
    (h : ofBytes (b :: rest) = .token lexeme width) : 1 < width := by
  rcases hb with rfl | rfl
  · by_cases hrest : rest.head? = some (Byte.ofChar '<')
    · obtain ⟨tail, rfl⟩ := List.head?_eq_some_iff.mp hrest
      rw [ofBytes_dictOpen] at h
      obtain ⟨-, rfl⟩ := Reading.token.inj h
      decide
    · rw [ofBytes_hex hrest] at h
      obtain ⟨inner, r, -, rfl, -⟩ := of_hex h
      omega
  · by_cases hrest : rest.head? = some (Byte.ofChar '>')
    · obtain ⟨tail, rfl⟩ := List.head?_eq_some_iff.mp hrest
      rw [ofBytes_dictClose] at h
      obtain ⟨-, rfl⟩ := Reading.token.inj h
      decide
    · rw [ofBytes_strayAngle hrest] at h
      exact absurd h (by simp)

/-- **Locality**: what stands at the front does not depend on what comes after
    it, except that a word must end there. -/
theorem ofBytes_append {c r r' : List UInt8} {lexeme : Lexeme}
    (h : ofBytes (c ++ r) = .token lexeme c.length) (hc : c ≠ [])
    (hr : WordEnds r → WordEnds r') : ofBytes (c ++ r') = .token lexeme c.length := by
  match c with
  | b :: c =>
    rw [List.cons_append, List.length_cons] at h ⊢
    cases start b with
    | numeral hb =>
      rw [ofBytes_numeral hb] at h ⊢
      exact numeral_append (c := b :: c) h hr
    | literal =>
      rw [ofBytes_literal] at h ⊢
      exact literal_append (c := c) h
    | name =>
      rw [ofBytes_name] at h ⊢
      exact name_append (c := c) h hr
    | arrayOpen =>
      rw [ofBytes_arrayOpen] at h ⊢
      exact h
    | arrayClose =>
      rw [ofBytes_arrayClose] at h ⊢
      exact h
    | angleOpen =>
      match c with
      | [] => exact absurd (one_lt_width_of_angle (.inl rfl) h) (by simp)
      | b' :: c =>
        by_cases hb' : b' = Byte.ofChar '<'
        · subst hb'
          rw [List.cons_append, ofBytes_dictOpen] at h ⊢
          exact h
        · rw [ofBytes_hex (by simpa using hb')] at h ⊢
          exact hex_append (c := b' :: c) h
    | angleClose =>
      match c with
      | [] => exact absurd (one_lt_width_of_angle (.inr rfl) h) (by simp)
      | b' :: c =>
        by_cases hb' : b' = Byte.ofChar '>'
        · subst hb'
          rw [List.cons_append, ofBytes_dictClose] at h ⊢
          exact h
        · rw [ofBytes_strayAngle (by simpa using hb')] at h
          exact absurd h (by simp)
    | word hb hlead =>
      rw [ofBytes_word hb hlead] at h ⊢
      obtain ⟨hlexeme, hlength⟩ := Reading.token.inj h
      obtain ⟨hword, hends⟩ := eq_of_word_length (c := b :: c) hlength
      -- the word is `b :: c` itself, so it ends before `r`, and before `r'` as well
      have hregular : ∀ x ∈ b :: c, Byte.isRegular x = true := hword ▸ isRegular_of_mem_word
      have hword' := word_append hregular (hr hends)
      rw [List.cons_append] at hword hword'
      rw [hword] at hlexeme
      rw [hword', hlexeme, List.length_cons]
    | illegal hb =>
      rw [hb] at h
      exact absurd h (by simp)

/-! ## Gaps -/

/-- How a gap goes on with a byte: whether it is in a comment then. There is no
    result if the gap is over. -/
def gapStep (inComment : Bool) (b : UInt8) : Option Bool :=
  if inComment then some (!Byte.isLineEnd b)
  else if Byte.isBlank b then some false
  else if b = Byte.ofChar '%' then some true
  else none

theorem blanks_cons (inComment : Bool) (b : UInt8) (rest : List UInt8) :
    blanks inComment (b :: rest) =
      (gapStep inComment b).elim 0 fun inComment' => blanks inComment' rest + 1 := by
  unfold gapStep
  cases inComment with
  | true => simp [blanks, Nat.add_comm]
  | false =>
    by_cases hblank : Byte.isBlank b = true
    · simp [blanks, hblank, Nat.add_comm]
    · by_cases hcomment : b = Byte.ofChar '%'
      · simp [blanks, if_neg hblank, if_pos hcomment, Nat.add_comm]
      · simp [blanks, if_neg hblank, if_neg hcomment]

/-- A token is not preceded by a gap. -/
theorem blanks_of_token {bytes : List UInt8} {lexeme : Lexeme} {width : Nat}
    (h : ofBytes bytes = .token lexeme width) : blanks false bytes = 0 := by
  match bytes with
  | [] => rfl
  | b :: rest =>
    -- neither a blank nor a comment sign is regular
    have hregular : Byte.isRegular b = true → gapStep false b = none := by
      intro hb
      have hblank : Byte.isBlank b = false := by
        by_cases hblank : Byte.isBlank b = true
        · simp [Byte.isRegular, hblank] at hb
        · exact Bool.eq_false_iff.mpr hblank
      have hcomment : b ≠ Byte.ofChar '%' := by
        intro hcomment
        rw [hcomment] at hb
        exact absurd hb (by decide)
      simp [gapStep, hblank, hcomment]
    have hstep : gapStep false b = none := by
      cases start b with
      | numeral hb => exact hregular (isRegular_of_isLead b hb)
      | word hb => exact hregular hb
      | illegal hb =>
        rw [hb] at h
        exact absurd h (by simp)
      | _ => decide
    rw [blanks_cons, hstep]
    rfl

/-- A space goes on with a gap. -/
theorem blanks_space (rest : List UInt8) :
    blanks false (0x20 :: rest) = blanks false rest + 1 := by
  rw [blanks_cons]
  rfl

theorem blanks_le_length (inComment : Bool) (bytes : List UInt8) :
    blanks inComment bytes ≤ bytes.length := by
  induction bytes generalizing inComment with
  | nil => exact Nat.le_refl _
  | cons b rest ih =>
    rw [blanks_cons, List.length_cons]
    cases gapStep inComment b with
    | none => exact Nat.zero_le _
    | some inComment' => exact Nat.succ_le_succ (ih inComment')

/-- A gap that is over within some bytes does not depend on the others. -/
theorem blanks_append_of_lt {inComment : Bool} {c r : List UInt8}
    (h : blanks inComment (c ++ r) < c.length) (r' : List UInt8) :
    blanks inComment (c ++ r') = blanks inComment (c ++ r) := by
  induction c generalizing inComment with
  | nil => simp at h
  | cons b c ih =>
    rw [List.cons_append, blanks_cons, List.length_cons] at h
    rw [List.cons_append, List.cons_append, blanks_cons, blanks_cons]
    cases hstep : gapStep inComment b with
    | none => rfl
    | some inComment' =>
      simp only [hstep, Option.elim_some] at h ⊢
      have hrest : blanks inComment' (c ++ r) < c.length := by omega
      rw [ih hrest]

/-- After a gap that is over another gap may follow. -/
theorem blanks_append_of_eq {inComment : Bool} {g r : List UInt8} {b : UInt8}
    (h : blanks inComment (g ++ b :: r) = g.length) (z : List UInt8) :
    blanks inComment (g ++ z) = g.length + blanks false z := by
  induction g generalizing inComment with
  | nil =>
    cases inComment with
    | true => simp [blanks] at h
    | false => simp
  | cons x g ih =>
    rw [List.cons_append, blanks_cons, List.length_cons] at h
    rw [List.cons_append, blanks_cons, List.length_cons]
    cases hstep : gapStep inComment x with
    | none => simp [hstep] at h
    | some inComment' =>
      simp only [hstep, Option.elim_some] at h ⊢
      have hrest : blanks inComment' (g ++ b :: r) = g.length := by omega
      rw [ih hrest]
      omega

/-- A line feed makes sure that a gap is not in a comment. -/
theorem blanks_append_lineFeed {inComment : Bool} {g : List UInt8}
    (h : blanks inComment g = g.length) (z : List UInt8) :
    blanks inComment (g ++ 0x0A :: z) = g.length + 1 + blanks false z := by
  induction g generalizing inComment with
  | nil =>
    have hstep : gapStep inComment 0x0A = some false := by
      cases inComment <;> decide
    simp [blanks_cons, hstep, Nat.add_comm]
  | cons x g ih =>
    rw [blanks_cons, List.length_cons] at h
    rw [List.cons_append, blanks_cons, List.length_cons]
    cases hstep : gapStep inComment x with
    | none => simp [hstep] at h
    | some inComment' =>
      simp only [hstep, Option.elim_some] at h ⊢
      have hrest : blanks inComment' g = g.length := by omega
      rw [ih hrest]
      omega

end Reading

end PageContent
