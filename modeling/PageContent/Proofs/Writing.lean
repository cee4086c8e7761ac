import PageContent.Proofs.Numbers
import PageContent.Proofs.Reading
import PageContent.Proofs.Utf8

/-! # Tokens, there and back

    The bytes that are written for a token are read as that token, as long as a
    word may end after them.

    * **Words**: numbers, keywords and names. What is not plain in a name is
      escaped, and a keyword is the text of the word that it was read from.
    * **Strings**: in parentheses every byte has an element of its own; in angle
      brackets it has two digits.
    * **Legible** lexemes are those that are written, one constructor for each
      kind. An infinite real is not one of them.
-/

namespace PageContent

namespace Reading

/-- The bytes `c` are read as `lexeme`, whatever comes after them. -/
def Spells (c : List UInt8) (lexeme : Lexeme) : Prop :=
  c ≠ [] ∧ ∀ r, WordEnds r → ofBytes (c ++ r) = .token lexeme c.length

/-! ## Words -/

theorem spells_number {word : List UInt8} {lexeme : Lexeme}
    (h : Numeral.parse? word = some lexeme) : Spells word lexeme := by
  obtain ⟨hne, hlead⟩ := Numeral.isLead_of_parse? h
  match word with
  | b :: c =>
    refine ⟨hne, ?_⟩
    intro r hr
    apply ofBytes_number (hlead b List.mem_cons_self) _ hr h
    exact fun x hx => isRegular_of_isLead x (hlead x hx)

theorem spells_word {c : List UInt8} {lexeme : Lexeme}
    (hc : c.all Byte.isRegular = true) (hlead : c.head?.all (!Numeral.isLead ·) = true)
    (hne : c ≠ []) (h : keyword (Utf8.decode c) = lexeme) : Spells c lexeme := by
  match c with
  | b :: c =>
    refine ⟨hne, ?_⟩
    intro r hr
    have hlead' : Numeral.isLead b = false := by simpa using hlead
    rw [ofBytes_keyword hlead' (List.all_eq_true.mp hc) hr, h]

/-- A text that is read from a word, and is no word with a meaning of its own. -/
def IsKeyword (text : String) : Prop :=
  keyword text = .operator text ∧
    ∃ b c, (∀ x ∈ b :: c, Byte.isRegular x = true) ∧ Numeral.isLead b = false ∧
      text = Utf8.decode (b :: c)

theorem isRegular_of_not_ascii {b : UInt8} (h : ¬ b < 0x80) :
    Byte.isRegular b = true ∧ Numeral.isLead b = false := by
  have hall : ∀ b, ¬ b < 0x80 → Byte.isRegular b = true ∧ Numeral.isLead b = false :=
    Byte.forall_of_fin (by decide +kernel)
  exact hall b h

/-- **Keywords** may have been changed by lossy decoding, but they are still
    words. -/
theorem spells_keyword {text : String} (h : IsKeyword text) :
    Spells (Utf8.encode text) (.operator text) := by
  obtain ⟨hkeyword, b, c, hregular, hlead, rfl⟩ := h
  obtain ⟨x, xs, hencode, hx⟩ := Utf8.exists_head_encode_decode b c
  have hmem := @Utf8.mem_encode_decode (b :: c)
  have hdecode := Utf8.decode_encode (Utf8.decode (b :: c))
  rw [hencode] at hmem hdecode ⊢
  -- the first byte is the same or not ASCII, so no number starts here
  have hx' : Numeral.isLead x = false := by
    rcases hx with rfl | hx
    · exact hlead
    · exact (isRegular_of_not_ascii hx).2
  refine ⟨List.cons_ne_nil x xs, ?_⟩
  intro r hr
  -- every byte of the word is a byte that was read, or not ASCII
  rw [ofBytes_keyword hx' _ hr, hdecode, hkeyword]
  intro y hy
  rcases hmem y hy with hy | hy
  · exact hregular y hy
  · exact (isRegular_of_not_ascii hy).1

/-! ## Names -/

theorem isRegular_escape : ∀ b, (Name.escape b).all Byte.isRegular = true :=
  Byte.forall_of_fin (by decide +kernel)

end Reading

namespace Byte

/-- The two hexadecimal digits of a byte spell it. -/
theorem hexValue?_hex (b : UInt8) :
    hexValue? (ofChar (hexDigit (b.toNat / 16))) = some (b.toNat / 16) ∧
      hexValue? (ofChar (hexDigit (b.toNat % 16))) = some (b.toNat % 16) := by
  have hall : ∀ n : Fin 16, hexValue? (ofChar (hexDigit n)) = some n.val := by
    decide +kernel
  have hb : b.toNat < 256 := b.toNat_lt
  exact ⟨hall ⟨b.toNat / 16, by omega⟩, hall ⟨b.toNat % 16, by omega⟩⟩

theorem toUInt8_halves (b : UInt8) : (16 * (b.toNat / 16) + b.toNat % 16).toUInt8 = b := by
  rw [Nat.div_add_mod]
  exact UInt8.ofNat_toNat

theorem ofChars_hex (b : UInt8) (rest : List UInt8) :
    ofChars (hex b) ++ rest =
      ofChar (hexDigit (b.toNat / 16)) :: ofChar (hexDigit (b.toNat % 16)) :: rest :=
  rfl

end Byte

namespace Name

theorem unescape_escape (b : UInt8) (rest : List UInt8) :
    unescape (escape b ++ rest) =
      match unescape rest with
      | .ok decoded => .ok (b :: decoded)
      | .error offset => .error (offset + (escape b).length) := by
  unfold escape
  by_cases hplain : isPlain b = true
  · -- the byte stands for itself
    have hb : b ≠ Byte.ofChar '#' := by
      intro h
      rw [h] at hplain
      exact absurd hplain (by decide)
    rw [if_pos hplain, List.singleton_append, unescape.eq_def]
    simp only [if_neg hb]
    rfl
  · -- the byte is escaped, and its digits are resolved
    obtain ⟨hhigh, hlow⟩ := Byte.hexValue?_hex b
    have hpair : hexPair? (Byte.ofChars (Byte.hex b) ++ rest) = some b := by
      rw [Byte.ofChars_hex]
      unfold hexPair?
      simp only [hhigh, hlow, Byte.toUInt8_halves]
    have hdrop : (Byte.ofChars (Byte.hex b) ++ rest).drop 2 = rest := rfl
    rw [if_neg hplain, List.cons_append, unescape.eq_def]
    simp only [if_true, hpair, hdrop]
    rfl

theorem unescape_flatMap_escape (bytes : List UInt8) :
    unescape (bytes.flatMap escape) = .ok bytes := by
  induction bytes with
  | nil => rw [List.flatMap_nil, unescape.eq_def]
  | cons b bytes ih => rw [List.flatMap_cons, unescape_escape, ih]

end Name

namespace Reading

/-- **Names** are read as they were, escapes resolved. -/
theorem spells_name (text : String) : Spells (Name.write text) (.name text) := by
  have hregular : ∀ x ∈ (Utf8.encode text).flatMap Name.escape, Byte.isRegular x = true := by
    intro x hx
    obtain ⟨b, -, hb⟩ := List.mem_flatMap.mp hx
    exact List.all_eq_true.mp (isRegular_escape b) x hb
  refine ⟨List.cons_ne_nil _ _, ?_⟩
  intro r hr
  unfold Name.write
  rw [List.cons_append, ofBytes_name, name, word_append hregular hr,
    Name.unescape_flatMap_escape]
  simp only [Utf8.decode_encode, List.length_cons]

end Reading

/-! ## Strings -/

namespace LiteralString

theorem element_backslash (rest : List UInt8) :
    element (Byte.ofChar '\\') rest = escape rest :=
  if_pos rfl

theorem contents_backslash (depth : Nat) (rest : List UInt8) :
    contents depth (Byte.ofChar '\\' :: rest) =
      (contents depth (rest.drop (escape rest).2)).map fun (value, width) =>
        ((escape rest).1 ++ value, width + (escape rest).2 + 1) := by
  rw [contents_element (by decide) (by decide), element_backslash]

/-- A byte after a backslash that denotes a byte by itself. -/
theorem contents_escaped {c b : UInt8} {rest : List UInt8}
    (h : escape (c :: rest) = ([b], 1)) (depth : Nat) :
    contents depth (Byte.ofChar '\\' :: c :: rest) =
      (contents depth rest).map fun (value, width) => (b :: value, width + 2) := by
  rw [contents_backslash, h]
  rfl

/-- Three octal digits after a backslash. -/
theorem contents_octal {x y z : UInt8} (hx : Byte.isOctalDigit x = true)
    (hy : Byte.isOctalDigit y = true) (hz : Byte.isOctalDigit z = true) (depth : Nat)
    (rest : List UInt8) :
    contents depth (Byte.ofChar '\\' :: x :: y :: z :: rest) =
      (contents depth rest).map fun (value, width) =>
        (octalValue [x, y, z] :: value, width + 4) := by
  have hdigits : octalDigits (x :: y :: z :: rest) = [x, y, z] := by
    simp [octalDigits, hx, hy, hz]
  have hescape : escape (x :: y :: z :: rest) = ([octalValue [x, y, z]], 3) := by
    unfold escape
    simp only [if_pos hx, hdigits]
    rfl
  rw [contents_backslash, hescape]
  rfl

theorem octal_spec (b : UInt8) :
    ∃ x y z, Byte.ofChars (Byte.octal b) = [x, y, z] ∧ Byte.isOctalDigit x = true ∧
      Byte.isOctalDigit y = true ∧ Byte.isOctalDigit z = true ∧ octalValue [x, y, z] = b := by
  have hall : ∀ b, (Byte.ofChars (Byte.octal b)).all Byte.isOctalDigit = true ∧
      octalValue (Byte.ofChars (Byte.octal b)) = b :=
    Byte.forall_of_fin (by decide +kernel)
  obtain ⟨hdigits, hvalue⟩ := hall b
  have hlist : Byte.ofChars (Byte.octal b) = [_, _, _] := rfl
  rw [hlist] at hdigits hvalue
  simp only [List.all_cons, List.all_nil, Bool.and_true, Bool.and_eq_true] at hdigits
  exact ⟨_, _, _, hlist, hdigits.1, hdigits.2.1, hdigits.2.2, hvalue⟩

/-- **Elements**: what is written for a byte denotes that byte. -/
theorem contents_writeLiteralByte (b : UInt8) (rest : List UInt8) :
    contents 0 (Operand.writeLiteralByte b ++ rest) =
      (contents 0 rest).map fun (value, width) =>
        (b :: value, width + (Operand.writeLiteralByte b).length) := by
  unfold Operand.writeLiteralByte
  by_cases hspecial : b = Byte.ofChar '(' ∨ b = Byte.ofChar ')' ∨ b = Byte.ofChar '\\'
  · rw [if_pos hspecial]
    have hescape : escape (b :: rest) = ([b], 1) := by
      rcases hspecial with rfl | rfl | rfl <;> rfl
    exact contents_escaped hescape 0
  rw [if_neg hspecial]
  by_cases hfeed : b = 0x0A
  · have hescape : escape (Byte.ofChar 'n' :: rest) = ([b], 1) := by
      rw [hfeed]
      rfl
    rw [if_pos hfeed]
    exact contents_escaped hescape 0
  rw [if_neg hfeed]
  by_cases hreturn : b = 0x0D
  · have hescape : escape (Byte.ofChar 'r' :: rest) = ([b], 1) := by
      rw [hreturn]
      rfl
    rw [if_pos hreturn]
    exact contents_escaped hescape 0
  rw [if_neg hreturn]
  by_cases htab : b = 0x09
  · have hescape : escape (Byte.ofChar 't' :: rest) = ([b], 1) := by
      rw [htab]
      rfl
    rw [if_pos htab]
    exact contents_escaped hescape 0
  rw [if_neg htab]
  by_cases hprintable : Byte.isPrintable b = true
  · -- the byte stands for itself
    have hopen : b ≠ Byte.ofChar '(' := fun h => hspecial (.inl h)
    have hclose : b ≠ Byte.ofChar ')' := fun h => hspecial (.inr (.inl h))
    have hbackslash : b ≠ Byte.ofChar '\\' := fun h => hspecial (.inr (.inr h))
    have helement : element b rest = ([b], 0) := by
      unfold element
      rw [if_neg hbackslash, if_neg hreturn]
    rw [if_pos hprintable, List.singleton_append, contents_element hopen hclose, helement]
    rfl
  · obtain ⟨x, y, z, hlist, hx, hy, hz, hvalue⟩ := octal_spec b
    have hescaped : Byte.ofChars ('\\' :: Byte.octal b) = Byte.ofChar '\\' :: [x, y, z] := by
      rw [← hlist]
      rfl
    have hcontents := contents_octal hx hy hz 0 rest
    rw [hvalue] at hcontents
    rw [if_neg hprintable, hescaped]
    exact hcontents

theorem contents_flatMap (bytes r : List UInt8) :
    contents 0 (bytes.flatMap Operand.writeLiteralByte ++ Byte.ofChar ')' :: r) =
      some (bytes, (bytes.flatMap Operand.writeLiteralByte).length + 1) := by
  induction bytes with
  | nil => exact contents_end r
  | cons b bytes ih =>
    rw [List.flatMap_cons, List.append_assoc, contents_writeLiteralByte, ih, List.length_append]
    simp only [Option.map_some, Option.some.injEq, Prod.mk.injEq, true_and]
    omega

end LiteralString

namespace HexString

theorem filterMap_hexValue? (bytes : List UInt8) :
    pairs ((bytes.flatMap fun b => Byte.ofChars (Byte.hex b)).filterMap Byte.hexValue?) =
      bytes := by
  induction bytes with
  | nil => rfl
  | cons b bytes ih =>
    obtain ⟨hhigh, hlow⟩ := Byte.hexValue?_hex b
    rw [List.flatMap_cons, Byte.ofChars_hex, List.filterMap_cons_some hhigh,
      List.filterMap_cons_some hlow, pairs, ih, Byte.toUInt8_halves]

theorem isInner_hex (b : UInt8) : ∀ x ∈ Byte.ofChars (Byte.hex b), isInner x = true := by
  obtain ⟨hhigh, hlow⟩ := Byte.hexValue?_hex b
  intro x hx
  unfold isInner
  have hx' : x = Byte.ofChar (Byte.hexDigit (b.toNat / 16)) ∨
      x = Byte.ofChar (Byte.hexDigit (b.toNat % 16)) := by
    simpa [Byte.ofChars, Byte.hex] using hx
  rcases hx' with rfl | rfl
  · rw [hhigh]
    rfl
  · rw [hlow]
    rfl

end HexString

namespace Reading

variable {bytes : List UInt8}

/-- **Strings** in parentheses. -/
theorem spells_literal : Spells (Operand.writeString .literal bytes) (.literal bytes) := by
  refine ⟨List.cons_ne_nil _ _, ?_⟩
  intro r _
  unfold Operand.writeString
  rw [List.append_assoc, List.append_assoc, List.singleton_append, List.singleton_append,
    ofBytes_literal, literal, LiteralString.contents_flatMap]
  simp

/-- **Strings** in angle brackets. -/
theorem spells_hex : Spells (Operand.writeString .hex bytes) (.hex bytes) := by
  have hinner : ∀ x ∈ bytes.flatMap (fun b => Byte.ofChars (Byte.hex b)),
      HexString.isInner x = true := by
    intro x hx
    obtain ⟨b, -, hb⟩ := List.mem_flatMap.mp hx
    exact HexString.isInner_hex b x hb
  refine ⟨List.cons_ne_nil _ _, ?_⟩
  intro r _
  -- a second bracket would open a dictionary
  have hhead : (bytes.flatMap (fun b => Byte.ofChars (Byte.hex b)) ++
      Byte.ofChar '>' :: r).head? ≠ some (Byte.ofChar '<') := by
    match bytes, hinner with
    | [], _ => exact fun h => absurd (Option.some.inj h) (by decide)
    | b :: bytes, hinner =>
      intro h
      have hfirst := hinner _ List.mem_cons_self
      rw [Option.some.inj h] at hfirst
      exact absurd hfirst (by decide)
  unfold Operand.writeString
  rw [List.append_assoc, List.append_assoc, List.singleton_append, List.singleton_append,
    ofBytes_hex hhead, hex_eq hinner]
  unfold HexString.contents
  rw [HexString.filterMap_hexValue?]
  simp

end Reading

/-! ## Legible lexemes -/

/-- The lexemes that are read as themselves once they have been written. Image data
    is not among them, since it is no token by itself. -/
inductive Lexeme.Legible : Lexeme → Prop where
  | integer (i : Int64) : Legible (.integer i)
  | real {x : Binary64} (hx : x.IsFinite) : Legible (.real x)
  | boolean (b : Bool) : Legible (.boolean b)
  | null : Legible .null
  | name (text : String) : Legible (.name text)
  | literal (bytes : List UInt8) : Legible (.literal bytes)
  | hex (bytes : List UInt8) : Legible (.hex bytes)
  | arrayOpen : Legible .arrayOpen
  | arrayClose : Legible .arrayClose
  | dictOpen : Legible .dictOpen
  | dictClose : Legible .dictClose
  | operator {keyword : String} (hk : Reading.IsKeyword keyword) : Legible (.operator keyword)

namespace Reading

theorem legible_keyword {b : UInt8} {c : List UInt8}
    (hc : ∀ x ∈ b :: c, Byte.isRegular x = true) (hlead : Numeral.isLead b = false) :
    (keyword (Utf8.decode (b :: c))).Legible := by
  generalize htext : Utf8.decode (b :: c) = text
  -- three words have a meaning of their own
  by_cases htrue : text = "true"
  · rw [htrue]
    exact Lexeme.Legible.boolean true
  by_cases hfalse : text = "false"
  · rw [hfalse]
    exact Lexeme.Legible.boolean false
  by_cases hnull : text = "null"
  · rw [hnull]
    exact Lexeme.Legible.null
  · have hkeyword : keyword text = .operator text := by
      unfold keyword
      rw [if_neg htrue, if_neg hfalse, if_neg hnull]
    rw [hkeyword]
    exact Lexeme.Legible.operator ⟨hkeyword, b, c, hc, hlead, htext.symm⟩

/-- **Tokens** that have been read are legible, apart from infinite reals. -/
theorem legible_of_token {b : UInt8} {rest : List UInt8} {lexeme : Lexeme} {width : Nat}
    (h : ofBytes (b :: rest) = .token lexeme width)
    (hfinite : ∀ x, lexeme = .real x → ¬ x.IsInfinite) : lexeme.Legible := by
  cases says_of_token h with
  | numeral hb hparse =>
    rcases Numeral.exists_of_parse? hparse with ⟨i, rfl⟩ | ⟨negative, d, rfl⟩
    · exact Lexeme.Legible.integer i
    · rcases Binary64.isFinite_or_isInfinite negative _ with hx | hx
      · exact Lexeme.Legible.real hx
      · exact absurd hx (hfinite _ rfl)
  | literal => exact Lexeme.Legible.literal _
  | hex => exact Lexeme.Legible.hex _
  | dictOpen => exact Lexeme.Legible.dictOpen
  | dictClose => exact Lexeme.Legible.dictClose
  | arrayOpen => exact Lexeme.Legible.arrayOpen
  | arrayClose => exact Lexeme.Legible.arrayClose
  | name => exact Lexeme.Legible.name _
  | word hb hlead =>
    have hregular := @isRegular_of_mem_word (b :: rest)
    -- a word of the lexer starts with its first byte and is all regular
    have hword : word (b :: rest) = b :: word rest := List.takeWhile_cons_of_pos hb
    rw [hword] at hregular ⊢
    exact legible_keyword hregular hlead

end Reading

end PageContent
