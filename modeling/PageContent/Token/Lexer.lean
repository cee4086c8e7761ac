import PageContent.Token.Numeral
import PageContent.Token.LiteralString
import PageContent.Token.HexString
import PageContent.Token.Name
import PageContent.Token.InlineData

/-! # The lexer

    Reads one token after the other from the bytes of a content stream.

    * **Local reading**: what stands at the front of some bytes depends on
      nothing but these bytes, and is measured from their start.
    * **Lexer**: the bytes that are left, their position in the stream, and
      whether they begin with inline image data.
    * **Progress**: a token other than the end of the stream takes the lexer
      further. A fault may leave it where it is.
-/

namespace PageContent

/-! ## Reading at the front -/

/-- What stands at the front of some bytes. -/
inductive Reading where
  /-- A token that takes `width` bytes. -/
  | token (lexeme : Lexeme) (width : Nat)
  /-- A fault at `offset`. Reading may go on after `passed` bytes. -/
  | fault (fault : LexicalFault) (offset passed : Nat)
  deriving DecidableEq, Repr

namespace Reading

/-- The longest run of regular bytes at the front. -/
def word (bytes : List UInt8) : List UInt8 :=
  bytes.takeWhile Byte.isRegular

/-- How many bytes of blanks and comments are in front. A comment runs up to
    the end of its line. -/
def blanks (inComment : Bool) : List UInt8 → Nat
  | [] => 0
  | b :: rest =>
    if inComment then 1 + blanks (!Byte.isLineEnd b) rest
    else if Byte.isBlank b then 1 + blanks false rest
    else if b = Byte.ofChar '%' then 1 + blanks true rest
    else 0

def numeral (bytes : List UInt8) : Reading :=
  match Numeral.parse? (word bytes) with
  | some lexeme => .token lexeme (word bytes).length
  | none => .fault (.malformedNumber (Utf8.decode (word bytes))) 0 (word bytes).length

/-- A string whose first parenthesis has been read; `rest` comes after it. -/
def literal (rest : List UInt8) : Reading :=
  match LiteralString.contents 0 rest with
  | some (value, width) => .token (.literal value) (width + 1)
  | none => .fault .unterminatedLiteral 0 (rest.length + 1)

/-- A string whose first angle bracket has been read; `rest` comes after it. -/
def hex (rest : List UInt8) : Reading :=
  let inner := HexString.inner rest
  match rest.drop inner.length with
  | [] => .fault .unterminatedHex 0 (inner.length + 1)
  | b :: _ =>
    if b = Byte.ofChar '>' then .token (.hex (HexString.contents inner)) (inner.length + 2)
    else .fault (.notHexDigit b) (inner.length + 1) (inner.length + 1)

/-- A name whose slash has been read; `rest` comes after it. -/
def name (rest : List UInt8) : Reading :=
  match Name.unescape (word rest) with
  | .ok bytes => .token (.name (Utf8.decode bytes)) ((word rest).length + 1)
  | .error offset => .fault .nameEscape (offset + 1) ((word rest).length + 1)

/-- The lexeme of a bare word. -/
def keyword (text : String) : Lexeme :=
  if text = "true" then .boolean true
  else if text = "false" then .boolean false
  else if text = "null" then .null
  else .operator text

/-- What stands at the front of bytes that start with neither a blank nor a
    comment. -/
def ofBytes : List UInt8 → Reading
  | [] => .token .eof 0
  | b :: rest =>
    if Numeral.isLead b then numeral (b :: rest)
    else if b = Byte.ofChar '(' then literal rest
    else if b = Byte.ofChar '<' then
      if rest.head? = some (Byte.ofChar '<') then .token .dictOpen 2 else hex rest
    else if b = Byte.ofChar '>' then
      if rest.head? = some (Byte.ofChar '>') then .token .dictClose 2
      else .fault .strayAngle 0 0
    else if b = Byte.ofChar '[' then .token .arrayOpen 1
    else if b = Byte.ofChar ']' then .token .arrayClose 1
    else if b = Byte.ofChar '/' then name rest
    else if Byte.isRegular b then
      .token (keyword (Utf8.decode (word (b :: rest)))) (word (b :: rest)).length
    else .fault (.illegalByte b) 0 0

/-- The inline image data at the front. -/
def inlineData (bytes : List UInt8) : Reading :=
  match InlineData.length? bytes with
  | some n => .token (.inlineData (bytes.take n)) n
  | none => .fault .unterminatedData 0 0

end Reading

/-! ## Lexer states -/

/-- A lexer between two tokens. -/
structure Lexer where
  /-- The bytes that are left. -/
  rest : List UInt8
  /-- The position of the first of them in the stream. -/
  position : Nat
  /-- Whether the token before was `ID`, so that inline image data is next. -/
  dataNext : Bool
  deriving DecidableEq, Repr

namespace Lexer

/-- The lexer at the start of a stream. -/
def ofBytes (bytes : List UInt8) : Lexer :=
  ⟨bytes, 0, false⟩

/-- The number of bytes that are passed over before the next token. -/
def gap (l : Lexer) : Nat :=
  if l.dataNext then InlineData.separator l.rest else Reading.blanks false l.rest

/-- What stands at the front after the gap. -/
def reading (l : Lexer) : Reading :=
  if l.dataNext then Reading.inlineData (l.rest.drop l.gap)
  else Reading.ofBytes (l.rest.drop l.gap)

/-- The next token or fault, and the lexer after it. At the end of the stream
    it is the same token again and again. -/
def next (l : Lexer) : Except LexicalError Token × Lexer :=
  let start := l.position + l.gap
  let bytes := l.rest.drop l.gap
  match l.reading with
  | .token lexeme width =>
    (.ok ⟨lexeme, ⟨start, start + width⟩⟩,
      ⟨bytes.drop width, start + width, !l.dataNext && lexeme = .operator "ID"⟩)
  | .fault fault offset passed =>
    (.error ⟨start + offset, fault⟩, ⟨bytes.drop passed, start + passed, false⟩)

/-! ## Progress -/

/-- What is left to read, in half bytes; data that is known to come next counts
    for one. -/
def remaining (l : Lexer) : Nat :=
  2 * l.rest.length + l.dataNext.toNat

end Lexer

namespace Reading

/-- A word that starts with a regular byte is not empty. -/
theorem word_length_pos {b : UInt8} (rest : List UInt8) (h : Byte.isRegular b = true) :
    0 < (word (b :: rest)).length := by
  simp [word, h]

/-- The lead bytes of numerals are regular. -/
theorem isRegular_of_isLead (b : UInt8) (h : Numeral.isLead b = true) :
    Byte.isRegular b = true := by
  revert b
  exact Byte.forall_of_fin (by decide +kernel)

theorem width_pos_of_numeral {b : UInt8} {rest : List UInt8} {lexeme : Lexeme} {width : Nat}
    (hb : Byte.isRegular b = true) (h : numeral (b :: rest) = .token lexeme width) :
    0 < width := by
  simp only [numeral] at h
  split at h <;> simp only [token.injEq, reduceCtorEq] at h
  rw [← h.2]
  exact word_length_pos rest hb

theorem width_pos_of_literal {rest : List UInt8} {lexeme : Lexeme} {width : Nat}
    (h : literal rest = .token lexeme width) : 0 < width := by
  simp only [literal] at h
  split at h <;> simp only [token.injEq, reduceCtorEq] at h
  omega

theorem width_pos_of_hex {rest : List UInt8} {lexeme : Lexeme} {width : Nat}
    (h : hex rest = .token lexeme width) : 0 < width := by
  simp only [hex] at h
  split at h
  · exact absurd h (by simp)
  split at h <;> simp only [token.injEq, reduceCtorEq] at h
  omega

theorem width_pos_of_name {rest : List UInt8} {lexeme : Lexeme} {width : Nat}
    (h : name rest = .token lexeme width) : 0 < width := by
  simp only [name] at h
  split at h <;> simp only [token.injEq, reduceCtorEq] at h
  omega

/-- Every token but the end of the stream takes at least one byte. -/
theorem width_pos_of_token {bytes : List UInt8} {lexeme : Lexeme} {width : Nat}
    (h : ofBytes bytes = .token lexeme width) (hne : lexeme ≠ .eof) :
    0 < width ∧ bytes ≠ [] := by
  match bytes with
  | [] =>
    simp only [ofBytes, token.injEq] at h
    exact absurd h.1.symm hne
  | b :: rest =>
    refine ⟨?_, by simp⟩
    simp only [ofBytes] at h
    -- the readings in the order in which they are tried
    split at h
    · next hlead => exact width_pos_of_numeral (isRegular_of_isLead b hlead) h
    split at h
    · exact width_pos_of_literal h
    split at h
    · split at h
      · simp only [token.injEq] at h; omega
      · exact width_pos_of_hex h
    split at h
    · split at h <;> simp only [token.injEq, reduceCtorEq] at h
      omega
    split at h
    · simp only [token.injEq] at h; omega
    split at h
    · simp only [token.injEq] at h; omega
    split at h
    · exact width_pos_of_name h
    split at h
    · next hregular =>
      simp only [token.injEq] at h
      rw [← h.2]
      exact word_length_pos rest hregular
    · exact absurd h (by simp)

end Reading

namespace Lexer

/-- A token other than the end of the stream leaves less to read. -/
theorem remaining_next_lt {l l' : Lexer} {t : Token} (h : l.next = (.ok t, l'))
    (hne : t.lexeme ≠ .eof) : l'.remaining < l.remaining := by
  simp only [next] at h
  split at h
  · next lexeme width hread =>
    simp only [Prod.mk.injEq, Except.ok.injEq] at h
    obtain ⟨ht, hl⟩ := h
    subst ht hl
    simp only [remaining, List.length_drop]
    cases hdata : l.dataNext with
    | true =>
      -- image data may be empty, but then the flag is taken back
      simp only [Bool.not_true, Bool.false_and, Bool.toNat_false, Bool.toNat_true]
      omega
    | false =>
      -- an `ID` takes two half bytes and costs one
      simp only [reading, hdata, Bool.false_eq_true, if_false] at hread
      obtain ⟨hpos, hbytes⟩ := Reading.width_pos_of_token hread hne
      have hlen : 0 < (l.rest.drop l.gap).length := List.length_pos_iff.mpr hbytes
      have hflag := Bool.toNat_le (!false && decide (lexeme = .operator "ID"))
      simp only [List.length_drop, Bool.toNat_false] at *
      omega
  · simp only [Prod.mk.injEq, reduceCtorEq, false_and] at h

end Lexer

end PageContent
