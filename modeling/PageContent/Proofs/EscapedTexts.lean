import PageContent.Builder
import PageContent.Proofs.Literals
import PageContent.Proofs.Spelling

/-! # Texts in parentheses

    What a builder writes for a text, and what the lexer makes of it.

    * **Elements**: parentheses and backslashes are escaped, so that none of them opens,
      closes or escapes anything. All other bytes of a text stand for themselves.
    * **Line ends** are the exception. They are written as they are, and the lexer reads a
      carriage return, with or without a line feed after it, as a line feed.
    * **Texts** are read as one string that ends where they do. It has the bytes of the
      text if and only if there is no carriage return in the text.
-/

namespace PageContent

namespace Utf8

/-- A byte of a character that is ASCII is the whole character. -/
theorem eq_toChar_of_mem_encodeChar {b : UInt8} {c : Char} (hb : b ∈ encodeChar c)
    (hascii : b < 0x80) : c = Byte.toChar b := by
  by_cases hc : c.toNat < 0x80
  · rw [encodeChar_ascii hc] at hb
    rw [List.mem_singleton.mp hb, Numeral.toChar_ofChar (by omega)]
  · exact absurd hascii (encodeChar_not_ascii (Nat.le_of_not_lt hc) b hb)

/-- A character that is not `d` has no byte of `d`, if `d` is ASCII. -/
theorem ne_ofChar_of_mem_encodeChar {b : UInt8} {c d : Char} (hb : b ∈ encodeChar c)
    (hd : d.toNat < 0x80) (hne : c ≠ d) : b ≠ Byte.ofChar d := by
  rintro rfl
  have hascii : Byte.ofChar d < 0x80 := by
    have hnat : d.toNat.toUInt8.toNat = d.toNat :=
      UInt8.toNat_ofNat_of_lt' (by simp [UInt8.size]; omega)
    rw [UInt8.lt_iff_toNat_lt]
    exact hnat ▸ hd
  have hc := eq_toChar_of_mem_encodeChar hb hascii
  rw [Numeral.toChar_ofChar (by omega)] at hc
  exact hne hc

theorem encode_inj {s t : String} (h : encode s = encode t) : s = t := by
  rw [← decode_encode s, h, decode_encode]

end Utf8

namespace Argument

/-! ## Line ends -/

/-- Some characters with a line feed for every carriage return, and none after it. -/
def lineFeeds : List Char → List Char
  | [] => []
  | '\r' :: '\n' :: cs => '\n' :: lineFeeds cs
  | '\r' :: cs => '\n' :: lineFeeds cs
  | c :: cs => c :: lineFeeds cs

/-- A text with line feeds at the ends of its lines. -/
def withLineFeeds (text : String) : String :=
  String.ofList (lineFeeds text.toList)

theorem not_return_mem_lineFeeds (cs : List Char) : '\r' ∉ lineFeeds cs := by
  fun_induction lineFeeds cs with
  | case1 => exact List.not_mem_nil
  | case2 cs ih => simpa using ih
  | case3 cs _ ih => simpa using ih
  | case4 c cs _ hc ih =>
    rw [List.mem_cons]
    rintro (rfl | hmem)
    · exact hc rfl
    · exact ih hmem

theorem lineFeeds_eq_self {cs : List Char} (h : '\r' ∉ cs) : lineFeeds cs = cs := by
  fun_induction lineFeeds cs with
  | case1 => rfl
  | case2 cs ih => exact absurd List.mem_cons_self h
  | case3 cs _ ih => exact absurd List.mem_cons_self h
  | case4 c cs _ _ ih => rw [ih fun hmem => h (List.mem_cons_of_mem c hmem)]

/-- Only carriage returns are changed. -/
theorem encode_withLineFeeds_iff (text : String) :
    Utf8.encode (withLineFeeds text) = Utf8.encode text ↔ '\r' ∉ text.toList := by
  constructor
  · intro h
    have htext : lineFeeds text.toList = text.toList := by
      rw [← String.toList_ofList (l := lineFeeds text.toList)]
      exact congrArg String.toList (Utf8.encode_inj h)
    rw [← htext]
    exact not_return_mem_lineFeeds text.toList
  · intro h
    rw [withLineFeeds, lineFeeds_eq_self h, String.ofList_toList]

end Argument

namespace LiteralString

/-! ## Elements -/

/-- Bytes that stand for themselves and neither open nor close anything. -/
def IsInert (b : UInt8) : Prop :=
  b ≠ Byte.ofChar '(' ∧ b ≠ Byte.ofChar ')' ∧ b ≠ Byte.ofChar '\\' ∧ b ≠ 0x0D

/-- Bytes of that kind are their own contents. -/
theorem contents_inert {bytes : List UInt8} (h : ∀ b ∈ bytes, IsInert b) (rest : List UInt8) :
    contents 0 (bytes ++ rest) =
      (contents 0 rest).map fun (value, width) => (bytes ++ value, width + bytes.length) := by
  induction bytes with
  | nil => exact Option.map_id'.symm
  | cons b bytes ih =>
    obtain ⟨hopen, hclose, hbackslash, hreturn⟩ := h b List.mem_cons_self
    have hne : ∀ c : Char, b ≠ Byte.ofChar c → (⟨[b], [b]⟩ : Element) ≠ paren c :=
      fun c hb he => hb (List.cons.inj (congrArg Element.source he)).1
    have hplain : IsElement ⟨[b], [b]⟩ (bytes ++ rest) := .plain hbackslash hreturn
    have hfirst : contents 0 ([b] ++ (bytes ++ rest)) =
        (contents 0 (bytes ++ rest)).map fun (value, width) => ([b] ++ value, width + 1) :=
      contents_isElement hplain (hne '(' hopen) (hne ')' hclose)
    have hothers := ih fun x hx => h x (List.mem_cons_of_mem b hx)
    rw [List.cons_append, ← List.singleton_append, hfirst, hothers, Option.map_map]
    rfl

/-- A parenthesis or a backslash with a backslash in front of it. -/
theorem contents_special {c : Char} (hc : c = '(' ∨ c = ')' ∨ c = '\\') (rest : List UInt8) :
    contents 0 (Byte.ofChars ['\\', c] ++ rest) =
      (contents 0 rest).map fun (value, width) => (Byte.ofChar c :: value, width + 2) := by
  have hescape : escape (Byte.ofChar c :: rest) = ([Byte.ofChar c], 1) := by
    rcases hc with rfl | rfl | rfl <;> rfl
  exact contents_escaped hescape 0

/-- A line end that starts with a carriage return. -/
theorem contents_lineEnd {s rest : List UInt8} (h : IsReturn s rest) :
    contents 0 (s ++ rest) =
      (contents 0 rest).map fun (value, width) => (0x0A :: value, width + s.length) := by
  have hne : ∀ c : Char, (0x0A : UInt8) ≠ Byte.ofChar c → (⟨s, [0x0A]⟩ : Element) ≠ paren c :=
    fun c hb he => hb (List.cons.inj (congrArg Element.value he)).1
  exact contents_isElement (.lineEnd h) (hne '(' (by decide)) (hne ')' (by decide))

end LiteralString

namespace Argument

open LiteralString

/-- What is written between the parentheses. -/
def escaped (cs : List Char) : List UInt8 :=
  (cs.flatMap escapeChar).flatMap Utf8.encodeChar

theorem escaped_cons (c : Char) (cs : List Char) :
    escaped (c :: cs) = (escapeChar c).flatMap Utf8.encodeChar ++ escaped cs := by
  rw [escaped, List.flatMap_cons, List.flatMap_append]
  rfl

theorem encode_literalText (text : String) :
    Utf8.encode (literalText text) =
      Byte.ofChar '(' :: (escaped text.toList ++ [Byte.ofChar ')']) := by
  have hopen : Utf8.encodeChar '(' = [Byte.ofChar '('] := Utf8.encodeChar_ascii (by decide)
  have hclose : Utf8.encodeChar ')' = [Byte.ofChar ')'] := Utf8.encodeChar_ascii (by decide)
  rw [Utf8.encode, literalText, String.toList_ofList, List.flatMap_append, List.flatMap_append,
    List.flatMap_singleton, List.flatMap_singleton, hopen, hclose, List.append_assoc]
  rfl

theorem escapeChar_special {c : Char} (hc : c = '(' ∨ c = ')' ∨ c = '\\') :
    (escapeChar c).flatMap Utf8.encodeChar = Byte.ofChars ['\\', c] := by
  rcases hc with rfl | rfl | rfl <;> decide

theorem escapeChar_other {c : Char} (hc : ¬(c = '(' ∨ c = ')' ∨ c = '\\')) :
    (escapeChar c).flatMap Utf8.encodeChar = Utf8.encodeChar c := by
  rw [escapeChar, if_neg hc, List.flatMap_singleton]

/-- Any character but a carriage return stands for itself. -/
theorem contents_escapeChar {c : Char} (hreturn : c ≠ '\r') (rest : List UInt8) :
    contents 0 ((escapeChar c).flatMap Utf8.encodeChar ++ rest) =
      (contents 0 rest).map fun (value, width) =>
        (Utf8.encodeChar c ++ value, width + ((escapeChar c).flatMap Utf8.encodeChar).length) := by
  by_cases hc : c = '(' ∨ c = ')' ∨ c = '\\'
  · have hencode : Utf8.encodeChar c = [Byte.ofChar c] := by
      rcases hc with rfl | rfl | rfl <;> decide
    rw [escapeChar_special hc, contents_special hc, hencode]
    rfl
  · have hinert : ∀ b ∈ Utf8.encodeChar c, IsInert b := by
      intro b hb
      have hne {d : Char} (hd : d.toNat < 0x80) (h : c ≠ d) := Utf8.ne_ofChar_of_mem_encodeChar hb hd h
      exact ⟨hne (by decide) fun h => hc (.inl h), hne (by decide) fun h => hc (.inr (.inl h)),
        hne (by decide) fun h => hc (.inr (.inr h)), hne (d := '\r') (by decide) hreturn⟩
    rw [escapeChar_other hc]
    exact contents_inert hinert rest

/-- A carriage return without a line feed after it stays without one. -/
theorem isReturn_escaped {cs : List Char} (h : ∀ ds, cs ≠ '\n' :: ds) (r : List UInt8) :
    IsReturn [0x0D] (escaped cs ++ Byte.ofChar ')' :: r) := by
  apply IsReturn.alone
  cases cs with
  | nil => exact fun hfeed => absurd (Option.some.inj hfeed) (by decide)
  | cons c cs =>
    have hne : c ≠ '\n' := fun hc => h cs (hc ▸ rfl)
    rw [escaped_cons]
    by_cases hc : c = '(' ∨ c = ')' ∨ c = '\\'
    · rw [escapeChar_special hc]
      exact fun hfeed => absurd (Option.some.inj hfeed) (by decide)
    · obtain ⟨b, bs, hb⟩ := List.exists_cons_of_ne_nil (Utf8.encodeChar_ne_nil c)
      have hmem : b ∈ Utf8.encodeChar c := hb ▸ List.mem_cons_self
      rw [escapeChar_other hc, hb]
      exact fun hfeed => Utf8.ne_ofChar_of_mem_encodeChar hmem (by decide) hne
        (Option.some.inj hfeed)

/-- The contents of what is written for a text. -/
theorem contents_escaped_append (cs : List Char) (r : List UInt8) :
    contents 0 (escaped cs ++ Byte.ofChar ')' :: r) =
      some ((lineFeeds cs).flatMap Utf8.encodeChar, (escaped cs).length + 1) := by
  have hreturn : (escapeChar '\r').flatMap Utf8.encodeChar = [0x0D] := by decide
  have hfeed : Utf8.encodeChar '\n' = [0x0A] := by decide
  -- by recursion on the line ends of the text
  fun_induction lineFeeds cs with
  | case1 => exact contents_end r
  | case2 cs ih =>
    have hpair : escaped ('\r' :: '\n' :: cs) = [0x0D, 0x0A] ++ escaped cs := by
      have hfeed' : (escapeChar '\n').flatMap Utf8.encodeChar = [0x0A] := by decide
      rw [escaped_cons, escaped_cons, hreturn, hfeed']
      rfl
    rw [hpair, List.append_assoc, contents_lineEnd .pair, ih, List.flatMap_cons, hfeed]
    rfl
  | case3 cs hcs ih =>
    rw [escaped_cons, hreturn, List.append_assoc, contents_lineEnd (isReturn_escaped hcs r), ih,
      List.flatMap_cons, hfeed]
    rfl
  | case4 c cs _ hc ih =>
    rw [escaped_cons, List.append_assoc, contents_escapeChar hc, ih, List.flatMap_cons]
    simp only [Option.map_some, List.length_append]
    congr 2
    omega

/-- **Texts** spell strings. -/
theorem spells_literalText (text : String) :
    Reading.Spells (Utf8.encode (literalText text))
      (.literal (Utf8.encode (withLineFeeds text))) := by
  rw [encode_literalText]
  refine ⟨List.cons_ne_nil _ _, ?_⟩
  intro r _
  have hvalue : Utf8.encode (withLineFeeds text) =
      (lineFeeds text.toList).flatMap Utf8.encodeChar := by
    rw [Utf8.encode, withLineFeeds, String.toList_ofList]
  rw [hvalue, List.cons_append, List.append_assoc, Reading.ofBytes_literal, Reading.literal,
    List.singleton_append, contents_escaped_append]
  simp only [List.length_cons, List.length_append, List.length_nil, Nat.zero_add]

end Argument

namespace Lexer

/-- **Shown texts** are read as one string, wherever they are written. The string has the
    bytes of the text, with line feeds at the ends of its lines. These are the bytes of
    the text itself unless there is a carriage return in it. -/
theorem next_showText (text : String) (rest : List UInt8) (position : Nat) :
    let stop := position + (Utf8.encode (Argument.literalText text)).length
    next ⟨Utf8.encode (Command.showText text).text ++ rest, position, false⟩ =
        (.ok ⟨.literal (Utf8.encode (Argument.withLineFeeds text)), ⟨position, stop⟩⟩,
          ⟨Byte.ofChars [' ', 'T', 'j', '\n'] ++ rest, stop, false⟩) ∧
      (Utf8.encode (Argument.withLineFeeds text) = Utf8.encode text ↔ '\r' ∉ text.toList) := by
  intro stop
  refine ⟨?_, Argument.encode_withLineFeeds_iff text⟩
  have hbytes : Utf8.encode (Command.showText text).text =
      Utf8.encode (Argument.literalText text) ++ Byte.ofChars [' ', 'T', 'j', '\n'] := by
    have hline : (Command.showText text).text = Argument.literalText text ++ " Tj\n" := by
      simp [Command.text, Command.instructions, Instruction.text, Argument.text,
        String.append_assoc]
    have hrest : Utf8.encode " Tj\n" = Byte.ofChars [' ', 'T', 'j', '\n'] := by decide +kernel
    rw [hline, Utf8.encode_append, hrest]
  have hread := (Argument.spells_literalText text).2 (Byte.ofChars [' ', 'T', 'j', '\n'] ++ rest)
    (wordEnds_space _)
  rw [hbytes, List.append_assoc]
  exact next_front hread position

/-- What is written for a carriage return is read as a line feed. -/
theorem next_showText_return :
    ∃ l', (ofBytes (Builder.empty.add (.showText "\r")).bytes).next =
        (.ok ⟨.literal [0x0A], ⟨0, 3⟩⟩, l') ∧ Utf8.encode "\r" = [0x0D] := by
  have hbytes : (Builder.empty.add (.showText "\r")).bytes =
      Utf8.encode (Argument.literalText "\r") ++ Byte.ofChars [' ', 'T', 'j', '\n'] := by
    decide +kernel
  have hread := (Argument.spells_literalText "\r").2 (Byte.ofChars [' ', 'T', 'j', '\n'])
    (wordEnds_space _)
  have hvalue : Utf8.encode (Argument.withLineFeeds "\r") = [0x0A] := by decide +kernel
  have hlength : (Utf8.encode (Argument.literalText "\r")).length = 3 := by decide +kernel
  have hnext := next_front hread 0
  rw [hvalue, hlength] at hnext
  rw [hbytes]
  exact ⟨_, hnext, by decide +kernel⟩

end Lexer

end PageContent
