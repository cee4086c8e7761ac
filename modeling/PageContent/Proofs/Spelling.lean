import PageContent.Proofs.Lexing
import PageContent.Proofs.Writing

/-! # What is written, to the lexer

    The lexer reads the tokens of a call from the bytes that are written for it.

    * **Lexemes** of an operand, and of a call: the flat list that its tokens say.
    * **Yields**: in front of what comes after them some bytes are read as some
      lexemes. A separating space belongs to the token after it.
    * **ASCII**: operands are written without any other bytes, so they are the same
      as text and as bytes.
-/

namespace PageContent

/-! ## Lexemes -/

namespace Operand

mutual

/-- What the tokens of an operand say, in order. -/
def lexemes : Operand → List Lexeme
  | integer i => [.integer i]
  | real x => [.real x]
  | boolean b => [.boolean b]
  | null => [.null]
  | name n => [.name n]
  | string .literal bytes => [.literal bytes]
  | string .hex bytes => [.hex bytes]
  | array items => .arrayOpen :: (lexemesOfItems items ++ [.arrayClose])
  | dictionary entries => .dictOpen :: (lexemesOfEntries entries ++ [.dictClose])
  | inlineData bytes => [.inlineData bytes]

def lexemesOfItems : List Operand → List Lexeme
  | [] => []
  | x :: rest => x.lexemes ++ lexemesOfItems rest

def lexemesOfEntries : List (String × Operand) → List Lexeme
  | [] => []
  | (key, x) :: rest => .name key :: (x.lexemes ++ lexemesOfEntries rest)

end

theorem lexemes_ne_nil (x : Operand) : x.lexemes ≠ [] := by
  match x with
  | string .literal _ => exact List.cons_ne_nil _ _
  | string .hex _ => exact List.cons_ne_nil _ _
  | integer _ | real _ | boolean _ | null | name _ | array _ | dictionary _ | inlineData _ =>
    exact List.cons_ne_nil _ _

theorem lexemesOfItems_eq (xs : List Operand) : lexemesOfItems xs = xs.flatMap lexemes := by
  induction xs with
  | nil => rfl
  | cons x xs ih => rw [lexemesOfItems, ih, List.flatMap_cons]

end Operand

/-- What the tokens of a call say: those of its operands, then its keyword. -/
def Invocation.lexemes (call : Invocation) : List Lexeme :=
  call.operands.flatMap Operand.lexemes ++ [.operator call.keyword]

/-! ## Runs of bytes -/

theorem wordEnds_space (r : List UInt8) : WordEnds (0x20 :: r) := by
  intro b hb
  rw [← Option.some.inj hb]
  decide

theorem wordEnds_bracket (r : List UInt8) : WordEnds (Byte.ofChar ']' :: r) := by
  intro b hb
  rw [← Option.some.inj hb]
  decide

namespace Lexer

/-- In front of `r` the bytes `c` are read as the lexemes `ls`, wherever they lie. -/
def Yields (c : List UInt8) (ls : List Lexeme) (r : List UInt8) : Prop :=
  ∀ position, ∃ ts, Reaches ⟨c ++ r, position, false⟩ ts ⟨r, position + c.length, false⟩ ∧
    ts.map (·.lexeme) = ls

variable {c d r : List UInt8} {ls ms : List Lexeme}

theorem yields_nil (r : List UInt8) : Yields [] [] r :=
  fun _ => ⟨[], Reaches.refl, rfl⟩

theorem Yields.append (hc : Yields c ls (d ++ r)) (hd : Yields d ms r) :
    Yields (c ++ d) (ls ++ ms) r := by
  intro position
  obtain ⟨ts, hts, rfl⟩ := hc position
  obtain ⟨us, hus, rfl⟩ := hd (position + c.length)
  refine ⟨ts ++ us, ?_, List.map_append⟩
  rw [List.append_assoc, List.length_append, ← Nat.add_assoc]
  exact hts.trans hus

theorem next_space (bytes : List UInt8) (position : Nat) :
    next ⟨0x20 :: bytes, position, false⟩ = next ⟨bytes, position + 1, false⟩ := by
  apply next_skip (g := [0x20])
  rw [List.singleton_append, Reading.blanks_space, List.length_singleton, Nat.add_comm]

theorem Reaches.space {bytes : List UInt8} {position : Nat} {ts : List Token} {l : Lexer}
    (h : Reaches ⟨bytes, position + 1, false⟩ ts l) (hne : ts ≠ []) :
    Reaches ⟨0x20 :: bytes, position, false⟩ ts l := by
  -- only the first step meets the space, and there is one
  cases h with
  | refl => exact absurd rfl hne
  | step hnext hlexeme hrest =>
    apply Reaches.step _ hlexeme hrest
    rw [next_space]
    exact hnext

theorem Yields.space (h : Yields c ls r) (hne : ls ≠ []) : Yields (0x20 :: c) ls r := by
  intro position
  obtain ⟨ts, hts, rfl⟩ := h (position + 1)
  refine ⟨ts, ?_, rfl⟩
  have hend : position + (0x20 :: c).length = position + 1 + c.length := by
    rw [List.length_cons]
    omega
  rw [hend]
  exact hts.space fun hnil => hne (by rw [hnil]; rfl)

/-- Two parts with a space between them. -/
theorem Yields.spaced (hc : ∀ r, WordEnds r → Yields c ls r) (hd : Yields d ms r)
    (hne : ms ≠ []) : Yields (c ++ 0x20 :: d) (ls ++ ms) r :=
  (hc _ (wordEnds_space (d ++ r))).append (hd.space hne)

theorem yields_token {lexeme : Lexeme} (h : Reading.ofBytes (c ++ r) = .token lexeme c.length)
    (hne : lexeme ≠ .eof) (hid : lexeme ≠ .operator "ID") : Yields c [lexeme] r := by
  intro position
  have hnext := next_front h position
  rw [decide_eq_false hid] at hnext
  exact ⟨_, Reaches.step hnext hne Reaches.refl, rfl⟩

theorem yields_spelled {lexeme : Lexeme} (h : Reading.Spells c lexeme) (hr : WordEnds r)
    (hne : lexeme ≠ .eof) (hid : lexeme ≠ .operator "ID") : Yields c [lexeme] r :=
  yields_token (h.2 r hr) hne hid

end Lexer

/-! ## Operands -/

theorem Lexeme.finite_of_legible {x : Binary64} (h : Lexeme.Legible (.real x)) : x.IsFinite := by
  cases h with
  | real hx => exact hx

theorem Lexeme.not_legible_inlineData (bytes : List UInt8) :
    ¬ Lexeme.Legible (.inlineData bytes) := by
  intro h
  cases h

namespace Operand

open Lexer

/-- Every lexeme of the operand is legible. -/
def Legible (x : Operand) : Prop :=
  ∀ l ∈ x.lexemes, l.Legible

theorem latin1Entries_cons (key : String) (x : Operand) (entries : List (String × Operand)) :
    latin1Entries ((key, x) :: entries) =
      0x20 :: (Name.write key ++ 0x20 :: (x.latin1 ++ latin1Entries entries)) := by
  simp [latin1Entries, show Byte.ofChar ' ' = 0x20 from rfl]

theorem wordEnds_entries {r : List UInt8} (hr : WordEnds r) :
    ∀ entries : List (String × Operand), WordEnds (latin1Entries entries ++ r)
  | [] => hr
  | (key, x) :: entries => by
    rw [latin1Entries_cons]
    exact wordEnds_space _

/-- What is written for an operand of one token is read as this token. -/
theorem spells_scalar {x : Operand} {l : Lexeme} (h : x.lexemes = [l]) (hl : l.Legible) :
    Reading.Spells x.latin1 l := by
  match x with
  | .integer i =>
    obtain rfl := List.singleton_inj.mp h
    exact Reading.spells_number (Numeral.parse?_writeInteger i)
  | .real v =>
    obtain rfl := List.singleton_inj.mp h
    exact Reading.spells_number (Binary64.parse?_operandChars (Lexeme.finite_of_legible hl))
  | .boolean true =>
    obtain rfl := List.singleton_inj.mp h
    exact Reading.spells_word (by decide) (by decide) (by decide) (by decide +kernel)
  | .boolean false =>
    obtain rfl := List.singleton_inj.mp h
    exact Reading.spells_word (by decide) (by decide) (by decide) (by decide +kernel)
  | .null =>
    obtain rfl := List.singleton_inj.mp h
    exact Reading.spells_word (by decide) (by decide) (by decide) (by decide +kernel)
  | .name n =>
    obtain rfl := List.singleton_inj.mp h
    exact Reading.spells_name n
  | .string .literal bytes =>
    obtain rfl := List.singleton_inj.mp h
    exact Reading.spells_literal
  | .string .hex bytes =>
    obtain rfl := List.singleton_inj.mp h
    exact Reading.spells_hex
  | .inlineData bytes =>
    obtain rfl := List.singleton_inj.mp h
    exact absurd hl (Lexeme.not_legible_inlineData bytes)
  -- containers have brackets
  | .array items => exact absurd (List.cons.inj h).2 (by simp)
  | .dictionary entries => exact absurd (List.cons.inj h).2 (by simp)

mutual

/-- **Operands** are read from what is written for them. -/
theorem yields_operand (x : Operand) (hx : ∀ l ∈ x.lexemes, l.Legible) {r : List UInt8}
    (hr : WordEnds r) : Yields x.latin1 x.lexemes r := by
  match x with
  | .integer _ | .real _ | .boolean _ | .null | .name _ =>
    exact yields_spelled (spells_scalar rfl (hx _ List.mem_cons_self)) hr (by simp) (by simp)
  | .string .literal _ | .string .hex _ =>
    exact yields_spelled (spells_scalar rfl (hx _ List.mem_cons_self)) hr (by simp) (by simp)
  | .array items =>
    -- between the brackets there are the items, and words end at the second one
    have hitems : ∀ l ∈ lexemesOfItems items, l.Legible := by
      intro l hl
      exact hx l (List.mem_cons_of_mem _ (List.mem_append_left _ hl))
    have hopen : Yields [Byte.ofChar '['] [.arrayOpen]
        ((latin1Items items ++ [Byte.ofChar ']']) ++ r) :=
      yields_token (Reading.ofBytes_arrayOpen _) (by simp) (by simp)
    have hclose : Yields [Byte.ofChar ']'] [.arrayClose] r :=
      yields_token (Reading.ofBytes_arrayClose _) (by simp) (by simp)
    have hinner := yields_items items hitems (wordEnds_bracket r)
    have hall := hopen.append (hinner.append hclose)
    rwa [← List.append_assoc] at hall
  | .dictionary entries =>
    have hentries : ∀ l ∈ lexemesOfEntries entries, l.Legible := by
      intro l hl
      exact hx l (List.mem_cons_of_mem _ (List.mem_append_left _ hl))
    have hopen : Yields (Byte.ofChars ['<', '<']) [.dictOpen]
        ((latin1Entries entries ++ Byte.ofChars [' ', '>', '>']) ++ r) :=
      yields_token (Reading.ofBytes_dictOpen _) (by simp) (by simp)
    -- the closing brackets have a space before them
    have hbracket : Yields (Byte.ofChars ['>', '>']) [.dictClose] r :=
      yields_token (Reading.ofBytes_dictClose _) (by simp) (by simp)
    have hclose : Yields (Byte.ofChars [' ', '>', '>']) [.dictClose] r :=
      hbracket.space (List.cons_ne_nil _ _)
    have hinner := yields_entries entries hentries (wordEnds_space (Byte.ofChars ['>', '>'] ++ r))
    have hall := hopen.append (hinner.append hclose)
    rwa [← List.append_assoc] at hall
  | .inlineData bytes =>
    exact absurd (hx _ List.mem_cons_self) (Lexeme.not_legible_inlineData bytes)

theorem yields_items (xs : List Operand) (hxs : ∀ l ∈ lexemesOfItems xs, l.Legible)
    {r : List UInt8} (hr : WordEnds r) : Yields (latin1Items xs) (lexemesOfItems xs) r := by
  match xs with
  | [] => exact yields_nil r
  | [x] =>
    have hx := yields_operand x (fun l hl => hxs l (List.mem_append_left _ hl)) hr
    rwa [latin1Items, lexemesOfItems, lexemesOfItems, List.append_nil]
  | x :: y :: rest =>
    have hx : ∀ r, WordEnds r → Yields x.latin1 x.lexemes r :=
      fun _ => yields_operand x (fun l hl => hxs l (List.mem_append_left _ hl))
    have hrest := yields_items (y :: rest) (fun l hl => hxs l (List.mem_append_right _ hl)) hr
    have hne : lexemesOfItems (y :: rest) ≠ [] :=
      fun h => lexemes_ne_nil y (List.append_eq_nil_iff.mp h).1
    rw [latin1Items, lexemesOfItems, List.append_assoc]
    · exact Yields.spaced hx hrest hne
    · simp

theorem yields_entries (es : List (String × Operand))
    (hes : ∀ l ∈ lexemesOfEntries es, l.Legible) {r : List UInt8} (hr : WordEnds r) :
    Yields (latin1Entries es) (lexemesOfEntries es) r := by
  match es with
  | [] => exact yields_nil r
  | (key, x) :: rest =>
    -- the key ends at the space before its value
    have hkey : Yields (Name.write key) [.name key]
        (0x20 :: (x.latin1 ++ latin1Entries rest) ++ r) :=
      yields_spelled (Reading.spells_name key) (wordEnds_space _) (by simp) (by simp)
    have hx := yields_operand x
      (fun l hl => hes l (List.mem_cons_of_mem _ (List.mem_append_left _ hl)))
      (wordEnds_entries hr rest)
    have hrest := yields_entries rest
      (fun l hl => hes l (List.mem_cons_of_mem _ (List.mem_append_right _ hl))) hr
    have hvalue : x.lexemes ++ lexemesOfEntries rest ≠ [] :=
      fun h => lexemes_ne_nil x (List.append_eq_nil_iff.mp h).1
    rw [latin1Entries_cons]
    exact (hkey.append ((hx.append hrest).space hvalue)).space (List.cons_ne_nil _ _)

end

/-! ## ASCII -/

theorem ascii_of_isLead {b : UInt8} (h : Numeral.isLead b = true) : b < 0x80 := by
  have hall : ∀ b, Numeral.isLead b = true → b < 0x80 := Byte.forall_of_fin (by decide +kernel)
  exact hall b h

theorem ascii_number {word : List UInt8} {lexeme : Lexeme}
    (h : Numeral.parse? word = some lexeme) : ∀ b ∈ word, b < 0x80 :=
  fun b hb => ascii_of_isLead ((Numeral.isLead_of_parse? h).2 b hb)

theorem ascii_of_all {bytes : List UInt8} (h : bytes.all (fun b => decide (b < 0x80)) = true) :
    ∀ b ∈ bytes, b < 0x80 :=
  fun b hb => of_decide_eq_true (List.all_eq_true.mp h b hb)

theorem ascii_flatMap {f : UInt8 → List UInt8}
    (h : ∀ b, (f b).all (fun x => decide (x < 0x80)) = true) (bytes : List UInt8) :
    ∀ x ∈ bytes.flatMap f, x < 0x80 := by
  intro x hx
  obtain ⟨b, -, hb⟩ := List.mem_flatMap.mp hx
  exact ascii_of_all (h b) x hb

theorem ascii_append {bytes bytes' : List UInt8} (h : ∀ b ∈ bytes, b < 0x80)
    (h' : ∀ b ∈ bytes', b < 0x80) : ∀ b ∈ bytes ++ bytes', b < 0x80 := by
  intro b hb
  rcases List.mem_append.mp hb with hb | hb
  · exact h b hb
  · exact h' b hb

theorem ascii_name (text : String) : ∀ b ∈ Name.write text, b < 0x80 := by
  have hescape : ∀ b, (Name.escape b).all (fun x => decide (x < 0x80)) = true :=
    Byte.forall_of_fin (by decide +kernel)
  have hslash : ∀ b ∈ [Byte.ofChar '/'], b < 0x80 := ascii_of_all (by decide)
  exact ascii_append hslash (ascii_flatMap hescape (Utf8.encode text))

theorem ascii_string (form : StringForm) (bytes : List UInt8) :
    ∀ b ∈ writeString form bytes, b < 0x80 := by
  cases form with
  | literal =>
    have helement : ∀ b, (writeLiteralByte b).all (fun x => decide (x < 0x80)) = true :=
      Byte.forall_of_fin (by decide +kernel)
    exact ascii_append (ascii_append (ascii_of_all (by decide)) (ascii_flatMap helement bytes))
      (ascii_of_all (by decide))
  | hex =>
    have hdigits : ∀ b, (Byte.ofChars (Byte.hex b)).all (fun x => decide (x < 0x80)) = true :=
      Byte.forall_of_fin (by decide +kernel)
    exact ascii_append (ascii_append (ascii_of_all (by decide)) (ascii_flatMap hdigits bytes))
      (ascii_of_all (by decide))

/-- The text of a real has digits, a sign, a point, or the letters of a value that is not
    finite. -/
theorem ascii_real (v : Binary64) : ∀ b ∈ Byte.ofChars v.operandChars, b < 0x80 := by
  by_cases hv : v.IsFinite
  · exact ascii_number (Binary64.parse?_operandChars hv)
  · cases v with
    | nan => exact ascii_of_all (by decide)
    | number negative rank =>
      have hrank : ¬ rank < Magnitude.infinity :=
        fun h => hv ⟨negative, rank, h, (Binary64.ofRank_of_lt h negative).symm⟩
      have hchars : (Binary64.number negative rank).operandChars =
          (Binary64.number negative rank).sign ++ ['i', 'n', 'f'] := by
        simp [Binary64.operandChars, Binary64.units?, Binary64.chars, Binary64.shortest?, hrank]
      rw [hchars]
      cases negative with
      | false => exact ascii_of_all (show (Byte.ofChars ['i', 'n', 'f']).all _ = true by decide)
      | true => exact ascii_of_all (show (Byte.ofChars ['-', 'i', 'n', 'f']).all _ = true by decide)

mutual

theorem ascii_latin1 (x : Operand) (hx : ∀ bytes, Lexeme.inlineData bytes ∉ x.lexemes) :
    ∀ b ∈ x.latin1, b < 0x80 := by
  match x with
  | .integer i => exact ascii_number (Numeral.parse?_writeInteger i)
  | .real v => exact ascii_real v
  | .boolean true => exact ascii_of_all (by decide)
  | .boolean false => exact ascii_of_all (by decide)
  | .null => exact ascii_of_all (by decide)
  | .name n => exact ascii_name n
  | .string form bytes => exact ascii_string form bytes
  | .array items =>
    have hitems := ascii_items items
      (fun bytes hl => hx bytes (List.mem_cons_of_mem _ (List.mem_append_left _ hl)))
    exact ascii_append (ascii_append (ascii_of_all (by decide)) hitems) (ascii_of_all (by decide))
  | .dictionary entries =>
    have hentries := ascii_entries entries
      (fun bytes hl => hx bytes (List.mem_cons_of_mem _ (List.mem_append_left _ hl)))
    exact ascii_append (ascii_append (ascii_of_all (by decide)) hentries)
      (ascii_of_all (by decide))
  | .inlineData bytes => exact absurd List.mem_cons_self (hx bytes)

theorem ascii_items (xs : List Operand)
    (hxs : ∀ bytes, Lexeme.inlineData bytes ∉ lexemesOfItems xs) :
    ∀ b ∈ latin1Items xs, b < 0x80 := by
  match xs with
  | [] => exact ascii_of_all (by decide)
  | [x] => exact ascii_latin1 x (fun bytes hl => hxs bytes (List.mem_append_left _ hl))
  | x :: y :: rest =>
    have hx := ascii_latin1 x (fun bytes hl => hxs bytes (List.mem_append_left _ hl))
    have hrest := ascii_items (y :: rest)
      (fun bytes hl => hxs bytes (List.mem_append_right _ hl))
    exact ascii_append (ascii_append hx (ascii_of_all (by decide))) hrest

theorem ascii_entries (es : List (String × Operand))
    (hes : ∀ bytes, Lexeme.inlineData bytes ∉ lexemesOfEntries es) :
    ∀ b ∈ latin1Entries es, b < 0x80 := by
  match es with
  | [] => exact ascii_of_all (by decide)
  | (key, x) :: rest =>
    have hx := ascii_latin1 x
      (fun bytes hl => hes bytes (List.mem_cons_of_mem _ (List.mem_append_left _ hl)))
    have hrest := ascii_entries rest
      (fun bytes hl => hes bytes (List.mem_cons_of_mem _ (List.mem_append_right _ hl)))
    exact ascii_append (ascii_append (ascii_append (ascii_append (ascii_of_all (by decide))
      (ascii_name key)) (ascii_of_all (by decide))) hx) hrest

end

theorem ascii_operand (x : Operand) (hx : ∀ l ∈ x.lexemes, l.Legible) :
    ∀ b ∈ x.latin1, b < 0x80 :=
  ascii_latin1 x fun bytes hbytes => Lexeme.not_legible_inlineData bytes (hx _ hbytes)

/-- The bytes of an operand are its text. -/
theorem write_eq_latin1 {x : Operand} (hx : x.Legible) : x.write = x.latin1 := by
  have hencode : Utf8.encode x.text = x.latin1 := Utf8.encode_latin1 (ascii_operand x hx)
  cases x with
  | inlineData bytes => rfl
  | _ => exact hencode

end Operand

/-! ## Calls -/

namespace Invocation

open Lexer

/-- Operands with a space after each are read in front of other tokens. -/
theorem yields_operands {xs : List Operand} (hxs : ∀ x ∈ xs, x.Legible) {c r : List UInt8}
    {ls : List Lexeme} (hc : Yields c ls r) (hne : ls ≠ []) :
    Yields (xs.flatMap (fun x => x.write ++ [Byte.ofChar ' ']) ++ c)
      (xs.flatMap Operand.lexemes ++ ls) r := by
  induction xs with
  | nil => exact hc
  | cons x xs ih =>
    have hrest := ih fun y hy => hxs y (List.mem_cons_of_mem x hy)
    have hx := hxs x List.mem_cons_self
    -- the space after an operand is counted with what comes next
    generalize hd : xs.flatMap (fun x => x.write ++ [Byte.ofChar ' ']) ++ c = d at hrest
    have hbytes : (x :: xs).flatMap (fun x => x.write ++ [Byte.ofChar ' ']) ++ c =
        x.latin1 ++ 0x20 :: d := by
      rw [← hd, List.flatMap_cons, Operand.write_eq_latin1 hx]
      simp [show Byte.ofChar ' ' = 0x20 from rfl]
    rw [hbytes, List.flatMap_cons, List.append_assoc]
    exact Yields.spaced (fun _ => Operand.yields_operand x hx) hrest
      (List.append_ne_nil_of_right_ne_nil _ hne)

/-- **Calls** are read from what is written for them, if no image data comes next. -/
theorem yields_call {call : Invocation} (hoperands : ∀ x ∈ call.operands, x.Legible)
    (hkeyword : Reading.IsKeyword call.keyword) (hid : call.keyword ≠ "ID") {r : List UInt8}
    (hr : WordEnds r) : Yields call.write call.lexemes r := by
  have hoperator : Yields (Utf8.encode call.keyword) [.operator call.keyword] r :=
    yields_spelled (Reading.spells_keyword hkeyword) hr (by simp) (by simpa using hid)
  exact yields_operands hoperands hoperator (List.cons_ne_nil _ _)

/-- Image data between its operators. -/
theorem yields_image {data r : List UInt8} (hdata : InlineData.Unterminated data)
    (hr : StandsAlone r) :
    Yields (Utf8.encode "ID" ++ 0x20 :: (data ++ 0x20 :: InlineData.mark))
      [.operator "ID", .inlineData data, .operator "EI"] r := by
  intro position
  have hencode : Utf8.encode "ID" = [0x49, 0x44] := by decide +kernel
  have hkeyword : Reading.keyword (Utf8.decode [0x49, 0x44]) = .operator "ID" := by
    decide +kernel
  have hdelimits : InlineData.Delimits data [0x20] r :=
    ⟨hr, .inr ⟨0x20, rfl, by decide, hdata⟩⟩
  have hread : Reading.ofBytes ([0x49, 0x44] ++ ([0x20] ++ (data ++ ([0x20] ++
      (InlineData.mark ++ r))))) = .token (.operator "ID") [0x49, 0x44].length := by
    rw [← hkeyword]
    exact Reading.ofBytes_keyword (by decide) (List.all_eq_true.mp (by decide))
      (wordEnds_space _)
  have hbegin := next_plain (g := []) rfl hread position
  have hsep : InlineData.separator ([0x20] ++ (data ++ ([0x20] ++ (InlineData.mark ++ r)))) =
      [(0x20 : UInt8)].length := rfl
  have hdata' := next_data hsep hdelimits (position + 0 + 2)
  have hend := next_mark hdelimits (position + 0 + 2 + 1 + data.length)
  -- the three steps, the data being known to come after the first
  have hreach := Reaches.step hbegin (by simp)
    (Reaches.step hdata' (by simp) (Reaches.step hend (by simp) Reaches.refl))
  have hbytes : (Utf8.encode "ID" ++ 0x20 :: (data ++ 0x20 :: InlineData.mark)) ++ r =
      [] ++ ([0x49, 0x44] ++ ([0x20] ++ (data ++ ([0x20] ++ (InlineData.mark ++ r))))) := by
    simp [hencode]
  have hposition : position + (Utf8.encode "ID" ++ 0x20 :: (data ++ 0x20 :: InlineData.mark)).length =
      position + 0 + 2 + 1 + data.length + [(0x20 : UInt8)].length + 2 := by
    simp [hencode, InlineData.mark]
    omega
  rw [hbytes, hposition]
  exact ⟨_, hreach, rfl⟩

/-! ## Streams -/

/-- Calls with a space before each. -/
def writeSpaced (calls : List Invocation) : List UInt8 :=
  calls.flatMap fun call => 0x20 :: call.write

theorem writeInvocations_cons (call : Invocation) (calls : List Invocation) :
    Node.writeInvocations (call :: calls) = call.write ++ writeSpaced calls := by
  induction calls generalizing call with
  | nil => exact (List.append_nil _).symm
  | cons call' calls ih =>
    have hcons : Node.writeInvocations (call :: call' :: calls) =
        call.write ++ [Byte.ofChar ' '] ++ Node.writeInvocations (call' :: calls) := rfl
    rw [hcons, ih, List.append_assoc]
    rfl

theorem standsAlone_writeSpaced (calls : List Invocation) : StandsAlone (writeSpaced calls) := by
  intro b hb
  cases calls with
  | nil => exact absurd hb (by simp [writeSpaced])
  | cons call calls =>
    rw [← Option.some.inj hb]
    decide

theorem lexemes_ne_nil (call : Invocation) : call.lexemes ≠ [] :=
  List.append_ne_nil_of_right_ne_nil _ (List.cons_ne_nil _ _)

theorem yields_writeSpaced {calls : List Invocation}
    (h : Yields (Node.writeInvocations calls) (calls.flatMap lexemes) []) :
    Yields (writeSpaced calls) (calls.flatMap lexemes) [] := by
  cases calls with
  | nil => exact h
  | cons call calls =>
    have hne : (call :: calls).flatMap lexemes ≠ [] :=
      fun hnil => lexemes_ne_nil call (List.append_eq_nil_iff.mp hnil).1
    have hspaced := h.space hne
    rw [writeInvocations_cons] at hspaced
    exact hspaced

/-- Calls that can be written: image data comes after `ID` and before `EI`, and nowhere
    else. -/
inductive AreLegible : List Invocation → Prop where
  | nil : AreLegible []
  | call {call : Invocation} {calls : List Invocation}
      (hoperands : ∀ x ∈ call.operands, x.Legible) (hkeyword : Reading.IsKeyword call.keyword)
      (hid : call.keyword ≠ "ID") (hcalls : AreLegible calls) : AreLegible (call :: calls)
  | image {begin fin : Invocation} {data : List UInt8} {calls : List Invocation}
      (hoperands : ∀ x ∈ begin.operands, x.Legible) (hbegin : begin.keyword = "ID")
      (hdata : InlineData.Unterminated data) (hfin : fin.operands = [.inlineData data])
      (hend : fin.keyword = "EI") (hcalls : AreLegible calls) : AreLegible (begin :: fin :: calls)

/-- **Streams** of calls are read from what is written for them. -/
theorem yields_writeInvocations {calls : List Invocation} (h : AreLegible calls) :
    Yields (Node.writeInvocations calls) (calls.flatMap lexemes) [] := by
  induction h with
  | nil => exact yields_nil []
  | @call call calls hoperands hkeyword hid hcalls ih =>
    -- the call ends at the space before the next one, or with the stream
    have hends : WordEnds (writeSpaced calls ++ []) := by
      rw [List.append_nil]
      exact (standsAlone_writeSpaced calls).wordEnds
    have hcall := yields_call hoperands hkeyword hid hends
    rw [writeInvocations_cons, List.flatMap_cons]
    exact hcall.append (yields_writeSpaced ih)
  | @image begin fin data calls hoperands hbegin hdata hfin hend hcalls ih =>
    have halone : StandsAlone (writeSpaced calls ++ []) := by
      rw [List.append_nil]
      exact standsAlone_writeSpaced calls
    -- both calls of an image are read at once, since the data joins them
    have himage := yields_operands hoperands (yields_image hdata halone) (List.cons_ne_nil _ _)
    have hall := himage.append (yields_writeSpaced ih)
    have hmark : Utf8.encode "EI" = InlineData.mark := by decide +kernel
    have hbytes : Node.writeInvocations (begin :: fin :: calls) =
        begin.operands.flatMap (fun x => x.write ++ [Byte.ofChar ' ']) ++
          (Utf8.encode "ID" ++ 0x20 :: (data ++ 0x20 :: InlineData.mark)) ++
          writeSpaced calls := by
      rw [writeInvocations_cons]
      simp [writeSpaced, write, hbegin, hfin, hend, hmark, Operand.write,
        show Byte.ofChar ' ' = 0x20 from rfl]
    have hlexemes : (begin :: fin :: calls).flatMap lexemes =
        begin.operands.flatMap Operand.lexemes ++
          [.operator "ID", .inlineData data, .operator "EI"] ++ calls.flatMap lexemes := by
      simp [lexemes, hbegin, hfin, hend, Operand.lexemes]
    rw [hbytes, hlexemes]
    exact hall

end Invocation

end PageContent
