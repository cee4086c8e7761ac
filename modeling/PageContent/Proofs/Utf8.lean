import PageContent.Text.Utf8

/-! # UTF-8, there and back

    Text that is encoded is decoded to the same text.

    * **Leads**: what the first byte of a sequence announces. The bounds for the
      second byte keep the value within the scalar values.
    * **One character**: the bytes of a character are decoded to it, whatever
      bytes come after them.
    * **Lossy decoding** makes no ASCII character out of other bytes, so text that
      was decoded is encoded with the ASCII bytes that were there.
-/

namespace PageContent

namespace Utf8

/-! ## Leads -/

/-- What a lead announces keeps to the scalar values: one case for each number of
    bytes that follow. -/
def Lead.Sound (l : Lead) (payload : Nat) : Prop :=
  (l.following = 1 ∧ 2 ≤ payload ∧ payload < 32) ∨
  (l.following = 2 ∧ payload < 16 ∧ (payload ≠ 0 ∨ 0xA0 ≤ l.low.toNat) ∧
    (payload ≠ 13 ∨ l.high.toNat ≤ 0x9F) ∧ 0x80 ≤ l.low.toNat ∧ l.high.toNat ≤ 0xBF) ∨
  (l.following = 3 ∧ payload < 5 ∧ (payload ≠ 0 ∨ 0x90 ≤ l.low.toNat) ∧
    (payload ≠ 4 ∨ l.high.toNat ≤ 0x8F) ∧ 0x80 ≤ l.low.toNat ∧ l.high.toNat ≤ 0xBF)

instance (l : Lead) (payload : Nat) : Decidable (l.Sound payload) := by
  unfold Lead.Sound
  infer_instance

theorem sound_of_lead? {b : UInt8} {l : Lead} (h : lead? b = some l) :
    l.Sound (leadPayload l.following b) := by
  have hall : ∀ b, ((lead? b).all fun l => decide (l.Sound (leadPayload l.following b))) = true :=
    Byte.forall_of_fin (by decide +kernel)
  have hb := hall b
  rw [h] at hb
  exact of_decide_eq_true hb

theorem lead?_two {k : Nat} (hlow : 2 ≤ k) (hhigh : k < 32) :
    lead? (0xC0 + k).toUInt8 = some ⟨1, 0x80, 0xBF⟩ ∧ leadPayload 1 (0xC0 + k).toUInt8 = k := by
  have hall : ∀ n : Fin 32, 2 ≤ n.val →
      lead? (0xC0 + n.val).toUInt8 = some ⟨1, 0x80, 0xBF⟩ ∧
        leadPayload 1 (0xC0 + n.val).toUInt8 = n := by
    decide +kernel
  exact hall ⟨k, hhigh⟩ hlow

theorem lead?_three {k : Nat} (h : k < 16) :
    lead? (0xE0 + k).toUInt8 =
      some ⟨2, if k = 0 then 0xA0 else 0x80, if k = 13 then 0x9F else 0xBF⟩ ∧
        leadPayload 2 (0xE0 + k).toUInt8 = k := by
  have hall : ∀ n : Fin 16, lead? (0xE0 + n.val).toUInt8 =
      some ⟨2, if n.val = 0 then 0xA0 else 0x80, if n.val = 13 then 0x9F else 0xBF⟩ ∧
        leadPayload 2 (0xE0 + n.val).toUInt8 = n := by
    decide +kernel
  exact hall ⟨k, h⟩

theorem lead?_four {k : Nat} (h : k < 5) :
    lead? (0xF0 + k).toUInt8 =
      some ⟨3, if k = 0 then 0x90 else 0x80, if k = 4 then 0x8F else 0xBF⟩ ∧
        leadPayload 3 (0xF0 + k).toUInt8 = k := by
  have hall : ∀ n : Fin 5, lead? (0xF0 + n.val).toUInt8 =
      some ⟨3, if n.val = 0 then 0x90 else 0x80, if n.val = 4 then 0x8F else 0xBF⟩ ∧
        leadPayload 3 (0xF0 + n.val).toUInt8 = n := by
    decide +kernel
  exact hall ⟨k, h⟩

/-- The bytes after the lead carry six bits each. -/
theorem toNat_continuation {k : Nat} (h : k < 64) : (0x80 + k).toUInt8.toNat = 0x80 + k :=
  UInt8.toNat_ofNat_of_lt' (by simp [UInt8.size]; omega)

theorem continuation_between {k : Nat} (h : k < 64) {low high : UInt8}
    (hlow : low.toNat ≤ 0x80 + k) (hhigh : 0x80 + k ≤ high.toNat) :
    low ≤ (0x80 + k).toUInt8 ∧ (0x80 + k).toUInt8 ≤ high := by
  rw [UInt8.le_iff_toNat_le, UInt8.le_iff_toNat_le, toNat_continuation h]
  exact ⟨hlow, hhigh⟩

theorem isContinuation_add {k : Nat} (h : k < 64) : isContinuation (0x80 + k).toUInt8 = true := by
  have hlow : (0x80 : UInt8).toNat ≤ 0x80 + k := Nat.le_add_right _ _
  have hhigh : 0x80 + k ≤ (0xBF : UInt8).toNat := by
    show 0x80 + k ≤ 0xBF
    omega
  unfold isContinuation
  rw [Bool.and_eq_true, decide_eq_true_eq, decide_eq_true_eq]
  exact continuation_between h hlow hhigh

theorem extend_add {k : Nat} (h : k < 64) (n : Nat) : extend n (0x80 + k).toUInt8 = n * 64 + k := by
  unfold extend
  rw [toNat_continuation h]
  omega

/-! ## One character -/

theorem not_lt_of_lead? {b : UInt8} {l : Lead} (h : lead? b = some l) : ¬ b < 0x80 := by
  have hall : ∀ b, (lead? b).isSome = true → ¬ b < 0x80 := Byte.forall_of_fin (by decide +kernel)
  exact hall b (Option.isSome_of_eq_some h)

/-- A complete sequence is one character. -/
theorem firstChar_of_lead? {b c : UInt8} {l : Lead} (hl : lead? b = some l)
    (hc : l.low ≤ c ∧ c ≤ l.high) (tail : List UInt8)
    (htail : ∀ x ∈ tail, isContinuation x = true) (hlength : tail.length = l.following - 1)
    (rest : List UInt8) :
    firstChar b (c :: (tail ++ rest)) =
      (Char.ofNat (tail.foldl extend (extend (leadPayload l.following b) c)), l.following) := by
  have htake : ((tail ++ rest).take (l.following - 1)).takeWhile isContinuation = tail := by
    rw [← hlength, List.take_left]
    have hall : (tail ++ []).takeWhile isContinuation = tail ++ [].takeWhile isContinuation :=
      List.takeWhile_append_of_pos htail
    rwa [List.append_nil, List.takeWhile_nil, List.append_nil] at hall
  unfold firstChar
  rw [if_neg (not_lt_of_lead? hl)]
  simp only [hl, if_pos hc, htake, if_pos hlength]

theorem decodeChars_of_firstChar {b : UInt8} (cs : List UInt8) {rest : List UInt8} {c : Char}
    (h : firstChar b (cs ++ rest) = (c, cs.length)) :
    decodeChars (b :: (cs ++ rest)) = c :: decodeChars rest := by
  rw [decodeChars, h]
  simp

variable {n : Nat}

theorem decodeChars_one (h : n < 0x80) (rest : List UInt8) :
    decodeChars ([n.toUInt8] ++ rest) = Char.ofNat n :: decodeChars rest := by
  have hb : n.toUInt8.toNat = n := UInt8.toNat_ofNat_of_lt' (by simp [UInt8.size]; omega)
  have hascii : n.toUInt8 < 0x80 := by
    rw [UInt8.lt_iff_toNat_lt, hb]
    exact h
  apply decodeChars_of_firstChar []
  unfold firstChar
  rw [if_pos hascii, Byte.toChar, hb]
  rfl

theorem decodeChars_two (hlow : 0x80 ≤ n) (hhigh : n < 0x800) (rest : List UInt8) :
    decodeChars ([(0xC0 + n / 64).toUInt8, (0x80 + n % 64).toUInt8] ++ rest) =
      Char.ofNat n :: decodeChars rest := by
  obtain ⟨hl, hpayload⟩ := lead?_two (k := n / 64) (by omega) (by omega)
  have hk : n % 64 < 64 := by omega
  have hbounds : (0x80 : UInt8) ≤ (0x80 + n % 64).toUInt8 ∧
      (0x80 + n % 64).toUInt8 ≤ (0xBF : UInt8) := by
    apply continuation_between hk
    · show 0x80 ≤ 0x80 + n % 64
      omega
    · show 0x80 + n % 64 ≤ 0xBF
      omega
  have hvalue : n / 64 * 64 + n % 64 = n := by omega
  have hfirst := firstChar_of_lead? hl hbounds [] (by simp) rfl rest
  rw [hpayload, extend_add hk, List.foldl_nil, hvalue] at hfirst
  exact decodeChars_of_firstChar [_] hfirst

/-- The bounds of the second byte keep to characters that need three bytes and are no
    surrogates. -/
theorem decodeChars_three (hlow : 0x800 ≤ n) (hhigh : n < 0x10000)
    (hsurrogate : n < 0xD800 ∨ 0xDFFF < n) (rest : List UInt8) :
    decodeChars ([(0xE0 + n / 4096).toUInt8, (0x80 + n / 64 % 64).toUInt8,
      (0x80 + n % 64).toUInt8] ++ rest) = Char.ofNat n :: decodeChars rest := by
  obtain ⟨hl, hpayload⟩ := lead?_three (k := n / 4096) (by omega)
  have hj : n / 64 % 64 < 64 := by omega
  have hk : n % 64 < 64 := by omega
  have hbounds : (if n / 4096 = 0 then (0xA0 : UInt8) else 0x80) ≤ (0x80 + n / 64 % 64).toUInt8 ∧
      (0x80 + n / 64 % 64).toUInt8 ≤ (if n / 4096 = 13 then (0x9F : UInt8) else 0xBF) := by
    apply continuation_between hj
    · split
      · show 0xA0 ≤ 0x80 + n / 64 % 64
        omega
      · show 0x80 ≤ 0x80 + n / 64 % 64
        omega
    · split
      · show 0x80 + n / 64 % 64 ≤ 0x9F
        omega
      · show 0x80 + n / 64 % 64 ≤ 0xBF
        omega
  have hvalue : (n / 4096 * 64 + n / 64 % 64) * 64 + n % 64 = n := by omega
  have hfirst := firstChar_of_lead? hl hbounds [(0x80 + n % 64).toUInt8]
    (List.forall_mem_singleton.mpr (isContinuation_add hk)) rfl rest
  rw [hpayload, extend_add hj, List.foldl_cons, List.foldl_nil, extend_add hk, hvalue] at hfirst
  exact decodeChars_of_firstChar [_, _] hfirst

theorem decodeChars_four (hlow : 0x10000 ≤ n) (hhigh : n < 0x110000) (rest : List UInt8) :
    decodeChars ([(0xF0 + n / 262144).toUInt8, (0x80 + n / 4096 % 64).toUInt8,
      (0x80 + n / 64 % 64).toUInt8, (0x80 + n % 64).toUInt8] ++ rest) =
      Char.ofNat n :: decodeChars rest := by
  obtain ⟨hl, hpayload⟩ := lead?_four (k := n / 262144) (by omega)
  have hi : n / 4096 % 64 < 64 := by omega
  have hj : n / 64 % 64 < 64 := by omega
  have hk : n % 64 < 64 := by omega
  have hbounds : (if n / 262144 = 0 then (0x90 : UInt8) else 0x80) ≤
      (0x80 + n / 4096 % 64).toUInt8 ∧
      (0x80 + n / 4096 % 64).toUInt8 ≤ (if n / 262144 = 4 then (0x8F : UInt8) else 0xBF) := by
    apply continuation_between hi
    · split
      · show 0x90 ≤ 0x80 + n / 4096 % 64
        omega
      · show 0x80 ≤ 0x80 + n / 4096 % 64
        omega
    · split
      · show 0x80 + n / 4096 % 64 ≤ 0x8F
        omega
      · show 0x80 + n / 4096 % 64 ≤ 0xBF
        omega
  have hvalue : ((n / 262144 * 64 + n / 4096 % 64) * 64 + n / 64 % 64) * 64 + n % 64 = n := by
    omega
  have hfirst := firstChar_of_lead? hl hbounds
    [(0x80 + n / 64 % 64).toUInt8, (0x80 + n % 64).toUInt8]
    (List.forall_mem_cons.mpr ⟨isContinuation_add hj,
      List.forall_mem_singleton.mpr (isContinuation_add hk)⟩) rfl rest
  rw [hpayload, extend_add hi, List.foldl_cons, extend_add hj, List.foldl_cons, List.foldl_nil,
    extend_add hk, hvalue] at hfirst
  exact decodeChars_of_firstChar [_, _, _] hfirst

/-- The bytes of a character are decoded to it. -/
theorem decodeChars_encodeChar (c : Char) (rest : List UInt8) :
    decodeChars (encodeChar c ++ rest) = c :: decodeChars rest := by
  have hvalid : c.toNat < 0xD800 ∨ 0xDFFF < c.toNat ∧ c.toNat < 0x110000 := c.valid
  have hc : Char.ofNat c.toNat = c := Char.ofNat_toNat c
  -- the number of the character decides how many bytes it takes
  generalize hn : c.toNat = n at hvalid hc
  rw [← hc]
  unfold encodeChar
  simp only [hc, hn]
  by_cases h1 : n < 0x80
  · rw [if_pos h1]
    exact hc ▸ decodeChars_one h1 rest
  by_cases h2 : n < 0x800
  · rw [if_neg h1, if_pos h2]
    exact hc ▸ decodeChars_two (by omega) h2 rest
  by_cases h3 : n < 0x10000
  · rw [if_neg h1, if_neg h2, if_pos h3]
    exact hc ▸ decodeChars_three (by omega) h3 (by omega) rest
  · rw [if_neg h1, if_neg h2, if_neg h3]
    exact hc ▸ decodeChars_four (by omega) (by omega) rest

theorem decodeChars_flatMap_encodeChar (cs : List Char) :
    decodeChars (cs.flatMap encodeChar) = cs := by
  induction cs with
  | nil => rw [List.flatMap_nil, decodeChars]
  | cons c cs ih => rw [List.flatMap_cons, decodeChars_encodeChar, ih]

/-- **There and back**: text that is encoded is decoded to the same text. -/
theorem decode_encode (s : String) : decode (encode s) = s := by
  unfold decode encode
  rw [decodeChars_flatMap_encodeChar, String.ofList_toList]

theorem encode_append (s t : String) : encode (s ++ t) = encode s ++ encode t := by
  unfold encode
  rw [String.toList_append, List.flatMap_append]

theorem encode_join (ss : List String) : encode (String.join ss) = ss.flatMap encode := by
  unfold encode
  rw [String.toList_join, List.flatMap_assoc]

/-! ## ASCII -/

theorem encodeChar_ascii {c : Char} (h : c.toNat < 0x80) : encodeChar c = [Byte.ofChar c] := by
  unfold encodeChar
  exact if_pos h

/-- ASCII text has one byte for each character. -/
theorem encode_ofList {cs : List Char} (h : ∀ c ∈ cs, c.toNat < 0x80) :
    encode (String.ofList cs) = Byte.ofChars cs := by
  unfold encode
  rw [String.toList_ofList]
  induction cs with
  | nil => rfl
  | cons c cs ih =>
    rw [List.flatMap_cons, encodeChar_ascii (h c List.mem_cons_self),
      ih fun d hd => h d (List.mem_cons_of_mem c hd)]
    rfl

/-- ASCII bytes are their own encoding. -/
theorem encode_latin1 {bytes : List UInt8} (h : ∀ b ∈ bytes, b < 0x80) :
    encode (Byte.latin1 bytes) = bytes := by
  have hascii : ∀ c ∈ bytes.map Byte.toChar, c.toNat < 0x80 := by
    intro c hc
    obtain ⟨b, hb, rfl⟩ := List.mem_map.mp hc
    rw [Byte.toNat_toChar]
    exact UInt8.lt_iff_toNat_lt.mp (h b hb)
  have hbytes := Byte.ofChars_latin1 bytes
  rw [Byte.latin1, String.toList_ofList] at hbytes
  rw [Byte.latin1, encode_ofList hascii, hbytes]

theorem toNat_ofNat {n : Nat} (h : n.isValidChar) : (Char.ofNat n).toNat = n := by
  rw [Char.ofNat, dif_pos h]
  rfl

/-- A sequence within its bounds is a scalar value beyond ASCII. -/
theorem not_ascii_of_sound {l : Lead} {p : Nat} (h : l.Sound p) {c : UInt8}
    (hc : l.low ≤ c ∧ c ≤ l.high) {tail : List UInt8} (hlength : tail.length = l.following - 1) :
    0x80 ≤ (Char.ofNat (tail.foldl extend (extend p c))).toNat := by
  obtain ⟨hlow, hhigh⟩ := hc
  rw [UInt8.le_iff_toNat_le] at hlow hhigh
  have hvalid : (tail.foldl extend (extend p c)).isValidChar ∧
      0x80 ≤ tail.foldl extend (extend p c) := by
    unfold Nat.isValidChar
    -- one case for each number of bytes that follow the lead
    rcases h with ⟨hfollowing, h⟩ | ⟨hfollowing, h⟩ | ⟨hfollowing, h⟩
    · rw [hfollowing] at hlength
      match tail, hlength with
      | [], _ =>
        simp only [List.foldl_nil, extend]
        omega
    · rw [hfollowing] at hlength
      match tail, hlength with
      | [d], _ =>
        simp only [List.foldl_cons, List.foldl_nil, extend]
        omega
    · rw [hfollowing] at hlength
      match tail, hlength with
      | [d, e], _ =>
        simp only [List.foldl_cons, List.foldl_nil, extend]
        omega
  rw [toNat_ofNat hvalid.1]
  exact hvalid.2

/-- Lossy decoding makes no ASCII character out of other bytes. -/
theorem firstChar_not_ascii {b : UInt8} (hb : ¬ b < 0x80) (rest : List UInt8) :
    0x80 ≤ (firstChar b rest).1.toNat := by
  have hreplacement : 0x80 ≤ replacement.toNat := by decide
  unfold firstChar
  rw [if_neg hb]
  split
  · next l c rest' hl =>
    split
    · next hbounds =>
      dsimp only
      split
      · next hlength => exact not_ascii_of_sound (sound_of_lead? hl) hbounds hlength
      · exact hreplacement
    · exact hreplacement
  · exact hreplacement

theorem not_lt_toUInt8 {m : Nat} (hlow : 0x80 ≤ m) (hhigh : m < 256) : ¬ m.toUInt8 < 0x80 := by
  have hm : m.toUInt8.toNat = m := UInt8.toNat_ofNat_of_lt' hhigh
  rw [UInt8.lt_iff_toNat_lt, hm]
  show ¬ m < 0x80
  omega

/-- A character beyond ASCII has no ASCII bytes. -/
theorem encodeChar_not_ascii {c : Char} (h : 0x80 ≤ c.toNat) :
    ∀ x ∈ encodeChar c, ¬ x < 0x80 := by
  have hvalid : c.toNat < 0xD800 ∨ 0xDFFF < c.toNat ∧ c.toNat < 0x110000 := c.valid
  intro x hx
  unfold encodeChar at hx
  simp only at hx
  rw [if_neg (by omega)] at hx
  by_cases h2 : c.toNat < 0x800
  · rw [if_pos h2] at hx
    simp only [List.mem_cons, List.not_mem_nil, or_false] at hx
    rcases hx with rfl | rfl <;> exact not_lt_toUInt8 (by omega) (by omega)
  by_cases h3 : c.toNat < 0x10000
  · rw [if_neg h2, if_pos h3] at hx
    simp only [List.mem_cons, List.not_mem_nil, or_false] at hx
    rcases hx with rfl | rfl | rfl <;> exact not_lt_toUInt8 (by omega) (by omega)
  · rw [if_neg h2, if_neg h3] at hx
    simp only [List.mem_cons, List.not_mem_nil, or_false] at hx
    rcases hx with rfl | rfl | rfl | rfl <;> exact not_lt_toUInt8 (by omega) (by omega)

theorem encodeChar_ne_nil (c : Char) : encodeChar c ≠ [] := by
  unfold encodeChar
  simp only
  split
  · simp
  split
  · simp
  split <;> simp

/-- The bytes of the first character that is decoded: an ASCII byte is kept. -/
theorem mem_encodeChar_firstChar {b : UInt8} {rest : List UInt8} :
    ∀ x ∈ encodeChar (firstChar b rest).1, x = b ∨ ¬ x < 0x80 := by
  intro x hx
  by_cases hb : b < 0x80
  · have hfirst : (firstChar b rest).1 = Byte.toChar b := by
      unfold firstChar
      rw [if_pos hb]
    have hascii : (Byte.toChar b).toNat < 0x80 := by
      rw [Byte.toNat_toChar]
      exact UInt8.lt_iff_toNat_lt.mp hb
    rw [hfirst, encodeChar_ascii hascii, Byte.ofChar_toChar] at hx
    exact .inl (List.mem_singleton.mp hx)
  · -- a character that was made of other bytes has no ASCII byte either
    exact .inr (encodeChar_not_ascii (firstChar_not_ascii hb rest) x hx)

/-- Every byte that comes from decoding and encoding was there, or is not ASCII. -/
theorem mem_encode_decode {bytes : List UInt8} :
    ∀ x ∈ encode (decode bytes), x ∈ bytes ∨ ¬ x < 0x80 := by
  unfold encode decode
  rw [String.toList_ofList]
  fun_induction decodeChars bytes with
  | case1 => simp
  | case2 b rest ih =>
    intro x hx
    rw [List.flatMap_cons] at hx
    -- a byte comes from the first character or from the others
    rcases List.mem_append.mp hx with hfirst | hothers
    · rcases mem_encodeChar_firstChar x hfirst with rfl | hx
      · exact .inl List.mem_cons_self
      · exact .inr hx
    · rcases ih x hothers with hx | hx
      · exact .inl (List.mem_cons_of_mem b (List.mem_of_mem_drop hx))
      · exact .inr hx

/-- The first byte stays the first if it is ASCII. -/
theorem exists_head_encode_decode (b : UInt8) (rest : List UInt8) :
    ∃ x xs, encode (decode (b :: rest)) = x :: xs ∧ (x = b ∨ ¬ x < 0x80) := by
  unfold encode decode
  rw [String.toList_ofList, decodeChars, List.flatMap_cons]
  have hmem := @mem_encodeChar_firstChar b rest
  obtain ⟨x, xs, hx⟩ := List.exists_cons_of_ne_nil (encodeChar_ne_nil (firstChar b rest).1)
  rw [hx] at hmem ⊢
  exact ⟨x, _, rfl, hmem x List.mem_cons_self⟩

end Utf8

end PageContent
