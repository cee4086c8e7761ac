import PageContent.Text.Utf8

/-! # Names

    A name is a run of regular bytes after a slash. A `#` with two hexadecimal
    digits stands for the byte of that number, and the bytes that result are
    read as UTF-8.
-/

namespace PageContent

namespace Name

/-- The byte that two hexadecimal digits at the front spell. -/
def hexPair? : List UInt8 → Option UInt8
  | high :: low :: _ =>
    match Byte.hexValue? high, Byte.hexValue? low with
    | some h, some l => some (16 * h + l).toUInt8
    | _, _ => none
  | _ => none

/-- Resolve the escapes of a name. The failure is the offset of the first `#`
    that begins no escape. -/
def unescape : List UInt8 → Except Nat (List UInt8)
  | [] => .ok []
  | b :: rest =>
    if b = Byte.ofChar '#' then
      match hexPair? rest with
      | none => .error 0
      | some escaped =>
        match unescape (rest.drop 2) with
        | .ok decoded => .ok (escaped :: decoded)
        | .error offset => .error (offset + 3)
    else
      match unescape rest with
      | .ok decoded => .ok (b :: decoded)
      | .error offset => .error (offset + 1)
termination_by bytes => bytes.length

/-- The bytes that stand for themselves when a name is written. -/
def isPlain (b : UInt8) : Bool :=
  Byte.isPrintable b && Byte.isRegular b && b != Byte.ofChar '#'

/-- One byte of a name as it is written. -/
def escape (b : UInt8) : List UInt8 :=
  if isPlain b then [b] else Byte.ofChar '#' :: Byte.ofChars (Byte.hex b)

/-- A name as it is written, slash included. -/
def write (text : String) : List UInt8 :=
  Byte.ofChar '/' :: (Utf8.encode text).flatMap escape

end Name

end PageContent
