/-! Characters in UTF-8. -/
namespace GraphQL.Text

/-- Whether the byte continues a character. -/
def isContinuation (b : UInt8) : Bool := 0x80 ≤ b && b < 0xc0

/-- The low six bits of a byte that continues a character. -/
def payload (b : UInt8) : Nat := b.toNat % 0x40

/-- The character at the head of the bytes, and the bytes behind it. Overlong forms, surrogates and
numbers above the last character are refused. -/
def decodeChar? : List UInt8 → Option (Char × List UInt8)
  | [] => none
  | a :: rest =>
    if a < 0x80 then some (Char.ofNat a.toNat, rest)
    else if 0xc2 ≤ a && a < 0xe0 then
      match rest with
      | b :: rest =>
        if isContinuation b then some (Char.ofNat (a.toNat % 0x20 * 0x40 + payload b), rest)
        else none
      | [] => none
    else if 0xe0 ≤ a && a < 0xf0 then
      match rest with
      | b :: c :: rest =>
        let n := (a.toNat % 0x10 * 0x40 + payload b) * 0x40 + payload c
        if isContinuation b && isContinuation c && 0x800 ≤ n && !(0xd800 ≤ n && n < 0xe000) then
          some (Char.ofNat n, rest)
        else none
      | _ => none
    else if 0xf0 ≤ a && a < 0xf5 then
      match rest with
      | b :: c :: d :: rest =>
        let n := ((a.toNat % 0x08 * 0x40 + payload b) * 0x40 + payload c) * 0x40 + payload d
        if isContinuation b && isContinuation c && isContinuation d && 0x10000 ≤ n &&
            n < 0x110000 then
          some (Char.ofNat n, rest)
        else none
      | _ => none
    else none

/-- The characters of at most `rounds` decoded at the head of the bytes, and the bytes left. -/
def decodeWithin : (rounds : Nat) → List UInt8 → List Char × List UInt8
  | 0, bytes => ([], bytes)
  | rounds + 1, bytes =>
    match decodeChar? bytes with
    | none => ([], bytes)
    | some (c, rest) =>
      let (text, rest) := decodeWithin rounds rest
      (c :: text, rest)

/-- The longest well encoded text at the head of the bytes, and the bytes behind it. -/
def decodeUtf8 (bytes : List UInt8) : List Char × List UInt8 :=
  decodeWithin bytes.length bytes

end GraphQL.Text
