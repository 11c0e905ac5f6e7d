import Mathlib.Data.List.Basic

/-!
# The standard base64 encoding: `base64.StdEncoding`

`FullNode.GetGenesisChunks` hands out the JSON genesis document as
`base64.StdEncoding.EncodeToString` of each chunk. This module models the standard encoding
of RFC 4648 with `=` padding after the Go standard library. `encode` follows
`Encoding.Encode`: three bytes become four characters of the alphabet `encodeStd`, and a last
group of one or two bytes is padded with `=`. `decode` follows `Encoding.DecodeString`
quantum by quantum, where `decodeMap` is `decodeChar`. Go's decoder also skips `\r` and `\n`,
which the encoder never writes; an input holding them is out of the model, and an error is
`none`. The main result is the round trip `decodeString_encodeToString`.
-/

namespace Rollmint.Base64

/-- `encodeStd`, the alphabet of the standard encoding. -/
def encodeStd : List Char :=
  "ABCDEFGHIJKLMNOPQRSTUVWXYZabcdefghijklmnopqrstuvwxyz0123456789+/".toList

/-- `enc.encode[i]` for a six-bit value `i`. -/
def encodeChar (i : Nat) : Char := encodeStd.getD i 'A'

/-- `enc.decodeMap[c]`: the position of `c` in the alphabet, and `none` for the `0xFF` of a
character outside it. -/
def decodeChar (c : Char) : Option Nat :=
  if encodeStd.indexOf c < 64 then some (encodeStd.indexOf c) else none

/-- `Encoding.Encode` with `StdPadding`. For a group value `val < 2^24`, `val >> k & 0x3F` is
`val / 2^k % 64`. -/
def encode : List UInt8 → List Char
  | b0 :: b1 :: b2 :: rest =>
    let val := b0.toNat * 65536 + b1.toNat * 256 + b2.toNat
    encodeChar (val / 262144 % 64) :: encodeChar (val / 4096 % 64) ::
      encodeChar (val / 64 % 64) :: encodeChar (val % 64) :: encode rest
  | [b0, b1] =>
    let val := b0.toNat * 65536 + b1.toNat * 256
    [encodeChar (val / 262144 % 64), encodeChar (val / 4096 % 64), encodeChar (val / 64 % 64),
      '=']
  | [b0] =>
    let val := b0.toNat * 65536
    [encodeChar (val / 262144 % 64), encodeChar (val / 4096 % 64), '=', '=']
  | [] => []

/-- `StdEncoding.EncodeToString`. -/
def encodeToString (src : List UInt8) : String := ⟨encode src⟩

/-- `Encoding.Decode`, one quantum of four characters at a time, as `decodeQuantum` reads it:
the first two characters must be in the alphabet, a third `=` must be followed by a fourth
and the end of the input, and a fourth `=` by the end of the input. `byte(val >> k)` is
`UInt8.ofNat (val / 2^k)`. -/
def decode : List Char → Option (List UInt8)
  | [] => some []
  | c0 :: c1 :: c2 :: c3 :: rest => do
    let a ← decodeChar c0
    let b ← decodeChar c1
    match decodeChar c2, decodeChar c3 with
    | some c, some d =>
      let val := a * 262144 + b * 4096 + c * 64 + d
      let bytes ← decode rest
      pure ([UInt8.ofNat (val / 65536), UInt8.ofNat (val / 256), UInt8.ofNat val] ++ bytes)
    | some c, none =>
      if c3 = '=' ∧ rest = [] then
        let val := a * 262144 + b * 4096 + c * 64
        pure [UInt8.ofNat (val / 65536), UInt8.ofNat (val / 256)]
      else none
    | none, _ =>
      if c2 = '=' ∧ c3 = '=' ∧ rest = [] then
        let val := a * 262144 + b * 4096
        pure [UInt8.ofNat (val / 65536)]
      else none
  | _ => none

/-- `StdEncoding.DecodeString`; on an error Go also returns the bytes decoded before it,
which the model drops. -/
def decodeString (s : String) : Option (List UInt8) := decode s.toList

example : encodeToString [77, 97, 110, 77] = "TWFuTQ==" := rfl

/-! ## The round trip -/

theorem decodeChar_encodeChar {i : Nat} (h : i < 64) : decodeChar (encodeChar i) = some i :=
  (by decide : ∀ i : Fin 64, decodeChar (encodeChar i) = some i) ⟨i, h⟩

theorem uint8_ofNat_eq {b : UInt8} {n : Nat} (h : n % 256 = b.toNat) : UInt8.ofNat n = b :=
  UInt8.eq_of_val_eq (Fin.ext (by simpa [UInt8.ofNat, Fin.ofNat] using h))

theorem sextets_eq (val : Nat) (h : val < 16777216) :
    val / 262144 % 64 * 262144 + val / 4096 % 64 * 4096 + val / 64 % 64 * 64 + val % 64 = val := by
  omega

theorem decode_encode : ∀ src : List UInt8, decode (encode src) = some src
  | b0 :: b1 :: b2 :: rest => by
    have h0 : b0.toNat < 256 := b0.toNat_lt_size
    have h1 : b1.toNat < 256 := b1.toNat_lt_size
    have h2 : b2.toNat < 256 := b2.toNat_lt_size
    simp only [encode, decode, decodeChar_encodeChar (Nat.mod_lt _ (by decide : 0 < 64)),
      decode_encode rest, Option.bind_eq_bind, Option.some_bind, Option.pure_def,
      sextets_eq _ (by omega : b0.toNat * 65536 + b1.toNat * 256 + b2.toNat < 16777216),
      List.cons_append, List.nil_append, Option.some.injEq, List.cons.injEq, and_true]
    exact ⟨uint8_ofNat_eq (by omega), uint8_ofNat_eq (by omega), uint8_ofNat_eq (by omega)⟩
  | [b0, b1] => by
    have h0 : b0.toNat < 256 := b0.toNat_lt_size
    have h1 : b1.toNat < 256 := b1.toNat_lt_size
    have hval : (b0.toNat * 65536 + b1.toNat * 256) / 262144 % 64 * 262144 +
        (b0.toNat * 65536 + b1.toNat * 256) / 4096 % 64 * 4096 +
        (b0.toNat * 65536 + b1.toNat * 256) / 64 % 64 * 64 = b0.toNat * 65536 + b1.toNat * 256 := by
      omega
    simp only [encode, decode, decodeChar_encodeChar (Nat.mod_lt _ (by decide : 0 < 64)),
      (by decide : decodeChar '=' = none), Option.bind_eq_bind, Option.some_bind,
      Option.pure_def, hval, and_self, if_true, Option.some.injEq, List.cons.injEq, and_true]
    exact ⟨uint8_ofNat_eq (by omega), uint8_ofNat_eq (by omega)⟩
  | [b0] => by
    have h0 : b0.toNat < 256 := b0.toNat_lt_size
    have hval : b0.toNat * 65536 / 262144 % 64 * 262144 + b0.toNat * 65536 / 4096 % 64 * 4096 =
        b0.toNat * 65536 := by
      omega
    simp only [encode, decode, decodeChar_encodeChar (Nat.mod_lt _ (by decide : 0 < 64)),
      (by decide : decodeChar '=' = none), Option.bind_eq_bind, Option.some_bind,
      Option.pure_def, hval, and_self, if_true, Option.some.injEq, List.cons.injEq, and_true]
    exact uint8_ofNat_eq (by omega)
  | [] => rfl

/-- `DecodeString` reads back what `EncodeToString` wrote. -/
theorem decodeString_encodeToString (src : List UInt8) :
    decodeString (encodeToString src) = some src :=
  decode_encode src

end Rollmint.Base64
