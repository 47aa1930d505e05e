import NetPlan.Text.Quoted

/-!
# Hash — FNV-1a over bytes

`fnv1a` folds a byte string into 64 bits; `digest` writes the result as sixteen hexadecimal digits.
-/

namespace NetPlan.Hash

/-- One step: mix a byte in, then multiply by the prime, modulo `2 ^ 64`. -/
def step (hash : UInt64) (byte : UInt8) : UInt64 :=
  (hash ^^^ byte.toUInt64) * 0x100000001b3

/-- FNV-1a of a byte string. -/
def fnv1a (bytes : List UInt8) : UInt64 :=
  bytes.foldl step 0xcbf29ce484222325

/-- Sixteen hexadecimal digits of a hash. -/
def digest (hash : UInt64) : String := Text.hexPadded 16 hash.toNat

/-- Bytes of a text. -/
def utf8 (s : String) : List UInt8 := s.toUTF8.toList

end NetPlan.Hash
