import ZynqSha256.Driver.MakeChunk

/-! bench/test_driver/src/main.rs, `as_hex` and `main`: a file is hashed in software and by the
device, and both digests are printed. The times are left out, with the panic of
`elapsed().unwrap()` where the clock is set back. -/

namespace ZynqSha256.TestDriver

open Fips180 (Byte)

/-- `{:02x}`. -/
def hexByte (b : Byte) : List Char := [Nat.digitChar (b.toNat / 16), Nat.digitChar (b.toNat % 16)]

/-- The loop of `as_hex` from byte `i` on. -/
def asHexFrom : ℕ → List Byte → List Char
  | _, [] => []
  | i, b :: bytes =>
    (if 0 < i ∧ i % 32 = 0 then ['\n'] else []) ++ hexByte b ++ asHexFrom (i + 1) bytes

def asHex (bytes : List Byte) : List Char := asHexFrom 0 bytes

/-- `/dev/sha256`: what `write` returns, and `read` with the bytes it fills in. -/
structure Sha256Dev where
  write : List Byte → ℤ
  read : ℕ → ℤ × List Byte

/-- The digests printed. -/
structure Output where
  software : List Char
  hardware : List Char

/-- `main` on the contents of its own file, `sha2` being the crate's hash; `none` where it
panics. -/
def main (mode : Overflow) (sha2 : List Byte → List Byte) (sha256Dev : Sha256Dev)
    (buffer : List Byte) : Option Output := do
  let software := asHex (sha2 buffer)
  let buffer ← makeChunk mode buffer
  if sha256Dev.write buffer < 0 then none
  else
    let (ret, bytes) := sha256Dev.read 32
    if ret < 0 then none
    else
      let result := bytes ++ List.replicate (32 - bytes.length) 0
      some ⟨software, asHex result⟩

end ZynqSha256.TestDriver
