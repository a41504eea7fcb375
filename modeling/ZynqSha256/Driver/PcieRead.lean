import ZynqSha256.Fips.Padding
import ZynqSha256.Lib.Slices
import ZynqSha256.Driver.Pcie

/-! bench/pcie_linux_driver/hsha256.c, `sha256_read` and `sha256_llseek`. `size_t` and
`loff_t` have 64 bits on the host, which is little-endian. -/

namespace ZynqSha256.PcieDriver

open Fips180 (Byte Word)

def SEEK_SET : ℕ := 0
def SEEK_CUR : ℕ := 1
def SEEK_END : ℕ := 2

structure File where
  fPos : BitVec 64

/-- The result and the file afterwards. -/
def sha256Llseek (off : BitVec 64) (wherece : ℕ) (filp : File) : ℤ × File :=
  let newpos :=
    if wherece = SEEK_SET then some off
    else if wherece = SEEK_CUR then some (filp.fPos + off)
    else if wherece = SEEK_END then some 32
    else none
  match newpos with
  | none => (-EINVAL, filp)
  | some newpos =>
    if newpos.slt 0 || BitVec.slt 32 newpos then (-EINVAL, filp) else (newpos.toInt, ⟨newpos⟩)

/-- What a read touches of `struct sha256_dev`; `after` is the memory behind `hash_buf`. -/
structure Sha256Dev where
  hashBuf : Vector Word 8
  after : ℕ → Byte

/-- Eight words as they lie in memory. -/
def bytesOf (words : Vector Word 8) : List Byte := words.toList.flatMap Slices.leBytes

/-- `n` bytes of memory from the start of `hash_buf` on. -/
def Sha256Dev.fromHashBuf (d : Sha256Dev) (n : ℕ) : List Byte :=
  (List.range n).map fun j => if j < 32 then (bytesOf d.hashBuf).getD j 0 else d.after (j - 32)

/-- `min(count, sizeof(sha256->hash_buf) - (size_t)*pos)`. -/
def shouldCopy (count pos : BitVec 64) : BitVec 64 := if count < 32 - pos then count else 32 - pos

structure ReadResult where
  ret : ℤ
  copied : List Byte
  pos : BitVec 64
  dev : Sha256Dev

/-- `hash` is what the eight `ioread32` return, `left` how many bytes `copy_to_user`
does not copy. -/
def sha256Read (hash : Vector Word 8) (count pos : BitVec 64) (left : ℕ) (d : Sha256Dev) :
    ReadResult :=
  let n := shouldCopy count pos
  if n ≠ 0 then
    let d := { d with hashBuf := hash }
    let ret := BitVec.ofNat 32 left
    let copied := d.fromHashBuf (n.toNat - left)
    if ret ≠ 0 then ⟨ret.toInt, copied, pos, d⟩
    else ⟨n.toInt, copied, pos + n, d⟩
  else ⟨n.toInt, [], pos, d⟩

/-- A call on an open file, at the position of the file. -/
inductive FileEvent where
  | llseek (off : BitVec 64) (wherece : ℕ)
  | read (hash : Vector Word 8) (count : BitVec 64) (left : ℕ)

/-- `read` keeps the position where the driver returns an error. -/
def fileStep : FileEvent → File × Sha256Dev → Option (File × Sha256Dev)
  | .llseek off wherece, (f, d) => some ((sha256Llseek off wherece f).2, d)
  | .read hash count left, (f, d) =>
    let r := sha256Read hash count f.fPos left d
    some (if 0 ≤ r.ret then ⟨r.pos⟩ else f, r.dev)

/-- Successive `read` calls on one open file, into buffers that can be written: all the
bytes they return, and the file afterwards. -/
def reads (hash : Vector Word 8) : List (BitVec 64) → File → Sha256Dev → List Byte × File
  | [], f, _ => ([], f)
  | count :: counts, f, d =>
    let r := sha256Read hash count f.fPos 0 d
    let (bytes, f') := reads hash counts ⟨r.pos⟩ r.dev
    (r.copied ++ bytes, f')

end ZynqSha256.PcieDriver
