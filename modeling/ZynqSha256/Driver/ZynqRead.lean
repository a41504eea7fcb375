import ZynqSha256.Driver.Zynq
import ZynqSha256.Driver.PcieRead

/-! bench/zynq_linux_driver/hsha256_ops.c, `sha256_read` and `sha256_llseek`. A file position
is never negative: the kernel passes none that is. -/

namespace ZynqSha256.ZynqDriver

open Fips180 (Byte Word)
open PcieDriver (SEEK_SET SEEK_CUR SEEK_END EINVAL bytesOf)

def EAGAIN : ℤ := 11
def EFAULT : ℤ := 14
def ERESTARTSYS : ℤ := 512

structure File where
  /-- `O_NONBLOCK`. -/
  nonblock : Bool
  fPos : ℕ

/-- The result and the file afterwards. -/
def sha256Llseek (off : ℤ) (wherece : ℕ) (filp : File) : ℤ × File :=
  let newpos : Option ℤ :=
    if wherece = SEEK_SET then some off
    else if wherece = SEEK_CUR then some (filp.fPos + off)
    else if wherece = SEEK_END then some 32
    else none
  match newpos with
  | none => (-EINVAL, filp)
  | some newpos =>
    if newpos < 0 ∨ 32 < newpos then (-EINVAL, filp) else (newpos, { filp with fPos := newpos.toNat })

/-- What a read meets: `SHA256_IS_BUSY` at first, a signal while it waits, the words of the
hash registers as `copy_to_user` loads them, and how many bytes it leaves. -/
structure Meets where
  busy : Bool
  interrupted : Bool
  hash : Vector Word 8
  left : ℕ

structure ReadResult where
  ret : ℤ
  copied : List Byte
  pos : ℕ

def sha256Read (m : Meets) (count : ℕ) (filp : File) (pos : ℕ) : ReadResult :=
  if m.busy && filp.nonblock then ⟨-EAGAIN, [], pos⟩
  else if m.busy && m.interrupted then ⟨-ERESTARTSYS, [], pos⟩
  else
    let pos := pos % 32
    let sha256Remain := 32 - pos % 32
    let shouldCopied := min sha256Remain count
    let copied := ((bytesOf m.hash).drop pos).take (shouldCopied - m.left)
    if m.left ≠ 0 then ⟨-EFAULT, copied, pos⟩ else ⟨shouldCopied, copied, pos + shouldCopied⟩

/-- A call on an open file. -/
inductive FileOp where
  | llseek (off : ℤ) (wherece : ℕ)
  | read (m : Meets) (count : ℕ)

/-- What the call returns, the bytes that it returns, and the file afterwards: `read` keeps the
position unless the driver returns an error. -/
def FileOp.call (filp : File) : FileOp → ℤ × List Byte × File
  | .llseek off wherece =>
    let (ret, filp) := sha256Llseek off wherece filp
    (ret, [], filp)
  | .read m count =>
    let r := sha256Read m count filp filp.fPos
    if 0 ≤ r.ret then (r.ret, r.copied, { filp with fPos := r.pos }) else (r.ret, [], filp)

/-- Calls one after the other: what they return, all the bytes, and the file afterwards. -/
def calls : List FileOp → File → List ℤ × List Byte × File
  | [], filp => ([], [], filp)
  | op :: ops, filp =>
    let (ret, bytes, filp) := op.call filp
    let (rets, rest, filp) := calls ops filp
    (ret :: rets, bytes ++ rest, filp)

end ZynqSha256.ZynqDriver
