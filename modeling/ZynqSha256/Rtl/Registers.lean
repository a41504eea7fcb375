import ZynqSha256.Rtl.Sha256

/-! The register file the three bus wrappers have in common: slv_reg0 with its
byte strobes and its status bits, and the read multiplexer. -/

namespace ZynqSha256

open Fips180 (Word)

/-- The register an address selects: `addr[ADDR_LSB+OPT_MEM_ADDR_BITS:ADDR_LSB]`. -/
def regIndex {w : ℕ} (addr : BitVec w) : ℕ := (addr.extractLsb (w - 1) 2).toNat

/-- One byte lane of the strobed write loop. -/
def lane (wstrb : BitVec 4) (wdata old : Word) (byteIndex : ℕ) : BitVec 8 :=
  if wstrb.getLsbD byteIndex then wdata.extractLsb' (byteIndex * 8) 8
  else old.extractLsb' (byteIndex * 8) 8

/-- Respective byte enables are asserted as per write strobes. -/
def strobed (wstrb : BitVec 4) (wdata old : Word) : Word :=
  lane wstrb wdata old 3 ++ lane wstrb wdata old 2 ++ lane wstrb wdata old 1 ++
    lane wstrb wdata old 0

/-- `{16'h0, 7'h0, hash_busy_o, 6'h0, slv_reg0[1], 1'b0}`. -/
def statusNxt (hashBusyO : Bool) (slvReg0 : Word) : Word :=
  0#16 ++ 0#7 ++ BitVec.ofBool hashBusyO ++ 0#6 ++ BitVec.ofBool slvReg0[1] ++ 0#1

/-- slv_reg0 after a clock edge: a write that selects register 0 stores its
strobed bytes, any other cycle takes the status. -/
def slvReg0Next (wren : Bool) (index : ℕ) (wstrb : BitVec 4) (wdata nxt old : Word) : Word :=
  if wren then
    match index with
    | 0 => strobed wstrb wdata old
    | _ => nxt
  else nxt

/-- The read multiplexer. -/
def readMux (index : ℕ) (slvReg0 : Word) (hash : Vector Word 8) : Word :=
  match index with
  | 0x00 => slvReg0
  | 0x08 => hash[0]!
  | 0x09 => hash[1]!
  | 0x0a => hash[2]!
  | 0x0b => hash[3]!
  | 0x0c => hash[4]!
  | 0x0d => hash[5]!
  | 0x0e => hash[6]!
  | 0x0f => hash[7]!
  | _ => 0

/-! ## Bits of slv_reg0 -/

theorem strobed_getLsbD (wstrb : BitVec 4) (wdata old : Word) {j : ℕ} (hj : j < 32) :
    (strobed wstrb wdata old).getLsbD j =
      if wstrb.getLsbD (j / 8) then wdata.getLsbD j else old.getLsbD j := by
  have hlane (k : ℕ) (m : ℕ) (hm : m < 8) : (lane wstrb wdata old k).getLsbD m =
      if wstrb.getLsbD k then wdata.getLsbD (k * 8 + m) else old.getLsbD (k * 8 + m) := by
    unfold lane
    split <;> simp [hm]
  unfold strobed
  simp only [BitVec.getLsbD_append]
  rcases (by omega : j < 8 ∨ (8 ≤ j ∧ j < 16) ∨ (16 ≤ j ∧ j < 24) ∨ 24 ≤ j) with
    h | ⟨h1, h2⟩ | ⟨h1, h2⟩ | h
  · rw [if_pos h, hlane 0 j h, show j / 8 = 0 by omega, show 0 * 8 + j = j by omega]
  · rw [if_neg (by omega), if_pos (by omega), hlane 1 _ (by omega), show j / 8 = 1 by omega,
      show 1 * 8 + (j - 8) = j by omega]
  · rw [if_neg (by omega), if_neg (by omega), if_pos (by omega), hlane 2 _ (by omega),
      show j / 8 = 2 by omega, show 2 * 8 + (j - 8 - 8) = j by omega]
  · rw [if_neg (by omega), if_neg (by omega), if_neg (by omega), hlane 3 _ (by omega),
      show j / 8 = 3 by omega, show 3 * 8 + (j - 8 - 8 - 8) = j by omega]

theorem statusNxt_bit0 (busy : Bool) (r : Word) : (statusNxt busy r).getLsbD 0 = false := by
  unfold statusNxt
  cases busy <;> cases r[1] <;> rfl

theorem statusNxt_bit8 (busy : Bool) (r : Word) : (statusNxt busy r).getLsbD 8 = busy := by
  unfold statusNxt
  cases busy <;> cases r[1] <;> rfl

/-- A register write other than one to register 0 is an ordinary cycle for slv_reg0. -/
theorem slvReg0Next_eq (wren : Bool) (index : ℕ) (wstrb : BitVec 4) (wdata nxt old : Word) :
    slvReg0Next wren index wstrb wdata nxt old =
      if wren = true ∧ index = 0 then strobed wstrb wdata old else nxt := by
  unfold slvReg0Next
  cases wren with
  | false => rfl
  | true => cases index <;> rfl

/-- The soft reset bit is set by a write to register 0 and by nothing else. -/
theorem slvReg0Next_bit0 {wren : Bool} {index : ℕ} {wstrb : BitVec 4} {wdata old r : Word}
    {busy : Bool}
    (h : (slvReg0Next wren index wstrb wdata (statusNxt busy r) old).getLsbD 0 = true) :
    wren = true ∧ index = 0 := by
  rw [slvReg0Next_eq] at h
  split at h
  next hw => exact hw
  next => rw [statusNxt_bit0] at h; cases h

/-- The status bit follows the busy wire unless register 0 is written. -/
theorem slvReg0Next_bit8 (wren : Bool) (index : ℕ) (wstrb : BitVec 4) (wdata old r : Word)
    (busy : Bool) :
    (slvReg0Next wren index wstrb wdata (statusNxt busy r) old).getLsbD 8 =
      if wren = true ∧ index = 0 then
        (if wstrb.getLsbD 1 then wdata.getLsbD 8 else old.getLsbD 8)
      else busy := by
  rw [slvReg0Next_eq]
  split
  next => rw [strobed_getLsbD _ _ _ (by decide)]
  next => rw [statusNxt_bit8]

end ZynqSha256
