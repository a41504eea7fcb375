import ZynqSha256.Driver.XdmaDesc
import ZynqSha256.Lib.Segments
import ZynqSha256.Lib.Chain

/-! The descriptors of a transfer, as the engine reads them: following the next pointers,
or in blocks of adjacent ones, it makes the copies of the next pieces of the request. -/

namespace ZynqSha256.Xdma

/-! ## What the engine reads -/

def XdmaDesc.stopped (d : XdmaDesc) : Bool := d.control.getLsbD 0
def XdmaDesc.magic (d : XdmaDesc) : BitVec 16 := d.control.extractLsb' 16 16
def XdmaDesc.nxtAdj (d : XdmaDesc) : ℕ := (d.control.extractLsb' 8 6).toNat

/-- The descriptor memory on the bus; a descriptor without the magic number stops the engine
with an error, one with the stop bit ends the list. -/
def XdmaEngine.memory (e : XdmaEngine) : Chain.Memory (BitVec 64) XdmaDesc where
  fetch a :=
    let off := (a - e.descBus).toNat
    let d := e.desc (off / 32)
    if off % 32 = 0 ∧ off / 32 < e.descMax ∧ d.magic = 0xAD4B then some d else none
  next d := if d.stopped then none else some (d.nextHi ++ d.nextLo)
  adj := XdmaDesc.nxtAdj
  behind a := a + 32

/-- A copy: the two addresses it starts at, on the host and behind the engine, and its length. -/
abbrev Copy : Type := (BitVec 64 × BitVec 64) × ℕ

def XdmaDesc.copy (dir : DmaDataDirection) (d : XdmaDesc) : Copy :=
  match dir with
  | .toDevice => ((d.srcAddrHi ++ d.srcAddrLo, d.dstAddrHi ++ d.dstAddrLo), d.bytes.toNat)
  | .fromDevice => ((d.dstAddrHi ++ d.dstAddrLo, d.srcAddrHi ++ d.srcAddrLo), d.bytes.toNat)

/-- From one byte to the next behind the engine. -/
def XdmaEngine.epStep (e : XdmaEngine) : BitVec 64 := if e.nonIncrAddr then 0 else 1

/-- The bytes of host memory that pieces name. -/
def runs (ds : List SwDesc) : List (BitVec 64 × ℕ) := ds.map fun d => (d.addr, d.len.toNat)

/-- What is left of a request. -/
def XdmaRequestCb.rest (req : XdmaRequestCb) : List SwDesc := req.sdesc.drop req.swDescIdx

/-! ## Addresses -/

theorem pciDmaL_toNat (a : BitVec 64) : (pciDmaL a).toNat = a.toNat % 2 ^ 32 := by
  rw [pciDmaL, BitVec.toNat_setWidth, BitVec.toNat_and,
    show (0xffffffff : BitVec 64).toNat = 2 ^ 32 - 1 by rfl, Nat.and_two_pow_sub_one_eq_mod]
  omega

theorem pciDmaH_toNat (a : BitVec 64) : (pciDmaH a).toNat = a.toNat / 2 ^ 32 := by
  rw [pciDmaH, BitVec.toNat_setWidth, BitVec.toNat_ushiftRight, BitVec.toNat_ushiftRight,
    Nat.shiftRight_eq_div_pow, Nat.shiftRight_eq_div_pow]
  omega

@[simp] theorem pciDma_append (a : BitVec 64) : pciDmaH a ++ pciDmaL a = a := by
  apply BitVec.eq_of_toNat_eq
  rw [BitVec.toNat_append, pciDmaH_toNat, pciDmaL_toNat,
    ← Nat.shiftLeft_add_eq_or_of_lt (Nat.mod_lt _ (by norm_num)), Nat.shiftLeft_eq]
  omega

@[simp] theorem copy_xdmaDescSet (d : XdmaDesc) (rc ep : BitVec 64) (len : BitVec 32)
    (dir : DmaDataDirection) : (xdmaDescSet d rc ep len dir).copy dir = ((rc, ep), len.toNat) := by
  cases dir <;> simp [xdmaDescSet, XdmaDesc.copy]

@[simp] theorem control_xdmaDescSet (d : XdmaDesc) (rc ep : BitVec 64) (len : BitVec 32)
    (dir : DmaDataDirection) : (xdmaDescSet d rc ep len dir).control = d.control := by
  cases dir <;> rfl

@[simp] theorem nextLo_xdmaDescSet (d : XdmaDesc) (rc ep : BitVec 64) (len : BitVec 32)
    (dir : DmaDataDirection) : (xdmaDescSet d rc ep len dir).nextLo = d.nextLo := by
  cases dir <;> rfl

@[simp] theorem nextHi_xdmaDescSet (d : XdmaDesc) (rc ep : BitVec 64) (len : BitVec 32)
    (dir : DmaDataDirection) : (xdmaDescSet d rc ep len dir).nextHi = d.nextHi := by
  cases dir <;> rfl

/-! ## transfer_desc_init -/

/-- The address carried along is that of the descriptor to link to. -/
theorem upTo_initLink (v n : ℕ) (bus : BitVec 64) (desc : ℕ → XdmaDesc) :
    Loops.upTo n (fun i (s : BitVec 64 × (ℕ → XdmaDesc)) =>
      let bus := s.1 + 32
      (bus, Function.update s.2 (v + i)
        ((s.2 (v + i)).initLink (pciDmaL bus) (pciDmaH bus)))) (bus, desc) =
      (bus + BitVec.ofNat 64 (32 * n), Loops.fill v n (fun i d =>
        d.initLink (pciDmaL (bus + BitVec.ofNat 64 (32 * (i + 1))))
          (pciDmaH (bus + BitVec.ofNat 64 (32 * (i + 1))))) desc) := by
  induction n with
  | zero => simp [Loops.fill]
  | succ n ih =>
    have hbus : bus + BitVec.ofNat 64 (32 * n) + 32 = bus + BitVec.ofNat 64 (32 * (n + 1)) := by
      rw [Nat.mul_succ, BitVec.ofNat_add, ← BitVec.add_assoc]
      rfl
    rw [Loops.upTo_succ, ih, Loops.fill_succ]
    simp only [hbus]

/-- Every descriptor but the last leads to the one behind it. -/
theorem transferDescInit_in {v n i : ℕ} (hi : i < n) (bus : BitVec 64) (desc : ℕ → XdmaDesc) :
    transferDescInit desc v bus n (v + i) =
      if i + 1 < n then
        (desc (v + i)).initLink (pciDmaL (bus + BitVec.ofNat 64 (32 * (i + 1))))
          (pciDmaH (bus + BitVec.ofNat 64 (32 * (i + 1))))
      else (desc (v + i)).initLink 0 0 := by
  rw [transferDescInit, upTo_initLink]
  dsimp only
  by_cases h : i + 1 < n
  · rw [if_pos h, Function.update_of_ne (by omega), Loops.fill_in (by omega)]
  · obtain rfl : i = n - 1 := by omega
    rw [if_neg h, Function.update_self, Loops.fill_out (by omega)]

theorem transferDescInit_out {v n j : ℕ} (hn : 0 < n) (hj : j < v ∨ v + n ≤ j) (bus : BitVec 64)
    (desc : ℕ → XdmaDesc) : transferDescInit desc v bus n j = desc j := by
  rw [transferDescInit, upTo_initLink]
  dsimp only
  rw [Function.update_of_ne (by omega), Loops.fill_out (by omega)]

/-! ## transfer_build -/

variable {e e' : XdmaEngine} {req req' : XdmaRequestCb} {x : XdmaTransfer}

/-- The engine does not write results back: results of an AXI stream to the host. -/
def XdmaEngine.Plain (e : XdmaEngine) : Prop := ¬(e.streaming = true ∧ e.dir = .fromDevice)

instance (e : XdmaEngine) : Decidable e.Plain := inferInstanceAs (Decidable (¬_))

/-- The address behind the engine for piece `i`. -/
def epOf (e : XdmaEngine) (ep : BitVec 64) (ds : List SwDesc) (i : ℕ) : BitVec 64 :=
  ep + Segments.total (runs (ds.take i)) • e.epStep

theorem total_take_succ {ds : List SwDesc} {i : ℕ} (hi : i < ds.length) :
    Segments.total (runs (ds.take (i + 1))) =
      Segments.total (runs (ds.take i)) + (ds.getD i ⟨0, 0⟩).len.toNat := by
  rw [List.take_succ_eq_append_getElem hi, List.getD_eq_getElem _ _ hi, runs, List.map_append,
    Segments.total_append]
  rfl

theorem epOf_succ {ds : List SwDesc} {i : ℕ} (hi : i < ds.length) (ep : BitVec 64) :
    epOf e ep ds (i + 1) =
      if e.nonIncrAddr then epOf e ep ds i
      else epOf e ep ds i + (ds.getD i ⟨0, 0⟩).len.setWidth 64 := by
  unfold epOf
  rw [total_take_succ hi, add_nsmul, ← add_assoc]
  cases h : e.nonIncrAddr <;> simp [XdmaEngine.epStep, h]

theorem transferBuild_eq (hp : e.Plain) {n : ℕ} (hn : n ≤ req.rest.length) (s : BuildState) :
    transferBuild e req n s =
      { s with
        desc := Loops.fill e.descIdx n (fun i d =>
          xdmaDescSet d (req.rest.getD i ⟨0, 0⟩).addr (epOf e s.epAddr req.rest i)
            (req.rest.getD i ⟨0, 0⟩).len e.dir) s.desc
        len := s.len + BitVec.ofNat 32 (Segments.total (runs (req.rest.take n)))
        epAddr := epOf e s.epAddr req.rest n } := by
  unfold transferBuild
  induction n with
  | zero => simp [Loops.fill, epOf, runs]
  | succ n ih =>
    have hd : req.sdesc.getD (req.swDescIdx + n) ⟨0, 0⟩ = req.rest.getD n ⟨0, 0⟩ := by
      simp [XdmaRequestCb.rest, List.getD_eq_getElem?_getD, List.getElem?_drop]
    rw [Loops.upTo_succ, ih (by omega), transferBuildStep, if_neg hp, hd, Loops.fill_succ,
      epOf_succ (by omega), total_take_succ (by omega), BitVec.ofNat_add, BitVec.ofNat_toNat,
      BitVec.setWidth_eq, BitVec.add_assoc]

/-! ## The control words -/

/-- The control word of descriptor `i` of `n` before the adjacent number is filled in. -/
def controlOf (e : XdmaEngine) (n i : ℕ) : BitVec 32 :=
  if i + 1 = n then 0xAD4B0013 else if e.eopFlush then 0xAD4B0002 else DESC_MAGIC

theorem controlSetLoop_in {n i : ℕ} (hi : i < n) {desc : ℕ → XdmaDesc}
    (hc : (desc (e.descIdx + i)).control = DESC_MAGIC) :
    controlSetLoop e n desc (e.descIdx + i) =
      { desc (e.descIdx + i) with control := controlOf e n i } := by
  have hset (d : XdmaDesc) (f : BitVec 32) (hd : d.control = DESC_MAGIC)
      (hf : f = 0x13 ∨ f = XDMA_DESC_COMPLETED) :
      xdmaDescControlSet d f = { d with control := 0xAD4B0000 ||| f } := by
    rcases hf with rfl | rfl <;> rw [xdmaDescControlSet, hd] <;> rfl
  unfold controlSetLoop controlOf
  dsimp only
  by_cases hlast : i + 1 = n
  · obtain rfl : i = n - 1 := by omega
    have hupd : Function.update desc (e.descIdx + (n - 1))
        (xdmaDescControlSet (desc (e.descIdx + (n - 1)))
          (XDMA_DESC_STOPPED ||| XDMA_DESC_EOP ||| XDMA_DESC_COMPLETED)) (e.descIdx + (n - 1)) =
        { desc (e.descIdx + (n - 1)) with control := 0xAD4B0013 } := by
      rw [Function.update_self]
      exact hset _ (XDMA_DESC_STOPPED ||| XDMA_DESC_EOP ||| XDMA_DESC_COMPLETED) hc (Or.inl rfl)
    rw [if_pos hlast]
    cases e.eopFlush
    · exact hupd
    · rw [if_pos rfl, Loops.fill_out (by omega)]
      exact hupd
  · rw [if_neg hlast]
    cases e.eopFlush
    · rw [if_neg (by simp), if_neg (by simp), Function.update_of_ne (by omega), ← hc]
    · rw [if_pos rfl, if_pos rfl, Loops.fill_in (by omega), Function.update_of_ne (by omega),
        hset _ _ hc (Or.inr rfl)]
      rfl

theorem controlSetLoop_out {n j : ℕ} (hn : 0 < n) (hj : j < e.descIdx ∨ e.descIdx + n ≤ j)
    (desc : ℕ → XdmaDesc) : controlSetLoop e n desc j = desc j := by
  unfold controlSetLoop
  split
  · rw [Loops.fill_out (by omega), Function.update_of_ne (by omega)]
  · rw [Function.update_of_ne (by omega)]

/-- The number fits its six bits and leaves the rest of the word as it was. -/
theorem control_adjacent {n i k : ℕ} {d : XdmaDesc} (hd : d.control = controlOf e n i)
    (hk : k < 64) :
    (xdmaDescAdjacent d k).magic = 0xAD4B ∧ (xdmaDescAdjacent d k).nxtAdj = k ∧
      ((xdmaDescAdjacent d k).stopped = true ↔ i + 1 = n) := by
  unfold XdmaDesc.magic XdmaDesc.nxtAdj XdmaDesc.stopped xdmaDescAdjacent
  dsimp only
  rw [hd, controlOf]
  split
  next h => simp only [h, iff_true]; interval_cases k <;> exact ⟨rfl, rfl, rfl⟩
  next h =>
    simp only [h, iff_false, Bool.not_eq_true]
    split <;> interval_cases k <;> exact ⟨rfl, rfl, rfl⟩

/-! ## xdma_get_next_adj -/

theorem xdmaGetNextAdj_lt (remaining : ℕ) (nextLo : BitVec 32) :
    xdmaGetNextAdj remaining nextLo < 64 := by
  unfold xdmaGetNextAdj XDMA_MAX_ADJ_BLOCK_SIZE
  dsimp only
  split <;> omega

theorem xdmaGetNextAdj_remaining {remaining : ℕ} (h : 0 < remaining) (nextLo : BitVec 32) :
    xdmaGetNextAdj remaining nextLo < remaining := by
  unfold xdmaGetNextAdj
  dsimp only
  split <;> omega

/-- The descriptors announced lie in one aligned block of 64. -/
theorem xdmaGetNextAdj_block (remaining : ℕ) {a : BitVec 64} (ha : a.toNat % 32 = 0) :
    a.toNat % 2048 + 32 * (xdmaGetNextAdj remaining (pciDmaL a) + 1) ≤ 2048 := by
  unfold xdmaGetNextAdj XDMA_PAGE_SIZE XDMA_MAX_ADJ_BLOCK_SIZE
  rw [pciDmaL_toNat, show (0x1000 - 1 : ℕ) = 2 ^ 12 - 1 by rfl, Nat.and_two_pow_sub_one_eq_mod,
    Nat.shiftRight_eq_div_pow]
  dsimp only
  split <;> omega

/-! ## transfer_init -/

/-- The place of descriptor `i` of the next transfer. -/
def XdmaEngine.place (e : XdmaEngine) (i : ℕ) : BitVec 64 :=
  e.descBus + BitVec.ofNat 64 (32 * (e.descIdx + i))

/-- The settings of an engine, which building a transfer leaves alone. -/
structure XdmaEngine.SameSettings (e e' : XdmaEngine) : Prop where
  dir : e'.dir = e.dir
  streaming : e'.streaming = e.streaming
  nonIncrAddr : e'.nonIncrAddr = e.nonIncrAddr
  eopFlush : e'.eopFlush = e.eopFlush
  descMax : e'.descMax = e.descMax
  descBus : e'.descBus = e.descBus

/-- What `transfer_init` leaves behind: a transfer for the next `desc_num` pieces, in the
slots from `desc_idx` on and nowhere else. -/
structure Built (e : XdmaEngine) (req : XdmaRequestCb) (e' : XdmaEngine) (req' : XdmaRequestCb)
    (x : XdmaTransfer) : Prop where
  settings : e.SameSettings e'
  num : x.descNum = transferDescMax e req
  pos : 0 < x.descNum
  virt : x.descVirt = e.descIdx
  bus : x.descBus = e.place 0
  adjacent : x.descAdjacent = x.descNum
  len : x.len = BitVec.ofNat 32 (Segments.total (runs (req.rest.take x.descNum)))
  idx : e'.descIdx = (e.descIdx + x.descNum) % e.descMax
  used : e'.descUsed = e.descUsed + x.descNum
  rest : req'.rest = req.rest.drop x.descNum
  ep : req'.epAddr = epOf e req.epAddr req.rest x.descNum
  outside : ∀ j, j < e.descIdx ∨ e.descIdx + x.descNum ≤ j → e'.desc j = e.desc j
  copies : ∀ i < x.descNum, (e'.desc (e.descIdx + i)).copy e.dir =
    (((req.rest.getD i ⟨0, 0⟩).addr, epOf e req.epAddr req.rest i),
      (req.rest.getD i ⟨0, 0⟩).len.toNat)
  next : ∀ i, i + 1 < x.descNum → (e'.desc (e.descIdx + i)).nextHi ++
    (e'.desc (e.descIdx + i)).nextLo = e.place (i + 1)
  control : ∀ i < x.descNum, ∃ k d, d.control = controlOf e x.descNum i ∧ k < 64 ∧
    e'.desc (e.descIdx + i) = xdmaDescAdjacent d k ∧
    (i + 1 < x.descNum → k =
      xdmaGetNextAdj (x.descNum - i - 1) (pciDmaL (e.place (i + 1))))

theorem length_rest (req : XdmaRequestCb) : req.rest.length = req.sdesc.length - req.swDescIdx :=
  List.length_drop

theorem place_add (e : XdmaEngine) (i j : ℕ) :
    e.place i + BitVec.ofNat 64 (32 * j) = e.place (i + j) := by
  unfold XdmaEngine.place
  rw [add_assoc, ← BitVec.ofNat_add, ← Nat.mul_add, Nat.add_assoc]

theorem place_zero (e : XdmaEngine) :
    e.descBus + BitVec.ofNat 64 (32 * e.descIdx) = e.place 0 := rfl

theorem transferInit_eq (e : XdmaEngine) (req : XdmaRequestCb) (h : transferDescMax e req ≠ 0) : ∃ e' req' x,
    transferInit e req = some (e', req', x) := by
  rw [transferInit]
  dsimp only
  rw [if_neg h]
  exact ⟨_, _, _, rfl⟩

/-- Linked, filled in, marked and numbered, in this order. -/
def builtDesc (e : XdmaEngine) (req : XdmaRequestCb) (n : ℕ) : ℕ → XdmaDesc :=
  adjacentLoop e.descIdx n (controlSetLoop e n (Loops.fill e.descIdx n (fun i d =>
    xdmaDescSet d (req.rest.getD i ⟨0, 0⟩).addr (epOf e req.epAddr req.rest i)
      (req.rest.getD i ⟨0, 0⟩).len e.dir) (transferDescInit e.desc e.descIdx (e.place 0) n)))

theorem builtDesc_out {n j : ℕ} (hn : 0 < n) (hj : j < e.descIdx ∨ e.descIdx + n ≤ j) :
    builtDesc e req n j = e.desc j := by
  rw [builtDesc, adjacentLoop, Loops.fill_out hj, controlSetLoop_out hn hj, Loops.fill_out hj,
    transferDescInit_out hn hj]

theorem builtDesc_in (e : XdmaEngine) (req : XdmaRequestCb) {n i : ℕ} (hi : i < n) : ∃ d,
    builtDesc e req n (e.descIdx + i) =
      xdmaDescAdjacent d (xdmaGetNextAdj (n - i - 1) d.nextLo) ∧
    d.control = controlOf e n i ∧
    d.copy e.dir = (((req.rest.getD i ⟨0, 0⟩).addr, epOf e req.epAddr req.rest i),
      (req.rest.getD i ⟨0, 0⟩).len.toNat) ∧
    (i + 1 < n → d.nextLo = pciDmaL (e.place (i + 1)) ∧ d.nextHi = pciDmaH (e.place (i + 1))) := by
  set D := transferDescInit e.desc e.descIdx (e.place 0) n with hD
  have hinit : (D (e.descIdx + i)).control = DESC_MAGIC ∧ (i + 1 < n →
      (D (e.descIdx + i)).nextLo = pciDmaL (e.place (i + 1)) ∧
      (D (e.descIdx + i)).nextHi = pciDmaH (e.place (i + 1))) := by
    rw [hD, transferDescInit_in hi, place_add, Nat.zero_add]
    split
    next => exact ⟨rfl, fun _ => ⟨rfl, rfl⟩⟩
    next h => exact ⟨rfl, fun h' => absurd h' h⟩
  set d := xdmaDescSet (D (e.descIdx + i)) (req.rest.getD i ⟨0, 0⟩).addr
    (epOf e req.epAddr req.rest i) (req.rest.getD i ⟨0, 0⟩).len e.dir with hd
  have hcopy : d.copy e.dir = (((req.rest.getD i ⟨0, 0⟩).addr, epOf e req.epAddr req.rest i),
      (req.rest.getD i ⟨0, 0⟩).len.toNat) := copy_xdmaDescSet _ _ _ _ _
  refine ⟨{ d with control := controlOf e n i }, ?_, rfl, ?_, ?_⟩
  · rw [builtDesc, adjacentLoop, Loops.fill_in hi, controlSetLoop_in hi]
    · rw [Loops.fill_in hi]
    · rw [Loops.fill_in hi, control_xdmaDescSet]
      exact hinit.1
  · rw [← hcopy]
    cases e.dir <;> rfl
  · intro h
    rw [← (hinit.2 h).1, ← (hinit.2 h).2]
    exact ⟨nextLo_xdmaDescSet _ _ _ _ _, nextHi_xdmaDescSet _ _ _ _ _⟩

theorem built (hp : e.Plain) (h : transferInit e req = some (e', req', x)) :
    Built e req e' req' x := by
  obtain ⟨hn, hfit⟩ := transferDescMax_le e req
  rw [← length_rest] at hn
  unfold transferInit at h
  dsimp only at h
  split at h
  next => cases h
  next h0 =>
    have hpos := Nat.pos_of_ne_zero h0
    rw [transferBuild_eq hp hn, place_zero] at h
    simp only [Option.some.injEq, Prod.mk.injEq] at h
    obtain ⟨rfl, rfl, rfl⟩ := h
    refine ⟨⟨rfl, rfl, rfl, rfl, rfl, rfl⟩, rfl, hpos, rfl, rfl, rfl, BitVec.zero_add _, rfl, rfl,
      ?_, rfl, fun j hj => builtDesc_out hpos hj, ?_, ?_, ?_⟩
    · exact (List.drop_drop ..).symm
    · intro i hi
      obtain ⟨d, hb, -, hcopy, -⟩ := builtDesc_in e req hi
      refine (congrArg (XdmaDesc.copy e.dir) hb).trans (Eq.trans ?_ hcopy)
      cases e.dir <;> rfl
    · intro i hi
      obtain ⟨d, hb, -, -, hnext⟩ := builtDesc_in e req (Nat.lt_of_succ_lt hi)
      have hlink : d.nextHi ++ d.nextLo = e.place (i + 1) := by
        rw [(hnext hi).1, (hnext hi).2, pciDma_append]
      exact (congrArg (fun d : XdmaDesc => d.nextHi ++ d.nextLo) hb).trans hlink
    · intro i hi
      obtain ⟨d, hb, hc, -, hnext⟩ := builtDesc_in e req hi
      refine ⟨_, d, hc, xdmaGetNextAdj_lt _ _, hb, ?_⟩
      intro h
      rw [(hnext h).1]

/-! ## What the engine does -/

theorem Built.fits (hB : Built e req e' req' x) : e.descIdx + x.descNum ≤ e.descMax := by
  rw [hB.num]
  exact (transferDescMax_le e req).2

theorem Built.left (hB : Built e req e' req' x) : x.descNum ≤ req.rest.length := by
  rw [hB.num, length_rest]
  exact (transferDescMax_le e req).1

/-- In the descriptor memory the transfer lies in one piece. -/
theorem Built.row (hB : Built e req e' req' x) :
    Chain.Row e'.memory x.descNum e.place (fun i => e'.desc (e.descIdx + i)) := by
  have hfits := hB.fits
  have hmax : e.descMax ≤ 2048 := e.descMax_le
  refine ⟨?_, fun i => place_add e i 1, ?_, ?_⟩
  · intro i hi
    obtain ⟨k, d, hc, hk, hd, -⟩ := hB.control i hi
    have hmagic : (e'.desc (e.descIdx + i)).magic = 0xAD4B := by
      rw [hd]
      exact (control_adjacent hc hk).1
    have hoff : (e.place i - e'.descBus).toNat = 32 * (e.descIdx + i) := by
      rw [hB.settings.descBus, XdmaEngine.place, add_sub_cancel_left, BitVec.toNat_ofNat]
      omega
    unfold XdmaEngine.memory
    dsimp only
    rw [hoff, Nat.mul_div_cancel_left _ (by norm_num), hmagic, hB.settings.descMax, if_pos]
    exact ⟨by omega, by omega, rfl⟩
  · intro i hi
    obtain ⟨k, d, hc, hk, hd, -⟩ := hB.control i hi
    have hstop := (control_adjacent hc hk).2.2
    rw [← hd] at hstop
    by_cases hlast : i + 1 = x.descNum
    · rw [if_neg (by omega)]
      exact if_pos (hstop.2 hlast)
    · rw [if_pos (by omega), ← hB.next i (by omega)]
      exact if_neg fun h => hlast (hstop.1 h)
  · intro i hi
    obtain ⟨k, d, hc, hk, hd, hadj⟩ := hB.control i (by omega)
    have hnxt : e'.memory.adj (e'.desc (e.descIdx + i)) = k := by
      rw [hd]
      exact (control_adjacent hc hk).2.1
    have hlt := xdmaGetNextAdj_remaining (show 0 < x.descNum - i - 1 by omega)
      (pciDmaL (e.place (i + 1)))
    rw [hnxt, hadj hi]
    omega

theorem place_aligned (hbus : e.descBus.toNat % 32 = 0) (i : ℕ) : (e.place i).toNat % 32 = 0 := by
  unfold XdmaEngine.place
  rw [BitVec.toNat_add, BitVec.toNat_ofNat]
  omega

/-- Each descriptor announces descriptors of one aligned block of 64. -/
theorem Built.announced (hB : Built e req e' req' x) (hbus : e.descBus.toNat % 32 = 0) :
    ∀ i, i + 1 < x.descNum → (e.place (i + 1)).toNat % 2048 +
      32 * (e'.memory.adj (e'.desc (e.descIdx + i)) + 1) ≤ 2048 := by
  intro i hi
  obtain ⟨k, d, hc, hk, hd, hadj⟩ := hB.control i (by omega)
  have hnxt : e'.memory.adj (e'.desc (e.descIdx + i)) = k := by
    rw [hd]
    exact (control_adjacent hc hk).2.1
  rw [hnxt, hadj hi]
  exact xdmaGetNextAdj_block _ (place_aligned hbus _)

/-- The next pieces, laid out behind the engine one by one. -/
theorem lay_take {ds : List SwDesc} {n : ℕ} (hn : n ≤ ds.length) (ep : BitVec 64) :
    Segments.lay e.epStep (runs (ds.take n)) ep = (List.range n).map fun i =>
      (((ds.getD i ⟨0, 0⟩).addr, epOf e ep ds i), (ds.getD i ⟨0, 0⟩).len.toNat) := by
  induction n with
  | zero => rfl
  | succ n ih =>
    have hd : ds[n] = ds.getD n ⟨0, 0⟩ := (List.getD_eq_getElem _ _ hn).symm
    rw [List.take_succ_eq_append_getElem hn, hd, runs, List.map_append, Segments.lay_append,
      List.range_succ, List.map_append, ← ih (by omega)]
    rfl

/-- The copies of the transfer's descriptors are those of the next pieces. -/
theorem Built.map_copy (hB : Built e req e' req' x) :
    (Chain.nodes (fun i => e'.desc (e.descIdx + i)) 0 x.descNum).map (XdmaDesc.copy e.dir) =
      Segments.lay e.epStep (runs (req.rest.take x.descNum)) req.epAddr := by
  rw [lay_take hB.left, Chain.nodes, List.map_map, ← List.range_eq_range']
  exact List.map_congr_left fun i hi => hB.copies i (List.mem_range.1 hi)

/-- Started at the transfer, an engine that follows the next pointers makes the copies of the
next pieces, in order, and stops. One that fetches blocks of adjacent descriptors, as the
first adjacent number and then each last one of a block tell it, meets the same descriptors,
and none of its fetches leaves an aligned block of 64. -/
theorem transfer_descriptors (hp : e.Plain) (hbus : e.descBus.toNat % 32 = 0)
    (h : transferInit e req = some (e', req', x)) : ∃ ds bs,
    Chain.walk e'.memory x.descNum x.descBus = some ds ∧
      ds.map (XdmaDesc.copy e.dir) =
        Segments.lay e.epStep (runs (req.rest.take x.descNum)) req.epAddr ∧
      Chain.bursts e'.memory x.descNum x.descBus
        (xdmaGetNextAdj x.descAdjacent (pciDmaL x.descBus)) = some bs ∧
      bs.flatMap Prod.snd = ds ∧
      ∀ b ∈ bs, b.1.toNat % 2048 + 32 * b.2.length ≤ 2048 := by
  have hB := built hp h
  obtain ⟨n, hn⟩ := Nat.exists_eq_succ_of_ne_zero (Nat.ne_of_gt hB.pos)
  have hwalk := hB.row.walk (show 0 + n + 1 = x.descNum by omega)
    (show n < x.descNum by omega)
  have hadj := xdmaGetNextAdj_remaining hB.pos (pciDmaL (e.place 0))
  have hfirst := xdmaGetNextAdj_block x.descNum (place_aligned hbus 0)
  obtain ⟨bs, hbs, hflat, hall⟩ := hB.row.bursts
    (Q := fun a k => a.toNat % 2048 + 32 * (k + 1) ≤ 2048) (hB.announced hbus)
    (show 0 + x.descNum = x.descNum by omega) hadj le_rfl hfirst
  rw [hB.adjacent, hB.bus]
  refine ⟨_, bs, hwalk, ?_, hbs, ?_, ?_⟩
  · rw [← hB.map_copy, hn]
  · rw [hflat, hn]
  · intro b hb
    obtain ⟨hblock, hne⟩ := hall b hb
    have hlen := List.length_pos_of_ne_nil hne
    omega

/-- An engine to the device with room for four descriptors. -/
def fourDescs : XdmaEngine where
  dir := .toDevice
  streaming := true
  nonIncrAddr := false
  eopFlush := false
  descMax := 4
  descMax_le := by decide
  desc := fun _ => ⟨0, 0, 0, 0, 0, 0, 0, 0⟩
  descBus := 0x10000000
  cyclicResult := fun _ => ⟨0, 0⟩
  cyclicResultBus := 0
  descIdx := 0
  descIdx_lt := by decide
  descUsed := 0

def threePieces : XdmaRequestCb :=
  ⟨0, 96, [⟨0x1000, 32⟩, ⟨0x3000, 32⟩, ⟨0x2000, 32⟩], 0, Nat.zero_le _⟩

theorem transfer_descriptors_three : ∃ e' req' x ds,
    transferInit fourDescs threePieces = some (e', req', x) ∧
      Chain.walk e'.memory x.descNum x.descBus = some ds ∧
      ds.map (XdmaDesc.copy .toDevice) =
        Segments.lay 1 (runs (threePieces.rest.take x.descNum)) 0 := by
  obtain ⟨e', req', x, hx⟩ := transferInit_eq fourDescs threePieces (by decide)
  obtain ⟨ds, bs, hwalk, hcopies, -⟩ := transfer_descriptors (by decide) (by decide) hx
  exact ⟨e', req', x, ds, hx, hwalk, hcopies⟩

end ZynqSha256.Xdma
