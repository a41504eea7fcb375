import ZynqSha256.Lib.Loops

/-! bench/pcie_linux_driver/libxdma.c, from a mapped scatter list to the descriptors of one
transfer in the descriptor memory of an engine. -/

namespace ZynqSha256.Xdma

/-! ## libxdma.h -/

def XDMA_MAX_ADJ_BLOCK_SIZE : ℕ := 0x40
def XDMA_PAGE_SIZE : ℕ := 0x1000
def XDMA_ENGINE_XFER_MAX_DESC : ℕ := 0x800
def XDMA_DESC_STOPPED : BitVec 32 := 1
def XDMA_DESC_COMPLETED : BitVec 32 := 2
def XDMA_DESC_EOP : BitVec 32 := 16
def LS_BYTE_MASK : BitVec 32 := 0xff
def DESC_MAGIC : BitVec 32 := 0xAD4B0000

def pciDmaH (addr : BitVec 64) : BitVec 32 := (addr >>> 16 >>> 16).setWidth 32
def pciDmaL (addr : BitVec 64) : BitVec 32 := (addr &&& 0xffffffff).setWidth 32

inductive DmaDataDirection where
  | toDevice
  | fromDevice
  deriving DecidableEq

/-- `struct xdma_desc`, 32 bytes. -/
structure XdmaDesc where
  control : BitVec 32
  bytes : BitVec 32
  srcAddrLo : BitVec 32
  srcAddrHi : BitVec 32
  dstAddrLo : BitVec 32
  dstAddrHi : BitVec 32
  nextLo : BitVec 32
  nextHi : BitVec 32
  deriving DecidableEq

/-- `struct xdma_result`, 32 bytes with its padding. -/
structure XdmaResult where
  status : BitVec 32
  length : BitVec 32
  deriving DecidableEq

structure SwDesc where
  addr : BitVec 64
  len : BitVec 32
  deriving DecidableEq

/-- An entry of a mapped scatter list: `sg_dma_address` and `sg_dma_len`. -/
structure SgEntry where
  dmaAddress : BitVec 64
  dmaLen : BitVec 32
  deriving DecidableEq

/-- `struct xdma_request_cb`; `sw_desc_cnt` is the length of `sdesc`. -/
structure XdmaRequestCb where
  epAddr : BitVec 64
  totalLen : BitVec 32
  sdesc : List SwDesc
  swDescIdx : ℕ
  swDescIdx_le : swDescIdx ≤ sdesc.length

/-- The part of `struct xdma_engine` that transfers are built from: its descriptor memory
`desc` and what is used of it. -/
structure XdmaEngine where
  dir : DmaDataDirection
  streaming : Bool
  nonIncrAddr : Bool
  eopFlush : Bool
  descMax : ℕ
  descMax_le : descMax ≤ XDMA_ENGINE_XFER_MAX_DESC
  desc : ℕ → XdmaDesc
  descBus : BitVec 64
  cyclicResult : ℕ → XdmaResult
  cyclicResultBus : BitVec 64
  descIdx : ℕ
  descIdx_lt : descIdx < descMax
  descUsed : ℤ

/-- `struct xdma_transfer`; `descVirt` and `resVirt` are indices into the two memories. -/
structure XdmaTransfer where
  descVirt : ℕ
  resVirt : ℕ
  resBus : BitVec 64
  descBus : BitVec 64
  descAdjacent : ℕ
  descNum : ℕ
  descIndex : ℕ
  descCmplTh : ℕ
  dir : DmaDataDirection
  len : BitVec 32

/-! ## xdma_init_request -/

def SIZEOF_SW_DESC : ℕ := 16

/-- `extra`, before it wraps: what is allocated for entries longer than a descriptor. -/
def extraDescs (descBlenMax : BitVec 32) (sgl : List SgEntry) : ℕ :=
  (sgl.map fun sg =>
    if descBlenMax < sg.dmaLen then ((sg.dmaLen + descBlenMax - 1) / descBlenMax).toNat else 0).sum

/-- `max += extra`, an `int`. -/
def maxDescs (descBlenMax : BitVec 32) (sgl : List SgEntry) : BitVec 32 :=
  BitVec.ofNat 32 (sgl.length + extraDescs descBlenMax sgl)

/-- `size` in `xdma_request_alloc`, an `unsigned int`; `sizeofCb` is `sizeof(struct
xdma_request_cb)`. -/
def requestSize (sizeofCb : ℕ) (sdescNr : BitVec 32) : ℕ :=
  (sizeofCb + sdescNr.toNat * SIZEOF_SW_DESC) % 2 ^ 32

/-- `while (tlen)`: the pieces of one entry, `none` if `fuel` rounds do not end it. -/
def splitEntry (descBlenMax : BitVec 32) : ℕ → BitVec 64 → BitVec 32 → Option (List SwDesc)
  | 0, _, tlen => if tlen = 0 then some [] else none
  | fuel + 1, addr, tlen =>
    if tlen = 0 then some []
    else if descBlenMax < tlen then
      (splitEntry descBlenMax fuel (addr + descBlenMax.setWidth 64) (tlen - descBlenMax)).map
        (⟨addr, descBlenMax⟩ :: ·)
    else some [⟨addr, tlen⟩]

/-- The pieces of all entries. -/
def splitEntries (descBlenMax : BitVec 32) (fuel : ℕ) : List SgEntry → Option (List SwDesc)
  | [] => some []
  | sg :: sgl =>
    (splitEntry descBlenMax fuel sg.dmaAddress sg.dmaLen).bind fun ds =>
      (splitEntries descBlenMax fuel sgl).map (ds ++ ·)

def totalLen (sgl : List SgEntry) : BitVec 32 := (sgl.map SgEntry.dmaLen).sum

/-- Whether the allocation succeeds is `alloc`. The outer `none`: it does not return, or it writes
past what it has allocated. The inner one is the null pointer; the pieces have been written by
then. -/
def xdmaInitRequest (sizeofCb : ℕ) (descBlenMax : BitVec 32) (alloc : Bool) (fuel : ℕ)
    (sgl : List SgEntry) (epAddr : BitVec 64) : Option (Option XdmaRequestCb) :=
  let max := maxDescs descBlenMax sgl
  -- a division by zero
  if descBlenMax = 0 ∧ sgl.any (fun sg => descBlenMax < sg.dmaLen) then none
  else if !alloc then some none
  else
    (splitEntries descBlenMax fuel sgl).bind fun sdesc =>
      if requestSize sizeofCb max < sizeofCb + sdesc.length * SIZEOF_SW_DESC then none
      else if max.toInt < (BitVec.ofNat 32 sdesc.length).toInt then some none
      else some (some ⟨epAddr, totalLen sgl, sdesc, 0, Nat.zero_le _⟩)

/-! ## Descriptors -/

def xdmaGetNextAdj (remaining : ℕ) (nextLo : BitVec 32) : ℕ :=
  if remaining ≤ 1 then 0
  else
    let nextIndex := ((nextLo.toNat &&& (XDMA_PAGE_SIZE - 1)) >>> 5) % XDMA_MAX_ADJ_BLOCK_SIZE
    min (XDMA_MAX_ADJ_BLOCK_SIZE - nextIndex - 1) (remaining - 1)

/-- A descriptor of `transfer_desc_init` with its next pointer. -/
def XdmaDesc.initLink (d : XdmaDesc) (nextLo nextHi : BitVec 32) : XdmaDesc :=
  { d with nextLo := nextLo, nextHi := nextHi, bytes := 0, control := DESC_MAGIC }

/-- The loop of `transfer_desc_init` carries `desc_bus` along. -/
def transferDescInit (desc : ℕ → XdmaDesc) (descVirt : ℕ) (descBus : BitVec 64) (count : ℕ) :
    ℕ → XdmaDesc :=
  let s := Loops.upTo (count - 1) (fun i (s : BitVec 64 × (ℕ → XdmaDesc)) =>
    let bus := s.1 + 32
    (bus, Function.update s.2 (descVirt + i)
      ((s.2 (descVirt + i)).initLink (pciDmaL bus) (pciDmaH bus)))) (descBus, desc)
  Function.update s.2 (descVirt + (count - 1)) ((s.2 (descVirt + (count - 1))).initLink 0 0)

/-- An invalid control field leaves the descriptor alone. -/
def xdmaDescControlSet (d : XdmaDesc) (controlField : BitVec 32) : XdmaDesc :=
  if controlField &&& ~~~LS_BYTE_MASK ≠ 0 then d
  else { d with control := (d.control &&& ~~~LS_BYTE_MASK) ||| controlField }

def xdmaDescAdjacent (d : XdmaDesc) (nextAdjacent : ℕ) : XdmaDesc :=
  { d with
    control := (d.control &&& 0x0000f0ff) ||| (0xAD4B0000 ||| BitVec.ofNat 32 nextAdjacent <<< 8) }

def xdmaDescSet (d : XdmaDesc) (rcBusAddr epAddr : BitVec 64) (len : BitVec 32)
    (dir : DmaDataDirection) : XdmaDesc :=
  match dir with
  | .toDevice =>
    { d with
      bytes := len
      srcAddrLo := pciDmaL rcBusAddr
      srcAddrHi := pciDmaH rcBusAddr
      dstAddrLo := pciDmaL epAddr
      dstAddrHi := pciDmaH epAddr }
  | .fromDevice =>
    { d with
      bytes := len
      srcAddrLo := pciDmaL epAddr
      srcAddrHi := pciDmaH epAddr
      dstAddrLo := pciDmaL rcBusAddr
      dstAddrHi := pciDmaH rcBusAddr }

/-! ## transfer_build -/

/-- What the loop of `transfer_build` works on. -/
structure BuildState where
  desc : ℕ → XdmaDesc
  res : ℕ → XdmaResult
  len : BitVec 32
  epAddr : BitVec 64
  bus : BitVec 64

/-- One round, for the piece `sdesc`. -/
def transferBuildStep (engine : XdmaEngine) (sdesc : SwDesc) (j : ℕ) (s : BuildState) :
    BuildState :=
  let k := engine.descIdx + j
  let d := xdmaDescSet (s.desc k) sdesc.addr s.epAddr sdesc.len engine.dir
  let epAddr := if engine.nonIncrAddr then s.epAddr else s.epAddr + sdesc.len.setWidth 64
  if engine.streaming ∧ engine.dir = .fromDevice then
    { desc := Function.update s.desc k
        { d with srcAddrLo := pciDmaL s.bus, srcAddrHi := pciDmaH s.bus }
      res := Function.update s.res k ⟨0, 0⟩
      len := s.len + sdesc.len
      epAddr := epAddr
      bus := s.bus + 32 }
  else
    { s with desc := Function.update s.desc k d, len := s.len + sdesc.len, epAddr := epAddr }

def transferBuild (engine : XdmaEngine) (req : XdmaRequestCb) (descMax : ℕ) (s : BuildState) :
    BuildState :=
  Loops.upTo descMax
    (fun i => transferBuildStep engine (req.sdesc.getD (req.swDescIdx + i) ⟨0, 0⟩) i) s

/-! ## transfer_init -/

/-- How many of the pieces left go into one transfer: the descriptor memory is not wrapped. -/
def transferDescMax (engine : XdmaEngine) (req : XdmaRequestCb) : ℕ :=
  let descMax := min (req.sdesc.length - req.swDescIdx) engine.descMax
  if engine.descMax ≤ engine.descIdx + descMax then engine.descMax - engine.descIdx else descMax

theorem transferDescMax_le (engine : XdmaEngine) (req : XdmaRequestCb) :
    transferDescMax engine req ≤ req.sdesc.length - req.swDescIdx ∧
      engine.descIdx + transferDescMax engine req ≤ engine.descMax := by
  have hlt := engine.descIdx_lt
  unfold transferDescMax
  dsimp only
  split <;> omega

/-- The control field of descriptor `i` of `n`. -/
def controlSetLoop (engine : XdmaEngine) (n : ℕ) (desc : ℕ → XdmaDesc) : ℕ → XdmaDesc :=
  let control := XDMA_DESC_STOPPED ||| XDMA_DESC_EOP ||| XDMA_DESC_COMPLETED
  let last := engine.descIdx + (n - 1)
  let desc := Function.update desc last (xdmaDescControlSet (desc last) control)
  if engine.eopFlush then
    Loops.fill engine.descIdx (n - 1) (fun _ d => xdmaDescControlSet d XDMA_DESC_COMPLETED) desc
  else desc

/-- The adjacent numbers of `n` descriptors. -/
def adjacentLoop (v n : ℕ) (desc : ℕ → XdmaDesc) : ℕ → XdmaDesc :=
  Loops.fill v n (fun i d => xdmaDescAdjacent d (xdmaGetNextAdj (n - i - 1) d.nextLo)) desc

/-- What the request has left after `n` pieces. -/
def XdmaRequestCb.advance (req : XdmaRequestCb) (n : ℕ) (epAddr : BitVec 64)
    (hn : n ≤ req.sdesc.length - req.swDescIdx) : XdmaRequestCb where
  epAddr := epAddr
  totalLen := req.totalLen
  sdesc := req.sdesc
  swDescIdx := req.swDescIdx + n
  swDescIdx_le := by have := req.swDescIdx_le; omega

/-- `none` where no piece is left: the slot in front of the descriptors is written. -/
def transferInit (engine : XdmaEngine) (req : XdmaRequestCb) :
    Option (XdmaEngine × XdmaRequestCb × XdmaTransfer) :=
  let n := transferDescMax engine req
  if n = 0 then none
  else
    let descBus := engine.descBus + BitVec.ofNat 64 (32 * engine.descIdx)
    let resBus := engine.cyclicResultBus + BitVec.ofNat 64 (32 * engine.descIdx)
    let desc := transferDescInit engine.desc engine.descIdx descBus n
    let b := transferBuild engine req n ⟨desc, engine.cyclicResult, 0, req.epAddr, resBus⟩
    let desc := adjacentLoop engine.descIdx n (controlSetLoop engine n b.desc)
    some (
      { engine with
        desc := desc
        cyclicResult := b.res
        descIdx := (engine.descIdx + n) % engine.descMax
        descIdx_lt := Nat.mod_lt _ (Nat.zero_lt_of_lt engine.descIdx_lt)
        descUsed := engine.descUsed + n },
      req.advance n b.epAddr (transferDescMax_le engine req).1,
      { descVirt := engine.descIdx
        resVirt := engine.descIdx
        resBus := resBus
        descBus := descBus
        descAdjacent := n
        descNum := n
        descIndex := engine.descIdx
        descCmplTh := if engine.eopFlush then 1 else n
        dir := engine.dir
        len := b.len })

end ZynqSha256.Xdma
