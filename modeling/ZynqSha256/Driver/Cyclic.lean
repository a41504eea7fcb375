import ZynqSha256.Driver.Zynq
import ZynqSha256.Rtl.Stream

/-! The chunks of `sha256_write` on their way into the core, clock by clock. The channel
has one cyclic descriptor at a time: it streams `tx_buf` and starts over until
`dma_callback`, some time after the first period, terminates it. -/

namespace ZynqSha256.ZynqDriver

open Fips180 (Byte Word)

/-- The contents of `tx_buf` from `c` on. -/
def chunks (buf : List Byte) (c : Call) : List (List Word) :=
  if c.copied < c.count then axisWords (txBuf buf c) :: chunks buf c.next else []
termination_by c.count - c.copied
decreasing_by
  have hpos := Call.shouldCopy_pos ‹c.copied < c.count›
  change c.count - (c.copied + c.shouldCopy) < c.count - c.copied
  omega

/-- The descriptor of the channel, and the word of `tx_buf` it is at. -/
inductive Descriptor where
  | none
  /-- In its first period. -/
  | first (pos : ℕ)
  /-- Past it; the period was complete `age` cycles ago. -/
  | again (age pos : ℕ)
  deriving DecidableEq

structure Channel where
  /-- The contents of `tx_buf` to come. -/
  chunks : List (List Word)
  txBuf : List Word
  descriptor : Descriptor
  /-- History: the words of the descriptors issued. -/
  issued : List Word

/-- What happens around the channel in a cycle: it has its next word at hand, the driver
issues a descriptor or terminates it, the driver reads a register. -/
structure Cycle where
  offer : Bool
  issuePending : Bool
  terminateAll : Bool
  araddr : BitVec 6
  arvalid : Bool
  rready : Bool

namespace Channel

def tvalid (c : Cycle) (ch : Channel) : Bool :=
  match ch.descriptor with
  | .none => false
  | .first _ | .again _ _ => c.offer

def tdata (ch : Channel) : Word :=
  match ch.descriptor with
  | .none => 0
  | .first pos | .again _ pos => ch.txBuf.getD pos 0

/-- The driver terminates a descriptor once its period is complete, and issues the next
one after that. -/
def next (c : Cycle) (handshake : Bool) (ch : Channel) : Channel :=
  match ch.descriptor with
  | .none =>
    if c.issuePending then
      match ch.chunks with
      | [] => ch
      | txBuf :: chunks => ⟨chunks, txBuf, .first 0, ch.issued ++ txBuf⟩
    else ch
  | .first pos =>
    if handshake then
      { ch with
        descriptor := if pos + 1 = ch.txBuf.length then .again 0 0 else .first (pos + 1) }
    else ch
  | .again age pos =>
    if c.terminateAll then { ch with descriptor := .none }
    else
      { ch with
        descriptor := .again (age + 1) (if handshake then (pos + 1) % ch.txBuf.length else pos) }

end Channel

structure System where
  channel : Channel
  ip : Sha256Stream

namespace System

/-- After `sha256_open`; the driver is about to write the buffers. -/
def start (writes : List (List Byte)) : System where
  channel := ⟨writes.flatMap fun buf => chunks buf (.start buf.length), [], .none, []⟩
  ip := Sha256Stream.reset

/-- The driver writes no register before it opens the device again. The slave looks at
TSTRB and TLAST in no cycle. -/
def streamIn (c : Cycle) (s : System) : StreamIn where
  axi :=
    { aresetn := true
      awaddr := 0
      awvalid := false
      wdata := 0
      wstrb := 0
      wvalid := false
      bready := false
      araddr := c.araddr
      arvalid := c.arvalid
      rready := c.rready }
  axisAresetn := true
  tdata := s.channel.tdata
  tstrb := 0xf
  tlast := false
  tvalid := s.channel.tvalid c

def posedge (c : Cycle) (s : System) : System where
  channel := s.channel.next c ((s.streamIn c).tvalid && s.ip.tready (s.streamIn c))
  ip := s.ip.posedge (s.streamIn c)

end System

end ZynqSha256.ZynqDriver
