import ZynqSha256.Lib.Clocked
import ZynqSha256.Lib.Slices
import ZynqSha256.Lib.Burst
import ZynqSha256.Lib.Steps
import ZynqSha256.Lib.Loops
import ZynqSha256.Lib.Segments
import ZynqSha256.Lib.Chain
import ZynqSha256.Lib.Ring
import ZynqSha256.Fips.Sha256
import ZynqSha256.Fips.Padding
import ZynqSha256.Rtl.ChunkProcess
import ZynqSha256.Rtl.ChunkCompress
import ZynqSha256.Rtl.Sha256
import ZynqSha256.Rtl.Registers
import ZynqSha256.Rtl.AxiLite
import ZynqSha256.Rtl.Axi
import ZynqSha256.Rtl.Full
import ZynqSha256.Rtl.Stream
import ZynqSha256.Driver.MakeChunk
import ZynqSha256.Driver.Pcie
import ZynqSha256.Driver.PcieRead
import ZynqSha256.Driver.PcieWrite
import ZynqSha256.Driver.XdmaDesc
import ZynqSha256.Driver.XdmaSubmit
import ZynqSha256.Driver.XdmaEngine
import ZynqSha256.Driver.UserBuffer
import ZynqSha256.Driver.Zynq
import ZynqSha256.Driver.ZynqRead
import ZynqSha256.Driver.Cyclic
import ZynqSha256.Driver.TestMain
import ZynqSha256.Proofs.Control
import ZynqSha256.Proofs.Timing
import ZynqSha256.Proofs.Core
import ZynqSha256.Proofs.Inst
import ZynqSha256.Proofs.Pipelines
import ZynqSha256.Proofs.Stream
import ZynqSha256.Proofs.Full
import ZynqSha256.Proofs.AxiLite
import ZynqSha256.Proofs.Writes
import ZynqSha256.Proofs.Reads
import ZynqSha256.Proofs.Status
import ZynqSha256.Proofs.AxiData
import ZynqSha256.Proofs.Master
import ZynqSha256.Proofs.Polling
import ZynqSha256.Proofs.Bursts
import ZynqSha256.Proofs.FullReads
import ZynqSha256.Proofs.FullWrites
import ZynqSha256.Proofs.FullPayloads
import ZynqSha256.Proofs.Pcie
import ZynqSha256.Proofs.PcieRead
import ZynqSha256.Proofs.PcieWrite
import ZynqSha256.Proofs.Readout
import ZynqSha256.Proofs.Wakeups
import ZynqSha256.Proofs.ZynqWrite
import ZynqSha256.Proofs.ZynqRead
import ZynqSha256.Proofs.Cyclic
import ZynqSha256.Proofs.TestMain
import ZynqSha256.Proofs.XdmaDesc
import ZynqSha256.Proofs.XdmaRequest
import ZynqSha256.Proofs.XdmaSubmit
import ZynqSha256.Proofs.UserBuffer
import ZynqSha256.Proofs.XdmaRing
import ZynqSha256.Proofs.XdmaEngine
import ZynqSha256.Proofs.XdmaService
import ZynqSha256.Driver.XdmaThread
import ZynqSha256.Proofs.XdmaThread
import ZynqSha256.Proofs.Throughput
import ZynqSha256.Driver.XdmaIrq
import ZynqSha256.Proofs.XdmaIrq
import ZynqSha256.Driver.XdmaAbort
import ZynqSha256.Proofs.XdmaAbort
import ZynqSha256.Driver.ZynqSession
import ZynqSha256.Proofs.ZynqSession
