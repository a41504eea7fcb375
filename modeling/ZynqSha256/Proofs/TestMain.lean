import ZynqSha256.Driver.TestMain
import ZynqSha256.Proofs.Cyclic
import ZynqSha256.Proofs.Readout
import ZynqSha256.Proofs.ZynqRead
import ZynqSha256.Proofs.ZynqWrite

/-! The test driver from end to end: the file is padded, written chunk by chunk to the channel,
hashed by the core behind the stream slave, read back and printed. -/

namespace ZynqSha256

open Fips180 (Byte Word chain beWords)
open PcieDriver (bytesOf digestOf)

/-- The bytes of a hash value as the standard writes them. -/
def hashBytes (v : Fips180.Hash) : List Byte := v.toList.flatMap Slices.beBytes

theorem bytesOf_digestOf (ws : List Word) :
    bytesOf (digestOf ws) = hashBytes (chain (ws.map datMsbI)) := by
  rw [bytesOf, digestOf, Vector.toList_map, List.flatMap_map, hashBytes]
  simp only [leBytes_lsbToMsb]

/-- The core turns the words of a buffer into those the standard reads in it. -/
theorem map_datMsbI_axisWords (m : List Byte) :
    (ZynqDriver.axisWords m).map datMsbI = beWords m := by
  induction m using ZynqDriver.axisWords.induct with
  | case1 a b c d m ih =>
    obtain ⟨hd, hc, hb, ha⟩ := Slices.extract_bytes d c b a
    rw [ZynqDriver.axisWords, List.map_cons, ih, beWords]
    refine congrArg (· :: _) ?_
    rw [datMsbI]
    simp only [BitVec.extractLsb]
    exact congrArg₂ _ (congrArg₂ _ (congrArg₂ _ ha hb) hc) hd
  | case2 m h =>
    rw [ZynqDriver.axisWords, beWords]
    · rfl
    · exact h
    · exact h

namespace ZynqDriver.System

variable {writes : List (List Byte)} {c : ℕ → Cycle} {d n : ℕ}

/-- `SHA256_IS_BUSY` in cycle `n`. -/
def busyBit (writes : List (List Byte)) (c : ℕ → Cycle) (n : ℕ) : Bool :=
  (run writes c n).ip.bus.slvReg0.getLsbD 8

/-- The hash registers, the `j`-th one read in cycle `t j`. -/
def hashRead (writes : List (List Byte)) (c : ℕ → Cycle) (t : Fin 8 → ℕ) : Vector Word 8 :=
  Vector.ofFn fun j => ((run writes c (t j)).ip.core (traffic writes c (t j))).hash.get j

/-- All descriptors have been issued and terminated. -/
def Done (ch : Channel) : Prop := ch.descriptor = .none ∧ ch.chunks = []

theorem Done.next {ch ch' : Channel} {hs : Bool} (h : Done ch) (hn : ch.Nexted hs ch') :
    Done ch' := by
  cases hn with
  | rest hd => exact h
  | issue txBuf chunks hd hch => exact absurd (h.2.symm.trans hch) (List.cons_ne_nil _ _).symm
  | wait pos hd hs => exact h
  | word pos hd hs hlast => exact Descriptor.noConfusion (h.1.symm.trans hd)
  | complete pos hd hs hlast => exact Descriptor.noConfusion (h.1.symm.trans hd)
  | terminate age pos hd => exact Descriptor.noConfusion (h.1.symm.trans hd)
  | goOn age pos pos' hd => exact Descriptor.noConfusion (h.1.symm.trans hd)

variable (hdone : Done (run writes c d).channel)
include hdone

theorem done_of_le (hn : d ≤ n) : Done (run writes c n).channel := by
  induction n, hn using Nat.le_induction with
  | base => exact hdone
  | succ n _ ih => exact ih.next (nexted writes c n)

/-- No word comes any more. -/
theorem quiet (hn : d ≤ n) : (Sha256Stream.wires (traffic writes c) n).rstN = true ∧
    (Sha256Stream.wires (traffic writes c) n).datVaildI = false := by
  refine ⟨live writes c n, ?_⟩
  have hvalid := Channel.tvalid_none (c := c n) (done_of_le hdone hn).1
  exact Bool.eq_false_iff.2 hvalid

/-- The core has taken the words of the writes. -/
theorem accepted_done (hin : ∀ m < d, (run writes c m).channel.InTime (c m)) :
    Sha256.accepted (Sha256Stream.wires (traffic writes c)) d = writes.flatMap axisWords := by
  have hplan := (run_ok writes c d).plan
  have honce := run_once writes c d hin
  simp only [Channel.Once, hdone.1] at honce
  rw [hdone.2, List.flatten_nil, List.append_nil] at hplan
  rw [← Sha256Stream.beats_eq_accepted]
  exact honce.trans hplan

omit hdone in
/-- The busy bit shows what the core was a cycle ago. -/
theorem busyBit_succ (n : ℕ) : busyBit writes c (n + 1) =
    (Sha256.run (Sha256Stream.wires (traffic writes c)) n).hashBusyO
      (Sha256Stream.wires (traffic writes c) n) := by
  rw [← Sha256Stream.busy_eq _ (live writes c n), ← ip_eq_run]
  have hreg : (run writes c (n + 1)).ip.bus.slvReg0 =
      slvReg0Next ((run writes c n).ip.bus.slvRegWren (traffic writes c n).axi)
        (regIndex (run writes c n).ip.bus.axiAwaddr) 0 0
        ((run writes c n).ip.sha256RegStatusNxt (traffic writes c n))
        (run writes c n).ip.bus.slvReg0 := AxiLite.posedge_slvReg0 rfl
  rw [busyBit, hreg, Sha256Stream.sha256RegStatusNxt, slvReg0Next_bit8, if_neg]
  rintro ⟨hwren, -⟩
  simp [AxiLite.slvRegWren, traffic, streamIn] at hwren

/-- Fifty-one cycles later the core is done. -/
theorem busyBit_low (hn : d + 50 < n) : busyBit writes c n = false := by
  obtain ⟨r, rfl⟩ : ∃ r, n = r + 1 := Nat.exists_eq_succ_of_ne_zero (by omega)
  rw [busyBit_succ]
  by_contra hbusy
  rw [Bool.not_eq_false, Sha256.busy_iff _ r (live writes c r)] at hbusy
  obtain ⟨t, -, hlate, hend, -⟩ := hbusy
  have hvalid := (quiet hdone (n := t) (by omega)).2
  simp [Sha256.blockEnd, Sha256.accepts, hvalid] at hend

/-- Once the busy bit is read as low, the hash registers are the digest of the writes, in
whatever cycles they are read. -/
theorem hashRead_eq (hin : ∀ m < d, (run writes c m).channel.InTime (c m)) {s : ℕ} (hs : d < s)
    (hidle : busyBit writes c s = false) {t : Fin 8 → ℕ} (ht : ∀ j, s ≤ t j) :
    hashRead writes c t = digestOf (writes.flatMap axisWords) := by
  obtain ⟨r, rfl⟩ : ∃ r, s = r + 1 := Nat.exists_eq_succ_of_ne_zero (by omega)
  have hquiet : ∀ n, r ≤ n → (Sha256Stream.wires (traffic writes c) n).rstN = true ∧
      (Sha256Stream.wires (traffic writes c) n).datVaildI = false :=
    fun n hn => quiet hdone (by omega)
  have hacc : Sha256.accepted (Sha256Stream.wires (traffic writes c)) r =
      writes.flatMap axisWords := by
    rw [Sha256.accepted_of_quiet (show d ≤ r by omega) fun k hk => quiet hdone hk]
    exact accepted_done hdone hin
  rw [busyBit_succ] at hidle
  apply Vector.ext
  intro j hj
  have hle : r ≤ t ⟨j, hj⟩ := (Nat.le_succ r).trans (ht _)
  have hhash := (PcieDriver.hash_eq_digestOf hle hacc hquiet).2
    (PcieDriver.not_updating_of_idle hquiet hidle hle)
  rw [hashRead, Vector.getElem_ofFn, ip_eq_run, Sha256Stream.core_eq_run _ (live writes c _), hhash]
  rfl

end ZynqDriver.System

/-! ## The printed digests -/

namespace TestDriver

variable {mode : Overflow} {sha2 : List Byte → List Byte} {m : List Byte}

theorem digitChar_inj {x y : ℕ} (hx : x < 16) (hy : y < 16)
    (h : Nat.digitChar x = Nat.digitChar y) : x = y := by
  have hall : ∀ x y : Fin 16, Nat.digitChar x = Nat.digitChar y → x = y := by decide
  exact congrArg Fin.val (hall ⟨x, hx⟩ ⟨y, hy⟩ h)

theorem hexByte_inj {b b' : Byte} (h : hexByte b = hexByte b') : b = b' := by
  obtain ⟨hhigh, hlow⟩ := List.cons.inj h
  have hb := b.isLt
  have hb' := b'.isLt
  have h1 := digitChar_inj (by omega) (by omega) hhigh
  have h2 := digitChar_inj (by omega) (by omega) (List.cons.inj hlow).1
  apply BitVec.eq_of_toNat_eq
  omega

/-- The newlines depend on the places alone, so nothing of the bytes is lost. -/
theorem asHexFrom_inj {i : ℕ} {bs bs' : List Byte} (h : asHexFrom i bs = asHexFrom i bs') :
    bs = bs' := by
  have hpos (i : ℕ) (b : Byte) (bs : List Byte) : asHexFrom i (b :: bs) ≠ [] := by
    rw [asHexFrom, hexByte]
    exact List.append_ne_nil_of_left_ne_nil (List.append_ne_nil_of_right_ne_nil _ (List.cons_ne_nil _ _)) _
  induction bs generalizing i bs' with
  | nil =>
    cases bs' with
    | nil => rfl
    | cons b' bs' => exact absurd h.symm (hpos i b' bs')
  | cons b bs ih =>
    cases bs' with
    | nil => exact absurd h (hpos i b bs)
    | cons b' bs' =>
      rw [asHexFrom, asHexFrom, List.append_assoc, List.append_assoc, List.append_cancel_left_eq] at h
      obtain ⟨hbyte, hrest⟩ := List.append_inj h rfl
      rw [hexByte_inj hbyte, ih hrest]

/-- What `main` leaves in `result`. -/
def result (bytes : List Byte) : List Byte := bytes ++ List.replicate (32 - bytes.length) 0

theorem main_eq {dev : Sha256Dev} {buf : List Byte} (hbuf : makeChunk mode m = some buf)
    (hwrite : 0 ≤ dev.write buf) (hread : 0 ≤ (dev.read 32).1) :
    main mode sha2 dev m = some ⟨asHex (sha2 m), asHex (result (dev.read 32).2)⟩ := by
  unfold main
  rw [hbuf, Option.bind_eq_bind, Option.bind_some]
  dsimp only
  rw [if_neg (not_lt.2 hwrite), if_neg (not_lt.2 hread)]
  rfl

/-- Whatever the device does, `main` prints the same digest twice exactly if it gets as far and
the bytes read back are the hash that the crate computes. -/
theorem main_prints_equal_iff (mode : Overflow) (sha2 : List Byte → List Byte) (dev : Sha256Dev)
    (m : List Byte) :
    (∃ out, main mode sha2 dev m = some out ∧ out.hardware = out.software) ↔
      (∃ buf, makeChunk mode m = some buf ∧ 0 ≤ dev.write buf) ∧ 0 ≤ (dev.read 32).1 ∧
        result (dev.read 32).2 = sha2 m := by
  constructor
  · rintro ⟨out, hout, heq⟩
    have hmain := hout
    unfold main at hout
    obtain ⟨buf, hbuf, hrest⟩ := Option.bind_eq_some_iff.1 hout
    dsimp only at hrest
    split_ifs at hrest with hwrite hread
    rw [not_lt] at hwrite hread
    refine ⟨⟨buf, hbuf, hwrite⟩, hread, ?_⟩
    rw [main_eq hbuf hwrite hread] at hmain
    obtain rfl := Option.some.inj hmain
    exact asHexFrom_inj heq
  · rintro ⟨⟨buf, hbuf, hwrite⟩, hread, heq⟩
    exact ⟨_, main_eq hbuf hwrite hread, congrArg asHex heq⟩

/-! ## On the device -/

open ZynqDriver (Pass Meets FileOp sha256Write)
open ZynqDriver.System (run Done busyBit hashRead hashRead_eq)

/-- `/dev/sha256`, just opened: what the write and the read meet. -/
def zynqDev (pass : ℕ → Pass) (writen : BitVec 32) (meets : Meets) : Sha256Dev where
  write buf := (sha256Write buf pass .idle writen).ret
  read count := (((FileOp.read meets count).call ⟨false, 0⟩).1, ((FileOp.read meets count).call ⟨false, 0⟩).2.1)

theorem read_whole (busy : Bool) (hash : Vector Word 8) :
    (FileOp.read ⟨busy, false, hash, 0⟩ 32).call ⟨false, 0⟩ = (32, bytesOf hash, ⟨false, 32⟩) := by
  have hall : (bytesOf hash).take 32 = bytesOf hash :=
    List.take_of_length_le (ZynqDriver.bytesOf_length hash).le
  simp [FileOp.call, ZynqDriver.sha256Read, hall]

/-- A file of less than 2^29 bytes goes through the program: padded, written with no failure and
every chunk terminated in time, hashed and read once the busy bit is low, in whatever cycles the
words are loaded. What is printed for the hardware is the hash of the padded file; it is what the
software prints unless the length is 55 modulo 64. The busy bit is low fifty-one cycles after the
last chunk was terminated at the latest. -/
theorem main_prints_digest (h : 8 * m.length < 2 ^ 32)
    (hsha2 : sha2 m = hashBytes (Fips180.sha256 (Fips180.bits m))) {buf : List Byte}
    (hbuf : makeChunk mode m = some buf) {pass : ℕ → Pass} (hok : ∀ k, (pass k).ok = true)
    (writen : BitVec 32) {c : ℕ → ZynqDriver.Cycle} {d s : ℕ}
    (hdone : Done (run [buf] c d).channel)
    (hin : ∀ n < d, (run [buf] c n).channel.InTime (c n)) (hs : d < s)
    (hidle : busyBit [buf] c s = false) {t : Fin 8 → ℕ} (ht : ∀ j, s ≤ t j) (busy : Bool) :
    (∃ out, main mode sha2 (zynqDev pass writen ⟨busy, false, hashRead [buf] c t, 0⟩) m = some out ∧
      out.hardware = asHex (hashBytes (chain (beWords buf))) ∧
      (m.length % 64 ≠ 55 → out.hardware = out.software)) ∧
    ∀ n, d + 50 < n → busyBit [buf] c n = false := by
  have hwrite : 0 ≤ (zynqDev pass writen ⟨busy, false, hashRead [buf] c t, 0⟩).write buf := by
    dsimp only [zynqDev]
    rw [(ZynqDriver.sha256Write_ok buf writen fun k _ => hok k).1]
    exact Int.natCast_nonneg _
  have hread : (zynqDev pass writen ⟨busy, false, hashRead [buf] c t, 0⟩).read 32 =
      (32, bytesOf (hashRead [buf] c t)) := by
    dsimp only [zynqDev]
    rw [read_whole]
  have hbytes : bytesOf (hashRead [buf] c t) = hashBytes (chain (beWords buf)) := by
    rw [hashRead_eq hdone hin hs hidle ht, List.flatMap_singleton, bytesOf_digestOf,
      map_datMsbI_axisWords]
  have hresult : result (bytesOf (hashRead [buf] c t)) = hashBytes (chain (beWords buf)) := by
    rw [result, ZynqDriver.bytesOf_length, Nat.sub_self, List.replicate_zero, List.append_nil, hbytes]
  have hret : 0 ≤ ((zynqDev pass writen ⟨busy, false, hashRead [buf] c t, 0⟩).read 32).1 := by
    have h32 : (0 : ℤ) ≤ 32 := by decide
    rw [hread]
    exact h32
  refine ⟨⟨_, main_eq hbuf hwrite hret, ?_, fun h55 => ?_⟩,
    fun n hn => ZynqDriver.System.busyBit_low hdone hn⟩
  · rw [hread, hresult]
  · rw [hread, hresult, hsha2, ← chain_padded]
    rw [makeChunk_eq mode m h, Option.some.injEq] at hbuf
    rw [← hbuf, (zerosAppended_eq_iff m.length).2 h55]

/-- "abc", padded. -/
def abcChunk : List Byte := [0x61, 0x62, 0x63, 0x80] ++ List.replicate 59 0 ++ [0x18]

/-- The channel always has a word at hand; the callback comes as soon as all are taken. -/
def sixteen (n : ℕ) : ZynqDriver.Cycle := ⟨true, n = 0, n = 17, 0, false, false⟩

theorem start_abcChunk : ZynqDriver.System.start [abcChunk] =
    ⟨⟨[0x80636261 :: List.replicate 14 0 ++ [0x18000000]], [], .none, []⟩, .reset⟩ := by
  have hchunks : ZynqDriver.chunks abcChunk (.start 64) =
      [0x80636261 :: List.replicate 14 0 ++ [0x18000000]] := by
    rw [ZynqDriver.chunks, if_pos (by decide), ZynqDriver.chunks, if_neg (by decide)]
    rfl
  rw [ZynqDriver.System.start, List.flatMap_singleton]
  exact congrArg (fun ch => ZynqDriver.System.mk ⟨ch, [], .none, []⟩ .reset) hchunks

/-- What the crate computes. -/
def sha2Crate (m : List Byte) : List Byte := hashBytes (Fips180.sha256 (Fips180.bits m))

theorem main_prints_digest_abc : ∃ out,
    main .panics sha2Crate
      (zynqDev (fun _ => ⟨false, false, false⟩) 0
        ⟨true, false, hashRead [abcChunk] sixteen fun _ => 69, 0⟩) [0x61, 0x62, 0x63] = some out ∧
      out.hardware = out.software := by
  have hdone : Done (run [abcChunk] sixteen 18).channel := by
    rw [run, start_abcChunk]
    exact ⟨by decide +kernel, by decide +kernel⟩
  have hin : ∀ n < 18, (run [abcChunk] sixteen n).channel.InTime (sixteen n) := by
    rw [run, start_abcChunk]
    decide +kernel
  obtain ⟨⟨out, hout, -, hsame⟩, -⟩ := main_prints_digest (m := [0x61, 0x62, 0x63]) (by decide)
    (show sha2Crate _ = _ from rfl) (show makeChunk .panics _ = some abcChunk by decide +kernel)
    (show ∀ k, ((fun _ => ⟨false, false, false⟩ : ℕ → Pass) k).ok = true from fun _ => rfl) 0 hdone hin
    (show 18 < 69 by decide) (ZynqDriver.System.busyBit_low hdone (by decide))
    (fun _ => le_rfl) true
  exact ⟨out, hout, hsame (by decide)⟩

end TestDriver

end ZynqSha256
