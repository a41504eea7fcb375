import ZynqSha256.Driver.Cyclic
import ZynqSha256.Proofs.Stream
import ZynqSha256.Proofs.AxiLite

/-! What a cyclic descriptor brings the core. The words of a chunk go in once as long as
`dma_callback` terminates the channel before the core is ready for the first word of the
next period: within fifty cycles after a complete block, at once otherwise. -/

namespace ZynqSha256

open Fips180 (Byte Word)

/-! ## The stream wrapper while nothing resets it -/

namespace Sha256Stream

variable {i : ℕ → StreamIn}

/-- Only a register write can set the soft reset bit. -/
theorem live_of_no_write
    (h : ∀ n, (i n).axi.aresetn = true ∧ (i n).axisAresetn = true ∧ (i n).axi.wvalid = false)
    (n : ℕ) : (run i n).sha256RstN (i n) = true := by
  have hbit : (run i n).sha256SoftReset = false := by
    induction n with
    | zero => exact BitVec.getLsbD_zero
    | succ n ih =>
      by_contra hb
      rw [Bool.not_eq_false, run_succ, sha256SoftReset, posedge, AxiLite.posedge_slvReg0 (h n).1] at hb
      have hwren := (slvReg0Next_bit0 hb).1
      simp [AxiLite.slvRegWren, (h n).2.2] at hwren
  rw [sha256RstN, hbit, (h n).1, (h n).2.1]
  rfl

/-- How long the core has been busy. -/
def age (i : ℕ → StreamIn) (n : ℕ) : ℕ := (Sha256.run (wires i) n).phase.age

variable (hlive : ∀ n, (run i n).sha256RstN (i n) = true)
include hlive

theorem handshake_iff (n : ℕ) :
    (run i n).handshake (i n) = true ↔ (i n).tvalid = true ∧ age i n = 0 := by
  rw [handshake_eq_accepts i (hlive n), Sha256.accepts_run_iff (wires i) n (hlive n)]
  rfl

theorem age_succ (n : ℕ) : age i (n + 1) =
    if age i n = 0 then (if (i n).tvalid = true ∧ (beats i n).length % 16 = 15 then 1 else 0)
    else if age i n = 50 then 0 else age i n + 1 := by
  rw [beats_eq_accepted, Sha256.accepted_mod, age, Sha256.run_succ,
    Sha256.phase_posedge (hlive n) (Sha256.run_counterOk _ n), Sha256.Phase.age_next]
  rfl

theorem beats_succ (n : ℕ) : beats i (n + 1) =
    beats i n ++ if (run i n).handshake (i n) then [(i n).tdata] else [] := by
  rw [beats, Clocked.logSince, if_pos (hlive n)]

end Sha256Stream

namespace ZynqDriver

/-! ## The chunks of a buffer -/

theorem axisWords_append {a : List Byte} (b : List Byte) (h : 4 ∣ a.length) :
    axisWords (a ++ b) = axisWords a ++ axisWords b := by
  induction a using axisWords.induct with
  | case1 x y z w m ih =>
    have hm : 4 ∣ m.length := by simpa using h
    exact congrArg (_ :: ·) (ih hm)
  | case2 m hm =>
    rcases m with _ | ⟨x, _ | ⟨y, _ | ⟨z, _ | ⟨w, m⟩⟩⟩⟩
    · rfl
    · simp at h
    · simp at h
    · simp at h
    · exact (hm x y z w m rfl).elim

theorem axisWords_eq_nil {a : List Byte} : axisWords a = [] ↔ a.length < 4 := by
  rcases a with _ | ⟨x, _ | ⟨y, _ | ⟨z, _ | ⟨w, m⟩⟩⟩⟩
  · simp [axisWords]
  · simp [axisWords]
  · simp [axisWords]
  · simp [axisWords]
  · simp [axisWords]

section Chunks

variable {buf : List Byte} {c : Call}

/-- The chunks are the words of the rest of the buffer, in order. -/
theorem chunks_flatten (hc : 4 ∣ c.copied) (hn : 4 ∣ c.count) (hlen : c.count ≤ buf.length) :
    (chunks buf c).flatten = axisWords ((buf.drop c.copied).take (c.count - c.copied)) := by
  induction c using chunks.induct with
  | case1 c hlt ih =>
    have hsize := Call.dvd_shouldCopy hc hn
    have hsplit : (buf.drop c.copied).take (c.count - c.copied) =
        txBuf buf c ++ (buf.drop c.next.copied).take (c.next.count - c.next.copied) := by
      have hle := c.shouldCopy_le
      have hadd : c.count - c.copied = c.shouldCopy + (c.next.count - c.next.copied) := by
        change _ = c.shouldCopy + (c.count - (c.copied + c.shouldCopy))
        omega
      rw [hadd, List.take_add, List.drop_drop]
      rfl
    rw [chunks, if_pos hlt, List.flatten_cons, ih (dvd_add hc hsize) hn hlen, hsplit,
      axisWords_append _ (by rwa [txBuf_length hlen hlt])]
  | case2 c hlt =>
    rw [chunks, if_neg hlt, Nat.sub_eq_zero_of_le (not_lt.1 hlt)]
    rfl

theorem chunks_ne_nil (hc : 4 ∣ c.copied) (hn : 4 ∣ c.count) (hlen : c.count ≤ buf.length) :
    ∀ ws ∈ chunks buf c, ws ≠ [] := by
  induction c using chunks.induct with
  | case1 c hlt ih =>
    have hsize := Call.dvd_shouldCopy hc hn
    rw [chunks, if_pos hlt, List.forall_mem_cons]
    refine ⟨fun hnil => ?_, ih (dvd_add hc hsize) hn hlen⟩
    rw [axisWords_eq_nil, txBuf_length hlen hlt] at hnil
    have hpos := Call.shouldCopy_pos hlt
    omega
  | case2 c hlt =>
    rw [chunks, if_neg hlt]
    exact List.forall_mem_nil _

end Chunks

theorem chunks_start (buf : List Byte) : (chunks buf (.start buf.length)).flatten = axisWords buf := by
  have hn : 4 ∣ buf.length / 4 * 4 := Nat.dvd_mul_left 4 _
  have hle : buf.length / 4 * 4 ≤ buf.length := Nat.div_mul_le_self _ _
  rw [chunks_flatten (dvd_zero 4) hn hle]
  change axisWords (buf.take (buf.length / 4 * 4)) = axisWords buf
  have hrest : axisWords (buf.drop (buf.length / 4 * 4)) = [] := by
    rw [axisWords_eq_nil, List.length_drop]
    omega
  conv_rhs => rw [← List.take_append_drop (buf.length / 4 * 4) buf]
  rw [axisWords_append _ (by rwa [List.length_take, min_eq_left hle]), hrest, List.append_nil]

/-! ## One cycle of the channel -/

namespace Channel

/-- A period that is over is not offered again to a core that takes words. -/
def InTime (c : Cycle) (ch : Channel) : Prop :=
  match ch.descriptor with
  | .none | .first _ => True
  | .again age _ => c.offer = true → 16 ∣ ch.issued.length ∧ age < 50

/-- What holds of the channel in any case; `words` are those of the writes. -/
structure Ok (words : List Word) (ch : Channel) : Prop where
  chunks : ∀ ws ∈ ch.chunks, ws ≠ []
  pos : ∀ pos, ch.descriptor = .first pos → pos < ch.txBuf.length
  plan : ch.issued ++ ch.chunks.flatten = words

/-- The core has taken the words issued once so far, and its phase follows from that. -/
def Once (busy : ℕ) (taken : List Word) (ch : Channel) : Prop :=
  match ch.descriptor with
  | .none => taken = ch.issued
  | .first pos => ∃ pre, ch.issued = pre ++ ch.txBuf ∧ taken = pre ++ ch.txBuf.take pos
  | .again age _ =>
    taken = ch.issued ∧ busy = if 16 ∣ ch.issued.length ∧ age < 50 then age + 1 else 0

/-- The core has taken more. -/
def Over (taken : List Word) (ch : Channel) : Prop :=
  match ch.descriptor with
  | .none | .again _ _ => ch.issued.length < taken.length
  | .first pos => ch.issued.length < taken.length + (ch.txBuf.length - pos)

/-- What a cycle can do to the channel. -/
inductive Nexted (hs : Bool) (ch : Channel) : Channel → Prop
  | rest : ch.descriptor = .none → Nexted hs ch ch
  | issue (txBuf : List Word) (chunks : List (List Word)) : ch.descriptor = .none →
      ch.chunks = txBuf :: chunks → Nexted hs ch ⟨chunks, txBuf, .first 0, ch.issued ++ txBuf⟩
  | wait (pos : ℕ) : ch.descriptor = .first pos → hs = false → Nexted hs ch ch
  | word (pos : ℕ) : ch.descriptor = .first pos → hs = true → pos + 1 ≠ ch.txBuf.length →
      Nexted hs ch { ch with descriptor := .first (pos + 1) }
  | complete (pos : ℕ) : ch.descriptor = .first pos → hs = true → pos + 1 = ch.txBuf.length →
      Nexted hs ch { ch with descriptor := .again 0 0 }
  | terminate (age pos : ℕ) : ch.descriptor = .again age pos →
      Nexted hs ch { ch with descriptor := .none }
  | goOn (age pos pos' : ℕ) : ch.descriptor = .again age pos →
      Nexted hs ch { ch with descriptor := .again (age + 1) pos' }

theorem nexted (c : Cycle) (hs : Bool) (ch : Channel) : Nexted hs ch (ch.next c hs) := by
  unfold next
  split
  next hd =>
    split
    · split
      next => exact .rest hd
      next txBuf chunks hch => exact .issue txBuf chunks hd hch
    · exact .rest hd
  next pos hd =>
    split
    next hhs =>
      split
      next hlast => exact .complete pos hd hhs hlast
      next hlast => exact .word pos hd hhs hlast
    next hhs => exact .wait pos hd (by simpa using hhs)
  next age pos hd =>
    split
    · exact .terminate age pos hd
    · exact .goOn age pos _ hd

variable {words taken : List Word} {busy busy' : ℕ} {c : Cycle} {hs : Bool} {ch ch' : Channel}

theorem Ok.next (h : ch.Ok words) (hn : Nexted hs ch ch') : ch'.Ok words := by
  obtain ⟨hchunks, hpos, hplan⟩ := h
  rcases hn with hd | ⟨txBuf, chunks, hd, hch⟩ | ⟨pos, hd, -⟩ | ⟨pos, hd, -, hlast⟩ | ⟨pos, hd, -, -⟩ |
    ⟨age, pos, hd⟩ | ⟨age, pos, pos', hd⟩
  · exact ⟨hchunks, hpos, hplan⟩
  · rw [hch] at hchunks hplan
    obtain ⟨hne, hrest⟩ := List.forall_mem_cons.1 hchunks
    refine ⟨hrest, fun pos hfirst => ?_, ?_⟩
    · cases hfirst
      exact List.length_pos_iff.2 hne
    · rw [List.append_assoc, ← List.flatten_cons]
      exact hplan
  · exact ⟨hchunks, hpos, hplan⟩
  · refine ⟨hchunks, fun pos' hfirst => ?_, hplan⟩
    cases hfirst
    have hlt := hpos pos hd
    change pos + 1 < ch.txBuf.length
    omega
  · exact ⟨hchunks, fun _ hfirst => Descriptor.noConfusion hfirst, hplan⟩
  · exact ⟨hchunks, fun _ hfirst => Descriptor.noConfusion hfirst, hplan⟩
  · exact ⟨hchunks, fun _ hfirst => Descriptor.noConfusion hfirst, hplan⟩

/-- The word that is at hand extends what the core has of the chunk. -/
theorem take_succ_tdata {pos : ℕ} (hd : ch.descriptor = .first pos) (hlt : pos < ch.txBuf.length) :
    ch.txBuf.take (pos + 1) = ch.txBuf.take pos ++ [ch.tdata] := by
  have hword : ch.tdata = ch.txBuf.getD pos 0 := by rw [tdata, hd]
  rw [hword, List.take_succ_eq_append_getElem hlt, List.getD_eq_getElem _ _ hlt]

theorem Over.next (hok : ch.Ok words) (h : ch.Over taken) (hn : Nexted hs ch ch') :
    ch'.Over (taken ++ if hs then [ch.tdata] else []) := by
  have hgrow : taken.length ≤ (taken ++ if hs then [ch.tdata] else []).length := by
    rw [List.length_append]
    exact Nat.le_add_right _ _
  rcases hn with hd | ⟨txBuf, chunks, hd, hch⟩ | ⟨pos, hd, -⟩ | ⟨pos, hd, hhs, hlast⟩ |
    ⟨pos, hd, hhs, hlast⟩ | ⟨age, pos, hd⟩ | ⟨age, pos, pos', hd⟩
  · simp only [Over, hd] at h ⊢
    exact h.trans_le hgrow
  · simp only [Over, hd] at h ⊢
    have hlen : (ch.issued ++ txBuf).length = ch.issued.length + txBuf.length := List.length_append
    omega
  · simp only [Over, hd] at h ⊢
    omega
  · have hlt := hok.pos pos hd
    simp only [Over, hd] at h ⊢
    rw [if_pos hhs, List.length_append, List.length_singleton]
    omega
  · simp only [Over, hd] at h ⊢
    rw [if_pos hhs, List.length_append, List.length_singleton]
    omega
  · simp only [Over, hd] at h ⊢
    exact h.trans_le hgrow
  · simp only [Over, hd] at h ⊢
    exact h.trans_le hgrow

/-- The core's phase after a cycle. -/
def nextBusy (valid : Bool) (taken : List Word) (busy : ℕ) : ℕ :=
  if busy = 0 then (if valid = true ∧ taken.length % 16 = 15 then 1 else 0)
  else if busy = 50 then 0 else busy + 1

theorem Once.again_eq {age pos : ℕ} (h : ch.Once busy taken) (hd : ch.descriptor = .again age pos) :
    taken = ch.issued ∧ busy = if 16 ∣ ch.issued.length ∧ age < 50 then age + 1 else 0 := by
  simpa only [Once, hd] using h

theorem tvalid_none (hd : ch.descriptor = .none) : ch.tvalid c ≠ true := by
  rw [tvalid, hd]
  exact Bool.noConfusion

theorem tvalid_again {age pos : ℕ} (hd : ch.descriptor = .again age pos) : ch.tvalid c = c.offer := by
  rw [tvalid, hd]

/-- In time the core takes nothing of a period that is over. -/
theorem Once.quiet {age pos : ℕ} (h : ch.Once busy taken) (hin : ch.InTime c)
    (hd : ch.descriptor = .again age pos) : ¬(ch.tvalid c = true ∧ busy = 0) := by
  rintro ⟨hv, hb⟩
  rw [tvalid_again hd] at hv
  simp only [InTime, hd] at hin
  have hbusy := (h.again_eq hd).2
  rw [if_pos (hin hv)] at hbusy
  omega

theorem nextBusy_again {age pos : ℕ} (h : ch.Once busy taken) (hin : ch.InTime c)
    (hd : ch.descriptor = .again age pos) : nextBusy (ch.tvalid c) taken busy =
      if 16 ∣ ch.issued.length ∧ age + 1 < 50 then age + 1 + 1 else 0 := by
  have hbusy := (h.again_eq hd).2
  by_cases hcond : 16 ∣ ch.issued.length ∧ age < 50
  · rw [if_pos hcond] at hbusy
    rw [nextBusy, if_neg (by omega), hbusy]
    by_cases h50 : age + 1 = 50
    · rw [if_pos h50, if_neg (by omega)]
    · rw [if_neg h50, if_pos ⟨hcond.1, by omega⟩]
  · rw [if_neg hcond] at hbusy
    simp only [InTime, hd] at hin
    have hquiet : ch.tvalid c ≠ true := by
      rw [tvalid_again hd]
      exact fun hoffer => hcond (hin hoffer)
    rw [nextBusy, if_pos hbusy, if_neg (fun hv => hquiet hv.1), if_neg (fun hc => hcond ⟨hc.1, by omega⟩)]

/-- With the last word of the period in, the core is busy just if it ended a block. -/
theorem nextBusy_complete {valid : Bool} {issued : List Word} (hv : valid = true) (hb : busy = 0)
    (hlen : issued.length = taken.length + 1) : nextBusy valid taken busy =
      if 16 ∣ issued.length ∧ 0 < 50 then 0 + 1 else 0 := by
  rw [nextBusy, if_pos hb, hlen]
  refine if_congr ?_ rfl rfl
  constructor
  · rintro ⟨-, h15⟩
    omega
  · rintro ⟨h16, -⟩
    exact ⟨hv, by omega⟩

theorem Once.next (hok : ch.Ok words) (h : ch.Once busy taken) (hin : ch.InTime c)
    (hhs : hs = true ↔ ch.tvalid c = true ∧ busy = 0) (hn : Nexted hs ch ch') :
    ch'.Once (nextBusy (ch.tvalid c) taken busy) (taken ++ if hs then [ch.tdata] else []) := by
  rcases hn with hd | ⟨txBuf, chunks, hd, -⟩ | ⟨pos, hd, hstall⟩ | ⟨pos, hd, htake, -⟩ |
    ⟨pos, hd, htake, hlast⟩ | ⟨age, pos, hd⟩ | ⟨age, pos, pos', hd⟩
  case rest =>
    have hno : hs ≠ true := fun hc => tvalid_none hd (hhs.1 hc).1
    simp only [Once, hd] at h ⊢
    rw [if_neg hno, List.append_nil, h]
  case issue =>
    have hno : hs ≠ true := fun hc => tvalid_none hd (hhs.1 hc).1
    simp only [Once, hd] at h ⊢
    rw [if_neg hno, List.append_nil, h]
    exact ⟨ch.issued, rfl, (List.append_nil _).symm⟩
  case wait =>
    simp only [Once, hd] at h ⊢
    rwa [if_neg (by simp [hstall]), List.append_nil]
  case word =>
    simp only [Once, hd] at h ⊢
    obtain ⟨pre, hissued, rfl⟩ := h
    refine ⟨pre, hissued, ?_⟩
    rw [if_pos htake, List.append_assoc, take_succ_tdata hd (hok.pos pos hd)]
  case complete =>
    obtain ⟨hv, hidle⟩ := hhs.1 htake
    simp only [Once, hd] at h
    obtain ⟨pre, hissued, rfl⟩ := h
    have hall : pre ++ ch.txBuf.take pos ++ [ch.tdata] = ch.issued := by
      rw [List.append_assoc, ← take_succ_tdata hd (hok.pos pos hd), hlast, List.take_length, hissued]
    have hlen : ch.issued.length = (pre ++ ch.txBuf.take pos).length + 1 := by
      rw [← hall, List.length_append, List.length_singleton]
    refine ⟨?_, nextBusy_complete hv hidle hlen⟩
    rw [if_pos htake]
    exact hall
  case terminate =>
    have hno : hs ≠ true := fun hc => h.quiet hin hd (hhs.1 hc)
    change _ = ch.issued
    rw [if_neg hno, List.append_nil, (h.again_eq hd).1]
  case goOn =>
    have hno : hs ≠ true := fun hc => h.quiet hin hd (hhs.1 hc)
    refine ⟨?_, nextBusy_again h hin hd⟩
    rw [if_neg hno, List.append_nil, (h.again_eq hd).1]

/-- Late, the core takes the first word of the period over again. -/
theorem Once.late (h : ch.Once busy taken) (hin : ¬ch.InTime c)
    (hhs : hs = true ↔ ch.tvalid c = true ∧ busy = 0) (hn : Nexted hs ch ch') :
    ch'.Over (taken ++ if hs then [ch.tdata] else []) := by
  rcases hd : ch.descriptor with _ | pos | ⟨age, pos⟩
  · exact absurd (by simp only [InTime, hd]) hin
  · exact absurd (by simp only [InTime, hd]) hin
  · simp only [InTime, hd] at hin
    obtain ⟨hoffer, hcond⟩ := Classical.not_imp.1 hin
    obtain ⟨htaken, hbusy⟩ := h.again_eq hd
    rw [if_neg hcond] at hbusy
    have htake : hs = true := hhs.2 ⟨by rwa [tvalid_again hd], hbusy⟩
    have hmore : ch.issued.length < (taken ++ if hs then [ch.tdata] else []).length := by
      rw [if_pos htake, htaken, List.length_append, List.length_singleton]
      exact Nat.lt_succ_self _
    rcases hn with hd' | ⟨_, _, hd', -⟩ | ⟨_, hd', -⟩ | ⟨_, hd', -⟩ | ⟨_, hd', -⟩ | _ | _
    case terminate | goOn => exact hmore
    all_goals
      rw [hd] at hd'
      cases hd'

end Channel

/-! ## The system -/

namespace System

/-- The registers and the channel at the start of cycle `n`. -/
def run (writes : List (List Byte)) (c : ℕ → Cycle) : ℕ → System :=
  Clocked.run posedge (start writes) c

/-- What the core's ports see. -/
def traffic (writes : List (List Byte)) (c : ℕ → Cycle) (n : ℕ) : StreamIn :=
  (run writes c n).streamIn (c n)

variable (writes : List (List Byte)) (c : ℕ → Cycle)

theorem ip_eq_run (n : ℕ) : (run writes c n).ip = Sha256Stream.run (traffic writes c) n :=
  Clocked.eq_run (s := fun n => (run writes c n).ip) rfl (fun _ => rfl) n

theorem live (n : ℕ) :
    (Sha256Stream.run (traffic writes c) n).sha256RstN (traffic writes c n) = true :=
  Sha256Stream.live_of_no_write (fun _ => ⟨rfl, rfl, rfl⟩) n

/-- TVALID and TREADY in cycle `n`. -/
def handshake (n : ℕ) : Bool :=
  (Sha256Stream.run (traffic writes c) n).handshake (traffic writes c n)

theorem handshake_iff (n : ℕ) : handshake writes c n = true ↔
    (run writes c n).channel.tvalid (c n) = true ∧ Sha256Stream.age (traffic writes c) n = 0 :=
  Sha256Stream.handshake_iff (live writes c) n

theorem nexted (n : ℕ) : (run writes c n).channel.Nexted (handshake writes c n)
    (run writes c (n + 1)).channel := by
  have hnext : (run writes c (n + 1)).channel =
      (run writes c n).channel.next (c n) (handshake writes c n) := by
    rw [handshake, ← ip_eq_run]
    rfl
  rw [hnext]
  exact Channel.nexted _ _ _

theorem start_ok : (start writes).channel.Ok (writes.flatMap axisWords) := by
  refine ⟨fun ws hws => ?_, fun _ hfirst => Descriptor.noConfusion hfirst, ?_⟩
  · obtain ⟨buf, -, hmem⟩ := List.mem_flatMap.1 hws
    exact chunks_ne_nil (dvd_zero 4) (Nat.dvd_mul_left 4 _) (Nat.div_mul_le_self _ _) ws hmem
  · change (writes.flatMap fun buf => chunks buf (.start buf.length)).flatten = _
    rw [← List.flatMap_id, List.flatMap_assoc]
    exact List.flatMap_congr fun buf _ => List.flatMap_id.trans (chunks_start buf)

theorem run_ok (n : ℕ) : (run writes c n).channel.Ok (writes.flatMap axisWords) := by
  induction n with
  | zero => exact start_ok writes
  | succ n ih => exact ih.next (nexted writes c n)

/-- The words the core has taken before cycle `n`. -/
def taken : ℕ → List Word := Sha256Stream.beats (traffic writes c)

theorem taken_succ (n : ℕ) : taken writes c (n + 1) = taken writes c n ++
    if handshake writes c n then [(run writes c n).channel.tdata] else [] :=
  Sha256Stream.beats_succ (live writes c) n

theorem run_once (n : ℕ) (h : ∀ m < n, (run writes c m).channel.InTime (c m)) :
    (run writes c n).channel.Once (Sha256Stream.age (traffic writes c) n) (taken writes c n) := by
  induction n with
  | zero => rfl
  | succ n ih =>
    rw [taken_succ, Sha256Stream.age_succ (live writes c)]
    exact (ih fun m hm => h m (by omega)).next (run_ok writes c n) (h n (Nat.lt_succ_self n))
      (handshake_iff writes c n) (nexted writes c n)

theorem run_over (n : ℕ) (h : ∃ m < n, ¬(run writes c m).channel.InTime (c m)) :
    (run writes c n).channel.Over (taken writes c n) := by
  induction n with
  | zero =>
    obtain ⟨m, hm, -⟩ := h
    omega
  | succ n ih =>
    rw [taken_succ]
    by_cases hbefore : ∃ m < n, ¬(run writes c m).channel.InTime (c m)
    · exact (ih hbefore).next (run_ok writes c n) (nexted writes c n)
    · have hlate : ¬(run writes c n).channel.InTime (c n) := by
        obtain ⟨m, hm, hlate⟩ := h
        rcases Nat.lt_succ_iff_lt_or_eq.1 hm with hm | rfl
        · exact absurd ⟨m, hm, hlate⟩ hbefore
        · exact hlate
      have honce := run_once writes c n fun m hm => by
        by_contra hno
        exact hbefore ⟨m, hm, hno⟩
      exact honce.late hlate (handshake_iff writes c n) (nexted writes c n)

/-- When all descriptors are issued and terminated, the core has taken the words of the
writes once and in order if and only if each of them was terminated in time. -/
theorem chunks_once_iff {n : ℕ} (hdone : (run writes c n).channel.descriptor = .none ∧
      (run writes c n).channel.chunks = []) :
    taken writes c n = writes.flatMap axisWords ↔
      ∀ m < n, (run writes c m).channel.InTime (c m) := by
  have hissued : (run writes c n).channel.issued = writes.flatMap axisWords := by
    have hplan := (run_ok writes c n).plan
    rwa [hdone.2, List.flatten_nil, List.append_nil] at hplan
  constructor
  · intro hall
    by_contra hlate
    push Not at hlate
    have hover := run_over writes c n hlate
    simp only [Channel.Over, hdone.1] at hover
    rw [hall, hissued] at hover
    exact absurd hover (lt_irrefl _)
  · intro hin
    have honce := run_once writes c n hin
    simp only [Channel.Once, hdone.1] at honce
    rw [honce, hissued]

instance : (c : Cycle) → (ch : Channel) → Decidable (ch.InTime c)
  | _, ⟨_, _, .none, _⟩ | _, ⟨_, _, .first _, _⟩ => isTrue trivial
  | c, ⟨_, _, .again age _, issued⟩ =>
    inferInstanceAs (Decidable (c.offer = true → 16 ∣ issued.length ∧ age < 50))

/-- One word to write. -/
theorem start_oneWord : start [[1, 2, 3, 4]] = ⟨⟨[[0x04030201]], [], .none, []⟩, .reset⟩ := by
  have hchunks : chunks [1, 2, 3, 4] (.start 4) = [[0x04030201]] := by
    rw [chunks, if_pos (by decide), chunks, if_neg (by decide)]
    rfl
  rw [start, List.flatMap_singleton]
  exact congrArg (fun ch => System.mk ⟨ch, [], .none, []⟩ .reset) hchunks

/-- The word goes in in cycle 1; the callback comes at once. -/
def prompt (n : ℕ) : Cycle := ⟨n = 1, n = 0, n = 2, 0, false, false⟩

theorem chunks_once_iff_prompt : taken [[1, 2, 3, 4]] prompt 3 = [[1, 2, 3, 4]].flatMap axisWords := by
  refine (chunks_once_iff [[1, 2, 3, 4]] prompt (n := 3) ?_).2 ?_
  · rw [run, start_oneWord]
    decide +kernel
  · rw [run, start_oneWord]
    decide +kernel

/-- The channel always has a word at hand; the callback comes a cycle later. -/
def tardy (n : ℕ) : Cycle := ⟨true, n = 0, n = 3, 0, false, false⟩

theorem chunk_sent_again : ¬ ∀ writes c n,
    (run writes c n).channel.descriptor = .none ∧ (run writes c n).channel.chunks = [] →
      taken writes c n = writes.flatMap axisWords := by
  intro h
  have hdone : (run [[1, 2, 3, 4]] tardy 4).channel.descriptor = .none ∧
      (run [[1, 2, 3, 4]] tardy 4).channel.chunks = [] := by
    rw [run, start_oneWord]
    decide +kernel
  have htraffic : traffic [[1, 2, 3, 4]] tardy = fun n =>
      (Clocked.run posedge ⟨⟨[[0x04030201]], [], .none, []⟩, .reset⟩ tardy n).streamIn (tardy n) := by
    funext n
    rw [traffic, run, start_oneWord]
  have htaken := h _ _ 4 hdone
  rw [taken, htraffic] at htaken
  revert htaken
  decide +kernel

end System

end ZynqDriver

end ZynqSha256
