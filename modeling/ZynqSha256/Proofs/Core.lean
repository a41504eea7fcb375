import ZynqSha256.Proofs.Timing

/-! The refinement: the registers of module sha256 hold the chaining value of
the words it has taken, or are on their way to it. -/

namespace ZynqSha256.Sha256

open Fips180 (Word Hash chain)

/-! ## A block under way -/

/-- `n` words of the schedule of `b` have gone into a block that started from
the chaining value of `P`. -/
structure Mid (s : Sha256) (P b : List Word) (n : ℕ) : Prop where
  hash : s.chunkCompress.H8 = chain P
  sched : s.chunkProcess.Holds (Fips180.w b) n
  vars : s.chunkCompress.abcdefghNext s.compressStart =
    Fips180.rounds Fips180.k (Fips180.w b) (chain P) n

/-- What the registers say once the words `A` have been taken. -/
def Repr (s : Sha256) (A : List Word) : Prop :=
  match s.state with
  | .idle => A.length % 16 = 0 ∧ s.chunkCompress.H8 = chain A
  | .load => ∃ P b, A = P ++ b ∧ P.length % 16 = 0 ∧ b.length = s.counter.toNat ∧
      s.Mid P b s.counter.toNat
  | .proc => ∃ P b, A = P ++ b ∧ P.length % 16 = 0 ∧ b.length = 16 ∧ s.Mid P b s.counter.toNat
  | .finish => A.length % 16 = 0 ∧ s.chunkCompress.H8 = chain A

theorem kO_eq {c : BitVec 8} (h : c.toNat < 64) : kO true (c.extractLsb 5 0) = Fips180.k c.toNat := by
  have hrom : ∀ n, (hn : n < 64) → romK[n] = Fips180.k n := by decide
  have haddr : (c.extractLsb 5 0).toNat = c.toNat := by
    rw [BitVec.extractLsb_toNat]
    simp
    omega
  simp only [kO, if_pos]
  exact (hrom _ (c.extractLsb 5 0).isLt).trans (congrArg _ haddr)

variable {i : Sha256In} {s : Sha256} {P b : List Word} {n : ℕ}

/-- Words of a schedule that are already fixed do not depend on the words still to come. -/
theorem Mid.extend (h : s.Mid P b b.length) (hb : b.length < 16) (x : Word) :
    s.Mid P (b ++ [x]) b.length := by
  have hw : ∀ t < b.length, Fips180.w b t = Fips180.w (b ++ [x]) t := by
    intro t ht
    rw [Fips180.w_of_lt b (by omega), Fips180.w_of_lt (b ++ [x]) (by omega),
      List.getD_eq_getElem?_getD, List.getD_eq_getElem?_getD, List.getElem?_append_left ht]
  refine ⟨h.hash, ⟨fun j hj hn => ?_, fun hn => ?_, fun hn => ?_⟩, ?_⟩
  · rw [h.sched.W j hj hn, hw _ (by omega)]
  · rw [h.sched.s0 hn, hw _ (by omega)]
  · rw [h.sched.s1 hn, hw _ (by omega)]
  · rw [h.vars, Fips180.rounds_congr (chain P) (fun _ _ => rfl) hw]

theorem mid_zero (hcs : s.compressStart = false) (hh : s.chunkCompress.H8 = chain P) :
    s.Mid P [] 0 := by
  refine ⟨hh, s.chunkProcess.holds_zero _, ?_⟩
  rw [hcs, ChunkCompress.abcdefghNext_false, hh]
  rfl

/-- A valid cycle that does not end the block puts one more word through both pipelines. -/
theorem Mid.posedge (h : s.Mid P b n) (hr : i.rstN = true) (hv : s.wOutVaild i = true)
    (hu : s.nextStateIsFinish i = false) (hcs : (s.posedge i).compressStart = true)
    (hn : s.counter.toNat = n) (hlt : n < 64) (hw : s.wOut i = Fips180.w b n) :
    (s.posedge i).Mid P b (n + 1) := by
  have hk : (s.chunkCompressIn i).kIn = Fips180.k n := by
    rw [← hn, ← kO_eq (hn ▸ hlt)]
    simp only [chunkCompressIn, hr]
    rfl
  refine ⟨?_, ?_, ?_⟩
  · rw [posedge_chunkCompress hr, ChunkCompress.posedge_H8 hr]
    simp only [ChunkCompress.h8Next, chunkCompressIn, hu]
    exact h.hash
  · rw [posedge_chunkProcess hr]
    exact h.sched.posedge hr hv hw
  · rw [hcs, posedge_chunkCompress hr, ChunkCompress.abcdefghNext_posedge hr hv]
    exact congr (congr (congrArg _ h.vars) hk) hw

/-- A stalled cycle changes nothing. -/
theorem Mid.stall (h : s.Mid P b n) (hr : i.rstN = true) (hv : s.wOutVaild i = false)
    (hu : s.nextStateIsFinish i = false) (hcs : s.compressStart = true)
    (hcs' : (s.posedge i).compressStart = true) : (s.posedge i).Mid P b n := by
  refine ⟨?_, ?_, ?_⟩
  · rw [posedge_chunkCompress hr, ChunkCompress.posedge_H8 hr]
    simp only [ChunkCompress.h8Next, chunkCompressIn, hu]
    exact h.hash
  · rw [posedge_chunkProcess hr, ChunkProcess.posedge_idle hr hv]
    exact h.sched
  · rw [hcs', posedge_chunkCompress hr, ChunkCompress.abcdefghNext_posedge_idle hr hv, ← hcs]
    exact h.vars

/-! ## One cycle -/

theorem posedge_H8 (hr : i.rstN = true) (hu : s.nextStateIsFinish i = false) :
    (s.posedge i).chunkCompress.H8 = s.chunkCompress.H8 := by
  rw [posedge_chunkCompress hr, ChunkCompress.posedge_H8 hr]
  simp [ChunkCompress.h8Next, chunkCompressIn, hu]

/-- In PROC/64 the finished rounds are added to the hash words. -/
theorem Mid.posedge_finish (h : s.Mid P b 64) (hr : i.rstN = true)
    (hu : s.nextStateIsFinish i = true) :
    (s.posedge i).chunkCompress.H8 = Fips180.compress (chain P) b := by
  rw [posedge_chunkCompress hr, ChunkCompress.posedge_H8 hr]
  simp only [ChunkCompress.h8Next, chunkCompressIn, hu, if_true]
  rw [h.hash, h.vars]
  rfl

theorem wOut_load (hp : s.nextStateIsProc i = false) : s.wOut i = datMsbI i.datLsbI := by
  simp [wOut, ChunkProcess.wOut, ChunkProcess.wIn, chunkProcessIn, hp]

theorem Mid.wOut_proc (h : s.Mid P b n) (hn : 16 ≤ n) (hp : s.nextStateIsProc i = true) :
    s.wOut i = Fips180.w b n := by
  have hw : s.wOut i = s.chunkProcess.wNew := by
    simp [wOut, ChunkProcess.wOut, ChunkProcess.wIn, chunkProcessIn, hp]
  rw [hw, h.sched.wNew_eq hn, ← Fips180.w_rec b hn]

theorem Repr.of_idle {A : List Word} (hs : s.state = .idle) (hA : A.length % 16 = 0)
    (hh : s.chunkCompress.H8 = chain A) : s.Repr A := by
  simpa [Repr, hs] using ⟨hA, hh⟩

theorem Repr.of_load {A : List Word} (hs : s.state = .load) (hA : A = P ++ b)
    (hP : P.length % 16 = 0) (hb : b.length = s.counter.toNat) (hm : s.Mid P b s.counter.toNat) :
    s.Repr A := by
  simpa [Repr, hs] using ⟨P, b, hA, hP, hb, hm⟩

theorem Repr.of_proc {A : List Word} (hs : s.state = .proc) (hA : A = P ++ b)
    (hP : P.length % 16 = 0) (hb : b.length = 16) (hm : s.Mid P b s.counter.toNat) :
    s.Repr A := by
  simpa [Repr, hs] using ⟨P, b, hA, hP, hb, hm⟩

theorem Repr.of_finish {A : List Word} (hs : s.state = .finish) (hA : A.length % 16 = 0)
    (hh : s.chunkCompress.H8 = chain A) : s.Repr A := by
  simpa [Repr, hs] using ⟨hA, hh⟩

theorem reset_repr : reset.Repr [] := Repr.of_idle rfl rfl rfl

/-- A word that enters a block with room left. -/
theorem Mid.take (h : s.Mid P b b.length) (hb : b.length < 16) (hr : i.rstN = true)
    (hd : i.datVaildI = true) (hst : s.stateNext i = .load) (hn : s.counter.toNat = b.length) :
    (s.posedge i).Mid P (b ++ [datMsbI i.datLsbI]) (b.length + 1) := by
  have hp : s.nextStateIsProc i = false := by simp [nextStateIsProc, hst]
  have hw : Fips180.w (b ++ [datMsbI i.datLsbI]) b.length = datMsbI i.datLsbI := by
    rw [Fips180.w_of_lt _ hb]
    simp
  refine (h.extend hb (datMsbI i.datLsbI)).posedge hr ?_ ?_ ?_ hn (by omega) ?_
  · simp [hd]
  · simp [nextStateIsFinish, hst]
  · simp [compressStart, stateIsLoad, posedge_state hr, hst]
  · rw [wOut_load hp, hw]

/-- A word of the schedule, from the hand-over to the sixty-fourth. -/
theorem Mid.schedule (h : s.Mid P b s.counter.toNat) (hr : i.rstN = true)
    (hst : s.stateNext i = .proc) (h16 : 16 ≤ s.counter.toNat) (h64 : s.counter.toNat < 64) :
    (s.posedge i).Mid P b (s.counter.toNat + 1) := by
  have hp : s.nextStateIsProc i = true := by simp [nextStateIsProc, hst]
  have hcs : (s.posedge i).compressStart = true := by
    simp [compressStart, stateIsProc, posedge_state hr, hst]
  exact h.posedge hr (by simp [hp]) (by simp [nextStateIsFinish, hst]) hcs rfl h64
    (h.wOut_proc h16 hp)

/-- Between blocks the hash words stay. -/
theorem repr_of_rest {A : List Word} (hr : i.rstN = true) (hst : s.stateNext i = .idle)
    (hA : A.length % 16 = 0) (hh : s.chunkCompress.H8 = chain A) : (s.posedge i).Repr A := by
  refine Repr.of_idle ((posedge_state hr).trans hst) hA ?_
  rw [posedge_H8 hr (by simp [nextStateIsFinish, hst]), hh]

theorem repr_posedge {A : List Word} (hr : i.rstN = true) (hok : s.CounterOk) (h : s.Repr A) :
    (s.posedge i).Repr (A ++ if s.accepts i then [datMsbI i.datLsbI] else []) := by
  have hst := posedge_state (s := s) hr
  have hct := posedge_counter (s := s) hr
  have hacc := accepts_iff (i := i) hok
  unfold Repr at h
  rcases control_cases hr hok with ⟨h0, hd, h1, h2⟩ | ⟨h0, hd, h1, h2⟩ | ⟨h0, hc, hd, h1, h2⟩ |
    ⟨h0, hc, hd, h1, h2⟩ | ⟨h0, hc, h1, h2⟩ | ⟨h0, hc, h1, h2⟩ | ⟨h0, hc, h1, -⟩ | ⟨h0, h1, -⟩
  all_goals rw [h0] at h
  · -- IDLE, no word
    rw [if_neg (by simp [hacc, hd]), List.append_nil]
    exact repr_of_rest hr h1 h.1 h.2
  · -- IDLE, the first word
    have hm : s.Mid A [] 0 := mid_zero (by simp [compressStart, stateIsLoad, stateIsProc, h0]) h.2
    have hzero : s.counter.toNat = 0 := by
      have : s.counter = 0 := by simpa [CounterOk, h0] using hok
      rw [this]
      rfl
    have hone : (s.posedge i).counter.toNat = 1 := by
      rw [hct, h2]
      rfl
    rw [if_pos (hacc.2 ⟨hr, hd, by rw [phase_of_idle h0]; rfl⟩)]
    refine Repr.of_load (hst.trans h1) rfl h.1 (by rw [hone]; rfl) ?_
    rw [hone]
    exact Mid.take hm (by decide) hr hd h1 hzero
  · -- LOAD, no word
    obtain ⟨P, b, hA, hP, hb, hm⟩ := h
    rw [if_neg (by simp [hacc, hd]), List.append_nil]
    have hcs' : (s.posedge i).compressStart = true := by
      simp [compressStart, stateIsLoad, hst, h1]
    refine Repr.of_load (hst.trans h1) hA hP (by rw [hct, h2]; exact hb) ?_
    rw [hct, h2]
    exact hm.stall hr (by simp [hd, nextStateIsProc, h1]) (by simp [nextStateIsFinish, h1])
      (by simp [compressStart, stateIsLoad, h0]) hcs'
  · -- LOAD, one more word
    obtain ⟨P, b, hA, hP, hb, hm⟩ := h
    have hsucc : (s.posedge i).counter.toNat = b.length + 1 := by
      rw [hct, h2, toNat_succ (by omega), hb]
    rw [if_pos (hacc.2 ⟨hr, hd, by rw [phase_of_load h0 hc]; rfl⟩)]
    refine Repr.of_load (hst.trans h1) (by rw [hA, List.append_assoc]) hP
      (by rw [hsucc, List.length_append]; rfl) ?_
    rw [hsucc]
    rw [← hb] at hm
    exact hm.take (by omega) hr hd h1 hb.symm
  · -- LOAD/16, the hand-over
    obtain ⟨P, b, hA, hP, hb, hm⟩ := h
    rw [if_neg (by simp [hacc, phase_of_full h0 hc, Phase.age]), List.append_nil]
    refine Repr.of_proc (hst.trans h1) hA hP (by rw [hb, hc]) ?_
    rw [hct, h2, toNat_succ (by omega)]
    exact hm.schedule hr h1 (by omega) (by omega)
  · -- PROC, a schedule word
    obtain ⟨P, b, hA, hP, hb, hm⟩ := h
    have hproc := hok.of_proc h0
    rw [if_neg (by simp [hacc, phase_of_proc h0, Phase.age]), List.append_nil]
    refine Repr.of_proc (hst.trans h1) hA hP hb ?_
    rw [hct, h2, toNat_succ (by omega)]
    exact hm.schedule hr h1 (by omega) hc
  · -- PROC/64, the update of the hash words
    obtain ⟨P, b, rfl, hP, hb, hm⟩ := h
    rw [if_neg (by simp [hacc, phase_of_proc h0, Phase.age]), List.append_nil]
    rw [hc] at hm
    refine Repr.of_finish (hst.trans h1) (by rw [List.length_append]; omega) ?_
    rw [hm.posedge_finish hr (by simp [nextStateIsFinish, h1]), Fips180.chain_append_block hP hb]
  · -- FINISH
    rw [if_neg (by simp [hacc, phase_of_finish h0, Phase.age]), List.append_nil]
    exact repr_of_rest hr h1 h.1 h.2

/-! ## Runs -/

theorem run_repr (i : ℕ → Sha256In) (n : ℕ) : (run i n).Repr ((accepted i n).map datMsbI) := by
  refine Clocked.logSince_invariant (s := run i) (J := fun s l => s.Repr (l.map datMsbI))
    reset_repr (fun n hn => ?_) (fun n l hn hl => ?_) n
  · rw [run_succ, posedge_of_reset hn]
    exact reset_repr
  · have h := repr_posedge (i := i n) hn (run_counterOk i n) hl
    rw [run_succ, List.map_append]
    split at h
    next ha => simpa [ha] using h
    next ha => simpa [ha] using h

/-- Out of the busy cycles the hash words are the chaining value of the words taken. -/
theorem Repr.hash_of_not_busy {A : List Word} (h : s.Repr A) (hr : i.rstN = true)
    (hok : s.CounterOk) (hb : s.hashBusyO i = false) : s.chunkCompress.H8 = chain A := by
  have hage : s.phase.age = 0 := by
    by_contra hne
    rw [(hashBusyO_iff hr hok).2 (Nat.pos_of_ne_zero hne)] at hb
    cases hb
  unfold Repr at h
  cases hs : s.state with
  | idle => rw [hs] at h; exact h.2
  | load =>
    rw [hs] at h
    obtain ⟨P, b, rfl, hP, hlen, hm⟩ := h
    have hlt : b.length < 16 := by
      have hc := hok.of_load hs
      have hne : s.counter.toNat ≠ 16 := by
        intro h16
        rw [phase_of_full hs h16] at hage
        cases hage
      omega
    rw [Fips180.chain_append_short hP hlt]
    exact hm.hash
  | proc => rw [phase_of_proc hs] at hage; cases hage
  | finish => rw [phase_of_finish hs] at hage; cases hage

/-- In the busy cycles before FINISH the hash words are those before the block. -/
theorem Repr.hash_of_busy {A : List Word} (h : s.Repr A) (hr : i.rstN = true)
    (hok : s.CounterOk) (hb : s.hashBusyO i = true) (hne : s.state ≠ .finish) :
    s.chunkCompress.H8 = chain (A.take (A.length - 16)) := by
  have hage := (hashBusyO_iff hr hok).1 hb
  have hblock : ∃ P b : List Word, A = P ++ b ∧ b.length = 16 ∧ s.chunkCompress.H8 = chain P := by
    unfold Repr at h
    cases hs : s.state with
    | idle => rw [phase_of_idle hs] at hage; cases hage
    | load =>
      rw [hs] at h
      obtain ⟨P, b, hA, -, hlen, hm⟩ := h
      rcases Nat.lt_or_eq_of_le (hok.of_load hs).2 with hlt | heq
      · rw [phase_of_load hs hlt] at hage
        cases hage
      · exact ⟨P, b, hA, by omega, hm.hash⟩
    | proc =>
      rw [hs] at h
      obtain ⟨P, b, hA, -, hlen, hm⟩ := h
      exact ⟨P, b, hA, hlen, hm.hash⟩
    | finish => exact absurd hs hne
  obtain ⟨P, b, rfl, hlen, hh⟩ := hblock
  rw [hh, List.length_append, hlen, Nat.add_sub_cancel, List.take_left]

theorem Repr.hash_of_finish {A : List Word} (h : s.Repr A) (hs : s.state = .finish) :
    s.chunkCompress.H8 = chain A := by
  unfold Repr at h
  rw [hs] at h
  exact h.2

theorem hash_bytes {v : Hash} (h : s.chunkCompress.H8 = v) :
    s.hash.toList.flatMap Slices.leBytes = v.toList.flatMap Slices.beBytes := by
  rw [hash, ChunkCompress.hash, h, Vector.toList_map, List.flatMap_map]
  simp only [leBytes_lsbToMsb]

/-- The words a trace hands over: those valid while the core is not busy. -/
def taken (d : ℕ → Bool) (x : ℕ → Word) : ℕ → List Word :=
  Clocked.log (fun n => d n && !(run (high d x) n).hashBusyO (high d x n)) x

/-- Whatever the trace, the ports `hash0 … hash7` are the chaining value of the
complete blocks handed over; through the busy cycles before FINISH they keep the
value before the block, and show the new one from FINISH on. -/
theorem core_correct (d : ℕ → Bool) (x : ℕ → Word) (n : ℕ) :
    let s := run (high d x) n
    let A := (taken d x n).map datMsbI
    (s.hashBusyO (high d x n) = false →
      s.hash.toList.flatMap Slices.leBytes = (chain A).toList.flatMap Slices.beBytes) ∧
    (s.hashBusyO (high d x n) = true → s.state ≠ .finish →
      s.hash.toList.flatMap Slices.leBytes =
        (chain (A.take (A.length - 16))).toList.flatMap Slices.beBytes) ∧
    (s.state = .finish →
      s.hash.toList.flatMap Slices.leBytes = (chain A).toList.flatMap Slices.beBytes) := by
  intro s A
  have hrepr : s.Repr A := run_repr (high d x) n
  have hok : s.CounterOk := run_counterOk (high d x) n
  refine ⟨fun hb => hash_bytes ?_, fun hb hne => hash_bytes ?_, fun hs => hash_bytes ?_⟩
  · exact hrepr.hash_of_not_busy (i := high d x n) rfl hok hb
  · exact hrepr.hash_of_busy (i := high d x n) rfl hok hb hne
  · exact hrepr.hash_of_finish hs

end ZynqSha256.Sha256
