import ZynqSha256.Rtl.Stream
import ZynqSha256.Proofs.Inst

/-! AXI4-Stream: `data_vaild` is TVALID itself, so a beat that waits is shown to
the core in every busy cycle; the core takes it in the one cycle with TREADY. -/

namespace ZynqSha256.Sha256Stream

open Fips180 (Word chain)

/-- The registers at the start of cycle `n`, from reset. -/
def run (i : ℕ → StreamIn) : ℕ → Sha256Stream := Clocked.run posedge reset i

/-- What the wrapper drives into `sha256_inst` in cycle `n`. -/
def wires (i : ℕ → StreamIn) (n : ℕ) : Sha256In := (run i n).coreIn (i n)

/-- TVALID and TREADY. -/
def handshake (i : StreamIn) (s : Sha256Stream) : Bool := i.tvalid && s.tready i

/-- TDATA of the beats before cycle `n`, since `sha256_rst_n` was last low. -/
def beats (i : ℕ → StreamIn) : ℕ → List Word :=
  Clocked.logSince (fun n => (run i n).sha256RstN (i n)) (fun n => (run i n).handshake (i n))
    (fun n => (i n).tdata)

variable (i : ℕ → StreamIn)

theorem run_succ (n : ℕ) : run i (n + 1) = (run i n).posedge (i n) := rfl

theorem inst_eq_run (n : ℕ) : (run i n).sha256Inst = Sha256.run (wires i) n :=
  Clocked.eq_run (s := fun n => (run i n).sha256Inst) rfl
    (fun n => Sha256.settle_posedge (wires i n) _) n

theorem core_eq_run {n : ℕ} (hr : (run i n).sha256RstN (i n) = true) :
    (run i n).core (i n) = Sha256.run (wires i) n := by
  rw [core, hr, Sha256.settle_true, inst_eq_run]

/-- A handshake is a word taken: TREADY is exactly the core not being busy. -/
theorem handshake_eq_accepts {n : ℕ} (hr : (run i n).sha256RstN (i n) = true) :
    (run i n).handshake (i n) = (Sha256.run (wires i) n).accepts (wires i n) := by
  have hw : (wires i n).rstN = true := hr
  rw [handshake, tready, S00Axis.tready, sha256HashBusyO, core_eq_run i hr, Sha256.accepts, hw,
    Bool.true_and]
  rfl

theorem beats_eq_accepted (n : ℕ) : beats i n = Sha256.accepted (wires i) n :=
  Clocked.logSince_congr fun _ _ hr => ⟨handshake_eq_accepts i hr, fun _ => rfl⟩

theorem busy_eq {n : ℕ} (hr : (run i n).sha256RstN (i n) = true) :
    (run i n).sha256HashBusyO (i n) = (Sha256.run (wires i) n).hashBusyO (wires i n) := by
  rw [sha256HashBusyO, core_eq_run i hr]
  rfl

/-- A handshaken beat is loaded, once and last. -/
theorem loaded_succ {n : ℕ} (hr : (run i n).sha256RstN (i n) = true) :
    (run i (n + 1)).sha256Inst.loaded =
      if (run i n).handshake (i n) then (run i n).sha256Inst.loaded ++ [datMsbI (i n).tdata]
      else if (run i n).sha256HashBusyO (i n) then [] else (run i n).sha256Inst.loaded := by
  have h := Sha256.loaded_succ (wires i) n hr
  rw [← handshake_eq_accepts i hr, ← busy_eq i hr, ← inst_eq_run, ← inst_eq_run] at h
  exact h

theorem loaded_succ_of_reset {n : ℕ} (hr : (run i n).sha256RstN (i n) = false) :
    (run i (n + 1)).sha256Inst.loaded = [] := by
  rw [inst_eq_run]
  exact Sha256.loaded_succ_of_reset (wires i) n hr

/-- For any stream and bus traffic, soft resets included: outside the busy cycles
the eight hash registers show the chaining value of the beats handshaken; a beat is
loaded into the schedule in its handshake cycle, once, and in no other. -/
theorem hashes_accepted_beats (n : ℕ) :
    ((run i n).sha256RstN (i n) = true → (run i n).sha256HashBusyO (i n) = false →
      ((run i n).core (i n)).hash = (chain ((beats i n).map datMsbI)).map lsbToMsb) ∧
    ((run i n).sha256RstN (i n) = true → (run i (n + 1)).sha256Inst.loaded =
      if (i n).tvalid && (run i n).tready (i n) then
        (run i n).sha256Inst.loaded ++ [datMsbI (i n).tdata]
      else if (run i n).sha256HashBusyO (i n) then [] else (run i n).sha256Inst.loaded) ∧
    ((run i n).sha256RstN (i n) = false → (run i (n + 1)).sha256Inst.loaded = []) := by
  refine ⟨fun hr hb => ?_, fun hr => loaded_succ i hr, fun hr => loaded_succ_of_reset i hr⟩
  rw [core_eq_run i hr, beats_eq_accepted]
  exact Sha256.hash_of_accepted (wires i) n hr (busy_eq i hr ▸ hb)

/-! ## Beats during a soft reset -/

/-- A beat handshaken in cycle `n` is loaded into the block that is being filled. -/
def KeepsBeat (n : ℕ) : Prop :=
  (run i n).handshake (i n) = true →
    (run i (n + 1)).sha256Inst.loaded = (run i n).sha256Inst.loaded ++ [datMsbI (i n).tdata]

/-- While the core is held in reset it is not busy, and TREADY is high. -/
theorem tready_of_reset {n : ℕ} (hr : (run i n).sha256RstN (i n) = false) :
    (run i n).tready (i n) = true := by
  have hcore : (run i n).core (i n) = Sha256.reset := by
    rw [core, hr]
    rfl
  have hidle : Sha256.reset.stateNext ((run i n).coreIn (i n)) = .idle := by
    rw [Sha256.stateNext, coreIn, hr]
    rfl
  rw [tready, S00Axis.tready, sha256HashBusyO, hcore, Sha256.hashBusyO, Sha256.nextStateIsProc, hidle]
  rfl

variable {i}

theorem sha256RstN_eq {n : ℕ} (ha : (i n).axi.aresetn = true ∧ (i n).axisAresetn = true) :
    (run i n).sha256RstN (i n) = !(run i n).sha256SoftReset := by
  rw [sha256RstN, ha.1, ha.2, Bool.and_true, Bool.and_true]

/-- A beat is thrown away exactly where it meets the soft reset bit. -/
theorem keepsBeat_iff {n : ℕ} (ha : (i n).axi.aresetn = true ∧ (i n).axisAresetn = true) :
    KeepsBeat i n ↔ ((run i n).sha256SoftReset = true → (i n).tvalid = false) := by
  have hrst := sha256RstN_eq ha
  cases hs : (run i n).sha256SoftReset with
  | false =>
    rw [hs] at hrst
    refine iff_of_true (fun hh => ?_) (fun h => by cases h)
    rw [loaded_succ i hrst, if_pos hh]
  | true =>
    rw [hs] at hrst
    constructor
    · intro hk _
      by_contra hv
      have hh : (run i n).handshake (i n) = true := by
        rw [handshake, tready_of_reset i hrst, Bool.and_true]
        simpa using hv
      -- the reset has emptied the block the beat should be in
      have h := hk hh
      rw [loaded_succ_of_reset i hrst] at h
      exact List.append_ne_nil_of_right_ne_nil _ (List.cons_ne_nil _ _) h.symm
    · intro h hh
      rw [handshake, h rfl] at hh
      cases hh

/-- In the first `N` cycles, whatever the two ports carry, no handshaken beat is thrown
away if and only if TVALID is low wherever the soft reset bit is set; TREADY never is. -/
theorem beats_kept_iff (i : ℕ → StreamIn) (N : ℕ)
    (ha : ∀ n < N, (i n).axi.aresetn = true ∧ (i n).axisAresetn = true) :
    ((∀ n < N, KeepsBeat i n) ↔
      ∀ n < N, (run i n).sha256SoftReset = true → (i n).tvalid = false) ∧
    ((∀ n < N, (run i n).sha256SoftReset = true → (run i n).tready (i n) = false) ↔
      ∀ n < N, (run i n).sha256SoftReset = false) := by
  constructor
  · constructor
    · intro h n hn
      exact (keepsBeat_iff (ha n hn)).1 (h n hn)
    · intro h n hn
      exact (keepsBeat_iff (ha n hn)).2 (h n hn)
  · constructor
    · intro h n hn
      by_contra hs
      have hs' : (run i n).sha256SoftReset = true := by simpa using hs
      have hready := tready_of_reset i (n := n) (by rw [sha256RstN_eq (ha n hn), hs']; rfl)
      rw [h n hn hs'] at hready
      cases hready
    · intro h n hn hs
      rw [h n hn] at hs
      cases hs

/-- Register 0 is written in cycle 1; a beat comes in every cycle from `t` on. -/
def resetter (t n : ℕ) : StreamIn where
  axi := ⟨true, 0, decide (n ≤ 1), 1, 0xf, decide (n ≤ 1), true, 0, false, false⟩
  axisAresetn := true
  tdata := 0x61626380
  tstrb := 0xf
  tlast := false
  tvalid := decide (t ≤ n)

theorem beats_kept_iff_resetter : KeepsBeat (resetter 3) 3 := by
  have h := (beats_kept_iff (resetter 3) 5 fun n _ => ⟨rfl, rfl⟩).1
  exact h.2 (by decide +kernel) 3 (by decide)

/-- A beat right after the write is handshaken and not hashed. -/
theorem beat_lost_in_reset :
    ¬∀ (i : ℕ → StreamIn) (N : ℕ),
      (∀ n < N, (i n).axi.aresetn = true ∧ (i n).axisAresetn = true) → ∀ n < N, KeepsBeat i n := by
  intro h
  have hkept := h (resetter 2) 3 (fun n _ => ⟨rfl, rfl⟩) 2 (by decide)
  have hlow := (keepsBeat_iff (i := resetter 2) (n := 2) ⟨rfl, rfl⟩).1 hkept (by decide +kernel)
  cases hlow

end ZynqSha256.Sha256Stream
