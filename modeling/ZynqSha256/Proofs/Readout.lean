import ZynqSha256.Driver.PcieRead
import ZynqSha256.Proofs.Inst

/-! `sha256_read` against the clock of the core. Its eight `ioread32` fall into eight
cycles and wait for nothing, while the hash registers change in one step, fifty cycles
after the core has taken the last word written. -/

namespace ZynqSha256

open Fips180 (Word Hash chain)

namespace Sha256

/-- In cycle `n` the last block is still on its way: less than fifty cycles ago a
sixteenth word was taken, and no reset came since. -/
def Updating (i : ℕ → Sha256In) (n : ℕ) : Prop :=
  ∃ t, t < n ∧ n < t + 50 ∧ blockEnd i t = true ∧ ∀ k, t ≤ k → k < n → (i k).rstN = true

variable {i : ℕ → Sha256In}

theorem state_finish_iff {j : Sha256In} {s : Sha256} (hr : j.rstN = true) (h : s.CounterOk) :
    s.state = .finish ↔ s.phase.age = 50 := by
  have hirq := posedge_irqFinish (s := s) hr
  rw [irqFinish_posedge hr h] at hirq
  exact (decide_eq_decide.1 hirq).symm

theorem updating_iff (n : ℕ) :
    Updating i n ↔ 0 < (run i n).phase.age ∧ (run i n).phase.age ≠ 50 := by
  constructor
  · rintro ⟨t, hlt, hn, ht, hlive⟩
    have hage := ((run_timer i).eq_iff (by decide) n (n - t - 1)).2 ⟨by omega, t, by omega, ht, hlive⟩
    omega
  · rintro ⟨hpos, hne⟩
    obtain ⟨k, hk⟩ := Nat.exists_eq_add_one.2 hpos
    obtain ⟨hlt, t, hn, ht, hlive⟩ := ((run_timer i).eq_iff (by decide) n k).1 hk
    exact ⟨t, by omega, by omega, ht, hlive⟩

/-- The hash words miss the last block while it is on its way, and only then. -/
theorem H8_of_updating {n : ℕ} (hr : (i n).rstN = true) (h : Updating i n) :
    (run i n).chunkCompress.H8 =
      chain (((accepted i n).map datMsbI).take ((accepted i n).length - 16)) := by
  have hok := run_counterOk i n
  obtain ⟨hpos, hne⟩ := (updating_iff n).1 h
  have hold := (run_repr i n).hash_of_busy hr hok ((hashBusyO_iff hr hok).2 hpos)
    (fun hs => hne ((state_finish_iff hr hok).1 hs))
  rwa [List.length_map] at hold

theorem H8_of_not_updating {n : ℕ} (hr : (i n).rstN = true) (h : ¬Updating i n) :
    (run i n).chunkCompress.H8 = chain ((accepted i n).map datMsbI) := by
  have hok := run_counterOk i n
  have hrepr := run_repr i n
  by_cases hb : (run i n).hashBusyO (i n) = true
  · have hpos := (hashBusyO_iff hr hok).1 hb
    have hage : (run i n).phase.age = 50 := by
      by_contra hne
      exact h ((updating_iff n).2 ⟨hpos, hne⟩)
    exact hrepr.hash_of_finish ((state_finish_iff hr hok).2 hage)
  · exact hrepr.hash_of_not_busy hr hok (by simpa using hb)

/-- Without words the list of those taken stands still. -/
theorem accepted_of_quiet {R n : ℕ} (hn : R ≤ n)
    (hquiet : ∀ k, R ≤ k → (i k).rstN = true ∧ (i k).datVaildI = false) :
    accepted i n = accepted i R := by
  induction n, hn using Nat.le_induction with
  | base => rfl
  | succ n hle ih =>
    obtain ⟨hr, hd⟩ := hquiet n hle
    have hacc : (run i n).accepts (i n) = false := by simp [accepts, hd]
    rw [accepted, Clocked.logSince, if_pos hr, hacc, ← accepted, ih]
    exact List.append_nil _

end Sha256

namespace PcieDriver

open Sha256 (run accepted blockEnd Updating)

/-- The eight `ioread32` of `sha256_read`: `hash[j]` is read in cycle `t j` of the core. -/
def ioread32s (i : ℕ → Sha256In) (t : Fin 8 → ℕ) : Vector Word 8 :=
  Vector.ofFn fun j => (run i (t j)).hash[j]

/-- The hash registers after the words `ws`. -/
def digestOf (ws : List Word) : Vector Word 8 := (chain (ws.map datMsbI)).map lsbToMsb

variable {i : ℕ → Sha256In} {R : ℕ} {ws : List Word}

theorem hash_eq_digestOf {n : ℕ} (hn : R ≤ n) (hws : accepted i R = ws)
    (hquiet : ∀ k, R ≤ k → (i k).rstN = true ∧ (i k).datVaildI = false) :
    (Updating i n → (run i n).hash = digestOf (ws.take (ws.length - 16))) ∧
    (¬Updating i n → (run i n).hash = digestOf ws) := by
  have hr := (hquiet n hn).1
  have hacc := (Sha256.accepted_of_quiet hn hquiet).trans hws
  constructor
  · intro hu
    rw [Sha256.hash, ChunkCompress.hash, Sha256.H8_of_updating hr hu, hacc, digestOf, List.map_take]
  · intro hu
    rw [Sha256.hash, ChunkCompress.hash, Sha256.H8_of_not_updating hr hu, hacc, digestOf]

theorem hashBuf_of_shouldCopy {hash : Vector Word 8} {count pos : BitVec 64}
    (h : shouldCopy count pos ≠ 0) (left : ℕ) (d : Sha256Dev) :
    (sha256Read hash count pos left d).dev.hashBuf = hash := by
  unfold sha256Read
  dsimp only
  rw [if_pos h]
  split
  next => rfl
  next => rfl

/-- `hash_buf` holds the digest of all words written exactly when no register is read
while the last block is on its way to it, or only one that this block does not change. -/
theorem digest_consistent_iff (i : ℕ → Sha256In) (R : ℕ) (ws : List Word) (hws : accepted i R = ws)
    (hquiet : ∀ n, R ≤ n → (i n).rstN = true ∧ (i n).datVaildI = false) (t : Fin 8 → ℕ)
    (ht : ∀ j, R ≤ t j) (count pos : BitVec 64) (hcopy : shouldCopy count pos ≠ 0) (left : ℕ)
    (d : Sha256Dev) :
    (sha256Read (ioread32s i t) count pos left d).dev.hashBuf = digestOf ws ↔
      ∀ j : Fin 8, Updating i (t j) →
        (digestOf (ws.take (ws.length - 16)))[j] = (digestOf ws)[j] := by
  have hword (j : Fin 8) : (ioread32s i t)[j] = (run i (t j)).hash[j] := by
    simp [ioread32s]
  rw [hashBuf_of_shouldCopy hcopy]
  constructor
  · intro h j hu
    rw [← (hash_eq_digestOf (ht j) hws hquiet).1 hu, ← hword j, h]
  · intro h
    apply Vector.ext
    intro j hj
    have hj' := hword ⟨j, hj⟩
    by_cases hu : Updating i (t ⟨j, hj⟩)
    · rw [(hash_eq_digestOf (ht _) hws hquiet).1 hu] at hj'
      exact hj'.trans (h ⟨j, hj⟩ hu)
    · rw [(hash_eq_digestOf (ht _) hws hquiet).2 hu] at hj'
      exact hj'

/-- Had the driver waited for `SHA256_STATUS_BUSY` to fall, as the Zynq driver does, no
register could be read too early. -/
theorem not_updating_of_idle (hquiet : ∀ n, R ≤ n → (i n).rstN = true ∧ (i n).datVaildI = false)
    (hidle : (run i R).hashBusyO (i R) = false) {n : ℕ} (hn : R ≤ n) : ¬Updating i n := by
  rintro ⟨t, hlt, hlate, ht, hlive⟩
  have hbefore : t < R := by
    by_contra hge
    have hd := (hquiet t (by omega)).2
    simp [blockEnd, Sha256.accepts, hd] at ht
  have hbusy := (Sha256.busy_iff i R (hquiet R le_rfl).1).2
    ⟨t, hbefore, by omega, ht, fun k h1 h2 => hlive k h1 (by omega)⟩
  rw [hidle] at hbusy
  cases hbusy

/-- The words of the padded message "abc", as they are written. -/
def abcWords : List Word := [0x80636261, 0, 0, 0, 0, 0, 0, 0, 0, 0, 0, 0, 0, 0, 0, 0x18000000]

/-- They come in the first sixteen cycles, and nothing after. -/
def abcIn (n : ℕ) : Sha256In := ⟨true, decide (n < 16), abcWords.getD n 0⟩

theorem abcIn_quiet (n : ℕ) (h : 16 ≤ n) : (abcIn n).rstN = true ∧ (abcIn n).datVaildI = false :=
  ⟨rfl, decide_eq_false (Nat.not_lt.2 h)⟩

theorem abcIn_accepted : accepted abcIn 16 = abcWords := by decide +kernel

/-- Fifty cycles after the sixteenth word the digest is there. -/
theorem digest_consistent_iff_abc :
    (sha256Read (ioread32s abcIn fun _ => 65) 32 0 0 ⟨Vector.replicate 8 0, fun _ => 0⟩).dev.hashBuf =
      digestOf abcWords := by
  refine (digest_consistent_iff abcIn 16 abcWords abcIn_accepted abcIn_quiet (fun _ => 65)
    (fun _ => by decide) 32 0 (by decide) 0 _).2 fun j hu => ?_
  obtain ⟨t, -, ht, hend, -⟩ := hu
  have hd := (abcIn_quiet t (by omega)).2
  simp [blockEnd, Sha256.accepts, hd] at hend

/-- Four registers read right after the last word and four when the block is done: half
of `hash_buf` is the initial hash value. -/
theorem digest_mixed :
    ¬∀ (i : ℕ → Sha256In) (R : ℕ) (ws : List Word) (t : Fin 8 → ℕ) (count pos : BitVec 64)
        (left : ℕ) (d : Sha256Dev), accepted i R = ws → ws.length % 16 = 0 →
      (∀ n, R ≤ n → (i n).rstN = true ∧ (i n).datVaildI = false) → Monotone t →
      (∀ j, R ≤ t j) → shouldCopy count pos ≠ 0 →
      (sha256Read (ioread32s i t) count pos left d).dev.hashBuf = digestOf ws := by
  intro h
  have hmono : Monotone fun j : Fin 8 => if j < 4 then 16 else 65 := by decide
  have hbuf := h abcIn 16 abcWords (fun j => if j < 4 then 16 else 65) 32 0 0
    ⟨Vector.replicate 8 0, fun _ => 0⟩ abcIn_accepted rfl abcIn_quiet hmono (by decide) (by decide)
  revert hbuf
  decide +kernel

end PcieDriver

end ZynqSha256
