import ZynqSha256.Lib.Burst
import ZynqSha256.Proofs.Full

/-! The address generators of the AXI4 slave step as the AXI burst rules say. For
an unaligned incrementing burst the low two address bits are dropped after the
first beat, so the generator is compared with the rule word by word. -/

namespace ZynqSha256.Sha256Full

/-- ARBURST and AWBURST; the reserved code is left to `BurstOk`. -/
def burstKind (burst : BitVec 2) : Burst.Kind :=
  if burst = 0 then .fixed else if burst = 1 then .incr else .wrap

/-- A burst type AXI defines; a wrapping burst is aligned, of 2, 4, 8 or 16 beats. -/
def BurstOk (burst : BitVec 2) (addr len : BitVec 8) : Prop :=
  burst ≠ 3 ∧ (burst = 2 → len.toNat + 1 ∈ [2, 4, 8, 16] ∧ 4 ∣ addr.toNat)

instance (burst : BitVec 2) (addr len : BitVec 8) : Decidable (BurstOk burst addr len) :=
  inferInstanceAs (Decidable (_ ∧ _))

/-- The address of beat `k` of a burst of words. -/
def beatAddr (burst : BitVec 2) (addr len : BitVec 8) (k : ℕ) : BitVec 8 :=
  BitVec.ofNat 8 (Burst.addr 4 (burstKind burst) addr.toNat (len.toNat + 1) k)

/-- The latched address selects the word at `a`, and is `a` itself in a wrapping burst. -/
structure OnBeat (addr : BitVec 8) (kind : Burst.Kind) (a : ℕ) : Prop where
  word : addr.toNat / 4 = a / 4 % 64
  wrap : kind = .wrap → addr.toNat = a ∧ 4 ∣ a

theorem regIndex_eq (addr : BitVec 8) : regIndex addr = addr.toNat / 4 := by
  have := addr.isLt
  rw [regIndex, BitVec.extractLsb_toNat, Nat.shiftRight_eq_div_pow]
  omega

theorem burst_cases : ∀ burst : BitVec 2, burst ≠ 3 → burst = 0 ∨ burst = 1 ∨ burst = 2 := by
  decide

theorem OnBeat.regIndex_eq {addr : BitVec 8} {kind : Burst.Kind} {a : ℕ} (h : OnBeat addr kind a) :
    regIndex addr = regIndex (BitVec.ofNat 8 a) := by
  have hw := h.word
  rw [Sha256Full.regIndex_eq, Sha256Full.regIndex_eq, BitVec.toNat_ofNat]
  omega

theorem addrIncr_toNat (addr : BitVec 8) : (addrIncr addr).toNat = 4 * ((addr.toNat / 4 + 1) % 64) := by
  have hword : (addr.extractLsb 7 2 + 1).toNat = (addr.toNat / 4 + 1) % 64 := by
    rw [BitVec.toNat_add, BitVec.extractLsb_toNat, Nat.shiftRight_eq_div_pow]
    simp
  rw [addrIncr, BitVec.toNat_append, hword, Nat.shiftLeft_eq, Nat.mul_comm]
  exact Nat.or_zero _

/-- Below a container of `2 ^ m` words the wrap test finds its last word. -/
theorem wrapEn_iff {addr len : BitVec 8} {m : ℕ} (hlen : len.toNat + 1 = 2 ^ m)
    (ha : 4 ∣ addr.toNat) :
    wrapEn addr len = true ↔ addr.toNat % (4 * 2 ^ m) = 4 * 2 ^ m - 4 := by
  obtain ⟨q, hq⟩ := ha
  have hlt := addr.isLt
  have hsize : (wrapSize len).toNat = (2 ^ m - 1) <<< 2 := by
    rw [wrapSize_toNat, Nat.shiftLeft_eq, ← hlen]
    omega
  have hand : (addr.setWidth 32 &&& wrapSize len).toNat = (q % 2 ^ m) <<< 2 := by
    have haddr : (addr.setWidth 32).toNat = q <<< 2 := by
      rw [Nat.shiftLeft_eq]
      simp
      omega
    rw [BitVec.toNat_and, hsize, haddr, ← Nat.shiftLeft_and_distrib,
      Nat.and_two_pow_sub_one_eq_mod]
  have hpos : 0 < 2 ^ m := Nat.two_pow_pos m
  rw [wrapEn, decide_eq_true_iff, ← BitVec.toNat_inj, hand, hsize, hq, Nat.mul_mod_mul_left]
  simp only [Nat.shiftLeft_eq]
  omega

/-- Going back from the end of the container. -/
theorem wrapBack_toNat {addr len : BitVec 8} (h : 4 * len.toNat ≤ addr.toNat) :
    ((addr.setWidth 32 - wrapSize len).setWidth 8).toNat = addr.toNat - 4 * len.toNat := by
  have hlt := addr.isLt
  have hsub : (addr.setWidth 32 - wrapSize len).toNat = addr.toNat - 4 * len.toNat := by
    rw [BitVec.toNat_sub, wrapSize_toNat, BitVec.toNat_setWidth]
    omega
  rw [BitVec.toNat_setWidth, hsub]
  omega

/-- In a wrapping burst the next address is that of the burst rule, a word address again. -/
theorem addrNext_wrap {addr len : BitVec 8} (hlen : len.toNat + 1 ∈ [2, 4, 8, 16])
    (ha : 4 ∣ addr.toNat) :
    (addrNext 2 addr len).toNat = Burst.next 4 .wrap (len.toNat + 1) addr.toNat ∧
      4 ∣ (addrNext 2 addr len).toNat := by
  simp only [List.mem_cons, List.not_mem_nil, or_false] at hlen
  obtain ⟨m, hm⟩ : ∃ m, len.toNat + 1 = 2 ^ m := by
    rcases hlen with h | h | h | h
    · exact ⟨1, h⟩
    · exact ⟨2, h⟩
    · exact ⟨3, h⟩
    · exact ⟨4, h⟩
  have hlt := addr.isLt
  have hwr := wrapEn_iff hm ha
  have hdiv := Nat.div_add_mod' addr.toNat (4 * 2 ^ m)
  have hrule := Burst.next_wrap (by decide : 0 < 4) (Nat.succ_pos len.toNat) ha
  rw [Nat.succ_eq_add_one, hm] at hrule
  rw [hm, hrule, addrNext, if_neg (by decide), if_neg (by decide), if_pos rfl]
  by_cases hw : wrapEn addr len = true
  · have hend := hwr.1 hw
    have hle : 4 * 2 ^ m - 4 ≤ addr.toNat := hend ▸ Nat.mod_le addr.toNat (4 * 2 ^ m)
    have hback : ((addr.setWidth 32 - wrapSize len).setWidth 8).toNat = _ :=
      wrapBack_toNat (by omega)
    rw [if_pos hw, if_pos hend]
    exact ⟨by omega, by omega⟩
  · have hend : addr.toNat % (4 * 2 ^ m) ≠ 4 * 2 ^ m - 4 := fun h => hw (hwr.2 h)
    -- the last word below 256 ends a container, so this one is not it
    have htop : addr.toNat ≠ 252 := by
      intro h252
      apply hend
      rw [h252, ← hm]
      rcases hlen with h | h | h | h
      all_goals rw [h]
    have hincr := addrIncr_toNat addr
    rw [if_neg hw, if_neg hend]
    exact ⟨by omega, by omega⟩

/-- The address generator of both channels follows the burst rule. -/
theorem OnBeat.next {burst : BitVec 2} {addr start len : BitVec 8} {a : ℕ}
    (hb : BurstOk burst start len) (h : OnBeat addr (burstKind burst) a) :
    OnBeat (addrNext burst addr len) (burstKind burst)
      (Burst.next 4 (burstKind burst) (len.toNat + 1) a) := by
  obtain ⟨h3, hwrap⟩ := hb
  have hword := h.word
  rcases burst_cases burst h3 with rfl | rfl | rfl
  · exact h
  · refine ⟨?_, fun hk => by cases hk⟩
    rw [addrNext, if_neg (by decide), if_pos rfl, addrIncr_toNat]
    change _ = (a + 4) / 4 % 64
    omega
  · obtain ⟨hlen, -⟩ := hwrap rfl
    obtain ⟨rfl, hdvd⟩ := h.wrap rfl
    obtain ⟨hnext, hdvd'⟩ := addrNext_wrap hlen hdvd
    have hlt := (addrNext 2 addr len).isLt
    rw [show burstKind 2 = .wrap from rfl, ← hnext]
    exact ⟨by omega, fun _ => ⟨rfl, hdvd'⟩⟩

/-- The latched address is where beat `k` of a burst goes. -/
def AtBeat (addr : BitVec 8) (burst : BitVec 2) (start len : BitVec 8) (k : ℕ) : Prop :=
  OnBeat addr (burstKind burst)
    (Burst.addr 4 (burstKind burst) start.toNat (len.toNat + 1) k)

theorem atBeat_zero {burst : BitVec 2} {start len : BitVec 8} (hb : BurstOk burst start len) :
    AtBeat start burst start len 0 := by
  have hlt := start.isLt
  rw [AtBeat, Burst.addr_zero]
  refine ⟨by omega, fun hk => ⟨rfl, ?_⟩⟩
  rcases burst_cases burst hb.1 with rfl | rfl | rfl
  · cases hk
  · cases hk
  · exact (hb.2 rfl).2

theorem AtBeat.succ {addr : BitVec 8} {burst : BitVec 2} {start len : BitVec 8} {k : ℕ}
    (hb : BurstOk burst start len) (h : AtBeat addr burst start len k) :
    AtBeat (addrNext burst addr len) burst start len (k + 1) := by
  rw [AtBeat, Burst.addr_succ (by decide) (Nat.succ_pos _)]
  exact OnBeat.next hb h

theorem AtBeat.regIndex_eq {addr : BitVec 8} {burst : BitVec 2} {start len : BitVec 8} {k : ℕ}
    (h : AtBeat addr burst start len k) : regIndex addr = regIndex (beatAddr burst start len k) :=
  OnBeat.regIndex_eq h

end ZynqSha256.Sha256Full
