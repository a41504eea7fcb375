import ZynqSha256.Driver.PcieRead
import ZynqSha256.Lib.Steps

/-! Reading the digest from the PCIe driver. The length of a read and the file position
follow `*pos`, the source of the copy does not: every read starts over at the first byte
of `hash_buf`, and a position behind the buffer makes the length wrap. -/

namespace ZynqSha256.PcieDriver

open Fips180 (Byte Word)
open Steps (Run Any)

/-! ## One read -/

theorem bytesOf_length (words : Vector Word 8) : (bytesOf words).length = 32 := by
  rw [bytesOf, List.length_flatMap]
  have h (x : Word) : (Slices.leBytes x).length = 4 := rfl
  simp [h]

/-- A position in range leaves what is behind it. -/
theorem shouldCopy_toNat {pos : BitVec 64} (h : pos.toNat ≤ 32) (count : BitVec 64) :
    (shouldCopy count pos).toNat = min count.toNat (32 - pos.toNat) := by
  have hsub : (32 - pos).toNat = 32 - pos.toNat :=
    BitVec.toNat_sub_of_le (by simpa [BitVec.le_def] using h)
  rw [shouldCopy]
  split
  next hlt =>
    rw [BitVec.lt_def, hsub] at hlt
    omega
  next hge =>
    rw [BitVec.lt_def, hsub] at hge
    omega

/-- Behind the buffer the remaining length wraps, and the count alone bounds the copy. -/
theorem shouldCopy_le_iff {pos : BitVec 64} (h : 32 < pos.toNat) (hpos : pos.toNat < 2 ^ 63)
    (count : BitVec 64) : (shouldCopy count pos).toNat ≤ 32 ↔ count.toNat ≤ 32 := by
  have hsub : (32 - pos).toNat = 2 ^ 64 - pos.toNat + 32 := by
    rw [BitVec.toNat_sub]
    simp
    omega
  rw [shouldCopy]
  split
  next hlt => rfl
  next hge =>
    rw [BitVec.lt_def, hsub] at hge
    omega

theorem fromHashBuf_eq_take (d : Sha256Dev) {n : ℕ} (h : n ≤ 32) :
    d.fromHashBuf n = (bytesOf d.hashBuf).take n := by
  have hlen := bytesOf_length d.hashBuf
  apply List.ext_getElem
  · simp [Sha256Dev.fromHashBuf, hlen, h]
  · intro j h1 h2
    have hj : j < n := by simpa [Sha256Dev.fromHashBuf] using h1
    simp [Sha256Dev.fromHashBuf, List.getD_eq_getElem?_getD, hlen, show j < 32 by omega]

/-- What a read copies starts at the first byte of `hash_buf`, whatever the position is. -/
theorem sha256Read_copied (hash : Vector Word 8) (count pos : BitVec 64) (left : ℕ)
    (d : Sha256Dev) : (sha256Read hash count pos left d).copied =
      { d with hashBuf := hash }.fromHashBuf ((shouldCopy count pos).toNat - left) := by
  unfold sha256Read
  dsimp only
  split
  next => split <;> rfl
  next heq =>
    rw [not_not] at heq
    rw [heq, show (0 : BitVec 64).toNat = 0 from rfl, Nat.zero_sub]
    rfl

/-- The position moves by the length, unless part of the copy fails. -/
theorem sha256Read_pos (hash : Vector Word 8) (count pos : BitVec 64) (left : ℕ)
    (d : Sha256Dev) : (sha256Read hash count pos left d).pos = pos ∨
      (sha256Read hash count pos left d).pos = pos + shouldCopy count pos := by
  unfold sha256Read
  dsimp only
  split_ifs
  · exact Or.inl rfl
  · exact Or.inr rfl
  · exact Or.inl rfl

/-- A read into a buffer that can be written moves it always. -/
theorem sha256Read_pos_zero (hash : Vector Word 8) (count pos : BitVec 64) (d : Sha256Dev) :
    (sha256Read hash count pos 0 d).pos = pos + shouldCopy count pos := by
  unfold sha256Read
  dsimp only
  split
  next => rfl
  next heq =>
    rw [not_not] at heq
    rw [heq]
    exact (BitVec.add_zero pos).symm

/-- A read from a position in range returns the first bytes of the registers, as many
as the position and the count allow. -/
theorem sha256Read_of_le {pos : BitVec 64} (h : pos.toNat ≤ 32) (hash : Vector Word 8)
    (count : BitVec 64) (d : Sha256Dev) :
    (sha256Read hash count pos 0 d).copied =
        (bytesOf hash).take (min count.toNat (32 - pos.toNat)) ∧
      (sha256Read hash count pos 0 d).pos.toNat =
        pos.toNat + min count.toNat (32 - pos.toNat) := by
  have hn := shouldCopy_toNat h count
  rw [sha256Read_copied, sha256Read_pos_zero, Nat.sub_zero, ← hn]
  refine ⟨fromHashBuf_eq_take _ (by omega), ?_⟩
  rw [BitVec.toNat_add]
  omega

/-- A seek fails and leaves the file alone, or it sets a position in range. -/
theorem sha256Llseek_cases (off : BitVec 64) (wherece : ℕ) (filp : File) :
    sha256Llseek off wherece filp = (-EINVAL, filp) ∨
      ∃ newpos : BitVec 64, newpos.toNat ≤ 32 ∧
        sha256Llseek off wherece filp = (newpos.toInt, ⟨newpos⟩) := by
  unfold sha256Llseek
  dsimp only
  split
  next => exact Or.inl rfl
  next newpos hpos =>
    split
    next => exact Or.inl rfl
    next hrange =>
      refine Or.inr ⟨newpos, ?_, rfl⟩
      simp only [BitVec.slt, Bool.or_eq_true, decide_eq_true_eq, not_or, not_lt] at hrange
      obtain ⟨h0, h32⟩ := hrange
      change (0 : ℤ) ≤ newpos.toInt at h0
      change newpos.toInt ≤ (32 : ℤ) at h32
      have hint := BitVec.toInt_eq_toNat_cond newpos
      have hlt := newpos.isLt
      split at hint
      next => omega
      next => omega

/-- Every position up to the end of the digest can be set. -/
theorem sha256Llseek_set {p : BitVec 64} (h : p.toNat ≤ 32) (filp : File) :
    sha256Llseek p SEEK_SET filp = ((p.toNat : ℤ), ⟨p⟩) := by
  have hint : p.toInt = p.toNat := BitVec.toInt_eq_toNat_of_lt (by omega)
  unfold sha256Llseek
  rw [if_pos rfl]
  dsimp only
  rw [if_neg (by simp [BitVec.slt, hint, h]), hint]

/-! ## Sequential reads -/

/-- The position of each read from position `p` on, and how many bytes it is to return. -/
def pieces : ℕ → List (BitVec 64) → List (ℕ × ℕ)
  | _, [] => []
  | p, count :: counts =>
    (p, min count.toNat (32 - p)) :: pieces (p + min count.toNat (32 - p)) counts

variable {counts : List (BitVec 64)} {f : File} {d : Sha256Dev} {hash : Vector Word 8} {p : ℕ}

/-- What the reads return: the first bytes over and over. -/
theorem reads_eq (hash : Vector Word 8) (counts : List (BitVec 64)) (d : Sha256Dev)
    (hp : f.fPos.toNat ≤ 32) :
    (reads hash counts f d).1 =
        (pieces f.fPos.toNat counts).flatMap (fun x => (bytesOf hash).take x.2) ∧
      (reads hash counts f d).2.fPos.toNat =
        min 32 (f.fPos.toNat + (counts.map BitVec.toNat).sum) := by
  induction counts generalizing f d with
  | nil =>
    refine ⟨rfl, ?_⟩
    rw [List.map_nil, List.sum_nil, Nat.add_zero, min_eq_right hp]
    rfl
  | cons count counts ih =>
    obtain ⟨hcopied, hpos⟩ := sha256Read_of_le hp hash count d
    obtain ⟨hbytes, hend⟩ := ih (f := ⟨(sha256Read hash count f.fPos 0 d).pos⟩)
      (sha256Read hash count f.fPos 0 d).dev (by rw [hpos]; omega)
    rw [hpos] at hbytes hend
    refine ⟨?_, ?_⟩
    · rw [reads, pieces, List.flatMap_cons, ← hbytes, hcopied]
    · rw [reads, List.map_cons, List.sum_cons]
      change (reads _ _ _ _).2.fPos.toNat = _
      rw [hend]
      omega

/-- The bytes behind position `p`, cut as the reads cut them. -/
theorem drop_eq_pieces {l : List Byte} (hl : l.length = 32) (hp : p ≤ 32)
    (hsum : 32 ≤ p + (counts.map BitVec.toNat).sum) :
    l.drop p = (pieces p counts).flatMap fun x => (l.drop x.1).take x.2 := by
  induction counts generalizing p with
  | nil =>
    rw [List.map_nil, List.sum_nil] at hsum
    rw [List.drop_eq_nil_of_le (by omega)]
    rfl
  | cons count counts ih =>
    rw [List.map_cons, List.sum_cons] at hsum
    rw [pieces, List.flatMap_cons, ← ih (by omega) (by omega), ← List.drop_drop,
      List.take_append_drop]

theorem pieces_le (hp : p ≤ 32) : ∀ x ∈ pieces p counts, p ≤ x.1 ∧ x.1 + x.2 ≤ 32 := by
  induction counts generalizing p with
  | nil => exact List.forall_mem_nil _
  | cons count counts ih =>
    rw [pieces, List.forall_mem_cons]
    refine ⟨by dsimp only; omega, fun x hx => ?_⟩
    obtain ⟨hle, hend⟩ := ih (by omega) x hx
    exact ⟨by omega, hend⟩

/-- Two cuts into pieces of the same lengths agree piece by piece. -/
theorem flatMap_eq_iff {α β : Type*} {xs : List α} {g h : α → List β}
    (hlen : ∀ x ∈ xs, (g x).length = (h x).length) :
    xs.flatMap g = xs.flatMap h ↔ ∀ x ∈ xs, g x = h x := by
  induction xs with
  | nil => simp
  | cons x xs ih =>
    rw [List.forall_mem_cons] at hlen ⊢
    rw [List.flatMap_cons, List.flatMap_cons, ← ih hlen.2]
    constructor
    · intro heq
      exact List.append_inj heq hlen.1
    · rintro ⟨hx, hxs⟩
      rw [hx, hxs]

/-- The reads return the bytes behind the position, each once and in order, and leave
nothing for a further read. -/
def Reassembles (hash : Vector Word 8) (counts : List (BitVec 64)) (f : File) (d : Sha256Dev) :
    Prop :=
  (reads hash counts f d).1 = (bytesOf hash).drop f.fPos.toNat ∧
    (reads hash counts f d).2.fPos = 32

theorem reassembles_iff (hash : Vector Word 8) (d : Sha256Dev) (hp : f.fPos.toNat ≤ 32)
    (hsum : 32 ≤ f.fPos.toNat + (counts.map BitVec.toNat).sum) :
    Reassembles hash counts f d ↔ ∀ x ∈ pieces f.fPos.toNat counts,
      (bytesOf hash).take x.2 = ((bytesOf hash).drop x.1).take x.2 := by
  have hlen := bytesOf_length hash
  obtain ⟨hbytes, hend⟩ := reads_eq hash counts d hp
  have hpos : (reads hash counts f d).2.fPos = 32 := by
    apply BitVec.eq_of_toNat_eq
    rw [hend, min_eq_left hsum]
    rfl
  rw [Reassembles, and_iff_left hpos, hbytes, drop_eq_pieces hlen hp hsum]
  apply flatMap_eq_iff
  intro x hx
  obtain ⟨-, hle⟩ := pieces_le hp x hx
  rw [List.length_take, List.length_take, List.length_drop, hlen]
  omega

/-- Registers whose bytes are 0, 1, …, 31. -/
def counting : Vector Word 8 :=
  #v[0x03020100, 0x07060504, 0x0b0a0908, 0x0f0e0d0c, 0x13121110, 0x17161514, 0x1b1a1918, 0x1f1e1d1c]

/-- Only at position 0 does every digest show its own bytes. -/
theorem start_eq_zero {s n : ℕ} (hs : s < 32) (hn : 0 < n)
    (h : (bytesOf counting).take n = ((bytesOf counting).drop s).take n) : s = 0 := by
  have hbyte : ∀ s < 32, (bytesOf counting)[s]? = some (BitVec.ofNat 8 s) := by decide
  have hhead := congrArg List.head? h
  rw [List.head?_take, List.head?_take, if_neg hn.ne', if_neg hn.ne', List.head?_drop,
    List.head?_eq_getElem?, hbyte 0 (by decide), hbyte s hs, Option.some.injEq] at hhead
  have hnat := congrArg BitVec.toNat hhead
  rw [BitVec.toNat_ofNat, BitVec.toNat_ofNat] at hnat
  omega

theorem toNat_pos {c : BitVec 64} (h : c ≠ 0) : 0 < c.toNat :=
  Nat.pos_of_ne_zero fun h0 => h (BitVec.eq_of_toNat_eq h0)

/-- Every read that returns something starts at position 0: there is nothing to read, or
the first read takes it all. -/
theorem pieces_zero_iff (hpos : ∀ c ∈ counts, c ≠ 0) (hp : p ≤ 32)
    (hsum : 32 ≤ p + (counts.map BitVec.toNat).sum) :
    (∀ x ∈ pieces p counts, 0 < x.2 → x.1 = 0) ↔
      p = 32 ∨ p = 0 ∧ ∃ c ∈ counts.head?, 32 ≤ c.toNat := by
  have hrest (cs : List (BitVec 64)) : ∀ x ∈ pieces 32 cs, 0 < x.2 → x.1 = 0 := by
    intro x hx hx2
    obtain ⟨hle, hend⟩ := pieces_le le_rfl x hx
    omega
  constructor
  · intro h
    by_contra hne
    cases counts with
    | nil =>
      rw [List.map_nil, List.sum_nil] at hsum
      omega
    | cons c cs =>
      rw [List.forall_mem_cons] at hpos
      have hc := toNat_pos hpos.1
      rw [pieces, List.forall_mem_cons] at h
      obtain rfl : p = 0 := h.1 (by dsimp only; omega)
      have hshort : c.toNat < 32 := by simpa using hne
      -- the second read starts behind the first
      cases cs with
      | nil =>
        simp only [List.map_cons, List.map_nil, List.sum_cons, List.sum_nil] at hsum
        omega
      | cons c' cs' =>
        have hc' := toNat_pos (hpos.2 c' List.mem_cons_self)
        have hsecond := h.2 _ List.mem_cons_self
        dsimp only at hsecond
        omega
  · rintro (rfl | ⟨rfl, c, hc, hfull⟩)
    · exact hrest counts
    · obtain ⟨cs, rfl⟩ : ∃ cs, counts = c :: cs := ⟨_, List.eq_cons_of_mem_head? hc⟩
      rw [pieces, List.forall_mem_cons, min_eq_right (by omega)]
      exact ⟨fun _ => rfl, hrest cs⟩

/-- Reads of positive counts that add up to what is left return the bytes behind the
position exactly when each read finds at the start of the digest what it should find at
its own position; so they do for every digest only if a single read at 0 takes it whole. -/
theorem sequential_reads_iff (counts : List (BitVec 64)) (hpos : ∀ c ∈ counts, c ≠ 0) (f : File)
    (hp : f.fPos.toNat ≤ 32) (hsum : 32 ≤ f.fPos.toNat + (counts.map BitVec.toNat).sum)
    (d : Sha256Dev) :
    (∀ hash, Reassembles hash counts f d ↔ ∀ x ∈ pieces f.fPos.toNat counts,
      (bytesOf hash).take x.2 = ((bytesOf hash).drop x.1).take x.2) ∧
    ((∀ hash, Reassembles hash counts f d) ↔
      f.fPos.toNat = 32 ∨ f.fPos.toNat = 0 ∧ ∃ c ∈ counts.head?, 32 ≤ c.toNat) := by
  have hiff (hash : Vector Word 8) := reassembles_iff hash d hp hsum
  refine ⟨hiff, ?_⟩
  rw [← pieces_zero_iff hpos hp hsum]
  constructor
  · intro h x hx hn
    obtain ⟨-, hle⟩ := pieces_le hp x hx
    exact start_eq_zero (by omega) hn ((hiff counting).1 (h counting) x hx)
  · intro h hash
    refine (hiff hash).2 fun x hx => ?_
    rcases Nat.eq_zero_or_pos x.2 with h0 | hn
    · rw [h0, List.take_zero, List.take_zero]
    · rw [h x hx hn, List.drop_zero]

/-- One read of the whole digest. -/
theorem sequential_reads_iff_whole :
    Reassembles counting [32] ⟨0⟩ ⟨Vector.replicate 8 0, fun _ => 0⟩ :=
  (sequential_reads_iff [32] (by simp) ⟨0⟩ (by decide) (by simp) _).2.2
    (Or.inr ⟨rfl, 32, rfl, by decide⟩) counting

/-- Two reads of sixteen bytes return the first sixteen twice. -/
theorem second_half_never_read :
    ¬∀ (hash : Vector Word 8) (counts : List (BitVec 64)) (f : File) (d : Sha256Dev),
      (∀ c ∈ counts, c ≠ 0) → f.fPos.toNat ≤ 32 →
      32 ≤ f.fPos.toNat + (counts.map BitVec.toNat).sum → Reassembles hash counts f d := by
  intro h
  have hbytes := (h counting [16, 16] ⟨0⟩ ⟨counting, fun _ => 0⟩ (by simp) (by decide)
    (by simp)).1
  revert hbytes
  decide +kernel

/-! ## The bound on the copy -/

/-- The copy stays inside `hash_buf` and ends where the position says it may. -/
structure Bounded (hash : Vector Word 8) (count pos : BitVec 64) (d : Sha256Dev) : Prop where
  length : (shouldCopy count pos).toNat ≤ 32
  remain : pos.toNat ≤ 32 → (shouldCopy count pos).toNat ≤ 32 - pos.toNat
  copied : ∀ left, (sha256Read hash count pos left d).copied <+: bytesOf hash
  pos : pos.toNat ≤ 32 → ∀ left, (sha256Read hash count pos left d).pos.toNat ≤ 32

theorem bounded_of_length {count pos : BitVec 64} (h : (shouldCopy count pos).toNat ≤ 32) :
    Bounded hash count pos d := by
  refine ⟨h, fun hp => ?_, fun left => ?_, fun hp left => ?_⟩
  · rw [shouldCopy_toNat hp]
    omega
  · rw [sha256Read_copied, fromHashBuf_eq_take _ (by omega)]
    exact List.take_prefix _ _
  · rcases sha256Read_pos hash count pos left d with hpos | hpos
    · rw [hpos]
      exact hp
    · rw [hpos, BitVec.toNat_add, shouldCopy_toNat hp]
      omega

theorem bounded_of_le {count pos : BitVec 64} (h : pos.toNat ≤ 32) : Bounded hash count pos d := by
  apply bounded_of_length
  rw [shouldCopy_toNat h]
  omega

/-- A read stays inside the buffer if and only if the position or the count does. -/
theorem read_bounded_iff (hash : Vector Word 8) (count pos : BitVec 64) (hpos : pos.toNat < 2 ^ 63)
    (d : Sha256Dev) : Bounded hash count pos d ↔ pos.toNat ≤ 32 ∨ count.toNat ≤ 32 := by
  constructor
  · intro h
    by_contra hne
    rw [not_or] at hne
    exact hne.2 ((shouldCopy_le_iff (by omega) hpos count).1 h.length)
  · intro h
    rcases Nat.lt_or_ge 32 pos.toNat with hlt | hle
    · exact bounded_of_length ((shouldCopy_le_iff hlt hpos count).2 (h.resolve_left (by omega)))
    · exact bounded_of_le hle

theorem read_bounded_iff_middle : Bounded counting 4096 16 ⟨counting, fun _ => 0⟩ :=
  (read_bounded_iff counting 4096 16 (by decide) _).2 (Or.inl (by decide))

/-- A `pread` of 64 bytes behind the digest copies the 32 bytes that follow `hash_buf`. -/
theorem pread_leaks :
    ¬∀ (hash : Vector Word 8) (count pos : BitVec 64) (d : Sha256Dev), pos.toNat < 2 ^ 63 →
      Bounded hash count pos d := by
  intro h
  have hlen := (h counting 64 33 ⟨counting, fun _ => 0⟩ (by decide)).length
  revert hlen
  decide

/-! ## An open file -/

/-- A call keeps the position inside the digest. -/
theorem fileStep_le {e : FileEvent} {s s' : File × Sha256Dev} (hs : fileStep e s = some s')
    (h : s.1.fPos.toNat ≤ 32) : s'.1.fPos.toNat ≤ 32 := by
  obtain ⟨f, d⟩ := s
  cases e with
  | llseek off wherece =>
    obtain rfl := Option.some.inj hs
    rcases sha256Llseek_cases off wherece f with heq | ⟨newpos, hle, heq⟩
    · rw [heq]
      exact h
    · rw [heq]
      exact hle
  | read hash count left =>
    obtain rfl := Option.some.inj hs
    have hB : Bounded hash count f.fPos d := bounded_of_le h
    dsimp only
    split
    next => exact hB.pos h left
    next => exact h

/-- Whatever a process seeks and reads at the position of its file, no read leaves `hash_buf`;
and every position in the digest can be set. -/
theorem file_reads_bounded {es : List FileEvent} {d : Sha256Dev} {s : File × Sha256Dev}
    (h : Run fileStep Any (⟨0⟩, d) es s) :
    (∀ hash count, Bounded hash count s.1.fPos s.2) ∧
      ∀ p ≤ 32, ∃ s', fileStep (.llseek (BitVec.ofNat 64 p) SEEK_SET) s = some s' ∧
        s'.1.fPos.toNat = p := by
  have hle : s.1.fPos.toNat ≤ 32 :=
    h.invariant (J := fun s => s.1.fPos.toNat ≤ 32) (Nat.zero_le _)
      fun _ _ _ _ hs ih => fileStep_le hs ih
  refine ⟨fun hash count => bounded_of_le hle, fun p hp => ⟨_, rfl, ?_⟩⟩
  have hnat : (BitVec.ofNat 64 p).toNat = p := by
    rw [BitVec.toNat_ofNat]
    omega
  rw [sha256Llseek_set (by rw [hnat]; exact hp)]
  exact hnat

/-- A seek to the middle and a read past the end. -/
theorem file_reads_bounded_middle : ∃ s,
    Run fileStep Any (⟨0⟩, ⟨counting, fun _ => 0⟩) [.llseek 16 SEEK_SET, .read counting 4096 0] s ∧
      s.1.fPos = 32 ∧ Bounded counting 4096 s.1.fPos s.2 := by
  obtain ⟨s, hrun, hpos⟩ : ∃ s, Run fileStep Any (⟨0⟩, ⟨counting, fun _ => 0⟩)
      [.llseek 16 SEEK_SET, .read counting 4096 0] s ∧ s.1.fPos = 32 :=
    ⟨_, Steps.run_of_exec rfl, by decide⟩
  exact ⟨s, hrun, hpos, (file_reads_bounded hrun).1 counting 4096⟩

end ZynqSha256.PcieDriver
