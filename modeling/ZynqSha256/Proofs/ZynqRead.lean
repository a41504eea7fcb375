import ZynqSha256.Driver.ZynqRead

/-! Reads on the Zynq driver: one that starts behind the digest starts over, so the bytes of
successive reads are the digest again and again, and none is the end of the file. -/

namespace ZynqSha256.ZynqDriver

open Fips180 (Byte Word)
open PcieDriver (bytesOf)

variable {filp : File} {hash : Vector Word 8}

/-- The digest without end: byte `i` from position `p` on. -/
def cyclic (hash : Vector Word 8) (p n : ℕ) : List Byte :=
  (List.range n).map fun i => (bytesOf hash).getD ((p + i) % 32) 0

theorem bytesOf_length (hash : Vector Word 8) : (bytesOf hash).length = 32 := by
  rw [bytesOf, List.length_flatMap]
  have hfour : hash.toList.map (fun w => (Slices.leBytes w).length) = List.replicate 8 4 := by
    rw [List.eq_replicate_iff, List.length_map, Vector.length_toList]
    refine ⟨rfl, fun n hn => ?_⟩
    obtain ⟨w, -, rfl⟩ := List.mem_map.1 hn
    rfl
  rw [hfour]
  rfl

theorem length_cyclic (hash : Vector Word 8) (p n : ℕ) : (cyclic hash p n).length = n := by
  rw [cyclic, List.length_map, List.length_range]

theorem cyclic_mod (hash : Vector Word 8) (p n : ℕ) : cyclic hash (p % 32) n = cyclic hash p n := by
  apply List.map_congr_left
  intro i _
  rw [Nat.mod_add_mod]

theorem cyclic_add (hash : Vector Word 8) (p m n : ℕ) :
    cyclic hash p (m + n) = cyclic hash p m ++ cyclic hash (p + m) n := by
  rw [cyclic, List.range_add, List.map_append, List.map_map]
  refine congrArg _ (List.map_congr_left fun i _ => ?_)
  rw [Function.comp_apply, Nat.add_assoc]

/-- Up to the end of the digest these are its bytes. -/
theorem take_drop_eq_cyclic {p n : ℕ} (h : p + n ≤ 32) :
    ((bytesOf hash).drop p).take n = cyclic hash p n := by
  have hlen := bytesOf_length hash
  apply List.ext_getElem
  · rw [List.length_take, List.length_drop, hlen, length_cyclic]
    omega
  · intro i h1 h2
    rw [length_cyclic] at h2
    have hmod : (p + i) % 32 = p + i := Nat.mod_eq_of_lt (by omega)
    simp only [cyclic, List.getElem_take, List.getElem_drop, List.getElem_map, List.getElem_range]
    rw [hmod, List.getD_eq_getElem _ _ (by omega)]

/-! ## One call -/

/-- What a call that returns `ret` and `bytes` does of the digest from the position of the file
on. -/
structure Continues (hash : Vector Word 8) (count : ℕ) (filp : File) (ret : ℤ) (bytes : List Byte)
    (filp' : File) : Prop where
  goesOn : bytes = cyclic hash filp.fPos bytes.length
  pos : filp'.fPos % 32 = (filp.fPos + bytes.length) % 32
  notEof : 0 < count → ret ≠ 0

theorem read_continues {m : Meets} (hm : m.hash = hash) (count : ℕ) (filp : File) :
    Continues hash count filp ((FileOp.read m count).call filp).1
      ((FileOp.read m count).call filp).2.1 ((FileOp.read m count).call filp).2.2 := by
  have hfails {ret : ℤ} (h : ret < 0) : Continues hash count filp ret [] filp :=
    ⟨rfl, rfl, fun _ => ne_of_lt h⟩
  have hEAGAIN : -EAGAIN < 0 := by decide
  have hERESTARTSYS : -ERESTARTSYS < 0 := by decide
  have hEFAULT : -EFAULT < 0 := by decide
  unfold FileOp.call sha256Read
  dsimp only
  by_cases h1 : (m.busy && filp.nonblock) = true
  · rw [if_pos h1, if_neg (not_le.2 hEAGAIN)]
    exact hfails hEAGAIN
  by_cases h2 : (m.busy && m.interrupted) = true
  · rw [if_neg h1, if_pos h2, if_neg (not_le.2 hERESTARTSYS)]
    exact hfails hERESTARTSYS
  by_cases h3 : m.left ≠ 0
  · rw [if_neg h1, if_neg h2, if_pos h3, if_neg (not_le.2 hEFAULT)]
    exact hfails hEFAULT
  rw [if_neg h1, if_neg h2, if_neg h3, if_pos (Int.natCast_nonneg _), not_not.1 h3, hm,
    Nat.sub_zero, Nat.mod_mod]
  have hlt : filp.fPos % 32 < 32 := Nat.mod_lt _ (by decide)
  generalize hn : min (32 - filp.fPos % 32) count = n
  have hbytes : ((bytesOf hash).drop (filp.fPos % 32)).take n = cyclic hash filp.fPos n := by
    rw [take_drop_eq_cyclic (by omega), cyclic_mod]
  dsimp only
  rw [hbytes]
  refine ⟨?_, ?_, fun hpos => ?_⟩
  · rw [length_cyclic]
  · rw [length_cyclic, Nat.mod_add_mod]
  · omega

theorem call_fPos_le (op : FileOp) (h : filp.fPos ≤ 32) : (op.call filp).2.2.fPos ≤ 32 := by
  cases op with
  | llseek off wherece =>
    unfold FileOp.call sha256Llseek
    dsimp only
    split
    · exact h
    · split_ifs with hbad
      · exact h
      · dsimp only
        omega
  | read m count =>
    unfold FileOp.call sha256Read
    dsimp only
    split_ifs
    all_goals first
      | exact h
      | skip
    all_goals
      dsimp only
      omega

/-! ## Calls one after the other -/

theorem calls_cons (op : FileOp) (ops : List FileOp) (filp : File) :
    calls (op :: ops) filp =
      ((op.call filp).1 :: (calls ops (op.call filp).2.2).1,
        (op.call filp).2.1 ++ (calls ops (op.call filp).2.2).2.1,
        (calls ops (op.call filp).2.2).2.2) := rfl

/-- Reads of a digest that stands, each with its count and what it meets. -/
def readAll (reads : List (Meets × ℕ)) : List FileOp := reads.map fun (m, count) => .read m count

/-- In any order of calls the position stays inside the digest. While nothing seeks, the bytes
that all reads return, whatever errors come between them, are the digest from the position on,
again and again; a read that asks for something is never told the end of the file. -/
theorem reads_cycle (hash : Vector Word 8) (filp : File) :
    (∀ ops, filp.fPos ≤ 32 → (calls ops filp).2.2.fPos ≤ 32) ∧
      ∀ reads : List (Meets × ℕ), (∀ x ∈ reads, x.1.hash = hash) →
        (calls (readAll reads) filp).2.1 =
            cyclic hash filp.fPos (calls (readAll reads) filp).2.1.length ∧
          (calls (readAll reads) filp).2.2.fPos % 32 =
            (filp.fPos + (calls (readAll reads) filp).2.1.length) % 32 ∧
          ((∀ x ∈ reads, 0 < x.2) → ∀ ret ∈ (calls (readAll reads) filp).1, ret ≠ 0) := by
  refine ⟨fun ops => ?_, fun reads => ?_⟩
  · induction ops generalizing filp with
    | nil => exact id
    | cons op ops ih =>
      intro h
      rw [calls_cons]
      exact ih _ (call_fPos_le op h)
  · induction reads generalizing filp with
    | nil => exact fun _ => ⟨rfl, rfl, fun _ => List.forall_mem_nil _⟩
    | cons x reads ih =>
      intro hx
      rw [List.forall_mem_cons] at hx
      obtain ⟨hhash, hrest⟩ := hx
      have hcall := read_continues hhash x.2 filp
      obtain ⟨hbytes, hpos, hrets⟩ := ih _ hrest
      have hcons : readAll (x :: reads) = .read x.1 x.2 :: readAll reads := rfl
      rw [hcons, calls_cons]
      dsimp only
      refine ⟨?_, ?_, fun hcount => ?_⟩
      · have hmod : cyclic hash ((FileOp.read x.1 x.2).call filp).2.2.fPos =
            cyclic hash (filp.fPos + ((FileOp.read x.1 x.2).call filp).2.1.length) := by
          funext n
          rw [← cyclic_mod, hcall.pos, cyclic_mod]
        rw [List.length_append, cyclic_add, ← hmod, ← hbytes, ← hcall.goesOn]
      · rw [hpos, List.length_append, ← Nat.add_assoc, Nat.add_mod, hcall.pos, ← Nat.add_mod]
      · rw [List.forall_mem_cons] at hcount ⊢
        exact ⟨hcall.notEof hcount.1, hrets hcount.2⟩

/-- Twenty bytes, a signal, and twenty bytes of which twelve are left. -/
theorem reads_cycle_twice : (calls (readAll
    [(⟨false, false, Vector.replicate 8 0x03020100, 0⟩, 20),
      (⟨true, true, Vector.replicate 8 0x03020100, 0⟩, 20),
      (⟨false, false, Vector.replicate 8 0x03020100, 0⟩, 20)]) ⟨false, 0⟩).2.1 =
    cyclic (Vector.replicate 8 0x03020100) 0 32 :=
  ((reads_cycle (Vector.replicate 8 0x03020100) ⟨false, 0⟩).2 _ (by simp)).1

end ZynqSha256.ZynqDriver
