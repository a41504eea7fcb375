import Mathlib

/-! Linked lists in a memory, read node by node, or in blocks of nodes that lie one behind
another when each link also says how many nodes follow the one it leads to. -/

namespace Chain

variable {α δ : Type*}

/-- What a reader sees: the memory, the next node if there is one, and how many more lie
right behind that one. -/
structure Memory (α δ : Type*) where
  fetch : α → Option δ
  next : δ → Option α
  adj : δ → ℕ
  /-- The place right behind. -/
  behind : α → α

variable (M : Memory α δ)

/-- Node by node, at most `fuel` of them. -/
def walk : ℕ → α → Option (List δ)
  | 0, _ => none
  | fuel + 1, a =>
    (M.fetch a).bind fun d =>
      match M.next d with
      | none => some [d]
      | some b => (walk fuel b).map (d :: ·)

/-- The node at `a` and the `k` behind it. -/
def block : ℕ → α → Option (List δ)
  | 0, a => (M.fetch a).map fun d => [d]
  | k + 1, a => (M.fetch a).bind fun d => (block k (M.behind a)).map (d :: ·)

/-- Block by block, each with the place it starts at; the last node of a block leads to the
next one and gives its size. -/
def bursts : ℕ → α → ℕ → Option (List (α × List δ))
  | 0, _, _ => none
  | fuel + 1, a, k =>
    (block M k a).bind fun ds =>
      ds.getLast?.bind fun d =>
        match M.next d with
        | none => some [(a, ds)]
        | some b => (bursts fuel b (M.adj d)).map ((a, ds) :: ·)

/-- The nodes of a list that lies in one piece: `node i` at `place i`, for `i < n`. -/
structure Row (n : ℕ) (place : ℕ → α) (node : ℕ → δ) : Prop where
  fetch : ∀ i < n, M.fetch (place i) = some (node i)
  behind : ∀ i, M.behind (place i) = place (i + 1)
  next : ∀ i < n, M.next (node i) = if i + 1 < n then some (place (i + 1)) else none
  /-- The link never promises a node past the end. -/
  adj : ∀ i, i + 1 < n → i + 1 + M.adj (node i) < n

variable {M} {n : ℕ} {place : ℕ → α} {node : ℕ → δ}

/-- The nodes `i` to `i + k - 1`. -/
def nodes (node : ℕ → δ) (i k : ℕ) : List δ := (List.range' i k).map node

theorem nodes_succ (i k : ℕ) : nodes node i (k + 1) = node i :: nodes node (i + 1) k := by
  simp [nodes, List.range'_succ]

theorem nodes_add (i k l : ℕ) : nodes node i (k + l) = nodes node i k ++ nodes node (i + k) l := by
  simp [nodes, ← List.range'_append_1]

theorem nodes_getLast (i k : ℕ) : (nodes node i (k + 1)).getLast? = some (node (i + k)) := by
  rw [nodes_add]
  simp [nodes]

theorem Row.walk (h : Row M n place node) {i k fuel : ℕ} (hk : i + k + 1 = n) (hf : k < fuel) :
    walk M fuel (place i) = some (nodes node i (k + 1)) := by
  induction k generalizing i fuel with
  | zero =>
    obtain ⟨fuel, rfl⟩ := Nat.exists_eq_succ_of_ne_zero (Nat.ne_of_gt hf)
    rw [Chain.walk, h.fetch i (by omega), Option.bind_some, h.next i (by omega), if_neg (by omega)]
    rfl
  | succ k ih =>
    obtain ⟨fuel, rfl⟩ := Nat.exists_eq_succ_of_ne_zero (Nat.ne_of_gt (Nat.zero_lt_of_lt hf))
    rw [Chain.walk, h.fetch i (by omega), Option.bind_some, h.next i (by omega), if_pos (by omega)]
    simp only
    rw [ih (by omega) (by omega), Option.map_some, nodes_succ i (k + 1)]

theorem Row.block (h : Row M n place node) {i k : ℕ} (hk : i + k < n) :
    block M k (place i) = some (nodes node i (k + 1)) := by
  induction k generalizing i with
  | zero => rw [Chain.block, h.fetch i (by omega)]; rfl
  | succ k ih =>
    rw [Chain.block, h.fetch i (by omega), Option.bind_some, h.behind, ih (by omega),
      Option.map_some, nodes_succ i (k + 1)]

/-- The blocks are cut out of the list: they hold its nodes, each once and in order. Whatever
holds of the place and the size of a block where it is announced holds of every block. -/
theorem Row.bursts (h : Row M n place node) {Q : α → ℕ → Prop}
    (hQ : ∀ i, i + 1 < n → Q (place (i + 1)) (M.adj (node i))) {i k m fuel : ℕ}
    (hm : i + m = n) (hk : k < m) (hf : m ≤ fuel) (hq : Q (place i) k) :
    ∃ bs, bursts M fuel (place i) k = some bs ∧ bs.flatMap Prod.snd = nodes node i m ∧
      ∀ b ∈ bs, Q b.1 (b.2.length - 1) ∧ b.2 ≠ [] := by
  induction fuel generalizing i k m with
  | zero => omega
  | succ fuel ih =>
    have hlen : (nodes node i (k + 1)).length = k + 1 := by simp [nodes]
    have hne : nodes node i (k + 1) ≠ [] := List.ne_nil_of_length_eq_add_one hlen
    rw [Chain.bursts, h.block (by omega), Option.bind_some, nodes_getLast, Option.bind_some,
      h.next (i + k) (by omega)]
    by_cases hend : i + k + 1 < n
    · rw [if_pos hend]
      have hadj := h.adj (i + k) hend
      obtain ⟨bs, hbs, hflat, hall⟩ := ih (i := i + k + 1) (k := M.adj (node (i + k)))
        (m := m - (k + 1)) (by omega) (by omega) (by omega) (hQ (i + k) hend)
      refine ⟨(place i, nodes node i (k + 1)) :: bs, by simp only [hbs, Option.map_some], ?_, ?_⟩
      · obtain ⟨l, rfl⟩ := Nat.exists_eq_add_of_le (show k + 1 ≤ m by omega)
        rw [List.flatMap_cons, hflat, Nat.add_sub_cancel_left, nodes_add i (k + 1) l, Nat.add_assoc]
      · intro b hb
        rcases List.mem_cons.1 hb with rfl | hb
        · exact ⟨by simpa only [hlen, Nat.add_sub_cancel] using hq, hne⟩
        · exact hall b hb
    · rw [if_neg hend]
      refine ⟨[(place i, nodes node i (k + 1))], rfl, ?_, ?_⟩
      · rw [List.flatMap_singleton, show m = k + 1 by omega]
      · intro b hb
        rw [List.mem_singleton.1 hb]
        exact ⟨by simpa only [hlen, Nat.add_sub_cancel] using hq, hne⟩

end Chain
