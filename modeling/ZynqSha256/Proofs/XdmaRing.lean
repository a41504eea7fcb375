import ZynqSha256.Lib.Ring
import ZynqSha256.Lib.Steps
import ZynqSha256.Proofs.XdmaSubmit

/-! The descriptors of transfers in flight. `transfer_init` never looks at `desc_used`: as
long as the descriptor memory has room they stay what they were built as, and the transfer
that finds no room is built over the oldest of them. -/

namespace ZynqSha256.Xdma

open Steps (Run)

variable {e e' : XdmaEngine} {req req' : XdmaRequestCb} {x : XdmaTransfer} {s s' : RingState}
  {t : Posted} {es : List RingEvent}

theorem transferDescMax_eq (e : XdmaEngine) (req : XdmaRequestCb) :
    transferDescMax e req = min req.rest.length (e.descMax - e.descIdx) := by
  have hlt := e.descIdx_lt
  rw [length_rest]
  unfold transferDescMax
  dsimp only
  split <;> omega

/-- The slots of a transfer. -/
def Posted.range (t : Posted) : ℕ × ℕ := (t.transfer.descVirt, t.transfer.descNum)

def Posted.place (t : Posted) (i : ℕ) : BitVec 64 :=
  t.engine.descBus + BitVec.ofNat 64 (32 * (t.transfer.descVirt + i))

def Posted.node (t : Posted) (i : ℕ) : XdmaDesc := t.engine.desc (t.transfer.descVirt + i)

/-- In the slots of a transfer stands what it was built as. -/
structure Intact (e : XdmaEngine) (t : Posted) : Prop where
  row : Chain.Row t.engine.memory t.transfer.descNum t.place t.node
  pos : 0 < t.transfer.descNum
  fits : t.transfer.descVirt + t.transfer.descNum ≤ e.descMax
  bus : t.transfer.descBus = t.place 0
  settings : t.engine.SameSettings e
  same : ∀ i < t.transfer.descNum, e.desc (t.transfer.descVirt + i) = t.node i

/-- Where the slots are the same, so is what the engine reads. -/
theorem Intact.row' (h : Intact e t) : Chain.Row e.memory t.transfer.descNum t.place t.node := by
  refine ⟨?_, h.row.behind, h.row.next, h.row.adj⟩
  intro i hi
  have hfits := h.fits
  have hmax : e.descMax ≤ 2048 := e.descMax_le
  have hoff : (t.place i - t.engine.descBus).toNat = 32 * (t.transfer.descVirt + i) := by
    rw [Posted.place, add_sub_cancel_left, BitVec.toNat_ofNat]
    omega
  have hfetch := h.row.fetch i hi
  unfold XdmaEngine.memory at hfetch ⊢
  dsimp only at hfetch ⊢
  rw [h.settings.descBus, h.settings.descMax]
  rw [hoff, Nat.mul_div_cancel_left _ (by norm_num)] at hfetch ⊢
  rw [h.same i hi]
  exact hfetch

theorem Intact.walk (h : Intact e t) : ∃ ds,
    Chain.walk e.memory t.transfer.descNum t.transfer.descBus = some ds ∧ t.descs = some ds := by
  obtain ⟨n, hn⟩ := Nat.exists_eq_succ_of_ne_zero (Nat.ne_of_gt h.pos)
  have hlen : 0 + n + 1 = t.transfer.descNum := by omega
  have hfuel : n < t.transfer.descNum := by omega
  rw [Posted.descs, h.bus]
  exact ⟨_, h.row'.walk hlen hfuel, h.row.walk hlen hfuel⟩

/-- A transfer just built. -/
theorem Built.intact (hB : Built e req e' req' x) : Intact e' ⟨e', x⟩ := by
  have hplace : (⟨e', x⟩ : Posted).place = e.place := by
    funext i
    rw [Posted.place, hB.settings.descBus, hB.virt, XdmaEngine.place]
  have hnode : (⟨e', x⟩ : Posted).node = fun i => e'.desc (e.descIdx + i) := by
    funext i
    rw [Posted.node, hB.virt]
  refine ⟨?_, hB.pos, ?_, ?_, ⟨rfl, rfl, rfl, rfl, rfl, rfl⟩, fun i _ => rfl⟩
  · rw [hplace, hnode]
    exact hB.row
  · rw [hB.virt, hB.settings.descMax]
    exact hB.fits
  · rw [hplace]
    exact hB.bus

/-- Writes elsewhere leave a transfer alone. -/
theorem Intact.frame (h : Intact e t) (hset : e.SameSettings e')
    (hout : ∀ j ∈ Segments.cover 1 [t.range], e'.desc j = e.desc j) : Intact e' t := by
  refine ⟨h.row, h.pos, hset.descMax ▸ h.fits, h.bus, SameSettings.trans h.settings hset, ?_⟩
  intro i hi
  rw [← h.same i hi]
  apply hout
  rw [Segments.cover_cons, List.mem_append]
  exact Or.inl (Segments.mem_pts.2 ⟨i, hi, by simp [Posted.range]⟩)

theorem transferDestroy_out {j : ℕ}
    (hj : j < x.descVirt ∨ x.descVirt + x.descNum ≤ j) : (transferDestroy e x).desc j = e.desc j := by
  unfold transferDestroy
  dsimp only
  rw [Loops.fill_out hj]

/-! ## Runs -/

/-- The transfer to be built finds room. -/
def Room : RingEvent → RingState → Prop
  | .build req, s => s.engine.descUsed + transferDescMax s.engine req ≤ s.engine.descMax
  | .retire, _ => True

def RingState.ranges (s : RingState) : List (ℕ × ℕ) := s.live.map Posted.range

/-- The transfers in flight lie around the ring, `desc_used` slots in all, and are intact. -/
structure RingInv (e : XdmaEngine) (s : RingState) : Prop where
  settings : e.SameSettings s.engine
  around : ∃ p, Ring.Around s.engine.descMax p s.ranges s.engine.descIdx
  used : s.engine.descUsed = Segments.total s.ranges
  le : Segments.total s.ranges ≤ s.engine.descMax
  intact : ∀ t ∈ s.live, Intact s.engine t

theorem mem_ranges {j : ℕ} (ht : t ∈ s.live) (hj : j ∈ Segments.cover 1 [t.range]) :
    j ∈ Segments.cover 1 s.ranges := by
  obtain ⟨l, l', hl⟩ := List.append_of_mem ht
  rw [RingState.ranges, hl, List.map_append, List.map_cons, Segments.cover_append,
    Segments.cover_cons]
  rw [Segments.cover_cons, show Segments.cover 1 ([] : List (ℕ × ℕ)) = [] from rfl,
    List.append_nil] at hj
  simp [hj]

theorem RingInv.build (hp : e.Plain) (hI : RingInv e s)
    (hx : transferInit s.engine req = some (e', req', x)) (hroom : Room (.build req) s) :
    RingInv e ⟨e', s.live ++ [⟨e', x⟩]⟩ := by
  have hB := built (SameSettings.plain hI.settings hp) hx
  obtain ⟨p, hp⟩ := hI.around
  have hroom' : Segments.total s.ranges + x.descNum ≤ s.engine.descMax := by
    have : s.engine.descUsed + transferDescMax s.engine req ≤ s.engine.descMax := hroom
    rw [hI.used, ← hB.num] at this
    omega
  have hranges : (⟨e', s.live ++ [⟨e', x⟩]⟩ : RingState).ranges =
      s.ranges ++ [(s.engine.descIdx, x.descNum)] := by
    rw [RingState.ranges, List.map_append, List.map_singleton, Posted.range, hB.virt]
    rfl
  have htotal : Segments.total (s.ranges ++ [(s.engine.descIdx, x.descNum)]) =
      Segments.total s.ranges + x.descNum := Segments.total_append _ _
  refine ⟨SameSettings.trans hI.settings hB.settings, ⟨p, ?_⟩, ?_, ?_, ?_⟩
  · rw [hranges, hB.idx, hB.settings.descMax]
    exact hp.snoc hB.pos hB.fits
  · rw [hranges, htotal, hB.used, hI.used]
    push_cast
    rfl
  · rw [hranges, htotal, hB.settings.descMax]
    exact hroom'
  · intro t ht
    rcases List.mem_append.1 ht with ht | ht
    · refine (hI.intact t ht).frame hB.settings fun j hj => hB.outside j ?_
      exact hp.free hB.fits hroom' (mem_ranges ht hj)
    · rw [List.mem_singleton.1 ht]
      exact hB.intact

theorem RingInv.retire {live : List Posted} (hI : RingInv e s) (hl : s.live = t :: live) :
    RingInv e ⟨{ transferDestroy s.engine t.transfer with
      descUsed := s.engine.descUsed - t.transfer.descNum }, live⟩ := by
  obtain ⟨p, hp⟩ := hI.around
  have hranges : s.ranges = t.range :: live.map Posted.range := by
    rw [RingState.ranges, hl, List.map_cons]
  have hle := hI.le
  have hused := hI.used
  rw [hranges] at hp hle hused
  refine ⟨⟨hI.settings.1, hI.settings.2, hI.settings.3, hI.settings.4, hI.settings.5,
    hI.settings.6⟩, ⟨_, hp.tail⟩, ?_, ?_, ?_⟩
  · change s.engine.descUsed - t.transfer.descNum = _
    rw [hused, Segments.total_cons]
    push_cast
    exact add_sub_cancel_left _ _
  · exact (Nat.le_add_left _ _).trans hle
  · intro t' ht'
    refine (hI.intact t' (by rw [hl]; exact List.mem_cons_of_mem _ ht')).frame
      ⟨rfl, rfl, rfl, rfl, rfl, rfl⟩ fun j hj => ?_
    have hfree : j < t.transfer.descVirt ∨ t.transfer.descVirt + t.transfer.descNum ≤ j :=
      hp.oldest hle (mem_ranges (s := ⟨s.engine, live⟩) ht' hj)
    exact transferDestroy_out hfree

theorem RingInv.step {ev : RingEvent} (hp : e.Plain) (hI : RingInv e s) (hroom : Room ev s)
    (h : ringStep ev s = some s') : RingInv e s' := by
  cases ev with
  | build req =>
    obtain ⟨⟨e', req', x⟩, hx, rfl⟩ := Option.map_eq_some_iff.1 h
    exact hI.build hp hx hroom
  | retire =>
    cases hl : s.live with
    | nil => simp [ringStep, hl] at h
    | cons t live =>
      simp only [ringStep, hl, Option.some.injEq] at h
      rw [← h]
      exact hI.retire hl

theorem ringInv (hp : e.Plain) (h0 : e.descUsed = 0) (h : Run ringStep Room ⟨e, []⟩ es s) :
    RingInv e s := by
  refine h.invariant ⟨⟨rfl, rfl, rfl, rfl, rfl, rfl⟩, ⟨e.descIdx, rfl, e.descIdx_lt⟩, h0,
    Nat.zero_le _, by simp⟩ ?_
  intro ev s s' hroom hs hI
  exact hI.step hp hroom hs

/-- While every transfer built finds room, the engine reads of each transfer in flight what
it was built as. The next transfer keeps clear of all of them if and only if it finds room. -/
theorem ring_intact_iff (hp : e.Plain) (h0 : e.descUsed = 0)
    (h : Run ringStep Room ⟨e, []⟩ es s) :
    (∀ t ∈ s.live, ∃ ds,
      Chain.walk s.engine.memory t.transfer.descNum t.transfer.descBus = some ds ∧
        t.descs = some ds) ∧
    ∀ req e' req' x, transferInit s.engine req = some (e', req', x) →
      ((∀ t ∈ s.live, t.transfer.descVirt + t.transfer.descNum ≤ x.descVirt ∨
          x.descVirt + x.descNum ≤ t.transfer.descVirt) ↔
        s.engine.descUsed + x.descNum ≤ s.engine.descMax) := by
  have hI := ringInv hp h0 h
  refine ⟨fun t ht => (hI.intact t ht).walk, ?_⟩
  intro req e' req' x hx
  have hB := built (SameSettings.plain hI.settings hp) hx
  obtain ⟨p, hp⟩ := hI.around
  rw [hB.virt, hI.used]
  constructor
  · intro hclear
    by_contra hfull
    cases hl : s.live with
    | nil =>
      have hfits := hB.fits
      rw [RingState.ranges, hl] at hfull
      exact hfull (by simpa using Nat.le_of_add_left_le hfits)
    | cons t live =>
      have hranges : s.ranges = t.range :: live.map Posted.range := by
        rw [RingState.ranges, hl, List.map_cons]
      have hle := hI.le
      rw [hranges] at hp hle hfull
      have hover := hp.overrun hB.fits hle (by omega)
      have hpos := (hI.intact t (by simp [hl])).pos
      have hclear := hclear t (by simp [hl])
      unfold Posted.range at hover
      omega
  · intro hroom t ht
    have hpos := (hI.intact t ht).pos
    have hfree : ∀ i < t.transfer.descNum, t.transfer.descVirt + i < s.engine.descIdx ∨
        s.engine.descIdx + x.descNum ≤ t.transfer.descVirt + i := by
      intro i hi
      refine hp.free hB.fits (by omega) (mem_ranges ht ?_)
      rw [Segments.cover_cons, List.mem_append]
      exact Or.inl (Segments.mem_pts.2 ⟨i, hi, by simp [Posted.range]⟩)
    have hfirst := hfree 0 hpos
    by_contra hcon
    have hin := hfree (s.engine.descIdx - t.transfer.descVirt) (by omega)
    have hnew := hB.pos
    omega

/-- Three of four descriptors, and the fourth. -/
theorem ring_intact_iff_full : ∃ s,
    Run ringStep Room ⟨fourDescs, []⟩ [.build threePieces, .build threePieces] s ∧
    (∀ t ∈ s.live, ∃ ds,
      Chain.walk s.engine.memory t.transfer.descNum t.transfer.descBus = some ds ∧
        t.descs = some ds) ∧
    ∀ req e' req' x, transferInit s.engine req = some (e', req', x) →
      ((∀ t ∈ s.live, t.transfer.descVirt + t.transfer.descNum ≤ x.descVirt ∨
          x.descVirt + x.descNum ≤ t.transfer.descVirt) ↔
        s.engine.descUsed + x.descNum ≤ s.engine.descMax) := by
  have hplain : fourDescs.Plain := by decide
  obtain ⟨e₁, req₁, x₁, hx₁⟩ := transferInit_eq fourDescs threePieces (by decide)
  have hB := built hplain hx₁
  have hnum : x₁.descNum = 3 := hB.num.trans (by decide)
  have hidx : e₁.descIdx = 3 := by
    rw [hB.idx, hnum]
    rfl
  have hmax : e₁.descMax = 4 := hB.settings.descMax
  have hmore : transferDescMax e₁ threePieces = 1 := by
    rw [transferDescMax_eq, hidx, hmax]
    rfl
  have hroom : e₁.descUsed + transferDescMax e₁ threePieces ≤ e₁.descMax := by
    rw [hB.used, hnum, hmore, hmax]
    decide
  obtain ⟨e₂, req₂, x₂, hx₂⟩ := transferInit_eq e₁ threePieces (by omega)
  have hfirst : ringStep (.build threePieces) ⟨fourDescs, []⟩ = some ⟨e₁, [⟨e₁, x₁⟩]⟩ := by
    rw [ringStep, hx₁]
    rfl
  have hsecond : ringStep (.build threePieces) ⟨e₁, [⟨e₁, x₁⟩]⟩ =
      some ⟨e₂, [⟨e₁, x₁⟩, ⟨e₂, x₂⟩]⟩ := by
    rw [ringStep, hx₂]
    rfl
  have hrun : Run ringStep Room ⟨fourDescs, []⟩ [.build threePieces, .build threePieces]
      ⟨e₂, [⟨e₁, x₁⟩, ⟨e₂, x₂⟩]⟩ := by
    refine Run.snoc (Run.one ?_ hfirst) hroom hsecond
    exact show (0 : ℤ) + transferDescMax fourDescs threePieces ≤ (4 : ℕ) by decide
  exact ⟨_, hrun, ring_intact_iff hplain rfl hrun⟩

/-! ## The transfers of one request -/

/-- Transfers end where the descriptor memory does, so their number is that of the turns of
the ring that the pieces reach into. -/
theorem nowaitLoop_spec {queue : ℕ → ℤ} (hq : ∀ i, 0 ≤ queue i) (hp : e.Plain) {fuel : ℕ}
    {l : List XdmaTransfer} (hfuel : req.rest.length ≤ fuel) (hne : 0 < req.rest.length) {k : ℕ}
    (hl : l.length + k = 2) :
    ∃ s, nowaitLoop queue fuel ⟨e, req, req.rest.length, l⟩ = some
      (if e.descIdx + req.rest.length ≤ k * e.descMax then .ret (-PcieDriver.EIOCBQUEUED)
        else .overrun, s) ∧
      (k * e.descMax < e.descIdx + req.rest.length → s.transfers.length = 2) := by
  induction fuel generalizing e req l k with
  | zero => omega
  | succ fuel ih =>
    have hlt := e.descIdx_lt
    rw [nowaitLoop, if_neg (Nat.ne_of_gt hne)]
    cases k with
    | zero =>
      rw [if_pos (show 2 ≤ l.length by omega), if_neg (by omega)]
      exact ⟨_, rfl, fun _ => hl⟩
    | succ k =>
      obtain ⟨e', req', x, hx⟩ :=
        transferInit_eq e req (transferDescMax_pos (List.ne_nil_of_length_pos hne))
      have hB := built hp hx
      have hnum := hB.num.trans (transferDescMax_eq e req)
      have hrest : req'.rest.length = req.rest.length - x.descNum := by
        rw [hB.rest, List.length_drop]
      rw [if_neg (show ¬2 ≤ l.length by omega), hx, Option.bind_some]
      dsimp only
      rw [if_neg (not_lt.2 (hq _)), ← hrest]
      by_cases hlast : req.rest.length ≤ e.descMax - e.descIdx
      · have hfits : e.descIdx + req.rest.length ≤ (k + 1) * e.descMax := by
          rw [Nat.succ_mul]
          omega
        rw [show req'.rest.length = 0 by omega, if_pos hfits]
        cases fuel with
        | zero => exact ⟨_, if_pos rfl, fun hover => absurd hfits (not_le.2 hover)⟩
        | succ fuel => exact ⟨_, if_pos rfl, fun hover => absurd hfits (not_le.2 hover)⟩
      · have hidx : e'.descIdx = 0 := by
          rw [hB.idx, hnum, Nat.min_eq_right (by omega), Nat.add_sub_cancel' hlt.le, Nat.mod_self]
        obtain ⟨s, hs, htwo⟩ := ih (l := l ++ [x]) (k := k) (SameSettings.plain hB.settings hp)
          (show req'.rest.length ≤ fuel by have := hB.pos; omega) (by omega)
          (by rw [List.length_append, List.length_singleton]; omega)
        have hturn : e'.descIdx + req'.rest.length ≤ k * e'.descMax ↔
            e.descIdx + req.rest.length ≤ (k + 1) * e.descMax := by
          rw [hidx, hB.settings.descMax, Nat.succ_mul]
          omega
        refine ⟨s, ?_, fun hover => htwo ?_⟩
        · rw [hs, if_congr hturn rfl rfl]
        · exact not_le.1 (mt hturn.1 (not_le.2 hover))

/-- A request is queued exactly when its pieces reach at most into the second turn of the
descriptor memory; of a longer one two transfers are queued, and a third is built past the array
of two. -/
theorem nowait_tfer_iff {queue : ℕ → ℤ} (hq : ∀ i, 0 ≤ queue i) (hp : e.Plain)
    (h0 : req.swDescIdx = 0) : ∃ s,
    nowaitTransfers e req queue req.sdesc.length = some
      (if e.descIdx + req.sdesc.length ≤ 2 * e.descMax then .ret (-PcieDriver.EIOCBQUEUED)
        else .overrun, s) ∧
      (2 * e.descMax < e.descIdx + req.sdesc.length → s.transfers.length = 2) := by
  have hrest : req.rest = req.sdesc := by rw [XdmaRequestCb.rest, h0, List.drop_zero]
  have hlt := e.descIdx_lt
  unfold nowaitTransfers
  rw [← hrest]
  rcases Nat.eq_zero_or_pos req.rest.length with h | h
  · rw [h, if_pos (by omega)]
    exact ⟨_, if_pos rfl, fun hover => by omega⟩
  · exact nowaitLoop_spec hq hp le_rfl h rfl

def ninePieces : XdmaRequestCb :=
  ⟨0, 288, List.replicate 9 ⟨0x1000, 32⟩, 0, Nat.zero_le _⟩

/-- Nine pieces for a memory of four. -/
theorem nowait_tfer_iff_nine : ∃ s,
    nowaitTransfers fourDescs ninePieces (fun _ => 0) 9 = some (.overrun, s) ∧
      s.transfers.length = 2 := by
  obtain ⟨s, hs, htwo⟩ := nowait_tfer_iff
    (show ∀ i, 0 ≤ (fun _ => 0 : ℕ → ℤ) i from fun _ => le_rfl) (show fourDescs.Plain by decide) (show ninePieces.swDescIdx = 0 from rfl)
  exact ⟨s, hs, htwo (by decide)⟩

end ZynqSha256.Xdma
