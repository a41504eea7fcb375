import ZynqSha256.Driver.XdmaSubmit
import ZynqSha256.Proofs.XdmaRequest

/-! `xdma_xfer_submit`: whatever becomes of the transfers, the ones that complete make the
copies of a front part of the request, and the count returned is the size of that part. -/

namespace ZynqSha256.Xdma

variable {e e' : XdmaEngine} {req req' : XdmaRequestCb} {x : XdmaTransfer} {s s' : SubmitState}
  {o : Outcome}

/-- The descriptors an engine finds that is started at the transfer. -/
def Posted.descs (r : Posted) : Option (List XdmaDesc) :=
  Chain.walk r.engine.memory r.transfer.descNum r.transfer.descBus

/-- The copies they ask for. -/
def Posted.copies (r : Posted) : List Copy :=
  (r.descs.getD []).map (XdmaDesc.copy r.engine.dir)

/-- The copies of the first `m` pieces of a request. -/
def front (e : XdmaEngine) (req : XdmaRequestCb) (m : ℕ) : List Copy :=
  Segments.lay e.epStep (runs (req.rest.take m)) req.epAddr

/-- The size of the first `m` pieces. -/
def frontBytes (req : XdmaRequestCb) (m : ℕ) : ℕ := Segments.total (runs (req.rest.take m))

theorem frontBytes_eq (e : XdmaEngine) (req : XdmaRequestCb) (m : ℕ) :
    Segments.total (front e req m) = frontBytes req m :=
  Segments.total_lay _ _ _

theorem runs_append (ds ds' : List SwDesc) : runs (ds ++ ds') = runs ds ++ runs ds' :=
  List.map_append

/-- The pieces that follow the first `m` are laid out where those end. -/
theorem front_add (e : XdmaEngine) (req : XdmaRequestCb) (m n : ℕ) :
    front e req (m + n) = front e req m ++
      Segments.lay e.epStep (runs ((req.rest.drop m).take n)) (epOf e req.epAddr req.rest m) := by
  rw [front, List.take_add, runs_append, Segments.lay_append]
  rfl

theorem frontBytes_add (req : XdmaRequestCb) (m n : ℕ) :
    frontBytes req (m + n) =
      frontBytes req m + Segments.total (runs ((req.rest.drop m).take n)) := by
  rw [frontBytes, List.take_add, runs_append, Segments.total_append]
  rfl

theorem frontBytes_le (req : XdmaRequestCb) (m : ℕ) :
    frontBytes req m ≤ Segments.total (runs req.rest) := by
  conv_rhs => rw [← List.take_append_drop m req.rest, runs_append, Segments.total_append]
  exact Nat.le_add_right _ _

theorem transferDescMax_pos (h : req.rest ≠ []) : transferDescMax e req ≠ 0 := by
  have hpos := List.length_pos_of_ne_nil h
  have hlt := e.descIdx_lt
  rw [length_rest] at hpos
  unfold transferDescMax
  dsimp only
  split <;> omega

theorem SameSettings.epStep (h : e.SameSettings e') : e'.epStep = e.epStep := by
  rw [XdmaEngine.epStep, h.nonIncrAddr]
  rfl

theorem SameSettings.plain (h : e.SameSettings e') (hp : e.Plain) : e'.Plain := by
  unfold XdmaEngine.Plain
  rwa [h.streaming, h.dir]

theorem SameSettings.trans {e'' : XdmaEngine} (h : e.SameSettings e') (h' : e'.SameSettings e'') :
    e.SameSettings e'' :=
  ⟨h'.dir.trans h.dir, h'.streaming.trans h.streaming, h'.nonIncrAddr.trans h.nonIncrAddr,
    h'.eopFlush.trans h.eopFlush, h'.descMax.trans h.descMax, h'.descBus.trans h.descBus⟩

/-! ## One round -/

/-- After transfers for the first `m` pieces, all of them completed. -/
structure Delivered (e : XdmaEngine) (req : XdmaRequestCb) (m : ℕ) (s : SubmitState) : Prop where
  settings : e.SameSettings s.engine
  le : m ≤ req.rest.length
  nents : s.nents = req.rest.length - m
  rest : s.req.rest = req.rest.drop m
  ep : s.req.epAddr = epOf e req.epAddr req.rest m
  done : s.done = frontBytes req m
  rv : s.rv = 0
  used : s.engine.descUsed = e.descUsed
  completed : ∀ r ∈ s.rounds, r.completed = true
  copies : s.rounds.flatMap (·.copies) = front e req m

theorem delivered_zero (e : XdmaEngine) (req : XdmaRequestCb) :
    Delivered e req 0 ⟨e, req, req.rest.length, 0, 0, []⟩ :=
  ⟨⟨rfl, rfl, rfl, rfl, rfl, rfl⟩, Nat.zero_le _, rfl, rfl, by simp [epOf, runs], rfl, rfl, rfl,
    by simp, rfl⟩

/-- The copies of a transfer just built are those of the next pieces. -/
theorem Built.copies_round (hB : Built e req e' req' x) :
    Posted.copies ⟨e', x⟩ =
      Segments.lay e.epStep (runs (req.rest.take x.descNum)) req.epAddr := by
  obtain ⟨n, hn⟩ := Nat.exists_eq_succ_of_ne_zero (Nat.ne_of_gt hB.pos)
  have hwalk := hB.row.walk (show 0 + n + 1 = x.descNum by omega)
    (show n < x.descNum by omega)
  rw [← hB.bus] at hwalk
  unfold Posted.copies Posted.descs
  dsimp only
  rw [hwalk, Option.getD_some, hB.settings.dir, ← hB.map_copy, hn]

/-- The round that ends the loop, and the ones before it. -/
structure Ended (e : XdmaEngine) (req : XdmaRequestCb) (m : ℕ) (s : SubmitState) : Prop where
  done : s.done = frontBytes req m
  le : m ≤ req.rest.length
  rv : s.rv < 0
  rounds : ∃ rs r, s.rounds = rs ++ [r] ∧ (∀ r ∈ rs, r.completed = true) ∧
    r.completed = false ∧ rs.flatMap (·.copies) = front e req m

/-- The size of the transfer built next. -/
theorem Delivered.size {m : ℕ} (htot : Segments.total (runs req.rest) < 2 ^ 32)
    (hD : Delivered e req m s) (hB : Built s.engine s.req e' req' x) :
    frontBytes req m + x.len.toNat = frontBytes req (m + x.descNum) := by
  have hadd := frontBytes_add req m x.descNum
  have hle := frontBytes_le req (m + x.descNum)
  rw [hB.len, hD.rest, BitVec.toNat_ofNat, Nat.mod_eq_of_lt (by omega), hadd]

/-- A completed transfer adds its copies to those before. -/
theorem Delivered.next {m : ℕ} (hp : e.Plain)
    (htot : Segments.total (runs req.rest) < 2 ^ 32)
    (hD : Delivered e req m s) (hB : Built s.engine s.req e' req' x)
    (ho : Round.completed ⟨⟨e', x⟩, o⟩ = true) :
    Delivered e req (m + x.descNum)
      ⟨transferDestroy { e' with descUsed := e'.descUsed - x.descNum } x, req',
        s.nents - x.descNum, s.done + doneBytes e' x o, 0, s.rounds ++ [⟨⟨e', x⟩, o⟩]⟩ := by
  have hset := SameSettings.trans hD.settings hB.settings
  have hleft : x.descNum ≤ req.rest.length - m := by
    have := hB.left
    rwa [hD.rest, List.length_drop] at this
  have hlen : 0 < req.rest.length - m := Nat.lt_of_lt_of_le hB.pos hleft
  have hplain : ¬(e'.streaming = true ∧ e'.dir = .fromDevice) := SameSettings.plain hset hp
  refine ⟨⟨hset.1, hset.2, hset.3, hset.4, hset.5, hset.6⟩, by omega, ?_, ?_, ?_, ?_, rfl, ?_,
    ?_, ?_⟩
  · dsimp only
    rw [hD.nents]
    omega
  · rw [hB.rest, hD.rest, List.drop_drop]
  · rw [hB.ep, hD.ep, hD.rest, epOf, epOf, epOf, SameSettings.epStep hD.settings, List.take_add,
      runs_append, Segments.total_append, add_nsmul, add_assoc]
  · rw [doneBytes, if_neg hplain, ← hD.size htot hB, ← hD.done]
  · change e'.descUsed - x.descNum = e.descUsed
    rw [hB.used, hD.used, add_sub_cancel_right]
  · intro r hr
    rcases List.mem_append.1 hr with hr | hr
    · exact hD.completed r hr
    · rwa [List.mem_singleton.1 hr]
  · rw [List.flatMap_append, hD.copies, List.flatMap_singleton, hB.copies_round,
      SameSettings.epStep hD.settings, hD.rest, hD.ep, front_add]

/-- Any other transfer ends the loop. -/
theorem Delivered.ended {m : ℕ} (hD : Delivered e req m s) {r : Round} (hr : r.completed = false)
    (hdone : s'.done = s.done) (hrv : s'.rv < 0) (hrounds : s'.rounds = s.rounds ++ [r]) :
    Ended e req m s' :=
  ⟨hdone.trans hD.done, hD.le, hrv, s.rounds, r, hrounds, hD.completed, hr, hD.copies⟩

theorem submitRound_spec {m : ℕ} (hp : e.Plain) (htot : Segments.total (runs req.rest) < 2 ^ 32)
    (hwait : o.waitEnds = true) (hD : Delivered e req m s) (hm : m < req.rest.length) : ∃ s' go,
    submitRound o s = some (s', go) ∧
      (go = true ∧ (∃ n > 0, Delivered e req (m + n) s') ∨ go = false ∧ Ended e req m s') := by
  have hne : s.req.rest ≠ [] := by
    rw [hD.rest, ne_eq, List.drop_eq_nil_iff]
    omega
  obtain ⟨e', req', x, hx⟩ := transferInit_eq s.engine s.req (transferDescMax_pos hne)
  have hB := built (SameSettings.plain hD.settings hp) hx
  have hplain : ¬(e'.streaming = true ∧ e'.dir = .fromDevice) :=
    SameSettings.plain (SameSettings.trans hD.settings hB.settings) hp
  rw [submitRound, hx, Option.bind_some]
  dsimp only
  rw [hwait, Bool.not_true, if_neg Bool.false_ne_true]
  by_cases hq : o.transferQueue < 0
  · rw [if_pos hq]
    have hr : Round.completed ⟨⟨e', x⟩, o⟩ = false := by simp [Round.completed, hq]
    exact ⟨_, _, rfl, Or.inr ⟨rfl, hD.ended hr rfl hq rfl⟩⟩
  · rw [if_neg hq]
    by_cases hs : o.state = .completed
    · have hr : Round.completed ⟨⟨e', x⟩, o⟩ = true := by simp [Round.completed, hs, not_lt.1 hq]
      rw [hs]
      dsimp only
      rw [if_neg fun h => hplain ⟨h.1, h.2.1⟩]
      exact ⟨_, _, rfl, Or.inl ⟨rfl, x.descNum, hB.pos, hD.next hp htot hB hr⟩⟩
    · have hr : Round.completed ⟨⟨e', x⟩, o⟩ = false := by simp [Round.completed, hs]
      have h_io : - PcieDriver.EIO < 0 := by decide
      have hERESTARTSYS : -ERESTARTSYS < 0 := by decide
      cases hst : o.state with
      | completed => exact absurd hst hs
      | failed => exact ⟨_, _, rfl, Or.inr ⟨rfl, hD.ended hr rfl h_io rfl⟩⟩
      | new => exact ⟨_, _, rfl, Or.inr ⟨rfl, hD.ended hr rfl hERESTARTSYS rfl⟩⟩
      | submitted => exact ⟨_, _, rfl, Or.inr ⟨rfl, hD.ended hr rfl hERESTARTSYS rfl⟩⟩
      | aborted => exact ⟨_, _, rfl, Or.inr ⟨rfl, hD.ended hr rfl hERESTARTSYS rfl⟩⟩

/-! ## The whole request -/

/-- Each round takes a piece at least. -/
theorem submitLoop_spec {m fuel : ℕ} {outcomes : ℕ → Outcome}
    (hwait : ∀ i, (outcomes i).waitEnds = true) (hp : e.Plain)
    (htot : Segments.total (runs req.rest) < 2 ^ 32) (hD : Delivered e req m s)
    (hfuel : req.rest.length - m ≤ fuel) : ∃ s', submitLoop outcomes fuel s = some s' ∧
      (Delivered e req req.rest.length s' ∨ ∃ m, Ended e req m s') := by
  induction fuel generalizing m s with
  | zero =>
    have hm : m = req.rest.length := by
      have := hD.le
      omega
    refine ⟨s, ?_, Or.inl (hm ▸ hD)⟩
    rw [submitLoop, if_pos (by rw [hD.nents]; omega)]
  | succ fuel ih =>
    rw [submitLoop]
    by_cases hm : m = req.rest.length
    · exact ⟨s, if_pos (by rw [hD.nents]; omega), Or.inl (hm ▸ hD)⟩
    have hlt : m < req.rest.length := lt_of_le_of_ne hD.le hm
    rw [if_neg (by rw [hD.nents]; omega)]
    obtain ⟨s', go, hround, hgo⟩ := submitRound_spec hp htot (hwait s.rounds.length) hD hlt
    rw [hround, Option.bind_some]
    rcases hgo with ⟨rfl, n, hn, hD'⟩ | ⟨rfl, hE⟩
    · exact ih hD' (by omega)
    · exact ⟨s', rfl, Or.inr ⟨m, hE⟩⟩

/-- The bytes of the first pieces are the first bytes of the request. -/
theorem cover_front (e : XdmaEngine) (req : XdmaRequestCb) (m : ℕ) :
    Segments.cover (1, e.epStep) (front e req m) =
      ((Segments.cover 1 (runs req.rest)).zip
        (Segments.pts e.epStep req.epAddr (Segments.total (runs req.rest)))).take
        (frontBytes req m) := by
  have hlen : (Segments.cover (1, e.epStep) (front e req m)).length = frontBytes req m := by
    rw [Segments.length_cover, frontBytes_eq]
  rw [← Segments.cover_lay]
  conv_rhs => rw [← List.take_append_drop m req.rest]
  rw [runs_append, Segments.lay_append, Segments.cover_append]
  exact (List.take_left' hlen).symm

theorem filter_completed {rs : List Round} (h : ∀ r ∈ rs, r.completed = true) :
    rs.filter Round.completed = rs :=
  List.filter_eq_self.2 h

theorem filter_ended {rs : List Round} {r : Round} (h : ∀ r ∈ rs, r.completed = true)
    (hr : r.completed = false) : (rs ++ [r]).filter Round.completed = rs := by
  rw [List.filter_append, filter_completed h, List.filter_cons_of_neg (by simp [hr])]
  exact List.append_nil rs

/-- The loop over the transfers ends if its waits do. Those that completed, all but the last one perhaps, made
the copies of the first `done` bytes of the request. -/
theorem submitTransfers_spec (hp : e.Plain) (hidx : req.swDescIdx = 0)
    (htot : Segments.total (runs req.sdesc) < 2 ^ 32) {outcomes : ℕ → Outcome}
    (hwait : ∀ i, (outcomes i).waitEnds = true) : ∃ s,
    submitTransfers e req outcomes req.sdesc.length = some s ∧
      Segments.cover (1, e.epStep) ((s.rounds.filter Round.completed).flatMap (·.copies)) =
        ((Segments.cover 1 (runs req.sdesc)).zip
          (Segments.pts e.epStep req.epAddr (Segments.total (runs req.sdesc)))).take s.done ∧
      (∀ r ∈ s.rounds.dropLast, r.completed = true) ∧
      ((s.rv = 0 ∧ s.done = Segments.total (runs req.sdesc) ∧ s.engine.descUsed = e.descUsed ∧
          ∀ r ∈ s.rounds, r.completed = true) ∨
        (s.rv < 0 ∧ s.done ≤ Segments.total (runs req.sdesc) ∧
          ∃ r, s.rounds.getLast? = some r ∧ r.completed = false)) := by
  have hrest : req.rest = req.sdesc := by rw [XdmaRequestCb.rest, hidx, List.drop_zero]
  rw [← hrest] at htot ⊢
  obtain ⟨s, hs, hend⟩ := submitLoop_spec hwait hp htot
    (delivered_zero e req) (show req.rest.length - 0 ≤ req.rest.length by omega)
  rw [submitTransfers, ← hrest]
  refine ⟨s, hs, ?_⟩
  rcases hend with hD | ⟨m, hE⟩
  · have hall : frontBytes req req.rest.length = Segments.total (runs req.rest) := by
      rw [frontBytes, List.take_length]
    refine ⟨?_, fun r hr => hD.completed r (List.mem_of_mem_dropLast hr),
      Or.inl ⟨hD.rv, hD.done.trans hall, hD.used, hD.completed⟩⟩
    rw [filter_completed hD.completed, hD.copies, cover_front, hD.done]
  · obtain ⟨rs, r, hrounds, hrs, hr, hcopies⟩ := hE.rounds
    refine ⟨?_, ?_, Or.inr ⟨hE.rv, hE.done.trans_le (frontBytes_le req m), r, ?_, hr⟩⟩
    · rw [hrounds, filter_ended hrs hr, hcopies, cover_front, hE.done]
    · rw [hrounds, List.dropLast_concat]
      exact hrs
    · rw [hrounds, List.getLast?_concat]

/-- If its waits end the call returns, whatever becomes of each transfer. The transfers that
completed, all
but the last one perhaps, made the copies of the first `done` bytes of the scatter list, each
to its place behind the engine and in order. Without an error these are all its bytes and
their number is returned; with one, what was done is returned unless it is nothing. -/
theorem xdmaXferSubmit_streams {sizeofCb : ℕ} {sgl : List SgEntry} {b : BitVec 32} {fuel : ℕ}
    (hb : 0 < b.toNat)
    (hsg : ∀ sg ∈ sgl, sg.dmaLen.toNat ≤ fuel ∧ sg.dmaLen.toNat + b.toNat ≤ 2 ^ 32)
    (hsize : SizeFits sizeofCb b sgl) (htot : Segments.total (sgRuns sgl) < 2 ^ 32) (hp : e.Plain)
    (ep : BitVec 64) {outcomes : ℕ → Outcome} (hwait : ∀ i, (outcomes i).waitEnds = true) : ∃ req s,
    xdmaInitRequest sizeofCb b true fuel sgl ep = some (some req) ∧
      submitTransfers e req outcomes req.sdesc.length = some s ∧
      Segments.cover (1, e.epStep) ((s.rounds.filter Round.completed).flatMap (·.copies)) =
        ((Segments.cover 1 (sgRuns sgl)).zip
          (Segments.pts e.epStep ep (Segments.total (sgRuns sgl)))).take s.done ∧
      (∀ r ∈ s.rounds.dropLast, r.completed = true) ∧
      ((s.rv = 0 ∧ s.ret = Segments.total (sgRuns sgl) ∧ s.engine.descUsed = e.descUsed ∧
          ∀ r ∈ s.rounds, r.completed = true) ∨
        (s.rv < 0 ∧ s.ret = if s.done = 0 then s.rv else s.done)) := by
  obtain ⟨req, hreq, hcover, htotal, hidx, hep⟩ := xdmaInitRequest_runs hb ep hsg hsize
  obtain ⟨s, hs, hcopies, hlast, hend⟩ := submitTransfers_spec hp hidx (htotal ▸ htot) hwait
  rw [hcover, htotal, hep] at hcopies
  refine ⟨req, s, hreq, hs, hcopies, hlast, ?_⟩
  rcases hend with ⟨hrv, hdone, hused, hall⟩ | ⟨hrv, -, -⟩
  · refine Or.inl ⟨hrv, ?_, hused, hall⟩
    rw [SubmitState.ret, hrv, hdone, htotal]
    split <;> omega
  · exact Or.inr ⟨hrv, ite_not _ _ _⟩

/-- The second of two transfers fails. -/
theorem xdmaXferSubmit_streams_failing : ∃ req s,
    xdmaInitRequest 0x200 16 true 80 [⟨0x1000, 80⟩] 0 = some (some req) ∧
      submitTransfers fourDescs req
        (fun i => ⟨0, true, if i = 0 then .completed else .failed, 0, fun _ => ⟨0, 0⟩⟩)
        req.sdesc.length = some s ∧
      Segments.cover (1, 1) ((s.rounds.filter Round.completed).flatMap (·.copies)) =
        ((Segments.cover 1 [(0x1000, 80)]).zip (Segments.pts 1 0 80)).take s.done := by
  obtain ⟨req, s, hreq, hs, hcover, -⟩ := xdmaXferSubmit_streams (e := fourDescs) (b := 16)
    (by decide)
    (show ∀ sg ∈ [SgEntry.mk 0x1000 80], sg.dmaLen.toNat ≤ 80 ∧
      sg.dmaLen.toNat + (16 : BitVec 32).toNat ≤ 2 ^ 32 by simp)
    (show SizeFits 0x200 16 _ by decide) (by decide) (by decide) 0
    (show ∀ i, ((fun i => ⟨0, true, if i = 0 then .completed else .failed, 0, fun _ => ⟨0, 0⟩⟩ :
      ℕ → Outcome) i).waitEnds = true from fun _ => rfl)
  exact ⟨req, s, hreq, hs, hcover⟩

end ZynqSha256.Xdma
