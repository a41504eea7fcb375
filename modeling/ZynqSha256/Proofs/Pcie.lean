import ZynqSha256.Lib.Steps
import ZynqSha256.Driver.Pcie

/-! The PCIe driver over all its runs. `sha256_open` resets the core and the counter
and nothing else: words that an earlier session left on the engine's list reach the
core after it, and their completions are counted against the new session. -/

namespace ZynqSha256.PcieDriver

open Fips180 (Word chain)
open Steps (Run Any)

/-- The words of the list, each with the session that submitted it. -/
def pendingOf (ts : List Transfer) : List (ℕ × Word) :=
  ts.flatMap fun t => t.words.map (Prod.mk t.session)

namespace Device

def pending (d : Device) : List (ℕ × Word) := pendingOf d.transferList

/-- The chaining value of what the core has absorbed. -/
def digest (d : Device) : Fips180.Hash := chain ((d.core.map Prod.snd).map datMsbI)

/-- The core has words of this session only, and its digest is that of a piece of what
was written through it. -/
structure Isolated (d : Device) : Prop where
  own : ∀ p ∈ d.core, p.1 = d.session
  digest : ∃ ws, ws <:+: d.written ∧ d.digest = chain (ws.map datMsbI)

/-- The words in the core and on the list are the last ones written, in order. -/
structure OwnWords (d : Device) : Prop where
  own : ∀ p ∈ d.core ++ d.pending, p.1 = d.session
  order : (d.core ++ d.pending).map Prod.snd <:+ d.written

end Device

/-! ## One step -/

theorem pendingOf_append (ts : List Transfer) (t : Transfer) :
    pendingOf (ts ++ [t]) = pendingOf ts ++ t.words.map (Prod.mk t.session) := by
  simp [pendingOf]

/-- What a non-blocking write leaves behind before it is counted. -/
theorem Device.submitNowait_eq (d : Device) (words : List Word) : d.submitNowait words =
    { d with
      transferList := if words = [] then d.transferList else d.transferList ++ [⟨d.session, words⟩]
      submitting := d.submitting + 1
      written := d.written ++ words } := by
  unfold Device.submitNowait Device.xdmaXferSubmitNowait
  split
  · rfl
  · rfl

theorem Device.submitNowait_pending (d : Device) (words : List Word) :
    (d.submitNowait words).pending = d.pending ++ words.map (Prod.mk d.session) := by
  rw [Device.submitNowait_eq, Device.pending]
  dsimp only
  split
  next h =>
    subst h
    exact (List.append_nil d.pending).symm
  next h => exact pendingOf_append _ _

theorem nextWord_some {ts ts' : List Transfer} {p : ℕ × Word}
    (h : Device.nextWord ts = some (p, ts')) :
    pendingOf ts = p :: pendingOf ts' ∧ ts'.length = ts.length := by
  induction ts generalizing ts' with
  | nil => cases h
  | cons t ts ih =>
    rw [Device.nextWord] at h
    split at h
    next hw =>
      obtain ⟨⟨q, us⟩, hnext, heq⟩ := Option.map_eq_some_iff.1 h
      cases heq
      obtain ⟨hp, hlen⟩ := ih hnext
      exact ⟨by simpa [pendingOf, hw] using hp, by rw [List.length_cons, List.length_cons, hlen]⟩
    next w ws hw =>
      cases h
      exact ⟨by simp [pendingOf, hw], rfl⟩

theorem nextWord_none {ts : List Transfer} (h : Device.nextWord ts = none) : pendingOf ts = [] := by
  induction ts with
  | nil => rfl
  | cons t ts ih =>
    rw [Device.nextWord] at h
    split at h
    next hw =>
      rw [Option.map_eq_none_iff] at h
      simpa [pendingOf, hw] using ih h
    next => cases h

/-- What one step can do. -/
inductive Stepped (d : Device) : Event → Device → Prop
  | busy : d.deviceOpen = true → Stepped d .sha256Open d
  | opened : d.deviceOpen = false → Stepped d .sha256Open
      { d with deviceOpen := true, submitCnt := 0, core := [], session := d.session + 1
               written := [] }
  | submit (words : List Word) : d.deviceOpen = true →
      Stepped d (.submitNowait words) (d.submitNowait words)
  | count : 0 < d.submitting → Stepped d .countSubmit d.countSubmit
  | deliver (p : ℕ × Word) (ts : List Transfer) : d.pending = p :: pendingOf ts →
      ts.length = d.transferList.length →
      Stepped d .deliver { d with transferList := ts, core := d.core ++ [p] }
  | handler : d.transferList ≠ [] → d.transferIoHandler.pending = d.pending →
      Stepped d .transferIoHandler d.transferIoHandler
  | flush : d.deviceOpen = true → Stepped d .sha256Flush d.resetCore
  | poll : d.deviceOpen = true → Stepped d .sha256Poll d
  | release : d.deviceOpen = true → d.submitting = 0 →
      Stepped d .sha256Release { d with deviceOpen := false }

theorem stepped {e : Event} {d d' : Device} (h : step e d = some d') : Stepped d e d' := by
  rcases e with _ | words | _ | _ | _ | _ | _ | _
  · cases h
    by_cases hopen : d.deviceOpen = true
    · rw [Device.sha256Open, if_pos hopen]
      exact .busy hopen
    · rw [Device.sha256Open, if_neg hopen]
      exact .opened (by simpa using hopen)
  · obtain ⟨hopen, h⟩ := Option.ite_none_right_eq_some.1 h
    cases h
    exact .submit words hopen
  · obtain ⟨hpos, h⟩ := Option.ite_none_right_eq_some.1 h
    cases h
    exact .count hpos
  · obtain ⟨⟨p, ts⟩, hnext, rfl⟩ := Option.map_eq_some_iff.1 h
    obtain ⟨hp, hlen⟩ := nextWord_some hnext
    exact .deliver p ts hp hlen
  · simp only [step] at h
    split at h
    next t ht =>
      obtain ⟨hw, h⟩ := Option.ite_none_right_eq_some.1 h
      cases h
      obtain ⟨ts, hts⟩ := List.head?_eq_some_iff.1 ht
      refine .handler (by simp [hts]) ?_
      simp [Device.pending, Device.transferIoHandler, pendingOf, hts, hw]
    next => cases h
  · obtain ⟨hopen, h⟩ := Option.ite_none_right_eq_some.1 h
    cases h
    exact .flush hopen
  · obtain ⟨hopen, h⟩ := Option.ite_none_right_eq_some.1 h
    cases h
    exact .poll hopen
  · obtain ⟨hcond, h⟩ := Option.ite_none_right_eq_some.1 h
    cases h
    rw [Bool.and_eq_true, decide_eq_true_iff] at hcond
    exact .release hcond.1 hcond.2

/-! ## Sessions -/

section Sessions

variable {e : Event} {d d' : Device}

theorem Device.OwnWords.resetCore (h : d.OwnWords) : d.resetCore.OwnWords where
  own p hp := h.own p (List.mem_append_right _ hp)
  order := by
    have hsuffix : d.pending <:+ d.core ++ d.pending := List.suffix_append _ _
    exact (hsuffix.map Prod.snd).trans h.order

theorem Device.OwnWords.submit (h : d.OwnWords) (words : List Word) :
    (d.submitNowait words).OwnWords := by
  have hall : (d.submitNowait words).core ++ (d.submitNowait words).pending =
      d.core ++ d.pending ++ words.map (Prod.mk d.session) := by
    rw [Device.submitNowait_pending, Device.submitNowait_eq, List.append_assoc]
  refine ⟨fun p hp => ?_, ?_⟩
  · rw [hall, List.mem_append] at hp
    rw [Device.submitNowait_eq]
    rcases hp with hp | hp
    · exact h.own p hp
    · obtain ⟨w, -, rfl⟩ := List.mem_map.1 hp
      rfl
  · have hwords : (words.map (Prod.mk d.session)).map Prod.snd = words := by
      simp [Function.comp_def]
    obtain ⟨pre, hpre⟩ := h.order
    refine ⟨pre, ?_⟩
    rw [hall, List.map_append, hwords, ← List.append_assoc]
    exact congrArg (· ++ words) hpre

/-- Inside a session whatever happens adds words of this session only. -/
theorem Device.OwnWords.step (hopen : d.deviceOpen = true) (h : d.OwnWords)
    (hs : Stepped d e d') : d'.OwnWords := by
  rcases hs with _ | hclosed | ⟨words, -⟩ | _ | ⟨p, ts, hp, -⟩ | ⟨-, hp⟩ | _ | _ | _
  · exact h
  · rw [hopen] at hclosed
    cases hclosed
  · exact h.submit words
  · exact ⟨h.own, h.order⟩
  · have hsame : d.core ++ d.pending = (d.core ++ [p]) ++ pendingOf ts := by
      rw [hp, List.append_assoc, List.singleton_append]
    exact ⟨fun q hq => h.own q (hsame ▸ hq), hsame ▸ h.order⟩
  · have hsame : d.transferIoHandler.core ++ d.transferIoHandler.pending = d.core ++ d.pending :=
      congrArg (d.core ++ ·) hp
    exact ⟨fun q hq => h.own q (hsame ▸ hq), hsame ▸ h.order⟩
  · exact h.resetCore
  · exact h
  · exact ⟨h.own, h.order⟩

/-- Only `sha256_open` opens the device and only `sha256_release` closes it. -/
theorem deviceOpen_step (hs : Stepped d e d') : d'.deviceOpen =
    match e with
    | .sha256Open => true
    | .sha256Release => false
    | _ => d.deviceOpen := by
  rcases hs with hopen | _ | ⟨words, -⟩ | _ | _ | _ | _ | _ | _
  · exact hopen
  · rfl
  · have hsame := congrArg Device.deviceOpen (d.submitNowait_eq words)
    exact hsame
  all_goals rfl

/-- No word on the list is of a session yet to come. -/
theorem tags_step (h : ∀ p ∈ d.pending, p.1 ≤ d.session) (hs : Stepped d e d') :
    ∀ p ∈ d'.pending, p.1 ≤ d'.session := by
  rcases hs with _ | _ | ⟨words, -⟩ | _ | ⟨p, ts, hp, -⟩ | ⟨-, hp⟩ | _ | _ | _
  · exact h
  · exact fun p hp => (h p hp).trans (Nat.le_succ _)
  · intro p hp
    rw [Device.submitNowait_pending, List.mem_append] at hp
    rw [Device.submitNowait_eq]
    rcases hp with hp | hp
    · exact h p hp
    · obtain ⟨w, -, rfl⟩ := List.mem_map.1 hp
      exact le_refl _
  · exact h
  · exact fun q hq => h q (hp ▸ List.mem_cons_of_mem p hq)
  · exact fun q hq => h q (hp ▸ hq)
  · exact h
  · exact h
  · exact h

theorem Device.OwnWords.isolated (h : d.OwnWords) : d.Isolated where
  own p hp := h.own p (List.mem_append_left _ hp)
  digest := by
    have hhead : d.core <+: d.core ++ d.pending := List.prefix_append _ _
    exact ⟨d.core.map Prod.snd, (hhead.map Prod.snd).isInfix.trans h.order.isInfix, rfl⟩

theorem ownWords_open (hopen : d.deviceOpen = false) (hp : d.pending = []) :
    d.sha256Open.2.OwnWords := by
  have hp' : d.sha256Open.2.core ++ d.sha256Open.2.pending = [] := by
    rw [Device.sha256Open, hopen]
    exact hp
  exact ⟨fun p hmem => by simp [hp'] at hmem, by rw [hp']; exact List.nil_suffix⟩

/-- `sha256_open` finds no word on the list. -/
def CleanOpen (e : Event) (d : Device) : Prop :=
  match e with
  | .sha256Open => d.deviceOpen = false → d.pending = []
  | _ => True

instance (e : Event) (d : Device) : Decidable (CleanOpen e d) :=
  match e with
  | .sha256Open => inferInstanceAs (Decidable (_ → _))
  | .submitNowait _ | .countSubmit | .deliver | .transferIoHandler | .sha256Flush
  | .sha256Poll | .sha256Release => isTrue trivial

theorem run_ownWords {es : List Event} (h : Run step CleanOpen Device.init es d) :
    d.deviceOpen = true → d.OwnWords := by
  refine h.invariant (J := fun d => d.deviceOpen = true → d.OwnWords)
    (fun hopen => Bool.noConfusion hopen) (fun e d d' hC hs ih hopen' => ?_)
  by_cases hopen : d.deviceOpen = true
  · exact (ih hopen).step hopen (stepped hs)
  · rw [Bool.not_eq_true] at hopen
    have hstep := deviceOpen_step (stepped hs)
    rcases e with _ | _ | _ | _ | _ | _ | _ | _
    · cases hs
      exact ownWords_open hopen (hC hopen)
    all_goals
      rw [hopen'] at hstep
      simp [hopen] at hstep

/-- The words that a session leaves behind reach the core in the next one. -/
theorem leak {es : List Event} (h : Run step Any Device.init es d) (hopen : d.deviceOpen = false)
    (hp : d.pending ≠ []) :
    ∃ d', Run step Any d.sha256Open.2 [.deliver] d' ∧ ¬d'.Isolated := by
  have htags : ∀ p ∈ d.pending, p.1 ≤ d.session :=
    h.invariant (J := fun d => ∀ p ∈ d.pending, p.1 ≤ d.session) (fun p hp => by cases hp)
      (fun _ _ _ _ hs ih => tags_step ih (stepped hs))
  rcases hnext : Device.nextWord d.transferList with _ | ⟨p, ts⟩
  · exact absurd (nextWord_none hnext) hp
  · have hmem : p ∈ d.pending := by
      rw [Device.pending, (nextWord_some hnext).1]
      exact List.mem_cons_self
    refine ⟨{ d with
      deviceOpen := true, submitCnt := 0, core := [p], session := d.session + 1, written := []
      transferList := ts }, Run.one trivial ?_, fun hiso => ?_⟩
    · simp [step, Device.deliver, Device.sha256Open, Device.resetCore, hopen, hnext]
    · have hown : p.1 = d.session + 1 := hiso.own p List.mem_cons_self
      have hle := htags p hmem
      omega

/-- In a run whose `sha256_open` calls all find the list without words, every session is
isolated throughout. And after any run, a session about to be opened stays isolated
whatever happens before its `sha256_release` if and only if no word is on the list. -/
theorem sessions_isolated_iff {es : List Event} (h : Run step Any Device.init es d) :
    (Run step CleanOpen Device.init es d → d.deviceOpen = true → d.Isolated) ∧
    (d.deviceOpen = false →
      ((∀ es' d', Run step Any d.sha256Open.2 es' d' → Event.sha256Release ∉ es' → d'.Isolated) ↔
        d.pending = [])) := by
  refine ⟨fun hclean hopen => (run_ownWords hclean hopen).isolated, fun hopen => ⟨fun hall => ?_,
    fun hp es' d' hrun => ?_⟩⟩
  · by_contra hp
    obtain ⟨d', hrun, hiso⟩ := leak h hopen hp
    exact hiso (hall _ d' hrun (by simp))
  · suffices hown : Event.sha256Release ∉ es' → d'.deviceOpen = true ∧ d'.OwnWords from
      fun hno => (hown hno).2.isolated
    induction hrun with
    | nil =>
      intro _
      exact ⟨by simp [Device.sha256Open, hopen], ownWords_open hopen hp⟩
    | @snoc es' d₁ d₂ e _ _ hs ih =>
      intro hno
      rw [List.mem_append, List.mem_singleton, not_or] at hno
      obtain ⟨hopen₁, hown⟩ := ih hno.1
      refine ⟨?_, hown.step hopen₁ (stepped hs)⟩
      rw [deviceOpen_step (stepped hs)]
      split
      · rfl
      · exact absurd rfl hno.2
      · exact hopen₁

end Sessions

/-- A user writes a word and closes the file once the core has taken it; another one
opens it and writes. -/
def twoUsers : List Event :=
  [.sha256Open, .submitNowait [0x61626380], .countSubmit, .deliver, .sha256Flush, .sha256Release,
    .sha256Open, .submitNowait [0x64656680], .countSubmit, .deliver]

/-- The device of the second user. -/
def secondUser : Device where
  deviceOpen := true
  submitCnt := 1
  transferList := [⟨1, []⟩, ⟨2, []⟩]
  submitting := 0
  core := [(2, 0x64656680)]
  session := 2
  written := [0x64656680]

theorem sessions_isolated_iff_twoUsers : secondUser.Isolated := by
  have hrun : Run step CleanOpen Device.init twoUsers secondUser := Steps.run_of_exec (by decide)
  exact (sessions_isolated_iff (hrun.mono fun _ _ _ => trivial)).1 hrun rfl

/-- A word delivered after the second user's `sha256_open` is in that user's digest. -/
def leakedTo : Device where
  deviceOpen := true
  submitCnt := 0
  transferList := [⟨1, []⟩]
  submitting := 0
  core := [(1, 0x61626380)]
  session := 2
  written := []

theorem session_not_isolated : ¬ ∀ es d, Run step Any Device.init es d →
    d.deviceOpen = true → d.Isolated := by
  intro h
  have hrun : Run step Any Device.init [.sha256Open, .submitNowait [0x61626380], .countSubmit,
      .sha256Flush, .sha256Release, .sha256Open, .deliver] leakedTo :=
    Steps.run_of_exec (by decide)
  have hown := (h _ leakedTo hrun rfl).own (1, 0x61626380) List.mem_cons_self
  exact absurd hown (by decide)

/-! ## The submit counter -/

/-- `sha256_open` finds no transfer; no write is empty; the handler and `sha256_poll` never
come when all transfers are still to be counted. -/
def Orderly (e : Event) (d : Device) : Prop :=
  match e with
  | .sha256Open => d.deviceOpen = false → d.transferList = []
  | .submitNowait words => words ≠ [] ∧ d.transferList.length + 1 < 2 ^ 32
  | .transferIoHandler => d.submitting < d.transferList.length
  | .sha256Poll => d.transferList ≠ [] → d.submitting < d.transferList.length
  | _ => True

instance (e : Event) (d : Device) : Decidable (Orderly e d) :=
  match e with
  | .sha256Open | .sha256Poll => inferInstanceAs (Decidable (_ → _))
  | .submitNowait _ => inferInstanceAs (Decidable (_ ∧ _))
  | .transferIoHandler => inferInstanceAs (Decidable (_ < _))
  | .countSubmit | .deliver | .sha256Flush | .sha256Release => isTrue trivial

/-- The counter is the number of transfers that are counted and not complete. -/
structure Device.Counted (d : Device) : Prop where
  le : d.submitting ≤ d.transferList.length
  lt : d.transferList.length < 2 ^ 32
  cnt : d.submitCnt.toNat = d.transferList.length - d.submitting
  closed : d.deviceOpen = false → d.submitting = 0

section Counter

variable {e : Event} {d d' : Device}

theorem Device.Counted.step (h : d.Counted) (hC : Orderly e d) (hs : Stepped d e d') :
    d'.Counted := by
  obtain ⟨hle, hlt, hcnt, hclosed⟩ := h
  rcases hs with _ | hopen | ⟨words, hopen⟩ | hpos | ⟨p, ts, -, hlen⟩ | ⟨hne, -⟩ | _ | _ | ⟨-, hsub⟩
  · exact ⟨hle, hlt, hcnt, hclosed⟩
  · have hnil : d.transferList = [] := hC hopen
    have hsub := hclosed hopen
    exact ⟨hle, hlt, by simp [hnil], fun h => Bool.noConfusion h⟩
  · obtain ⟨hwords, hmore⟩ : words ≠ [] ∧ d.transferList.length + 1 < 2 ^ 32 := hC
    rw [Device.submitNowait_eq, if_neg hwords]
    have hlen : (d.transferList ++ [Transfer.mk d.session words]).length = d.transferList.length + 1 :=
      List.length_append
    refine ⟨?_, ?_, ?_, fun hc => ?_⟩
    · dsimp only
      rw [hlen]
      exact Nat.succ_le_succ hle
    · dsimp only
      rw [hlen]
      exact hmore
    · dsimp only
      rw [hlen, hcnt]
      exact (Nat.add_sub_add_right _ 1 _).symm
    · exact absurd (hc.symm.trans hopen) Bool.false_ne_true
  · have hsucc : (d.submitCnt + 1).toNat = d.submitCnt.toNat + 1 := by
      rw [BitVec.toNat_add, show (1 : BitVec 32).toNat = 1 from rfl]
      omega
    refine ⟨(Nat.sub_le _ _).trans hle, hlt, ?_, fun hc => ?_⟩
    · change (d.submitCnt + 1).toNat = d.transferList.length - (d.submitting - 1)
      omega
    · have hzero := hclosed hc
      omega
  · refine ⟨?_, ?_, ?_, hclosed⟩
    · exact hle.trans hlen.ge
    · exact hlen.trans_lt hlt
    · exact hcnt.trans (by rw [hlen])
  · have hfew : d.submitting < d.transferList.length := hC
    have hpred : (d.submitCnt - 1).toNat = d.submitCnt.toNat - 1 := by
      rw [BitVec.toNat_sub, show (1 : BitVec 32).toNat = 1 from rfl]
      omega
    have htail : d.transferList.tail.length = d.transferList.length - 1 := List.length_tail
    refine ⟨?_, ?_, ?_, hclosed⟩
    · change d.submitting ≤ d.transferList.tail.length
      omega
    · change d.transferList.tail.length < 2 ^ 32
      omega
    · change (d.submitCnt - 1).toNat = d.transferList.tail.length - d.submitting
      omega
  · exact ⟨hle, hlt, hcnt, hclosed⟩
  · exact ⟨hle, hlt, hcnt, hclosed⟩
  · exact ⟨hle, hlt, hcnt, fun _ => hsub⟩

end Counter

end ZynqSha256.PcieDriver
