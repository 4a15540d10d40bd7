import NicRecorder.Lemmas.CaptureRuns

/-!
# A capture can always go on

The slowest schedule of a capture: the refill thread works while no packet is on its way, and each packet is recorded before the
next one arrives. From every state of this schedule one more packet can be recorded (`Lazy.advance`), so there are captures of
any number of packets (`exists_capture`). They are the runs in which a flaw that needs slow traffic shows.
-/

namespace NicRecorder

open ByteMem Runs

variable {c : Config} {writers : Nat}

/-- The refill thread is in its main loop. -/
def AllocPc.looping : AllocPc → Bool
  | .waitStart | .waitStop | .setStart | .setStop | .exited => false
  | _ => true

/-- A state of the slowest schedule: every packet sent has been recorded, and no stop is issued. -/
structure Config.Lazy (c : Config) (d : Driver) : Prop where
  inv : c.Inv d
  polls : d.proc.pc = .poll
  caught : d.hist.accepted = d.hist.sent.length
  running : d.board.userStop = false
  loop : d.alloc.pc.looping = true

/-- The steps of the slowest schedule, with one packet over and over: a program takes no step. -/
def Config.Lazily (c : Config) (p : List UInt8) (s : Capture) : Act → Prop
  | .alloc => c.Lazy s.drv
  | .proc => c.NotDry s .proc ∧ s.drv.proc.pc ≠ .setCaptured
  | .nic q => q = p
  | _ => False

/-- A run of the slowest schedule. -/
def Config.Goes (c : Config) (writers : Nat) (p : List UInt8) (s t : Capture) : Prop :=
  ∃ tr, Run (c.capture writers) s tr t ∧ Meets (c.Lazily p) tr

theorem Config.Goes.refl (p : List UInt8) (s : Capture) : c.Goes writers p s s := Leads.refl s

theorem Config.Goes.trans {p : List UInt8} {s t u : Capture} (h : c.Goes writers p s t) (h' : c.Goes writers p t u) :
    c.Goes writers p s u :=
  Leads.trans h h'

theorem Config.Goes.single {p : List UInt8} {s t : Capture} {a : Act} (hst : c.Step writers s a t) (ha : c.Lazily p s a) :
    c.Goes writers p s t :=
  Leads.single hst ha

/-- The programs do not move in the slowest schedule. -/
theorem Config.Goes.programs {p : List UInt8} {s t : Capture} (h : c.Goes writers p s t) :
    t = { s with drv := t.drv } := by
  obtain ⟨tr, hr, hm⟩ := h
  refine hr.invariantUnder (I := fun t => t = { s with drv := t.drv }) ?_ rfl hm
  intro u a v hu ha hst
  cases hst with
  | alloc _ | proc _ | nic _ _ _ => rw [hu]
  | userStart | userStop | visit _ _ => exact ha.elim

/-- The slowest schedule polls no dry ring. -/
theorem Config.Lazily.notDry {p : List UInt8} {s : Capture} {a : Act} (h : c.Lazily p s a) : c.NotDry s a := by
  cases a with
  | proc => exact h.1
  | alloc | nic _ | userStart | userStop | visit _ => nofun

theorem Config.Lazily.no_visit {p : List UInt8} {s : Capture} {a : Act} (h : c.Lazily p s a) : ∀ k, a ≠ .visit k := by
  rintro k rfl
  exact h

theorem Config.Goes.leads {p : List UInt8} {s t : Capture} (h : c.Goes writers p s t) :
    Leads (c.capture writers) c.NotDry s t :=
  Leads.mono (fun _ _ => Config.Lazily.notDry) h

/-! ## The refill thread -/

theorem slotPc_looping (r : Nat) : (slotPc r).looping = true := by
  unfold slotPc
  split <;> rfl

/-- In its main loop the refill thread goes on as long as no stop is issued. -/
theorem Config.allocStep_looping {d : Driver} (hl : d.alloc.pc.looping = true) (hrun : d.board.userStop = false) :
    ∃ d', c.allocStep d = some d' ∧ d'.alloc.pc.looping = true := by
  unfold Config.allocStep
  cases hpc : d.alloc.pc <;> rw [hpc] at hl <;> simp only [Option.some.injEq, exists_eq_left']
  case waitStart | waitStop | setStart | setStop | exited => cases hl
  case checkStop => simp [hrun, AllocPc.looping]
  case readClean =>
    by_cases hc : c.refillCount d.nextToClean d.alloc.supPartial = 0
    · simp [hc, AllocPc.looping]
    · simp only [hc, if_false, Option.some.injEq, exists_eq_left', slotPc_looping]
  case accumulate => split <;> rfl
  case setAddr =>
    split
    · exact slotPc_looping _
    · rfl
  case endRow =>
    unfold Config.endRow
    split
    · split <;> rfl
    · rfl
  all_goals rfl

/-- The refill thread stays in the schedule. -/
theorem Config.Lazy.allocStep {d : Driver} (h : c.Lazy d) :
    ∃ d', c.allocStep d = some d' ∧ c.Lazy d' := by
  obtain ⟨d', hs, hl⟩ := Config.allocStep_looping (c := c) h.loop h.running
  obtain ⟨h1, h2, h3, h4, -⟩ := Config.allocStep_frame hs
  exact ⟨d', hs, h.inv.allocStep hs, by rw [h1, h.polls], by rw [h2, h3, h.caught], by rw [h4, h.running], hl⟩

/-- The accesses that are left of a batch of the refill thread. -/
def AllocThread.left (a : AllocThread) : Nat :=
  match a.pc with
  | .accumulate => 8 * (a.count - a.i) + 5
  | .setCaptured => 8 * (a.count - a.i) + 4
  | .setMaxRow => 8 * (a.count - a.i) + 3
  | .clearHdr => 8 * (a.count - a.i) + 2
  | .setAddr => 8 * (a.count - a.i) + 1
  | .endRow => 2
  | .writeTail => 1
  | _ => 0

/-- A descriptor is about to be re-armed, or one that the adapter has not used is armed. -/
def Driver.Stocked (d : Driver) : Prop :=
  d.hist.sent.length < d.hist.armed ∨ d.alloc.pc = .accumulate ∨ d.alloc.pc = .setCaptured ∨ d.alloc.pc = .setMaxRow ∨
    d.alloc.pc = .clearHdr

theorem AllocThread.left_slot {a : AllocThread} (h : a.pc = slotPc a.supRow) : a.left ≤ 8 * (a.count - a.i) + 5 := by
  unfold AllocThread.left
  rw [h]
  by_cases hr : a.supRow = 0 <;> simp [slotPc, hr]

/-- A batch ends at the head of the loop. -/
theorem Config.allocStep_rests {d d' : Driver} (hs : c.allocStep d = some d') (hl : 0 < d.alloc.left)
    (hz : d'.alloc.left = 0) : d'.alloc.pc = .checkStop := by
  unfold Config.allocStep at hs
  cases hpc : d.alloc.pc <;> rw [hpc] at hs <;> simp only [Option.some.injEq, reduceCtorEq] at hs
  case waitStart | waitStop | setStart | checkStop | setStop | readClean => simp [AllocThread.left, hpc] at hl
  case accumulate =>
    subst hs
    by_cases hlim : c.byteLimit < c.grown d <;> simp [AllocThread.left, hlim] at hz
  case setAddr =>
    subst hs
    by_cases hlt : d.alloc.i + 1 < d.alloc.count <;> by_cases hr : d.alloc.supRow = 0 <;>
      simp [AllocThread.left, slotPc, hlt, hr] at hz
  case endRow =>
    subst hs
    unfold Config.endRow at hz
    split at hz
    · split at hz <;> cases hz
    · cases hz
  case writeTail => subst hs; rfl
  all_goals subst hs; cases hz

/-- Each access of a batch brings the refill thread closer to its end. -/
theorem Config.Inv.allocStep_left {d d' : Driver} (h : c.Inv d) (hs : c.allocStep d = some d') (hl : 0 < d.alloc.left) :
    d'.alloc.left < d.alloc.left ∧ (d.Stocked → d'.Stocked) := by
  have ho := h.order
  unfold Driver.Stocked
  unfold Config.allocStep at hs
  cases hpc : d.alloc.pc <;> rw [hpc] at hs <;> simp only [Option.some.injEq, reduceCtorEq] at hs
  case waitStart | waitStop | setStart | checkStop | setStop | readClean => simp [AllocThread.left, hpc] at hl
  case accumulate =>
    subst hs
    unfold AllocThread.left
    rw [hpc]
    by_cases hlim : c.byteLimit < c.grown d <;> simp [hlim]
  case setCaptured | setMaxRow =>
    subst hs
    unfold AllocThread.left
    rw [hpc]
    simp
  case clearHdr =>
    subst hs
    unfold AllocThread.left
    rw [hpc]
    exact ⟨by simp, fun _ => Or.inl (by show d.hist.sent.length < d.hist.armed + 1; omega)⟩
  case setAddr =>
    have hb := h.window.batch (by rw [hpc]; rfl)
    have htl := h.window.tailed_eq
    simp only [AllocThread.pending, hpc] at htl
    have hleft : d.alloc.left = 8 * (d.alloc.count - d.alloc.i) + 1 := by simp [AllocThread.left, hpc]
    refine ⟨?_, fun _ => Or.inl ?_⟩
    · rw [hleft]
      subst hs
      by_cases hlt : d.alloc.i + 1 < d.alloc.count
      · rw [if_pos hlt]
        refine Nat.lt_of_le_of_lt (AllocThread.left_slot rfl) ?_
        show 8 * (d.alloc.count - (d.alloc.i + 1)) + 5 < _
        omega
      · rw [if_neg hlt]
        show 2 < _
        omega
    · subst hs
      show d.hist.sent.length < d.hist.armed
      omega
  case endRow =>
    have hleft : d.alloc.left = 2 := by simp [AllocThread.left, hpc]
    subst hs
    rw [hleft]
    unfold Config.endRow
    split
    · split <;> exact ⟨Nat.lt_succ_self 1, fun hlt => Or.inl (by simpa using hlt)⟩
    · exact ⟨Nat.lt_succ_self 1, fun hlt => Or.inl (by simpa using hlt)⟩
  case writeTail =>
    have hleft : d.alloc.left = 1 := by simp [AllocThread.left, hpc]
    subst hs
    rw [hleft]
    exact ⟨Nat.lt_succ_self 0, fun hlt => Or.inl (by simpa using hlt)⟩

/-- Only the refill thread has moved: the packets and the recording thread are as they were. -/
structure Driver.Refills (d d' : Driver) : Prop where
  proc : d'.proc = d.proc
  sent : d'.hist.sent = d.hist.sent
  fill : d'.hist.procFill = d.hist.procFill
  start : d'.hist.procStart = d.hist.procStart

theorem Driver.Refills.refl (d : Driver) : d.Refills d := ⟨rfl, rfl, rfl, rfl⟩

theorem Driver.Refills.trans {d d' d'' : Driver} (h : d.Refills d') (h' : d'.Refills d'') : d.Refills d'' :=
  ⟨h'.proc.trans h.proc, h'.sent.trans h.sent, h'.fill.trans h.fill, h'.start.trans h.start⟩

theorem Config.allocStep_refills {d d' : Driver} (hs : c.allocStep d = some d') : d.Refills d' := by
  obtain ⟨h1, h2, -, -, h5⟩ := Config.allocStep_frame hs
  exact ⟨h1, h2, h5, Config.allocStep_procStart hs⟩

/-- The refill thread finishes its batch. -/
theorem Config.Lazy.finish (writers : Nat) (p : List UInt8) : ∀ n, ∀ s : Capture, c.Lazy s.drv → s.drv.alloc.left ≤ n →
    ∃ d, c.Goes writers p s { s with drv := d } ∧ c.Lazy d ∧ d.alloc.left = 0 ∧ s.drv.Refills d ∧
      (0 < s.drv.alloc.left → d.alloc.pc = .checkStop) ∧ (s.drv.Stocked → d.Stocked)
  | 0, s, h, hn => ⟨s.drv, Config.Goes.refl p s, h, by omega, Driver.Refills.refl _, by omega, fun hst => hst⟩
  | n + 1, s, h, hn => by
    by_cases hz : s.drv.alloc.left = 0
    · exact ⟨s.drv, Config.Goes.refl p s, h, hz, Driver.Refills.refl _, by omega, fun hst => hst⟩
    · obtain ⟨d, hs, hd⟩ := h.allocStep
      obtain ⟨hlt, hst⟩ := h.inv.allocStep_left hs (Nat.pos_of_ne_zero hz)
      have hgo : c.Goes writers p s { s with drv := d } := Config.Goes.single (Config.Step.alloc hs) h
      have href := Config.allocStep_refills hs
      rcases Nat.eq_zero_or_pos d.alloc.left with h0 | hpos
      · exact ⟨d, hgo, hd, h0, href, fun hpos => Config.allocStep_rests hs hpos h0, hst⟩
      · obtain ⟨d', hgo', h1, h2, h3, h4, h5⟩ :=
          Config.Lazy.finish writers p n { s with drv := d } hd (by show d.alloc.left ≤ n; omega)
        exact ⟨d', hgo.trans hgo', h1, h2, href.trans h3, fun _ => h4 hpos, fun h0 => h5 (hst h0)⟩

/-- With its batch finished, the refill thread is at the head of its loop, and the tail shows everything. -/
theorem Config.Lazy.idle {d : Driver} (h : c.Lazy d) (hz : d.alloc.left = 0) :
    (d.alloc.pc = .checkStop ∨ d.alloc.pc = .readClean) ∧ d.alloc.pc.idle = true ∧ d.hist.tailed = d.hist.armed := by
  have hloop := h.loop
  have hpc : d.alloc.pc = .checkStop ∨ d.alloc.pc = .readClean := by
    unfold AllocThread.left at hz
    cases hpc : d.alloc.pc <;> rw [hpc] at hz hloop <;> simp_all [AllocPc.looping]
  have hidle : d.alloc.pc.idle = true := by
    rcases hpc with hpc | hpc <;> rw [hpc] <;> rfl
  have htl := h.inv.window.tailed_eq
  rw [AllocThread.pending_idle hidle] at htl
  exact ⟨hpc, hidle, htl⟩

/-- When everything armed has been recorded, the refill thread finds room. -/
theorem Config.Lazy.room {d : Driver} (h : c.Lazy d) (hidle : d.alloc.pc.idle = true) (hdry : d.hist.sent.length = d.hist.armed) :
    c.refillCount d.nextToClean d.alloc.supPartial ≠ 0 := by
  have hpub := (h.inv.wrapped.published (by rw [h.polls]; decide)).1
  have hin := h.inv.window.inRow (Or.inl hidle)
  have hcaught := h.caught
  have hN := c.slots_ge
  unfold Config.refillCount
  rw [h.inv.refill_room hidle]
  omega

/-- An idle refill thread has shown to the adapter what it has armed. -/
theorem Config.Lazy.shown {d : Driver} (h : c.Lazy d) (hz : d.alloc.left = 0) (hst : d.Stocked) :
    d.hist.sent.length < d.hist.tailed := by
  obtain ⟨hpc, -, htl⟩ := h.idle hz
  rw [htl]
  rcases hst with hlt | h' | h' | h' | h'
  · exact hlt
  all_goals rcases hpc with h'' | h'' <;> rw [h''] at h' <;> cases h'

/-- The refill thread gets to the head of its loop. -/
theorem Config.Lazy.rest (writers : Nat) (p : List UInt8) {s : Capture} (h : c.Lazy s.drv) :
    ∃ d, c.Goes writers p s { s with drv := d } ∧ c.Lazy d ∧ d.alloc.pc = .checkStop ∧ s.drv.Refills d ∧
      (s.drv.Stocked → d.hist.sent.length < d.hist.tailed) := by
  obtain ⟨d1, hgo1, h1, hz1, href1, -, hst1⟩ := Config.Lazy.finish writers p _ s h (Nat.le_refl _)
  obtain ⟨hpc1, -, htl1⟩ := h1.idle hz1
  rcases hpc1 with hpc | hpc
  · exact ⟨d1, hgo1, h1, hpc, href1, fun hst => h1.shown hz1 (hst1 hst)⟩
  · -- it looks for room, and makes a batch when there is some
    obtain ⟨d2, hs2, h2⟩ := h1.allocStep
    have hgo2 : c.Goes writers p { s with drv := d1 } { s with drv := d2 } := Config.Goes.single (Config.Step.alloc hs2) h1
    have href2 := href1.trans (Config.allocStep_refills hs2)
    have hst2 : s.drv.Stocked → d2.Stocked := by
      intro hst
      have hlt := h1.shown hz1 (hst1 hst)
      have harm : d2.hist.armed = d1.hist.armed ∧ d2.hist.sent = d1.hist.sent := by
        simp only [Config.allocStep, hpc] at hs2
        split at hs2 <;> cases hs2 <;> exact ⟨rfl, rfl⟩
      exact Or.inl (by rw [harm.1, harm.2]; omega)
    obtain ⟨d3, hgo3, h3, hz3, href3, hrest, hst3⟩ := Config.Lazy.finish writers p _ { s with drv := d2 } h2 (Nat.le_refl _)
    by_cases hc : c.refillCount d1.nextToClean d1.alloc.supPartial = 0
    · have hpc2 : d2.alloc.pc = .checkStop := by
        simp only [Config.allocStep, hpc, hc, if_true, Option.some.injEq] at hs2
        rw [← hs2]
      exact ⟨d2, hgo1.trans hgo2, h2, hpc2, href2, fun hst => h2.shown (by simp [AllocThread.left, hpc2]) (hst2 hst)⟩
    · refine ⟨d3, hgo1.trans (hgo2.trans hgo3), h3, hrest ?_, href2.trans href3, fun hst => h3.shown hz3 (hst3 (hst2 hst))⟩
      simp only [Config.allocStep, hpc, hc, if_false, Option.some.injEq] at hs2
      subst hs2
      by_cases hr : d1.alloc.supRow = 0 <;> simp [AllocThread.left, slotPc, hr]

/-- The refill thread gets to a state in which the adapter has a descriptor. -/
theorem Config.Lazy.supply (writers : Nat) (p : List UInt8) {s : Capture} (h : c.Lazy s.drv) :
    ∃ d, c.Goes writers p s { s with drv := d } ∧ c.Lazy d ∧ s.drv.Refills d ∧ d.hist.sent.length < d.hist.tailed := by
  obtain ⟨d1, hgo1, h1, hz1, href1, -⟩ := Config.Lazy.finish writers p _ s h (Nat.le_refl _)
  obtain ⟨hpc1, hidle1, htl1⟩ := h1.idle hz1
  by_cases hlt : d1.hist.sent.length < d1.hist.tailed
  · exact ⟨d1, hgo1, h1, href1, hlt⟩
  have hdry : d1.hist.sent.length = d1.hist.armed := by
    have := h1.inv.order
    omega
  -- the thread looks for a stop, and then for room
  obtain ⟨d2, hgo2, h2, href2, hpc2, hdry2⟩ : ∃ d2, c.Goes writers p { s with drv := d1 } { s with drv := d2 } ∧ c.Lazy d2 ∧
      d1.Refills d2 ∧ d2.alloc.pc = .readClean ∧ d2.hist.sent.length = d2.hist.armed := by
    rcases hpc1 with hpc | hpc
    · have hs : c.allocStep d1 = some { d1 with alloc := { d1.alloc with pc := .readClean } } := by
        simp [Config.allocStep, hpc, h1.running]
      obtain ⟨d', hs', hl'⟩ := h1.allocStep
      rw [hs, Option.some.injEq] at hs'
      subst hs'
      exact ⟨_, Config.Goes.single (Config.Step.alloc hs) h1, hl', Config.allocStep_refills hs, rfl, hdry⟩
    · exact ⟨d1, Config.Goes.refl p _, h1, Driver.Refills.refl _, hpc, hdry⟩
  have hc := h2.room (by rw [hpc2]; rfl) hdry2
  obtain ⟨d3, hs3, h3⟩ := h2.allocStep
  have hgo3 : c.Goes writers p { s with drv := d2 } { s with drv := d3 } := Config.Goes.single (Config.Step.alloc hs3) h2
  have hst3 : d3.Stocked := by
    unfold Config.allocStep at hs3
    simp only [hpc2, hc, if_false, Option.some.injEq] at hs3
    subst hs3
    unfold Driver.Stocked slotPc
    by_cases hr : d2.alloc.supRow = 0 <;> simp [hr]
  obtain ⟨d4, hgo4, h4, hz4, href4, -, hst4⟩ := Config.Lazy.finish writers p _ { s with drv := d3 } h3 (Nat.le_refl _)
  exact ⟨d4, hgo1.trans (hgo2.trans (hgo3.trans hgo4)), h4,
    href1.trans (href2.trans ((Config.allocStep_refills hs3).trans href4)), h4.shown hz4 (hst4 hst3)⟩

/-! ## The recording thread -/

/-- The schedule while the recording thread is at work: everything sent is recorded when it is done. -/
structure Config.Working (c : Config) (d : Driver) : Prop where
  inv : c.Inv d
  running : d.board.userStop = false
  loop : d.alloc.pc.looping = true

/-- An access of the recording thread that is not a poll of a dry ring. -/
theorem Config.Working.procStep (writers : Nat) (p : List UInt8) (s : Capture) {d d' : Driver} (h : c.Working d)
    (hs : c.procStep d = some d') (hdry : d.proc.pc = .poll → d.hist.accepted < d.hist.sent.length)
    (hpc : d.proc.pc ≠ .setCaptured) :
    c.Goes writers p { s with drv := d } { s with drv := d' } ∧ c.Working d' := by
  have ho := h.inv.order
  have hnd : c.NotDry { s with drv := d } .proc := by
    intro _ hpc he
    have h1 := hdry hpc
    have h2 : d.hist.accepted = d.hist.armed := he
    omega
  obtain ⟨h1, -, -, h3, -⟩ := Config.procStep_frame hs
  exact ⟨Config.Goes.single (s := { s with drv := d }) (Config.Step.proc hs) ⟨hnd, hpc⟩,
    h.inv.procStep hs (Config.Inv.acceptsWritten (s := { s with drv := d }) h.inv hnd rfl),
    by rw [h3, h.running], by rw [h1, h.loop]⟩

/-- The accesses that are left before the recording thread polls again, once it has stored a length. -/
def ProcPc.left : ProcPc → Nat
  | .publishClean => 3
  | .compareRow => 2
  | .resetRow => 1
  | _ => 0

theorem Config.procStep_left {d : Driver} (hl : 0 < d.proc.pc.left) :
    ∃ d', c.procStep d = some d' ∧ d'.hist.accepted = d.hist.accepted ∧ d'.proc.pc.left < d.proc.pc.left ∧
      (d'.proc.pc.left = 0 → d'.proc.pc = .poll) := by
  unfold Config.procStep
  cases hpc : d.proc.pc <;> rw [hpc] at hl
  case publishClean =>
    simp only [Option.some.injEq, exists_eq_left', true_and]
    by_cases hm : c.mask d.proc.curPartial = 0 <;> simp [hm, ProcPc.left]
  case compareRow =>
    simp only [Option.some.injEq, exists_eq_left', true_and]
    by_cases hm : d.maxRow = d.proc.curPartial <;> simp [hm, ProcPc.left]
  case resetRow =>
    simp [ProcPc.left]
  all_goals exact absurd hl (by decide)

/-- The recording thread has stayed in its fill, or has just gone to the next one. -/
def Driver.FillStep (d d' : Driver) : Prop :=
  (d'.hist.procFill = d.hist.procFill ∧ d'.procBase = d.procBase) ∨
    (d'.hist.procFill = d.hist.procFill + 1 ∧ d'.procBase = d'.hist.accepted)

theorem Driver.FillStep.of_same {d d₁ d' : Driver} (hfill : d₁.hist.procFill = d.hist.procFill)
    (hstart : d₁.hist.procStart = d.hist.procStart) (h : d₁.FillStep d') : d.FillStep d' := by
  unfold Driver.FillStep Driver.procBase at h ⊢
  rwa [hfill, hstart] at h

/-- An access that is not the switch of buckets keeps the recording thread in its fill. -/
theorem Config.procStep_inFill {d d' : Driver} (hs : c.procStep d = some d') (hpc : d.proc.pc ≠ .resetRow) :
    d'.hist.procFill = d.hist.procFill ∧ d'.hist.procStart = d.hist.procStart :=
  ⟨((Config.procStep_fill hs).resolve_right fun h => hpc h.1).1, (Config.procStep_procStart hs).resolve_right fun h => hpc h.1⟩

/-- After the store of a length the recording thread gets back to its poll. -/
theorem Config.Working.settle (writers : Nat) (p : List UInt8) : ∀ n, ∀ s : Capture, c.Working s.drv →
    s.drv.hist.accepted = s.drv.hist.sent.length → s.drv.proc.pc.left ≤ n → (s.drv.proc.pc.left = 0 → s.drv.proc.pc = .poll) →
    ∃ d, c.Goes writers p s { s with drv := d } ∧ c.Lazy d ∧ d.alloc = s.drv.alloc ∧ d.hist.sent = s.drv.hist.sent ∧
      d.hist.armed = s.drv.hist.armed ∧ s.drv.FillStep d
  | 0, s, h, hc, hn, hp =>
    ⟨s.drv, Config.Goes.refl p s, ⟨h.inv, hp (by omega), hc, h.running, h.loop⟩, rfl, rfl, rfl, Or.inl ⟨rfl, rfl⟩⟩
  | n + 1, s, h, hc, hn, hp => by
    by_cases hz : s.drv.proc.pc.left = 0
    · exact ⟨s.drv, Config.Goes.refl p s, ⟨h.inv, hp hz, hc, h.running, h.loop⟩, rfl, rfl, rfl, Or.inl ⟨rfl, rfl⟩⟩
    · obtain ⟨d, hs, hacc, hlt, hpoll⟩ := Config.procStep_left (c := c) (Nat.pos_of_ne_zero hz)
      have hne : s.drv.proc.pc ≠ .poll := by
        intro he
        rw [he] at hz
        exact hz rfl
      obtain ⟨hgo, hd⟩ := h.procStep writers p s hs (fun he => absurd he hne) (fun he => hz (by rw [he]; rfl))
      obtain ⟨halloc, hsent, harm, -⟩ := Config.procStep_frame hs
      have hcd : d.hist.accepted = d.hist.sent.length := by rw [hacc, hsent, hc]
      by_cases hreset : s.drv.proc.pc = .resetRow
      · -- the switch is the last access
        have hzd : d.proc.pc.left = 0 := by
          rw [hreset] at hlt
          exact Nat.lt_one_iff.mp hlt
        have hfill : s.drv.FillStep d := by
          simp only [Config.procStep, hreset, Option.some.injEq] at hs
          subst hs
          exact Or.inr ⟨rfl, Function.update_self ..⟩
        exact ⟨d, hgo, ⟨hd.inv, hpoll hzd, hcd, hd.running, hd.loop⟩, halloc, hsent, harm, hfill⟩
      · obtain ⟨hfill, hstart⟩ := Config.procStep_inFill hs hreset
        obtain ⟨d', hgo', h1, h2, h3, h4, h5⟩ := Config.Working.settle writers p n { s with drv := d } hd hcd
          (by show d.proc.pc.left ≤ n; omega) hpoll
        exact ⟨d', hgo.trans hgo', h1, h2.trans halloc, h3.trans hsent, h4.trans harm, h5.of_same hfill hstart⟩

/-- A packet arrives and is recorded. -/
theorem Config.Lazy.receive (writers : Nat) {p : List UInt8} (hp : Deliverable p) {s : Capture} (h : c.Lazy s.drv)
    (hlt : s.drv.hist.sent.length < s.drv.hist.tailed) :
    ∃ d, c.Goes writers p s { s with drv := d } ∧ c.Lazy d ∧ d.alloc = s.drv.alloc ∧ d.hist.sent = s.drv.hist.sent ++ [p] ∧
      d.hist.armed = s.drv.hist.armed ∧ s.drv.FillStep d := by
  have ho := h.inv.order
  have hne : s.drv.nicHead ≠ s.drv.tail := by
    rw [h.inv.wrapped.head_eq, h.inv.wrapped.tail_eq]
    exact slot_ne_of_lt hlt (by omega)
  obtain ⟨d1, hs1⟩ : ∃ d1, c.nicStep p s.drv = some d1 := by simp [Config.nicStep, hne]
  have hgo1 : c.Goes writers p s { s with drv := d1 } := Config.Goes.single (Config.Step.nic p hp hs1) rfl
  have hd1 : d1.hist.sent = s.drv.hist.sent ++ [p] ∧ d1.hist.accepted = s.drv.hist.accepted ∧ d1.proc = s.drv.proc ∧
      d1.alloc = s.drv.alloc ∧ d1.board.userStop = s.drv.board.userStop ∧ d1.hist.armed = s.drv.hist.armed ∧
      d1.hist.procFill = s.drv.hist.procFill ∧ d1.hist.procStart = s.drv.hist.procStart := by
    simp only [Config.nicStep, hne, if_false, Option.some.injEq] at hs1
    subst hs1
    exact ⟨rfl, rfl, rfl, rfl, rfl, rfl, rfl, rfl⟩
  obtain ⟨hsent1, hacc1, hproc1, halloc1, hstop1, harm1, hfill1, hstart1⟩ := hd1
  have h1 : c.Working d1 := ⟨h.inv.nicStep hp hs1, by rw [hstop1, h.running], by rw [halloc1, h.loop]⟩
  have hlen1 : d1.hist.sent.length = d1.hist.accepted + 1 := by
    rw [hsent1, hacc1, h.caught, List.length_append, List.length_singleton]
  have hpc1 : d1.proc.pc = .poll := by rw [hproc1, h.polls]
  -- the recording thread sees the done bit, loads the length and stores it
  have hdd : (d1.ring d1.proc.rxDesc).dd = true := by
    rw [(h1.inv.wrapped.published (by rw [hpc1]; decide)).2]
    have ht : d1.taken = d1.hist.accepted := Driver.taken_of_ne (by rw [hpc1]; decide)
    exact (h1.inv.ringed.written _ (by omega) (by omega)).2
  obtain ⟨d2, hs2, hpc2, hacc2⟩ : ∃ d2, c.procStep d1 = some d2 ∧ d2.proc.pc = .load ∧ d2.hist.accepted = d1.hist.accepted := by
    simp [Config.procStep, hpc1, hdd]
  obtain ⟨hgo2, h2⟩ := h1.procStep writers p s hs2 (fun _ => by omega) (by rw [hpc1]; decide)
  obtain ⟨d3, hs3, hpc3, hacc3⟩ : ∃ d3, c.procStep d2 = some d3 ∧ d3.proc.pc = .store ∧ d3.hist.accepted = d2.hist.accepted := by
    simp [Config.procStep, hpc2]
  obtain ⟨hgo3, h3⟩ := h2.procStep writers p s hs3 (by rw [hpc2]; nofun) (by rw [hpc2]; decide)
  obtain ⟨d4, hs4, hpc4, hacc4⟩ : ∃ d4, c.procStep d3 = some d4 ∧ (d4.proc.pc = .poll ∨ d4.proc.pc = .publishClean) ∧
      d4.hist.accepted = d3.hist.accepted + 1 := by
    simp only [Config.procStep, hpc3, Option.some.injEq, exists_eq_left', and_true]
    by_cases hz : (d3.proc.curPartial + 1) % 2 ^ 32 % 256 = 0
    · exact Or.inr (if_pos hz)
    · exact Or.inl (if_neg hz)
  obtain ⟨hgo4, h4⟩ := h3.procStep writers p s hs4 (by rw [hpc3]; nofun) (by rw [hpc3]; decide)
  obtain ⟨f2, g2, k2, -⟩ := Config.procStep_frame hs2
  obtain ⟨f3, g3, k3, -⟩ := Config.procStep_frame hs3
  obtain ⟨f4, g4, k4, -⟩ := Config.procStep_frame hs4
  obtain ⟨hfill2, hstart2⟩ := Config.procStep_inFill hs2 (by rw [hpc1]; decide)
  obtain ⟨hfill3, hstart3⟩ := Config.procStep_inFill hs3 (by rw [hpc2]; decide)
  obtain ⟨hfill4, hstart4⟩ := Config.procStep_inFill hs4 (by rw [hpc3]; decide)
  have hsent4 : d4.hist.sent = s.drv.hist.sent ++ [p] := by rw [g4, g3, g2, hsent1]
  obtain ⟨d5, hgo5, h5, f5, g5, k5, hfill5⟩ := Config.Working.settle writers p _ { s with drv := d4 } h4
    (by show d4.hist.accepted = d4.hist.sent.length; rw [hsent4, ← hsent1]; omega) (Nat.le_refl _)
    (by rcases hpc4 with he | he <;> simp [he, ProcPc.left])
  exact ⟨d5, hgo1.trans (hgo2.trans (hgo3.trans (hgo4.trans hgo5))), h5, by rw [f5, f4, f3, f2, halloc1],
    g5.trans hsent4, by rw [k5, k4, k3, k2, harm1], hfill5.of_same (by rw [hfill4, hfill3, hfill2, hfill1])
      (by rw [hstart4, hstart3, hstart2, hstart1])⟩

/-- One more packet can be recorded. -/
theorem Config.Lazy.advance (writers : Nat) {p : List UInt8} (hp : Deliverable p) {s : Capture} (h : c.Lazy s.drv) :
    ∃ d, c.Goes writers p s { s with drv := d } ∧ c.Lazy d ∧ d.hist.sent = s.drv.hist.sent ++ [p] ∧ s.drv.FillStep d := by
  obtain ⟨d1, hgo1, h1, href1, hlt1⟩ := h.supply writers p
  obtain ⟨d2, hgo2, h2, -, hsent2, -, hfill2⟩ := Config.Lazy.receive writers hp (s := { s with drv := d1 }) h1 hlt1
  refine ⟨d2, hgo1.trans hgo2, h2, ?_, hfill2.of_same href1.fill href1.start⟩
  rw [hsent2]
  exact congrArg (· ++ [p]) href1.sent

/-- Any number of further packets can be recorded. -/
theorem Config.Lazy.advanceBy (writers : Nat) {p : List UInt8} (hp : Deliverable p) {s : Capture} (h : c.Lazy s.drv) (n : Nat) :
    ∃ d, c.Goes writers p s { s with drv := d } ∧ c.Lazy d ∧ d.hist.sent = s.drv.hist.sent ++ List.replicate n p := by
  induction n with
  | zero => exact ⟨s.drv, Config.Goes.refl p s, h, by simp⟩
  | succ n ih =>
    obtain ⟨d1, hgo1, h1, hsent1⟩ := ih
    obtain ⟨d2, hgo2, h2, hsent2, -⟩ := Config.Lazy.advance writers hp (s := { s with drv := d1 }) h1
    refine ⟨d2, hgo1.trans hgo2, h2, ?_⟩
    rw [hsent2, List.replicate_succ', ← List.append_assoc]
    exact congrArg (· ++ [p]) hsent1

/-- The recording thread can be brought to its next fill: the packets of a fill are no more than a bucket has rows for. -/
theorem Config.Lazy.nextFill (writers : Nat) {p : List UInt8} (hp : Deliverable p) : ∀ n, ∀ s : Capture, c.Lazy s.drv →
    (c.maxRows + 1) * c.numRxSlots < s.drv.proc.curPartial + n →
    ∃ d, c.Goes writers p s { s with drv := d } ∧ c.Lazy d ∧ d.hist.procFill = s.drv.hist.procFill + 1 ∧
      d.procBase = d.hist.accepted
  | 0, s, h, hn => absurd h.inv.curPartial_le (Nat.not_le.mpr hn)
  | n + 1, s, h, hn => by
    obtain ⟨d, hgo, hd, hsent, hfill⟩ := h.advance writers hp
    rcases hfill with ⟨hsame, hbase⟩ | ⟨hnext, hbase⟩
    · have hacc := hd.inv.window.accepted_eq
      have hacc' := h.inv.window.accepted_eq
      have hcd := hd.caught
      have hcs := h.caught
      rw [hsent, List.length_append, List.length_singleton] at hcd
      obtain ⟨d', hgo', h1, h2, h3⟩ := Config.Lazy.nextFill writers hp n { s with drv := d } hd
        (by show _ < d.proc.curPartial + n; omega)
      exact ⟨d', hgo.trans hgo', h1, h2.trans (congrArg (· + 1) hsame), h3⟩
    · exact ⟨d, hgo, hd, hnext, hbase⟩

/-- The recording thread can be brought to any later fill, and record a packet there. -/
theorem Config.Lazy.toFill (writers : Nat) {p : List UInt8} (hp : Deliverable p) (k : Nat) {s : Capture} (h : c.Lazy s.drv) :
    ∃ d, c.Goes writers p s { s with drv := d } ∧ c.Lazy d ∧ d.hist.procFill = s.drv.hist.procFill + (k + 1) ∧
      d.proc.curPartial = 1 := by
  have hmany : ∃ d, c.Goes writers p s { s with drv := d } ∧ c.Lazy d ∧ d.hist.procFill = s.drv.hist.procFill + (k + 1) ∧
      d.procBase = d.hist.accepted := by
    induction k with
    | zero => exact h.nextFill writers hp ((c.maxRows + 1) * c.numRxSlots + 1) s (by omega)
    | succ k ih =>
      obtain ⟨d, hgo, hd, hfill, -⟩ := ih
      obtain ⟨d', hgo', hd', hfill', hbase⟩ := Config.Lazy.nextFill writers hp ((c.maxRows + 1) * c.numRxSlots + 1)
        { s with drv := d } hd (by omega)
      exact ⟨d', hgo.trans hgo', hd', by rw [hfill']; exact congrArg (· + 1) hfill, hbase⟩
  obtain ⟨d, hgo, hd, hfill, hbase⟩ := hmany
  obtain ⟨d', hgo', hd', hsent, hstep⟩ := Config.Lazy.advance writers hp (s := { s with drv := d }) hd
  dsimp only at hsent hstep
  have hacc := hd'.inv.window.accepted_eq
  have hcd := hd'.caught
  have hcs := hd.caught
  rw [hsent, List.length_append, List.length_singleton] at hcd
  have hN := c.slots_ge
  rcases hstep with ⟨hsame, hbase'⟩ | ⟨-, hbase'⟩
  · exact ⟨d', hgo.trans hgo', hd', hsame.trans hfill, by omega⟩
  · -- a fill has more than one packet
    have h1 := hd.inv.wrapped.procBase_dvd
    have h2 := hd'.inv.wrapped.procBase_dvd
    rw [hbase] at h1
    rw [hbase', hcd, ← hcs] at h2
    have hone := (Nat.dvd_add_right h1).mp h2
    exact absurd (Nat.le_of_dvd Nat.one_pos hone) (by omega)

/-- Packets of any kind can be recorded, one behind the other. -/
theorem Config.Lazy.advanceAll (writers : Nat) {ps : List (List UInt8)} (hps : ∀ p ∈ ps, Deliverable p) {s : Capture}
    (h : c.Lazy s.drv) :
    ∃ d, Leads (c.capture writers) c.NotDry s { s with drv := d } ∧ c.Lazy d ∧ d.hist.sent = s.drv.hist.sent ++ ps := by
  induction ps generalizing s with
  | nil => exact ⟨s.drv, Leads.refl s, h, by simp⟩
  | cons p ps ih =>
    obtain ⟨d, hgo, hd, hsent, -⟩ := h.advance writers (hps p List.mem_cons_self)
    obtain ⟨d', hl, hd', hsent'⟩ := ih (fun q hq => hps q (List.mem_cons_of_mem p hq)) (s := { s with drv := d }) hd
    refine ⟨d', hgo.leads.trans hl, hd', ?_⟩
    rw [hsent', List.append_cons]
    exact congrArg (· ++ ps) hsent

/-- In the first fill the packets are counted from the beginning. -/
theorem Config.Lazy.first_fill {d : Driver} (h : c.Lazy d) (hfill : d.hist.procFill = 0) :
    d.proc.cur = c.start1G ∧ d.proc.curPartial = d.hist.sent.length := by
  constructor
  · rw [h.inv.wrapped.proc_cur, hfill, Config.bucketOf, Nat.zero_mod, Nat.add_zero]
  · have hacc := h.inv.window.accepted_eq
    have hcaught := h.caught
    have hbase : d.procBase = 0 := by
      unfold Driver.procBase
      rw [hfill, h.inv.agreed.starts 0 (Nat.zero_le _), h.inv.agreed.first]
    omega

/-- The adapter uses up what the refill thread has armed, while that thread rests. -/
theorem Config.Lazy.drain (writers : Nat) {p : List UInt8} (hp : Deliverable p) : ∀ n, ∀ s : Capture, c.Lazy s.drv →
    s.drv.alloc.left = 0 → s.drv.hist.armed - s.drv.hist.sent.length ≤ n →
    ∃ d, c.Goes writers p s { s with drv := d } ∧ c.Lazy d ∧ d.hist.accepted = d.hist.armed ∧
      d.hist.armed = s.drv.hist.armed ∧ d.alloc = s.drv.alloc
  | 0, s, h, hz, hn => by
    have ho := h.inv.order
    have hc := h.caught
    exact ⟨s.drv, Config.Goes.refl p s, h, by omega, rfl, rfl⟩
  | n + 1, s, h, hz, hn => by
    have ho := h.inv.order
    have hc := h.caught
    by_cases he : s.drv.hist.accepted = s.drv.hist.armed
    · exact ⟨s.drv, Config.Goes.refl p s, h, he, rfl, rfl⟩
    · have htl := (h.idle hz).2.2
      obtain ⟨d, hgo, hd, halloc, hsent, harm, -⟩ := Config.Lazy.receive writers hp h (by omega)
      have hlen : d.hist.armed - d.hist.sent.length ≤ n := by
        rw [hsent, List.length_append, List.length_singleton]
        omega
      obtain ⟨d', hgo', h1, h2, h3, h4⟩ := Config.Lazy.drain writers hp n { s with drv := d } hd (by rw [halloc, hz]) hlen
      exact ⟨d', hgo.trans hgo', h1, h2, h3.trans harm, h4.trans halloc⟩

/-! ## The start -/

/-- The driver when the capture has been started and both threads are in their main loops. -/
def Config.startedDriver (c : Config) (lens : Nat → Nat → Nat) (ram : Mem) : Driver :=
  let d := c.startDriver lens ram
  { d with
    alloc := { d.alloc with pc := .checkStop }, proc := { d.proc with pc := .poll }, processStart := true
    board := { d.board with userStart := true } }

/-- A step before anything is published and before a program moves. -/
def Config.Undisturbed (c : Config) (s : Capture) (a : Act) : Prop :=
  c.NotDry s a ∧ (a = .alloc → s.drv.alloc.pc ≠ .setCaptured) ∧ ∀ k, a ≠ .visit k

/-- The capture is started: the user issues the command, the refill thread passes it on. -/
theorem Config.exists_started (c : Config) (writers : Nat) (lens : Nat → Nat → Nat) (ram : Mem) :
    ∃ tr, Run (c.capture writers) ⟨c.startDriver lens ram, c.startVisitor writers, []⟩ tr
        ⟨c.startedDriver lens ram, c.startVisitor writers, []⟩ ∧ Meets c.Undisturbed tr := by
  let at' : Driver → Capture := fun d => ⟨d, c.startVisitor writers, []⟩
  let d0 := c.startDriver lens ram
  let d1 : Driver := { d0 with board := { d0.board with userStart := true } }
  let d2 : Driver := { d1 with alloc := { d1.alloc with pc := .setStart } }
  let d3 : Driver := { d2 with alloc := { d2.alloc with pc := .checkStop }, processStart := true }
  let d4 : Driver := { d3 with proc := { d3.proc with pc := .outer } }
  let d5 : Driver := { d4 with proc := { d4.proc with pc := .poll } }
  have h1 : c.Step writers (at' d0) .userStart (at' d1) := Config.Step.userStart
  have h2 : c.Step writers (at' d1) .alloc (at' d2) := Config.Step.alloc (s := at' d1) rfl
  have h3 : c.Step writers (at' d2) .alloc (at' d3) := Config.Step.alloc (s := at' d2) rfl
  have h4 : c.Step writers (at' d3) .proc (at' d4) := Config.Step.proc (s := at' d3) rfl
  have h5 : c.Step writers (at' d4) .proc (at' d5) := Config.Step.proc (s := at' d4) rfl
  refine ⟨_, Run.snoc _ (Run.snoc _ (Run.snoc _ (Run.snoc _ (Run.snoc _ (Run.nil _) h1) h2) h3) h4) h5, ?_⟩
  simp only [meets_snoc]
  exact ⟨⟨⟨⟨⟨meets_nil _, nofun, nofun, nofun⟩, nofun, fun _ => nofun, nofun⟩, nofun, fun _ => nofun, nofun⟩,
    fun _ => nofun, nofun, nofun⟩, fun _ => nofun, nofun, nofun⟩

theorem Config.lazy_started (c : Config) (writers : Nat) (lens : Nat → Nat → Nat) (ram : Mem) :
    c.Lazy (c.startedDriver lens ram) := by
  obtain ⟨tr, hr, hm⟩ := c.exists_started writers lens ram
  have hi : (c.capture writers).init ⟨c.startDriver lens ram, c.startVisitor writers, []⟩ := ⟨lens, ram, rfl⟩
  exact ⟨Config.inv_of_run hi hr ((Config.meets_acceptsWritten_iff hi hr).mpr (hm.mono fun _ _ h => h.1)), rfl, rfl, rfl, rfl⟩

/-- There are captures of any number of packets, in which no program has moved. -/
theorem Config.exists_capture (c : Config) (writers : Nat) {p : List UInt8} (hp : Deliverable p) (lens : Nat → Nat → Nat)
    (ram : Mem) (n : Nat) :
    ∃ d, c.Goes writers p ⟨c.startedDriver lens ram, c.startVisitor writers, []⟩ ⟨d, c.startVisitor writers, []⟩ ∧ c.Lazy d ∧
      d.hist.sent = List.replicate n p :=
  (c.lazy_started writers lens ram).advanceBy writers hp (s := ⟨_, c.startVisitor writers, []⟩) n

/-- There is such a capture with the refill thread at the head of its loop. -/
theorem Config.exists_resting (c : Config) (writers : Nat) {p : List UInt8} (hp : Deliverable p) (lens : Nat → Nat → Nat)
    (ram : Mem) (n : Nat) :
    ∃ d, c.Goes writers p ⟨c.startedDriver lens ram, c.startVisitor writers, []⟩ ⟨d, c.startVisitor writers, []⟩ ∧ c.Lazy d ∧
      d.alloc.pc = .checkStop ∧ d.hist.sent = List.replicate n p := by
  obtain ⟨d, hgo, hd, hsent⟩ := c.exists_capture writers hp lens ram n
  obtain ⟨d', hgo', hd', hpc, href, -⟩ := Config.Lazy.rest writers p (s := ⟨d, c.startVisitor writers, []⟩) hd
  exact ⟨d', hgo.trans hgo', hd', hpc, href.sent.trans hsent⟩

/-- There are captures of any packets. -/
theorem Config.exists_captured (c : Config) (writers : Nat) (lens : Nat → Nat → Nat) (ram : Mem) {ps : List (List UInt8)}
    (hps : ∀ p ∈ ps, Deliverable p) :
    ∃ d, Leads (c.capture writers) c.NotDry ⟨c.startDriver lens ram, c.startVisitor writers, []⟩ ⟨d, c.startVisitor writers, []⟩ ∧
      c.Lazy d ∧ d.hist.sent = ps := by
  obtain ⟨tr, hr, hm⟩ := c.exists_started writers lens ram
  have hstart : Leads (c.capture writers) c.NotDry _ _ := ⟨tr, hr, hm.mono fun _ _ h => h.1⟩
  obtain ⟨d, hl, hd, hsent⟩ := (c.lazy_started writers lens ram).advanceAll writers hps (s := ⟨_, c.startVisitor writers, []⟩)
  exact ⟨d, hstart.trans hl, hd, hsent⟩

/-- What the slowest schedule reaches is reached without a poll of a dry ring. -/
theorem Config.Goes.reached {p : List UInt8} {s t : Capture} (h : c.Goes writers p s t)
    (hs : Reached (c.capture writers) c.NotDry s) : Reached (c.capture writers) c.NotDry t :=
  hs.leads h.leads

/-! ## Stopping -/

/-- The driver when a stop was issued at the head of the refill thread's loop, and this thread has ended. -/
def Driver.stopped (d : Driver) : Driver :=
  { d with
    alloc := { d.alloc with pc := .exited }
    processStop := true
    board := { d.board with userStop := true } }

/-- The driver when the recording thread has seen this too: its last stores come next. -/
def Driver.leaving (d : Driver) : Driver := { d.stopped with proc := { d.proc with pc := .setCaptured } }

theorem Config.leads_stopped (writers : Nat) {t : Capture} (hpc : t.drv.alloc.pc = .checkStop) :
    Leads (c.capture writers) c.NotDry t { t with drv := t.drv.stopped } := by
  let d1 : Driver := { t.drv with board := { t.drv.board with userStop := true } }
  let d2 : Driver := { d1 with alloc := { d1.alloc with pc := .setStop } }
  have hs1 : c.allocStep d1 = some d2 := by
    simp only [Config.allocStep, d1, d2, hpc, if_true]
  have hs2 : c.allocStep d2 = some t.drv.stopped := rfl
  have h1 : Leads (c.capture writers) c.NotDry t { t with drv := d1 } := 
    Leads.single (a := .userStop) Config.Step.userStop (Config.notDry_of_ne (by simp))
  have h2 : Leads (c.capture writers) c.NotDry { t with drv := d1 } { t with drv := d2 } :=
    Leads.single (a := .alloc) (Config.Step.alloc hs1) (Config.notDry_of_ne (by simp))
  exact h1.trans (h2.trans (Leads.single (a := .alloc) (Config.Step.alloc hs2) (Config.notDry_of_ne (by simp))))

/-- On a ring that is not dry, a thread that has recorded every packet leaves its loops without another one. -/
theorem Config.Lazy.leads_leaving (writers : Nat) {s : Capture} (h : c.Lazy s.drv) (hn : c.NotDry s .proc) :
    Leads (c.capture writers) c.NotDry { s with drv := s.drv.stopped } { s with drv := s.drv.leaving } := by
  have hclear : (s.drv.ring s.drv.proc.rxDesc).dd = false := by
    by_contra hdd
    have hlt := h.inv.done_lt hn h.polls (Bool.eq_true_of_not_eq_false hdd)
    have hc := h.caught
    omega
  let d0 := s.drv.stopped
  let d1 : Driver := { d0 with proc := { d0.proc with pc := .outer } }
  have hs1 : c.procStep d0 = some d1 := by
    simp only [Config.procStep, d0, d1, Driver.stopped, h.polls, hclear, Bool.false_eq_true, if_false]
  have hs2 : c.procStep d1 = some s.drv.leaving := rfl
  have h1 : Leads (c.capture writers) c.NotDry { s with drv := d0 } { s with drv := d1 } :=
    Leads.single (a := .proc) (Config.Step.proc hs1) hn
  exact h1.trans (Leads.single (a := .proc) (Config.Step.proc hs2) nofun)

/-- A descriptor that the adapter has not used keeps the ring from being dry. -/
theorem Config.Lazy.notDry {s : Capture} (h : c.Lazy s.drv) (hlt : s.drv.hist.sent.length < s.drv.hist.tailed) :
    c.NotDry s .proc := by
  intro _ _ he
  have ho := h.inv.order
  have hc := h.caught
  omega

/-- The refill thread can come to the head of its loop with a descriptor that the adapter has not used. -/
theorem Config.Lazy.restStocked (writers : Nat) (p : List UInt8) {s : Capture} (h : c.Lazy s.drv) :
    ∃ d, c.Goes writers p s { s with drv := d } ∧ c.Lazy d ∧ d.alloc.pc = .checkStop ∧ s.drv.Refills d ∧
      d.hist.sent.length < d.hist.tailed := by
  obtain ⟨d1, hgo1, h1, href1, hlt1⟩ := h.supply writers p
  have hst1 : d1.Stocked := by
    have := h1.inv.order
    exact Or.inl (by omega)
  obtain ⟨d2, hgo2, h2, hpc2, href2, hlt2⟩ := Config.Lazy.rest writers p (s := { s with drv := d1 }) h1
  exact ⟨d2, hgo1.trans hgo2, h2, hpc2, href1.trans href2, hlt2 hst1⟩

/-- A capture can be stopped wherever every packet has been recorded: the threads leave their loops without another one. -/
theorem Config.Lazy.stop (writers : Nat) {s : Capture} (h : c.Lazy s.drv) :
    ∃ d, Leads (c.capture writers) c.NotDry s { s with drv := d.leaving } ∧ c.Lazy d ∧ s.drv.Refills d := by
  obtain ⟨d, hgo, hd, hpc, href, hlt⟩ := h.restStocked writers []
  have hn : c.NotDry { s with drv := d } .proc := Config.Lazy.notDry (s := { s with drv := d }) hd hlt
  have hstop : Leads (c.capture writers) c.NotDry { s with drv := d } { s with drv := d.stopped } :=
    Config.leads_stopped writers (t := { s with drv := d }) hpc
  have hleave : Leads (c.capture writers) c.NotDry { s with drv := d.stopped } { s with drv := d.leaving } :=
    Config.Lazy.leads_leaving writers (s := { s with drv := d }) hd hn
  exact ⟨d, hgo.leads.trans (hstop.trans hleave), hd, href⟩

/-- The driver behind the store of the number of packets. -/
def Driver.counted (d : Driver) : Driver :=
  let d := d.leaving
  { d with
    proc := { d.proc with pc := .setLast }
    board := { d.board with captured := Function.update d.board.captured d.proc.cur d.proc.curPartial }
    hist := { d.hist with pubFill := Function.update d.hist.pubFill d.proc.cur d.hist.procFill } }

/-- The driver behind the store of the end mark: the recording thread has ended. -/
def Driver.finished (d : Driver) : Driver :=
  let d := d.counted
  { d with
    proc := { d.proc with pc := .exited }
    board := { d.board with last := Function.update d.board.last d.proc.cur 1 } }

theorem Config.procStep_leaving (c : Config) (d : Driver) : c.procStep d.leaving = some d.counted := rfl

theorem Config.procStep_counted (c : Config) (d : Driver) : c.procStep d.counted = some d.finished := rfl

/-- The final stores. -/
theorem Config.leads_finished (c : Config) (writers : Nat) (s : Capture) (d : Driver) :
    Leads (c.capture writers) c.NotDry { s with drv := d.leaving } { s with drv := d.finished } := by
  have h1 : Leads (c.capture writers) c.NotDry { s with drv := d.leaving } { s with drv := d.counted } :=
    Leads.single (a := .proc) (Config.Step.proc (c.procStep_leaving d)) nofun
  exact h1.trans (Leads.single (a := .proc) (Config.Step.proc (c.procStep_counted d)) nofun)

end NicRecorder
