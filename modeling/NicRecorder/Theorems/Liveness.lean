import NicRecorder.Theorems.Phantom

/-!
# The ring does not block

The refill thread waits for `next_to_clean`, the recording thread for descriptors that have been written back, and the adapter for a
descriptor below the tail. `next_to_clean` is published only once in 256 packets, so at no moment does a party know how far the others
are. Still, they never wait for each other in a circle: as long as the capture has been started and not stopped, the two threads alone
record what has been delivered, and give the adapter a descriptor.
-/

namespace NicRecorder

open ByteMem Runs

variable {c : Config} {writers : Nat}

/-! ## Where the threads can be -/

/-- What the threads owe to the commands: the refill thread leaves its loop only on a stop, and the recording thread begins and ends
behind it. -/
structure Driver.Prompted (d : Driver) : Prop where
  commanded : d.alloc.pc.looping = true ∨ d.alloc.pc = .setStart → d.board.userStart = true
  stopping : d.alloc.pc = .setStop ∨ d.alloc.pc = .exited → d.board.userStop = true
  stopped : d.processStop = true → d.alloc.pc = .exited
  started : d.alloc.pc.looping = true → d.processStart = true
  final : d.proc.pc = .setCaptured ∨ d.proc.pc = .setLast ∨ d.proc.pc = .exited → d.processStop = true

section Prompted

variable {d d' : Driver}

/-- The refill thread begins on a command. -/
theorem Config.allocStep_begins (hs : c.allocStep d = some d') (hl : d'.alloc.pc.looping = true ∨ d'.alloc.pc = .setStart) :
    d.board.userStart = true ∨ d.alloc.pc.looping = true ∨ d.alloc.pc = .setStart := by
  unfold Config.allocStep at hs
  cases hpc : d.alloc.pc <;> rw [hpc] at hs <;> simp only [Option.some.injEq, reduceCtorEq] at hs
  case waitStart =>
    subst hs
    refine Or.inl ?_
    by_contra hn
    simp [hn, AllocPc.looping] at hl
  case waitStop =>
    subst hs
    by_cases hu : d.board.userStop = true <;> simp [hu, AllocPc.looping] at hl
  case setStop =>
    subst hs
    simp [AllocPc.looping] at hl
  case setStart => exact Or.inr (Or.inr rfl)
  all_goals exact Or.inr (Or.inl rfl)

/-- Where the refill thread can come from. -/
theorem Config.allocStep_flow (hs : c.allocStep d = some d') :
    d.alloc.pc ≠ .exited ∧ (d'.alloc.pc = .setStop → d.board.userStop = true) ∧ (d'.alloc.pc = .exited → d.alloc.pc = .setStop) ∧
      (d'.alloc.pc.looping = true → d'.processStart = true ∨ d.alloc.pc.looping = true ∧ d'.processStart = d.processStart) := by
  unfold Config.allocStep at hs
  cases hpc : d.alloc.pc <;> rw [hpc] at hs <;> simp only [Option.some.injEq, reduceCtorEq] at hs
  case waitStart =>
    subst hs
    refine ⟨nofun, ?_, ?_, ?_⟩ <;> dsimp only <;> split <;> nofun
  case waitStop =>
    subst hs
    by_cases hu : d.board.userStop = true
    · exact ⟨nofun, fun _ => hu, by dsimp only; rw [if_pos hu]; nofun, by dsimp only; rw [if_pos hu]; nofun⟩
    · exact ⟨nofun, by dsimp only; rw [if_neg hu]; nofun, by dsimp only; rw [if_neg hu]; nofun, by dsimp only; rw [if_neg hu]; nofun⟩
  case setStart =>
    subst hs
    exact ⟨nofun, nofun, nofun, fun _ => Or.inl rfl⟩
  case checkStop =>
    subst hs
    by_cases hu : d.board.userStop = true
    · exact ⟨nofun, fun _ => hu, by dsimp only; rw [if_pos hu]; nofun, fun _ => Or.inr ⟨rfl, rfl⟩⟩
    · exact ⟨nofun, by dsimp only; rw [if_neg hu]; nofun, by dsimp only; rw [if_neg hu]; nofun, fun _ => Or.inr ⟨rfl, rfl⟩⟩
  case setStop =>
    subst hs
    exact ⟨nofun, nofun, fun _ => rfl, nofun⟩
  case readClean =>
    split at hs <;> cases hs
    · exact ⟨nofun, nofun, nofun, fun _ => Or.inr ⟨rfl, rfl⟩⟩
    · refine ⟨nofun, ?_, ?_, fun _ => Or.inr ⟨rfl, rfl⟩⟩ <;> dsimp only <;> unfold slotPc <;> split <;> nofun
  case accumulate =>
    subst hs
    refine ⟨nofun, ?_, ?_, fun _ => Or.inr ⟨rfl, rfl⟩⟩ <;> dsimp only <;> split <;> nofun
  case setAddr =>
    subst hs
    refine ⟨nofun, ?_, ?_, fun _ => Or.inr ⟨rfl, rfl⟩⟩ <;> dsimp only <;> unfold slotPc <;> split <;> [split; skip; split; skip] <;> nofun
  case endRow =>
    subst hs
    unfold Config.endRow
    split
    · split <;> exact ⟨nofun, nofun, nofun, fun _ => Or.inr ⟨rfl, rfl⟩⟩
    · exact ⟨nofun, nofun, nofun, fun _ => Or.inr ⟨rfl, rfl⟩⟩
  all_goals subst hs; exact ⟨nofun, nofun, nofun, fun _ => Or.inr ⟨rfl, rfl⟩⟩

theorem Driver.Prompted.allocStep (h : d.Prompted) (hs : c.allocStep d = some d') : d'.Prompted := by
  obtain ⟨hrun, hset, hexit, hloop⟩ := Config.allocStep_flow hs
  obtain ⟨hproc, -, -, huser, -⟩ := Config.allocStep_frame hs
  have hno : d.processStop ≠ true := fun hp => hrun (h.stopped hp)
  refine ⟨fun hl => ?_, ?_, fun hp => ?_, fun hl => ?_, fun hf => ?_⟩
  · rw [Config.allocStep_userStart hs]
    rcases Config.allocStep_begins hs hl with he | he
    · exact he
    · exact h.commanded he
  · rw [huser]
    rintro (hp | hp)
    · exact hset hp
    · exact h.stopping (Or.inl (hexit hp))
  · rcases (Config.allocStep_rest hs).2.2.2 with he | he
    · exact absurd (he ▸ hp) hno
    · exact he.2
  · rcases hloop hl with he | ⟨hl', he⟩
    · exact he
    · rw [he]
      exact h.started hl'
  · rw [hproc] at hf
    exact absurd (h.final hf) hno

/-- The recording thread leaves its loop, and its wait, only when it is told to. -/
theorem Config.procStep_flow (hs : c.procStep d = some d') :
    d'.processStop = d.processStop ∧ d'.processStart = d.processStart ∧ d'.board.userStop = d.board.userStop ∧
      (d'.proc.pc = .setCaptured ∨ d'.proc.pc = .setLast ∨ d'.proc.pc = .exited →
        d.processStop = true ∨ d.proc.pc = .setCaptured ∨ d.proc.pc = .setLast) := by
  unfold Config.procStep at hs
  cases hpc : d.proc.pc <;> rw [hpc] at hs <;> simp only [Option.some.injEq, reduceCtorEq] at hs
  case waitStop | outer =>
    subst hs
    refine ⟨rfl, rfl, rfl, fun hf => Or.inl ?_⟩
    by_contra hn
    simp [hn] at hf
  case waitStart | store | publishClean | compareRow =>
    subst hs
    refine ⟨rfl, rfl, rfl, fun hf => ?_⟩
    dsimp only at hf
    split at hf <;> simp at hf
  case poll => split at hs <;> cases hs <;> exact ⟨rfl, rfl, rfl, by simp⟩
  case setCaptured => subst hs; exact ⟨rfl, rfl, rfl, fun _ => Or.inr (Or.inl rfl)⟩
  case setLast => subst hs; exact ⟨rfl, rfl, rfl, fun _ => Or.inr (Or.inr rfl)⟩
  all_goals subst hs; exact ⟨rfl, rfl, rfl, by simp⟩

theorem Driver.Prompted.procStep (h : d.Prompted) (hs : c.procStep d = some d') : d'.Prompted := by
  obtain ⟨hstop, hstart, huser, hflow⟩ := Config.procStep_flow hs
  have halloc := (Config.procStep_frame hs).1
  refine ⟨by rw [halloc, Config.procStep_userStart hs]; exact h.commanded, by rw [halloc, huser]; exact h.stopping,
    by rw [halloc, hstop]; exact h.stopped, by rw [halloc, hstart]; exact h.started, fun hf => ?_⟩
  rw [hstop]
  rcases hflow hf with he | he | he
  · exact he
  · exact h.final (Or.inl he)
  · exact h.final (Or.inr (Or.inl he))

theorem Driver.Prompted.step {s t : Capture} {a : Act} (h : s.drv.Prompted) (hst : c.Step writers s a t) : t.drv.Prompted := by
  cases hst with
  | alloc hs => exact h.allocStep hs
  | proc hs => exact h.procStep hs
  | nic p hp hs =>
    obtain ⟨-, ring, head, ram, slot, rfl⟩ := Config.nicStep_frame hs
    exact ⟨h.commanded, h.stopping, h.stopped, h.started, h.final⟩
  | userStart => exact ⟨fun _ => rfl, h.stopping, h.stopped, h.started, h.final⟩
  | userStop => exact ⟨h.commanded, fun _ => rfl, h.stopped, h.started, h.final⟩
  | visit k hk =>
    obtain ⟨captured, he, -⟩ := c.visitStep_drv k s
    rw [he]
    exact ⟨h.commanded, h.stopping, h.stopped, h.started, h.final⟩

theorem Config.prompted_of_reached {φ : Capture → Act → Prop} {t : Capture} (h : Reached (c.capture writers) φ t) : t.drv.Prompted := by
  refine h.invariant (I := fun s => s.drv.Prompted) ?_ fun _ _ _ hp _ hst => hp.step hst
  rintro s ⟨lens, ram, rfl⟩
  refine ⟨?_, ?_, nofun, nofun, ?_⟩
  · rintro (hp | hp) <;> cases hp
  · rintro (hp | hp) <;> cases hp
  · rintro (hp | hp | hp) <;> cases hp

end Prompted

/-! ## The recording thread catches up -/

/-- How far an access of the recording thread is from its poll. -/
def ProcPc.rank : ProcPc → Nat
  | .waitStop | .publishClean => 6
  | .waitStart | .compareRow => 5
  | .outer | .resetRow => 4
  | .poll => 3
  | .load => 2
  | .store => 1
  | .setCaptured | .setLast | .exited => 0

/-- How far the recording thread is behind the adapter. -/
def Driver.behind (d : Driver) : Nat := 8 * (d.hist.sent.length - d.hist.accepted) + d.proc.pc.rank

/-- Each access of the recording thread brings it closer to the adapter, unless it polls a descriptor that has not been written back. -/
theorem Config.Inv.procStep_behind {d : Driver} (h : c.Inv d) (hstart : d.processStart = true) (hrun : d.processStop = false)
    (hpc : 0 < d.proc.pc.rank) (hmore : d.proc.pc = .poll → d.hist.accepted < d.hist.sent.length) :
    ∃ d', c.procStep d = some d' ∧ d'.behind < d.behind := by
  have htaken := h.window.taken_le
  unfold Driver.behind
  unfold Config.procStep
  cases hp : d.proc.pc <;> rw [hp] at hpc hmore <;> dsimp only
  case waitStart =>
    rw [if_pos hstart]
    exact ⟨_, rfl, Nat.lt_succ_self _⟩
  case waitStop =>
    rw [if_neg (by rw [hrun]; decide)]
    exact ⟨_, rfl, Nat.lt_succ_self _⟩
  case outer =>
    rw [if_neg (by rw [hrun]; decide)]
    exact ⟨_, rfl, Nat.lt_succ_self _⟩
  case poll =>
    have hdd : (d.ring d.proc.rxDesc).dd = true := by
      rw [(h.wrapped.published (by rw [hp]; decide)).2]
      have ht : d.taken = d.hist.accepted := Driver.taken_of_ne (by rw [hp]; decide)
      exact (h.ringed.written _ (by omega) (hmore rfl)).2
    rw [if_pos hdd]
    exact ⟨_, rfl, Nat.lt_succ_self _⟩
  case load => exact ⟨_, rfl, Nat.lt_succ_self _⟩
  case store =>
    have ht : d.taken = d.hist.accepted + 1 := by
      simp [Driver.taken, hp]
    refine ⟨_, rfl, ?_⟩
    dsimp only
    split <;> simp only [ProcPc.rank] <;> omega
  case publishClean =>
    refine ⟨_, rfl, ?_⟩
    dsimp only
    split <;> simp only [ProcPc.rank] <;> omega
  case compareRow =>
    refine ⟨_, rfl, ?_⟩
    dsimp only
    split <;> simp only [ProcPc.rank] <;> omega
  case resetRow => exact ⟨_, rfl, Nat.lt_succ_self _⟩
  case setCaptured | setLast | exited => exact absurd hpc (Nat.lt_irrefl 0)

/-- In its loop the refill thread has told the other one to start, and not to stop. -/
theorem Driver.Prompted.running {d : Driver} (h : d.Prompted) (hl : d.alloc.pc.looping = true) :
    d.processStart = true ∧ d.processStop = false ∧ 0 < d.proc.pc.rank := by
  have hno : d.processStop ≠ true := by
    intro hp
    rw [h.stopped hp] at hl
    cases hl
  refine ⟨h.started hl, Bool.eq_false_iff.mpr hno, ?_⟩
  cases hp : d.proc.pc
  case setCaptured => exact absurd (h.final (Or.inl hp)) hno
  case setLast => exact absurd (h.final (Or.inr (Or.inl hp))) hno
  case exited => exact absurd (h.final (Or.inr (Or.inr hp))) hno
  all_goals decide

/-- The recording thread alone records everything that has been delivered. -/
theorem Config.Working.catchUp (writers : Nat) (p : List UInt8) {s : Capture} (h : c.Working s.drv) (hp : s.drv.Prompted) :
    ∃ d, c.Goes writers p s { s with drv := d } ∧ c.Lazy d ∧ d.hist.sent = s.drv.hist.sent := by
  generalize hn : s.drv.behind = n
  induction n using Nat.strong_induction_on generalizing s with
  | _ n ih =>
    obtain ⟨hstart, hrun, hpc⟩ := hp.running h.loop
    have ho := h.inv.order
    by_cases hdone : s.drv.proc.pc = .poll ∧ s.drv.hist.accepted = s.drv.hist.sent.length
    · exact ⟨s.drv, Config.Goes.refl p s, ⟨h.inv, hdone.1, hdone.2, h.running, h.loop⟩, rfl⟩
    · have hmore : s.drv.proc.pc = .poll → s.drv.hist.accepted < s.drv.hist.sent.length := by
        intro he
        have hne : s.drv.hist.accepted ≠ s.drv.hist.sent.length := fun hc => hdone ⟨he, hc⟩
        omega
      obtain ⟨d, hs, hlt⟩ := h.inv.procStep_behind hstart hrun hpc hmore
      have hcap : s.drv.proc.pc ≠ .setCaptured := by
        intro he
        rw [he] at hpc
        exact absurd hpc (by decide)
      obtain ⟨hgo, hd⟩ := h.procStep writers p s hs hmore hcap
      obtain ⟨d', hgo', hl, hsent⟩ := ih d.behind (hn ▸ hlt) (s := { s with drv := d }) hd (hp.procStep hs) rfl
      exact ⟨d', hgo.trans hgo', hl, hsent.trans (Config.procStep_frame hs).2.1⟩

/-! ## Runs of the threads alone -/

/-- The step is an access of a thread, and accepts only what was written back. -/
def ByThreads (s : Capture) (a : Act) : Prop := (a = .alloc ∨ a = .proc) ∧ AcceptsWritten s a

/-- A run of the slowest schedule in which nothing is delivered is one of the threads alone. -/
theorem Config.Goes.byThreads {p : List UInt8} {s t : Capture} (h : c.Goes writers p s t) (hi : c.Inv s.drv)
    (hsent : t.drv.hist.sent.length ≤ s.drv.hist.sent.length) : Leads (c.capture writers) ByThreads s t := by
  obtain ⟨tr, hr, hm⟩ := h
  suffices hall : c.Inv t.drv ∧ s.drv.hist.sent.length ≤ t.drv.hist.sent.length ∧
      (t.drv.hist.sent.length ≤ s.drv.hist.sent.length → Meets ByThreads tr) from ⟨tr, hr, hall.2.2 hsent⟩
  clear hsent
  induction hr with
  | nil => exact ⟨hi, Nat.le_refl _, fun _ => meets_nil _⟩
  | @snoc t u tr a hr hst ih =>
    obtain ⟨hm, ha⟩ := meets_snoc.mp hm
    obtain ⟨hit, hle, hth⟩ := ih hm
    have hw : AcceptsWritten t a := hit.acceptsWritten ha.notDry
    have hiu := hit.step hw hst
    cases hst with
    | alloc hs =>
      have he := (Config.allocStep_frame hs).2.1
      dsimp only
      rw [he]
      exact ⟨hiu, hle, fun hs => meets_snoc.mpr ⟨hth hs, Or.inl rfl, hw⟩⟩
    | proc hs =>
      have he := (Config.procStep_frame hs).2.1
      dsimp only
      rw [he]
      exact ⟨hiu, hle, fun hs => meets_snoc.mpr ⟨hth hs, Or.inr rfl, hw⟩⟩
    | nic q hq hs =>
      obtain ⟨-, ring, head, ram, slot, rfl⟩ := Config.nicStep_frame hs
      dsimp only
      rw [List.length_append, List.length_singleton]
      exact ⟨hiu, by omega, fun hlt => by omega⟩
    | userStart | userStop | visit => exact ha.elim

/-- The accesses of the refill thread before its loop, when the start has been issued. -/
def AllocPc.before : AllocPc → Nat
  | .waitStop => 3
  | .waitStart => 2
  | .setStart => 1
  | _ => 0

/-- The refill thread comes to its loop once it has been told to start. -/
theorem Config.leads_looping (c : Config) (writers : Nat) {s : Capture} (h : s.drv.Prompted) (hstart : s.drv.board.userStart = true)
    (hstop : s.drv.board.userStop = false) :
    ∃ d, Leads (c.capture writers) ByThreads s { s with drv := d } ∧ d.alloc.pc.looping = true ∧ d.hist.sent = s.drv.hist.sent ∧
      d.board.userStop = false := by
  generalize hn : s.drv.alloc.pc.before = n
  induction n using Nat.strong_induction_on generalizing s with
  | _ n ih =>
    have hnot : s.drv.board.userStop ≠ true := by
      rw [hstop]
      decide
    -- an access that brings it closer
    have hnext : ∀ d, c.allocStep s.drv = some d → d.board.userStart = true → d.alloc.pc.before < s.drv.alloc.pc.before →
        ∃ d, Leads (c.capture writers) ByThreads s { s with drv := d } ∧ d.alloc.pc.looping = true ∧
          d.hist.sent = s.drv.hist.sent ∧ d.board.userStop = false := by
      intro d hs hu hlt
      obtain ⟨-, hsent, -, hus, -⟩ := Config.allocStep_frame hs
      obtain ⟨d', hl, hloop, hsent', hrun⟩ := ih d.alloc.pc.before (hn ▸ hlt) (s := { s with drv := d }) (h.allocStep hs) hu
        (hus.trans hstop) rfl
      have hone : Leads (c.capture writers) ByThreads s { s with drv := d } := Leads.single (Config.Step.alloc hs) ⟨Or.inl rfl, nofun⟩
      exact ⟨d', hone.trans hl, hloop, hsent'.trans hsent, hrun⟩
    cases hpc : s.drv.alloc.pc
    case waitStart =>
      refine hnext { s.drv with alloc := { s.drv.alloc with pc := .setStart } } ?_ hstart (by rw [hpc]; exact Nat.lt_succ_self _)
      simp [Config.allocStep, hpc, hstart]
    case waitStop =>
      refine hnext { s.drv with alloc := { s.drv.alloc with pc := .waitStart } } ?_ hstart (by rw [hpc]; exact Nat.lt_succ_self _)
      simp [Config.allocStep, hpc, hstop]
    case setStart =>
      refine hnext { s.drv with processStart := true, alloc := { s.drv.alloc with pc := .checkStop } } ?_ hstart (by rw [hpc]; exact Nat.lt_succ_self _)
      simp [Config.allocStep, hpc]
    case setStop => exact absurd (h.stopping (Or.inl hpc)) hnot
    case exited => exact absurd (h.stopping (Or.inr hpc)) hnot
    all_goals exact ⟨s.drv, Leads.refl s, by rw [hpc]; rfl, rfl, hstop⟩

/-! ## The theorem -/

/-- The ring does not block. In every state in which the start has been issued and the stop has not, and that a capture reaches by a run
in which the recording thread accepts only what was written back, the two threads alone can go on to a state in which every packet that
has been delivered is recorded and the adapter has a descriptor for the next one. -/
theorem capture_never_blocks (c : Config) (writers : Nat) {t : Capture} (h : Reached (c.capture writers) AcceptsWritten t)
    (hstart : t.drv.board.userStart = true) (hstop : t.drv.board.userStop = false) :
    ∃ u, Leads (c.capture writers) ByThreads t u ∧ u.drv.hist.sent = t.drv.hist.sent ∧
      u.drv.hist.accepted = u.drv.hist.sent.length ∧ u.drv.nicHead ≠ u.drv.tail := by
  obtain ⟨d1, hl1, hloop, hsent1, hrun⟩ := c.leads_looping writers (Config.prompted_of_reached h) hstart hstop
  have h1 := h.leads (hl1.mono fun _ _ hb => hb.2)
  have hi1 : c.Inv d1 := h1.invariant (I := fun s => c.Inv s.drv) (fun _ hi => Config.inv_init hi) fun _ _ _ hi hw hst => hi.step hw hst
  -- the recording thread catches up, and then the refill thread finds room
  obtain ⟨d2, hgo2, hlazy2, hsent2⟩ := Config.Working.catchUp writers [] (s := { t with drv := d1 }) ⟨hi1, hrun, hloop⟩
    (Config.prompted_of_reached h1)
  obtain ⟨d3, hgo3, hlazy3, href3, hlt⟩ := Config.Lazy.supply writers [] (s := { t with drv := d2 }) hlazy2
  have hsent3 : d3.hist.sent = d2.hist.sent := href3.sent
  have hl : Leads (c.capture writers) ByThreads { t with drv := d1 } { t with drv := d3 } := by
    refine (hgo2.trans hgo3).byThreads hi1 ?_
    dsimp only at hsent2 ⊢
    rw [hsent3, hsent2]
  refine ⟨{ t with drv := d3 }, hl1.trans hl, hsent3.trans (hsent2.trans hsent1), hlazy3.caught, ?_⟩
  have ho := hlazy3.inv.order
  dsimp only
  rw [hlazy3.inv.wrapped.head_eq, hlazy3.inv.wrapped.tail_eq]
  exact slot_ne_of_lt hlt (by omega)

/-- A capture in which the adapter has used up every descriptor goes on. -/
theorem capture_never_blocks_dry :
    ∃ t u : Capture, Reached (Config.shipped.capture 0) AcceptsWritten t ∧ Config.shipped.numRxSlots ≤ t.drv.hist.sent.length ∧
      t.drv.nicHead = t.drv.tail ∧ Leads (Config.shipped.capture 0) ByThreads t u ∧ u.drv.nicHead ≠ u.drv.tail := by
  obtain ⟨t, hr, hlazy, hdry, hN, hpc⟩ := Config.shipped.exists_dry 0 shortPacket_deliverable
  have hreach := Config.reached_acceptsWritten hr
  have hstart := (Config.prompted_of_reached hr).commanded (Or.inl hlazy.loop)
  obtain ⟨u, hl, -, -, hne⟩ := capture_never_blocks Config.shipped 0 hreach hstart hlazy.running
  have ho := hlazy.inv.order
  refine ⟨t, u, hreach, by omega, ?_, hl, hne⟩
  rw [hlazy.inv.wrapped.head_eq, hlazy.inv.wrapped.tail_eq]
  congr 1
  omega

end NicRecorder
