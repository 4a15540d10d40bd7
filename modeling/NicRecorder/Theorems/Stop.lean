import NicRecorder.Theorems.Phantom

/-!
# After the stop

When a stop is issued, by the user or by a writer that has found a stall, the refill thread ends and the recording thread empties
the ring. Its inner loop has no bound of its own: it goes on as long as it finds done bits, and the thread that clears them has
ended. As long as the ring does not run dry, the loop comes to a descriptor that is armed and not written, and ends after less
than one lap (`drain_ends`). On a dry ring every descriptor carries a done bit, and the loop never ends (`Spinning`).

The number that the thread stores at its end counts the packets up to its last test of a done bit. The adapter still has armed
descriptors then, and what it delivers afterwards goes to the same bucket and is not counted.
-/

namespace NicRecorder

open ByteMem Runs

variable {c : Config}

/-- A step of the recording thread. -/
def Act.isProc : Act → Bool
  | .proc => true
  | _ => false

/-- The recording thread has left its loops: its last two stores come next, or it has ended. -/
def ProcPc.leaving : ProcPc → Bool
  | .setCaptured | .setLast | .exited => true
  | _ => false

/-- The packets that the adapter has delivered into the fill of the recording thread: all since the start of the fill, up to the
start of the next one when the refill thread has gone there. -/
def Driver.delivered (d : Driver) : Nat :=
  (if d.hist.procFill < d.hist.allocFill then min d.hist.sent.length (d.hist.allocStart (d.hist.procFill + 1))
    else d.hist.sent.length) - d.hist.allocStart d.hist.procFill

/-- How the recording thread empties the ring in a run from `s` to `t`.

* It accepts less than one lap of descriptors.
* It takes a bounded number of steps, and it has a next one until it ends.
* Its position stays inside the part of the length block that is copied.
* When it finds a done bit clear, it has recorded every packet.
* Its last count is the position, and this is the number of packets delivered into the bucket if and only if every packet delivered
  has been recorded. -/
structure Config.Drains (c : Config) (s : Capture) (tr : List (Capture × Act)) (t : Capture) : Prop where
  accepts : t.drv.taken ≤ s.drv.taken + (c.numRxSlots - 1)
  steps : tr.countP (fun x => x.2.isProc) ≤ 6 * (c.numRxSlots - 1) + 9
  goesOn : t.drv.proc.pc ≠ .exited → ∃ d, c.procStep t.drv = some d
  inBlock : lenOff + 2 * t.drv.proc.curPartial ≤ lenBlockSize
  lastTest : t.drv.proc.pc = .poll → (t.drv.ring t.drv.proc.rxDesc).dd = false →
    t.drv.hist.accepted = t.drv.hist.sent.length
  stored : t.drv.proc.pc = .setCaptured →
    (c.procStep t.drv).map (fun d => d.board.captured t.drv.proc.cur) = some t.drv.proc.curPartial
  counted : t.drv.proc.pc.leaving = true →
    (t.drv.proc.curPartial = t.drv.delivered ↔ t.drv.hist.accepted = t.drv.hist.sent.length)

/-! ## The refill thread has ended -/

/-- The refill thread has ended, and the other one can see it. -/
structure Config.Stopped (c : Config) (d : Driver) : Prop where
  inv : c.Inv d
  ended : d.alloc.pc = .exited
  told : d.processStop = true

/-- In every state of a capture, the refill thread has not ended, or the other one can see it. -/
theorem Config.told_of_reached {writers : Nat} {φ : Capture → Act → Prop} {t : Capture} (h : Reached (c.capture writers) φ t) :
    t.drv.alloc.pc = .exited → t.drv.processStop = true := by
  refine h.invariant (I := fun s => s.drv.alloc.pc = .exited → s.drv.processStop = true) ?_ ?_
  · rintro s ⟨lens, ram, rfl⟩ he
    cases he
  · intro s a t htold _ hst
    cases hst with
    | alloc hs => exact Config.allocStep_exits hs
    | proc hs =>
      intro he
      rw [(Config.procStep_ring hs).2.2.2]
      exact htold ((congrArg AllocThread.pc (Config.procStep_frame hs).1).symm.trans he)
    | nic p hp hs =>
      obtain ⟨-, ring, head, ram, slot, rfl⟩ := Config.nicStep_frame hs
      exact htold
    | userStart | userStop => exact htold
    | visit k hk =>
      obtain ⟨captured, he, -⟩ := c.visitStep_drv k s
      rw [he]
      exact htold

theorem Config.stopped_of_reached {writers : Nat} {t : Capture} (h : Reached (c.capture writers) AcceptsWritten t)
    (he : t.drv.alloc.pc = .exited) : c.Stopped t.drv := by
  refine ⟨?_, he, Config.told_of_reached h he⟩
  obtain ⟨s, tr, hi, hr, hm⟩ := h
  exact Config.inv_of_run hi hr hm

/-! ## A ring that is not dry -/

/-- The steps of the recording thread to its end from a position, when it accepts no further descriptor. -/
def ProcPc.toEnd : ProcPc → Nat
  | .load => 9
  | .store => 8
  | .publishClean => 7
  | .compareRow => 6
  | .resetRow => 5
  | .waitStart | .poll => 4
  | .outer => 3
  | .setCaptured => 2
  | .waitStop | .setLast => 1
  | .exited => 0

/-- A bound on the steps of the recording thread to its end: at most six for each descriptor that is still armed. -/
def Driver.stepsLeft (d : Driver) : Nat := 6 * (d.hist.armed - d.taken) + d.proc.pc.toEnd

/-- Every step of the recording thread brings its end nearer. -/
theorem Config.Stopped.stepsLeft_lt {s : Capture} {d : Driver} (h : c.Stopped s.drv) (hn : c.NotDry s .proc)
    (hs : c.procStep s.drv = some d) : d.stepsLeft < s.drv.stepsLeft := by
  have htold := h.told
  cases hpc : s.drv.proc.pc <;>
    simp only [Config.procStep, hpc, htold, if_true, Option.some.injEq, reduceCtorEq] at hs
  case poll =>
    split at hs <;> cases hs
    · next hdd =>
      have hlt := h.inv.done_lt hn hpc hdd
      have ho := h.inv.order
      simp [Driver.stepsLeft, Driver.taken, hpc, ProcPc.toEnd]
      omega
    · simp [Driver.stepsLeft, Driver.taken, hpc, ProcPc.toEnd]
  case waitStart | store | publishClean | compareRow =>
    subst hs
    simp only [Driver.stepsLeft, Driver.taken, hpc]
    split <;> simp [ProcPc.toEnd]
  all_goals
    subst hs
    simp [Driver.stepsLeft, Driver.taken, hpc, ProcPc.toEnd]

/-- After the stop, every step keeps what is armed and brings the end of the recording thread nearer, or leaves it where it is. -/
theorem Config.Stopped.step {writers : Nat} {s t : Capture} {a : Act} (h : c.Stopped s.drv) (hn : c.NotDry s a)
    (hst : c.Step writers s a t) :
    c.Stopped t.drv ∧ t.drv.hist.armed = s.drv.hist.armed ∧
      (if a.isProc then 1 else 0) + t.drv.stepsLeft ≤ s.drv.stepsLeft := by
  have hinv := h.inv.step (h.inv.acceptsWritten hn) hst
  cases hst with
  | alloc hs =>
    rw [Config.allocStep, h.ended] at hs
    cases hs
  | proc hs =>
    obtain ⟨halloc, -, harm, -⟩ := Config.procStep_frame hs
    refine ⟨⟨hinv, ?_, ?_⟩, harm, ?_⟩
    · exact (congrArg AllocThread.pc halloc).trans h.ended
    · exact ((Config.procStep_ring hs).2.2.2).trans h.told
    · have hlt := h.stepsLeft_lt hn hs
      simp only [Act.isProc, if_true]
      omega
  | nic p hp hs =>
    obtain ⟨-, ring, head, ram, slot, rfl⟩ := Config.nicStep_frame hs
    refine ⟨⟨hinv, h.ended, h.told⟩, rfl, ?_⟩
    simp [Act.isProc, Driver.stepsLeft, Driver.taken]
  | userStart | userStop =>
    refine ⟨⟨hinv, h.ended, h.told⟩, rfl, ?_⟩
    simp [Act.isProc, Driver.stepsLeft, Driver.taken]
  | visit k hk =>
    obtain ⟨captured, he, -⟩ := c.visitStep_drv k s
    rw [he] at hinv ⊢
    refine ⟨⟨hinv, h.ended, h.told⟩, rfl, ?_⟩
    simp [Act.isProc, Driver.stepsLeft, Driver.taken]

/-- Less than one lap of descriptors is armed and not accepted. -/
theorem Config.Inv.armed_le_taken {d : Driver} (h : c.Inv d) : d.hist.armed ≤ d.taken + (c.numRxSlots - 1) := by
  have ho := h.order
  omega

theorem Config.Inv.stepsLeft_le {d : Driver} (h : c.Inv d) : d.stepsLeft ≤ 6 * (c.numRxSlots - 1) + 9 := by
  have hle := h.armed_le_taken
  have hend : d.proc.pc.toEnd ≤ 9 := by cases d.proc.pc <;> decide
  unfold Driver.stepsLeft
  omega

/-- When a done bit is found clear, every packet delivered has been recorded. -/
theorem Config.Inv.clear_caught {d : Driver} (h : c.Inv d) (hpc : d.proc.pc = .poll) (hdd : (d.ring d.proc.rxDesc).dd = false) :
    d.hist.accepted = d.hist.sent.length := by
  have ho := h.order
  have ht : d.taken = d.hist.accepted := Driver.taken_of_ne (by rw [hpc]; decide)
  by_contra hne
  have hw := (h.ringed.written d.hist.accepted (by omega) (by omega)).2
  rw [← (h.wrapped.published (by rw [hpc]; decide)).2, hdd] at hw
  cases hw

/-- The count of a thread that leaves its loops is the number of packets delivered into its fill, when all are recorded. -/
theorem Config.Inv.counted {d : Driver} (h : c.Inv d) (hpc : d.proc.pc.leaving = true) :
    d.proc.curPartial = d.delivered ↔ d.hist.accepted = d.hist.sent.length := by
  have ho := h.order
  have hacc := h.window.accepted_eq
  have hstart : d.procBase = d.hist.allocStart d.hist.procFill := h.agreed.starts _ (Nat.le_refl _)
  unfold Driver.delivered
  rcases h.agreed.fills with ⟨hs, -⟩ | hn
  · rw [if_neg (by omega)]
    omega
  · -- the refill thread is one fill ahead: the packets before its fill, of which this thread has not recorded the last one
    have hne : d.hist.accepted ≠ d.base := hn.not_closing (by cases hq : d.proc.pc <;> simp_all [ProcPc.leaving])
    have hnext : d.hist.allocStart (d.hist.procFill + 1) = d.base := by
      unfold Driver.base
      rw [hn.next]
    have hbehind := hn.behind
    have hlt := hn.next
    rw [if_pos (by omega), hnext]
    omega

/-- After the stop, the recording thread empties the ring in every run that polls no dry ring. -/
theorem Config.Stopped.drains {writers : Nat} {s t : Capture} {tr : List (Capture × Act)} (h : c.Stopped s.drv)
    (hr : Run (c.capture writers) s tr t) (hm : Meets c.NotDry tr) : c.Drains s tr t := by
  have hrun : c.Stopped t.drv ∧ t.drv.hist.armed = s.drv.hist.armed :=
    hr.invariantUnder (I := fun u => c.Stopped u.drv ∧ u.drv.hist.armed = s.drv.hist.armed)
      (fun _ _ _ hI hn hst => ⟨(hI.1.step hn hst).1, (hI.1.step hn hst).2.1.trans hI.2⟩) ⟨h, rfl⟩ hm
  have hcount := hr.countP_add_le (I := fun u => c.Stopped u.drv)
    (fun u a _ hI (hn : c.NotDry u a) hst => ⟨(hI.step hn hst).1, (hI.step hn hst).2.2⟩) h hm
  obtain ⟨ht, harm⟩ := hrun
  have ho := ht.inv.order
  refine ⟨?_, ?_, Config.procStep_isSome, ?_, ht.inv.clear_caught, ?_, ht.inv.counted⟩
  · have hle := h.inv.armed_le_taken
    omega
  · have hle := h.inv.stepsLeft_le
    omega
  · have hle := ht.inv.curPartial_le
    have hblock := c.rows_inBlock
    omega
  · intro hpc
    simp [Config.procStep, hpc]

/-! ## A dry ring -/

/-- The recording thread is in its inner loop. -/
def ProcPc.inner : ProcPc → Bool
  | .poll | .load | .store | .publishClean | .compareRow | .resetRow => true
  | _ => false

/-- The recording thread goes round a ring in which every done bit is set, with no descriptor left for the adapter and nobody to clear
the bits. -/
structure Config.Spinning (c : Config) (d : Driver) : Prop where
  ended : d.alloc.pc = .exited
  empty : d.nicHead = d.tail
  done : ∀ x < c.numRxSlots, (d.ring x).dd = true
  inner : d.proc.pc.inner = true
  here : d.proc.pc ≠ .publishClean → d.proc.rxDesc = d.proc.curPartial % c.numRxSlots
  next : d.proc.pc = .publishClean → d.proc.rxDesc =
    if d.proc.curPartial % c.numRxSlots = 0 then c.numRxSlots else d.proc.curPartial % c.numRxSlots
  row : d.proc.pc = .compareRow ∨ d.proc.pc = .resetRow → d.proc.curPartial % c.numRxSlots = 0

/-- The steps since the last descriptor was recorded. -/
def ProcPc.turn : ProcPc → Nat
  | .compareRow => 1
  | .resetRow => 2
  | .poll => 3
  | .load => 4
  | .store => 5
  | _ => 0

/-- How far the thread has come on its way round and round. -/
def Driver.turns (d : Driver) : Nat := 6 * d.hist.accepted + d.proc.pc.turn

/-- The position after `n`, which is counted in 32 bits, on the ring. -/
theorem Config.next_mod (c : Config) (n : Nat) :
    (n + 1) % 2 ^ 32 % c.numRxSlots = if n % c.numRxSlots + 1 = c.numRxSlots then 0 else n % c.numRxSlots + 1 := by
  have hdvd : c.numRxSlots ∣ 2 ^ 32 := c.slots_dvd.trans (by decide)
  rw [Nat.mod_mod_of_dvd _ hdvd, c.succ_mod]

/-- The position after a descriptor is recorded. -/
theorem Config.Spinning.store {d : Driver} (h : c.Spinning d) (hpc : d.proc.pc = .store) :
    let next := (d.proc.curPartial + 1) % 2 ^ 32
    (next % 256 = 0 → d.proc.rxDesc + 1 = if next % c.numRxSlots = 0 then c.numRxSlots else next % c.numRxSlots) ∧
      (next % 256 ≠ 0 → d.proc.rxDesc + 1 = next % c.numRxSlots) := by
  intro next
  have hrx : d.proc.rxDesc = d.proc.curPartial % c.numRxSlots := h.here (by rw [hpc]; decide)
  have hmod : next % c.numRxSlots = _ := c.next_mod d.proc.curPartial
  rw [← hrx] at hmod
  by_cases hlap : d.proc.rxDesc + 1 = c.numRxSlots
  · rw [if_pos hlap] at hmod
    exact ⟨fun _ => by rw [if_pos hmod, hlap], fun hne => absurd (c.batch_of_row hmod) hne⟩
  · rw [if_neg hlap] at hmod
    exact ⟨fun _ => by rw [if_neg (by omega), hmod], fun _ => hmod.symm⟩

/-- Every step of the thread keeps it on its way, and brings it further. -/
theorem Config.Spinning.procStep {d d' : Driver} (h : c.Spinning d) (hs : c.procStep d = some d') :
    c.Spinning d' ∧ d.turns < d'.turns := by
  have hend : d'.alloc.pc = .exited := (congrArg AllocThread.pc (Config.procStep_frame hs).1).trans h.ended
  obtain ⟨hring, hhead, htail, -⟩ := Config.procStep_ring hs
  have hempty : d'.nicHead = d'.tail := hhead.trans (h.empty.trans htail.symm)
  have hdone : ∀ x < c.numRxSlots, (d'.ring x).dd = true := hring ▸ h.done
  have hlt := Nat.mod_lt d.proc.curPartial c.slots_pos
  have hin := h.inner
  cases hpc : d.proc.pc <;> rw [hpc] at hin <;>
    simp only [Config.procStep, hpc, Option.some.injEq, reduceCtorEq, ProcPc.inner, Bool.false_eq_true] at hs hin
  case poll =>
    have hrx := h.here (by rw [hpc]; decide)
    rw [if_pos (h.done _ (hrx ▸ hlt)), Option.some.injEq] at hs
    subst hs
    refine ⟨⟨hend, hempty, hdone, rfl, fun _ => hrx, by simp, by simp⟩, ?_⟩
    simp [Driver.turns, hpc, ProcPc.turn]
  case load =>
    subst hs
    refine ⟨⟨hend, hempty, hdone, rfl, fun _ => h.here (by rw [hpc]; decide), by simp, by simp⟩, ?_⟩
    simp [Driver.turns, hpc, ProcPc.turn]
  case store =>
    obtain ⟨hbatch, hmore⟩ := h.store hpc
    subst hs
    by_cases hb : (d.proc.curPartial + 1) % 2 ^ 32 % 256 = 0
    · simp only [hb, if_true] at hend hempty hdone ⊢
      refine ⟨⟨hend, hempty, hdone, rfl, fun hne => absurd rfl hne, fun _ => hbatch hb, by simp⟩, ?_⟩
      simp only [Driver.turns, hpc, ProcPc.turn]
      omega
    · simp only [hb, if_false] at hend hempty hdone ⊢
      refine ⟨⟨hend, hempty, hdone, rfl, fun _ => hmore hb, by simp, by simp⟩, ?_⟩
      simp only [Driver.turns, hpc, ProcPc.turn]
      omega
  case publishClean =>
    have hrx := h.next hpc
    subst hs
    by_cases hr : c.mask d.proc.curPartial = 0
    · have hz : d.proc.curPartial % c.numRxSlots = 0 := hr
      rw [if_pos hz] at hrx
      simp only [hr, if_true] at hend hempty hdone ⊢
      refine ⟨⟨hend, hempty, hdone, rfl, fun _ => ?_, by simp, fun _ => hz⟩, ?_⟩
      · dsimp only
        rw [hrx, hz, Nat.sub_self]
      · simp [Driver.turns, hpc, ProcPc.turn]
    · have hz : ¬d.proc.curPartial % c.numRxSlots = 0 := hr
      rw [if_neg hz] at hrx
      simp only [hr, if_false] at hend hempty hdone ⊢
      refine ⟨⟨hend, hempty, hdone, rfl, fun _ => hrx, by simp, by simp⟩, ?_⟩
      simp [Driver.turns, hpc, ProcPc.turn]
  case compareRow =>
    have hrx := h.here (by rw [hpc]; decide)
    subst hs
    by_cases hm : d.maxRow = d.proc.curPartial
    · simp only [hm, if_true] at hend hempty hdone ⊢
      refine ⟨⟨hend, hempty, hdone, rfl, fun _ => hrx, by simp, fun _ => h.row (Or.inl hpc)⟩, ?_⟩
      simp [Driver.turns, hpc, ProcPc.turn]
    · simp only [hm, if_false] at hend hempty hdone ⊢
      refine ⟨⟨hend, hempty, hdone, rfl, fun _ => hrx, by simp, by simp⟩, ?_⟩
      simp [Driver.turns, hpc, ProcPc.turn]
  case resetRow =>
    have hrx := (h.here (by rw [hpc]; decide)).trans (h.row (Or.inr hpc))
    subst hs
    refine ⟨⟨hend, hempty, hdone, rfl, fun _ => ?_, by simp, by simp⟩, ?_⟩
    · dsimp only
      rw [hrx, Nat.zero_mod]
    · simp [Driver.turns, hpc, ProcPc.turn]

/-- No step of anybody gets the thread out of its way. -/
theorem Config.Spinning.step {writers : Nat} {s t : Capture} {a : Act} (h : c.Spinning s.drv) (hst : c.Step writers s a t) :
    c.Spinning t.drv := by
  cases hst with
  | alloc hs =>
    rw [Config.allocStep, h.ended] at hs
    cases hs
  | proc hs => exact (h.procStep hs).1
  | nic p hp hs => exact absurd h.empty (Config.nicStep_frame hs).1
  | userStart | userStop => exact ⟨h.ended, h.empty, h.done, h.inner, h.here, h.next, h.row⟩
  | visit k hk =>
    obtain ⟨captured, he, -⟩ := c.visitStep_drv k s
    rw [he]
    exact ⟨h.ended, h.empty, h.done, h.inner, h.here, h.next, h.row⟩

/-- The thread accepts as many descriptors as one likes. -/
theorem Config.Spinning.accepts (writers n : Nat) {s : Capture} (h : c.Spinning s.drv) :
    ∃ tr t, Run (c.capture writers) s tr t ∧ s.drv.hist.accepted + n ≤ t.drv.hist.accepted := by
  have hstep : ∀ u : Capture, c.Spinning u.drv →
      ∃ v, (c.capture writers).step u .proc v ∧ c.Spinning v.drv ∧ u.drv.turns < v.drv.turns := by
    intro u hu
    have hpc : u.drv.proc.pc ≠ .exited := by
      intro he
      have hin := hu.inner
      rw [he] at hin
      cases hin
    obtain ⟨d, hs⟩ := Config.procStep_isSome hpc
    exact ⟨{ u with drv := d }, Config.Step.proc hs, hu.procStep hs⟩
  obtain ⟨tr, t, hr, -, hle⟩ := Run.exists_raising hstep (6 * n + 5) h
  refine ⟨tr, t, hr, ?_⟩
  have hturn : t.drv.proc.pc.turn ≤ 5 := by cases t.drv.proc.pc <;> decide
  simp only [Driver.turns] at hle
  omega

/-- Every lap of the ring has a descriptor for every position. -/
theorem exists_mod_eq (a : Nat) {n x : Nat} (hx : x < n) : ∃ i, a ≤ i ∧ i < a + n ∧ i % n = x := by
  have hlt := Nat.mod_lt a (show 0 < n by omega)
  refine ⟨a + (x + n - a % n) % n, Nat.le_add_right _ _, ?_, ?_⟩
  · have := Nat.mod_lt (x + n - a % n) (show 0 < n by omega)
    omega
  · have hsum : a + (x + n - a % n) = n * (a / n) + (x + n) := by
      have := Nat.div_add_mod a n
      omega
    rw [Nat.add_mod_mod, hsum, Nat.mul_add_mod, Nat.add_mod_right, Nat.mod_eq_of_lt hx]

/-- A thread that polls a dry ring after the stop spins. -/
theorem Config.Stopped.spinning {d : Driver} (h : c.Stopped d) (hpc : d.proc.pc = .poll) (hdry : d.hist.accepted = d.hist.armed)
    (hN : c.numRxSlots ≤ d.hist.armed) : c.Spinning d := by
  have ho := h.inv.order
  have hrx := (h.inv.wrapped.published (by rw [hpc]; decide)).2
  refine ⟨h.ended, ?_, ?_, ?_, fun _ => ?_, fun hq => ?_, fun hq => ?_⟩
  · rw [h.inv.wrapped.head_eq, h.inv.wrapped.tail_eq, show d.hist.sent.length = d.hist.tailed by omega]
  · intro x hx
    obtain ⟨i, h1, h2, h3⟩ := exists_mod_eq (d.hist.armed - c.numRxSlots) hx
    rw [← h3]
    exact (h.inv.ringed.accepted i (by omega) (by omega)).2
  · rw [hpc]
    rfl
  · rw [hrx, h.inv.curPartial_mod]
  · exact absurd (hpc.symm.trans hq) nofun
  · rcases hq with hq | hq <;> exact absurd (hpc.symm.trans hq) nofun

/-- A run after the stop in which the thread has polled a dry ring ends in a state in which it spins. -/
theorem Config.Stopped.spinning_of_run {writers : Nat} {s t : Capture} {tr : List (Capture × Act)} (h : c.Stopped s.drv)
    (hr : Run (c.capture writers) s tr t) (hm : ¬Meets c.NotDry tr) : c.Spinning t.drv := by
  induction hr with
  | nil => exact absurd (meets_nil _) hm
  | @snoc t u tr a hr hst ih =>
    by_cases hm' : Meets c.NotDry tr
    · have ht : c.Stopped t.drv :=
        hr.invariantUnder (I := fun u => c.Stopped u.drv) (fun _ _ _ hI hn hst => (hI.step hn hst).1) h hm'
      have hdry : ¬c.NotDry t a := fun hn => hm (meets_snoc.mpr ⟨hm', hn⟩)
      simp only [Config.NotDry, Classical.not_imp, Nat.not_lt] at hdry
      obtain ⟨-, hpc, he, hN⟩ := hdry
      exact (ht.spinning hpc he hN).step hst
    · exact (ih hm').step hst

/-- A thread that spins never ends. -/
theorem Config.Spinning.never_ends {writers : Nat} {s t : Capture} {tr : List (Capture × Act)} (h : c.Spinning s.drv)
    (hr : Run (c.capture writers) s tr t) : t.drv.proc.pc ≠ .exited := by
  intro he
  have ht := hr.invariant (I := fun u => c.Spinning u.drv) (fun _ _ _ hI hst => hI.step hst) h
  have hin := ht.inner
  rw [he] at hin
  cases hin

/-- The recording thread empties the ring and ends in every run after the stop that polls no dry ring. From a dry poll on it never
ends. -/
theorem drain_ends (c : Config) (writers : Nat) {s t : Capture} {tr : List (Capture × Act)}
    (hs : Reached (c.capture writers) AcceptsWritten s) (he : s.drv.alloc.pc = .exited) (hr : Run (c.capture writers) s tr t) :
    (Meets c.NotDry tr → c.Drains s tr t) ∧
      (¬Meets c.NotDry tr → ∀ tr' u, Run (c.capture writers) t tr' u → u.drv.proc.pc ≠ .exited) := by
  have h := Config.stopped_of_reached hs he
  exact ⟨h.drains hr, fun hm _ _ hr' => (h.spinning_of_run hr hm).never_ends hr'⟩

/-! ## Captures that are stopped -/

/-- The recording thread has left its inner loop only when every packet was recorded, and its count is stored by the first of its final
stores. -/
structure Driver.Draining (d : Driver) : Prop where
  started : d.proc.pc ≠ .waitStart ∧ d.proc.pc ≠ .waitStop
  caught : d.proc.pc.inner = false → d.hist.accepted = d.hist.sent.length
  counted : d.proc.pc = .setLast ∨ d.proc.pc = .exited → d.board.captured d.proc.cur = d.proc.curPartial

theorem Config.Stopped.draining {d d' : Driver} (h : c.Stopped d) (hd : d.Draining) (hs : c.procStep d = some d') : d'.Draining := by
  obtain ⟨⟨hw, hw'⟩, hcaught, hcounted⟩ := hd
  cases hpc : d.proc.pc <;> simp only [Config.procStep, hpc, h.told, if_true, Option.some.injEq, reduceCtorEq] at hs
  case waitStart => exact absurd hpc hw
  case waitStop => exact absurd hpc hw'
  case poll =>
    split at hs <;> cases hs
    · exact ⟨by simp, by simp [ProcPc.inner], by simp⟩
    · next hdd =>
      exact ⟨by simp, fun _ => h.inv.clear_caught hpc (Bool.eq_false_of_not_eq_true hdd), by simp⟩
  case load | resetRow =>
    subst hs
    exact ⟨by simp, by simp [ProcPc.inner], by simp⟩
  case store | publishClean | compareRow =>
    subst hs
    refine ⟨?_, ?_, ?_⟩
    · split <;> simp
    · split <;> simp [ProcPc.inner]
    · split <;> simp
  case outer =>
    subst hs
    exact ⟨by simp, fun _ => hcaught (by rw [hpc]; rfl), by simp⟩
  case setCaptured =>
    subst hs
    exact ⟨by simp, fun _ => hcaught (by rw [hpc]; rfl), fun _ => Function.update_self ..⟩
  case setLast =>
    subst hs
    exact ⟨by simp, fun _ => hcaught (by rw [hpc]; rfl), fun _ => hcounted (Or.inl hpc)⟩

/-- After the stop the recording thread can go on to its end, when less than a lap has been delivered. -/
theorem Config.Stopped.leads_end (writers : Nat) : ∀ n, ∀ s : Capture, c.Stopped s.drv → s.drv.Draining → s.drv.stepsLeft ≤ n →
    s.drv.hist.sent.length < c.numRxSlots →
    ∃ d, Leads (c.capture writers) c.NotDry s { s with drv := d } ∧ d.proc.pc = .exited ∧ d.hist.sent = s.drv.hist.sent ∧ d.Draining := by
  intro n
  induction n with
  | zero =>
    intro s h hd hn hlen
    refine ⟨s.drv, Leads.refl s, ?_, rfl, hd⟩
    have hend : s.drv.proc.pc.toEnd = 0 := Nat.le_zero.mp (Nat.le_trans (Nat.le_add_left ..) hn)
    cases hpc : s.drv.proc.pc <;> rw [hpc] at hend <;> first | rfl | cases hend
  | succ n ih =>
    intro s h hd hn hlen
    by_cases hpc : s.drv.proc.pc = .exited
    · exact ⟨s.drv, Leads.refl s, hpc, rfl, hd⟩
    · obtain ⟨d, hs⟩ := Config.procStep_isSome (c := c) hpc
      have hnd : c.NotDry s .proc := by
        intro _ _ he
        have ho := h.inv.order
        omega
      have hst : c.Step writers s .proc { s with drv := d } := Config.Step.proc hs
      have hlt := h.stepsLeft_lt hnd hs
      have hsent := (Config.procStep_frame hs).2.1
      obtain ⟨d', hl, hexit, hsent', hd'⟩ := ih { s with drv := d } (h.step hnd hst).1 (h.draining hd hs)
        (by show d.stepsLeft ≤ n; omega) (by show d.hist.sent.length < _; rw [hsent]; exact hlen)
      exact ⟨d', (Leads.single hst hnd).trans hl, hexit, hsent'.trans hsent, hd'⟩

/-- A capture that is stopped when three packets have been recorded and a fourth one has been delivered. -/
theorem Config.exists_undrained (c : Config) (writers : Nat) :
    ∃ s, Reached (c.capture writers) AcceptsWritten s ∧ s.drv.alloc.pc = .exited ∧ s.drv.hist.accepted = 3 ∧
      s.drv.hist.sent.length = 4 ∧ s.drv.Draining := by
  let at' : Driver → Capture := fun d => ⟨d, c.startVisitor writers, []⟩
  obtain ⟨d0, hl0, h0, hsent0⟩ := c.exists_captured writers (fun _ _ => 0) (fun _ => 0) threePackets_deliverable
  obtain ⟨d2, hgo2, h2, hpc2, href2, hlt2⟩ := Config.Lazy.restStocked writers [] (s := at' d0) h0
  have hsent2 : d2.hist.sent.length = 3 := by
    rw [href2.sent]
    exact congrArg List.length hsent0
  -- the adapter delivers one packet more
  have hne : d2.nicHead ≠ d2.tail := by
    have ho := h2.inv.order
    rw [h2.inv.wrapped.head_eq, h2.inv.wrapped.tail_eq]
    exact slot_ne_of_lt hlt2 (by omega)
  obtain ⟨d3, hs3⟩ : ∃ d3, c.nicStep shortPacket d2 = some d3 := by simp [Config.nicStep, hne]
  have hnic : Leads (c.capture writers) c.NotDry (at' d2) (at' d3) :=
    Leads.single (Config.Step.nic shortPacket shortPacket_deliverable hs3) (Config.notDry_of_ne (by simp))
  have hkept : d3.alloc = d2.alloc ∧ d3.proc = d2.proc ∧ d3.hist.accepted = d2.hist.accepted ∧
      d3.hist.sent = d2.hist.sent ++ [shortPacket] := by
    obtain ⟨-, ring, head, ram, slot, rfl⟩ := Config.nicStep_frame hs3
    exact ⟨rfl, rfl, rfl, rfl⟩
  obtain ⟨halloc3, hproc3, hacc3, hsent3⟩ := hkept
  have hstop := Config.leads_stopped (c := c) writers (t := at' d3) (by rw [← hpc2, ← halloc3])
  have hpoll : d3.proc.pc = .poll := by rw [hproc3, h2.polls]
  refine ⟨_, Config.reached_acceptsWritten ((hl0.trans (hgo2.leads.trans (hnic.trans hstop))).reached ⟨_, _, rfl⟩),
    rfl, hacc3.trans (h2.caught.trans hsent2), ?_, ?_⟩
  · show d3.hist.sent.length = 4
    rw [hsent3, List.length_append, hsent2]
    rfl
  · exact ⟨by simp [Driver.stopped, at', hpoll], by simp [Driver.stopped, at', hpoll, ProcPc.inner],
      by simp [Driver.stopped, at', hpoll]⟩

/-- The recording thread accepts the packet that was left and ends, and its count is the number of packets delivered. -/
theorem drain_ends_four :
    ∃ s tr t, Reached (Config.shipped.capture 1) AcceptsWritten s ∧ s.drv.alloc.pc = .exited ∧ s.drv.hist.accepted = 3 ∧
      s.drv.hist.sent.length = 4 ∧ Run (Config.shipped.capture 1) s tr t ∧ t.drv.proc.pc = .exited ∧ t.drv.hist.accepted = 4 ∧
      t.drv.board.captured t.drv.proc.cur = t.drv.delivered ∧ Config.shipped.Drains s tr t := by
  obtain ⟨s, hreach, he, hacc, hsent, hd⟩ := Config.shipped.exists_undrained 1
  have hN := Config.shipped.slots_ge
  obtain ⟨d, ⟨tr, hr, hm⟩, hexit, hsent', hd'⟩ :=
    (Config.stopped_of_reached hreach he).leads_end 1 _ s hd (Nat.le_refl _) (by omega)
  have hdrain := (drain_ends Config.shipped 1 hreach he hr).1 hm
  have hall : d.hist.accepted = d.hist.sent.length := hd'.caught (by rw [hexit]; rfl)
  refine ⟨s, tr, _, hreach, he, hacc, hsent, hr, hexit, ?_, ?_, hdrain⟩
  · rw [hall, hsent', hsent]
  · exact (hd'.counted (Or.inr hexit)).trans ((hdrain.counted (by rw [hexit]; rfl)).mpr hall)

/-- A capture of the shipped configuration is stopped when the ring is dry. Then the recording thread never ends, whatever happens,
and it accepts any number of further descriptors. -/
theorem drain_ends_false :
    ∃ s, Reached (Config.shipped.capture 1) AcceptsWritten s ∧ s.drv.alloc.pc = .exited ∧
      (∀ tr t, Run (Config.shipped.capture 1) s tr t → t.drv.proc.pc ≠ .exited) ∧
      ∀ n, ∃ tr t, Run (Config.shipped.capture 1) s tr t ∧ s.drv.hist.accepted + n ≤ t.drv.hist.accepted := by
  obtain ⟨t, hreach, h, hdry, hN, hpc⟩ := Config.shipped.exists_dry 1 shortPacket_deliverable
  have hstop := Config.reached_acceptsWritten (hreach.leads (Config.leads_stopped 1 hpc))
  have hspin : Config.shipped.Spinning t.drv.stopped := (Config.stopped_of_reached hstop rfl).spinning h.polls hdry hN
  exact ⟨{ t with drv := t.drv.stopped }, hstop, rfl, fun _ _ hr => hspin.never_ends hr, fun n => hspin.accepts 1 n⟩

end NicRecorder
