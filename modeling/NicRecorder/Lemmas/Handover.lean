import NicRecorder.Recorder
import NicRecorder.Lemmas.ProcSteps
import NicRecorder.Lemmas.Effects

/-!
# Where the descriptors point, and how the threads end

Two invariants of the capture threads beside `Inv`, about what they hand over to the adapter and to the writers. `Addressed`: a
descriptor that is armed points into the bucket of the fill that its packet will belong to. `Closing`: the recording thread makes
its last stores when the refill thread has ended, and `last` is set by nothing else.
-/

namespace NicRecorder

open ByteMem

variable {c : Config} {d d' : Driver}

/-! ## The fill of a packet -/

/-- From the first packet of the refill thread's fill on, a packet is of that fill. -/
theorem Driver.fillAt_of_le {i : Nat} (h : d.base ≤ i) : d.fillAt i = d.hist.allocFill := if_pos h

/-- Before it, a packet is of the recording thread's fill. -/
theorem Driver.fillAt_of_lt {i : Nat} (h : i < d.base) : d.fillAt i = d.hist.procFill := if_neg (Nat.not_le.mpr h)

/-- When both threads are in one fill, all are of it. -/
theorem Config.SameFill.fillAt (h : c.SameFill d) (i : Nat) : d.fillAt i = d.hist.procFill := by
  unfold Driver.fillAt
  rw [h.1, ite_self]

/-- The refill thread changes the fill of no descriptor that it has armed. -/
theorem Config.Inv.fillAt_allocStep (hi : c.Inv d) (hs : c.allocStep d = some d') {i : Nat} (h : i < d.hist.armed) :
    d'.fillAt i = d.fillAt i := by
  unfold Config.allocStep at hs
  cases hpc : d.alloc.pc <;> rw [hpc] at hs <;> simp only [Option.some.injEq, reduceCtorEq] at hs
  case readClean => split at hs <;> cases hs <;> rfl
  case endRow =>
    subst hs
    unfold Config.endRow
    split
    · next hsp =>
      split
      · rfl
      · -- the new fill begins with the next descriptor, and both threads were in the old one
        refine (Driver.fillAt_of_lt ?_).trans ((hi.sameFill_endRow hpc hsp).fillAt i).symm
        show i < Function.update d.hist.allocStart (d.hist.allocFill + 1) d.hist.armed (d.hist.allocFill + 1)
        rw [Function.update_self]
        exact h
    · rfl
  all_goals subst hs; rfl

/-- The recording thread changes the fill of no packet that it has not recorded: when it follows to the next fill, all that is
left is of that fill. -/
theorem Config.Inv.fillAt_procStep (hi : c.Inv d) (hs : c.procStep d = some d') {i : Nat} (h : d.hist.accepted ≤ i) :
    d'.fillAt i = d.fillAt i := by
  unfold Config.procStep at hs
  cases hpc : d.proc.pc <;> rw [hpc] at hs <;> simp only [Option.some.injEq, reduceCtorEq] at hs
  case poll => split at hs <;> cases hs <;> rfl
  case resetRow =>
    obtain ⟨_, hacc⟩ := hi.agreed.resetting hpc
    have hle : d.base ≤ i := by omega
    subst hs
    rw [Driver.fillAt_of_le hle]
    exact Driver.fillAt_of_le hle
  all_goals subst hs; rfl

/-! ## The addresses -/

/-- An address made of a bucket and an offset is in that bucket. -/
theorem or_div_two_pow {b off : Nat} (h : off < 2 ^ 30) : (b * 2 ^ 30 ||| off) / 2 ^ 30 = b := by
  rw [or_eq_add h, Nat.mul_comm, Nat.mul_add_div (by decide), Nat.div_eq_of_lt h, Nat.add_zero]

/-- When the address is stored, the slot has room for a packet. -/
theorem Config.Inv.glength_le (h : c.Inv d) (hpc : d.alloc.pc = .setAddr) :
    d.alloc.glength d.alloc.supPartial ≤ c.byteLimit + rxBufSize := by
  have hb := h.window.batch (by rw [hpc]; rfl)
  rw [h.grown.grown d.alloc.supPartial (by simp [AllocThread.rowGrown, hpc]) (by omega)]
  cases hr : d.alloc.supRow with
  | zero => exact Nat.zero_le _
  | succ r =>
    rw [c.held_succ]
    have h1 := h.grown.rows r (by omega) d.alloc.supPartial (by omega)
    have h2 := h.lengthOf_le (d.base + (r * c.numRxSlots + d.alloc.supPartial))
    omega

/-- The offset of every slot is below the length block. -/
theorem Config.Inv.slotOffset_lt (h : c.Inv d) (hpc : d.alloc.pc = .setAddr) :
    c.slotOffset d.alloc.supPartial (d.alloc.glength d.alloc.supPartial) < 2 ^ 30 := by
  have hb := h.window.batch (by rw [hpc]; rfl)
  have hg := h.glength_le hpc
  have hl := c.byteLimit_add
  have hm := c.slots_mul_bytes
  have hle := Nat.mul_le_mul_left c.bytesPerSlot (show d.alloc.supPartial + 1 ≤ c.numRxSlots by omega)
  rw [Nat.mul_succ, Nat.mul_comm c.bytesPerSlot c.numRxSlots, hm] at hle
  unfold Config.slotOffset
  unfold rxBufSize const1M at *
  omega

/-- A descriptor between the adapter and the refill thread points into the bucket of its packet; the last one only after its
address has been stored. -/
structure Config.Addressed (c : Config) (d : Driver) : Prop where
  addrs : d.hist.addrs.length = d.hist.sent.length
  bucket : ∀ i, d.hist.sent.length ≤ i → i < d.hist.armed → (d.alloc.pc = .setAddr → i + 1 < d.hist.armed) →
    (d.ring (i % c.numRxSlots)).pktAddr / 2 ^ 30 = c.bucketOf (d.fillAt i)

/-- Nothing is armed at the start. -/
theorem Config.addressed_start (c : Config) (lens : Nat → Nat → Nat) (ram : Mem) : c.Addressed (c.startDriver lens ram) :=
  ⟨rfl, fun _ _ h => absurd h (Nat.not_lt_zero _)⟩

/-- What leaves the ring and the counts alone keeps the addresses. -/
theorem Config.Addressed.keep (h : c.Addressed d) (ha : d'.hist.addrs = d.hist.addrs) (hs : d'.hist.sent = d.hist.sent)
    (hr : d'.ring = d.ring) (harm : d'.hist.armed = d.hist.armed)
    (hpc : d.alloc.pc = .setAddr → d'.alloc.pc = .setAddr)
    (hf : ∀ i, d.hist.sent.length ≤ i → i < d.hist.armed → d'.fillAt i = d.fillAt i) : c.Addressed d' := by
  refine ⟨by rw [ha, hs]; exact h.addrs, fun i h1 h2 h3 => ?_⟩
  rw [hs] at h1
  rw [harm] at h2 h3
  rw [hr, hf i h1 h2]
  exact h.bucket i h1 h2 fun hp => h3 (hpc hp)

/-- Writing the word that the adapter writes back leaves the address of a descriptor. -/
theorem update_dd (ring : Nat → Desc) (x : Nat) (dd : Bool) (length y : Nat) :
    (Function.update ring x { ring x with dd := dd, length := length } y).pktAddr = (ring y).pktAddr := by
  by_cases h : y = x
  · subst h
    simp
  · simp [h]

/-- Lines 107 to 110 and 117: the descriptor gets the address of the slot in the bucket of the refill thread. -/
theorem Config.Addressed.setAddr (h : c.Addressed d) (hi : c.Inv d) (hpc : d.alloc.pc = .setAddr) {i : Nat}
    (h1 : d.hist.sent.length ≤ i) (h2 : i < d.hist.armed) :
    (Function.update d.ring d.alloc.supPartial { d.ring d.alloc.supPartial with
        pktAddr := d.alloc.cur * 2 ^ 30 ||| c.slotOffset d.alloc.supPartial (d.alloc.glength d.alloc.supPartial) }
      (i % c.numRxSlots)).pktAddr / 2 ^ 30 = c.bucketOf (d.fillAt i) := by
  have hb := hi.window.batch (by rw [hpc]; rfl)
  have harm := hi.window.armed_eq
  have hdvd := hi.wrapped.base_dvd
  have ho := hi.order
  rw [AllocThread.rowArmed, if_pos hpc] at harm
  have hlast : (d.hist.armed - 1) % c.numRxSlots = d.alloc.supPartial := by
    obtain ⟨q, hq⟩ := hdvd
    have he : d.hist.armed - 1 = d.alloc.supPartial + c.numRxSlots * (q + d.alloc.supRow) := by
      rw [Nat.mul_add, ← hq, Nat.mul_comm c.numRxSlots]
      omega
    rw [he, Nat.add_mul_mod_self_left, Nat.mod_eq_of_lt (by omega)]
  by_cases he : i = d.hist.armed - 1
  · rw [he, hlast, Function.update_self, or_div_two_pow (hi.slotOffset_lt hpc), hi.wrapped.alloc_cur]
    rw [Driver.fillAt_of_le (by omega)]
  · have hroom := hi.window.room
    have hne : i % c.numRxSlots ≠ d.alloc.supPartial := by
      rw [← hlast]
      exact slot_ne_of_lt (by omega) (by omega)
    rw [Function.update_of_ne hne]
    exact h.bucket i h1 h2 fun _ => by omega

/-- An access of the refill thread keeps the addresses; a new one is in the bucket of its fill. -/
theorem Config.Addressed.allocStep (h : c.Addressed d) (hi : c.Inv d) (hs : c.allocStep d = some d') : c.Addressed d' := by
  have hfill : ∀ i, d.hist.sent.length ≤ i → i < d.hist.armed → d'.fillAt i = d.fillAt i := fun i _ h2 =>
    hi.fillAt_allocStep hs h2
  unfold Config.allocStep at hs
  cases hpc : d.alloc.pc <;> rw [hpc] at hs <;> simp only [Option.some.injEq, reduceCtorEq] at hs
  case clearHdr =>
    subst hs
    refine ⟨h.addrs, fun i h1 h2 h3 => ?_⟩
    dsimp only
    rw [update_dd]
    exact h.bucket i h1 (Nat.lt_of_succ_lt_succ (h3 rfl)) (by rw [hpc]; nofun)
  case setAddr =>
    subst hs
    exact ⟨h.addrs, fun i h1 h2 _ => h.setAddr hi hpc h1 h2⟩
  case readClean =>
    split at hs <;> cases hs <;> exact h.keep rfl rfl rfl rfl (by rw [hpc]; nofun) hfill
  case endRow =>
    subst hs
    refine h.keep ?_ ?_ ?_ ?_ (by rw [hpc]; nofun) hfill <;> unfold Config.endRow <;> split <;> first | rfl | (split <;> rfl)
  all_goals subst hs; exact h.keep rfl rfl rfl rfl (by rw [hpc]; nofun) hfill

/-- An access of the recording thread changes no address. -/
theorem Config.Addressed.procStep (h : c.Addressed d) (hi : c.Inv d) (hs : c.procStep d = some d') : c.Addressed d' := by
  have ho := hi.order
  have hfill : ∀ i, d.hist.sent.length ≤ i → i < d.hist.armed → d'.fillAt i = d.fillAt i := fun i h1 _ =>
    hi.fillAt_procStep hs (by omega)
  unfold Config.procStep at hs
  cases hpc : d.proc.pc <;> rw [hpc] at hs <;> simp only [Option.some.injEq, reduceCtorEq] at hs
  case poll => split at hs <;> cases hs <;> exact h.keep rfl rfl rfl rfl id hfill
  all_goals subst hs; exact h.keep rfl rfl rfl rfl id hfill

/-- A packet takes the address of its descriptor. -/
theorem Config.Addressed.nicStep (h : c.Addressed d) {p : List UInt8} (hs : c.nicStep p d = some d') : c.Addressed d' := by
  unfold Config.nicStep at hs
  split at hs
  · cases hs
  · cases hs
    refine ⟨by simp [h.addrs], fun i h1 h2 h3 => ?_⟩
    dsimp only
    rw [update_dd]
    simp only [List.length_append, List.length_singleton] at h1
    exact h.bucket i (by omega) h2 h3

/-- The adapter writes to the bucket of the packet. -/
theorem Config.Addressed.head (h : c.Addressed d) (hi : c.Inv d) (hne : d.nicHead ≠ d.tail) :
    (d.ring d.nicHead).pktAddr / 2 ^ 30 = c.bucketOf (d.fillAt d.hist.sent.length) := by
  have hlt := hi.sent_lt hne
  have htl := hi.window.tailed_eq
  rw [hi.wrapped.head_eq]
  refine h.bucket _ (Nat.le_refl _) (by omega) fun hpc => ?_
  simp only [AllocThread.pending, hpc] at htl
  omega

/-! ## The ends of the threads -/

/-- How the threads end: the refill thread first, then the recording thread with its two last stores. -/
structure Driver.Closing (d : Driver) : Prop where
  stopped : d.processStop = true → d.alloc.pc = .exited
  final : d.proc.pc = .setCaptured ∨ d.proc.pc = .setLast → d.processStop = true
  unmarked : d.proc.pc ≠ .exited → ∀ b, d.board.last b = 0

/-- No thread has ended at the start. -/
theorem Config.closing_start (c : Config) (lens : Nat → Nat → Nat) (ram : Mem) : (c.startDriver lens ram).Closing :=
  ⟨nofun, (by rintro (h | h) <;> cases h), fun _ _ => rfl⟩

/-- The refill thread ends first, and says so. -/
theorem Driver.Closing.allocStep (h : d.Closing) (hs : c.allocStep d = some d') : d'.Closing := by
  have hproc := (Config.allocStep_frame hs).1
  obtain ⟨hlast, _, _, hstop⟩ := Config.allocStep_rest hs
  -- a refill thread that has ended makes no further access
  have hrun : d.processStop = false := by
    by_contra hp
    rw [Bool.not_eq_false] at hp
    simp [Config.allocStep, h.stopped hp] at hs
  have hproc' : ¬(d.proc.pc = .setCaptured ∨ d.proc.pc = .setLast) := fun hp => by
    rw [h.final hp] at hrun
    cases hrun
  refine ⟨fun hp => ?_, ?_, ?_⟩
  · rcases hstop with he | he
    · rw [he, hrun] at hp
      cases hp
    · exact he.2
  · rw [hproc]
    exact fun hp => absurd hp hproc'
  · rw [hproc, hlast]
    exact h.unmarked

/-- The recording thread ends when it has been told to, and marks a bucket in its last store only. -/
theorem Driver.Closing.procStep (h : d.Closing) (hs : c.procStep d = some d') : d'.Closing := by
  have halloc := (Config.procStep_frame hs).1
  by_cases hpc : d.proc.pc ≠ .store ∧ d.proc.pc ≠ .resetRow ∧ d.proc.pc ≠ .setCaptured ∧ d.proc.pc ≠ .setLast
  · obtain ⟨hb, _, _, _, _, hstop, hlast, hcap, _⟩ := Config.procStep_quiet hs hpc
    refine ⟨by rw [hstop, halloc]; exact h.stopped, ?_, ?_⟩
    · rintro (he | he)
      · rw [hstop]
        exact hcap he
      · exact absurd he hlast
    · intro _
      rw [hb]
      refine h.unmarked fun he => ?_
      simp [Config.procStep, he] at hs
  · have hq : d.proc.pc = .store ∨ d.proc.pc = .resetRow ∨ d.proc.pc = .setCaptured ∨ d.proc.pc = .setLast := by tauto
    rcases hq with hq | hq | hq | hq <;> simp only [Config.procStep, hq, Option.some.injEq] at hs <;> subst hs
    · refine ⟨h.stopped, ?_, fun _ => h.unmarked (by rw [hq]; decide)⟩
      dsimp only
      split <;> rintro (he | he) <;> cases he
    · exact ⟨h.stopped, (by rintro (he | he) <;> cases he), fun _ => h.unmarked (by rw [hq]; decide)⟩
    · exact ⟨h.stopped, fun _ => h.final (Or.inl hq), fun _ => h.unmarked (by rw [hq]; decide)⟩
    · exact ⟨h.stopped, (by rintro (he | he) <;> cases he), fun he => absurd rfl he⟩

/-- A packet is about none of it. -/
theorem Driver.Closing.nicStep (h : d.Closing) {p : List UInt8} (hs : c.nicStep p d = some d') : d'.Closing := by
  unfold Config.nicStep at hs
  split at hs
  · cases hs
  · cases hs
    exact ⟨h.stopped, h.final, h.unmarked⟩

end NicRecorder
