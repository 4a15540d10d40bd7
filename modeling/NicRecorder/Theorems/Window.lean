import NicRecorder.Theorems.Boundaries

/-!
# The window of the ring

The positions of the parties on the ring, counted from the start of the capture: the descriptors re-armed, those shown to the
adapter, the packets written back, those accepted, and the position published to the refill thread. The threads keep them in three
encodings, modulo the ring, cut to 16 bits, and counted anew in every bucket. In every capture in which the recording thread
accepts only what the adapter wrote back in the current lap, the positions stay in their order and within one lap, and what the
refill thread works out from the encodings is what the positions say.
-/

namespace NicRecorder

open ByteMem Runs

variable {c : Config}

/-- The window, in one state.

* The positions in their order; what is armed never comes round to what has not been published as recorded.
* The count of line 93 is the room left in the window.
* A descriptor that is re-armed is new, or its packet of the last lap has been recorded.
* The length that line 102 adds is the one that the recording thread stored, for the packet one row before in the same slot and
  bucket, and the one with which the adapter wrote that packet back. -/
structure Config.RingWindow (c : Config) (d : Driver) : Prop where
  order : d.hist.cleaned ≤ d.hist.accepted ∧ d.hist.accepted ≤ d.taken ∧ d.taken ≤ d.hist.sent.length ∧
    d.hist.sent.length ≤ d.hist.tailed ∧ d.hist.tailed ≤ d.hist.armed ∧ d.hist.armed ≤ d.hist.cleaned + c.numRxSlots - 1
  count : d.alloc.pc = .readClean →
    c.mask (c.numRxSlots + d.nextToClean - d.alloc.supPartial - 1) = d.hist.cleaned + c.numRxSlots - 1 - d.hist.armed
  rearm : d.alloc.pc = .clearHdr → d.alloc.supPartial = d.hist.armed % c.numRxSlots ∧
    (d.hist.armed < c.numRxSlots ∧ d.hist.slot d.alloc.supPartial = .fresh ∨
      c.numRxSlots ≤ d.hist.armed ∧ d.hist.armed - c.numRxSlots < d.hist.accepted ∧
        d.hist.slot d.alloc.supPartial = .accepted)
  length : d.alloc.pc = .accumulate →
    let prev := d.hist.armed - c.numRxSlots
    let len := d.board.lens d.alloc.cur ((d.alloc.supRow - 1) * c.numRxSlots + d.alloc.supPartial)
    c.numRxSlots ≤ d.hist.armed ∧ d.hist.procLog[prev]? = some ⟨d.alloc.cur, d.alloc.supRow - 1, d.alloc.supPartial⟩ ∧
      d.hist.recorded[prev]? = some len ∧ (d.hist.sent[prev]?).map List.length = some len

/-- A descriptor that is re-armed is new, or its packet of the last lap has been recorded. -/
theorem Config.Inv.rearm_recorded {d : Driver} (h : c.Inv d) (hpc : d.alloc.pc = .clearHdr) :
    d.alloc.supPartial = d.hist.armed % c.numRxSlots ∧
      (d.hist.armed < c.numRxSlots ∧ d.hist.slot d.alloc.supPartial = .fresh ∨
        c.numRxSlots ≤ d.hist.armed ∧ d.hist.armed - c.numRxSlots < d.hist.accepted ∧
          d.hist.slot d.alloc.supPartial = .accepted) := by
  have ho := h.order
  have hb := h.window.batch (by rw [hpc]; rfl)
  have hmod := h.supPartial_mod (by rw [hpc]; decide) (by omega)
  refine ⟨hmod, ?_⟩
  rcases Nat.lt_or_ge d.hist.armed c.numRxSlots with hlt | hge
  · left
    rw [hmod, Nat.mod_eq_of_lt hlt]
    exact ⟨hlt, (h.ringed.fresh _ (Nat.le_refl _) hlt).1⟩
  · right
    have hslot := (h.ringed.accepted (d.hist.armed - c.numRxSlots) (by omega) (by omega)).1
    rw [← Nat.mod_eq_sub_mod hge, ← hmod] at hslot
    exact ⟨hge, by omega, hslot⟩

/-- The length that is added was stored for the packet one row before, and written back for it. -/
theorem Config.Inv.length_stored {d : Driver} (h : c.Inv d) (hpc : d.alloc.pc = .accumulate) :
    let prev := d.hist.armed - c.numRxSlots
    let len := d.board.lens d.alloc.cur ((d.alloc.supRow - 1) * c.numRxSlots + d.alloc.supPartial)
    c.numRxSlots ≤ d.hist.armed ∧ d.hist.procLog[prev]? = some ⟨d.alloc.cur, d.alloc.supRow - 1, d.alloc.supPartial⟩ ∧
      d.hist.recorded[prev]? = some len ∧ (d.hist.sent[prev]?).map List.length = some len := by
  intro prev len
  have ho := h.order
  have hb := h.window.batch (by rw [hpc]; rfl)
  obtain ⟨hprev, hread⟩ := h.length_read hpc
  have hp : prev = d.base + ((d.alloc.supRow - 1) * c.numRxSlots + d.alloc.supPartial) := by
    simp only [prev]
    omega
  have hacc : prev < d.hist.accepted := by omega
  have hlen : len = lengthOf d.hist.sent prev := by rw [hp, ← hread]
  have hsent : (d.hist.sent[prev]?).map List.length = some len := by
    rw [hlen, lengthOf_eq _ _ (show prev < d.hist.sent.length by omega), List.getElem?_eq_getElem, Option.map_some]
  refine ⟨by omega, ?_, ?_, hsent⟩
  · -- the place that the refill thread gave to the packet
    have hplace := h.agreed.places d.hist.allocFill h.procFill_le (Nat.le_refl _) prev
      (show d.base ≤ prev by omega) (by omega) (fun hlt => absurd hlt (Nat.lt_irrefl _))
    have hoff : prev - d.hist.allocStart d.hist.allocFill = (d.alloc.supRow - 1) * c.numRxSlots + d.alloc.supPartial := by
      have : d.hist.allocStart d.hist.allocFill = d.base := rfl
      omega
    obtain ⟨hdiv, hmod⟩ := c.div_mod_cell (d.alloc.supRow - 1) (show d.alloc.supPartial < c.numRxSlots by omega)
    rw [h.agreed.procLog, List.getElem?_take_of_lt hacc, hplace, hoff, Config.placeIn, hdiv, hmod, h.wrapped.alloc_cur]
  · rw [h.recorded.recorded, List.getElem?_take_of_lt hacc, List.getElem?_map, hsent]

/-- The window follows from the invariant. -/
theorem Config.Inv.ringWindow {d : Driver} (h : c.Inv d) : c.RingWindow d where
  order := by
    obtain ⟨h1, h2, h3, h4, h5, h6⟩ := h.order
    exact ⟨h1, h2, h3, h4, h5, Nat.le_sub_one_of_lt h6⟩
  count := fun hpc => h.refill_room (by rw [hpc]; rfl)
  rearm := h.rearm_recorded
  length := h.length_stored

/-- In every capture in which the recording thread accepts only descriptors that the adapter wrote back in the current lap, and in
every state of it, the positions on the ring keep to their window. -/
theorem ring_window (c : Config) (writers : Nat) {t : Capture} (h : Reached (c.capture writers) AcceptsWritten t) :
    c.RingWindow t.drv := by
  obtain ⟨s, tr, hi, hr, hm⟩ := h
  exact (Config.inv_of_run hi hr hm).ringWindow

/-- A capture of the shipped configuration that has gone on to a second bucket. -/
theorem ring_window_closed :
    ∃ t, Reached (Config.shipped.capture 1) AcceptsWritten t ∧ 1 ≤ t.drv.hist.procFill ∧ Config.shipped.RingWindow t.drv := by
  obtain ⟨d, hgo, -, hfill⟩ := Config.shipped.exists_closed 1 shortPacket_deliverable (fun _ _ => 0) fun _ => 0
  have hr := Config.reached_acceptsWritten (hgo.reached (Config.shipped.reached_started 1 _ _))
  exact ⟨_, hr, hfill, ring_window Config.shipped 1 hr⟩

end NicRecorder
