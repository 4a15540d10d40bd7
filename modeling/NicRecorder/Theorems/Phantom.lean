import NicRecorder.Theorems.Boundaries

/-!
# Phantom packets

The done bit of a descriptor is cleared only when the refill thread re-arms it, and the recording thread does not look at the
position of the refill thread. When the adapter has used every armed descriptor and the last batch of the refill thread was cut
at the end of the row, the descriptor at which the recording thread waits still shows the done bit of the lap before. The thread
then records a packet that never arrived. This happens in a capture as soon as it polls such a dry ring, and in no other.
-/

namespace NicRecorder

open ByteMem Runs

variable {c : Config}

/-- The recording thread has stored the lengths of the packets that the adapter wrote back, each once and in order. -/
def RecordedAsSent (d : Driver) : Prop := d.hist.recorded = (d.hist.sent.map List.length).take d.hist.accepted

/-- A capture is free of phantom packets, in the descriptors it accepts and in the lengths it stores, if and only if the
recording thread never polls the ring when it has caught up with the refill thread beyond the first lap. -/
theorem no_phantom_iff (c : Config) (writers : Nat) {s t : Capture} {tr : List (Capture × Act)}
    (hi : (c.capture writers).init s) (hr : Run (c.capture writers) s tr t) :
    (Meets AcceptsWritten tr ∧ ∀ u ∈ visited tr t, RecordedAsSent u.drv) ↔ Meets c.NotDry tr := by
  rw [← Config.meets_acceptsWritten_iff hi hr]
  refine ⟨fun h => h.1, fun hm => ⟨hm, fun u hu => ?_⟩⟩
  have hinv := hr.visited_invariant (I := fun u => c.Inv u.drv) (fun _ _ _ h hw hst => h.step hw hst) (Config.inv_init hi) hm u hu
  exact hinv.recorded.recorded

/-! ## A dry ring -/

/-- The slowest schedule comes to a dry ring, with the refill thread at the head of its loop. -/
theorem Config.exists_dry (c : Config) (writers : Nat) {p : List UInt8} (hp : Deliverable p) :
    ∃ t, Reached (c.capture writers) c.NotDry t ∧ c.Lazy t.drv ∧ t.drv.hist.accepted = t.drv.hist.armed ∧
      c.numRxSlots ≤ t.drv.hist.armed ∧ t.drv.alloc.pc = .checkStop := by
  obtain ⟨d, hgo, h, hpc, hsent⟩ := c.exists_resting writers hp (fun _ _ => 0) (fun _ => 0) c.numRxSlots
  have hleft : d.alloc.left = 0 := by
    unfold AllocThread.left
    rw [hpc]
  obtain ⟨d', hgo', h', hdry, harm, halloc⟩ :=
    Config.Lazy.drain writers hp _ ⟨d, c.startVisitor writers, []⟩ h hleft (Nat.le_refl _)
  have hN : c.numRxSlots ≤ d.hist.armed := by
    have ho := h.inv.order
    have hlen : d.hist.sent.length = c.numRxSlots := by
      rw [hsent, List.length_replicate]
    omega
  refine ⟨_, (hgo.trans hgo').reached (c.reached_started writers _ _), h', hdry, ?_, ?_⟩
  · rw [harm]
    exact hN
  · rw [halloc]
    exact hpc

/-- On a dry ring the recording thread stores a length for which there was no packet. -/
theorem Config.Lazy.phantom (writers : Nat) {t : Capture} (h : c.Lazy t.drv) (hdry : t.drv.hist.accepted = t.drv.hist.armed)
    (hN : c.numRxSlots ≤ t.drv.hist.armed) :
    ¬AcceptsWritten t .proc ∧ ∃ tr u, Run (c.capture writers) t ((t, .proc) :: tr) u ∧ ¬RecordedAsSent u.drv := by
  obtain ⟨hdd, hslot⟩ := h.inv.stale h.polls hdry hN
  refine ⟨fun hw => ?_, ?_⟩
  · have := hw rfl h.polls hdd
    rw [hslot] at this
    cases this
  obtain ⟨d1, hs1, hpc1, hrec1, hsent1⟩ : ∃ d1, c.procStep t.drv = some d1 ∧ d1.proc.pc = .load ∧
      d1.hist.recorded = t.drv.hist.recorded ∧ d1.hist.sent = t.drv.hist.sent := by
    simp [Config.procStep, h.polls, hdd]
  obtain ⟨d2, hs2, hpc2, hrec2, hsent2⟩ : ∃ d2, c.procStep d1 = some d2 ∧ d2.proc.pc = .store ∧
      d2.hist.recorded = d1.hist.recorded ∧ d2.hist.sent = d1.hist.sent := by
    simp [Config.procStep, hpc1]
  obtain ⟨d3, hs3, hrec3, hsent3⟩ : ∃ d3, c.procStep d2 = some d3 ∧ d3.hist.recorded = d2.hist.recorded ++ [d2.proc.len] ∧
      d3.hist.sent = d2.hist.sent := by
    simp [Config.procStep, hpc2]
  have r1 : Run (c.capture writers) t [(t, .proc)] { t with drv := d1 } := Run.single (Config.Step.proc hs1)
  have r2 : Run (c.capture writers) { t with drv := d1 } [({ t with drv := d1 }, .proc)] { t with drv := d2 } :=
    Run.single (Config.Step.proc (s := { t with drv := d1 }) hs2)
  have r3 : Run (c.capture writers) { t with drv := d2 } [({ t with drv := d2 }, .proc)] { t with drv := d3 } :=
    Run.single (Config.Step.proc (s := { t with drv := d2 }) hs3)
  refine ⟨_, _, (r1.append (r2.append r3)), fun hrec => ?_⟩
  -- one more length is recorded than packets were sent
  have hlen := congrArg List.length hrec
  have hold := congrArg List.length h.inv.recorded.recorded
  have hc := h.caught
  simp only [hrec3, hrec2, hrec1, hsent3, hsent2, hsent1, List.length_append, List.length_take, List.length_map,
    List.length_singleton] at hlen hold
  omega

/-- A capture of the shipped configuration, with frames of 60 bytes: the recording thread accepts a descriptor a second time and
records a packet more than the adapter has sent. -/
theorem no_phantom_false :
    ∃ s tr t, (Config.shipped.capture 1).init s ∧ Run (Config.shipped.capture 1) s tr t ∧ ¬Meets AcceptsWritten tr ∧
      ¬RecordedAsSent t.drv := by
  obtain ⟨t, ⟨s, tr, hi, hr, -⟩, h, hdry, hN, -⟩ := Config.shipped.exists_dry 1 shortPacket_deliverable
  obtain ⟨hw, tr', u, hr', hrec⟩ := h.phantom 1 hdry hN
  refine ⟨s, _, u, hi, hr.append hr', fun hm => hw ?_, hrec⟩
  exact hm (t, .proc) (by simp)

/-- The capture of a whole bucket that polls no dry ring. -/
theorem no_phantom_iff_closed :
    ∃ s tr t, (Config.shipped.capture 1).init s ∧ Run (Config.shipped.capture 1) s tr t ∧ 1 ≤ t.drv.hist.procFill ∧
      Meets AcceptsWritten tr ∧ RecordedAsSent t.drv := by
  obtain ⟨d, hgo, -, hfill⟩ := Config.shipped.exists_closed 1 shortPacket_deliverable (fun _ _ => 0) fun _ => 0
  obtain ⟨s, tr, hi, hr, hm⟩ := hgo.reached (Config.shipped.reached_started 1 _ _)
  obtain ⟨h1, h2⟩ := (no_phantom_iff Config.shipped 1 hi hr).mpr hm
  exact ⟨s, tr, _, hi, hr, hfill, h1, h2 _ (by simp [visited])⟩

end NicRecorder
