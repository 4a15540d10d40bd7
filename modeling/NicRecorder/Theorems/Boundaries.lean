import NicRecorder.Lemmas.Progress

/-!
# The two threads agree on the bucket boundaries

The refill thread decides where a bucket ends when it re-arms the last row; the recording thread finds out through the one shared
word `max_row`, without a lock. In every capture in which the recording thread accepts only what the adapter wrote back in the
current lap, both give every packet the same place and switch buckets at the same packets.
-/

namespace NicRecorder

open ByteMem Runs

variable {c : Config}

/-- The agreement of the two threads, in one state.

* Every packet that has been recorded got the same bucket, row and slot from both threads, and the descriptor that the recording
  thread works on is the one of that slot.
* The switches to the next bucket are at the same packets.
* At the end of a row, and when the refill thread sets `max_row`, a `max_row` that is set was set in the current fill.
* The recording thread resets `max_row` only when the refill thread has tested it and has gone to the next bucket. -/
structure Config.BoundariesAgree (c : Config) (d : Driver) : Prop where
  counts : d.hist.procLog.length = d.hist.accepted ∧ d.hist.allocLog.length = d.hist.armed ∧ d.hist.accepted ≤ d.hist.armed
  places : ∀ i < d.hist.accepted, d.hist.procLog[i]? = d.hist.allocLog[i]?
  descriptor : d.proc.pc = .poll ∨ d.proc.pc = .load ∨ d.proc.pc = .store →
    d.proc.rxDesc = d.proc.curPartial % c.numRxSlots
  switches : d.hist.procFill ≤ d.hist.allocFill ∧ ∀ f ≤ d.hist.procFill, d.hist.procStart f = d.hist.allocStart f
  noLeftover : d.alloc.pc = .endRow → d.alloc.supPartial = c.numRxSlots → d.maxRow ≠ 0 →
    d.hist.maxRowFill = d.hist.allocFill
  noOverwrite : d.alloc.pc = .setMaxRow → d.maxRow ≠ 0 → d.hist.maxRowFill = d.hist.allocFill
  tested : d.proc.pc = .resetRow → d.hist.allocFill = d.hist.procFill + 1

theorem Config.SameFill.maxRowFill {d : Driver} (h : c.SameFill d) (hm : d.maxRow ≠ 0) :
    d.hist.maxRowFill = d.hist.allocFill := by
  obtain ⟨-, h0 | ⟨-, h1, -⟩⟩ := h
  · exact absurd h0 hm
  · exact h1

/-- The agreement follows from the invariant. -/
theorem Config.Inv.boundariesAgree {d : Driver} (h : c.Inv d) : c.BoundariesAgree d := by
  have ho := h.order
  have hlen := h.agreed.allocLog
  have hlog := h.agreed.procLog
  refine ⟨⟨?_, hlen, by omega⟩, ?_, ?_, ⟨h.procFill_le, h.agreed.starts⟩, ?_, ?_, ?_⟩
  · rw [hlog, List.length_take, hlen]
    omega
  · intro i hi
    rw [hlog, List.getElem?_take_of_lt hi]
  · intro hpc
    have hpub := (h.wrapped.published (by rcases hpc with hpc | hpc | hpc <;> rw [hpc] <;> decide)).2
    rw [hpub, h.curPartial_mod]
  · intro hpc hsp hm
    exact (h.sameFill_endRow hpc hsp).maxRowFill hm
  · intro hpc hm
    exact (h.sameFill (h.agreed.rowPc (Or.inr (Or.inr hpc)))).maxRowFill hm
  · intro hpc
    exact (h.agreed.resetting hpc).1.next

/-- In every capture in which the recording thread accepts only descriptors that the adapter wrote back in the current lap, and
in every state of it, the two threads agree on the bucket boundaries. -/
theorem bucket_boundaries_agree (c : Config) (writers : Nat) {t : Capture}
    (h : Reached (c.capture writers) AcceptsWritten t) : c.BoundariesAgree t.drv := by
  obtain ⟨s, tr, hi, hr, hm⟩ := h
  exact (Config.inv_of_run hi hr hm).boundariesAgree

/-! ## Captures with closed buckets -/

/-- A frame of the shortest length. -/
def shortPacket : List UInt8 := List.replicate 60 0

theorem shortPacket_deliverable : Deliverable shortPacket := by
  unfold Deliverable shortPacket
  rw [List.length_replicate]
  decide

/-- Three frames of different lengths. -/
def threePackets : List (List UInt8) := [List.replicate 60 1, List.replicate 64 2, List.replicate 1514 3]

theorem threePackets_deliverable : ∀ p ∈ threePackets, Deliverable p := by
  simp only [threePackets, List.forall_mem_cons, Deliverable, List.length_replicate]
  exact ⟨by decide, by decide, by decide, List.forall_mem_nil _⟩

/-- The slowest schedule closes a bucket. -/
theorem Config.Lazy.close (writers : Nat) {p : List UInt8} (hp : Deliverable p) {s : Capture} (h : c.Lazy s.drv) :
    ∃ d, c.Goes writers p s { s with drv := d } ∧ c.Lazy d ∧ 1 ≤ d.hist.procFill := by
  obtain ⟨d, hgo, hd, hfill, -⟩ := h.toFill writers hp 0
  exact ⟨d, hgo, hd, by omega⟩

theorem Config.exists_closed (c : Config) (writers : Nat) {p : List UInt8} (hp : Deliverable p) (lens : Nat → Nat → Nat) (ram : Mem) :
    ∃ d, c.Goes writers p ⟨c.startedDriver lens ram, c.startVisitor writers, []⟩ ⟨d, c.startVisitor writers, []⟩ ∧ c.Lazy d ∧
      1 ≤ d.hist.procFill :=
  (c.lazy_started writers lens ram).close writers hp (s := ⟨_, c.startVisitor writers, []⟩)

/-- The started capture is reached without a poll of a dry ring. -/
theorem Config.reached_started (c : Config) (writers : Nat) (lens : Nat → Nat → Nat) (ram : Mem) :
    Reached (c.capture writers) c.NotDry ⟨c.startedDriver lens ram, c.startVisitor writers, []⟩ := by
  obtain ⟨tr, hr, hm⟩ := c.exists_started writers lens ram
  exact ⟨_, tr, ⟨lens, ram, rfl⟩, hr, hm.mono fun _ _ h => h.1⟩

theorem Config.reached_acceptsWritten {writers : Nat} {t : Capture} (h : Reached (c.capture writers) c.NotDry t) :
    Reached (c.capture writers) AcceptsWritten t := by
  obtain ⟨s, tr, hi, hr, hm⟩ := h
  exact ⟨s, tr, hi, hr, (Config.meets_acceptsWritten_iff hi hr).mpr hm⟩

/-- A capture of the shipped configuration in which both threads have gone on to a second bucket. -/
theorem bucket_boundaries_agree_closed :
    ∃ t, Reached (Config.shipped.capture 1) AcceptsWritten t ∧ 1 ≤ t.drv.hist.procFill ∧
      Config.shipped.BoundariesAgree t.drv := by
  obtain ⟨d, hgo, -, hfill⟩ := Config.shipped.exists_closed 1 shortPacket_deliverable (fun _ _ => 0) fun _ => 0
  have hr := Config.reached_acceptsWritten (hgo.reached (Config.shipped.reached_started 1 _ _))
  exact ⟨_, hr, hfill, bucket_boundaries_agree Config.shipped 1 hr⟩

end NicRecorder
