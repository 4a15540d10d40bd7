import Mathlib.Data.List.Infix
import NicRecorder.Lemmas.Contents

/-!
# The buckets hold the packets

The two threads, the adapter and any number of programs work on the buckets at once. What they leave is what a driver would leave that
received the packets of a fill one after the other (`Config.driverImage`): in every run in which the recording thread accepts only what
was written back, and as long as the driver has not come round to the bucket again, every packet lies at its place and every recorded
length in its cell. The fills are consecutive parts of what the adapter has delivered.
-/

namespace NicRecorder

open ByteMem Runs

/-- Both threads are done with a fill: the recording thread has gone on to the next one, or it has ended in it. -/
def Driver.Left (d : Driver) (f : Nat) : Prop := f < d.hist.procFill ∨ f = d.hist.procFill ∧ d.proc.pc = .exited

section Saved

variable {c : Config} {d : Driver} {f : Nat}

/-- A fill that the recording thread has left ends where the next one begins. -/
theorem Driver.savedEnd_of_lt (h : f < d.hist.procFill) : d.savedEnd f = d.hist.allocStart (f + 1) := if_pos h

/-- Its current fill ends with what it has recorded. -/
theorem Driver.savedEnd_last (d : Driver) : d.savedEnd d.hist.procFill = d.hist.accepted := if_neg (Nat.lt_irrefl _)

/-- A fill that has been left is not ahead of the recording thread. -/
theorem Driver.Left.le (h : d.Left f) : f ≤ d.hist.procFill := by
  rcases h with h | h <;> omega

/-- Both threads agree where the fill of the recording thread begins. -/
theorem Config.Inv.start_procFill (hi : c.Inv d) : d.hist.allocStart d.hist.procFill = d.procBase :=
  (hi.agreed.starts _ (Nat.le_refl _)).symm

/-- What has been recorded has been delivered, and armed for the same fill. -/
theorem Config.Divided.savedEnd_le (h : c.Divided d) (hf : f ≤ d.hist.procFill) :
    d.savedEnd f ≤ d.hist.accepted ∧ d.savedEnd f ≤ d.fillEnd f := by
  have ho := h.inv.order
  have hle := h.inv.procFill_le
  rcases Nat.lt_or_eq_of_le hf with hlt | rfl
  · have hmono := h.parted.mono (show f + 1 ≤ d.hist.procFill from hlt) hle
    have hacc := h.inv.window.accepted_eq
    rw [h.inv.start_procFill] at hmono
    rw [Driver.savedEnd_of_lt hlt, Driver.fillEnd_of_lt (by omega)]
    omega
  · rw [Driver.savedEnd_last]
    refine ⟨Nat.le_refl _, ?_⟩
    rcases h.inv.agreed.fills with hs | hn
    · rw [← hs.1, Driver.fillEnd_last]
      omega
    · have hbehind := hn.behind
      rw [Driver.fillEnd_of_lt (by have := hn.next; omega), ← hn.next]
      exact hbehind

/-- What is recorded of a fill is the first part of what has arrived in it. -/
theorem Config.Divided.saved_initial (h : c.Divided d) (hf : f ≤ d.hist.procFill) : d.saved f <+: d.arrived f :=
  List.IsPrefix.drop (List.take_prefix_take_left (h.savedEnd_le hf).2) _

/-- The number of packets that are recorded of a fill. -/
theorem Config.Divided.saved_length (h : c.Divided d) (hf : f ≤ d.hist.procFill) :
    (d.saved f).length = d.savedEnd f - d.hist.allocStart f := by
  have hle := (h.savedEnd_le hf).1
  have ho := h.inv.order
  rw [Driver.saved, length_take_drop]
  omega

/-- What is recorded of a fill is in the format of a bucket. -/
theorem Config.Divided.wellLaid_saved (h : c.Divided d) (hf : f ≤ d.hist.procFill) : c.WellLaid (d.saved f) := by
  have hle := h.inv.procFill_le
  exact (h.parted.receivable h.inv (by omega)).wellLaid.of_initial (h.saved_initial hf)

/-- The packets recorded of a fill are those delivered from its start on. -/
theorem Config.Fills.lengthOf_saved (h : c.Fills d) (hf : f ≤ d.hist.procFill) {j : Nat} (hj : j < (d.saved f).length) :
    lengthOf (d.saved f) j = lengthOf d.hist.sent (d.hist.allocStart f + j) := by
  have hle := (h.divided.savedEnd_le hf).1
  have ho := h.inv.order
  rw [h.divided.saved_length hf] at hj
  exact lengthOf_take_drop (by omega)

/-- The lengths that the recording thread has stored for a fill are on the board. -/
theorem Config.Fills.lens_saved (h : c.Fills d) (hf : f ≤ d.hist.procFill) (hr : d.hist.allocFill < f + c.numBuckets) {j : Nat}
    (hj : j < (d.saved f).length) : d.board.lens (c.bucketOf f) j = lengthOf (d.saved f) j := by
  have hle := h.inv.procFill_le
  rw [h.lengthOf_saved hf hj]
  rw [h.divided.saved_length hf] at hj
  rcases Nat.lt_or_eq_of_le hf with hlt | rfl
  · rw [Driver.savedEnd_of_lt hlt] at hj
    exact h.parted.lens f hlt (by omega) j (by omega)
  · have hacc := h.inv.window.accepted_eq
    rw [Driver.savedEnd_last, h.inv.start_procFill] at hj
    rw [← h.inv.wrapped.proc_cur, h.inv.start_procFill]
    exact h.inv.recorded.cells j (by omega)

/-- The flag of a fill that the threads have left is its size. -/
theorem Config.Fills.captured_left (h : c.Fills d) (hl : d.Left f) (hr : d.hist.allocFill < f + c.numBuckets) :
    d.board.captured (c.bucketOf f) = (d.saved f).length := by
  rw [h.divided.saved_length hl.le]
  rcases hl with hlt | ⟨rfl, hpc⟩
  · rw [Driver.savedEnd_of_lt hlt]
    exact h.posted.left f hlt hr
  · have hacc := h.inv.window.accepted_eq
    rw [Driver.savedEnd_last, h.inv.start_procFill, ← h.inv.wrapped.proc_cur, (h.posted.ended (Or.inr hpc)).2]
    omega

/-- The fills, up to the last one that has been begun, are what the adapter has delivered up to there. -/
theorem Config.Parted.flatMap_arrived (h : c.Parted d) (h0 : d.hist.allocStart 0 = 0) (n : Nat) (hn : n ≤ d.hist.allocFill) :
    (List.range n).flatMap d.arrived = d.hist.sent.take (d.hist.allocStart n) := by
  induction n with
  | zero => rw [h0]; rfl
  | succ n ih =>
    have hle := Nat.le_of_lt (h.starts n hn)
    rw [List.range_succ, List.flatMap_append, ih (by omega), List.flatMap_cons, List.flatMap_nil, List.append_nil,
      Driver.arrived, Driver.fillEnd_of_lt hn]
    have hsplit := List.take_append_drop (d.hist.allocStart n) (d.hist.sent.take (d.hist.allocStart (n + 1)))
    rwa [List.take_take, Nat.min_eq_left hle] at hsplit

/-- All fills together are what the adapter has delivered. -/
theorem Config.Fills.flatMap_arrived (h : c.Fills d) :
    (List.range (d.hist.allocFill + 1)).flatMap d.arrived = d.hist.sent := by
  have ho := h.inv.order
  rw [List.range_succ, List.flatMap_append, h.parted.flatMap_arrived h.inv.agreed.first _ (Nat.le_refl _), List.flatMap_cons,
    List.flatMap_nil, List.append_nil, Driver.arrived, Driver.fillEnd_last, List.take_of_length_le (i := d.hist.armed) (by omega),
    List.take_append_drop]

end Saved

/-! ## The theorem -/

/-- The bucket of a fill holds the packets that have been delivered in it, and the lengths that have been recorded; when the threads
have left the fill and its flag has not been reset, the bucket is complete. -/
structure Host.BucketHolds (H : Host) (m : Machine) (f : Nat) : Prop where
  data : ∀ j < (m.cap.drv.arrived f).length,
    (bucketMem m.mem (H.config.bucketOf f)).load (H.config.placeOf (m.cap.drv.arrived f) j)
      (lengthOf (m.cap.drv.arrived f) j) = (m.cap.drv.arrived f).getD j []
  lens : f ≤ m.cap.drv.hist.procFill → ∀ j < (m.cap.drv.saved f).length,
    (bucketMem m.mem (H.config.bucketOf f)).load16 (lenBlockOff + lenOff + 2 * j) = lengthOf (m.cap.drv.saved f) j
  complete : m.cap.drv.Left f → numCaptured (bucketMem m.mem (H.config.bucketOf f)) ≠ 0 →
    H.config.Holds (bucketMem m.mem (H.config.bucketOf f)) (m.cap.drv.saved f)

section Machine

variable {H : Host} {m : Machine}

/-- The bucket of a fill that the driver has not entered again holds the fill. -/
theorem Host.Stored.bucketHolds (h : H.Stored m) {f : Nat} (hf : f ≤ m.cap.drv.hist.allocFill)
    (hr : m.cap.drv.hist.allocFill < f + H.config.numBuckets) : H.BucketHolds m f := by
  have hb := H.config.isBucket_bucketOf f
  have hdata : ∀ j < (m.cap.drv.arrived f).length,
      (bucketMem m.mem (H.config.bucketOf f)).load (H.config.placeOf (m.cap.drv.arrived f) j)
        (lengthOf (m.cap.drv.arrived f) j) = (m.cap.drv.arrived f).getD j [] := by
    intro j hj
    rw [bucketMem_load]
    exact h.data f hf hr j hj
  have hlens : f ≤ m.cap.drv.hist.procFill → ∀ j < (m.cap.drv.saved f).length,
      (bucketMem m.mem (H.config.bucketOf f)).load16 (lenBlockOff + lenOff + 2 * j) = lengthOf (m.cap.drv.saved f) j := by
    intro hp j hj
    have hend := (h.fills.divided.wellLaid_saved hp).len_end j hj
    rw [← h.fills.lens_saved hp hr hj, ← h.shown _ hb j (by omega), lensOf, hdrAt, ← Nat.add_assoc lenBlockOff]
    exact congrArg leNat (bucketMem_load m.mem _ _ 2)
  refine ⟨hdata, hlens, fun hl hflag => ⟨fun j hj => ?_, hlens hl.le, ?_⟩⟩
  · have hpre := h.fills.divided.saved_initial hl.le
    have hle := hpre.length_le
    rw [Config.placeOf_initial hpre (Nat.le_of_lt hj), lengthOf_initial hpre hj, getD_initial hpre hj]
    exact hdata j (by omega)
  · rw [numCaptured_bucketMem] at hflag ⊢
    rw [(h.flag _ hb).resolve_left hflag, h.fills.captured_left hl hr]

/-- The invariant holds in every state that is reached. -/
theorem Host.stored_of_reached {t : Machine} (h : Reached H.machine Machine.AcceptsWritten t) : H.Stored t :=
  h.invariant (fun _ hi => H.stored_init hi) fun _ _ _ hs hw hst => hs.step hw hst

end Machine

/-- In every state of every run in which the recording thread accepts only what was written back, whatever the programs do: the fills
are consecutive parts of what the adapter has delivered, and the bucket of every fill that the driver has not entered again holds the
packets of the fill and, as far as they are recorded, their lengths. -/
theorem buckets_hold_packets (H : Host) {t : Machine} (h : Reached H.machine Machine.AcceptsWritten t) :
    (List.range (t.cap.drv.hist.allocFill + 1)).flatMap t.cap.drv.arrived = t.cap.drv.hist.sent ∧
      ∀ f ≤ t.cap.drv.hist.allocFill, t.cap.drv.hist.allocFill < f + H.config.numBuckets →
        H.config.Receivable (t.cap.drv.arrived f) ∧ H.BucketHolds t f := by
  have hs := H.stored_of_reached h
  exact ⟨hs.fills.flatMap_arrived, fun f hf hr => ⟨hs.fills.parted.receivable hs.fills.inv hf, hs.bucketHolds hf hr⟩⟩

/-- A capture of three packets: the bucket of their fill is flagged, and holds them. -/
theorem buckets_hold_packets_three :
    ∃ t, Reached Host.shipped.machine Machine.AcceptsWritten t ∧ t.cap.drv.hist.sent = threePackets ∧
      t.cap.drv.hist.procFill = 0 ∧ numCaptured (bucketMem t.mem Host.shipped.config.start1G) = 3 ∧ Host.shipped.BucketHolds t 0 := by
  obtain ⟨d, mem, hl, hd, hsent, hfill, hcount⟩ :=
    Host.shipped.exists_recorded (fun _ => 0) (fun _ => none) threePackets_deliverable (by decide)
  have hreach : Reached Host.shipped.machine Machine.AcceptsWritten
      ⟨⟨d.finished, Host.shipped.config.startVisitor 0, []⟩, mem, fun _ => none, fun _ => none, []⟩ :=
    (hl.mono fun _ _ h => h.calm.1).reached ⟨_, _, rfl⟩
  have hlag := hd.inv.allocFill_le
  have hB : 2 ≤ Host.shipped.config.numBuckets := by decide
  refine ⟨_, hreach, hsent, hfill, hcount, ((buckets_hold_packets Host.shipped hreach).2 0 (Nat.zero_le _) ?_).2⟩
  show d.hist.allocFill < 0 + Host.shipped.config.numBuckets
  omega

end NicRecorder
