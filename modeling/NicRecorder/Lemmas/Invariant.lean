import NicRecorder.Capture
import NicRecorder.Lemmas.Layout

/-!
# The invariant of the capture threads

What holds between the two threads, the adapter and the ring in every state of a capture in which the recording thread has only
accepted descriptors that the adapter wrote back in the current lap. It comes in six parts.

* `Window`: the counts of the parties in their order, `cleaned ≤ accepted ≤ sent ≤ tailed ≤ armed < cleaned + N`.
* `Wrapped`: the encodings of those counts, modulo the ring, modulo `2 ^ 16`, and counted anew in every bucket.
* `Agreed`: the two threads close the same buckets at the same packets, and what `max_row` means at every moment. This is where
  the window matters: the refill thread cannot finish a row of the next bucket before the other thread has closed the last one.
* `Ringed`: what every descriptor holds.
* `Recorded`: the lengths recorded so far are those of the packets delivered.
* `Grown`: the lengths of the slots are the bytes in them, and no row but the last has a slot beyond the limit.
-/

namespace NicRecorder

open ByteMem

/-! ## Derived quantities -/

/-- The first packet of the fill that the refill thread is in. -/
def Driver.base (d : Driver) : Nat := d.hist.allocStart d.hist.allocFill

/-- The first packet of the fill that the recording thread is in. -/
def Driver.procBase (d : Driver) : Nat := d.hist.procStart d.hist.procFill

/-- The refill thread is inside its loop over slots. -/
def AllocPc.refilling : AllocPc → Bool
  | .accumulate | .setCaptured | .setMaxRow | .clearHdr | .setAddr => true
  | _ => false

/-- The refill thread is not between the first slot of a batch and the write of the tail. -/
def AllocPc.idle : AllocPc → Bool
  | .waitStart | .waitStop | .setStart | .checkStop | .setStop | .readClean | .exited => true
  | _ => false

/-- The descriptors of the current batch that have been re-armed. -/
def AllocThread.pending (a : AllocThread) : Nat :=
  match a.pc with
  | .accumulate | .setCaptured | .setMaxRow | .clearHdr | .endRow | .writeTail => a.i
  | .setAddr => a.i + 1
  | _ => 0

/-- The slots of the row that have been re-armed. -/
def AllocThread.rowArmed (a : AllocThread) : Nat := a.supPartial + if a.pc = .setAddr then 1 else 0

/-- The slots of the row whose length has been brought up to the row. -/
def AllocThread.rowGrown (a : AllocThread) : Nat :=
  match a.pc with
  | .setCaptured | .setMaxRow | .setAddr => a.supPartial + 1
  | .clearHdr => if a.supRow = 0 then a.supPartial else a.supPartial + 1
  | _ => a.supPartial

/-- The descriptors that the recording thread has accepted: those recorded, and the one it is at work on. -/
def Driver.taken (d : Driver) : Nat :=
  d.hist.accepted + if d.proc.pc = .load ∨ d.proc.pc = .store then 1 else 0

/-- The bytes in a slot of the refill thread's bucket before the packet of a row. -/
def Config.held (c : Config) (d : Driver) (slot row : Nat) : Nat :=
  slotBytes c.numRxSlots (fun j => lengthOf d.hist.sent (d.base + j)) slot row

/-- The most rows that can be complete in a bucket: every packet is at least 60 bytes long. -/
def Config.maxRows (c : Config) : Nat := c.byteLimit / minPacket + 1

/-- The place of packet `j` of fill `f`. -/
def Config.placeIn (c : Config) (f j : Nat) : Place := ⟨c.bucketOf f, j / c.numRxSlots, j % c.numRxSlots⟩

/-! ## The parts of the invariant -/

/-- The counts of the parties, in their order. -/
structure Config.Window (c : Config) (d : Driver) : Prop where
  armed_eq : d.hist.armed = d.base + d.alloc.supRow * c.numRxSlots + d.alloc.rowArmed
  tailed_eq : d.hist.tailed + d.alloc.pending = d.hist.armed
  room : d.hist.armed < d.hist.cleaned + c.numRxSlots
  batch : d.alloc.pc.refilling = true → d.alloc.i < d.alloc.count ∧ d.alloc.i ≤ d.alloc.supPartial ∧
    d.alloc.supPartial + d.alloc.count ≤ c.numRxSlots + d.alloc.i ∧
    d.hist.tailed + d.alloc.count < d.hist.cleaned + c.numRxSlots
  ending : d.alloc.pc = .endRow → 0 < d.alloc.i ∧ d.alloc.i ≤ d.alloc.supPartial ∧ d.alloc.supPartial ≤ c.numRxSlots
  inRow : d.alloc.pc.idle = true ∨ d.alloc.pc = .writeTail → d.alloc.supPartial < c.numRxSlots
  cleaned_le : d.hist.cleaned ≤ d.hist.accepted
  taken_le : d.taken ≤ d.hist.sent.length
  sent_le : d.hist.sent.length ≤ d.hist.tailed
  accepted_eq : d.hist.accepted = d.procBase + d.proc.curPartial

/-- The encodings of the counts. -/
structure Config.Wrapped (c : Config) (d : Driver) : Prop where
  base_dvd : c.numRxSlots ∣ d.base
  procBase_dvd : c.numRxSlots ∣ d.procBase
  clean_mod : d.nextToClean % c.numRxSlots = d.hist.cleaned % c.numRxSlots
  cleaned_dvd : 256 ∣ d.hist.cleaned
  publishing : d.proc.pc = .publishClean → d.hist.accepted = d.hist.cleaned + 256 ∧
    d.proc.rxDesc = (d.hist.accepted - 1) % c.numRxSlots + 1
  published : d.proc.pc ≠ .publishClean → d.hist.accepted < d.hist.cleaned + 256 ∧
    d.proc.rxDesc = d.hist.accepted % c.numRxSlots
  comparing : d.proc.pc = .compareRow ∨ d.proc.pc = .resetRow → c.numRxSlots ∣ d.hist.accepted
  counting : d.proc.pc = .publishClean ∨ d.proc.pc = .compareRow ∨ d.proc.pc = .resetRow → d.proc.curPartial ≠ 0
  head_eq : d.nicHead = d.hist.sent.length % c.numRxSlots
  tail_eq : d.tail = d.hist.tailed % c.numRxSlots
  alloc_cur : d.alloc.cur = c.bucketOf d.hist.allocFill
  proc_cur : d.proc.cur = c.bucketOf d.hist.procFill

/-- The refill thread is in the fill of the other thread, and `max_row` is unset or was set in the current row. -/
def Config.SameFill (c : Config) (d : Driver) : Prop :=
  d.hist.allocFill = d.hist.procFill ∧
    (d.maxRow = 0 ∨ (d.maxRow = (d.alloc.supRow + 1) * c.numRxSlots ∧ d.hist.maxRowFill = d.hist.allocFill ∧
      d.alloc.supRow ≠ 0))

/-- The refill thread is one fill ahead, in its first row, and `max_row` is the size of the fill that the other thread is in and
has not closed yet. -/
structure Config.NextFill (c : Config) (d : Driver) : Prop where
  next : d.hist.allocFill = d.hist.procFill + 1
  size : d.procBase + d.maxRow = d.base
  set : d.maxRow ≠ 0
  fill : d.hist.maxRowFill = d.hist.procFill
  row : d.alloc.supRow = 0
  behind : d.hist.accepted ≤ d.base
  closing : d.hist.accepted = d.base → d.proc.pc = .publishClean ∨ d.proc.pc = .compareRow ∨ d.proc.pc = .resetRow

/-- The two threads close the same buckets at the same packets. -/
structure Config.Agreed (c : Config) (d : Driver) : Prop where
  first : d.hist.allocStart 0 = 0
  starts : ∀ f ≤ d.hist.procFill, d.hist.procStart f = d.hist.allocStart f
  fills : c.SameFill d ∨ c.NextFill d
  resetting : d.proc.pc = .resetRow → c.NextFill d ∧ d.hist.accepted = d.base
  rowPc : d.alloc.pc = .accumulate ∨ d.alloc.pc = .setCaptured ∨ d.alloc.pc = .setMaxRow → d.alloc.supRow ≠ 0
  maxRow_le : d.maxRow ≤ (c.maxRows + 1) * c.numRxSlots
  allocLog : d.hist.allocLog.length = d.hist.armed
  places : ∀ f, d.hist.procFill ≤ f → f ≤ d.hist.allocFill → ∀ i, d.hist.allocStart f ≤ i → i < d.hist.armed →
    (f < d.hist.allocFill → i < d.hist.allocStart (f + 1)) →
    d.hist.allocLog[i]? = some (c.placeIn f (i - d.hist.allocStart f))
  procLog : d.hist.procLog = d.hist.allocLog.take d.hist.accepted

/-- What every descriptor holds: of the last lap of the ring, the accepted, the written and the armed ones in this order; the
rest has never been armed. -/
structure Config.Ringed (c : Config) (d : Driver) : Prop where
  accepted : ∀ i, i < d.taken → d.hist.armed ≤ i + c.numRxSlots →
    d.hist.slot (i % c.numRxSlots) = .accepted ∧ (d.ring (i % c.numRxSlots)).dd = true
  written : ∀ i, d.taken ≤ i → i < d.hist.sent.length →
    d.hist.slot (i % c.numRxSlots) = .written ∧ (d.ring (i % c.numRxSlots)).dd = true
  armed : ∀ i, d.hist.sent.length ≤ i → i < d.hist.armed →
    d.hist.slot (i % c.numRxSlots) = .armed ∧ (d.ring (i % c.numRxSlots)).dd = false
  fresh : ∀ x, d.hist.armed ≤ x → x < c.numRxSlots → d.hist.slot x = .fresh ∧ (d.ring x).dd = false
  length : ∀ i, d.hist.accepted ≤ i → i < d.hist.sent.length →
    (d.ring (i % c.numRxSlots)).length = lengthOf d.hist.sent i

/-- The lengths recorded are those of the packets delivered. -/
structure Config.Recorded (c : Config) (d : Driver) : Prop where
  deliverable : ∀ p ∈ d.hist.sent, Deliverable p
  recorded : d.hist.recorded = (d.hist.sent.map List.length).take d.hist.accepted
  loaded : d.proc.pc = .store → d.proc.len = lengthOf d.hist.sent d.hist.accepted
  cells : ∀ j < d.proc.curPartial, d.board.lens d.proc.cur j = lengthOf d.hist.sent (d.procBase + j)

/-- The lengths of the slots are the bytes in them, and only the last row of a bucket has a slot beyond the limit. -/
structure Config.Grown (c : Config) (d : Driver) : Prop where
  grown : ∀ x < d.alloc.rowGrown, x < c.numRxSlots → d.alloc.glength x = c.held d x d.alloc.supRow
  old : d.alloc.supRow ≠ 0 → ∀ x, d.alloc.rowGrown ≤ x → x < c.numRxSlots →
    d.alloc.glength x = c.held d x (d.alloc.supRow - 1)
  rows : ∀ r < d.alloc.supRow, ∀ x < c.numRxSlots, c.held d x r ≤ c.byteLimit
  notOver : d.maxRow = 0 → d.alloc.pc ≠ .setCaptured → d.alloc.pc ≠ .setMaxRow →
    ∀ x < d.alloc.rowGrown, x < c.numRxSlots → c.held d x d.alloc.supRow ≤ c.byteLimit
  beyond : d.alloc.pc = .setCaptured ∨ d.alloc.pc = .setMaxRow →
    c.byteLimit < c.held d d.alloc.supPartial d.alloc.supRow

/-- The invariant. -/
structure Config.Inv (c : Config) (d : Driver) : Prop where
  window : c.Window d
  wrapped : c.Wrapped d
  agreed : c.Agreed d
  ringed : c.Ringed d
  recorded : c.Recorded d
  grown : c.Grown d

end NicRecorder
