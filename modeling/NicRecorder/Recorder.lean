import NicRecorder.Capture
import NicRecorder.Recording

/-!
# The whole recorder

In `Recording` the driver is what its threads come to, fill by fill. Here it is the threads themselves, access by access, with the
ring and the adapter. The writers are the same program at both levels, since they see no more of the driver than the shared
memory. As there, a piece of a bucket holds the number of the fill that wrote it last instead of its bytes; the piece that the
adapter writes to is found from the address in the descriptor.
-/

namespace NicRecorder

open Runs

/-- The pieces of a bucket in which a packet lies: that of its length, by the number of the packet in the bucket, and those of its
data, by the offset in the bucket and the length. -/
structure Pieces (S : Setup) where
  ofLen : Nat → Nat
  ofData : Nat → Nat → List Nat
  ofLen_lt : ∀ j, ofLen j < S.lenPieces
  ofData_mem : ∀ off len, ∀ x ∈ ofData off len, S.lenPieces ≤ x ∧ x < S.lenPieces + S.dataPieces

/-- The state of the recorder: the driver, the pieces of the buckets, the writers and the files. -/
structure Recorder where
  drv : Driver
  cell : Nat → Nat → Option Nat
  writer : Nat → Writer
  file : Nat → Option Image

/-- The fill of a packet that is not recorded yet: that of the refill thread from its first packet on, else that of the other
thread. -/
def Driver.fillAt (d : Driver) (i : Nat) : Nat :=
  if d.hist.allocStart d.hist.allocFill ≤ i then d.hist.allocFill else d.hist.procFill

/-- How far the recording thread has come with its end. It makes no last stores if the stop comes before it has seen the start. -/
def Driver.endingOf (d : Driver) : Ending :=
  match d.proc.pc with
  | .setLast => .flagged
  | .exited => if d.board.last d.proc.cur = 0 then .recording else .ended
  | _ => .recording

/-- What the capture threads come to. The refill thread has published its fill when it has made the first of its two stores
(line 104), and `max_row` is of its own fill as long as the other thread is in that fill too. -/
def Driver.filler (d : Driver) : Filler where
  allocFill := d.hist.allocFill
  procFill := d.hist.procFill
  published := decide (d.hist.allocFill = d.hist.procFill ∧ (d.maxRow ≠ 0 ∨ d.alloc.pc = .setMaxRow))
  count := d.proc.curPartial
  allocEnded := decide (d.alloc.pc = .setStop ∨ d.alloc.pc = .exited)
  ending := d.endingOf

/-- The memory that the driver and the writers share. -/
def Recorder.mem (m : Recorder) : Buckets :=
  ⟨m.drv.board.userStop, m.drv.board.captured, m.drv.board.last, m.drv.board.stalled, m.cell⟩

/-- What a writer sees, with the fill that last set each flag (history) and the rest of the history left out. -/
def Recorder.seen (m : Recorder) : RecState where
  mem := m.mem
  drv := m.drv.filler
  writer := m.writer
  file := m.file
  ledger := ⟨m.drv.hist.pubFill, fun _ => 0, fun _ => false, fun _ => false, fun _ _ => false, fun _ => 0, none⟩

/-- What a writer has changed. -/
def Recorder.back (m : Recorder) (t : RecState) : Recorder where
  drv := { m.drv with board := { m.drv.board with
    userStop := t.mem.userStop, captured := t.mem.captured, stalled := t.mem.stalled } }
  cell := m.cell
  writer := t.writer
  file := t.file

/-- Pieces of a bucket are written in a fill. -/
def tagAll (cell : Nat → Nat → Option Nat) (b n : Nat) (xs : List Nat) : Nat → Nat → Option Nat :=
  Function.update cell b fun x => if x ∈ xs then some n else cell b x

/-- A step of the recorder: an access of a thread, a packet, a command of the user, or a step of a writer. -/
inductive RingAct where
  | alloc | proc
  | nic (p : List UInt8)
  | userStart | userStop
  | writer (k : Nat)

/-- The steps of the recorder. -/
inductive Setup.RingStep (S : Setup) (G : Pieces S) : Recorder → RingAct → Recorder → Prop where
  | alloc {m : Recorder} {d : Driver} : S.config.allocStep m.drv = some d → S.RingStep G m .alloc { m with drv := d }
  | proc {m : Recorder} {d : Driver} : S.config.procStep m.drv = some d → S.RingStep G m .proc { m with
      drv := d
      cell := if m.drv.proc.pc = .store
        then tagAll m.cell m.drv.proc.cur m.drv.hist.procFill [G.ofLen m.drv.proc.curPartial] else m.cell }
  | nic {m : Recorder} {d : Driver} (p : List UInt8) : Deliverable p → S.config.nicStep p m.drv = some d →
      S.RingStep G m (.nic p) { m with
        drv := d
        cell := tagAll m.cell ((m.drv.ring m.drv.nicHead).pktAddr / 2 ^ 30) (m.drv.fillAt m.drv.hist.sent.length)
          (G.ofData ((m.drv.ring m.drv.nicHead).pktAddr % 2 ^ 30) p.length) }
  | userStart {m : Recorder} : S.RingStep G m .userStart
      { m with drv := { m.drv with board := { m.drv.board with userStart := true } } }
  | userStop {m : Recorder} : S.RingStep G m .userStop
      { m with drv := { m.drv with board := { m.drv.board with userStop := true } } }
  | writer {m : Recorder} {t : RecState} (k : Nat) : k < S.writers → S.writerStep m.seen k = some t →
      S.RingStep G m (.writer k) (m.back t)

/-- The recorder at its start, over any memory. -/
def Setup.startRecorder (S : Setup) (lens : Nat → Nat → Nat) (ram : ByteMem.Mem) : Recorder where
  drv := S.config.startDriver lens ram
  cell := fun _ _ => none
  writer := S.startWriter
  file := fun _ => none

/-- The recorder of a setup. -/
def Setup.recorder (S : Setup) (G : Pieces S) : System Recorder RingAct where
  init := fun m => ∃ lens ram, m = S.startRecorder lens ram
  step := S.RingStep G

/-- The recording thread does not poll a descriptor of the last lap. -/
def Setup.RingNotDry (S : Setup) (m : Recorder) (a : RingAct) : Prop :=
  a = .proc → m.drv.proc.pc = .poll → m.drv.hist.accepted = m.drv.hist.armed → m.drv.hist.armed < S.config.numRxSlots

/-! ## The recording that a run makes -/

section Acts

variable {S : Setup}

/-- The pieces of the packet that the recording thread is storing the length of. -/
def Recorder.storing (G : Pieces S) (m : Recorder) : List Nat :=
  G.ofLen m.drv.proc.curPartial ::
    G.ofData (m.drv.hist.addrs.getD m.drv.hist.accepted 0 % 2 ^ 30) (lengthOf m.drv.hist.sent m.drv.hist.accepted)

/-- What an access of the refill thread is in the recording: the store of a flag, the way to the next fill, the sight of the stop, or
nothing. -/
def Config.allocActs (c : Config) (d : Driver) : List FillAct :=
  match d.alloc.pc with
  | .setCaptured => [.publish (c.rowEnd d.alloc.supRow)]
  | .endRow => if d.alloc.supPartial = c.numRxSlots ∧ d.maxRow ≠ 0 then [.startNext] else []
  | .waitStop | .checkStop => if d.board.userStop = true then [.allocEnd] else []
  | _ => []

/-- What an access of the recording thread is in the recording. -/
def Recorder.procActs (G : Pieces S) (m : Recorder) : List FillAct :=
  match m.drv.proc.pc with
  | .store => [.accept (m.storing G)]
  | .resetRow => [.procNext]
  | .setCaptured => [.finalCaptured]
  | .setLast => [.finalLast]
  | _ => []

/-- What the arrival of a packet is in the recording: a store to each piece it lies in. -/
def Recorder.nicActs (G : Pieces S) (m : Recorder) (p : List UInt8) : List FillAct :=
  (G.ofData ((m.drv.ring m.drv.nicHead).pktAddr % 2 ^ 30) p.length).map
    (.dma (decide (m.drv.hist.allocStart m.drv.hist.allocFill ≤ m.drv.hist.sent.length)))

/-- The steps of the recording that a step of the recorder comes to. -/
def Recorder.acts (G : Pieces S) (m : Recorder) : RingAct → List RecAct
  | .alloc => (S.config.allocActs m.drv).map .drv
  | .proc => (m.procActs G).map .drv
  | .nic p => (m.nicActs G p).map .drv
  | .userStart => []
  | .userStop => [.drv .userStop]
  | .writer k => [.writer k]

/-- The recording that a run of the recorder has made, with its history. -/
def Setup.recordingOf (S : Setup) (G : Pieces S) (tr : List (Recorder × RingAct)) : Option RecState :=
  (tr.flatMap fun x => x.1.acts G x.2).foldlM S.next S.start

/-- A condition on the steps of a recording, for a step of the recorder behind a run: the steps that it comes to meet the condition, in the
recording that the run has made. -/
def Setup.Upon (S : Setup) (G : Pieces S) (φ : RecState → RecAct → Prop) (past : List (Recorder × RingAct)) (m : Recorder)
    (a : RingAct) : Prop :=
  ∀ r, S.recordingOf G past = some r → ∀ b ∈ m.acts G a, φ r b

end Acts

end NicRecorder
