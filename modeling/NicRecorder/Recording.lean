import NicRecorder.Config
import NicRecorder.Lib.Runs

/-!
# The driver and the writers

`todisk.c`: a number of writers take the filled buckets in turn and write each to a file of its own, while the driver goes on
filling. The writers share with the driver the flags in the headers of the buckets (`num_captured`, `last`, `stalled`), the
buckets themselves and the stop command. There is no lock and no owner of a bucket.

The writers are the program, one access to shared memory at a time (`WriterPc`). The driver is what the two capture threads come
to, one level above their rings and rows: a fill after the other, each published before the next one is started, packets that
the adapter puts into a bucket and that the recording thread then counts, and the last stores of that thread. A bucket is a
number of pieces, the length block first. How large a piece is does not matter; the number of pieces is a parameter. Instead of
its bytes a piece holds the number of the fill that wrote it last.

`Ledger` holds history variables. No step reads them, but for `taken` of a writer and what is derived from it.
-/

namespace NicRecorder

open Runs

/-! ## The parties -/

/-- A recording: a configuration and a table of writers that `read_disk_table` accepts, and the pieces in which the length block
and the data of a bucket are copied. -/
structure Setup where
  config : Config
  writers : Nat
  maxBlocks : Nat
  lenPieces : Nat
  dataPieces : Nat
  writers_pos : 0 < writers
  writers_le : writers + 2 ≤ config.numBuckets
  maxBlocks_pos : 0 < maxBlocks

/-- The memory that the driver and the writers share; the headers and the pieces are by bucket number. -/
structure Buckets where
  userStop : Bool
  captured : Nat → Nat
  last : Nat → Nat
  stalled : Nat → Nat
  cell : Nat → Nat → Option Nat

/-- How far the recording thread has come with its end: its loop, between its last two stores (lines 217 and 218), and after
them. -/
inductive Ending where
  | recording | flagged | ended
  deriving DecidableEq, Repr

/-- The capture threads, fill by fill: the fill of each, whether the refill thread has published its own, the packets recorded in
the current fill, and how far their ends are. -/
structure Filler where
  allocFill : Nat
  procFill : Nat
  published : Bool
  count : Nat
  allocEnded : Bool
  ending : Ending

/-- The next access of a writer. -/
inductive WriterPc where
  | again0 | poll | pollStop
  | raiseStop | markStalled
  | copyCaptured | copyLast | copyStalled | copyLens
  | readLast | reset | copyData | close
  | exited
  deriving DecidableEq, Repr

/-- A writer: the variables of `main`, the next piece to copy, and the fill whose flag it has found (history). -/
structure Writer where
  pc : WriterPc
  cur : Nat
  fileCount : Nat
  endCnt : Nat
  delayStop : Nat
  stalled : Bool
  last : Nat
  blocksWritten : Nat
  i : Nat
  taken : Nat

/-- A file: the header, the pieces written so far, and the fill it was taken for (history). -/
structure Image where
  captured : Nat
  last : Nat
  stalled : Nat
  cell : Nat → Option Nat
  closed : Bool
  src : Nat

/-- The history of a recording: the fill that last set the flag of each bucket; for each fill the number stored in its flag,
whether it was published, whether a writer has reset its flag, the pieces with its packets and their number; and the first fill
whose bucket the driver entered again before its file was complete. -/
structure Ledger where
  pubFill : Nat → Nat
  size : Nat → Nat
  publishedEver : Nat → Bool
  consumed : Nat → Bool
  recorded : Nat → Nat → Bool
  packets : Nat → Nat
  overrun : Option Nat

/-- The state of a recording. -/
structure RecState where
  mem : Buckets
  drv : Filler
  writer : Nat → Writer
  file : Nat → Option Image
  ledger : Ledger

/-- The file of a block is complete. -/
def RecState.closed (s : RecState) (f : Nat) : Bool := (s.file f).any (·.closed)

/-- The file of a block is flagged: `count_recorded` and the extraction tools end with it. -/
def RecState.flagged (s : RecState) (f : Nat) : Bool := (s.file f).any fun img => img.stalled ≠ 0 || img.last ≠ 0

/-! ## The driver -/

/-- A step of the driver, or of the user. -/
inductive FillAct where
  | dma (ahead : Bool) (x : Nat)
  | accept (xs : List Nat)
  | publish (m : Nat)
  | startNext | procNext
  | allocEnd | finalCaptured | finalLast
  | userStop
  deriving DecidableEq, Repr

/-- A store of the flag of a fill. -/
def Setup.setFlag (S : Setup) (s : RecState) (n m : Nat) : RecState :=
  { s with
    mem := { s.mem with captured := Function.update s.mem.captured (S.config.bucketOf n) m }
    ledger := { s.ledger with
      pubFill := Function.update s.ledger.pubFill (S.config.bucketOf n) n
      size := Function.update s.ledger.size n m
      publishedEver := Function.update s.ledger.publishedEver n (s.ledger.publishedEver n || m ≠ 0) } }

/-- The first fill whose bucket is entered again too early. -/
def Setup.noteOverrun (S : Setup) (s : RecState) (n : Nat) : Option Nat :=
  match s.ledger.overrun with
  | some f => some f
  | none => if S.config.numBuckets ≤ n ∧ s.closed (n - S.config.numBuckets) = false
      then some (n - S.config.numBuckets) else none

/-- The steps of the driver.

* `dma`: the adapter writes to a piece of the bucket of the recording thread, or of the one ahead. It goes on when the threads
  have ended.
* `accept`: the recording thread counts a packet. It stores its length; the data is there.
* `publish`: the refill thread sets the flag of its fill, once or more often (line 104). It is in the fill of the other thread,
  which has recorded packets there.
* `startNext`: the refill thread goes to the next fill; it has published the old one (lines 128 to 134). It waits for nobody.
* `procNext`: the recording thread follows when it has recorded all of the fill (lines 198 to 209).
* `allocEnd`: the refill thread sees the stop command.
* `finalCaptured`, `finalLast`: the last stores of the recording thread (lines 217 and 218).
* `userStop`: the command `stop`. -/
def Setup.fillStep (S : Setup) (s : RecState) : FillAct → Option RecState
  | .dma ahead x =>
    let n := if ahead then s.drv.allocFill else s.drv.procFill
    let b := S.config.bucketOf n
    if S.lenPieces ≤ x ∧ x < S.lenPieces + S.dataPieces then
      some { s with mem := { s.mem with
        cell := Function.update s.mem.cell b (Function.update (s.mem.cell b) x (some n)) } }
    else none
  | .accept xs =>
    let n := s.drv.procFill
    let b := S.config.bucketOf n
    if s.drv.ending = .recording ∧
        ∀ x ∈ xs, x < S.lenPieces + S.dataPieces ∧ (S.lenPieces ≤ x → s.mem.cell b x = some n) then
      some { s with
        mem := { s.mem with
          cell := Function.update s.mem.cell b fun x => if x ∈ xs then some n else s.mem.cell b x }
        drv := { s.drv with count := s.drv.count + 1 }
        ledger := { s.ledger with
          recorded := Function.update s.ledger.recorded n fun x => x ∈ xs || s.ledger.recorded n x
          packets := Function.update s.ledger.packets n (s.ledger.packets n + 1) } }
    else none
  | .publish m =>
    if s.drv.allocEnded = false ∧ s.drv.allocFill = s.drv.procFill ∧ s.drv.count ≠ 0 ∧ m ≠ 0 then
      some { S.setFlag s s.drv.allocFill m with drv := { s.drv with published := true } }
    else none
  | .startNext =>
    if s.drv.allocEnded = false ∧ s.drv.allocFill = s.drv.procFill ∧ s.drv.published = true then
      some { s with
        drv := { s.drv with allocFill := s.drv.allocFill + 1, published := false }
        ledger := { s.ledger with overrun := S.noteOverrun s (s.drv.allocFill + 1) } }
    else none
  | .procNext =>
    if s.drv.ending = .recording ∧ s.drv.procFill < s.drv.allocFill ∧ s.drv.count = s.ledger.size s.drv.procFill then
      some { s with drv := { s.drv with procFill := s.drv.procFill + 1, count := 0 } }
    else none
  | .allocEnd =>
    if s.mem.userStop = true then some { s with drv := { s.drv with allocEnded := true } } else none
  | .finalCaptured =>
    if s.drv.allocEnded = true ∧ s.drv.ending = .recording then
      some { S.setFlag s s.drv.procFill s.drv.count with drv := { s.drv with ending := .flagged } }
    else none
  | .finalLast =>
    if s.drv.ending = .flagged then
      some { s with
        mem := { s.mem with last := Function.update s.mem.last (S.config.bucketOf s.drv.procFill) 1 }
        drv := { s.drv with ending := .ended } }
    else none
  | .userStop => some { s with mem := { s.mem with userStop := true } }

/-! ## The writers -/

/-- A writer changes its own variables. -/
def RecState.setWriter (s : RecState) (k : Nat) (w : Writer) : RecState :=
  { s with writer := Function.update s.writer k w }

/-- A writer writes to its file. -/
def RecState.editFile (s : RecState) (f : Nat) (g : Image → Image) : RecState :=
  { s with file := Function.update s.file f ((s.file f).map g) }

/-- The bucket after `cur` for a writer (line 256). -/
def Setup.nextBucket (S : Setup) (cur : Nat) : Nat :=
  S.config.start1G + (cur - S.config.start1G + S.writers) % S.config.numBuckets

/-- The head of the main loop (lines 182 to 192): after the stop a writer makes three more passes. -/
def Writer.again0 (w : Writer) (userStop : Bool) : Writer :=
  if userStop = true then
    if w.delayStop > 2 then { w with pc := .exited, delayStop := w.delayStop + 1 }
    else { w with pc := .poll, delayStop := w.delayStop + 1, endCnt := 0 }
  else { w with pc := .poll, endCnt := 0 }

/-- The end of the main loop (lines 249 to 256). -/
def Setup.endBlock (S : Setup) (w : Writer) : Writer :=
  if w.last ≠ 0 ∨ w.stalled = true then { w with pc := .exited }
  else if w.blocksWritten + 1 = S.maxBlocks then { w with pc := .exited, blocksWritten := w.blocksWritten + 1 }
  else
    { w with
      pc := .again0
      blocksWritten := w.blocksWritten + 1
      fileCount := w.fileCount + S.writers
      cur := S.nextBucket w.cur }

/-- The next access of writer `k`. The files of a recording are new ones; `open` and `write` do not fail. -/
def Setup.writerStep (S : Setup) (s : RecState) (k : Nat) : Option RecState :=
  let w := s.writer k
  match w.pc with
  | .again0 => some (s.setWriter k (w.again0 s.mem.userStop))
  | .poll =>
    if s.mem.captured w.cur = 0 then some (s.setWriter k { w with pc := .pollStop, endCnt := w.endCnt + 1 })
    else some (s.setWriter k { w with
      pc := if w.endCnt = 0 ∧ w.delayStop = 0 then .raiseStop else .copyCaptured, taken := s.ledger.pubFill w.cur })
  | .pollStop =>
    some (s.setWriter k { w with pc := if s.mem.userStop = true ∧ w.endCnt > 40 then .again0 else .poll })
  | .raiseStop =>
    some { s.setWriter k { w with pc := .markStalled } with mem := { s.mem with userStop := true } }
  | .markStalled =>
    some { s.setWriter k { w with pc := .copyCaptured, stalled := true } with
      mem := { s.mem with stalled := Function.update s.mem.stalled w.cur 1 } }
  | .copyCaptured =>
    some { s.setWriter k { w with pc := .copyLast } with
      file := Function.update s.file w.fileCount
        (some ⟨s.mem.captured w.cur, 0, 0, fun _ => none, false, w.taken⟩) }
  | .copyLast =>
    some ((s.setWriter k { w with pc := .copyStalled }).editFile w.fileCount fun img =>
      { img with last := s.mem.last w.cur })
  | .copyStalled =>
    some ((s.setWriter k { w with pc := .copyLens, i := 0 }).editFile w.fileCount fun img =>
      { img with stalled := s.mem.stalled w.cur })
  | .copyLens =>
    if w.i < S.lenPieces then
      some ((s.setWriter k { w with i := w.i + 1 }).editFile w.fileCount fun img =>
        { img with cell := Function.update img.cell w.i (s.mem.cell w.cur w.i) })
    else some (s.setWriter k { w with pc := .readLast })
  | .readLast => some (s.setWriter k { w with pc := .reset, last := s.mem.last w.cur })
  | .reset =>
    some { s.setWriter k { w with pc := .copyData } with
      mem := { s.mem with captured := Function.update s.mem.captured w.cur 0 }
      ledger := { s.ledger with consumed := Function.update s.ledger.consumed w.taken true } }
  | .copyData =>
    if w.i < S.lenPieces + S.dataPieces then
      some ((s.setWriter k { w with i := w.i + 1 }).editFile w.fileCount fun img =>
        { img with cell := Function.update img.cell w.i (s.mem.cell w.cur w.i) })
    else some (s.setWriter k { w with pc := .close })
  | .close =>
    some ((s.setWriter k (S.endBlock w)).editFile w.fileCount fun img => { img with closed := true })
  | .exited => none

/-! ## The system -/

/-- A step of the recording: of the driver or the user, or of a writer. -/
inductive RecAct where
  | drv (a : FillAct)
  | writer (k : Nat)
  deriving DecidableEq, Repr

/-- The state after a step. -/
def Setup.next (S : Setup) (s : RecState) : RecAct → Option RecState
  | .drv a => S.fillStep s a
  | .writer k => if k < S.writers then S.writerStep s k else none

/-- The state after a list of steps, each of which has to meet a condition. -/
def Setup.run (S : Setup) (c : RecState → RecAct → Bool) : List RecAct → RecState → Option RecState
  | [], s => some s
  | a :: as, s => if c s a then (S.next s a).bind (S.run c as) else none

/-- A writer at its first block. -/
def Setup.startWriter (S : Setup) (k : Nat) : Writer :=
  ⟨.again0, S.config.start1G + k, k, 0, 0, false, 0, 0, 0, 0⟩

/-- A recording at its start: no flag is set, and no file is written. -/
def Setup.start (S : Setup) : RecState where
  mem := ⟨false, fun _ => 0, fun _ => 0, fun _ => 0, fun _ _ => none⟩
  drv := ⟨0, 0, false, 0, false, .recording⟩
  writer := S.startWriter
  file := fun _ => none
  ledger := ⟨fun _ => 0, fun _ => 0, fun _ => false, fun _ => false, fun _ _ => false, fun _ => 0, none⟩

/-- The recordings of a setup. -/
def Setup.system (S : Setup) : System RecState RecAct where
  init := fun s => s = S.start
  step := fun s a t => S.next s a = some t

/-! ## Steps that matter -/

/-- The driver starts the next fill of the bucket of block `f` before the file of the block is complete. -/
def Setup.Overruns (S : Setup) (f : Nat) (s : RecState) (a : RecAct) : Prop :=
  a = .drv .startNext ∧ s.drv.allocFill + 1 = f + S.config.numBuckets ∧ s.closed f = false

/-- Writer `k` finds a flag. -/
def RecState.Takes (s : RecState) (k : Nat) (a : RecAct) : Prop :=
  a = .writer k ∧ (s.writer k).pc = .poll ∧ s.mem.captured (s.writer k).cur ≠ 0

/-- Nothing of a fill can change any more: the recording thread is in a later one, or has made its last store. -/
def RecState.Settled (s : RecState) (n : Nat) : Prop := s.drv.ending = .ended ∨ n < s.drv.procFill

/-- No block is overrun. -/
def Setup.NoOverrun (S : Setup) (s : RecState) (a : RecAct) : Prop := ∀ f, ¬S.Overruns f s a

/-- A writer takes a bucket only when the capture threads are in other buckets, or have ended. -/
def Setup.TakesLeft (S : Setup) (s : RecState) (a : RecAct) : Prop :=
  ∀ k, s.Takes k a → s.drv.ending = .ended ∨
    S.config.bucketOf s.drv.allocFill ≠ (s.writer k).cur ∧ S.config.bucketOf s.drv.procFill ≠ (s.writer k).cur

/-- A writer takes the flag of its own block. -/
def TakesOwn (s : RecState) (a : RecAct) : Prop :=
  ∀ k, s.Takes k a → s.ledger.pubFill (s.writer k).cur = (s.writer k).fileCount

/-- A writer that has seen the stop takes the flag of its own block. -/
def TakesOwnLate (s : RecState) (a : RecAct) : Prop :=
  ∀ k, s.Takes k a → (s.writer k).delayStop ≠ 0 → s.ledger.pubFill (s.writer k).cur = (s.writer k).fileCount

/-- No writer ends because of `max_blocks`. -/
def Setup.UnderLimit (S : Setup) (s : RecState) (a : RecAct) : Prop :=
  ∀ k, a = .writer k → (s.writer k).pc = .close → (s.writer k).blocksWritten + 1 ≠ S.maxBlocks

/-- No fill is published for the first time when its writer has seen the stop. -/
def Setup.PublishesUnseen (S : Setup) (s : RecState) (a : RecAct) : Prop :=
  (∃ m, a = .drv (.publish m)) ∨ a = .drv .finalCaptured ∧ s.drv.count ≠ 0 →
    s.ledger.publishedEver s.drv.procFill = false → (s.writer (s.drv.procFill % S.writers)).delayStop = 0

/-- Writer `k` sees the stop for the first time. -/
def RecState.SeesStop (s : RecState) (k : Nat) (a : RecAct) : Prop :=
  a = .writer k ∧ (s.writer k).pc = .again0 ∧ s.mem.userStop = true ∧ (s.writer k).delayStop = 0

end NicRecorder
