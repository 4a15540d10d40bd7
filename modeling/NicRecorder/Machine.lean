import NicRecorder.Capture
import NicRecorder.Tools

/-!
# The driver and its consumers on one memory

The private memory byte by byte: `pbm_init_all` prepares it, the capture threads and the adapter fill it, and two programs take what
they have filled: `todisk.c`, which copies a bucket to a file and resets one word of its header, and `count_then_discard.c`, which
clears the header. Any number of processes of either program can run at a time, each started and ended at any moment; a process is
its variables and a program counter, and a step is one access to the memory or to a file.

The driver is that of `Capture`. It reads nothing of the memory but the commands and the lengths of the current bucket, and these it
has on its board; every store of it goes to the bytes as well (`driverStore`). The programs work on the bytes alone. The commands
lie in the last page of the first bucket, which is apart from everything here; they stay on the board.

The copies of a bucket to a file are made in pieces of any size. A clear of a header is one step.
-/

namespace NicRecorder

open ByteMem Runs

/-! ## The memory -/

/-- The address of a byte of the length block of a bucket. -/
def hdrAt (b off : Nat) : Nat := b * 2 ^ 30 + (lenBlockOff + off)

/-- A bucket, from its first byte on. -/
def bucketMem (m : Mem) (b : Nat) : Mem := fun x => m (b * 2 ^ 30 + x)

/-- The lengths in a bucket. -/
def lensOf (m : Mem) (b j : Nat) : Nat := m.load16 (hdrAt b (lenOff + 2 * j))

/-- `sizeof (bucket_info->u.real)`: 64 bytes and four words. -/
def realSize : Nat := 80

/-- The loop body of `pbm_init_all` for one bucket: the header is cleared, and the number of slots is stored. -/
def Config.initBucket (c : Config) (m : Mem) (b : Nat) : Mem :=
  (m.store (hdrAt b 0) (List.replicate realSize 0)).store32 (hdrAt b numRxSlotsOff) c.numRxSlots

/-- `pbm_init_all`, over whatever the memory held. -/
def Config.initAll (c : Config) (m : Mem) : Mem := (List.range' c.start1G c.numBuckets).foldl c.initBucket m

/-! ## The stores of the driver -/

/-- The store of the refill thread's next access to a bucket (line 104). -/
def Config.allocStore (c : Config) (d : Driver) (m : Mem) : Mem :=
  match d.alloc.pc with
  | .setCaptured => m.store32 (hdrAt d.alloc.cur numCapturedOff) (c.rowEnd d.alloc.supRow)
  | _ => m

/-- The store of the recording thread's next access to a bucket (lines 185, 217 and 218). -/
def Driver.procStore (d : Driver) (m : Mem) : Mem :=
  match d.proc.pc with
  | .store => m.store16 (hdrAt d.proc.cur (lenOff + 2 * d.proc.curPartial)) d.proc.len
  | .setCaptured => m.store32 (hdrAt d.proc.cur numCapturedOff) d.proc.curPartial
  | .setLast => m.store32 (hdrAt d.proc.cur lastOff) 1
  | _ => m

/-- What a step of the driver or of the adapter stores in the memory of the buckets. -/
def Config.driverStore (c : Config) (d : Driver) (m : Mem) : Act → Mem
  | .alloc => c.allocStore d m
  | .proc => d.procStore m
  | .nic p => m.store (d.ring d.nicHead).pktAddr p
  | .userStart | .userStop | .visit _ => m

/-! ## The programs -/

/-- A host: a configuration and a table of writers that `read_disk_table` accepts. -/
structure Host where
  config : Config
  table : Table
  maxBlocks : Nat
  writers_le : table.numWriters + 2 ≤ config.numBuckets
  maxBlocks_pos : 0 < maxBlocks

/-- The next access of `todisk`. -/
inductive TodiskPc where
  | again0 | poll | pollStop
  | raiseStop | markStalled
  | openFile | stamp | copyLens
  | readLast | reset | copyData | close
  | exited
  deriving DecidableEq, Repr

/-- A process of `todisk`: the variables of `main`, and how much of the length block and of the packets it has written to the file
that is open. -/
structure Todisk where
  pc : TodiskPc
  id : Nat
  cur : Nat
  fileCount : Nat
  endCnt : Nat
  delayStop : Nat
  stalled : Bool
  last : Nat
  blocksWritten : Nat
  lenDone : Nat
  dataDone : Nat

/-- The next access of `count_then_discard`. -/
inductive DiscardPc where
  | again0 | poll | pollStop
  | readCaptured | readLast | clear
  | exited
  deriving DecidableEq, Repr

/-- A process of `count_then_discard`: the variables of `main`. -/
structure Discard where
  pc : DiscardPc
  cur : Nat
  endCnt : Nat
  delayStop : Nat
  driverStop : Nat
  totalPackets : Nat

/-- A process of one of the programs. -/
inductive Program where
  | todisk (w : Todisk)
  | discard (v : Discard)

/-- The bucket that a process is at. -/
def Program.cur : Program → Nat
  | .todisk w => w.cur
  | .discard v => v.cur

/-- The state: the driver, the memory, the processes, the files, and the names of the files to which `todisk` has written a whole header
(history). -/
structure Machine where
  cap : Capture
  mem : Mem
  prog : Nat → Option Program
  disk : Disk
  headed : List (List Char)

/-- `read_user_stop`. -/
def Machine.userStop (m : Machine) : Bool := m.cap.drv.board.userStop

/-- A process issues the stop. -/
def Machine.raiseStop (m : Machine) : Machine :=
  { m with cap := { m.cap with drv := { m.cap.drv with board := { m.cap.drv.board with userStop := true } } } }

/-- A process changes its variables. -/
def Machine.setProg (m : Machine) (pid : Nat) (p : Program) : Machine :=
  { m with prog := Function.update m.prog pid (some p) }

/-- `read_user_stop (gshare) != 0 && delay_stop++ > 2`, and `delay_stop` after it. -/
def stopCheck (userStop : Bool) (delayStop : Nat) : Bool × Nat :=
  if userStop then (decide (delayStop > 2), delayStop + 1) else (false, delayStop)

/-- Write bytes to an open file, at a position. -/
def writeAt (disk : Disk) (name : List Char) (pos : Nat) (bs : List UInt8) : Disk :=
  Function.update disk name (some ((OpenFile.mk ((disk name).getD []) pos).write bs).content)

/-! ### `todisk` -/

/-- A process of writer `id` at its first block. -/
def Host.startTodisk (H : Host) (id : Nat) : Todisk := ⟨.again0, id, H.config.start1G + id, id, 0, 0, false, 0, 0, 0, 0⟩

/-- The name of the current file (line 212). -/
def Host.fname (H : Host) (w : Todisk) : List Char := fileName (H.table.writerPath w.id) w.fileCount

/-- The head of the main loop. -/
def Todisk.again0 (w : Todisk) (userStop : Bool) : Todisk :=
  match stopCheck userStop w.delayStop with
  | (true, delayStop) => { w with pc := .exited, delayStop := delayStop }
  | (false, delayStop) => { w with pc := .poll, delayStop := delayStop, endCnt := 0 }

/-- The end of the main loop, behind the `close` of the file. -/
def Host.endBlock (H : Host) (w : Todisk) : Todisk :=
  let w := { w with lenDone := 0, dataDone := 0 }
  if w.last ≠ 0 ∨ w.stalled = true then { w with pc := .exited }
  else if w.blocksWritten + 1 = H.maxBlocks then { w with pc := .exited, blocksWritten := w.blocksWritten + 1 }
  else
    { w with
      pc := .again0
      blocksWritten := w.blocksWritten + 1
      fileCount := w.fileCount + H.table.numWriters
      cur := H.config.start1G + (w.cur - H.config.start1G + H.table.numWriters) % H.config.numBuckets }

/-- The next access of a process of `todisk`; `n` is the number of bytes that are copied to the file at once, `time` is the time. Files
can be opened and written. -/
def Host.todiskStep (H : Host) (m : Machine) (pid : Nat) (w : Todisk) (n time : Nat) : Option Machine :=
  match w.pc with
  | .again0 => some (m.setProg pid (.todisk (w.again0 m.userStop)))
  | .poll =>
    if numCaptured (bucketMem m.mem w.cur) = 0 then
      some (m.setProg pid (.todisk { w with pc := .pollStop, endCnt := w.endCnt + 1 }))
    else some (m.setProg pid (.todisk { w with pc := if w.endCnt = 0 ∧ w.delayStop = 0 then .raiseStop else .openFile }))
  | .pollStop =>
    some (m.setProg pid (.todisk { w with pc := if m.userStop = true ∧ w.endCnt > 40 then .again0 else .poll }))
  | .raiseStop => some (m.setProg pid (.todisk { w with pc := .markStalled })).raiseStop
  | .markStalled =>
    some { m.setProg pid (.todisk { w with pc := .openFile, stalled := true }) with
      mem := m.mem.store32 (hdrAt w.cur stalledOff) 1 }
  | .openFile =>
    some { m.setProg pid (.todisk { w with pc := .stamp, lenDone := 0, dataDone := 0 }) with
      disk := Function.update m.disk (H.fname w) (some ((m.disk (H.fname w)).getD [])) }
  | .stamp =>
    some { m.setProg pid (.todisk { w with pc := .copyLens }) with
      mem := m.mem.store (hdrAt w.cur userStampOff) (leBytes 8 time) }
  | .copyLens =>
    if w.lenDone < lenBlockSize then
      let k := min n (lenBlockSize - w.lenDone)
      some { m.setProg pid (.todisk { w with lenDone := w.lenDone + k }) with
        disk := writeAt m.disk (H.fname w) w.lenDone (m.mem.load (hdrAt w.cur w.lenDone) k)
        headed := if realSize ≤ w.lenDone + k then H.fname w :: m.headed else m.headed }
    else some (m.setProg pid (.todisk { w with pc := .readLast }))
  | .readLast => some (m.setProg pid (.todisk { w with pc := .reset, last := lastWord (bucketMem m.mem w.cur) }))
  | .reset =>
    some { m.setProg pid (.todisk { w with pc := .copyData }) with
      mem := m.mem.store32 (hdrAt w.cur numCapturedOff) 0 }
  | .copyData =>
    if w.dataDone < lenBlockOff then
      let k := min n (lenBlockOff - w.dataDone)
      some { m.setProg pid (.todisk { w with dataDone := w.dataDone + k }) with
        disk := writeAt m.disk (H.fname w) (lenBlockSize + w.dataDone) (m.mem.load (w.cur * 2 ^ 30 + w.dataDone) k) }
    else some (m.setProg pid (.todisk { w with pc := .close }))
  | .close => some (m.setProg pid (.todisk (H.endBlock w)))
  | .exited => none

/-! ### `count_then_discard` -/

/-- A process of `count_then_discard` at its first bucket. -/
def Host.startDiscard (H : Host) : Discard := ⟨.again0, H.config.start1G, 0, 0, 0, 0⟩

/-- The head of the main loop. -/
def Discard.again0 (v : Discard) (userStop : Bool) : Discard :=
  match stopCheck userStop v.delayStop with
  | (true, delayStop) => { v with pc := .exited, delayStop := delayStop }
  | (false, delayStop) => { v with pc := .poll, delayStop := delayStop, endCnt := 0 }

/-- The next access of a process of `count_then_discard`. The header is cleared as a whole (line 127). -/
def Host.discardStep (H : Host) (m : Machine) (pid : Nat) (v : Discard) : Option Machine :=
  match v.pc with
  | .again0 => some (m.setProg pid (.discard (v.again0 m.userStop)))
  | .poll =>
    if numCaptured (bucketMem m.mem v.cur) = 0 then
      some (m.setProg pid (.discard { v with pc := .pollStop, endCnt := v.endCnt + 1 }))
    else some (m.setProg pid (.discard { v with pc := .readCaptured }))
  | .pollStop =>
    some (m.setProg pid (.discard { v with pc := if m.userStop = true ∧ v.endCnt > 20 then .again0 else .poll }))
  | .readCaptured =>
    some (m.setProg pid (.discard { v with
      pc := .readLast, totalPackets := v.totalPackets + numCaptured (bucketMem m.mem v.cur) }))
  | .readLast => some (m.setProg pid (.discard { v with pc := .clear, driverStop := lastWord (bucketMem m.mem v.cur) }))
  | .clear =>
    some { m.setProg pid (.discard { v with
        pc := if v.driverStop = 0 then .again0 else .exited
        cur := if H.config.end1G < v.cur + 1 then H.config.start1G else v.cur + 1 }) with
      mem := m.mem.store (hdrAt v.cur 0) (List.replicate realSize 0) }
  | .exited => none

/-! ## The system -/

/-- The next access of a process. -/
def Host.execStep (H : Host) (m : Machine) (pid n time : Nat) : Option Machine :=
  match m.prog pid with
  | some (.todisk w) => H.todiskStep m pid w n time
  | some (.discard v) => H.discardStep m pid v
  | none => none

/-- A step: of the driver, the adapter or the user, the start or the end of a process, or an access of a process. -/
inductive MachineAct where
  | drv (a : Act)
  | startTodisk (pid id : Nat)
  | startDiscard (pid : Nat)
  | kill (pid : Nat)
  | exec (pid n time : Nat)

/-- The steps of the system. -/
inductive Host.Step (H : Host) : Machine → MachineAct → Machine → Prop where
  | drv {m : Machine} {cap : Capture} (a : Act) : H.config.Step 0 m.cap a cap →
      H.Step m (.drv a) { m with cap := cap, mem := H.config.driverStore m.cap.drv m.mem a }
  | startTodisk {m : Machine} (pid id : Nat) : m.prog pid = none → id < H.table.numWriters →
      H.Step m (.startTodisk pid id) (m.setProg pid (.todisk (H.startTodisk id)))
  | startDiscard {m : Machine} (pid : Nat) : m.prog pid = none →
      H.Step m (.startDiscard pid) (m.setProg pid (.discard H.startDiscard))
  | kill {m : Machine} (pid : Nat) : H.Step m (.kill pid) { m with prog := Function.update m.prog pid none }
  | exec {m m' : Machine} (pid n time : Nat) : H.execStep m pid n time = some m' → H.Step m (.exec pid n time) m'

/-- The host when `pbm_init_all` has been run, over any memory and any disks. -/
def Host.started (H : Host) (ram : Mem) (disk : Disk) : Machine :=
  let mem := H.config.initAll ram
  ⟨⟨H.config.startDriver (lensOf mem) mem, H.config.startVisitor 0, []⟩, mem, fun _ => none, disk, []⟩

/-- The system of a host. -/
def Host.machine (H : Host) : System Machine MachineAct where
  init := fun m => ∃ ram disk, m = H.started ram disk
  step := H.Step

end NicRecorder
