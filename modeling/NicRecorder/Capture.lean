import NicRecorder.Bucket
import NicRecorder.Lib.Runs

/-!
# The capture threads

`nlsim_pbm.c`: two kernel threads share a ring of receive descriptors with the adapter, and no lock.

* The refill thread (`nlsim_alloc_thread`) re-arms descriptors in ring order, row by row, and decides when a bucket is full.
* The adapter writes a packet to the address of a descriptor and then the descriptor itself, in ring order, for the descriptors
  before the tail that the refill thread last wrote to it.
* The other thread (`nlsim_process_thread`) polls the next descriptor, records the length of its packet in the bucket, and now
  and then publishes how far it has come.

Memory is sequentially consistent, so a thread is a program counter and its local variables, and a step is one access to shared
memory with the local work around it. Each value of `AllocPc` and `ProcPc` names the access that comes next. A step function
gives the state after the thread's next access, and none when the thread has ended.

`Hist` holds history variables: what the parties have done so far, counted from the start of the capture. No step reads them.
-/

namespace NicRecorder

open ByteMem Runs

/-! ## What the threads, the adapter and the programs share -/

/-- The memory that the driver shares with the programs: the two commands, the header and the lengths of every bucket (by bucket
number), and the packets (by physical address). -/
structure Board where
  userStart : Bool
  userStop : Bool
  captured : Nat → Nat
  last : Nat → Nat
  stalled : Nat → Nat
  lens : Nat → Nat → Nat
  ram : Mem

/-- A receive descriptor: the done bit and the length that the adapter writes back, and the address that it is armed with. The
first two lie in the word that the driver clears when it re-arms the descriptor (`hdr_addr`). -/
structure Desc where
  dd : Bool
  length : Nat
  pktAddr : Nat

/-- The next access of the refill thread. -/
inductive AllocPc where
  | waitStart | waitStop | setStart
  | checkStop | setStop | readClean
  | accumulate | setCaptured | setMaxRow | clearHdr | setAddr
  | endRow | writeTail
  | exited
  deriving DecidableEq, Repr

/-- The refill thread. -/
structure AllocThread where
  pc : AllocPc
  cur : Nat
  supRow : Nat
  supPartial : Nat
  count : Nat
  i : Nat
  glength : Nat → Nat

/-- The next access of the thread that records the packets. -/
inductive ProcPc where
  | waitStart | waitStop
  | outer | poll | load | store | publishClean | compareRow | resetRow
  | setCaptured | setLast
  | exited
  deriving DecidableEq, Repr

/-- The thread that records the packets; `len` is the length it has read from the descriptor. -/
structure ProcThread where
  pc : ProcPc
  cur : Nat
  curPartial : Nat
  rxDesc : Nat
  len : Nat

/-! ## History variables -/

/-- What happened last to a descriptor. -/
inductive SlotState where
  | fresh | armed | written | accepted
  deriving DecidableEq, Repr

/-- The place that a thread gives to a packet: the bucket, the row and the slot. -/
structure Place where
  cur : Nat
  row : Nat
  slot : Nat
  deriving DecidableEq, Repr

/-- The history of a capture. Packets and descriptors are counted over all laps of the ring and all buckets. -/
structure Hist where
  /-- descriptors re-armed, and those of them that the last write of the tail showed to the adapter -/
  armed : Nat
  tailed : Nat
  /-- packets that the adapter has written back, and the addresses it wrote them to -/
  sent : List (List UInt8)
  addrs : List Nat
  /-- packets recorded, the position last published, and the lengths recorded -/
  accepted : Nat
  cleaned : Nat
  recorded : List Nat
  /-- bucket switches of each thread, and the number of the first packet of each of its fills -/
  allocFill : Nat
  procFill : Nat
  allocStart : Nat → Nat
  procStart : Nat → Nat
  /-- the last event of each descriptor -/
  slot : Nat → SlotState
  /-- the places that each thread has given to the packets, in order -/
  allocLog : List Place
  procLog : List Place
  /-- the fill in which the refill thread last set `max_row`, and the fill that last set `num_captured` of each bucket -/
  maxRowFill : Nat
  pubFill : Nat → Nat

/-- The driver: its threads, the variables they share, the ring and the adapter, the memory shared with the programs, and
the history. -/
structure Driver where
  alloc : AllocThread
  proc : ProcThread
  nextToClean : Nat
  maxRow : Nat
  processStart : Bool
  processStop : Bool
  ring : Nat → Desc
  nicHead : Nat
  tail : Nat
  board : Board
  hist : Hist

/-! ## The refill thread -/

/-- `x & RX_SLOT_MASK`. -/
def Config.mask (c : Config) (x : Nat) : Nat := x % c.numRxSlots

/-- The first access of the loop body for one slot: in a later row the thread reads the length recorded in the row before. -/
def slotPc (supRow : Nat) : AllocPc := if supRow = 0 then .clearHdr else .accumulate

/-- `(sup_row + 1) << RX_SLOT_BITS`: the packets of a bucket whose last row is the current one. -/
def Config.rowEnd (c : Config) (supRow : Nat) : Nat := (supRow + 1) * c.numRxSlots % 2 ^ 32

/-- The descriptors that can be re-armed (line 93), cut at the end of the row (line 97). The ring is never full: `sup_partial`
is below `NUM_RX_SLOTS` here, so the subtraction does not go below zero. -/
def Config.refillCount (c : Config) (nextToClean supPartial : Nat) : Nat :=
  min (c.mask (c.numRxSlots + nextToClean - supPartial - 1)) (c.numRxSlots - supPartial)

/-- The length of a slot that is re-armed in a later row (line 102). -/
def Config.grown (c : Config) (d : Driver) : Nat :=
  (d.alloc.glength d.alloc.supPartial +
    d.board.lens d.alloc.cur ((d.alloc.supRow - 1) * c.numRxSlots + d.alloc.supPartial)) % 2 ^ 32

/-- The end of a row (lines 123 to 135): the next row, or the first row of the next bucket when `max_row` is set. -/
def Config.endRow (c : Config) (d : Driver) : Driver :=
  if d.alloc.supPartial = c.numRxSlots then
    if d.maxRow = 0 then
      { d with alloc := { d.alloc with
          pc := .writeTail, supPartial := 0, supRow := (d.alloc.supRow + 1) % 2 ^ 16 } }
    else
      { d with
        alloc := { d.alloc with pc := .writeTail, supPartial := 0, supRow := 0, cur := c.nextCur d.alloc.cur }
        hist := { d.hist with
          allocFill := d.hist.allocFill + 1
          allocStart := Function.update d.hist.allocStart (d.hist.allocFill + 1) d.hist.armed } }
  else { d with alloc := { d.alloc with pc := .writeTail } }

/-- The next access of `nlsim_alloc_thread`. -/
def Config.allocStep (c : Config) (d : Driver) : Option Driver :=
  match d.alloc.pc with
  | .waitStart => some { d with alloc := { d.alloc with pc := if d.board.userStart then .setStart else .waitStop } }
  | .waitStop => some { d with alloc := { d.alloc with pc := if d.board.userStop then .setStop else .waitStart } }
  | .setStart => some { d with processStart := true, alloc := { d.alloc with pc := .checkStop } }
  | .checkStop => some { d with alloc := { d.alloc with pc := if d.board.userStop then .setStop else .readClean } }
  | .setStop => some { d with processStop := true, alloc := { d.alloc with pc := .exited } }
  | .readClean =>
    let count := c.refillCount d.nextToClean d.alloc.supPartial
    if count = 0 then some { d with alloc := { d.alloc with pc := .checkStop } }
    else some { d with alloc := { d.alloc with pc := slotPc d.alloc.supRow, count := count, i := 0 } }
  | .accumulate =>
    let g := c.grown d
    some { d with alloc := { d.alloc with
      pc := if c.byteLimit < g then .setCaptured else .clearHdr
      glength := Function.update d.alloc.glength d.alloc.supPartial g } }
  | .setCaptured =>
    some { d with
      alloc := { d.alloc with pc := .setMaxRow }
      board := { d.board with captured := Function.update d.board.captured d.alloc.cur (c.rowEnd d.alloc.supRow) }
      hist := { d.hist with pubFill := Function.update d.hist.pubFill d.alloc.cur d.hist.allocFill } }
  | .setMaxRow =>
    some { d with
      alloc := { d.alloc with pc := .clearHdr }
      maxRow := c.rowEnd d.alloc.supRow
      hist := { d.hist with maxRowFill := d.hist.allocFill } }
  | .clearHdr =>
    some { d with
      alloc := { d.alloc with
        pc := .setAddr
        glength := if d.alloc.supRow = 0 then Function.update d.alloc.glength d.alloc.supPartial 0 else d.alloc.glength }
      ring := Function.update d.ring d.alloc.supPartial
        { d.ring d.alloc.supPartial with dd := false, length := 0 }
      hist := { d.hist with
        armed := d.hist.armed + 1
        slot := Function.update d.hist.slot d.alloc.supPartial .armed
        allocLog := d.hist.allocLog ++ [⟨d.alloc.cur, d.alloc.supRow, d.alloc.supPartial⟩] } }
  | .setAddr =>
    some { d with
      alloc := { d.alloc with
        pc := if d.alloc.i + 1 < d.alloc.count then slotPc d.alloc.supRow else .endRow
        supPartial := d.alloc.supPartial + 1
        i := d.alloc.i + 1 }
      ring := Function.update d.ring d.alloc.supPartial
        { d.ring d.alloc.supPartial with
          pktAddr := d.alloc.cur * 2 ^ 30 |||
            c.slotOffset d.alloc.supPartial (d.alloc.glength d.alloc.supPartial) } }
  | .endRow => some (c.endRow d)
  | .writeTail =>
    some { d with
      alloc := { d.alloc with pc := .checkStop }
      tail := d.alloc.supPartial
      hist := { d.hist with tailed := d.hist.armed } }
  | .exited => none

/-! ## The recording thread -/

/-- Store a length in a bucket. -/
def setLen (lens : Nat → Nat → Nat) (cur j len : Nat) : Nat → Nat → Nat :=
  Function.update lens cur (Function.update (lens cur) j len)

/-- The next access of `nlsim_process_thread`. The counters of packets and bytes for `ifconfig` are compiled out. -/
def Config.procStep (c : Config) (d : Driver) : Option Driver :=
  match d.proc.pc with
  | .waitStart => some { d with proc := { d.proc with pc := if d.processStart then .outer else .waitStop } }
  | .waitStop => some { d with proc := { d.proc with pc := if d.processStop then .exited else .waitStart } }
  | .outer => some { d with proc := { d.proc with pc := if d.processStop then .setCaptured else .poll } }
  | .poll =>
    if (d.ring d.proc.rxDesc).dd then
      some { d with
        proc := { d.proc with pc := .load }
        hist := { d.hist with slot := Function.update d.hist.slot d.proc.rxDesc .accepted } }
    else some { d with proc := { d.proc with pc := .outer } }
  | .load => some { d with proc := { d.proc with pc := .store, len := (d.ring d.proc.rxDesc).length } }
  | .store =>
    let next := (d.proc.curPartial + 1) % 2 ^ 32
    some { d with
      proc := { d.proc with
        pc := if next % 256 = 0 then .publishClean else .poll
        curPartial := next
        rxDesc := d.proc.rxDesc + 1 }
      board := { d.board with lens := setLen d.board.lens d.proc.cur d.proc.curPartial d.proc.len }
      hist := { d.hist with
        accepted := d.hist.accepted + 1
        recorded := d.hist.recorded ++ [d.proc.len]
        procLog := d.hist.procLog ++
          [⟨d.proc.cur, d.proc.curPartial / c.numRxSlots, d.proc.curPartial % c.numRxSlots⟩] } }
  | .publishClean =>
    some { d with
      proc := if c.mask d.proc.curPartial = 0
        then { d.proc with pc := .compareRow, rxDesc := d.proc.rxDesc - c.numRxSlots } else { d.proc with pc := .poll }
      nextToClean := d.proc.curPartial % 2 ^ 16
      hist := { d.hist with cleaned := d.hist.accepted } }
  | .compareRow =>
    some { d with proc := { d.proc with pc := if d.maxRow = d.proc.curPartial then .resetRow else .poll } }
  | .resetRow =>
    some { d with
      proc := { d.proc with pc := .poll, curPartial := 0, cur := c.nextCur d.proc.cur }
      maxRow := 0
      hist := { d.hist with
        procFill := d.hist.procFill + 1
        procStart := Function.update d.hist.procStart (d.hist.procFill + 1) d.hist.accepted } }
  | .setCaptured =>
    some { d with
      proc := { d.proc with pc := .setLast }
      board := { d.board with captured := Function.update d.board.captured d.proc.cur d.proc.curPartial }
      hist := { d.hist with pubFill := Function.update d.hist.pubFill d.proc.cur d.hist.procFill } }
  | .setLast =>
    some { d with
      proc := { d.proc with pc := .exited }
      board := { d.board with last := Function.update d.board.last d.proc.cur 1 } }
  | .exited => none

/-! ## The adapter -/

/-- The adapter delivers a packet: it has a descriptor as long as its head is not at the tail. The packet goes to the address
of the descriptor, the done bit and the length into it. -/
def Config.nicStep (c : Config) (p : List UInt8) (d : Driver) : Option Driver :=
  if d.nicHead = d.tail then none
  else
    some { d with
      ring := Function.update d.ring d.nicHead { d.ring d.nicHead with dd := true, length := p.length }
      nicHead := c.mask (d.nicHead + 1)
      board := { d.board with ram := d.board.ram.store (d.ring d.nicHead).pktAddr p }
      hist := { d.hist with
        sent := d.hist.sent ++ [p]
        addrs := d.hist.addrs ++ [(d.ring d.nicHead).pktAddr]
        slot := Function.update d.hist.slot d.nicHead .written } }

/-! ## The system -/

/-- A program that takes filled buckets: a writer, or `count_then_discard`. It goes to every `stride`-th bucket from its first
one on; `holds` is the fill that it has found in its bucket and is copying, `counted` are the fills it has taken. -/
structure Visitor where
  cur : Nat
  stride : Nat
  holds : Option Nat
  counted : List Nat

/-- The driver and the programs that take its buckets. `consumed` are the fills whose flag a program has reset. -/
structure Capture where
  drv : Driver
  visitor : Nat → Visitor
  consumed : List Nat

/-- The next step of a program at its bucket: it polls `num_captured` until it is set, and when it has taken the bucket it
resets it and goes on. (`again0`, the time-outs and the exits only decide whether it goes on.) -/
def Config.visitStep (c : Config) (k : Nat) (s : Capture) : Capture :=
  let v := s.visitor k
  match v.holds with
  | none =>
    if s.drv.board.captured v.cur = 0 then s
    else
      let n := s.drv.hist.pubFill v.cur
      { s with visitor := Function.update s.visitor k { v with holds := some n, counted := v.counted ++ [n] } }
  | some n =>
    { drv := { s.drv with board := { s.drv.board with
        captured := Function.update s.drv.board.captured v.cur 0 } }
      visitor := Function.update s.visitor k
        { v with holds := none, cur := c.start1G + (v.cur - c.start1G + v.stride) % c.numBuckets }
      consumed := n :: s.consumed }

/-- A step of the system: an access of a thread, a packet, a command of the user (or of a writer that detects a stall), or a
step of one of the programs. -/
inductive Act where
  | alloc | proc
  | nic (p : List UInt8)
  | userStart | userStop
  | visit (k : Nat)

/-- The packets that the adapter delivers: a whole frame without its checksum, no longer than a buffer. -/
def Deliverable (p : List UInt8) : Prop := minPacket ≤ p.length ∧ p.length ≤ rxBufSize

/-- The steps of the system, with a number of programs that take its buckets. -/
inductive Config.Step (c : Config) (writers : Nat) : Capture → Act → Capture → Prop where
  | alloc {s : Capture} {d : Driver} : c.allocStep s.drv = some d → c.Step writers s .alloc { s with drv := d }
  | proc {s : Capture} {d : Driver} : c.procStep s.drv = some d → c.Step writers s .proc { s with drv := d }
  | nic {s : Capture} {d : Driver} (p : List UInt8) : Deliverable p → c.nicStep p s.drv = some d →
      c.Step writers s (.nic p) { s with drv := d }
  | userStart {s : Capture} : c.Step writers s .userStart
      { s with drv := { s.drv with board := { s.drv.board with userStart := true } } }
  | userStop {s : Capture} : c.Step writers s .userStop
      { s with drv := { s.drv with board := { s.drv.board with userStop := true } } }
  | visit {s : Capture} (k : Nat) : k < writers → c.Step writers s (.visit k) (c.visitStep k s)

/-- The driver as `pbm_init_all` starts it, over any memory: the ring is zeroed, the header of every bucket is cleared, no command
is given. -/
def Config.startDriver (c : Config) (lens : Nat → Nat → Nat) (ram : Mem) : Driver where
  alloc := ⟨.waitStart, c.start1G, 0, 0, 0, 0, fun _ => 0⟩
  proc := ⟨.waitStart, c.start1G, 0, 0, 0⟩
  nextToClean := 0
  maxRow := 0
  processStart := false
  processStop := false
  ring := fun _ => ⟨false, 0, 0⟩
  nicHead := 0
  tail := 0
  board := ⟨false, false, fun _ => 0, fun _ => 0, fun _ => 0, lens, ram⟩
  hist := ⟨0, 0, [], [], 0, 0, [], 0, 0, fun _ => 0, fun _ => 0, fun _ => .fresh, [], [], 0, fun _ => 0⟩

/-- `W` writers, each at its first bucket; with one of them this is also `count_then_discard`. -/
def Config.startVisitor (c : Config) (writers k : Nat) : Visitor := ⟨c.start1G + k, writers, none, []⟩

/-- The capture of a configuration with a number of programs that take its buckets. -/
def Config.capture (c : Config) (writers : Nat) : System Capture Act where
  init := fun s => ∃ lens ram, s = ⟨c.startDriver lens ram, c.startVisitor writers, []⟩
  step := c.Step writers

end NicRecorder
