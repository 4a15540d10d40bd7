import NicRecorder.Machine
import NicRecorder.Lib.AddrSpace

/-!
# The mappings of the consumers

The programs `todisk` and `count_then_discard` reach the private memory through mappings of `/dev/nlsim`. The driver of the device
shows at an address the physical memory of the same address (`mmap_mem` in `map_nlsim.c`, line 225), so that a pointer is the
bucket's address only if `mmap` returns the address it is asked for. A process maps the shared page once; for every visit to a
bucket it maps the length block, and `todisk` then the packets, one block of 32 megabytes after the other.

The processes here are those of `Machine` with their mappings: the variables that hold pointers, and the calls between the accesses.
An access goes to a pointer. What a process finds in the memory, how much of a block a `write` copies at once, the time, and whether
a file can be opened are up to its surroundings.
-/

namespace NicRecorder

open ByteMem AddrSpace Runs

/-! ## Addresses -/

def pageSize : Nat := 4096

/-- The size of a block of packets that is mapped at once. -/
def dataBlockSize : Nat := 32 * const1M

/-- The private memory. -/
def Config.window (c : Config) : Region := ⟨c.start1G * 2 ^ 30, c.numBuckets * 2 ^ 30⟩

/-- The range of `mmap ((void *) GLOBAL_ADDR, 4096, ..)`. -/
def Config.globalRegion (c : Config) : Region := ⟨c.globalAddr, 4096⟩

/-- The range of `mmap ((void *) (((unsigned long) cur << 30) + 992 * CONST_1M), LEN_BLOCK_SIZE, ..)`. -/
def lensRegion (cur : Nat) : Region := ⟨cur * 2 ^ 30 + 992 * const1M, lenBlockSize⟩

/-- The range of `mmap ((void *) (((unsigned long) cur << 30) + i * 32 * CONST_1M), 32 * CONST_1M, ..)`. -/
def dataRegion (cur i : Nat) : Region := ⟨cur * 2 ^ 30 + i * 32 * const1M, 32 * const1M⟩

/-- The place of `gshare->data [USER_ISSUE_STOP]` in the shared page, behind the two words of the magic. -/
def userIssueStopOff : Nat := 9

/-- The shared page begins with `MAGIC1` and `MAGIC2`. -/
def magicBytes : List UInt8 := leBytes 4 0xDEADBABE ++ leBytes 4 0xFF00AABB

/-- `mmap_mem`: the physical address that a mapping from an address on shows. -/
def mmapMem (vmStart : Nat) : Nat := vmStart

/-- What is up to the surroundings of a process. -/
structure Choice where
  n : Nat
  time : Nat
  opens : Bool

/-- The calls of a process around its accesses; `failed` is a return because a file cannot be opened. -/
inductive Phase where
  | mapGlobal | waitMagic
  | access
  | mapLens | unmapRetry | unmapLens
  | mapData | unmapData
  | unmapGlobal | returned | failed
  deriving DecidableEq, Repr

/-! ## `todisk` -/

/-- A process of `todisk` with its pointers. `i` is the block of packets that is copied; `maps` are the ranges mapped since the head of
the main loop (history). -/
structure MappedTodisk where
  phase : Phase
  w : Todisk
  gshare : Nat
  bucketInfo : Nat
  dataPtr : Nat
  i : Nat
  maps : List Region

/-- A process of writer `id` when it has opened the device. -/
def Host.enterTodisk (H : Host) (id : Nat) : MappedTodisk := ⟨.mapGlobal, H.startTodisk id, 0, 0, 0, 0, []⟩

/-- How much of the block of packets has been copied. -/
def MappedTodisk.blockDone (p : MappedTodisk) : Nat := p.w.dataDone - p.i * dataBlockSize

/-- The next access, by pointer. -/
def MappedTodisk.access (p : MappedTodisk) (ch : Choice) : Op :=
  match p.w.pc with
  | .again0 | .pollStop => .load (p.gshare + userIssueStopOff) 1
  | .poll => .load (p.bucketInfo + numCapturedOff) 4
  | .raiseStop => .store (p.gshare + userIssueStopOff) [1]
  | .markStalled => .store (p.bucketInfo + stalledOff) (leBytes 4 1)
  | .openFile => .other
  | .stamp => .store (p.bucketInfo + userStampOff) (leBytes 8 ch.time)
  | .copyLens =>
    if p.w.lenDone < lenBlockSize then .load (p.bucketInfo + p.w.lenDone) (min ch.n (lenBlockSize - p.w.lenDone)) else .other
  | .readLast => .load (p.bucketInfo + lastOff) 4
  | .reset => .store (p.bucketInfo + numCapturedOff) (leBytes 4 0)
  | .copyData =>
    if p.i < 31 ∧ p.blockDone < dataBlockSize then .load (p.dataPtr + p.blockDone) (min ch.n (dataBlockSize - p.blockDone))
    else .other
  | .close | .exited => .other

/-- The next call or access. -/
def Host.todiskOp (H : Host) (p : MappedTodisk) (ch : Choice) : Op :=
  match p.phase with
  | .mapGlobal => .mmap H.config.globalRegion
  | .waitMagic => .load p.gshare 8
  | .access => p.access ch
  | .mapLens => .mmap (lensRegion p.w.cur)
  | .unmapRetry | .unmapLens => .munmap ⟨p.bucketInfo, lenBlockSize⟩
  | .mapData => .mmap (dataRegion p.w.cur p.i)
  | .unmapData => .munmap ⟨p.dataPtr, 32 * const1M⟩
  | .unmapGlobal => .munmap ⟨p.gshare, 4096⟩
  | .returned | .failed => .other

/-- The process after an access; `bytes` are what it has loaded. -/
def Host.todiskAccess (H : Host) (p : MappedTodisk) (ch : Choice) (bytes : List UInt8) : MappedTodisk :=
  match p.w.pc with
  | .again0 =>
    let w := p.w.again0 (decide (leNat bytes ≠ 0))
    { p with w := w, maps := [], phase := if w.pc = .exited then .unmapGlobal else .mapLens }
  | .poll =>
    if leNat bytes = 0 then { p with w := { p.w with pc := .pollStop, endCnt := p.w.endCnt + 1 } }
    else { p with w := { p.w with pc := if p.w.endCnt = 0 ∧ p.w.delayStop = 0 then .raiseStop else .openFile } }
  | .pollStop =>
    if leNat bytes ≠ 0 ∧ p.w.endCnt > 40 then { p with w := { p.w with pc := .again0 }, phase := .unmapRetry }
    else { p with w := { p.w with pc := .poll } }
  | .raiseStop => { p with w := { p.w with pc := .markStalled } }
  | .markStalled => { p with w := { p.w with pc := .openFile, stalled := true } }
  | .openFile =>
    if ch.opens then { p with w := { p.w with pc := .stamp, lenDone := 0, dataDone := 0 } } else { p with phase := .failed }
  | .stamp => { p with w := { p.w with pc := .copyLens } }
  | .copyLens =>
    if p.w.lenDone < lenBlockSize then { p with w := { p.w with lenDone := p.w.lenDone + bytes.length } }
    else { p with w := { p.w with pc := .readLast } }
  | .readLast => { p with w := { p.w with pc := .reset, last := leNat bytes } }
  | .reset => { p with w := { p.w with pc := .copyData }, phase := .unmapLens }
  | .copyData =>
    if p.i < 31 then
      if p.blockDone < dataBlockSize then { p with w := { p.w with dataDone := p.w.dataDone + bytes.length } }
      else { p with phase := .unmapData }
    else { p with w := { p.w with pc := .close } }
  | .close =>
    let w := H.endBlock p.w
    { p with w := w, phase := if w.pc = .exited then .unmapGlobal else .access }
  | .exited => p

/-- The files after a call or an access; `bytes` are what has been loaded. The file of the block is opened, or the bytes are written
to it. -/
def Host.todiskFiles (H : Host) (p : MappedTodisk) (ch : Choice) (bytes : List UInt8) (disk : Disk) : Disk :=
  match p.phase, p.w.pc with
  | .access, .openFile => if ch.opens then Function.update disk (H.fname p.w) (some ((disk (H.fname p.w)).getD [])) else disk
  | .access, .copyLens => if p.w.lenDone < lenBlockSize then writeAt disk (H.fname p.w) p.w.lenDone bytes else disk
  | .access, .copyData =>
    if p.i < 31 ∧ p.blockDone < dataBlockSize then writeAt disk (H.fname p.w) (lenBlockSize + p.w.dataDone) bytes else disk
  | _, _ => disk

/-- The process after a call or an access. -/
def Host.todiskNext (H : Host) (p : MappedTodisk) (ch : Choice) (reply : Reply) : MappedTodisk :=
  match p.phase with
  | .mapGlobal => { p with phase := .waitMagic, gshare := reply.addr }
  | .waitMagic => if reply.bytes = magicBytes then { p with phase := .access } else p
  | .access => H.todiskAccess p ch reply.bytes
  | .mapLens => { p with phase := .access, bucketInfo := reply.addr, maps := p.maps ++ [⟨reply.addr, lenBlockSize⟩] }
  | .unmapRetry => { p with phase := .access }
  | .unmapLens => { p with phase := .mapData, i := 0 }
  | .mapData => { p with phase := .access, dataPtr := reply.addr, maps := p.maps ++ [⟨reply.addr, 32 * const1M⟩] }
  | .unmapData => { p with phase := if p.i + 1 < 31 then .mapData else .access, i := p.i + 1 }
  | .unmapGlobal => { p with phase := .returned }
  | .returned | .failed => p

def Host.todiskClient (H : Host) : Client MappedTodisk Choice := ⟨H.todiskOp, H.todiskNext⟩

/-- The runs of writer `id`. -/
def Host.mappedTodisk (H : Host) (id : Nat) : System (World MappedTodisk) (AddrSpace.Act Choice) :=
  H.todiskClient.system mmapMem pageSize H.config.window (H.enterTodisk id)

/-! ## `count_then_discard` -/

/-- A process of `count_then_discard` with its pointers. -/
structure MappedDiscard where
  phase : Phase
  v : Discard
  gshare : Nat
  bucketInfo : Nat

def Host.enterDiscard (H : Host) : MappedDiscard := ⟨.mapGlobal, H.startDiscard, 0, 0⟩

/-- The next access, by pointer. -/
def MappedDiscard.access (p : MappedDiscard) : Op :=
  match p.v.pc with
  | .again0 | .pollStop => .load (p.gshare + userIssueStopOff) 1
  | .poll | .readCaptured => .load (p.bucketInfo + numCapturedOff) 4
  | .readLast => .load (p.bucketInfo + lastOff) 4
  | .clear => .store p.bucketInfo (List.replicate realSize 0)
  | .exited => .other

/-- The next call or access. There are no calls for packets. -/
def Host.discardOp (H : Host) (p : MappedDiscard) : Op :=
  match p.phase with
  | .mapGlobal => .mmap H.config.globalRegion
  | .waitMagic => .load p.gshare 8
  | .access => p.access
  | .mapLens => .mmap (lensRegion p.v.cur)
  | .unmapRetry | .unmapLens => .munmap ⟨p.bucketInfo, lenBlockSize⟩
  | .unmapGlobal => .munmap ⟨p.gshare, 4096⟩
  | .mapData | .unmapData | .returned | .failed => .other

/-- The process after an access. The number of the bucket is stepped with the clear of the header, as in `Machine`; the `munmap` that
stands between them does not read it. -/
def Host.discardAccess (H : Host) (p : MappedDiscard) (bytes : List UInt8) : MappedDiscard :=
  match p.v.pc with
  | .again0 =>
    let v := p.v.again0 (decide (leNat bytes ≠ 0))
    { p with v := v, phase := if v.pc = .exited then .unmapGlobal else .mapLens }
  | .poll =>
    if leNat bytes = 0 then { p with v := { p.v with pc := .pollStop, endCnt := p.v.endCnt + 1 } }
    else { p with v := { p.v with pc := .readCaptured } }
  | .pollStop =>
    if leNat bytes ≠ 0 ∧ p.v.endCnt > 20 then { p with v := { p.v with pc := .again0 }, phase := .unmapRetry }
    else { p with v := { p.v with pc := .poll } }
  | .readCaptured => { p with v := { p.v with pc := .readLast, totalPackets := p.v.totalPackets + leNat bytes } }
  | .readLast => { p with v := { p.v with pc := .clear, driverStop := leNat bytes } }
  | .clear =>
    { p with
      phase := .unmapLens
      v := { p.v with
        pc := if p.v.driverStop = 0 then .again0 else .exited
        cur := if H.config.end1G < p.v.cur + 1 then H.config.start1G else p.v.cur + 1 } }
  | .exited => p

/-- The process after a call or an access. -/
def Host.discardNext (H : Host) (p : MappedDiscard) (reply : Reply) : MappedDiscard :=
  match p.phase with
  | .mapGlobal => { p with phase := .waitMagic, gshare := reply.addr }
  | .waitMagic => if reply.bytes = magicBytes then { p with phase := .access } else p
  | .access => H.discardAccess p reply.bytes
  | .mapLens => { p with phase := .access, bucketInfo := reply.addr }
  | .unmapRetry => { p with phase := .access }
  | .unmapLens => { p with phase := if p.v.pc = .exited then .unmapGlobal else .access }
  | .unmapGlobal => { p with phase := .returned }
  | .mapData | .unmapData | .returned | .failed => p

def Host.discardClient (H : Host) : Client MappedDiscard Unit := ⟨fun p _ => H.discardOp p, fun p _ reply => H.discardNext p reply⟩

/-- The runs of `count_then_discard`. -/
def Host.mappedDiscard (H : Host) : System (World MappedDiscard) (AddrSpace.Act Unit) :=
  H.discardClient.system mmapMem pageSize H.config.window H.enterDiscard

/-! ## What the accesses name -/

/-- The physical address that the next access of `todisk` is meant for: of the shared page, of the header or the lengths of the bucket,
or of its packets. -/
def Host.todiskNamed (H : Host) (p : MappedTodisk) : Nat :=
  if p.phase = .waitMagic then H.config.globalAddr
  else
    match p.w.pc with
    | .again0 | .pollStop | .raiseStop => H.config.globalAddr + userIssueStopOff
    | .poll | .reset => hdrAt p.w.cur numCapturedOff
    | .markStalled => hdrAt p.w.cur stalledOff
    | .stamp => hdrAt p.w.cur userStampOff
    | .copyLens => hdrAt p.w.cur p.w.lenDone
    | .readLast => hdrAt p.w.cur lastOff
    | .copyData => p.w.cur * 2 ^ 30 + p.w.dataDone
    | .openFile | .close | .exited => 0

/-- The physical address that the next access of `count_then_discard` is meant for. -/
def Host.discardNamed (H : Host) (p : MappedDiscard) : Nat :=
  if p.phase = .waitMagic then H.config.globalAddr
  else
    match p.v.pc with
    | .again0 | .pollStop => H.config.globalAddr + userIssueStopOff
    | .poll | .readCaptured => hdrAt p.v.cur numCapturedOff
    | .readLast => hdrAt p.v.cur lastOff
    | .clear => hdrAt p.v.cur 0
    | .exited => 0

/-- The ranges that one visit to a bucket maps: the length block, and `k` blocks of packets. -/
def visitRegions (cur k : Nat) : List Region := lensRegion cur :: (List.range k).map (dataRegion cur)

end NicRecorder
