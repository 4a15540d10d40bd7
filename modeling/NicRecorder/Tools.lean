import NicRecorder.Bucket
import NicRecorder.Numbering
import NicRecorder.Lib.Loop
import NicRecorder.Lib.Pcap

/-!
# The extraction tools

`to_libpcap.c`, `block2libpcap.c` and `dump_packet.c`: each walks over the files of a recording, skips the files before the packet
that the user asks for, and hands the packets from there on to its `dump_one_packet`. The three have one main loop. They differ in
where it begins, and in what `dump_one_packet` does: two of them write a pcap file, the third shows the packets.

The mapping that the files are read to is the first bucket of the private memory; whatever it holds when a tool starts is a
parameter. The numbers that the user gives are natural numbers here: a tool refuses a negative one before it opens anything.
Transfers are whole, and the output file can be opened and written.
-/

namespace NicRecorder

open ByteMem

/-! ## The disks -/

/-- What the tools have of the table of writers. -/
structure Table where
  numWriters : Nat
  writerPath : Nat → List Char
  writers_pos : 0 < numWriters

/-- The files on the disks, by name; none where there is nothing to open. -/
abbrev Disk : Type := List Char → Option (List UInt8)

/-- A reader that begins with the file of block `b` (`block2libpcap.c`, line 236). -/
def Table.readerAt (T : Table) (b : Nat) : Reader := ⟨b % T.numWriters, b⟩

/-- The counters after a file has been opened. -/
def Table.nextFile (T : Table) (r : Reader) : Reader := ⟨(r.writerNum + 1) % T.numWriters, r.fileCount + 1⟩

/-- The file of block `f`, if there is one. -/
def Table.fileAt (T : Table) (disk : Disk) (f : Nat) : Option (List UInt8) :=
  disk (fileName (T.writerPath (f % T.numWriters)) f)

/-- `last` and `stalled` in the header of a bucket. -/
def lastWord (m : Mem) : Nat := m.load32 (lenBlockOff + lastOff)
def stalledWord (m : Mem) : Nat := m.load32 (lenBlockOff + stalledOff)

/-! ## The main loop -/

/-- A packet that is handed to `dump_one_packet`, with the packets before its file and the slots that the file's header names. -/
structure Handed where
  base : Nat
  numRxSlots : Nat
  packet : Emitted

/-- How the main loop of a tool ends: a file cannot be opened, the tool is killed by a division by zero, no packet was handed on, all
packets asked for were, or the file was the last one of the recording. -/
inductive Exit where
  | cannotOpen | killed | dumpError | done | stalled | normal
  deriving DecidableEq, Repr

/-- The variables of the main loop, the mapping, and the output of `dump_one_packet`. `held` are the files that are open; `opened`
are those that were opened so far (history). -/
structure Tool (σ : Type) where
  reader : Reader
  mapping : Mem
  offs : Nat
  start : Nat
  count : Nat
  sink : σ
  held : List Nat
  opened : List Nat

section Tools

variable {σ : Type} (c : Config) (T : Table) (disk : Disk) (put : σ → Handed → σ)

/-- The loop behind the reads of a file that has the packet asked for (lines 258 to 279 of `to_libpcap.c`): the file is closed, its
packets are handed on from the mapping, and the loop ends or goes on. `start` does not fall below zero: when the count is not used
up, the packets from `start` to the end of the file have been handed on. -/
def Config.extractFile (img : Mem) (slots : Nat) (s : Tool σ) : Tool σ × Option Exit :=
  let s := { s with mapping := img, held := s.held.tail }
  match c.dumpPacket img slots s.start s.count with
  | none => (s, some .killed)
  | some (packets, processed) =>
    let s := { s with sink := packets.foldl (fun out e => put out ⟨s.offs, slots, e⟩) s.sink }
    if processed = 0 then (s, some .dumpError)
    else if s.count = processed then (s, some .done)
    else
      let s := { s with
        offs := s.offs + numCaptured img
        start := s.start + processed - numCaptured img
        count := s.count - processed }
      if stalledWord img ≠ 0 then (s, some .stalled)
      else if lastWord img ≠ 0 then (s, some .normal)
      else (s, none)

/-- One pass of the main loop (lines 236 to 280): the next file is opened and its header read. A file that lies before the packet
asked for is skipped, and stays open; any other one is read as a whole. -/
def Config.pass (s : Tool σ) : Tool σ × Option Exit :=
  match disk (s.reader.fname T.writerPath) with
  | none => (s, some .cannotOpen)
  | some file =>
    let hdr := readHeader s.mapping file
    let img := readBlock s.mapping file
    let s := { s with
      reader := T.nextFile s.reader
      mapping := hdr
      held := s.reader.fileCount :: s.held
      opened := s.opened ++ [s.reader.fileCount] }
    if numCaptured hdr ≤ s.start then
      ({ s with offs := s.offs + numCaptured hdr, start := s.start - numCaptured hdr }, none)
    else c.extractFile put img (headerSlots hdr) s

/-- The main loop, for at most a number of passes. -/
def Config.mainLoop : Nat → Tool σ → Tool σ × Option Exit := Loop.run (c.pass T disk put)

/-- A pass of a process that has descriptors for `room` files of a recording: with as many of them held, `open` fails. -/
def Config.passWithin (room : Nat) (s : Tool σ) : Tool σ × Option Exit :=
  if room ≤ s.held.length then (s, some .cannotOpen) else c.pass T disk put s

def Config.mainLoopWithin (room : Nat) : Nat → Tool σ → Tool σ × Option Exit := Loop.run (c.passWithin T disk put room)

end Tools

/-! ## The three tools -/

/-- The header that is written to the output file. -/
def pcapHdr : Pcap.Header := ⟨0xa1b2c3d4, 2, 4, 0, 0, 0xffff, 1⟩

/-- The record of a packet: no time, and the same length twice. -/
def recordOf (data : List UInt8) : Pcap.Record := ⟨0, 0, data.length, data.length, data⟩

/-- `dump_one_packet` of `to_libpcap.c` and `block2libpcap.c`: the header of the record is written, then the bytes. -/
def writeOnePacket (f : OpenFile) (h : Handed) : OpenFile :=
  (f.write (recordOf h.packet.data).hdrBytes).write h.packet.data

/-- A packet as `dump_packet.c` shows it. -/
structure Shown where
  label : Nat
  len : Nat
  bytes : List UInt8
  deriving DecidableEq, Repr

/-- `dump_one_packet` of `dump_packet.c`: the label is made of the packets before the file and the place in the file. -/
def showOnePacket (out : List Shown) (h : Handed) : List Shown :=
  out ++ [⟨h.base + (h.packet.curRow * h.numRxSlots + h.packet.curPartial), h.packet.data.length, h.packet.data⟩]

/-- The output file of a tool when it enters its main loop, over a file that held `old` (no bytes when there was none): it is opened
without being truncated, and the header is written. -/
def pcapOpened (old : List UInt8) : OpenFile := (OpenFile.opened old).write pcapHdr.bytes

/-- A tool when it enters its main loop. -/
def Tool.entered {σ : Type} (r : Reader) (mapping : Mem) (start count : Nat) (sink : σ) : Tool σ :=
  ⟨r, mapping, 0, start, count, sink, [], []⟩

section Mains

variable (c : Config) (T : Table) (disk : Disk) (mapping : Mem)

/-- `to_libpcap start count`, over an output file that held `old`. -/
def Config.toLibpcap (old : List UInt8) (start count passes : Nat) : Tool OpenFile × Option Exit :=
  c.mainLoop T disk writeOnePacket passes (Tool.entered Reader.first mapping start count (pcapOpened old))

/-- `block2libpcap b count`, over an output file that held `old`. -/
def Config.block2libpcap (old : List UInt8) (b count passes : Nat) : Tool OpenFile × Option Exit :=
  c.mainLoop T disk writeOnePacket passes (Tool.entered (T.readerAt b) mapping 0 count (pcapOpened old))

/-- `dump_packet start count`. -/
def Config.dumpPacketTool (start count passes : Nat) : Tool (List Shown) × Option Exit :=
  c.mainLoop T disk showOnePacket passes (Tool.entered Reader.first mapping start count [])

/-! The same with descriptors for `room` files. Five are in use when the main loop of `to_libpcap` or `block2libpcap` is entered, the
standard ones, the device and the output file, and four in `dump_packet`. -/

def Config.toLibpcapWithin (old : List UInt8) (start count room passes : Nat) : Tool OpenFile × Option Exit :=
  c.mainLoopWithin T disk writeOnePacket room passes (Tool.entered Reader.first mapping start count (pcapOpened old))

def Config.block2libpcapWithin (old : List UInt8) (b count room passes : Nat) : Tool OpenFile × Option Exit :=
  c.mainLoopWithin T disk writeOnePacket room passes (Tool.entered (T.readerAt b) mapping 0 count (pcapOpened old))

def Config.dumpPacketToolWithin (start count room passes : Nat) : Tool (List Shown) × Option Exit :=
  c.mainLoopWithin T disk showOnePacket room passes (Tool.entered Reader.first mapping start count [])

end Mains

end NicRecorder
