import NicRecorder.Counting
import NicRecorder.Machine

/-!
# The tools on the memory of the recorder

The tools that read a recording have no memory of their own for it. `to_libpcap.c`, `block2libpcap.c`, `dump_packet.c`, `count_recorded.c`
and `block_info.c` map the first bucket of the private memory, and read the files to it: the header, and the extraction tools the lengths
and the packets as well. It is the memory that the driver fills and that the writers wait at.

`Tools` and `Counting` have each tool as a program that is alone with its mapping. Here any number of them are processes beside the driver
and the programs of `Machine`. A step of a tool is a call, `open` or a `read` to the mapping; the loads between two calls are one step with
what the tool does with them. A process has descriptors for the files that it opens.
-/

namespace NicRecorder

open ByteMem Runs

/-! ## The mapping -/

/-- The gigabyte that a tool maps, from its first byte on. Behind it there is nothing. -/
def Config.mappedBucket (c : Config) (m : Mem) : Mem := fun x => if x < 2 ^ 30 then m (c.start1G * 2 ^ 30 + x) else 0

/-! ## The processes -/

/-- What an extraction tool puts out: a pcap file, or packets that are shown. -/
inductive ToolOutput where
  | pcap (f : OpenFile)
  | text (shown : List Shown)

/-- `dump_one_packet` of the extraction tools. -/
def ToolOutput.put : ToolOutput → Handed → ToolOutput
  | .pcap f, h => .pcap (writeOnePacket f h)
  | .text shown, h => .text (showOnePacket shown h)

/-- The variables of a tool. The extraction tools have `num_rx_slots` apart from those of their main loop. The mapping that is among the
variables in `Tools` and `Counting` is not used here. -/
inductive Job where
  | extract (vars : Tool ToolOutput) (numRxSlots : Nat)
  | count (vars : Counter)
  | info (block : Nat) (printed : Option (BlockReport × List Exit))

/-- The next call of a tool, or the loads behind one. -/
inductive ToolPc where
  | openFile | readHeader | look
  | readLens | readData | extract
  | ended
  deriving DecidableEq, Repr

/-- A process of a tool: the file that is open, with its position, and how the main loop has ended. -/
structure ToolProcess where
  pc : ToolPc
  fname : List Char
  pos : Nat
  job : Job
  exit : Option Exit

section Steps

variable (c : Config) (T : Table) (disk : Disk)

/-- The counters that name the next file. -/
def Job.reader : Job → Reader
  | .extract v _ => v.reader
  | .count v => v.reader
  | .info b _ => T.readerAt b

/-- The variables behind `open`. -/
def Job.opened : Job → Job
  | .extract v n => .extract { v with
      reader := T.nextFile v.reader
      held := v.reader.fileCount :: v.held
      opened := v.opened ++ [v.reader.fileCount] } n
  | .count v => .count { v with held := v.reader.fileCount :: v.held }
  | .info b printed => .info b printed

/-- What a tool does with the header that is in its mapping: an extraction tool goes on to the next file or reads the rest of this one, the
counting tools print what they have found and close the file. -/
def Job.look (hdr : Mem) : Job → ToolPc × Job × Option Exit
  | .extract v _ =>
    if numCaptured hdr ≤ v.start then
      (.openFile, .extract { v with offs := v.offs + numCaptured hdr, start := v.start - numCaptured hdr } (headerSlots hdr), none)
    else (.readLens, .extract v (headerSlots hdr), none)
  | .count v =>
    let total := v.totalPackets + numCaptured hdr
    let v := { v with
      reader := T.nextFile v.reader
      totalPackets := total
      held := v.held.tail
      lines := v.lines ++ [(reportOf v.reader.fileCount hdr, total)] }
    if stalledWord hdr ≠ 0 then (.ended, .count v, some .stalled)
    else if lastWord hdr ≠ 0 then (.ended, .count v, some .normal)
    else (.openFile, .count v, none)
  | .info b _ =>
    (.ended, .info b (some (reportOf b hdr, (if stalledWord hdr ≠ 0 then [.stalled] else []) ++
      if lastWord hdr ≠ 0 then [.normal] else [])), none)

/-- What an extraction tool does with a file that is in its mapping as a whole. -/
def Config.extractJob (img : Mem) : Job → ToolPc × Job × Option Exit
  | .extract v n =>
    match c.extractFile ToolOutput.put img n v with
    | (v, none) => (.openFile, .extract v n, none)
    | (v, some x) => (.ended, .extract v n, some x)
  | job => (.ended, job, none)

/-- The file that a process has open. -/
def ToolProcess.file (p : ToolProcess) : OpenFile := ⟨(disk p.fname).getD [], p.pos⟩

/-- The next step of a process, with what is in its mapping: the process behind it, and the bytes that go to the mapping, with their place
(none if nothing is read). -/
def Config.toolStep (img : Mem) (p : ToolProcess) : Option (ToolProcess × Nat × List UInt8) :=
  match p.pc with
  | .openFile =>
    match disk ((p.job.reader T).fname T.writerPath) with
    | none => some ({ p with pc := .ended, exit := some .cannotOpen }, 0, [])
    | some _ =>
      some ({ p with pc := .readHeader, fname := (p.job.reader T).fname T.writerPath, pos := 0, job := p.job.opened T }, 0, [])
  | .readHeader =>
    let r := (p.file disk).read const1K
    some ({ p with pc := .look, pos := r.2.pos }, lenBlockOff, r.1)
  | .look =>
    let r := p.job.look T img
    some ({ p with pc := r.1, pos := 0, job := r.2.1, exit := r.2.2 }, 0, [])
  | .readLens =>
    let r := (p.file disk).read lenBlockSize
    some ({ p with pc := .readData, pos := r.2.pos }, lenBlockOff, r.1)
  | .readData =>
    let r := (p.file disk).read (992 * const1M)
    some ({ p with pc := .extract, pos := r.2.pos }, 0, r.1)
  | .extract =>
    let r := c.extractJob img p.job
    some ({ p with pc := r.1, job := r.2.1, exit := r.2.2 }, 0, [])
  | .ended => none

end Steps

/-! ## The commands -/

/-- A tool with its arguments; `old` is what the output file held before. -/
inductive ToolCommand where
  | toLibpcap (old : List UInt8) (start count : Nat)
  | block2libpcap (old : List UInt8) (b count : Nat)
  | dumpPacket (start count : Nat)
  | countRecorded
  | blockInfo (b : Nat)

/-- The variables of a tool when it enters its main loop. -/
def ToolCommand.job (T : Table) : ToolCommand → Job
  | .toLibpcap old start count => .extract (Tool.entered Reader.first (fun _ => 0) start count (.pcap (pcapOpened old))) 0
  | .block2libpcap old b count => .extract (Tool.entered (T.readerAt b) (fun _ => 0) 0 count (.pcap (pcapOpened old))) 0
  | .dumpPacket start count => .extract (Tool.entered Reader.first (fun _ => 0) start count (.text [])) 0
  | .countRecorded => .count ⟨Reader.first, fun _ => 0, 0, [], []⟩
  | .blockInfo b => .info b none

/-- A process that enters its main loop. -/
def ToolCommand.process (T : Table) (cmd : ToolCommand) : ToolProcess := ⟨.openFile, [], 0, cmd.job T, none⟩

/-- What a tool leaves to its user. -/
inductive ToolResult where
  | pcap (content : List UInt8) (x : Exit)
  | text (shown : List Shown) (x : Exit)
  | lines (lines : List (BlockReport × Nat)) (x : Exit)
  | info (printed : Option (BlockReport × List Exit))

/-- What a process that has ended leaves. -/
def ToolProcess.result (p : ToolProcess) : Option ToolResult :=
  match p.job, p.exit with
  | .extract v _, some x =>
    match v.sink with
    | .pcap f => some (.pcap f.content x)
    | .text shown => some (.text shown x)
  | .count v, some x => some (.lines v.lines x)
  | .info _ printed, _ => some (.info printed)
  | _, none => none

/-- What the tool leaves that is alone with a mapping, when it ends within a number of passes. -/
def ToolCommand.alone (c : Config) (T : Table) (disk : Disk) (mapping : Mem) (passes : Nat) : ToolCommand → Option ToolResult
  | .toLibpcap old start count =>
    let r := c.toLibpcap T disk mapping old start count passes
    r.2.map (.pcap r.1.sink.content)
  | .block2libpcap old b count =>
    let r := c.block2libpcap T disk mapping old b count passes
    r.2.map (.pcap r.1.sink.content)
  | .dumpPacket start count =>
    let r := c.dumpPacketTool T disk mapping start count passes
    r.2.map (.text r.1.sink)
  | .countRecorded =>
    let r := T.countRecorded disk mapping 1 passes
    r.2.map (.lines r.1.lines)
  | .blockInfo b => some (.info (T.blockInfo disk mapping b))

/-! ## The system -/

/-- The machine with the tools. -/
structure Shared where
  mach : Machine
  tool : Nat → Option ToolProcess

/-- The machine with another memory. -/
def Machine.withMem (m : Machine) (mem : Mem) : Machine := { m with mem := mem }

/-- A step: of the machine, the start of a tool, a step of one, or its end by a signal. -/
inductive SharedAct where
  | mach (a : MachineAct)
  | begin (pid : Nat) (cmd : ToolCommand)
  | tool (pid : Nat)
  | kill (pid : Nat)

/-- The steps of the system. -/
inductive Host.SharedStep (H : Host) : Shared → SharedAct → Shared → Prop where
  | mach {s : Shared} {m : Machine} (a : MachineAct) : H.Step s.mach a m → H.SharedStep s (.mach a) { s with mach := m }
  | begin {s : Shared} (pid : Nat) (cmd : ToolCommand) : s.tool pid = none →
      H.SharedStep s (.begin pid cmd) { s with tool := Function.update s.tool pid (some (cmd.process H.table)) }
  | tool {s : Shared} {p q : ToolProcess} {off : Nat} {bs : List UInt8} (pid : Nat) : s.tool pid = some p →
      H.config.toolStep H.table s.mach.disk (H.config.mappedBucket s.mach.mem) p = some (q, off, bs) →
      H.SharedStep s (.tool pid)
        ⟨s.mach.withMem (s.mach.mem.store (H.config.start1G * 2 ^ 30 + off) bs), Function.update s.tool pid (some q)⟩
  | kill {s : Shared} (pid : Nat) : H.SharedStep s (.kill pid) { s with tool := Function.update s.tool pid none }

/-- The system of a host with its tools. -/
def Host.shared (H : Host) : System Shared SharedAct where
  init := fun s => H.machine.init s.mach ∧ s.tool = fun _ => none
  step := H.SharedStep

end NicRecorder
