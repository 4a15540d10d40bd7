import NicRecorder.Config
import NicRecorder.Lib.File

/-!
# A bucket, from the ring to the file and back

A bucket is one gigabyte. Its first 992 megabytes hold packets, one run of packets for each slot of the ring; its last 32 hold
the length block, `bucket_info_struct`: a header of 8192 bytes and the lengths, row by row. The last page of the length block
is never copied (in the first bucket it is the page shared with the programs).

* `receive` is what the driver does with one packet of a bucket: the refill thread places it behind the earlier packets of
  its slot (`nlsim_alloc_thread`, lines 100 to 121), the adapter writes it there, and the other thread records its length
  (`nlsim_process_thread`, line 185). `driverImage` is the bucket after a list of packets.
* `todiskFile` is the file a writer makes of a bucket (`todisk.c`, lines 211 to 242).
* `readHeader` and `readBlock` are how the extraction tools read that file into their mapping, and `dumpPacket` is
  their `dump_packet`; `to_libpcap.c` and `block2libpcap.c` have it letter for letter.
-/

namespace NicRecorder

open ByteMem

/-! ## The layout -/

/-- The length block of a bucket lies behind its packets. -/
def lenBlockOff : Nat := 992 * const1M

/-- `bucket_info_struct`: where the fields of the header lie in the length block, and where the lengths start. -/
def userStampOff : Nat := 0
def numCapturedOff : Nat := 64
def lastOff : Nat := 68
def stalledOff : Nat := 72
def numRxSlotsOff : Nat := 76
def lenOff : Nat := 8192

/-- The place of `len [row][slot]` in a bucket. -/
def Config.lenAt (c : Config) (row slot : Nat) : Nat := lenBlockOff + lenOff + 2 * (row * c.numRxSlots + slot)

def numCaptured (m : Mem) : Nat := m.load32 (lenBlockOff + numCapturedOff)
def headerSlots (m : Mem) : Nat := m.load32 (lenBlockOff + numRxSlotsOff)

/-! ## The driver -/

/-- The bucket being filled, and the bytes that each slot holds so far, as the refill thread keeps them. -/
structure Filling where
  mem : Mem
  glength : Nat → Nat

/-- The offset in its bucket at which the refill thread places the next packet of a slot. -/
def Config.slotOffset (c : Config) (slot glength : Nat) : Nat := c.bytesPerSlot * slot + glength

/-- What the refill thread makes of the length of a slot when it re-arms it: in row 0 the slot is empty, in a later row it
has grown by the length recorded in the row before. -/
def Config.rearmLength (c : Config) (f : Filling) (row slot : Nat) : Nat :=
  if row = 0 then 0 else (f.glength slot + f.mem.load16 (c.lenAt (row - 1) slot)) % 2 ^ 32

/-- Packet `j` of a bucket: its slot is re-armed, the adapter writes the packet, its length is recorded. -/
def Config.receive (c : Config) (f : Filling) (j : Nat) (p : List UInt8) : Filling :=
  let row := j / c.numRxSlots
  let slot := j % c.numRxSlots
  let g := c.rearmLength f row slot
  { mem := (f.mem.store (c.slotOffset slot g) p).store16 (c.lenAt row slot) p.length
    glength := Function.update f.glength slot g }

/-- The packets of a bucket from packet `j` on. -/
def Config.receiveAll (c : Config) : Nat → Filling → List (List UInt8) → Filling
  | _, f, [] => f
  | j, f, p :: ps => c.receiveAll (j + 1) (c.receive f j p) ps

/-- The bucket after the driver has received the packets of one fill, over whatever the memory and the lengths of the slots
held before. `pbm_init_all` has stored the number of slots; the number of packets is stored when the bucket is closed. -/
def Config.driverImage (c : Config) (f : Filling) (pkts : List (List UInt8)) : Mem :=
  let f := { f with mem := f.mem.store32 (lenBlockOff + numRxSlotsOff) c.numRxSlots }
  (c.receiveAll 0 f pkts).mem.store32 (lenBlockOff + numCapturedOff) pkts.length

/-- The bytes in a slot before the packet of row `row`, when packet `j` has length `lens j`. -/
def slotBytes (slots : Nat) (lens : Nat → Nat) (slot : Nat) : Nat → Nat
  | 0 => 0
  | row + 1 => slotBytes slots lens slot row + lens (row * slots + slot)

/-- The lengths of a list of packets; zero behind its end. -/
def lengthOf (pkts : List (List UInt8)) (j : Nat) : Nat := (pkts.getD j []).length

/-- The packets fit one bucket under the closing rule: once a slot is filled beyond the limit when row `k` is armed, row `k`
is the last one. (For the first such `k` this says the same as for every one.) -/
def Config.Fits (c : Config) (pkts : List (List UInt8)) : Prop :=
  ∀ k slot, slot < c.numRxSlots → c.byteLimit < slotBytes c.numRxSlots (lengthOf pkts) slot k →
    pkts.length ≤ (k + 1) * c.numRxSlots

/-! ## The writer -/

/-- The file that `todisk` makes of a bucket, over a file that held `old`: the time is stored in the header, then the length
block is written without its last page, then the packets in 31 blocks of 32 megabytes. -/
def todiskFile (old : List UInt8) (time : Nat) (bucket : Mem) : List UInt8 :=
  let bucket := bucket.store (lenBlockOff + userStampOff) (leBytes 8 time)
  let f := (OpenFile.opened old).write (bucket.load lenBlockOff lenBlockSize)
  ((List.range 31).foldl (fun f i => f.write (bucket.load (i * (32 * const1M)) (32 * const1M))) f).content

/-! ## The extraction tools -/

/-- The first read of a file: one kilobyte, to the place of the length block in the mapping. -/
def readHeader (mapping : Mem) (file : List UInt8) : Mem :=
  mapping.store lenBlockOff ((OpenFile.opened file).read const1K).1

/-- The reads of a file that is extracted: after the first kilobyte the tool returns to the start of the file, reads the
length block to its place and the packets to the start of the mapping. -/
def readBlock (mapping : Mem) (file : List UInt8) : Mem :=
  let f := ((OpenFile.opened file).read const1K).2.rewind
  let lens := f.read lenBlockSize
  let data := lens.2.read (992 * const1M)
  ((readHeader mapping file).store lenBlockOff lens.1).store 0 data.1

/-- A packet handed to `dump_one_packet`, with the row and the slot it was found at. -/
structure Emitted where
  curRow : Nat
  curPartial : Nat
  data : List UInt8

/-- `local_len [j] += len [row][j]` for the first `cols` slots of a row. -/
def Config.addRow (c : Config) (img : Mem) (row cols : Nat) (localLen : Nat → Nat) : Nat → Nat :=
  (List.range cols).foldl (fun l j => Function.update l j ((l j + img.load16 (c.lenAt row j)) % 2 ^ 32)) localLen

/-- The lengths of the slots before packet `(curRow, curPartial)`: the whole rows, then the part of the current row. -/
def Config.skipRows (c : Config) (img : Mem) (numRxSlots curRow curPartial : Nat) : Nat → Nat :=
  c.addRow img curRow curPartial ((List.range curRow).foldl (fun l i => c.addRow img i numRxSlots l) fun _ => 0)

/-- The loop of `dump_packet`, which ends at the packet behind the last one or when `count` is used up: the packets handed on,
and how many they are. -/
def Config.dumpLoop (c : Config) (img : Mem) (numRxSlots maxRow maxPartial : Nat) :
    Nat → Nat → Nat → (Nat → Nat) → List Emitted × Nat
  | 0, _, _, _ => ([], 0)
  | count + 1, curRow, curPartial, localLen =>
    if curRow = maxRow ∧ curPartial = maxPartial then ([], 0)
    else
      let len := img.load16 (c.lenAt curRow curPartial)
      let e : Emitted := ⟨curRow, curPartial, img.load (240 * 1024 * curPartial + localLen curPartial) len⟩
      let localLen := Function.update localLen curPartial ((localLen curPartial + len) % 2 ^ 32)
      let rest :=
        if curPartial + 1 = numRxSlots then c.dumpLoop img numRxSlots maxRow maxPartial count (curRow + 1) 0 localLen
        else c.dumpLoop img numRxSlots maxRow maxPartial count curRow (curPartial + 1) localLen
      (e :: rest.1, rest.2 + 1)

/-- `dump_packet`: the packets it hands on and `*processed`. It divides by the number of slots that the file's header names;
with none there the program is killed. -/
def Config.dumpPacket (c : Config) (img : Mem) (numRxSlots start count : Nat) : Option (List Emitted × Nat) :=
  if numRxSlots = 0 then none
  else
    let maxRow := numCaptured img / numRxSlots
    let maxPartial := numCaptured img % numRxSlots
    let curRow := start / numRxSlots
    let curPartial := start % numRxSlots
    some (c.dumpLoop img numRxSlots maxRow maxPartial count curRow curPartial
      (c.skipRows img numRxSlots curRow curPartial))

end NicRecorder
