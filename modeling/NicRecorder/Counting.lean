import NicRecorder.Tools

/-!
# The tools that count

`count_recorded.c` walks over the files of a recording from the first one on and reads the first kilobyte of each of them;
`block_info.c` does so for the file of one block. They print the number of the block, the time that the writer put to its header and the
number of its packets; `count_recorded` prints the sum as well, and closes a file before it opens the next one. The numbers of a line are
modelled, not its text.
-/

namespace NicRecorder

open ByteMem

/-- What is printed of a block. -/
structure BlockReport where
  block : Nat
  stamp : Nat
  packets : Nat
  deriving DecidableEq, Repr

/-- `user_stamp` in the header of a bucket, read as a `time_t`. -/
def stampWord (m : Mem) : Nat := leNat (m.load (lenBlockOff + userStampOff) 8)

/-- The lines on a block whose header is in the mapping. -/
def reportOf (block : Nat) (m : Mem) : BlockReport := ⟨block, stampWord m, numCaptured m⟩

/-- The variables of `main` of `count_recorded`, the mapping, the files that are open, and what was printed: the lines on a block, each
with the sum so far. -/
structure Counter where
  reader : Reader
  mapping : Mem
  totalPackets : Nat
  held : List Nat
  lines : List (BlockReport × Nat)

section Counting

variable (T : Table) (disk : Disk)

/-- One pass of the main loop of `count_recorded` (lines 137 to 161), in a process that has descriptors for `room` files. -/
def Table.countPass (room : Nat) (s : Counter) : Counter × Option Exit :=
  if room ≤ s.held.length then (s, some .cannotOpen)
  else
    match disk (s.reader.fname T.writerPath) with
    | none => (s, some .cannotOpen)
    | some file =>
      let s := { s with held := s.reader.fileCount :: s.held }
      let hdr := readHeader s.mapping file
      let total := s.totalPackets + numCaptured hdr
      let s := { s with
        reader := T.nextFile s.reader
        mapping := hdr
        totalPackets := total
        lines := s.lines ++ [(reportOf s.reader.fileCount hdr, total)] }
      let s := { s with held := s.held.tail }
      if stalledWord hdr ≠ 0 then (s, some .stalled)
      else if lastWord hdr ≠ 0 then (s, some .normal)
      else (s, none)

/-- `count_recorded`, for at most a number of passes. -/
def Table.countRecorded (mapping : Mem) (room passes : Nat) : Counter × Option Exit :=
  Loop.run (T.countPass disk room) passes ⟨Reader.first, mapping, 0, [], []⟩

/-- `block_info b`: the lines on the block, and the lines on the end of the recording, `stalled` and `normal`; none if the file cannot be
opened. -/
def Table.blockInfo (mapping : Mem) (b : Nat) : Option (BlockReport × List Exit) :=
  match disk ((T.readerAt b).fname T.writerPath) with
  | none => none
  | some file =>
    let hdr := readHeader mapping file
    some (reportOf b hdr, (if stalledWord hdr ≠ 0 then [.stalled] else []) ++ if lastWord hdr ≠ 0 then [.normal] else [])

end Counting

end NicRecorder
