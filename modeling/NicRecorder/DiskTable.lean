import NicRecorder.Tools
import NicRecorder.Lib.Scan

/-!
# The table of writers

`read_disk_table` reads the file `writer_info.cfg`: the number of writers and of blocks in the first line, and the directory of one
writer in each of the lines behind it. Every program except `count_then_discard` has a copy of it; the copies differ in the width of
one number in a message of `todisk`. The function returns the table in the variables of the program, or prints a message and exits.

A store outside of `path` or `writer_path` ends the model's run. Arithmetic is that of a 32-bit `int`.
-/

namespace NicRecorder

open Scan

/-- `sizeof (path)`, and of every `writer_path [i]`. -/
def pathSize : Nat := 1024

/-- The size of a line that is passed to `fgets`. -/
def lineSize : Nat := 1199

/-- `sscanf (buffer, "%d %d", &num_writers, &max_blocks)`; none unless it returns 2. -/
def scanCounts (buffer : List UInt8) : Option (Int × Int) :=
  (scanInt (cstr buffer)).bind fun r => (scanInt r.2).map fun r' => (r.1, r'.1)

/-- `sscanf (buffer, "%d %s", &num, path)`; none unless it returns 2. -/
def scanEntry (buffer : List UInt8) : Option (Int × List UInt8) :=
  (scanInt (cstr buffer)).bind fun r => (scanWord r.2).map fun w => (r.1, w.1)

/-- How `read_disk_table` ends without a table. -/
inductive TableEnd where
  /-- "Failed to open writer_info.cfg" -/
  | noFile
  /-- "Read error, expect <num_writers> <max_blocks>", without a line or without the numbers -/
  | noCounts
  /-- "<num_writers>=%d too many or <START_1G..END_1G>=%d too few" -/
  | tooMany (numWriters : Int) (numBuckets : Nat)
  /-- "<max_blocks> must be positive" -/
  | noBlocks
  /-- "Read error, expect path for writer#%d", in `todisk` "writer#%3d" -/
  | noPath (i : Nat)
  /-- "Expect <writer_num> <path of writer> for num=%d" -/
  | noEntry (i : Nat)
  /-- "<writer_num> is not in order, expect %d  found %d" -/
  | notInOrder (i : Nat) (num : Int)
  /-- "Invalid path '%s' for writer_num=%d" -/
  | badPath (path : List UInt8) (num : Int)
  /-- a store behind the end of `path` -/
  | pathStrays
  /-- a store behind the end of `writer_path` -/
  | tableStrays
  deriving DecidableEq, Repr

/-- `num_writers`, `max_blocks` and `writer_path`. -/
structure DiskTable where
  numWriters : Int
  maxBlocks : Int
  writerPath : Nat → List UInt8

/-- One pass of the loop over the writers: the path, and the rest of the file. -/
def readWriter (i : Nat) (text : List UInt8) : Except TableEnd (List UInt8 × List UInt8) :=
  match fgets lineSize text with
  | none => .error (.noPath i)
  | some (line, rest) =>
    match scanEntry line with
    | none => .error (.noEntry i)
    | some (num, path) =>
      -- the word and its zero byte are in `path` before anything is tested
      if pathSize < path.length + 1 then .error .pathStrays
      else if (i : Int) ≠ num then .error (.notInOrder i num)
      else if path.length = 0 ∨ 1023 < path.length then .error (.badPath path num)
      else if maxWriters ≤ i then .error .tableStrays
      else .ok (path, rest)

/-- The loop over the writers, `k` of them from writer `i` on. -/
def readWriters : Nat → Nat → List UInt8 → (Nat → List UInt8) → Except TableEnd (Nat → List UInt8)
  | 0, _, _, writerPath => .ok writerPath
  | k + 1, i, text, writerPath =>
    match readWriter i text with
    | .error e => .error e
    | .ok (path, rest) => readWriters k (i + 1) rest (Function.update writerPath i path)

/-- `read_disk_table`, with the file `writer_info.cfg` if there is one. -/
def Config.readDiskTable (c : Config) : Option (List UInt8) → Except TableEnd DiskTable
  | none => .error .noFile
  | some text =>
    match fgets lineSize text with
    | none => .error .noCounts
    | some (line, rest) =>
      match scanCounts line with
      | none => .error .noCounts
      | some (numWriters, maxBlocks) =>
        if (c.numBuckets : Int) < wrap32 (numWriters + 2) then .error (.tooMany numWriters c.numBuckets)
        else if maxBlocks ≤ 0 then .error .noBlocks
        else
          match readWriters numWriters.toNat 0 rest fun _ => [] with
          | .error e => .error e
          | .ok writerPath => .ok ⟨numWriters, maxBlocks, writerPath⟩

/-! ## What the programs do with the table -/

/-- `a % b` of C, where it is defined. -/
def cMod (a b : Int) : Option Int := if b = 0 then none else some (Int.tmod a b)

/-- `writer_num = file_count % num_writers`. -/
def DiskTable.firstWriter (t : DiskTable) (fileCount : Int) : Option Int := cMod fileCount t.numWriters

/-- `writer_num = (writer_num + 1) % num_writers`. -/
def DiskTable.nextWriter (t : DiskTable) (writerNum : Int) : Option Int := cMod (writerNum + 1) t.numWriters

/-- The number of the writer after `n` files of a reader. -/
def DiskTable.writerAfter (t : DiskTable) (first : Option Int) : Nat → Option Int
  | 0 => first
  | n + 1 => (t.writerAfter first n).bind t.nextWriter

/-- `writer_path [i]`, inside the array. -/
def DiskTable.pathAt (t : DiskTable) (i : Int) : Option (List UInt8) :=
  if 0 ≤ i ∧ i < maxWriters then some (t.writerPath i.toNat) else none

/-- Bytes as characters. -/
def chars (bytes : List UInt8) : List Char := bytes.map fun b => Char.ofNat b.toNat

/-- The table of the extraction tools. -/
def DiskTable.table (t : DiskTable) (h : 0 < t.numWriters) : Table where
  numWriters := t.numWriters.toNat
  writerPath i := chars (t.writerPath i)
  writers_pos := Int.pos_iff_toNat_pos.mp h

/-- The programs that make the name of a file. -/
inductive FileProgram where
  | todisk | countRecorded | blockInfo | dumpPacket | toLibpcap | block2libpcap
  deriving DecidableEq, Repr

/-- `sizeof (fname)`. -/
def FileProgram.fnameSize : FileProgram → Nat
  | .todisk => 1024
  | .countRecorded | .blockInfo | .dumpPacket | .toLibpcap | .block2libpcap => 256

end NicRecorder
