import NicRecorder.Recording
import NicRecorder.Lib.Decimal

/-!
# Block numbers and file names

Every program finds the file of a block by counters of its own. A writer steps its bucket and its block number at the end of its
main loop (`todisk.c`, lines 178 and 179, 255 and 256). The programs that read a recording step the number of a writer and the
number of a block, from the first ones on (`to_libpcap`, `dump_packet`, `count_recorded`) or from a block that the user gives
(`block2libpcap`, and `block_info` for that block only). The name of a file is made of the directory of a writer, from the table
that all of them read, and the number of a block.
-/

namespace NicRecorder

open Decimal

/-- `sprintf (fname, "%s/file%05d", path, file_count)`. -/
def fileName (path : List Char) (fileCount : Nat) : List Char := path ++ "/file".toList ++ padded 5 fileCount

example : fileName "/mnt/sda".toList 25 = "/mnt/sda/file00025".toList := by decide

/-- The counters of the main loop of a writer. -/
structure BlockCursor where
  cur : Nat
  fileCount : Nat
  deriving DecidableEq, Repr

/-- The counters of a writer when it enters its main loop. -/
def Setup.firstBlock (S : Setup) (id : Nat) : BlockCursor := ⟨S.config.start1G + id, id⟩

/-- The step at the end of the loop. -/
def Setup.nextBlock (S : Setup) (b : BlockCursor) : BlockCursor := ⟨S.nextBucket b.cur, b.fileCount + S.writers⟩

/-- The counters of writer `id` in iteration `i`. -/
def Setup.blockAt (S : Setup) (id i : Nat) : BlockCursor := S.nextBlock^[i] (S.firstBlock id)

/-- The file that writer `id` writes in iteration `i`, with a table of directories. -/
def Setup.todiskName (S : Setup) (writerPath : Nat → List Char) (id i : Nat) : List Char :=
  fileName (writerPath id) (S.blockAt id i).fileCount

/-- The counters of a reader. -/
structure Reader where
  writerNum : Nat
  fileCount : Nat
  deriving DecidableEq, Repr

/-- `to_libpcap`, `dump_packet` and `count_recorded` begin with the first file. -/
def Reader.first : Reader := ⟨0, 0⟩

/-- `block2libpcap` and `block_info` begin with the file of a block. -/
def Setup.readerAt (S : Setup) (b : Nat) : Reader := ⟨b % S.writers, b⟩

/-- The step of a reader to the next file. -/
def Setup.nextFile (S : Setup) (r : Reader) : Reader := ⟨(r.writerNum + 1) % S.writers, r.fileCount + 1⟩

/-- The file that a reader opens. -/
def Reader.fname (r : Reader) (writerPath : Nat → List Char) : List Char := fileName (writerPath r.writerNum) r.fileCount

/-- The counters of a writer of a recording. -/
def Writer.cursor (w : Writer) : BlockCursor := ⟨w.cur, w.fileCount⟩

end NicRecorder
