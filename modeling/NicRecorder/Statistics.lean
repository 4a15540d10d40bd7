import NicRecorder.Capture

/-!
# The counters for `ifconfig`

`nlsim_process_thread` can be compiled with counters of the packets and of the bytes (`IFCONFIG_PACKET_COUNT` and
`IFCONFIG_BYTE_COUNT`). It adds them to the statistics of the ring when it goes on to the next bucket and when it ends. The counters are
those of 64 bits; the bytes of the current bucket are summed up in a word of 32 bits.
-/

namespace NicRecorder

open Runs

/-- `stats.packets` and `stats.bytes` of the ring, and `total_bytes` of the thread. -/
structure Statistics where
  packets : Nat
  bytes : Nat
  totalBytes : Nat
  deriving DecidableEq, Repr

/-- What the next access of the recording thread adds to the statistics (lines 187, 199 to 206 and 219 to 224). The length is read back
from the bucket, where it has 16 bits. -/
def Driver.tally (d : Driver) (k : Statistics) : Statistics :=
  match d.proc.pc with
  | .store => { k with totalBytes := (k.totalBytes + d.proc.len % 2 ^ 16) % 2 ^ 32 }
  | .resetRow => ⟨(k.packets + d.proc.curPartial) % 2 ^ 64, (k.bytes + k.totalBytes) % 2 ^ 64, 0⟩
  | .setLast => { k with packets := (k.packets + d.proc.curPartial) % 2 ^ 64, bytes := (k.bytes + k.totalBytes) % 2 ^ 64 }
  | _ => k

/-- The statistics behind a step. -/
def Driver.tallied (d : Driver) (k : Statistics) : Act → Statistics
  | .proc => d.tally k
  | _ => k

/-- The capture with its statistics, and a number of programs that take its buckets. -/
def Config.counted (c : Config) (writers : Nat) : System (Capture × Statistics) Act where
  init := fun s => (c.capture writers).init s.1 ∧ s.2 = ⟨0, 0, 0⟩
  step := fun s a t => c.Step writers s.1 a t.1 ∧ t.2 = s.1.drv.tallied s.2 a

end NicRecorder
