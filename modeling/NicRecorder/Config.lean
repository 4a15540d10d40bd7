import Mathlib.Tactic.NormNum
import Mathlib.Tactic.IntervalCases

/-!
# The configuration

The constants of `nlsim_ixgbe.h`, the header that the driver and every user space program share. The header marks three of them
as configurable: the number of slots of the receive ring (`RX_SLOT_BITS`, of which 12, 13, 14 and 15 are valid), and the first and
the last gigabyte of the private memory (`START_1G`, `END_1G`). A `Config` is a choice of the three that the header allows; the
rest of the header is a function of it.
-/

namespace NicRecorder

/-- A configuration of `nlsim_ixgbe.h`: the valid slot bits, and a range of gigabytes inside the 128 the tables hold. -/
structure Config where
  rxSlotBits : Nat
  start1G : Nat
  end1G : Nat
  bits_valid : rxSlotBits = 12 ∨ rxSlotBits = 13 ∨ rxSlotBits = 14 ∨ rxSlotBits = 15
  start_le_end : start1G ≤ end1G
  end_lt : end1G < 128

/-- The configuration the header ships: 4096 slots, buckets 10 to 24. -/
def Config.shipped : Config where
  rxSlotBits := 12
  start1G := 10
  end1G := 24
  bits_valid := Or.inl rfl
  start_le_end := by decide
  end_lt := by decide

def const1K : Nat := 1024
def const1M : Nat := 1024 * 1024

/-- `LEN_BLOCK_SIZE`: the bytes of the length block that a writer copies; the last page of the block is left out. -/
def lenBlockSize : Nat := 32 * 1024 * 1024 - 4096

/-- `RX_BUF_SIZE`: the longest packet. -/
def rxBufSize : Nat := 1514

/-- The shortest packet the adapter delivers: an Ethernet frame of 64 bytes less its checksum of 4. -/
def minPacket : Nat := 60

/-- `MAX_WRITERS`. -/
def maxWriters : Nat := 1024

/-- `NUM_RX_SLOTS`: the slots of the receive ring. -/
def Config.numRxSlots (c : Config) : Nat := 2 ^ c.rxSlotBits

/-- `BYTES_PER_SLOT`: one case for each valid number of slot bits. -/
def Config.bytesPerSlot (c : Config) : Nat :=
  match c.rxSlotBits with
  | 12 => 240 * 1024
  | 13 => 120 * 1024
  | 14 => 60 * 1024
  | _ => 30 * 1024

/-- `BYTE_LIMIT`: a slot filled beyond it closes the bucket. -/
def Config.byteLimit (c : Config) : Nat := c.bytesPerSlot - 2 * rxBufSize

/-- `NUM_BUCKETS`, as the user space programs define it. -/
def Config.numBuckets (c : Config) : Nat := c.end1G - c.start1G + 1

/-- `GLOBAL_ADDR`: the page the driver and the programs share, the last one of the first bucket. -/
def Config.globalAddr (c : Config) : Nat := (c.start1G + 1) * 2 ^ 30 - 4096

/-- The bucket after `cur`, as both capture threads step it: `(cur == END_1G) ? START_1G : cur+1`. -/
def Config.nextCur (c : Config) (cur : Nat) : Nat := if cur = c.end1G then c.start1G else cur + 1

/-- The bucket of a fill: the driver fills the buckets in turn, from the first on. -/
def Config.bucketOf (c : Config) (f : Nat) : Nat := c.start1G + f % c.numBuckets

/-! ## The constants, case by case -/

/-- The four cases of a configuration, as numbers. -/
theorem Config.cases (c : Config) :
    (c.numRxSlots = 4096 ∧ c.bytesPerSlot = 245760) ∨ (c.numRxSlots = 8192 ∧ c.bytesPerSlot = 122880) ∨
      (c.numRxSlots = 16384 ∧ c.bytesPerSlot = 61440) ∨ (c.numRxSlots = 32768 ∧ c.bytesPerSlot = 30720) := by
  unfold Config.numRxSlots Config.bytesPerSlot
  rcases c.bits_valid with h | h | h | h <;> simp [h]

/-- The slots of a bucket fill 960 megabytes in every configuration. -/
theorem Config.slots_mul_bytes (c : Config) : c.numRxSlots * c.bytesPerSlot = 960 * const1M := by
  rcases c.cases with ⟨h, h'⟩ | ⟨h, h'⟩ | ⟨h, h'⟩ | ⟨h, h'⟩ <;> rw [h, h'] <;> rfl

/-- The limit leaves room for two packets in every slot. -/
theorem Config.byteLimit_add (c : Config) : c.byteLimit + 2 * rxBufSize = c.bytesPerSlot := by
  unfold Config.byteLimit rxBufSize
  rcases c.cases with ⟨_, h⟩ | ⟨_, h⟩ | ⟨_, h⟩ | ⟨_, h⟩ <;> omega

/-- The ring is at least as long as sixteen publications of the clean position. -/
theorem Config.slots_ge (c : Config) : 4096 ≤ c.numRxSlots := by
  rcases c.cases with ⟨h, _⟩ | ⟨h, _⟩ | ⟨h, _⟩ | ⟨h, _⟩ <;> omega

theorem Config.slots_le (c : Config) : c.numRxSlots ≤ 32768 := by
  rcases c.cases with ⟨h, _⟩ | ⟨h, _⟩ | ⟨h, _⟩ | ⟨h, _⟩ <;> omega

theorem Config.slots_pos (c : Config) : 0 < c.numRxSlots := by
  have := c.slots_ge
  omega

/-- The clean position is published as a 16-bit number, and the ring's length divides `2 ^ 16`. -/
theorem Config.slots_dvd (c : Config) : c.numRxSlots ∣ 2 ^ 16 := by
  rcases c.cases with ⟨h, _⟩ | ⟨h, _⟩ | ⟨h, _⟩ | ⟨h, _⟩ <;> rw [h] <;> decide

/-- The clean position is published every 256 packets, and 256 divides the ring's length. -/
theorem Config.batch_dvd (c : Config) : 256 ∣ c.numRxSlots := by
  rcases c.cases with ⟨h, _⟩ | ⟨h, _⟩ | ⟨h, _⟩ | ⟨h, _⟩ <;> rw [h] <;> decide

/-- The position behind `n` on the ring. -/
theorem Config.succ_mod (c : Config) (n : Nat) :
    (n + 1) % c.numRxSlots = if n % c.numRxSlots + 1 = c.numRxSlots then 0 else n % c.numRxSlots + 1 := by
  have hlt := Nat.mod_lt n c.slots_pos
  rw [← Nat.mod_add_mod]
  split
  · next he => rw [he, Nat.mod_self]
  · exact Nat.mod_eq_of_lt (by omega)

/-- The end of a lap is the end of a group of 256. -/
theorem Config.batch_of_row (c : Config) {n : Nat} (h : n % c.numRxSlots = 0) : n % 256 = 0 :=
  Nat.mod_eq_zero_of_dvd (c.batch_dvd.trans (Nat.dvd_of_mod_eq_zero h))

theorem Config.succ_mod_of_batch (c : Config) {n : Nat} (h : (n + 1) % 256 ≠ 0) :
    (n + 1) % c.numRxSlots = n % c.numRxSlots + 1 := by
  have hsucc := c.succ_mod n
  by_cases he : n % c.numRxSlots + 1 = c.numRxSlots
  · rw [if_pos he] at hsucc
    exact absurd (c.batch_of_row hsucc) h
  · rw [if_neg he] at hsucc
    exact hsucc

theorem Config.numBuckets_pos (c : Config) : 0 < c.numBuckets := by
  unfold Config.numBuckets
  omega

/-! ## Stepping through the buckets -/

/-- The bucket after the one of fill `f` is the one of fill `f + 1`. -/
theorem Config.nextCur_bucketOf (c : Config) (f : Nat) : c.nextCur (c.bucketOf f) = c.bucketOf (f + 1) := by
  have hlt := Nat.mod_lt f c.numBuckets_pos
  have hs := c.start_le_end
  have hb : c.numBuckets = c.end1G - c.start1G + 1 := rfl
  have hmod : (f % c.numBuckets + 1) % c.numBuckets = (f + 1) % c.numBuckets := Nat.mod_add_mod f _ 1
  unfold Config.nextCur Config.bucketOf
  rw [← hmod]
  by_cases h : f % c.numBuckets + 1 = c.numBuckets
  · rw [if_pos (by omega), h, Nat.mod_self]
    rfl
  · have hlt' : f % c.numBuckets + 1 < c.numBuckets := by omega
    rw [if_neg (by omega), Nat.mod_eq_of_lt hlt']
    omega

/-- The buckets that stepping from the first one goes through. -/
theorem Config.nextCur_iterate (c : Config) (f : Nat) : c.nextCur^[f] c.start1G = c.bucketOf f := by
  induction f with
  | zero => simp [Config.bucketOf]
  | succ f ih => rw [Function.iterate_succ_apply', ih, c.nextCur_bucketOf]

end NicRecorder
