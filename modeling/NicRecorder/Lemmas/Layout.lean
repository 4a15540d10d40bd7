import NicRecorder.Bucket

/-!
# Where the packets of a bucket lie

Statements about `slotBytes`, `Config.Fits` and `Config.receiveAll`: every packet of a fill lies inside the region of its slot,
every length lies inside the part of the length block that the writers copy (`Config.WellLaid`), no two packets overlap, and the
bucket that the driver leaves holds every packet and every length (`Config.Holds`). All of it is for every valid number of slots; only the
stride of the extraction tools needs the shipped one.
-/

namespace NicRecorder

open ByteMem

/-- A list of packets that a bucket can receive: every packet has a length the adapter delivers, and they fit one bucket. -/
structure Config.Receivable (c : Config) (pkts : List (List UInt8)) : Prop where
  size : ∀ p ∈ pkts, minPacket ≤ p.length ∧ p.length ≤ rxBufSize
  fits : c.Fits pkts

/-- A list of packets in the format of a bucket: every length fits its cell, every packet ends inside the region of its slot, and
every cell lies in the part of the length block that the writers copy. -/
structure Config.WellLaid (c : Config) (pkts : List (List UInt8)) : Prop where
  length_lt : ∀ j < pkts.length, lengthOf pkts j < 2 ^ 16
  packet_end : ∀ j < pkts.length,
    slotBytes c.numRxSlots (lengthOf pkts) (j % c.numRxSlots) (j / c.numRxSlots) + lengthOf pkts j ≤ c.bytesPerSlot
  len_end : ∀ j < pkts.length, lenOff + 2 * j + 2 ≤ lenBlockSize

/-- The place of packet `j` in its bucket. -/
def Config.placeOf (c : Config) (pkts : List (List UInt8)) (j : Nat) : Nat :=
  c.slotOffset (j % c.numRxSlots) (slotBytes c.numRxSlots (lengthOf pkts) (j % c.numRxSlots) (j / c.numRxSlots))

/-- The memory of a bucket holds the packets: each at its place, each length in its cell, and their number in the header. -/
structure Config.Holds (c : Config) (m : Mem) (pkts : List (List UInt8)) : Prop where
  data : ∀ j < pkts.length, m.load (c.placeOf pkts j) (lengthOf pkts j) = pkts.getD j []
  lens : ∀ j < pkts.length, m.load16 (lenBlockOff + lenOff + 2 * j) = lengthOf pkts j
  captured : numCaptured m = pkts.length

/-- The row and the slot of a packet. -/
theorem Config.div_mod_cell (c : Config) (row : Nat) {slot : Nat} (hs : slot < c.numRxSlots) :
    (row * c.numRxSlots + slot) / c.numRxSlots = row ∧ (row * c.numRxSlots + slot) % c.numRxSlots = slot := by
  constructor
  · rw [Nat.add_comm, Nat.add_mul_div_right _ _ c.slots_pos, Nat.div_eq_of_lt hs, Nat.zero_add]
  · rw [Nat.add_comm, Nat.add_mul_mod_self_right, Nat.mod_eq_of_lt hs]

/-- An offset is put together with the number of its bucket without a carry. -/
theorem or_eq_add {b off : Nat} (h : off < 2 ^ 30) : b * 2 ^ 30 ||| off = b * 2 ^ 30 + off := by
  rw [Nat.mul_comm, Nat.two_pow_add_eq_or_of_lt h]

/-- The cell of the length of packet `j`. -/
theorem Config.lenAt_div_mod (c : Config) (j : Nat) :
    c.lenAt (j / c.numRxSlots) (j % c.numRxSlots) = lenBlockOff + lenOff + 2 * j := by
  unfold Config.lenAt
  have := Nat.div_add_mod' j c.numRxSlots
  omega

/-! ## Lengths of slots -/

theorem slotBytes_mono (slots : Nat) (lens : Nat → Nat) (slot : Nat) {r r' : Nat} (h : r ≤ r') :
    slotBytes slots lens slot r ≤ slotBytes slots lens slot r' := by
  induction h with
  | refl => exact Nat.le_refl _
  | step _ ih => exact Nat.le_trans ih (Nat.le_add_right _ _)

/-- A slot whose packets are all at least `k` bytes long holds at least `k` bytes for each row. -/
theorem le_slotBytes (slots k : Nat) (lens : Nat → Nat) (slot : Nat) :
    ∀ row, (∀ r < row, k ≤ lens (r * slots + slot)) → k * row ≤ slotBytes slots lens slot row
  | 0, _ => by simp
  | row + 1, h => by
    have ih := le_slotBytes slots k lens slot row fun r hr => h r (by omega)
    have := h row (by omega)
    simp only [slotBytes, Nat.mul_succ]
    omega

section Receivable

variable {c : Config} {pkts : List (List UInt8)}

/-- The length of a packet of the list. -/
theorem lengthOf_eq (pkts : List (List UInt8)) (j : Nat) (h : j < pkts.length) : lengthOf pkts j = pkts[j].length := by
  simp [lengthOf, List.getD, h]

theorem lengthOf_le {pkts : List (List UInt8)} {bound : Nat} (h : ∀ p ∈ pkts, p.length ≤ bound) (j : Nat) :
    lengthOf pkts j ≤ bound := by
  by_cases hj : j < pkts.length
  · rw [lengthOf_eq _ _ hj]
    exact h _ (List.getElem_mem hj)
  · simp [lengthOf, List.getD, List.getElem?_eq_none (Nat.le_of_not_lt hj)]

theorem Config.Receivable.length_bounds (h : c.Receivable pkts) {j : Nat} (hj : j < pkts.length) :
    minPacket ≤ lengthOf pkts j ∧ lengthOf pkts j ≤ rxBufSize := by
  rw [lengthOf_eq pkts j hj]
  exact h.size _ (List.getElem_mem hj)

/-- When packet `j` is not in the first row, the row before did not fill its slot beyond the limit: that row would have been
the last one. -/
theorem Config.Receivable.row_before (h : c.Receivable pkts) {j r : Nat} (hj : j < pkts.length)
    (hr : j / c.numRxSlots = r + 1) (slot : Nat) (hs : slot < c.numRxSlots) :
    slotBytes c.numRxSlots (lengthOf pkts) slot r ≤ c.byteLimit := by
  by_contra hlt
  have hn := h.fits r slot hs (by omega)
  have hd := Nat.div_mul_le_self j c.numRxSlots
  rw [hr] at hd
  omega

/-- A packet ends inside the region of its slot. -/
theorem Config.Receivable.packet_end (h : c.Receivable pkts) {j : Nat} (hj : j < pkts.length) :
    slotBytes c.numRxSlots (lengthOf pkts) (j % c.numRxSlots) (j / c.numRxSlots) + lengthOf pkts j ≤ c.bytesPerSlot := by
  have hb := h.length_bounds hj
  have hl := c.byteLimit_add
  unfold rxBufSize at hb hl
  cases hr : j / c.numRxSlots with
  | zero => simp only [slotBytes]; omega
  | succ r =>
    have hs : j % c.numRxSlots < c.numRxSlots := Nat.mod_lt _ c.slots_pos
    have hrow := h.row_before hj hr _ hs
    have hprev : r * c.numRxSlots + j % c.numRxSlots < pkts.length := by
      have hd := Nat.div_add_mod' j c.numRxSlots
      rw [hr, Nat.succ_mul] at hd
      omega
    have hb' := (h.length_bounds hprev).2
    unfold rxBufSize at hb'
    simp only [slotBytes]
    omega

/-- The rows of a fill are few enough for their lengths to lie in the part of the length block that is copied. -/
theorem Config.Receivable.len_end (h : c.Receivable pkts) {j : Nat} (hj : j < pkts.length) :
    lenOff + 2 * j + 2 ≤ lenBlockSize := by
  have hd := Nat.div_add_mod' j c.numRxSlots
  have hs : j % c.numRxSlots < c.numRxSlots := Nat.mod_lt _ c.slots_pos
  have hrow : minPacket * (j / c.numRxSlots) ≤ c.byteLimit + minPacket := by
    cases hr : j / c.numRxSlots with
    | zero => omega
    | succ r =>
      have h1 := h.row_before hj hr _ hs
      have h2 := le_slotBytes c.numRxSlots minPacket (lengthOf pkts) (j % c.numRxSlots) r fun r' hr' =>
        (h.length_bounds (by
          rw [hr, Nat.succ_mul] at hd
          have := Nat.mul_le_mul_right c.numRxSlots (Nat.le_of_lt hr')
          omega)).1
      rw [Nat.mul_succ]
      omega
  have hl := c.byteLimit_add
  generalize hq : j / c.numRxSlots = q at hrow hd
  unfold minPacket at hrow
  unfold rxBufSize at hl
  unfold lenOff lenBlockSize
  rcases c.cases with ⟨hN, hB⟩ | ⟨hN, hB⟩ | ⟨hN, hB⟩ | ⟨hN, hB⟩ <;> rw [hN] at hd hs <;> omega

/-- The packets of one row fit every bucket. -/
theorem Config.fits_of_length_le (c : Config) {pkts : List (List UInt8)} (h : pkts.length ≤ c.numRxSlots) : c.Fits pkts := by
  intro k slot _ _
  exact Nat.le_trans h (Nat.le_mul_of_pos_left _ (Nat.succ_pos k))

/-- The bytes of a slot are those of as many packets as there are rows. -/
theorem slotBytes_le (slots : Nat) {bound : Nat} {lens : Nat → Nat} (h : ∀ j, lens j ≤ bound) (slot : Nat) :
    ∀ row, slotBytes slots lens slot row ≤ row * bound
  | 0 => Nat.zero_le _
  | row + 1 => by
    have hrow := slotBytes_le slots h slot row
    have hlast := h (row * slots + slot)
    rw [slotBytes, Nat.succ_mul]
    omega

/-- So do the packets of a few rows: no slot is filled beyond the limit before the last row. -/
theorem Config.fits_of_rows (c : Config) {pkts : List (List UInt8)} (rows : Nat) (hsize : ∀ p ∈ pkts, p.length ≤ rxBufSize)
    (hrows : pkts.length ≤ (rows + 1) * c.numRxSlots) (hlimit : rows * rxBufSize ≤ c.byteLimit) : c.Fits pkts := by
  intro k slot _ hover
  have hbytes := slotBytes_le c.numRxSlots (lengthOf_le hsize) slot k
  have hk : rows < k := Nat.lt_of_mul_lt_mul_right (show rows * rxBufSize < k * rxBufSize by omega)
  exact Nat.le_trans hrows (Nat.mul_le_mul_right _ (by omega))

/-- A bucket receives only what has its format. -/
theorem Config.Receivable.wellLaid (h : c.Receivable pkts) : c.WellLaid pkts := by
  refine ⟨fun j hj => ?_, fun j hj => h.packet_end hj, fun j hj => h.len_end hj⟩
  have := (h.length_bounds hj).2
  unfold rxBufSize at this
  omega

/-- A packet lies inside the region of its slot, and so before the length block. -/
theorem Config.WellLaid.place_bounds (h : c.WellLaid pkts) {j : Nat} (hj : j < pkts.length) :
    c.bytesPerSlot * (j % c.numRxSlots) ≤ c.placeOf pkts j ∧
      c.placeOf pkts j + lengthOf pkts j ≤ c.bytesPerSlot * (j % c.numRxSlots + 1) := by
  have := h.packet_end _ hj
  unfold Config.placeOf Config.slotOffset
  rw [Nat.mul_succ]
  omega

theorem Config.WellLaid.place_end (h : c.WellLaid pkts) {j : Nat} (hj : j < pkts.length) :
    c.placeOf pkts j + lengthOf pkts j ≤ lenBlockOff := by
  have h1 := (h.place_bounds hj).2
  have hs : j % c.numRxSlots < c.numRxSlots := Nat.mod_lt _ c.slots_pos
  have h2 : c.bytesPerSlot * (j % c.numRxSlots + 1) ≤ c.bytesPerSlot * c.numRxSlots := Nat.mul_le_mul_left _ hs
  have h3 := c.slots_mul_bytes
  rw [Nat.mul_comm] at h3
  unfold lenBlockOff
  unfold const1M at h3 ⊢
  omega

/-- Two packets of a fill do not overlap: in different slots they lie in different regions, and in one slot the later one
starts where the earlier ones end. -/
theorem Config.WellLaid.disjoint (h : c.WellLaid pkts) {i j : Nat} (hij : i < j) (hj : j < pkts.length) :
    c.placeOf pkts i + lengthOf pkts i ≤ c.placeOf pkts j ∨ c.placeOf pkts j + lengthOf pkts j ≤ c.placeOf pkts i := by
  have hi := h.place_bounds (show i < pkts.length by omega)
  have hj' := h.place_bounds hj
  rcases Nat.lt_trichotomy (i % c.numRxSlots) (j % c.numRxSlots) with hlt | heq | hgt
  · have := Nat.mul_le_mul_left c.bytesPerSlot (show i % c.numRxSlots + 1 ≤ j % c.numRxSlots by omega)
    omega
  · left
    have hrow : i / c.numRxSlots + 1 ≤ j / c.numRxSlots := by
      have h1 := Nat.div_add_mod' i c.numRxSlots
      have h2 := Nat.div_add_mod' j c.numRxSlots
      by_contra hle
      have := Nat.mul_le_mul_right c.numRxSlots (show j / c.numRxSlots ≤ i / c.numRxSlots by omega)
      omega
    have hmono := slotBytes_mono c.numRxSlots (lengthOf pkts) (i % c.numRxSlots) hrow
    have hcell : lengthOf pkts (i / c.numRxSlots * c.numRxSlots + i % c.numRxSlots) = lengthOf pkts i := by
      rw [Nat.div_add_mod']
    simp only [slotBytes, hcell] at hmono
    unfold Config.placeOf Config.slotOffset
    rw [← heq]
    omega
  · have := Nat.mul_le_mul_left c.bytesPerSlot (show j % c.numRxSlots + 1 ≤ i % c.numRxSlots by omega)
    omega

end Receivable

/-! ## What the driver leaves in a bucket -/

/-- What holds when the first `k` packets of a fill have been received. -/
structure Config.Filled (c : Config) (pkts : List (List UInt8)) (k : Nat) (f : Filling) : Prop where
  data : ∀ j < k, f.mem.load (c.placeOf pkts j) (lengthOf pkts j) = pkts.getD j []
  lens : ∀ j < k, f.mem.load16 (lenBlockOff + lenOff + 2 * j) = lengthOf pkts j
  glength : ∀ j < k, k ≤ j + c.numRxSlots →
    f.glength (j % c.numRxSlots) = slotBytes c.numRxSlots (lengthOf pkts) (j % c.numRxSlots) (j / c.numRxSlots)
  slots : headerSlots f.mem = c.numRxSlots

section Receive

variable {c : Config} {pkts : List (List UInt8)} {k : Nat} {f : Filling}

/-- The refill thread re-arms the slot of packet `k` behind the packets that are in it. -/
theorem Config.Filled.rearm (hf : c.Filled pkts k f) (h : c.WellLaid pkts) (hk : k < pkts.length) :
    c.rearmLength f (k / c.numRxSlots) (k % c.numRxSlots) =
      slotBytes c.numRxSlots (lengthOf pkts) (k % c.numRxSlots) (k / c.numRxSlots) := by
  unfold Config.rearmLength
  cases hr : k / c.numRxSlots with
  | zero => rfl
  | succ r =>
    have hd := Nat.div_add_mod' k c.numRxSlots
    rw [hr, Nat.succ_mul] at hd
    -- the packet one row before packet `k`
    have hpos := c.slots_pos
    have hge : c.numRxSlots ≤ k := by omega
    have hprev : (k - c.numRxSlots) / c.numRxSlots = r ∧ (k - c.numRxSlots) % c.numRxSlots = k % c.numRxSlots := by
      constructor
      · have := Nat.div_eq_sub_div hpos hge
        omega
      · exact (Nat.mod_eq_sub_mod hge).symm
    have hg := hf.glength (k - c.numRxSlots) (by omega) (by omega)
    have hl := hf.lens (k - c.numRxSlots) (by omega)
    rw [← c.lenAt_div_mod, hprev.1, hprev.2] at hl
    rw [hprev.1, hprev.2] at hg
    have hcell : lengthOf pkts (k - c.numRxSlots) = lengthOf pkts (r * c.numRxSlots + k % c.numRxSlots) := by
      congr 1
      omega
    have hend := h.packet_end _ hk
    rw [hr] at hend
    have hB : c.bytesPerSlot < 2 ^ 32 := by
      rcases c.cases with ⟨_, hB⟩ | ⟨_, hB⟩ | ⟨_, hB⟩ | ⟨_, hB⟩ <;> rw [hB] <;> decide
    rw [if_neg (Nat.succ_ne_zero r), Nat.add_sub_cancel, hg, hl, hcell]
    exact Nat.mod_eq_of_lt (by simp only [slotBytes] at hend; omega)

/-- The memory after packet `k`: it lies at its place, its length lies in its cell. -/
theorem Config.Filled.receive_mem (hf : c.Filled pkts k f) (h : c.WellLaid pkts) (hk : k < pkts.length) :
    (c.receive f k (pkts.getD k [])).mem =
      (f.mem.store (c.placeOf pkts k) (pkts.getD k [])).store16 (lenBlockOff + lenOff + 2 * k) (lengthOf pkts k) := by
  unfold Config.receive Config.placeOf
  simp only [hf.rearm h hk, c.lenAt_div_mod, lengthOf]

/-- Receiving a packet leaves the header of the bucket alone. -/
theorem Config.Filled.receive_word (hf : c.Filled pkts k f) (h : c.WellLaid pkts) (hk : k < pkts.length) {off : Nat}
    (hoff : off + 4 ≤ lenOff) :
    (c.receive f k (pkts.getD k [])).mem.load32 (lenBlockOff + off) = f.mem.load32 (lenBlockOff + off) := by
  have hend := h.place_end hk
  have hlen : (pkts.getD k []).length = lengthOf pkts k := rfl
  rw [hf.receive_mem h hk, Mem.store16, load32_store_disjoint _ _ _ _ (by rw [leBytes_length]; omega),
    load32_store_disjoint _ _ _ _ (by rw [hlen]; omega)]

/-- Receiving the next packet keeps what is filled. -/
theorem Config.Filled.receive (hf : c.Filled pkts k f) (h : c.WellLaid pkts) (hk : k < pkts.length) :
    c.Filled pkts (k + 1) (c.receive f k (pkts.getD k [])) := by
  have hmem := hf.receive_mem h hk
  have hend := h.place_end hk
  have hlen : (pkts.getD k []).length = lengthOf pkts k := rfl
  refine ⟨fun j hj => ?_, fun j hj => ?_, fun j hj hj' => ?_, ?_⟩
  · have hend' := h.place_end (show j < pkts.length by omega)
    rw [hmem, Mem.store16, load_store_disjoint _ _ _ _ _ (by rw [leBytes_length]; omega)]
    rcases Nat.lt_or_ge j k with hlt | hge
    · rw [load_store_disjoint _ _ _ _ _ (by rw [hlen]; have := h.disjoint hlt hk; omega)]
      exact hf.data j hlt
    · obtain rfl : j = k := by omega
      exact load_store_same _ _ _
  · rw [hmem]
    rcases Nat.lt_or_ge j k with hlt | hge
    · rw [Mem.store16, load16_store_disjoint _ _ _ _ (by rw [leBytes_length]; omega),
        load16_store_disjoint _ _ _ _ (by rw [hlen]; omega)]
      exact hf.lens j hlt
    · obtain rfl : j = k := by omega
      exact load16_store16_same _ _ _ (h.length_lt _ hk)
  · have hg : (c.receive f k (pkts.getD k [])).glength = Function.update f.glength (k % c.numRxSlots)
        (slotBytes c.numRxSlots (lengthOf pkts) (k % c.numRxSlots) (k / c.numRxSlots)) := by
      unfold Config.receive
      simp only [hf.rearm h hk]
    rw [hg]
    rcases Nat.lt_or_ge j k with hlt | hge
    · -- the slots of the last `numRxSlots` packets are pairwise different
      have hne : j % c.numRxSlots ≠ k % c.numRxSlots := by
        intro he
        have h1 := Nat.div_add_mod' j c.numRxSlots
        have h2 := Nat.div_add_mod' k c.numRxSlots
        have hrow : j / c.numRxSlots < k / c.numRxSlots := by
          by_contra hle
          have := Nat.mul_le_mul_right c.numRxSlots (show k / c.numRxSlots ≤ j / c.numRxSlots by omega)
          omega
        have := Nat.mul_le_mul_right c.numRxSlots (Nat.succ_le_of_lt hrow)
        rw [Nat.succ_mul] at this
        omega
      rw [Function.update_of_ne hne]
      exact hf.glength j hlt (by omega)
    · obtain rfl : j = k := by omega
      rw [Function.update_self]
  · exact (hf.receive_word h hk (by decide)).trans hf.slots

/-- Receiving the next packets of a fill fills the bucket as far as they go, and leaves the header alone. -/
theorem Config.Filled.receiveAll (h : c.WellLaid pkts) (rest : List (List UInt8)) :
    ∀ (k : Nat) (f : Filling), rest <+: pkts.drop k → c.Filled pkts k f →
      c.Filled pkts (k + rest.length) (c.receiveAll k f rest) ∧ ∀ off, off + 4 ≤ lenOff →
        (c.receiveAll k f rest).mem.load32 (lenBlockOff + off) = f.mem.load32 (lenBlockOff + off) := by
  induction rest with
  | nil => intro k f _ hf; exact ⟨hf, fun _ _ => rfl⟩
  | cons p ps ih =>
    rintro k f ⟨tl, hd⟩ hf
    have hk : k < pkts.length := by
      by_contra hge
      rw [List.drop_eq_nil_of_le (by omega)] at hd
      cases hd
    rw [List.drop_eq_getElem_cons hk, List.cons_append, List.cons.injEq] at hd
    have hp : pkts.getD k [] = p := by simp [List.getD, hk, hd.1]
    rw [Config.receiveAll, ← hp, List.length_cons, Nat.add_comm ps.length, ← Nat.add_assoc]
    obtain ⟨hall, hword⟩ := ih (k + 1) _ ⟨tl, hd.2⟩ (hf.receive h hk)
    exact ⟨hall, fun off hoff => (hword off hoff).trans (hf.receive_word h hk hoff)⟩

end Receive

/-- The number of packets of a fill fits the field of the header. -/
theorem Config.WellLaid.card_lt {c : Config} {pkts : List (List UInt8)} (h : c.WellLaid pkts) :
    pkts.length < 2 ^ 32 := by
  by_contra hge
  have := h.len_end (pkts.length - 1) (by omega)
  unfold lenOff lenBlockSize at this
  omega

/-- The bucket before its first packet. -/
theorem Config.filled_zero (c : Config) (pkts : List (List UInt8)) (f : Filling) :
    c.Filled pkts 0 { f with mem := f.mem.store32 (lenBlockOff + numRxSlotsOff) c.numRxSlots } := by
  have hslots := c.slots_le
  refine ⟨fun j hj => absurd hj (Nat.not_lt_zero j), fun j hj => absurd hj (Nat.not_lt_zero j),
    fun j hj => absurd hj (Nat.not_lt_zero j), ?_⟩
  exact load32_store32_same _ _ _ (by omega)

/-- The bucket that the driver leaves holds the packets of the fill, and its header the number of slots. -/
theorem Config.driverImage_holds {c : Config} {pkts : List (List UInt8)} (h : c.WellLaid pkts) (f : Filling) :
    c.Holds (c.driverImage f pkts) pkts ∧ headerSlots (c.driverImage f pkts) = c.numRxSlots := by
  obtain ⟨hf, -⟩ := Config.Filled.receiveAll h pkts 0 _ (List.prefix_refl _) (c.filled_zero pkts f)
  rw [Nat.zero_add] at hf
  unfold Config.driverImage
  refine ⟨⟨fun j hj => ?_, fun j hj => ?_, ?_⟩, ?_⟩
  · have := h.place_end hj
    rw [Mem.store32, load_store_disjoint _ _ _ _ _ (by rw [leBytes_length]; omega)]
    exact hf.data j hj
  · unfold lenOff numCapturedOff
    rw [Mem.store32, load16_store_disjoint _ _ _ _ (by rw [leBytes_length]; omega)]
    exact hf.lens j hj
  · exact load32_store32_same _ _ _ h.card_lt
  · unfold headerSlots numRxSlotsOff numCapturedOff
    rw [Mem.store32, load32_store_disjoint _ _ _ _ (by rw [leBytes_length]; omega)]
    exact hf.slots

/-- The words of the header between the number of packets and the number of slots, `last` and `stalled`, are left as they were. -/
theorem Config.driverImage_word {c : Config} {pkts : List (List UInt8)} (h : c.WellLaid pkts) (f : Filling) {off : Nat}
    (h1 : numCapturedOff + 4 ≤ off) (h2 : off + 4 ≤ numRxSlotsOff) :
    (c.driverImage f pkts).load32 (lenBlockOff + off) = f.mem.load32 (lenBlockOff + off) := by
  obtain ⟨-, hword⟩ := Config.Filled.receiveAll h pkts 0 _ (List.prefix_refl _) (c.filled_zero pkts f)
  unfold Config.driverImage
  rw [Mem.store32, load32_store_disjoint _ _ _ _ (by rw [leBytes_length]; omega),
    hword off (Nat.le_trans h2 (by decide)), Mem.store32, load32_store_disjoint _ _ _ _ (by omega)]

end NicRecorder
