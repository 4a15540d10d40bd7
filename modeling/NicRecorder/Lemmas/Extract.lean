import NicRecorder.Lemmas.Layout

/-!
# What the extraction tools read

Statements about `Config.dumpPacket`, `todiskFile` and `readBlock`. On any mapping `dump_packet` hands on one packet after the other,
each found at an address of its own (`packetAt`). A mapping that holds a list of packets (`Config.Holds`) is so dumped as that
list, when the stride of the tools is the one of the driver; and a file that `todisk` made of a bucket, read back, shows the bucket
everywhere the tools look.
-/

namespace NicRecorder

open ByteMem

/-! ## The loops that add up lengths -/

/-- Adding the lengths of a part of a row changes the slots of that part. -/
theorem Config.addRow_apply (c : Config) (img : Mem) (row : Nat) (l : Nat → Nat) (slot : Nat) :
    ∀ cols, c.addRow img row cols l slot =
      if slot < cols then (l slot + img.load16 (c.lenAt row slot)) % 2 ^ 32 else l slot
  | 0 => by simp [Config.addRow]
  | cols + 1 => by
    have ih := c.addRow_apply img row l slot cols
    have hlast := c.addRow_apply img row l cols cols
    unfold Config.addRow at ih hlast ⊢
    rw [List.range_succ, List.foldl_append, List.foldl_cons, List.foldl_nil]
    by_cases hs : slot = cols
    · subst hs
      rw [Function.update_self, hlast, if_neg (Nat.lt_irrefl _), if_pos (Nat.lt_succ_self _)]
    · rw [Function.update_of_ne hs, ih]
      by_cases hlt : slot < cols
      · rw [if_pos hlt, if_pos (by omega)]
      · rw [if_neg hlt, if_neg (by omega)]

/-- The bytes that `dump_packet` has added up for a slot before a row, in a variable of 32 bits. -/
def Config.slotSum (c : Config) (img : Mem) (slot : Nat) : Nat → Nat
  | 0 => 0
  | row + 1 => (c.slotSum img slot row + img.load16 (c.lenAt row slot)) % 2 ^ 32

/-- The address in the mapping at which `dump_packet` reads packet `j`, with `slots` slots in a row. The product is an `int` in the
source, which overflows from slot 8739 on. There are as many slots with 14 and 15 slot bits only, where the tools miss the place of
the packet from slot 1 on, and an address that wraps around misses it too: `245760 * s` and the driver's `s * bytesPerSlot` never
agree modulo `2 ^ 32` for a slot `s > 0`. -/
def Config.readAddr (c : Config) (img : Mem) (slots j : Nat) : Nat :=
  240 * 1024 * (j % slots) + c.slotSum img (j % slots) (j / slots)

/-- What `dump_packet` hands on for packet `j`, with `slots` slots in a row. -/
def Config.packetAt (c : Config) (img : Mem) (slots j : Nat) : Emitted :=
  ⟨j / slots, j % slots, img.load (c.readAddr img slots j) (img.load16 (c.lenAt (j / slots) (j % slots)))⟩

section Dump

variable {c : Config} {img : Mem} {slots : Nat}

/-- The whole rows before a packet: every slot has the bytes of those rows. -/
theorem Config.whole_rows (c : Config) (img : Mem) {slots slot : Nat} (hs : slot < slots) (row : Nat) :
    (List.range row).foldl (fun l i => c.addRow img i slots l) (fun _ => 0) slot = c.slotSum img slot row := by
  induction row with
  | zero => rfl
  | succ row ih =>
    rw [List.range_succ, List.foldl_append, List.foldl_cons, List.foldl_nil, c.addRow_apply, if_pos hs, ih]
    rfl

/-- The row of a slot's next packet, from packet `j` on. -/
def nextRow (slots j slot : Nat) : Nat := if slot < j % slots then j / slots + 1 else j / slots

/-- What `local_len` holds when the loop stands at packet `j`. -/
def Config.AtPacket (c : Config) (img : Mem) (slots j : Nat) (localLen : Nat → Nat) : Prop :=
  ∀ slot < slots, localLen slot = c.slotSum img slot (nextRow slots j slot)

/-- The loops before the first packet leave `local_len` as it is to be there. -/
theorem Config.skipRows_atPacket (c : Config) (img : Mem) (slots j : Nat) :
    c.AtPacket img slots j (c.skipRows img slots (j / slots) (j % slots)) := by
  intro slot hs
  unfold Config.skipRows nextRow
  rw [c.addRow_apply, c.whole_rows img hs]
  by_cases hlt : slot < j % slots
  · rw [if_pos hlt, if_pos hlt]
    rfl
  · rw [if_neg hlt, if_neg hlt]

/-- The packet after packet `j`, with `n` slots in a row: the next slot of the row, or the first slot of the next row. -/
theorem succ_div_mod {n : Nat} (hpos : 0 < n) (j : Nat) :
    (j % n + 1 = n → (j + 1) / n = j / n + 1 ∧ (j + 1) % n = 0) ∧
      (j % n + 1 ≠ n → (j + 1) / n = j / n ∧ (j + 1) % n = j % n + 1) := by
  have hd := Nat.div_add_mod' j n
  have hlt := Nat.mod_lt j hpos
  constructor
  · intro he
    have e : j + 1 = (j / n + 1) * n := by rw [Nat.succ_mul]; omega
    exact ⟨by rw [e, Nat.mul_div_cancel _ hpos], by rw [e, Nat.mul_mod_left]⟩
  · intro hne
    have e : j + 1 = (j % n + 1) + j / n * n := by omega
    have hlt' : j % n + 1 < n := by omega
    constructor
    · rw [e, Nat.add_mul_div_right _ _ hpos, Nat.div_eq_of_lt hlt', Nat.zero_add]
    · rw [e, Nat.add_mul_mod_self_right, Nat.mod_eq_of_lt hlt']

/-- Behind packet `j` its slot is one row further, the others are where they were. -/
theorem nextRow_succ (hpos : 0 < slots) (j : Nat) {slot : Nat} (hs : slot < slots) :
    nextRow slots (j + 1) slot = if slot = j % slots then j / slots + 1 else nextRow slots j slot := by
  have hlt := Nat.mod_lt j hpos
  have hsucc := succ_div_mod hpos j
  unfold nextRow
  by_cases he : j % slots + 1 = slots
  · rw [(hsucc.1 he).1, (hsucc.1 he).2, if_neg (Nat.not_lt_zero _)]
    split
    · rfl
    · rw [if_pos (by omega)]
  · rw [(hsucc.2 he).1, (hsucc.2 he).2]
    split <;> split <;> first | rfl | (split <;> first | rfl | omega) | omega

/-- Recording that packet `j` was handed on moves `local_len` to the next packet. -/
theorem Config.AtPacket.succ {j : Nat} {l : Nat → Nat} (hl : c.AtPacket img slots j l) (hpos : 0 < slots) :
    c.AtPacket img slots (j + 1) (Function.update l (j % slots)
      ((l (j % slots) + img.load16 (c.lenAt (j / slots) (j % slots))) % 2 ^ 32)) := by
  intro slot hs
  rw [nextRow_succ hpos j hs]
  by_cases he : slot = j % slots
  · subst he
    rw [Function.update_self, if_pos rfl, hl _ hs, nextRow, if_neg (Nat.lt_irrefl _)]
    rfl
  · rw [Function.update_of_ne he, if_neg he]
    exact hl slot hs

/-- The loop of `dump_packet` on any mapping, from packet `j` of `n` on: it hands on the packets in order, until the end or until the
count is used up. -/
theorem Config.dumpLoop_eq (c : Config) (img : Mem) (hpos : 0 < slots) (n count : Nat) :
    ∀ (j : Nat) (l : Nat → Nat), j ≤ n → c.AtPacket img slots j l →
      c.dumpLoop img slots (n / slots) (n % slots) count (j / slots) (j % slots) l =
        ((List.range' j (min count (n - j))).map (c.packetAt img slots), min count (n - j)) := by
  induction count with
  | zero => intro j l _ _; simp [Config.dumpLoop]
  | succ count ih =>
    intro j l hj hl
    have hd := Nat.div_add_mod' j slots
    have hdn := Nat.div_add_mod' n slots
    rw [Config.dumpLoop]
    rcases Nat.lt_or_ge j n with hlt | hge
    · have hne : ¬(j / slots = n / slots ∧ j % slots = n % slots) := by
        rintro ⟨h1, h2⟩
        rw [h1, h2] at hd
        omega
      have hplace : 240 * 1024 * (j % slots) + l (j % slots) = c.readAddr img slots j := by
        rw [hl _ (Nat.mod_lt _ hpos), nextRow, if_neg (Nat.lt_irrefl _)]
        rfl
      have hnext := ih (j + 1) _ hlt (hl.succ hpos)
      have hmin : min (count + 1) (n - j) = min count (n - (j + 1)) + 1 := by omega
      have hsucc := succ_div_mod hpos j
      rw [if_neg hne, hmin, List.range'_succ, List.map_cons]
      simp only [hplace]
      by_cases he : j % slots + 1 = slots
      · rw [(hsucc.1 he).1, (hsucc.1 he).2] at hnext
        rw [if_pos he, hnext]
        rfl
      · rw [(hsucc.2 he).1, (hsucc.2 he).2] at hnext
        rw [if_neg he, hnext]
        rfl
    · obtain rfl : j = n := by omega
      rw [if_pos ⟨rfl, rfl⟩]
      simp

/-- `dump_packet` on any mapping. -/
theorem Config.dumpPacket_eq (c : Config) (img : Mem) (hpos : 0 < slots) {start : Nat} (count : Nat)
    (hs : start ≤ numCaptured img) :
    c.dumpPacket img slots start count =
      some ((List.range' start (min count (numCaptured img - start))).map (c.packetAt img slots),
        min count (numCaptured img - start)) := by
  unfold Config.dumpPacket
  rw [if_neg (Nat.ne_of_gt hpos)]
  exact congrArg some (c.dumpLoop_eq img hpos (numCaptured img) count start _ hs (c.skipRows_atPacket img slots start))

end Dump

/-! ## A mapping that holds packets -/

section Holds

variable {c : Config} {img : Mem} {pkts : List (List UInt8)}

/-- The bytes of a slot before a packet of the fill fit 32 bits. -/
theorem Config.WellLaid.slotBytes_lt (h : c.WellLaid pkts) {j : Nat} (hj : j < pkts.length) :
    slotBytes c.numRxSlots (lengthOf pkts) (j % c.numRxSlots) (j / c.numRxSlots + 1) < 2 ^ 32 := by
  have hend := h.packet_end _ hj
  have hcell : lengthOf pkts (j / c.numRxSlots * c.numRxSlots + j % c.numRxSlots) = lengthOf pkts j := by
    rw [Nat.div_add_mod']
  simp only [slotBytes, hcell]
  rcases c.cases with ⟨_, hB⟩ | ⟨_, hB⟩ | ⟨_, hB⟩ | ⟨_, hB⟩ <;> omega

/-- Adding the length of a recorded packet to the bytes before it gives the bytes before the next row. -/
theorem Config.Holds.add_length (hm : c.Holds img pkts) (h : c.WellLaid pkts) {row slot : Nat}
    (hs : slot < c.numRxSlots) (hj : row * c.numRxSlots + slot < pkts.length) :
    (slotBytes c.numRxSlots (lengthOf pkts) slot row + img.load16 (c.lenAt row slot)) % 2 ^ 32 =
      slotBytes c.numRxSlots (lengthOf pkts) slot (row + 1) := by
  obtain ⟨hdiv, hmod⟩ := c.div_mod_cell row hs
  have hlt := h.slotBytes_lt hj
  rw [hdiv, hmod] at hlt
  have hcell := hm.lens _ hj
  rw [← c.lenAt_div_mod, hdiv, hmod] at hcell
  rw [hcell]
  exact Nat.mod_eq_of_lt hlt

/-- What `dump_packet` adds up for a slot are the bytes in it. -/
theorem Config.Holds.slotSum (hm : c.Holds img pkts) (h : c.WellLaid pkts) {slot : Nat} (hs : slot < c.numRxSlots) (row : Nat)
    (hrow : ∀ r < row, r * c.numRxSlots + slot < pkts.length) :
    c.slotSum img slot row = slotBytes c.numRxSlots (lengthOf pkts) slot row := by
  induction row with
  | zero => rfl
  | succ row ih =>
    rw [Config.slotSum, ih fun r hr => hrow r (Nat.lt_succ_of_lt hr)]
    exact hm.add_length h hs (hrow row (Nat.lt_succ_self row))

/-- `dump_packet` has added up the bytes before packet `j` in its slot. -/
theorem Config.Holds.slotSum_eq (hm : c.Holds img pkts) (h : c.WellLaid pkts) {j : Nat} (hj : j < pkts.length) :
    c.slotSum img (j % c.numRxSlots) (j / c.numRxSlots) =
      slotBytes c.numRxSlots (lengthOf pkts) (j % c.numRxSlots) (j / c.numRxSlots) := by
  refine hm.slotSum h (Nat.mod_lt _ c.slots_pos) _ fun r hr => ?_
  have hd := Nat.div_add_mod' j c.numRxSlots
  have := Nat.mul_le_mul_right c.numRxSlots (Nat.le_of_lt hr)
  omega

/-- Where `dump_packet` reads packet `j`: behind the bytes before it in its slot, in a region of the tools' own size. -/
theorem Config.Holds.readAddr (hm : c.Holds img pkts) (h : c.WellLaid pkts) {j : Nat} (hj : j < pkts.length) :
    c.readAddr img c.numRxSlots j = 240 * 1024 * (j % c.numRxSlots) +
      slotBytes c.numRxSlots (lengthOf pkts) (j % c.numRxSlots) (j / c.numRxSlots) := by
  rw [Config.readAddr, hm.slotSum_eq h hj]

/-- What `dump_packet` is to hand on for packet `j`. -/
def Config.emittedAt (c : Config) (pkts : List (List UInt8)) (j : Nat) : Emitted :=
  ⟨j / c.numRxSlots, j % c.numRxSlots, pkts.getD j []⟩

/-- When the stride of the tools is the one of the driver, packet `j` is handed on as it was received. -/
theorem Config.Holds.packetAt (hm : c.Holds img pkts) (h : c.WellLaid pkts) (hstride : c.bytesPerSlot = 240 * 1024) {j : Nat}
    (hj : j < pkts.length) : c.packetAt img c.numRxSlots j = c.emittedAt pkts j := by
  have hcell : img.load16 (c.lenAt (j / c.numRxSlots) (j % c.numRxSlots)) = lengthOf pkts j := by
    rw [c.lenAt_div_mod]
    exact hm.lens j hj
  have hplace : c.readAddr img c.numRxSlots j = c.placeOf pkts j := by
    rw [hm.readAddr h hj, ← hstride]
    rfl
  rw [Config.packetAt, hcell, hplace, hm.data j hj]
  rfl

/-- `dump_packet` on a mapping that holds a list of packets. -/
theorem Config.Holds.dumpPacket (hm : c.Holds img pkts) (h : c.WellLaid pkts) (hstride : c.bytesPerSlot = 240 * 1024)
    (start count : Nat) (hs : start ≤ pkts.length) :
    c.dumpPacket img c.numRxSlots start count =
      some ((List.range' start (min count (pkts.length - start))).map (c.emittedAt pkts),
        min count (pkts.length - start)) := by
  rw [c.dumpPacket_eq img c.slots_pos count (by rw [hm.captured]; exact hs), hm.captured]
  refine congrArg (fun l => some (l, _)) (List.map_congr_left fun j hj => hm.packetAt h hstride ?_)
  obtain ⟨_, hlt⟩ := List.mem_range'_1.mp hj
  omega

end Holds

/-! ## The file -/

/-- Writing the blocks of a bucket one after the other writes one stretch of it. -/
theorem write_blocks (old front : List UInt8) (bucket : Mem) (size : Nat) :
    ∀ n, (List.range n).foldl (fun f i => OpenFile.write f (bucket.load (i * size) size)) (OpenFile.over old front) =
      OpenFile.over old (front ++ bucket.load 0 (n * size))
  | 0 => by simp [Mem.load]
  | n + 1 => by
    rw [List.range_succ, List.foldl_append, write_blocks old front bucket size n, List.foldl_cons, List.foldl_nil,
      over_write, List.append_assoc]
    have := load_append bucket 0 (n * size) size
    rw [Nat.zero_add] at this
    rw [this, Nat.succ_mul]

/-- The bucket as the writer copies it: the time stands in its header. -/
def stamped (time : Nat) (bucket : Mem) : Mem := bucket.store (lenBlockOff + userStampOff) (leBytes 8 time)

/-- The file of a bucket: its length block less the last page, its packets, and what the old file held behind them. -/
theorem todiskFile_eq (old : List UInt8) (time : Nat) (bucket : Mem) :
    ∃ tail, todiskFile old time bucket =
      (stamped time bucket).load lenBlockOff lenBlockSize ++ (stamped time bucket).load 0 lenBlockOff ++ tail := by
  unfold todiskFile
  simp only
  rw [opened_eq_over, over_write, List.nil_append, write_blocks]
  exact ⟨_, rfl⟩

/-- The first read of the file of a bucket shows the first kilobyte of its length block. -/
theorem readHeader_todiskFile (mapping : Mem) (old : List UInt8) (time : Nat) (bucket : Mem) :
    readHeader mapping (todiskFile old time bucket) =
      mapping.store lenBlockOff ((stamped time bucket).load lenBlockOff const1K) := by
  obtain ⟨tail, ht⟩ := todiskFile_eq old time bucket
  have hle : const1K ≤ ((stamped time bucket).load lenBlockOff lenBlockSize).length := by
    rw [load_length]
    unfold const1K lenBlockSize
    omega
  have hread : ((OpenFile.opened (todiskFile old time bucket)).read const1K).1 =
      (stamped time bucket).load lenBlockOff const1K := by
    simp only [OpenFile.read, OpenFile.opened, List.drop_zero]
    rw [ht, List.append_assoc, List.take_append_of_le_length hle, load_take]
    rwa [load_length] at hle
  rw [readHeader, hread]

/-- The reads of the file of a bucket show its length block less the last page, and its packets. -/
theorem readBlock_todiskFile (mapping : Mem) (old : List UInt8) (time : Nat) (bucket : Mem) :
    readBlock mapping (todiskFile old time bucket) =
      ((readHeader mapping (todiskFile old time bucket)).store lenBlockOff
        ((stamped time bucket).load lenBlockOff lenBlockSize)).store 0 ((stamped time bucket).load 0 lenBlockOff) := by
  obtain ⟨tail, ht⟩ := todiskFile_eq old time bucket
  obtain ⟨h1, h2⟩ := read_pieces ((stamped time bucket).load lenBlockOff lenBlockSize)
    ((stamped time bucket).load 0 lenBlockOff) tail (load_length _ _ _) (load_length _ _ _)
  -- the second read of the file starts at its first byte again
  have hreads : ∀ file, readBlock mapping file =
      ((readHeader mapping file).store lenBlockOff ((OpenFile.mk file 0).read lenBlockSize).1).store 0
        (((OpenFile.mk file 0).read lenBlockSize).2.read lenBlockOff).1 := fun _ => rfl
  rw [hreads, ht, h1, h2]

/-- The mapping shows the bucket in every range that lies before the length block. -/
theorem readBlock_data (mapping : Mem) (old : List UInt8) (time : Nat) (bucket : Mem) (a n : Nat)
    (h : a + n ≤ lenBlockOff) :
    (readBlock mapping (todiskFile old time bucket)).load a n = bucket.load a n := by
  rw [readBlock_todiskFile, load_store_load _ _ 0 lenBlockOff a n (Nat.zero_le _) (by omega), stamped,
    load_store_disjoint _ _ _ _ _ (by omega)]

/-- The mapping shows the bucket in every range of the length block behind the time and before the last page. -/
theorem readBlock_lens (mapping : Mem) (old : List UInt8) (time : Nat) (bucket : Mem) (a n : Nat)
    (h1 : lenBlockOff + 8 ≤ a) (h2 : a + n ≤ lenBlockOff + lenBlockSize) :
    (readBlock mapping (todiskFile old time bucket)).load a n = bucket.load a n := by
  rw [readBlock_todiskFile, load_store_disjoint _ _ _ _ _ (by rw [load_length]; omega),
    load_store_load _ _ lenBlockOff lenBlockSize a n (by omega) h2, stamped,
    load_store_disjoint _ _ _ _ _ (by rw [leBytes_length]; unfold userStampOff; omega)]

/-- The header that is read first names the number of slots that the bucket's header names. -/
theorem readHeader_slots (mapping : Mem) (old : List UInt8) (time : Nat) (bucket : Mem) :
    headerSlots (readHeader mapping (todiskFile old time bucket)) = headerSlots bucket := by
  unfold headerSlots
  apply load32_congr
  unfold numRxSlotsOff
  rw [readHeader_todiskFile, load_store_load _ _ lenBlockOff const1K _ 4 (by omega) (by unfold const1K; omega), stamped,
    load_store_disjoint _ _ _ _ _ (by rw [leBytes_length]; unfold userStampOff; omega)]

/-- A bucket that holds packets, written to a file and read back, still holds them. -/
theorem Config.Holds.readBlock {c : Config} {bucket : Mem} {pkts : List (List UInt8)} (hm : c.Holds bucket pkts)
    (h : c.WellLaid pkts) (mapping : Mem) (old : List UInt8) (time : Nat) :
    c.Holds (readBlock mapping (todiskFile old time bucket)) pkts := by
  refine ⟨fun j hj => ?_, fun j hj => ?_, ?_⟩
  · rw [readBlock_data _ _ _ _ _ _ (h.place_end hj)]
    exact hm.data j hj
  · have hend := h.len_end _ hj
    rw [← hm.lens j hj]
    apply load16_congr
    unfold lenOff at hend ⊢
    exact readBlock_lens _ _ _ _ _ _ (by omega) (by omega)
  · rw [← hm.captured]
    unfold numCaptured
    apply load32_congr
    unfold numCapturedOff
    exact readBlock_lens _ _ _ _ _ _ (by omega) (by unfold lenBlockSize; omega)

end NicRecorder
