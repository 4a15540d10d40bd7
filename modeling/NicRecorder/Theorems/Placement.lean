import NicRecorder.Placement
import NicRecorder.Lemmas.AllocSteps
import NicRecorder.Lemmas.Files

/-!
# The places of the packets of a bucket

Two statements about the places that the refill thread gives to the packets of a bucket. They are safe in every configuration and
for all traffic: a bucket closes, and until then every packet lies in the region of its slot, no two of them overlap, and every
length lies where the writers copy it and away from the shared page. And the extraction tools, which work the places out again from
the lengths, find them only where their stride is that of the driver.
-/

namespace NicRecorder

open ByteMem

/-! ## A matrix of lengths -/

/-- A matrix of lengths, row by row. -/
def Config.flat (c : Config) (len : Nat → Nat → Nat) (j : Nat) : Nat := len (j / c.numRxSlots) (j % c.numRxSlots)

/-- The bytes in a slot before the packet of a row. -/
def Config.bytesIn (c : Config) (len : Nat → Nat → Nat) (slot row : Nat) : Nat := slotBytes c.numRxSlots (c.flat len) slot row

theorem Config.flat_cell (c : Config) (len : Nat → Nat → Nat) {row slot : Nat} (hs : slot < c.numRxSlots) :
    c.flat len (row * c.numRxSlots + slot) = len row slot := by
  obtain ⟨h1, h2⟩ := c.div_mod_cell row hs
  rw [Config.flat, h1, h2]

theorem Config.bytesIn_succ (c : Config) (len : Nat → Nat → Nat) {slot : Nat} (hs : slot < c.numRxSlots) (row : Nat) :
    c.bytesIn len slot (row + 1) = c.bytesIn len slot row + len row slot := by
  rw [Config.bytesIn, slotBytes, c.flat_cell len hs]
  rfl

theorem slotBytes_congr {slots slot : Nat} {lens lens' : Nat → Nat} (row : Nat)
    (h : ∀ r < row, lens (r * slots + slot) = lens' (r * slots + slot)) :
    slotBytes slots lens slot row = slotBytes slots lens' slot row := by
  induction row with
  | zero => rfl
  | succ row ih =>
    rw [slotBytes, slotBytes, ih fun r hr => h r (Nat.lt_succ_of_lt hr), h row (Nat.lt_succ_self row)]

/-! ## The rows of a bucket -/

/-- The lengths are those of packets that the adapter delivers. -/
def DeliverableLens (len : Nat → Nat → Nat) : Prop := ∀ row slot, minPacket ≤ len row slot ∧ len row slot ≤ rxBufSize

/-- What holds when the first `k` slots of row `row` have been re-armed. -/
structure Config.InRow (c : Config) (cur : Nat) (len : Nat → Nat → Nat) (row k : Nat) (s : Placing) : Prop where
  supRow : s.supRow = row
  grown : ∀ slot < k, s.glength slot = c.bytesIn len slot row
  old : row ≠ 0 → ∀ slot, k ≤ slot → slot < c.numRxSlots → s.glength slot = c.bytesIn len slot (row - 1)
  under : ∀ r < row, ∀ slot < c.numRxSlots, c.bytesIn len slot r ≤ c.byteLimit
  limit : s.maxRow = 0 ∧ (∀ slot < k, c.bytesIn len slot row ≤ c.byteLimit) ∨ s.maxRow = (row + 1) * c.numRxSlots
  given : ∀ r slot, r < row ∧ slot < c.numRxSlots ∨ r = row ∧ slot < k →
    s.pktAddr r slot = cur * 2 ^ 30 ||| c.slotOffset slot (c.bytesIn len slot r)

/-- A bucket that was closed after a number of rows. -/
structure Config.Closed (c : Config) (cur : Nat) (len : Nat → Nat → Nat) (rows : Nat) (s : Placing) : Prop where
  under : ∀ r, r + 1 < rows → ∀ slot < c.numRxSlots, c.bytesIn len slot r ≤ c.byteLimit
  given : ∀ r < rows, ∀ slot < c.numRxSlots, s.pktAddr r slot = cur * 2 ^ 30 ||| c.slotOffset slot (c.bytesIn len slot r)

section Rows

variable {c : Config} {cur : Nat} {len : Nat → Nat → Nat} {row k : Nat} {s : Placing}

theorem Config.inRow_start (c : Config) (cur : Nat) (len : Nat → Nat → Nat) (glength : Nat → Nat) :
    c.InRow cur len 0 0 (Placing.start glength) :=
  ⟨rfl, nofun, fun h => absurd rfl h, nofun, Or.inl ⟨rfl, nofun⟩, fun _ _ h => h.elim (fun h => nomatch h.1) fun h => nomatch h.2⟩

/-- A bucket has few rows: every slot grows by at least the shortest packet. -/
theorem Config.InRow.row_le (h : c.InRow cur len row k s) (hlen : DeliverableLens len) : row ≤ c.maxRows := by
  cases row with
  | zero => exact Nat.zero_le _
  | succ r =>
    have h1 := h.under r (Nat.lt_succ_self r) 0 c.slots_pos
    have h2 : minPacket * r ≤ c.bytesIn len 0 r := le_slotBytes _ _ _ _ r fun _ _ => (hlen _ _).1
    have h3 := (Nat.le_div_iff_mul_le (show 0 < minPacket by decide)).mpr (Nat.mul_comm minPacket r ▸ Nat.le_trans h2 h1)
    exact Nat.succ_le_succ h3

/-- The length of a slot that is re-armed is the number of bytes in it. -/
theorem Config.InRow.rearmed (h : c.InRow cur len row k s) (hlen : DeliverableLens len) (hk : k < c.numRxSlots) :
    (if s.supRow = 0 then 0 else (s.glength k + len (s.supRow - 1) k) % 2 ^ 32) = c.bytesIn len k row := by
  rw [h.supRow]
  cases row with
  | zero => rfl
  | succ r =>
    have h1 := h.old (Nat.succ_ne_zero r) k (Nat.le_refl k) hk
    have h2 := h.under r (Nat.lt_succ_self r) k hk
    have h3 := (hlen r k).2
    have h4 := c.maxRows_bounds.2.2
    rw [if_neg (Nat.succ_ne_zero r), h1, Nat.add_sub_cancel, c.bytesIn_succ len hk]
    exact Nat.mod_eq_of_lt (by omega)

theorem Config.InRow.rowEnd (h : c.InRow cur len row k s) (hlen : DeliverableLens len) :
    c.rowEnd s.supRow = (row + 1) * c.numRxSlots := by
  have h1 := h.row_le hlen
  have h2 := c.maxRows_bounds.2.1
  have h3 := Nat.mul_le_mul_right c.numRxSlots (show row + 1 ≤ c.maxRows + 2 by omega)
  rw [h.supRow]
  exact Nat.mod_eq_of_lt (by omega)

/-- One slot. -/
theorem Config.InRow.armSlot (h : c.InRow cur len row k s) (hlen : DeliverableLens len) (hk : k < c.numRxSlots) :
    c.InRow cur len row (k + 1) (c.armSlot cur len s k) := by
  have hg := h.rearmed hlen hk
  have hend := h.rowEnd hlen
  have he : c.armSlot cur len s k = ⟨row, Function.update s.glength k (c.bytesIn len k row),
      if row ≠ 0 ∧ c.byteLimit < c.bytesIn len k row then (row + 1) * c.numRxSlots else s.maxRow,
      Function.update s.pktAddr row
        (Function.update (s.pktAddr row) k (cur * 2 ^ 30 ||| c.slotOffset k (c.bytesIn len k row)))⟩ := by
    unfold Config.armSlot
    dsimp only
    rw [hg, hend, h.supRow]
  rw [he]
  refine ⟨rfl, fun slot hs => ?_, fun hr slot h1 h2 => ?_, h.under, ?_, fun r slot hrs => ?_⟩ <;> dsimp only
  · rcases Nat.lt_or_ge slot k with hlt | hge
    · rw [Function.update_of_ne (Nat.ne_of_lt hlt)]
      exact h.grown slot hlt
    · obtain rfl : slot = k := by omega
      exact Function.update_self ..
  · rw [Function.update_of_ne (by omega)]
    exact h.old hr slot (by omega) h2
  · split
    · exact Or.inr rfl
    · next hlim =>
      rcases h.limit with ⟨h0, hall⟩ | h1
      · refine Or.inl ⟨h0, fun slot hs => ?_⟩
        rcases Nat.lt_or_ge slot k with hlt | hge
        · exact hall slot hlt
        · obtain rfl : slot = k := by omega
          by_contra hover
          refine hlim ⟨?_, by omega⟩
          rintro rfl
          exact hover (Nat.zero_le _)
      · exact Or.inr h1
  · by_cases hr : r = row
    · subst hr
      rw [Function.update_self]
      by_cases hs : slot = k
      · subst hs
        exact Function.update_self ..
      · rw [Function.update_of_ne hs]
        exact h.given r slot (by omega)
    · rw [Function.update_of_ne hr]
      exact h.given r slot (by omega)

/-- The slots of a row. -/
theorem Config.InRow.armSlots (h : c.InRow cur len row 0 s) (hlen : DeliverableLens len) (n : Nat) (hn : n ≤ c.numRxSlots) :
    c.InRow cur len row n ((List.range n).foldl (c.armSlot cur len) s) := by
  induction n with
  | zero => exact h
  | succ n ih =>
    rw [List.range_succ, List.foldl_append]
    exact (ih (by omega)).armSlot hlen hn

/-- A whole row: the bucket goes on, or it is closed behind the row. -/
theorem Config.InRow.armRow (h : c.InRow cur len row 0 s) (hlen : DeliverableLens len) :
    (∃ t, c.armRow cur len s = (t, none) ∧ c.InRow cur len (row + 1) 0 t) ∨
      ∃ t, c.armRow cur len s = (t, some ((row + 1) * c.numRxSlots)) ∧ c.Closed cur len (row + 1) t := by
  have hrow := h.armSlots hlen c.numRxSlots (Nat.le_refl _)
  have hle := h.row_le hlen
  have hwrap : (row + 1) % 2 ^ 16 = row + 1 := Nat.mod_eq_of_lt (by have := c.maxRows_bounds.1; omega)
  unfold Config.armRow
  generalize (List.range c.numRxSlots).foldl (c.armSlot cur len) s = u at hrow
  simp only [hrow.supRow, hwrap]
  rcases hrow.limit with ⟨h0, hall⟩ | h1
  · refine Or.inl ⟨_, if_pos h0, rfl, nofun, fun _ slot _ hs => hrow.grown slot hs, fun r hr slot hs => ?_, Or.inl ⟨h0, nofun⟩, ?_⟩
    · rcases Nat.lt_or_ge r row with hlt | hge
      · exact hrow.under r hlt slot hs
      · obtain rfl : r = row := by omega
        exact hall slot hs
    · intro r slot hrs
      exact hrow.given r slot (by omega)
  · have hne : (row + 1) * c.numRxSlots ≠ 0 := Nat.mul_ne_zero (Nat.succ_ne_zero row) (Nat.ne_of_gt c.slots_pos)
    rw [h1]
    refine Or.inr ⟨_, if_neg hne, fun r hr => hrow.under r (by omega), fun r hr slot hs => ?_⟩
    exact hrow.given r slot (by omega)

/-- The bucket is closed at last. -/
theorem Config.InRow.closes (hlen : DeliverableLens len) (m : Nat) :
    ∀ row s, row + m = c.maxRows + 1 → c.InRow cur len row 0 s →
      ∃ n t, Loop.run (c.armRow cur len) n s = (t, some ((row + n) * c.numRxSlots)) ∧ c.Closed cur len (row + n) t := by
  induction m with
  | zero =>
    intro row s hm h
    have := h.row_le hlen
    omega
  | succ m ih =>
    intro row s hm h
    rcases h.armRow hlen with ⟨t, ht, hopen⟩ | ⟨t, ht, hclosed⟩
    · obtain ⟨n, u, hrun, hu⟩ := ih (row + 1) t (by omega) hopen
      refine ⟨n + 1, u, ?_, ?_⟩
      · rw [Loop.run_goes ht, hrun, Nat.add_right_comm, Nat.add_assoc]
      · rwa [Nat.add_right_comm, Nat.add_assoc] at hu
    · exact ⟨1, t, Loop.run_ends ht 0, hclosed⟩

end Rows

/-! ## The packets of a closed bucket -/

/-- Packets with the lengths of a matrix. -/
def Config.packetsOf (c : Config) (len : Nat → Nat → Nat) (rows : Nat) : List (List UInt8) :=
  (List.range (rows * c.numRxSlots)).map fun j => List.replicate (c.flat len j) 0

section Closed

variable {c : Config} {cur : Nat} {len : Nat → Nat → Nat} {rows : Nat} {s : Placing}

@[simp] theorem Config.packetsOf_length (c : Config) (len : Nat → Nat → Nat) (rows : Nat) :
    (c.packetsOf len rows).length = rows * c.numRxSlots := by
  simp [Config.packetsOf]

theorem Config.lengthOf_packetsOf (c : Config) (len : Nat → Nat → Nat) {rows j : Nat} (hj : j < rows * c.numRxSlots) :
    lengthOf (c.packetsOf len rows) j = c.flat len j := by
  simp [lengthOf, Config.packetsOf, List.getD, hj]

theorem cell_lt {rows row slot n : Nat} (hr : row < rows) (hs : slot < n) : row * n + slot < rows * n := by
  have := Nat.mul_le_mul_right n (Nat.succ_le_of_lt hr)
  rw [Nat.succ_mul] at this
  omega

theorem Config.slotBytes_packetsOf (c : Config) (len : Nat → Nat → Nat) {rows row slot : Nat} (hr : row ≤ rows)
    (hs : slot < c.numRxSlots) :
    slotBytes c.numRxSlots (lengthOf (c.packetsOf len rows)) slot row = c.bytesIn len slot row :=
  slotBytes_congr row fun _ hr' => c.lengthOf_packetsOf len (cell_lt (Nat.lt_of_lt_of_le hr' hr) hs)

/-- A closed bucket received its packets. -/
theorem Config.Closed.receivable (h : c.Closed cur len rows s) (hlen : DeliverableLens len) :
    c.Receivable (c.packetsOf len rows) := by
  refine ⟨fun p hp => ?_, fun k slot hs hlim => ?_⟩
  · obtain ⟨j, -, rfl⟩ := List.mem_map.mp hp
    rw [List.length_replicate]
    exact hlen _ _
  · rw [c.packetsOf_length]
    refine Nat.mul_le_mul_right _ ?_
    by_contra hlt
    rw [c.slotBytes_packetsOf len (by omega) hs] at hlim
    have := h.under k (by omega) slot hs
    omega

theorem Config.placeOf_packetsOf (c : Config) (len : Nat → Nat → Nat) {rows row slot : Nat} (hr : row < rows)
    (hs : slot < c.numRxSlots) :
    c.placeOf (c.packetsOf len rows) (row * c.numRxSlots + slot) = c.slotOffset slot (c.bytesIn len slot row) := by
  obtain ⟨h1, h2⟩ := c.div_mod_cell row hs
  rw [Config.placeOf, h1, h2, c.slotBytes_packetsOf len (Nat.le_of_lt hr) hs]

end Closed

/-! ## The layout is safe -/

/-- The layout of a bucket with a number of rows is safe.

* The address of every packet is the bucket and an offset, put together without a carry; the packet lies in the region of its slot,
  and before the length block.
* The packets do not overlap.
* Every length lies in the part of the length block that the writers copy, and not on the page that is shared with the programs. -/
structure Config.SafeLayout (c : Config) (cur : Nat) (len : Nat → Nat → Nat) (rows : Nat) (s : Placing) : Prop where
  inSlot : ∀ row < rows, ∀ slot < c.numRxSlots, ∃ off, s.pktAddr row slot = cur * 2 ^ 30 ||| off ∧
    cur * 2 ^ 30 ||| off = cur * 2 ^ 30 + off ∧ c.bytesPerSlot * slot ≤ off ∧
    off + len row slot ≤ c.bytesPerSlot * (slot + 1) ∧ off + len row slot ≤ 992 * const1M
  disjoint : ∀ row < rows, ∀ slot < c.numRxSlots, ∀ row' < rows, ∀ slot' < c.numRxSlots, ¬(row = row' ∧ slot = slot') →
    s.pktAddr row slot + len row slot ≤ s.pktAddr row' slot' ∨ s.pktAddr row' slot' + len row' slot' ≤ s.pktAddr row slot
  lens : ∀ row < rows, ∀ slot < c.numRxSlots,
    lenBlockOff ≤ c.lenAt row slot ∧ c.lenAt row slot + 2 ≤ lenBlockOff + lenBlockSize
  shared : ∀ row < rows, ∀ slot < c.numRxSlots,
    cur * 2 ^ 30 + c.lenAt row slot + 2 ≤ c.globalAddr ∨ c.globalAddr + 4096 ≤ cur * 2 ^ 30 + c.lenAt row slot

theorem Config.Closed.safeLayout {c : Config} {cur rows : Nat} {len : Nat → Nat → Nat} {s : Placing}
    (h : c.Closed cur len rows s) (hlen : DeliverableLens len) (hcur : c.start1G ≤ cur) : c.SafeLayout cur len rows s := by
  have hlaid := (h.receivable hlen).wellLaid
  have hin : ∀ {row slot}, row < rows → slot < c.numRxSlots → row * c.numRxSlots + slot < (c.packetsOf len rows).length := by
    intro row slot hr hs
    rw [c.packetsOf_length]
    exact cell_lt hr hs
  have hcell : ∀ {row slot}, row < rows → slot < c.numRxSlots →
      lengthOf (c.packetsOf len rows) (row * c.numRxSlots + slot) = len row slot := by
    intro row slot hr hs
    rw [c.lengthOf_packetsOf len (cell_lt hr hs), c.flat_cell len hs]
  have hbounds : ∀ {row slot}, row < rows → slot < c.numRxSlots →
      c.bytesPerSlot * slot ≤ c.slotOffset slot (c.bytesIn len slot row) ∧
        c.slotOffset slot (c.bytesIn len slot row) + len row slot ≤ c.bytesPerSlot * (slot + 1) ∧
        c.slotOffset slot (c.bytesIn len slot row) + len row slot ≤ lenBlockOff := by
    intro row slot hr hs
    have h1 := hlaid.place_bounds (hin hr hs)
    have h2 := hlaid.place_end (hin hr hs)
    rw [c.placeOf_packetsOf len hr hs, hcell hr hs] at h1 h2
    rw [(c.div_mod_cell row hs).2] at h1
    exact ⟨h1.1, h1.2, h2⟩
  have haddr : ∀ {row slot}, row < rows → slot < c.numRxSlots →
      s.pktAddr row slot = cur * 2 ^ 30 + c.slotOffset slot (c.bytesIn len slot row) := by
    intro row slot hr hs
    have hend := (hbounds hr hs).2.2
    rw [h.given row hr slot hs, or_eq_add]
    unfold lenBlockOff const1M at hend
    omega
  have hlens : ∀ {row slot}, row < rows → slot < c.numRxSlots →
      lenBlockOff ≤ c.lenAt row slot ∧ c.lenAt row slot + 2 ≤ lenBlockOff + lenBlockSize := by
    intro row slot hr hs
    have h1 := hlaid.len_end _ (hin hr hs)
    unfold Config.lenAt
    omega
  refine ⟨fun row hr slot hs => ?_, fun row hr slot hs row' hr' slot' hs' hne => ?_, fun row hr slot hs => hlens hr hs,
    fun row hr slot hs => ?_⟩
  · exact ⟨_, h.given row hr slot hs, (h.given row hr slot hs).symm.trans (haddr hr hs), hbounds hr hs⟩
  · have hj : row * c.numRxSlots + slot ≠ row' * c.numRxSlots + slot' := by
      intro he
      obtain ⟨h1, h2⟩ := c.div_mod_cell row hs
      obtain ⟨h1', h2'⟩ := c.div_mod_cell row' hs'
      rw [he] at h1 h2
      exact hne ⟨h1.symm.trans h1', h2.symm.trans h2'⟩
    rw [haddr hr hs, haddr hr' hs']
    rcases Nat.lt_or_gt_of_ne hj with hlt | hgt
    · have hd := hlaid.disjoint hlt (hin hr' hs')
      rw [c.placeOf_packetsOf len hr hs, c.placeOf_packetsOf len hr' hs', hcell hr hs, hcell hr' hs'] at hd
      omega
    · have hd := hlaid.disjoint hgt (hin hr hs)
      rw [c.placeOf_packetsOf len hr hs, c.placeOf_packetsOf len hr' hs', hcell hr hs, hcell hr' hs'] at hd
      omega
  · obtain ⟨h1, h2⟩ := hlens hr hs
    have hblock : lenBlockOff + lenBlockSize + 4096 = 2 ^ 30 := by decide
    unfold Config.globalAddr
    rcases Nat.lt_or_ge c.start1G cur with hlt | hge
    · have := Nat.mul_le_mul_right (2 ^ 30) (Nat.succ_le_of_lt hlt)
      omega
    · obtain rfl : cur = c.start1G := by omega
      rw [Nat.succ_mul]
      omega

/-- The layout of a bucket is safe for all traffic and in every configuration. Whatever the lengths of its packets are, among those
that the adapter delivers, and whatever the slots held before: the refill thread closes the bucket after a number of rows, with
`max_row` the number of their packets, and all that it has placed by then is safe. -/
theorem bucket_layout_safe (c : Config) (cur : Nat) (hcur : c.start1G ≤ cur ∧ cur ≤ c.end1G) (len : Nat → Nat → Nat)
    (hlen : ∀ row slot, minPacket ≤ len row slot ∧ len row slot ≤ rxBufSize) (glength : Nat → Nat) :
    ∃ rows s, Loop.run (c.armRow cur len) rows (Placing.start glength) = (s, some (rows * c.numRxSlots)) ∧
      c.SafeLayout cur len rows s := by
  obtain ⟨n, s, hrun, hclosed⟩ := Config.InRow.closes hlen (c.maxRows + 1) 0 _ (Nat.zero_add _) (c.inRow_start cur len glength)
  rw [Nat.zero_add] at hrun hclosed
  exact ⟨n, s, hrun, hclosed.safeLayout hlen hcur.1⟩

/-- A bucket of the shortest packets, in the first bucket of the shipped configuration. -/
theorem bucket_layout_safe_short :
    ∃ rows s, Loop.run (Config.shipped.armRow 10 fun _ _ => 60) rows (Placing.start fun _ => 0) =
        (s, some (rows * Config.shipped.numRxSlots)) ∧
      Config.shipped.SafeLayout 10 (fun _ _ => 60) rows s :=
  bucket_layout_safe Config.shipped 10 (by decide) (fun _ _ => 60) (fun _ _ => by decide) fun _ => 0

/-! ## The stride of the extraction tools -/

/-- The offset in its bucket at which the refill thread places packet `j` of a fill, over whatever the memory and the slots held: the
packets before it have been received. -/
def Config.armedOffset (c : Config) (f : Filling) (pkts : List (List UInt8)) (j : Nat) : Nat :=
  let f := { f with mem := f.mem.store32 (lenBlockOff + numRxSlotsOff) c.numRxSlots }
  c.slotOffset (j % c.numRxSlots)
    (c.rearmLength (c.receiveAll 0 f (pkts.take j)) (j / c.numRxSlots) (j % c.numRxSlots))

section Stride

variable {c : Config} {pkts : List (List UInt8)} {j : Nat}

theorem Config.WellLaid.armedOffset (h : c.WellLaid pkts) (f : Filling) (hj : j < pkts.length) :
    c.armedOffset f pkts j = c.placeOf pkts j := by
  obtain ⟨hf, -⟩ := Config.Filled.receiveAll h (pkts.take j) 0 _ (List.take_prefix j pkts) (c.filled_zero pkts f)
  rw [Nat.zero_add, List.length_take, Nat.min_eq_left (Nat.le_of_lt hj)] at hf
  rw [Config.armedOffset, hf.rearm h hj, Config.placeOf]

/-- The tools' stride is the driver's in the shipped configuration only. -/
theorem Config.stride_iff (c : Config) : c.bytesPerSlot = 240 * 1024 ↔ c.rxSlotBits = 12 := by
  unfold Config.bytesPerSlot
  rcases c.bits_valid with h | h | h | h <;> simp [h]

/-- A packet is read where it was placed if its slot is the first one, or if the strides are the same. -/
theorem Config.Holds.readAddr_iff {img : Mem} (hm : c.Holds img pkts) (h : c.WellLaid pkts) (hj : j < pkts.length) :
    c.readAddr img c.numRxSlots j = c.placeOf pkts j ↔ c.rxSlotBits = 12 ∨ j % c.numRxSlots = 0 := by
  rw [hm.readAddr h hj, ← c.stride_iff, Config.placeOf, Config.slotOffset, Nat.add_right_cancel_iff]
  constructor
  · intro he
    rcases Nat.eq_zero_or_pos (j % c.numRxSlots) with h0 | hpos
    · exact Or.inr h0
    · exact Or.inl (Nat.eq_of_mul_eq_mul_right hpos he).symm
  · rintro (he | h0)
    · rw [he]
    · rw [h0, Nat.mul_zero, Nat.mul_zero]

end Stride

/-- The readers find the packets where the driver placed them only with the shipped number of slots. The driver fills a bucket, over
any memory, with packets that it can receive; `todisk` makes a file of it, and a tool reads the file to its mapping. From wherever
`dump_packet` begins, it takes packet `j` from one address; this is the offset at which the refill thread placed the packet if and
only if there are 4096 slots, or the packet is in the first slot. -/
theorem reader_stride_iff (c : Config) (f : Filling) (pkts : List (List UInt8))
    (hsize : ∀ p ∈ pkts, minPacket ≤ p.length ∧ p.length ≤ rxBufSize) (hfit : c.Fits pkts) (old : List UInt8) (time : Nat)
    (mapping : Mem) (j : Nat) (hj : j < pkts.length) :
    let file := todiskFile old time (c.driverImage f pkts)
    let img := readBlock mapping file
    (∀ start count, start ≤ j → j < start + count → ∃ emitted processed,
        c.dumpPacket img (headerSlots (readHeader mapping file)) start count = some (emitted, processed) ∧
          (emitted[j - start]?).map Emitted.data = some (img.load (c.readAddr img c.numRxSlots j) (lengthOf pkts j))) ∧
      (c.readAddr img c.numRxSlots j = c.armedOffset f pkts j ↔ c.rxSlotBits = 12 ∨ j % c.numRxSlots = 0) := by
  intro file img
  have h : c.WellLaid pkts := Config.Receivable.wellLaid ⟨hsize, hfit⟩
  obtain ⟨hm, hslots⟩ := c.driverImage_holds h f
  have hback : c.Holds img pkts := hm.readBlock h mapping old time
  refine ⟨fun start count h1 h2 => ?_, ?_⟩
  · have hcell : img.load16 (c.lenAt (j / c.numRxSlots) (j % c.numRxSlots)) = lengthOf pkts j := by
      rw [c.lenAt_div_mod]
      exact hback.lens j hj
    rw [readHeader_slots, hslots, c.dumpPacket_eq img c.slots_pos count (by rw [hback.captured]; omega), hback.captured]
    refine ⟨_, _, rfl, ?_⟩
    have hlt : j - start < min count (pkts.length - start) := by omega
    rw [List.getElem?_map, List.getElem?_range' hlt, Option.map_some, Option.map_some, Nat.one_mul,
      Nat.add_sub_cancel' h1, Config.packetAt, hcell]
  · rw [h.armedOffset f hj]
    exact hback.readAddr_iff h hj

/-- A configuration with 8192 slots. -/
def Config.wide : Config := { Config.shipped with rxSlotBits := 13, bits_valid := Or.inr (Or.inl rfl) }

/-- With 8192 slots the second packet of a bucket is read from where it was not placed. -/
theorem reader_stride_false :
    let pkts : List (List UInt8) := [List.replicate 60 7, List.replicate 60 8]
    let f : Filling := ⟨fun _ => 0, fun _ => 0⟩
    let img := readBlock (fun _ => 0) (todiskFile [] 0 (Config.wide.driverImage f pkts))
    (∀ p ∈ pkts, minPacket ≤ p.length ∧ p.length ≤ rxBufSize) ∧ Config.wide.Fits pkts ∧
      Config.wide.readAddr img Config.wide.numRxSlots 1 ≠ Config.wide.armedOffset f pkts 1 := by
  intro pkts f img
  have hsize : ∀ p ∈ pkts, minPacket ≤ p.length ∧ p.length ≤ rxBufSize := by decide
  have hfit : Config.wide.Fits pkts := Config.wide.fits_of_length_le (by decide)
  have h : Config.wide.WellLaid pkts := Config.Receivable.wellLaid ⟨hsize, hfit⟩
  refine ⟨hsize, hfit, fun he => ?_⟩
  rw [h.armedOffset f (by decide)] at he
  have hback := (Config.wide.driverImage_holds h f).1.readBlock h (fun _ => 0) [] 0
  exact absurd ((hback.readAddr_iff h (by decide)).mp he) (by decide)

/-- The second packet of a bucket in the shipped configuration. -/
theorem reader_stride_iff_second :
    let pkts : List (List UInt8) := [List.replicate 60 7, List.replicate 60 8]
    let f : Filling := ⟨fun _ => 0, fun _ => 0⟩
    let file := todiskFile [] 0 (Config.shipped.driverImage f pkts)
    let img := readBlock (fun _ => 0) file
    (∀ start count, start ≤ 1 → 1 < start + count → ∃ emitted processed,
        Config.shipped.dumpPacket img (headerSlots (readHeader (fun _ => 0) file)) start count = some (emitted, processed) ∧
          (emitted[1 - start]?).map Emitted.data =
            some (img.load (Config.shipped.readAddr img Config.shipped.numRxSlots 1) (lengthOf pkts 1))) ∧
      (Config.shipped.readAddr img Config.shipped.numRxSlots 1 = Config.shipped.armedOffset f pkts 1 ↔
        Config.shipped.rxSlotBits = 12 ∨ 1 % Config.shipped.numRxSlots = 0) :=
  reader_stride_iff Config.shipped _ _ (by decide) (Config.shipped.fits_of_length_le (by decide)) [] 0 _ 1 (by decide)

end NicRecorder
