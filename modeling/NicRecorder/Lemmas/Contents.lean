import NicRecorder.Lemmas.Fills
import NicRecorder.Lemmas.Machine
import NicRecorder.Theorems.Geometry

/-!
# What lies in the memory

The fills of the driver, byte for byte in the memory that it shares with the programs: every packet that the adapter has delivered lies
at its place, every length that has been recorded in its cell, as long as the driver has not entered the bucket again (`Stored`). The
programs store to the headers only, so that this holds in every run, whatever they do.
-/

namespace NicRecorder

open ByteMem Runs

/-! ## Lists of packets -/

section Lists

variable {c : Config} {pkts pkts' : List (List UInt8)}

/-- The place of a packet depends on the packets before it. -/
theorem Config.placeOf_congr {j : Nat} (h : ∀ k < j, lengthOf pkts' k = lengthOf pkts k) :
    c.placeOf pkts' j = c.placeOf pkts j := by
  unfold Config.placeOf
  congr 1
  refine slotBytes_congr _ fun r hr => h _ ?_
  have hmul := Nat.mul_le_mul_right c.numRxSlots (Nat.succ_le_of_lt hr)
  have hdiv := Nat.div_add_mod' j c.numRxSlots
  have hN := c.slots_pos
  rw [Nat.succ_mul] at hmul
  omega

/-- A packet of the first part of a list has the length that it has in the list. -/
theorem lengthOf_initial (h : pkts' <+: pkts) {j : Nat} (hj : j < pkts'.length) : lengthOf pkts' j = lengthOf pkts j := by
  obtain ⟨rest, rfl⟩ := h
  simp [lengthOf, List.getD, List.getElem?_append_left hj]

theorem getD_initial (h : pkts' <+: pkts) {j : Nat} (hj : j < pkts'.length) : pkts'.getD j [] = pkts.getD j [] := by
  obtain ⟨rest, rfl⟩ := h
  simp [List.getD, List.getElem?_append_left hj]

/-- Its place depends on the packets before it only. -/
theorem Config.placeOf_initial (h : pkts' <+: pkts) {j : Nat} (hj : j ≤ pkts'.length) : c.placeOf pkts' j = c.placeOf pkts j :=
  Config.placeOf_congr fun _ hk => lengthOf_initial h (by omega)

/-- The first packets of a list in the format of a bucket are in its format. -/
theorem Config.WellLaid.of_initial (h : c.WellLaid pkts) (hp : pkts' <+: pkts) : c.WellLaid pkts' := by
  have hle := hp.length_le
  refine ⟨fun j hj => ?_, fun j hj => ?_, fun j hj => h.len_end j (by omega)⟩
  · rw [lengthOf_initial hp hj]
    exact h.length_lt j (by omega)
  · have hend := h.packet_end j (by omega)
    have hplace := Config.placeOf_initial (c := c) hp (Nat.le_of_lt hj)
    unfold Config.placeOf Config.slotOffset at hplace
    rw [lengthOf_initial hp hj]
    omega

end Lists

/-! ## The packets of a fill, step by step -/

section Arrived

variable {c : Config} {d d' : Driver}

/-- What the adapter has delivered of a fill changes only when it delivers a packet. -/
theorem Config.Inv.arrived_alloc (hi : c.Inv d) (hs : c.allocStep d = some d') {f : Nat}
    (hf : f ≤ d'.hist.allocFill) : d'.arrived f = if f ≤ d.hist.allocFill then d.arrived f else [] := by
  have ho := hi.order
  obtain ⟨-, hsent, -⟩ := Config.allocStep_frame hs
  have hinv := hi.allocStep hs
  have ho' := hinv.order
  rw [hsent] at ho'
  unfold Driver.arrived
  rw [hsent]
  rcases Config.allocStep_starts hs with ⟨hfill, hstart⟩ | ⟨hpc, hsp, -, rfl⟩
  · rw [if_pos (by omega), hstart]
    congr 1
    rw [List.take_eq_take_iff]
    unfold Driver.fillEnd
    rw [hfill, hstart]
    split <;> omega
  · have hf' : f ≤ d.hist.allocFill + 1 := hf
    have hnext : (c.opened d).hist.allocStart (d.hist.allocFill + 1) = d.hist.armed := c.opened_base d
    split
    · next hle =>
      rw [c.opened_start d hle]
      congr 1
      rw [List.take_eq_take_iff, Driver.fillEnd_of_lt (show f < (c.opened d).hist.allocFill from Nat.lt_succ_of_le hle)]
      rcases Nat.lt_or_eq_of_le hle with hlt | rfl
      · rw [Driver.fillEnd_of_lt hlt, c.opened_start d hlt]
      · rw [Driver.fillEnd_last, hnext]
    · have he : f = d.hist.allocFill + 1 := by omega
      rw [he, hnext]
      exact List.drop_eq_nil_of_le (by rw [List.length_take]; omega)

/-- The recording thread delivers nothing. -/
theorem Config.procStep_arrived (hs : c.procStep d = some d') (f : Nat) : d'.arrived f = d.arrived f := by
  obtain ⟨-, hsent, harm, -, hfill⟩ := Config.procStep_frame hs
  unfold Driver.arrived Driver.fillEnd
  rw [hsent, harm, hfill, Config.procStep_starts hs]

/-- The packets of the fill that the adapter is in, up to now. -/
theorem Config.Inv.arrived_head (hi : c.Inv d) (hlt : d.hist.sent.length < d.hist.tailed) :
    d.hist.sent.length < d.fillEnd (d.fillAt d.hist.sent.length) ∧
      d.hist.allocStart (d.fillAt d.hist.sent.length) ≤ d.hist.sent.length := by
  have ho := hi.order
  refine ⟨?_, hi.start_fillAt (by omega)⟩
  by_cases hb : d.base ≤ d.hist.sent.length
  · rw [Driver.fillAt_of_le hb, Driver.fillEnd_last]
    omega
  · rw [Driver.fillAt_of_lt (by omega)]
    have hbase : d.base = d.hist.allocStart d.hist.allocFill := rfl
    rcases hi.agreed.fills with hsame | hn
    · have := hi.procBase_eq hsame.1
      have := hi.window.accepted_eq
      omega
    · rw [Driver.fillEnd_of_lt (by have := hn.next; omega), ← hn.next]
      omega

/-- A fill that the adapter is not in has ended, or is not begun. -/
theorem Config.Inv.fill_apart (hi : c.Inv d) (hp : c.Parted d) {f : Nat} (hf : f ≤ d.hist.allocFill)
    (hne : f ≠ d.fillAt d.hist.sent.length) :
    d.fillEnd f ≤ d.hist.sent.length ∨ d.hist.sent.length < d.hist.allocStart f := by
  have ho := hi.order
  have hbase : d.base = d.hist.allocStart d.hist.allocFill := rfl
  by_cases hb : d.base ≤ d.hist.sent.length
  · rw [Driver.fillAt_of_le hb] at hne
    left
    rw [Driver.fillEnd_of_lt (by omega)]
    have := hp.mono (show f + 1 ≤ d.hist.allocFill by omega) (Nat.le_refl _)
    omega
  · rw [Driver.fillAt_of_lt (by omega)] at hne
    have hacc := hi.window.accepted_eq
    rcases hi.agreed.fills with hsame | hn
    · have := hi.procBase_eq hsame.1
      omega
    · have hnext := hn.next
      rcases Nat.lt_or_ge f d.hist.procFill with hfp | hfp
      · left
        have hle := hp.mono (show f + 1 ≤ d.hist.procFill by omega) (by omega)
        have hstart : d.hist.allocStart d.hist.procFill = d.procBase := (hi.agreed.starts _ (Nat.le_refl _)).symm
        rw [Driver.fillEnd_of_lt (by omega)]
        omega
      · right
        rw [show f = d.hist.allocFill by omega]
        omega

/-- The adapter adds a packet to the fill it is in, and to no other. -/
theorem Config.Inv.arrived_nic (hi : c.Inv d) (hp : c.Parted d) {p : List UInt8} (hs : c.nicStep p d = some d') {f : Nat}
    (hf : f ≤ d.hist.allocFill) :
    d'.arrived f = if f = d.fillAt d.hist.sent.length then d.arrived f ++ [p] else d.arrived f := by
  have ho := hi.order
  obtain ⟨hlt, rfl⟩ := hi.nicStep_eq hs
  obtain ⟨hend, hstart⟩ := hi.arrived_head hlt
  show (List.take (d.fillEnd f) (d.hist.sent ++ [p])).drop (d.hist.allocStart f) = _
  unfold Driver.arrived
  by_cases he : f = d.fillAt d.hist.sent.length
  · rw [if_pos he]
    rw [← he] at hend hstart
    rw [List.take_of_length_le (by rw [List.length_append, List.length_singleton]; omega),
      List.take_of_length_le (by omega), List.drop_append_of_le_length hstart]
  · rw [if_neg he]
    rcases hi.fill_apart hp hf he with hle | hgt
    · rw [List.take_append_of_le_length hle]
    · rw [List.drop_eq_nil_of_le, List.drop_eq_nil_of_le] <;> rw [List.length_take]
      · omega
      · rw [List.length_append, List.length_singleton]
        omega

/-- The address that the adapter writes to is the place behind the packets of its fill. -/
theorem Config.Inv.placeAt_head (hi : c.Inv d) (hlt : d.hist.sent.length < d.hist.tailed) (p : List UInt8) :
    c.placeAt d (d.fillAt d.hist.sent.length) d.hist.sent.length =
      c.bucketOf (d.fillAt d.hist.sent.length) * 2 ^ 30 +
        c.placeOf (d.arrived (d.fillAt d.hist.sent.length) ++ [p]) (d.arrived (d.fillAt d.hist.sent.length)).length := by
  obtain ⟨hend, hstart⟩ := hi.arrived_head hlt
  generalize d.fillAt d.hist.sent.length = f at hend hstart ⊢
  have hlen : (d.arrived f).length = d.hist.sent.length - d.hist.allocStart f := by
    rw [Driver.arrived, length_take_drop]
    omega
  unfold Config.placeAt Config.placeOf
  rw [hlen]
  dsimp only
  congr 2
  refine (slotBytes_congr _ fun r hr => ?_).symm
  have hmul := Nat.mul_le_mul_right c.numRxSlots (Nat.succ_le_of_lt hr)
  have hdiv := Nat.div_add_mod' (d.hist.sent.length - d.hist.allocStart f) c.numRxSlots
  have hN := c.slots_pos
  rw [Nat.succ_mul] at hmul
  rw [lengthOf_append_left _ _ (by omega)]
  exact lengthOf_take_drop (by omega)

end Arrived

/-! ## Stores to the headers and to the lengths -/

/-- The packets of a bucket do not see a store to a length block. -/
theorem load_data_store (m : Mem) {b b' off off' n : Nat} {bs : List UInt8} (h : off + n ≤ lenBlockOff)
    (h1 : lenBlockOff ≤ off') (h2 : off' + bs.length ≤ 2 ^ 30) :
    (m.store (b' * 2 ^ 30 + off') bs).load (b * 2 ^ 30 + off) n = m.load (b * 2 ^ 30 + off) n := by
  have hbig : lenBlockOff ≤ 2 ^ 30 := by decide
  exact load_store_apart m (by omega) h2 (Or.inr (Or.inl (by omega)))

/-- A store to a header keeps the packets of every bucket. -/
theorem load_data_store_hdr (m : Mem) {b b' off off' n : Nat} {bs : List UInt8} (h : off + n ≤ lenBlockOff)
    (h2 : off' + bs.length ≤ realSize) :
    (m.store (hdrAt b' off') bs).load (b * 2 ^ 30 + off) n = m.load (b * 2 ^ 30 + off) n := by
  have hbig : lenBlockOff + realSize ≤ 2 ^ 30 := by decide
  exact load_data_store m h (Nat.le_add_right _ _) (by omega)

/-- A word of the header of a bucket. -/
def wordOf (off : Nat) (m : Mem) (b : Nat) : Nat := m.load32 (hdrAt b off)

/-- The flag of a bucket in the memory. -/
def flagOf (m : Mem) (b : Nat) : Nat := wordOf numCapturedOff m b

/-- A word of a header, in the bucket as memory of its own. -/
theorem wordOf_bucketMem (off : Nat) (m : Mem) (b : Nat) : (bucketMem m b).load32 (lenBlockOff + off) = wordOf off m b :=
  bucketMem_load32 m b _

theorem numCaptured_bucketMem (m : Mem) (b : Nat) : numCaptured (bucketMem m b) = flagOf m b := wordOf_bucketMem _ m b

/-- A word of a header does not see a store to another place. -/
theorem wordOf_store (m : Mem) {off b b' pos : Nat} {bs : List UInt8} (hoff : off + 4 ≤ realSize) (hin : pos + bs.length ≤ 2 ^ 30)
    (h : b ≠ b' ∨ pos + bs.length ≤ lenBlockOff + off ∨ lenBlockOff + off + 4 ≤ pos) :
    wordOf off (m.store (b' * 2 ^ 30 + pos) bs) b = wordOf off m b := by
  have hbig : lenBlockOff + realSize ≤ 2 ^ 30 := by decide
  exact load32_congr (load_store_apart m (by omega) hin (by omega))

/-- A store beside a word of a header keeps the word. -/
theorem wordOf_store_hdr (m : Mem) {off b b' pos : Nat} {bs : List UInt8} (hoff : off + 4 ≤ realSize)
    (hin : pos + bs.length ≤ realSize) (h : b ≠ b' ∨ pos + bs.length ≤ off ∨ off + 4 ≤ pos) :
    wordOf off (m.store (hdrAt b' pos) bs) b = wordOf off m b := by
  have hbig : lenBlockOff + realSize ≤ 2 ^ 30 := by decide
  exact wordOf_store m hoff (by omega) (by omega)

/-- A store to the word of a header in one bucket. -/
theorem wordOf_store32 (m : Mem) {off v : Nat} (b b' : Nat) (hoff : off + 4 ≤ realSize) (hv : v < 2 ^ 32) :
    wordOf off (m.store32 (hdrAt b' off) v) b = if b = b' then v else wordOf off m b := by
  split
  · next he =>
    subst he
    exact load32_store32_same m _ v hv
  · next hne =>
    exact wordOf_store_hdr m hoff (by rw [leBytes_length]; exact hoff) (Or.inl hne)

/-- A header that is cleared has no words. -/
theorem wordOf_clear (m : Mem) {off : Nat} (b b' : Nat) (hoff : off + 4 ≤ realSize) :
    wordOf off (m.store (hdrAt b' 0) (List.replicate realSize 0)) b = if b = b' then 0 else wordOf off m b := by
  split
  · next he =>
    subst he
    have hat : hdrAt b off = hdrAt b 0 + off := by
      unfold hdrAt
      omega
    rw [wordOf, Mem.load32, hat, load_store_inside _ _ _ (by rw [List.length_replicate]; exact hoff), List.drop_replicate,
      List.take_replicate, Nat.min_eq_left (by omega)]
    rfl
  · next hne => exact wordOf_store_hdr m hoff (by rw [List.length_replicate]; decide) (Or.inl hne)

/-- A store beside the flags keeps every flag. -/
theorem flagOf_store (m : Mem) {b b' pos : Nat} {bs : List UInt8} (hin : pos + bs.length ≤ 2 ^ 30)
    (h : b ≠ b' ∨ pos + bs.length ≤ lenBlockOff + numCapturedOff ∨ lenBlockOff + numCapturedOff + 4 ≤ pos) :
    flagOf (m.store (b' * 2 ^ 30 + pos) bs) b = flagOf m b := wordOf_store m (by decide) hin h

theorem flagOf_store_hdr (m : Mem) {b b' pos : Nat} {bs : List UInt8} (hin : pos + bs.length ≤ realSize)
    (h : b ≠ b' ∨ pos + bs.length ≤ numCapturedOff ∨ numCapturedOff + 4 ≤ pos) :
    flagOf (m.store (hdrAt b' pos) bs) b = flagOf m b := wordOf_store_hdr m (by decide) hin h

theorem flagOf_store32 (m : Mem) (b b' : Nat) {v : Nat} (hv : v < 2 ^ 32) :
    flagOf (m.store32 (hdrAt b' numCapturedOff) v) b = if b = b' then v else flagOf m b := wordOf_store32 m b b' (by decide) hv

section Machine

variable {H : Host} {m m' : Machine}

/-- A process of `todisk` resets the flag of its bucket, and touches no other. -/
theorem Host.todiskStep_flag {pid n time : Nat} {w : Todisk} (hs : H.todiskStep m pid w n time = some m') (b : Nat) :
    flagOf m'.mem b = if w.pc = .reset ∧ b = w.cur then 0 else flagOf m.mem b := by
  unfold Host.todiskStep at hs
  cases hpc : w.pc <;> rw [hpc] at hs <;> simp only [Option.some.injEq, reduceCtorEq, false_and, if_false] at hs ⊢
  case markStalled =>
    subst hs
    exact flagOf_store_hdr m.mem (by rw [leBytes_length]; decide) (Or.inr (Or.inr (by decide)))
  case stamp =>
    subst hs
    exact flagOf_store_hdr m.mem (by rw [leBytes_length]; decide) (Or.inr (Or.inl (by rw [leBytes_length]; decide)))
  case reset =>
    subst hs
    simp only [true_and]
    exact flagOf_store32 m.mem b w.cur (by decide)
  case poll | copyLens | copyData => split at hs <;> cases hs <;> rfl
  all_goals subst hs; rfl

/-- A process of `count_then_discard` clears the words of its bucket's header, and touches no other. -/
theorem Host.discardStep_word {pid : Nat} {v : Discard} (hs : H.discardStep m pid v = some m') {off : Nat}
    (hoff : off + 4 ≤ realSize) (b : Nat) :
    wordOf off m'.mem b = if v.pc = .clear ∧ b = v.cur then 0 else wordOf off m.mem b := by
  unfold Host.discardStep at hs
  cases hpc : v.pc <;> rw [hpc] at hs <;> simp only [Option.some.injEq, reduceCtorEq, false_and, if_false] at hs ⊢
  case clear =>
    subst hs
    simp only [true_and]
    exact wordOf_clear m.mem b v.cur hoff
  case poll => split at hs <;> cases hs <;> rfl
  all_goals subst hs; rfl

/-- The clear of a header is the only access of `count_then_discard` that changes a flag. -/
theorem Host.discardStep_flag {pid : Nat} {v : Discard} (hs : H.discardStep m pid v = some m') (b : Nat) :
    flagOf m'.mem b = if v.pc = .clear ∧ b = v.cur then 0 else flagOf m.mem b := H.discardStep_word hs (by decide) b

/-- A process leaves a flag or resets it. -/
theorem Host.execStep_flag {pid n time : Nat} (hs : H.execStep m pid n time = some m') (b : Nat) :
    flagOf m'.mem b = 0 ∨ flagOf m'.mem b = flagOf m.mem b := by
  unfold Host.execStep at hs
  split at hs
  · rw [H.todiskStep_flag hs]
    split
    · exact Or.inl rfl
    · exact Or.inr rfl
  · rw [H.discardStep_flag hs]
    split
    · exact Or.inl rfl
    · exact Or.inr rfl
  · cases hs

/-! ## The invariant -/

/-- What the driver has put into the memory: the packets at their places, the lengths in their cells, and the flags as far as no program
has reset them. -/
structure Host.Stored (H : Host) (m : Machine) : Prop where
  fills : H.config.Fills m.cap.drv
  placed : H.Placed m
  shown : H.LensShown m
  data : ∀ f ≤ m.cap.drv.hist.allocFill, m.cap.drv.hist.allocFill < f + H.config.numBuckets →
    ∀ j < (m.cap.drv.arrived f).length,
      m.mem.load (H.config.bucketOf f * 2 ^ 30 + H.config.placeOf (m.cap.drv.arrived f) j)
        (lengthOf (m.cap.drv.arrived f) j) = (m.cap.drv.arrived f).getD j []
  flag : ∀ b, H.config.IsBucket b → flagOf m.mem b = 0 ∨ flagOf m.mem b = m.cap.drv.board.captured b

/-- The loop body of `pbm_init_all` clears the words of the header of its bucket, before the number of slots. -/
theorem Config.initBucket_word (c : Config) {off : Nat} (hoff : off + 4 ≤ numRxSlotsOff) (mem : Mem) (b b' : Nat) :
    wordOf off (c.initBucket mem b') b = if b = b' then 0 else wordOf off mem b := by
  have hreal : numRxSlotsOff + 4 = realSize := by decide
  have hword : wordOf off (c.initBucket mem b') b = wordOf off (mem.store (hdrAt b' 0) (List.replicate realSize 0)) b :=
    wordOf_store_hdr _ (by omega) (by rw [leBytes_length]; decide) (Or.inr (Or.inr hoff))
  rw [hword, wordOf_clear mem b b' (by omega)]

/-- The loop of `pbm_init_all` clears the words before the number of slots. -/
theorem Config.initLoop_word (c : Config) {off : Nat} (hoff : off + 4 ≤ numRxSlotsOff) (bs : List Nat) (mem : Mem) (b : Nat)
    (h : b ∈ bs ∨ wordOf off mem b = 0) : wordOf off (bs.foldl c.initBucket mem) b = 0 := by
  induction bs generalizing mem with
  | nil =>
    rcases h with h | h
    · cases h
    · exact h
  | cons b' bs ih =>
    rw [List.foldl_cons]
    refine ih _ ?_
    rw [c.initBucket_word hoff]
    by_cases he : b = b'
    · exact Or.inr (if_pos he)
    · rw [if_neg he]
      rcases h with h | h
      · exact Or.inl ((List.mem_cons.mp h).resolve_left he)
      · exact Or.inr h

/-- Behind `pbm_init_all` they are zero in every bucket. -/
theorem Config.initAll_word (c : Config) {off b : Nat} (hoff : off + 4 ≤ numRxSlotsOff) (hb : c.IsBucket b) (mem : Mem) :
    wordOf off (c.initAll mem) b = 0 := by
  refine c.initLoop_word hoff _ mem b (Or.inl (List.mem_range'_1.mpr ⟨hb.1, ?_⟩))
  have := hb.2
  unfold Config.numBuckets
  omega

/-- The invariant holds at the start: nothing has been delivered, and every flag is zero. -/
theorem Host.stored_init (hi : H.machine.init m) : H.Stored m := by
  have hp := H.placed_init hi
  obtain ⟨ram, disk, rfl⟩ := hi
  refine ⟨H.config.fills_start _ _, hp, fun _ _ _ _ => rfl, fun f _ _ j hj => ?_, fun b hb => Or.inl (H.config.initAll_word (by decide) hb ram)⟩
  have hlen : ((H.started ram disk).cap.drv.arrived f).length = 0 := by
    rw [Driver.arrived, length_take_drop]
    show min _ 0 - _ = 0
    omega
  omega

/-- The place of a packet of a fill is below the length block. -/
theorem Host.Stored.place_end (h : H.Stored m) {f j : Nat} (hf : f ≤ m.cap.drv.hist.allocFill)
    (hj : j < (m.cap.drv.arrived f).length) :
    H.config.placeOf (m.cap.drv.arrived f) j + lengthOf (m.cap.drv.arrived f) j ≤ lenBlockOff :=
  (h.fills.parted.receivable h.fills.inv hf).wellLaid.place_end hj

/-- A store of the refill thread leaves the packets. -/
theorem Host.Stored.allocData (h : H.Stored m) {d : Driver} (hs : H.config.allocStep m.cap.drv = some d) {f j : Nat}
    (hf : f ≤ d.hist.allocFill) (hr : d.hist.allocFill < f + H.config.numBuckets) (hj : j < (d.arrived f).length) :
    (H.config.allocStore m.cap.drv m.mem).load (H.config.bucketOf f * 2 ^ 30 + H.config.placeOf (d.arrived f) j)
      (lengthOf (d.arrived f) j) = (d.arrived f).getD j [] := by
  have hfill : m.cap.drv.hist.allocFill ≤ d.hist.allocFill := by
    rcases Config.allocStep_fill hs with hk | ⟨-, -, hk, -⟩
    · exact Nat.le_of_eq hk.1.symm
    · omega
  have harr := h.fills.inv.arrived_alloc hs hf
  by_cases hle : f ≤ m.cap.drv.hist.allocFill
  · rw [if_pos hle] at harr
    rw [harr] at hj ⊢
    have hold := h.data f hle (by omega) j hj
    have hend := h.place_end hle hj
    unfold Config.allocStore
    split
    · rw [Mem.store32, load_data_store_hdr _ hend (by rw [leBytes_length]; decide)]
      exact hold
    · exact hold
  · rw [if_neg hle] at harr
    rw [harr] at hj
    exact absurd hj (Nat.not_lt_zero _)

/-- A store of the recording thread leaves the packets. -/
theorem Host.Stored.procData (h : H.Stored m) {f j : Nat} (hf : f ≤ m.cap.drv.hist.allocFill)
    (hr : m.cap.drv.hist.allocFill < f + H.config.numBuckets) (hj : j < (m.cap.drv.arrived f).length) :
    (m.cap.drv.procStore m.mem).load (H.config.bucketOf f * 2 ^ 30 + H.config.placeOf (m.cap.drv.arrived f) j)
      (lengthOf (m.cap.drv.arrived f) j) = (m.cap.drv.arrived f).getD j [] := by
  have hold := h.data f hf hr j hj
  have hend := h.place_end hf hj
  unfold Driver.procStore
  split
  · next hpc =>
    have hblock := h.fills.inv.store_inBlock hpc
    have hbig : lenBlockOff + lenBlockSize ≤ 2 ^ 30 := by decide
    rw [Mem.store16, hdrAt, load_data_store _ hend (Nat.le_add_right _ _) (by rw [leBytes_length]; omega)]
    exact hold
  · rw [Mem.store32, load_data_store_hdr _ hend (by rw [leBytes_length]; decide)]
    exact hold
  · rw [Mem.store32, load_data_store_hdr _ hend (by rw [leBytes_length]; decide)]
    exact hold
  · exact hold

/-- The adapter puts a packet behind those of its fill, and leaves all others. -/
theorem Host.Stored.nicData (h : H.Stored m) {d : Driver} {p : List UInt8} (hp : Deliverable p)
    (hs : H.config.nicStep p m.cap.drv = some d) {f j : Nat} (hf : f ≤ m.cap.drv.hist.allocFill)
    (hr : m.cap.drv.hist.allocFill < f + H.config.numBuckets) (hj : j < (d.arrived f).length) :
    (m.mem.store (m.cap.drv.ring m.cap.drv.nicHead).pktAddr p).load
      (H.config.bucketOf f * 2 ^ 30 + H.config.placeOf (d.arrived f) j) (lengthOf (d.arrived f) j) =
        (d.arrived f).getD j [] := by
  have hi := h.fills.inv
  obtain ⟨hlt, -⟩ := hi.nicStep_eq hs
  obtain ⟨hne, -⟩ := Config.nicStep_frame hs
  have hfill' : d.hist.allocFill = m.cap.drv.hist.allocFill := by
    obtain ⟨-, rfl⟩ := hi.nicStep_eq hs
    rfl
  -- the place of the new packet, and that the list with it is in the format of a bucket
  have haddr := (h.fills.aimed.head hi hne).trans (hi.placeAt_head hlt p)
  have hg := Driver.fillAt_le hi m.cap.drv.hist.sent.length
  have hg' := Driver.le_fillAt hi m.cap.drv.hist.sent.length
  have harr := hi.arrived_nic h.fills.parted hs hf
  have hnew := hi.arrived_nic h.fills.parted hs hg
  rw [if_pos rfl] at hnew
  have hlaid : ∀ g ≤ m.cap.drv.hist.allocFill, H.config.WellLaid (d.arrived g) := fun g hg =>
    ((h.fills.parted.nicStep hi hs).receivable (hi.nicStep hp hs) (by omega)).wellLaid
  generalize m.cap.drv.fillAt m.cap.drv.hist.sent.length = g at *
  have hlaidg := hlaid g hg
  rw [hnew] at hlaidg
  generalize hpk : m.cap.drv.arrived g = pk at *
  have hk : pk.length < (pk ++ [p]).length := by
    rw [List.length_append, List.length_singleton]
    omega
  have hend := hlaidg.place_end hk
  have hlen : lengthOf (pk ++ [p]) pk.length = p.length := by simp [lengthOf]
  rw [hlen] at hend
  have hbig : lenBlockOff ≤ 2 ^ 30 := by decide
  have hendf := (hlaid f hf).place_end hj
  rw [haddr]
  by_cases he : f = g
  · subst he
    rw [if_pos rfl, hpk] at harr
    rw [harr] at hj hendf ⊢
    rw [List.length_append, List.length_singleton] at hj
    rcases Nat.lt_or_eq_of_le (Nat.le_of_lt_succ hj) with hjlt | rfl
    · -- an earlier packet of the fill
      have hd := hlaidg.disjoint hjlt hk
      rw [hlen] at hd
      rw [load_store_apart m.mem (by omega) (by omega) (Or.inr hd)]
      have hold := h.data f hf hr j (by rw [hpk]; exact hjlt)
      rw [hpk] at hold
      have hpre : pk <+: pk ++ [p] := List.prefix_append _ _
      rw [← lengthOf_initial hpre hjlt, ← Config.placeOf_initial hpre (Nat.le_of_lt hjlt), ← getD_initial hpre hjlt]
      exact hold
    · rw [hlen, load_store_same]
      simp
  · -- a packet of another bucket
    rw [if_neg he] at harr
    rw [harr] at hj hendf ⊢
    have hB := H.writers_le
    have hb : H.config.bucketOf f ≠ H.config.bucketOf g := by
      rcases Nat.lt_or_gt_of_ne he with hfg | hfg
      · exact Config.bucketOf_ne hfg (by omega)
      · exact (Config.bucketOf_ne hfg (by omega)).symm
    rw [load_store_apart m.mem (by omega) (by omega) (Or.inl hb)]
    exact h.data f hf hr j hj

/-- The store of a flag by a thread, on the board and in the memory. -/
theorem flag_posted {mem : Mem} {captured : Nat → Nat} {b cur v : Nat} (hv : v < 2 ^ 32)
    (h : flagOf mem b = 0 ∨ flagOf mem b = captured b) :
    flagOf (mem.store32 (hdrAt cur numCapturedOff) v) b = 0 ∨
      flagOf (mem.store32 (hdrAt cur numCapturedOff) v) b = Function.update captured cur v b := by
  rw [flagOf_store32 mem b cur hv, Function.update_apply]
  split
  · exact Or.inr rfl
  · exact h

/-- A store of the refill thread leaves a flag that is zero or the one on its board. -/
theorem Host.Stored.allocFlag (h : H.Stored m) {d : Driver} (hs : H.config.allocStep m.cap.drv = some d) {b : Nat}
    (hb : H.config.IsBucket b) :
    flagOf (H.config.allocStore m.cap.drv m.mem) b = 0 ∨
      flagOf (H.config.allocStore m.cap.drv m.mem) b = d.board.captured b := by
  have hold := h.flag b hb
  unfold Config.allocStore
  split
  · next hpc =>
    simp only [Config.allocStep, hpc, Option.some.injEq] at hs
    rw [← hs]
    exact flag_posted (Nat.mod_lt _ (by decide)) hold
  · next hpc =>
    rw [(Config.allocStep_board hs hpc).1]
    exact hold

/-- So does a store of the recording thread. -/
theorem Host.Stored.procFlag (h : H.Stored m) {d : Driver} (hs : H.config.procStep m.cap.drv = some d) {b : Nat}
    (hb : H.config.IsBucket b) :
    flagOf (m.cap.drv.procStore m.mem) b = 0 ∨ flagOf (m.cap.drv.procStore m.mem) b = d.board.captured b := by
  have hold := h.flag b hb
  unfold Driver.procStore
  split
  · next hpc =>
    have hblock := h.fills.inv.store_inBlock hpc
    have hbig : lenBlockOff + lenBlockSize ≤ 2 ^ 30 := by decide
    have hword : numCapturedOff + 4 ≤ lenOff := by decide
    rw [(Config.procStep_captured hs (by rw [hpc]; decide)).1, Mem.store16, hdrAt,
      flagOf_store _ (by rw [leBytes_length]; omega) (Or.inr (Or.inr (by omega)))]
    exact hold
  · next hpc =>
    have hlt := h.fills.inv.curPartial_lt
    simp only [Config.procStep, hpc, Option.some.injEq] at hs
    rw [← hs]
    exact flag_posted (by omega) hold
  · next hpc =>
    rw [(Config.procStep_captured hs (by rw [hpc]; decide)).1, Mem.store32,
      flagOf_store_hdr _ (by rw [leBytes_length]; decide) (Or.inr (Or.inr (by decide)))]
    exact hold
  · next hpc _ =>
    rw [(Config.procStep_captured hs hpc).1]
    exact hold

/-- The memory and the flags, for a step of the driver or of the adapter. -/
theorem Host.Stored.drv (h : H.Stored m) {cap : Capture} {a : Act} (hw : NicRecorder.AcceptsWritten m.cap a)
    (hs : H.config.Step 0 m.cap a cap) :
    H.Stored { m with cap := cap, mem := H.config.driverStore m.cap.drv m.mem a } := by
  have hst : H.Step m (.drv a) { m with cap := cap, mem := H.config.driverStore m.cap.drv m.mem a } := Host.Step.drv a hs
  refine ⟨h.fills.step hw hs, h.placed.step (a := .drv a) hw hst, h.shown.step h.placed hst, ?_, ?_⟩
  · intro f hf hr j hj
    cases hs with
    | alloc hs => exact h.allocData hs hf hr hj
    | proc hs =>
      obtain ⟨-, -, -, -, hfill⟩ := Config.procStep_frame hs
      dsimp only at hf hr hj ⊢
      rw [hfill] at hf hr
      rw [Config.procStep_arrived hs] at hj ⊢
      exact h.procData hf hr hj
    | nic p hp hs =>
      obtain ⟨-, ring, head, ram, slot, he⟩ := Config.nicStep_frame hs
      have hfill := congrArg (fun d : Driver => d.hist.allocFill) he
      dsimp only at hf hr hj hfill ⊢
      rw [hfill] at hf hr
      exact h.nicData hp hs hf hr hj
    | userStart | userStop => exact h.data f hf hr j hj
    | visit k hk => exact absurd hk (Nat.not_lt_zero k)
  · intro b hb
    cases hs with
    | alloc hs => exact h.allocFlag hs hb
    | proc hs => exact h.procFlag hs hb
    | nic p hp hs =>
      have hroom := h.placed.inside m.cap.drv.nicHead
      have hlen := hp.2
      have hbig : lenBlockOff ≤ 2 ^ 30 := by decide
      obtain ⟨-, ring, head, ram, slot, rfl⟩ := Config.nicStep_frame hs
      unfold Config.driverStore
      dsimp only
      rw [← Nat.div_add_mod' (m.cap.drv.ring m.cap.drv.nicHead).pktAddr (2 ^ 30),
        flagOf_store _ (by omega) (Or.inr (Or.inl (by omega)))]
      exact h.flag b hb
    | userStart | userStop => exact h.flag b hb
    | visit k hk => exact absurd hk (Nat.not_lt_zero k)

/-- A process, whatever it does, leaves what the driver has stored but for the flags that it resets. -/
theorem Host.Stored.exec (h : H.Stored m) {pid n time : Nat} (hs : H.execStep m pid n time = some m') : H.Stored m' := by
  have hst : H.Step m (.exec pid n time) m' := Host.Step.exec pid n time hs
  obtain ⟨p, -, hm⟩ := H.execStep_moves hs
  have hfills : H.config.Fills m'.cap.drv := by
    rcases hm.cap with hc | hc
    · rw [hc]
      exact h.fills
    · rw [hc]
      exact h.fills.command m.cap.drv.board.userStart true
  have hhist : m'.cap.drv.hist = m.cap.drv.hist ∧ m'.cap.drv.board.captured = m.cap.drv.board.captured := by
    rcases hm.cap with hc | hc <;> rw [hc] <;> exact ⟨rfl, rfl⟩
  have harr : ∀ f, m'.cap.drv.arrived f = m.cap.drv.arrived f := fun f => by
    unfold Driver.arrived Driver.fillEnd
    rw [hhist.1]
  refine ⟨hfills, h.placed.step (a := .exec pid n time) trivial hst, h.shown.step h.placed hst, fun f hf hr j hj => ?_, fun b hb => ?_⟩
  · rw [hhist.1] at hf hr
    rw [harr] at hj ⊢
    have hold := h.data f hf hr j hj
    rcases hm.mem with he | ⟨off, bs, hoff, he⟩
    · rw [he]
      exact hold
    · rw [he, load_data_store_hdr _ (h.place_end hf hj) hoff]
      exact hold
  · rw [hhist.2]
    rcases H.execStep_flag hs b with he | he
    · exact Or.inl he
    · rw [he]
      exact h.flag b hb

/-- Every step keeps what the driver has stored. -/
theorem Host.Stored.step {a : MachineAct} (h : H.Stored m) (hw : m.AcceptsWritten a) (hst : H.Step m a m') : H.Stored m' := by
  have hplaced := h.placed.step hw hst
  have hshown := h.shown.step h.placed hst
  cases hst with
  | drv a hs => exact h.drv hw hs
  | startTodisk pid id hnone hid | startDiscard pid hnone | kill pid => exact ⟨h.fills, hplaced, hshown, h.data, h.flag⟩
  | exec pid n time hs => exact h.exec hs

end Machine

end NicRecorder
