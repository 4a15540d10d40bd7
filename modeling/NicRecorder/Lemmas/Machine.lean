import NicRecorder.Machine
import NicRecorder.Lemmas.CaptureRuns
import NicRecorder.Lemmas.Handover
import NicRecorder.Lemmas.Files

/-!
# Where the driver and the programs store

The stores of a run, by the place they go to. A packet goes below the length block of its bucket (`Inside`), a length behind the
header, and everything else to a word of the header. The word with the number of slots is written by `pbm_init_all` and by the clear
of `count_then_discard`, and by nothing else.
-/

namespace NicRecorder

open ByteMem Runs

variable {c : Config} {d d' : Driver}

/-! ## Places in the memory -/

/-- A load of a range of a bucket does not see a store to another bucket, or to a range apart from its own. -/
theorem load_store_apart (m : Mem) {b b' off off' n : Nat} {bs : List UInt8} (h : off + n ≤ 2 ^ 30)
    (h' : off' + bs.length ≤ 2 ^ 30) (hd : b ≠ b' ∨ off + n ≤ off' ∨ off' + bs.length ≤ off) :
    (m.store (b' * 2 ^ 30 + off') bs).load (b * 2 ^ 30 + off) n = m.load (b * 2 ^ 30 + off) n := by
  refine load_store_disjoint m _ bs _ n ?_
  omega

/-- A bucket as memory of its own begins at its gigabyte. -/
theorem bucketMem_load (m : Mem) (b a n : Nat) : (bucketMem m b).load a n = m.load (b * 2 ^ 30 + a) n := by
  apply List.map_congr_left
  intro k _
  rw [bucketMem, Nat.add_assoc]

/-- A word of its header. -/
theorem bucketMem_load32 (m : Mem) (b off : Nat) : (bucketMem m b).load32 (lenBlockOff + off) = m.load32 (hdrAt b off) :=
  congrArg leNat (bucketMem_load m b _ 4)

/-- A store to the packets, to the first words of a header or to the lengths of a bucket keeps the number of slots of every bucket. -/
theorem load_slots_store (m : Mem) {b' off : Nat} {bs : List UInt8} (hin : off + bs.length ≤ 2 ^ 30)
    (hoff : off + bs.length ≤ lenBlockOff + numRxSlotsOff ∨ lenBlockOff + realSize ≤ off) (b : Nat) :
    (m.store (b' * 2 ^ 30 + off) bs).load (hdrAt b numRxSlotsOff) 4 = m.load (hdrAt b numRxSlotsOff) 4 := by
  refine load_store_apart m (by decide) hin (Or.inr ?_)
  unfold numRxSlotsOff realSize at *
  omega

/-- A store to one of the first words of a header keeps the number of slots of every bucket. -/
theorem load_slots_store_hdr (m : Mem) {b' off : Nat} {bs : List UInt8} (hoff : off + bs.length ≤ numRxSlotsOff) (b : Nat) :
    (m.store (hdrAt b' off) bs).load (hdrAt b numRxSlotsOff) 4 = m.load (hdrAt b numRxSlotsOff) 4 := by
  have hbig : lenBlockOff + numRxSlotsOff ≤ 2 ^ 30 := by decide
  exact load_slots_store m (by omega) (Or.inl (by omega)) b

/-! ## The start -/

/-- The bytes of the number of slots, as `pbm_init_all` stores them. -/
def Config.slotWord (c : Config) : List UInt8 := leBytes 4 c.numRxSlots

@[simp] theorem Config.slotWord_length (c : Config) : c.slotWord.length = 4 := leBytes_length 4 _

/-- The stored word is the number of slots. -/
theorem Config.leNat_slotWord (c : Config) : leNat c.slotWord = c.numRxSlots :=
  leNat_leBytes 4 _ (Nat.lt_of_le_of_lt c.slots_le (by decide))

/-- The loop body of `pbm_init_all` stores the number of slots in its bucket and leaves the other buckets alone. -/
theorem Config.initBucket_slots (c : Config) (m : Mem) (b b' : Nat) :
    (c.initBucket m b').load (hdrAt b numRxSlotsOff) 4 = if b = b' then c.slotWord else m.load (hdrAt b numRxSlotsOff) 4 := by
  unfold Config.initBucket Mem.store32
  split
  · next he =>
    subst he
    exact load_store_same _ (hdrAt b numRxSlotsOff) c.slotWord
  · next hne =>
    have hword : numRxSlotsOff + 4 ≤ realSize := by decide
    have hin : lenBlockOff + realSize ≤ 2 ^ 30 := by decide
    unfold hdrAt
    rw [load_store_apart _ (by omega) (by rw [leBytes_length]; omega) (Or.inl hne),
      load_store_apart _ (by omega) (by rw [List.length_replicate]; omega) (Or.inl hne)]

/-- The loop of `pbm_init_all`: every bucket it has been through names the slots of the ring. -/
theorem Config.initLoop_slots (c : Config) (bs : List Nat) (m : Mem) (b : Nat)
    (h : b ∈ bs ∨ m.load (hdrAt b numRxSlotsOff) 4 = c.slotWord) :
    (bs.foldl c.initBucket m).load (hdrAt b numRxSlotsOff) 4 = c.slotWord := by
  induction bs generalizing m with
  | nil =>
    rcases h with h | h
    · cases h
    · exact h
  | cons b' bs ih =>
    rw [List.foldl_cons]
    refine ih _ ?_
    rw [c.initBucket_slots]
    by_cases he : b = b'
    · exact Or.inr (if_pos he)
    · rw [if_neg he]
      rcases h with h | h
      · exact Or.inl ((List.mem_cons.mp h).resolve_left he)
      · exact Or.inr h

/-- `pbm_init_all` stores the number of slots in every bucket. -/
theorem Config.initAll_slots (c : Config) (m : Mem) {b : Nat} (h1 : c.start1G ≤ b) (h2 : b ≤ c.end1G) :
    (c.initAll m).load (hdrAt b numRxSlotsOff) 4 = c.slotWord := by
  refine c.initLoop_slots _ m b (Or.inl (List.mem_range'_1.mpr ⟨h1, ?_⟩))
  unfold Config.numBuckets
  omega

/-! ## The packets -/

/-- Every descriptor, armed or not, points to a place with room for a packet below the length block. -/
def Driver.Inside (d : Driver) : Prop := ∀ x, (d.ring x).pktAddr % 2 ^ 30 + rxBufSize ≤ lenBlockOff

/-- At the start no descriptor has an address. -/
theorem Config.inside_start (c : Config) (lens : Nat → Nat → Nat) (ram : Mem) : (c.startDriver lens ram).Inside := by
  intro x
  show 0 % 2 ^ 30 + rxBufSize ≤ lenBlockOff
  decide

/-- The address that is stored leaves room for a packet below the length block. -/
theorem Config.Inv.address_inside (h : c.Inv d) (hpc : d.alloc.pc = .setAddr) :
    (d.alloc.cur * 2 ^ 30 ||| c.slotOffset d.alloc.supPartial (d.alloc.glength d.alloc.supPartial)) % 2 ^ 30 + rxBufSize ≤
      lenBlockOff := by
  have hb := h.window.batch (by rw [hpc]; rfl)
  have hg := h.glength_le hpc
  have hl := c.byteLimit_add
  have hm := c.slots_mul_bytes
  have hle := Nat.mul_le_mul_left c.bytesPerSlot (show d.alloc.supPartial + 1 ≤ c.numRxSlots by omega)
  have hlt := h.slotOffset_lt hpc
  rw [Nat.mul_succ, Nat.mul_comm c.bytesPerSlot c.numRxSlots, hm] at hle
  rw [or_eq_add hlt, Nat.mul_comm, Nat.mul_add_mod, Nat.mod_eq_of_lt hlt]
  unfold Config.slotOffset lenBlockOff
  unfold const1M at *
  omega

/-- The refill thread arms a descriptor with a place for a packet before the length block of its bucket. -/
theorem Driver.Inside.allocStep (hin : d.Inside) (h : c.Inv d) (hs : c.allocStep d = some d') : d'.Inside := by
  unfold Config.allocStep at hs
  cases hpc : d.alloc.pc <;> rw [hpc] at hs <;> simp only [Option.some.injEq, reduceCtorEq] at hs
  case clearHdr =>
    subst hs
    intro x
    dsimp only
    rw [update_dd]
    exact hin x
  case setAddr =>
    subst hs
    intro x
    dsimp only
    by_cases hx : x = d.alloc.supPartial
    · rw [hx, Function.update_self]
      exact h.address_inside hpc
    · rw [Function.update_of_ne hx]
      exact hin x
  case readClean => split at hs <;> cases hs <;> exact hin
  case endRow =>
    subst hs
    unfold Config.endRow
    split
    · split <;> exact hin
    · exact hin
  all_goals subst hs; exact hin

/-- Every step keeps the packets below the length block. -/
theorem Driver.Inside.step {writers : Nat} {s t : Capture} {a : Act} (hin : s.drv.Inside) (h : c.Inv s.drv)
    (hst : c.Step writers s a t) : t.drv.Inside := by
  cases hst with
  | alloc hs => exact hin.allocStep h hs
  | proc hs =>
    intro x
    dsimp only
    rw [(Config.procStep_ring hs).1]
    exact hin x
  | nic p hp hs =>
    unfold Config.nicStep at hs
    split at hs <;> cases hs
    intro x
    dsimp only
    rw [update_dd]
    exact hin x
  | userStart | userStop => exact hin
  | visit k hk =>
    obtain ⟨captured, he, -⟩ := c.visitStep_drv k s
    rw [he]
    exact hin

/-! ## The stores of the driver -/

/-- A length is stored in the part of the length block that is copied. -/
theorem Config.Inv.store_inBlock (h : c.Inv d) (hpc : d.proc.pc = .store) :
    lenOff + 2 * (d.proc.curPartial + 1) ≤ lenBlockSize := by
  have hnext := (h.store hpc).curPartial_le
  have hblock := c.rows_inBlock
  dsimp only at hnext
  rw [Nat.mod_eq_of_lt (by have := h.curPartial_lt; omega)] at hnext
  omega

/-- No store of the driver or of the adapter changes the number of slots of a bucket. -/
theorem Config.driverStore_slots {writers : Nat} {s t : Capture} {a : Act} (h : c.Inv s.drv) (hin : s.drv.Inside)
    (hst : c.Step writers s a t) (m : Mem) (b : Nat) :
    (c.driverStore s.drv m a).load (hdrAt b numRxSlotsOff) 4 = m.load (hdrAt b numRxSlotsOff) 4 := by
  cases hst with
  | alloc hs =>
    unfold Config.driverStore Config.allocStore
    dsimp only
    split
    · exact load_slots_store_hdr m (by rw [leBytes_length]; decide) b
    · rfl
  | proc hs =>
    unfold Config.driverStore Driver.procStore
    dsimp only
    split
    · next hpc =>
      -- a length lies behind the header and in its bucket
      have hblock := h.store_inBlock hpc
      have hbig : lenBlockOff + lenBlockSize ≤ 2 ^ 30 := by decide
      have hreal : realSize ≤ lenOff := by decide
      exact load_slots_store m (by rw [leBytes_length]; omega) (Or.inr (by omega)) b
    · exact load_slots_store_hdr m (by rw [leBytes_length]; decide) b
    · exact load_slots_store_hdr m (by rw [leBytes_length]; decide) b
    · rfl
  | nic p hp hs =>
    have hroom := hin s.drv.nicHead
    have hbig : lenBlockOff ≤ 2 ^ 30 := by decide
    have hlen := hp.2
    unfold Config.driverStore
    rw [← Nat.div_add_mod' (s.drv.ring s.drv.nicHead).pktAddr (2 ^ 30)]
    exact load_slots_store m (by omega) (Or.inl (by omega)) b
  | userStart | userStop | visit k hk => rfl

variable {H : Host} {m m' : Machine}

/-- The recording thread accepts only what was written back. -/
def Machine.AcceptsWritten (m : Machine) : MachineAct → Prop
  | .drv a => NicRecorder.AcceptsWritten m.cap a
  | _ => True

/-! ## The processes -/

/-- A bucket of the host. -/
def Config.IsBucket (c : Config) (b : Nat) : Prop := c.start1G ≤ b ∧ b ≤ c.end1G

/-- A program counts round the buckets. -/
theorem Config.isBucket_add_mod (c : Config) (x : Nat) : c.IsBucket (c.start1G + x % c.numBuckets) := by
  have hlt := Nat.mod_lt x c.numBuckets_pos
  have hs := c.start_le_end
  unfold Config.numBuckets at hlt
  unfold Config.IsBucket Config.numBuckets
  omega

/-- The first bucket is one. -/
theorem Config.isBucket_start (c : Config) : c.IsBucket c.start1G := ⟨Nat.le_refl _, c.start_le_end⟩

/-- What holds in every run in which the recording thread accepts only what was written back: the invariant of the driver, and
every process is at a bucket. -/
structure Host.Placed (H : Host) (m : Machine) : Prop where
  inv : H.config.Inv m.cap.drv
  inside : m.cap.drv.Inside
  at_bucket : ∀ pid p, m.prog pid = some p → H.config.IsBucket p.cur

/-- What a step of a process does outside the files: it changes its own variables, stays in the buckets, may issue the stop, and stores
nothing but in the header of its bucket. -/
structure Host.Moves (H : Host) (m m' : Machine) (pid cur : Nat) : Prop where
  prog : ∃ p, m'.prog = Function.update m.prog pid (some p) ∧ (H.config.IsBucket cur → H.config.IsBucket p.cur)
  cap : m'.cap = m.cap ∨ m'.cap = m.raiseStop.cap
  mem : m'.mem = m.mem ∨ ∃ off bs, off + bs.length ≤ realSize ∧ m'.mem = m.mem.store (hdrAt cur off) bs

/-- The head of the loop changes the counters of the stop only. -/
theorem Todisk.again0_vars (w : Todisk) (userStop : Bool) :
    (w.again0 userStop).cur = w.cur ∧ (w.again0 userStop).id = w.id ∧ (w.again0 userStop).fileCount = w.fileCount ∧
      (w.again0 userStop).lenDone = w.lenDone := by
  unfold Todisk.again0
  split <;> exact ⟨rfl, rfl, rfl, rfl⟩

/-- At the end of the loop nothing of the next length block has been copied, and the process stays at a bucket. -/
theorem Host.endBlock_vars (H : Host) (w : Todisk) :
    (H.endBlock w).lenDone = 0 ∧ (H.config.IsBucket w.cur → H.config.IsBucket (H.endBlock w).cur) := by
  unfold Host.endBlock
  dsimp only
  split
  · exact ⟨rfl, id⟩
  · split
    · exact ⟨rfl, id⟩
    · exact ⟨rfl, fun _ => H.config.isBucket_add_mod _⟩

/-- The head of the loop leads to the poll or to the end. -/
theorem Todisk.again0_pc (w : Todisk) (userStop : Bool) :
    (w.again0 userStop).pc = .exited ∨ (w.again0 userStop).pc = .poll := by
  unfold Todisk.again0
  split
  · exact Or.inl rfl
  · exact Or.inr rfl

/-- The end of the loop leads to its head or to the end of the process. -/
theorem Host.endBlock_pc (H : Host) (w : Todisk) : (H.endBlock w).pc = .exited ∨ (H.endBlock w).pc = .again0 := by
  unfold Host.endBlock
  dsimp only
  split
  · exact Or.inl rfl
  · split
    · exact Or.inl rfl
    · exact Or.inr rfl

/-- The head of the loop stays at the bucket. -/
theorem Discard.again0_cur (v : Discard) (userStop : Bool) : (v.again0 userStop).cur = v.cur := by
  unfold Discard.again0
  split <;> rfl

/-- Of the driver a process of `todisk` changes only the stop, when it finds itself late. -/
theorem Host.todiskStep_cap {pid n time : Nat} {w : Todisk} (hs : H.todiskStep m pid w n time = some m') :
    m'.cap = if w.pc = .raiseStop then m.raiseStop.cap else m.cap := by
  unfold Host.todiskStep at hs
  cases hpc : w.pc <;> rw [hpc] at hs <;> simp only [Option.some.injEq, reduceCtorEq, if_false, if_true] at hs ⊢
  case poll | copyLens | copyData => split at hs <;> cases hs <;> rfl
  all_goals subst hs; rfl

/-- A step of `todisk` is one of the process at its bucket. -/
theorem Host.todiskStep_moves {pid n time : Nat} {w : Todisk} (hs : H.todiskStep m pid w n time = some m') :
    H.Moves m m' pid w.cur := by
  unfold Host.todiskStep at hs
  cases hpc : w.pc <;> rw [hpc] at hs <;> simp only [Option.some.injEq, reduceCtorEq] at hs
  case again0 =>
    subst hs
    exact ⟨⟨_, rfl, (w.again0_vars _).1 ▸ id⟩, Or.inl rfl, Or.inl rfl⟩
  case raiseStop =>
    subst hs
    exact ⟨⟨_, rfl, id⟩, Or.inr rfl, Or.inl rfl⟩
  case markStalled | stamp | reset =>
    subst hs
    exact ⟨⟨_, rfl, id⟩, Or.inl rfl, Or.inr ⟨_, _, by rw [leBytes_length]; decide, rfl⟩⟩
  case close =>
    subst hs
    exact ⟨⟨_, rfl, (H.endBlock_vars w).2⟩, Or.inl rfl, Or.inl rfl⟩
  case poll | copyLens | copyData =>
    split at hs <;> cases hs <;> exact ⟨⟨_, rfl, id⟩, Or.inl rfl, Or.inl rfl⟩
  all_goals
    subst hs
    exact ⟨⟨_, rfl, id⟩, Or.inl rfl, Or.inl rfl⟩

/-- A step of `count_then_discard` is one of the process at its bucket. -/
theorem Host.discardStep_moves {pid : Nat} {v : Discard} (hs : H.discardStep m pid v = some m') : H.Moves m m' pid v.cur := by
  unfold Host.discardStep at hs
  cases hpc : v.pc <;> rw [hpc] at hs <;> simp only [Option.some.injEq, reduceCtorEq] at hs
  case again0 =>
    subst hs
    exact ⟨⟨_, rfl, (v.again0_cur _) ▸ id⟩, Or.inl rfl, Or.inl rfl⟩
  case poll =>
    split at hs <;> cases hs <;> exact ⟨⟨_, rfl, id⟩, Or.inl rfl, Or.inl rfl⟩
  case clear =>
    subst hs
    refine ⟨⟨_, rfl, fun hb => ?_⟩, Or.inl rfl, Or.inr ⟨0, _, by rw [List.length_replicate]; decide, rfl⟩⟩
    have hle := H.config.start_le_end
    unfold Config.IsBucket at hb ⊢
    dsimp only [Program.cur]
    split <;> omega
  all_goals
    subst hs
    exact ⟨⟨_, rfl, id⟩, Or.inl rfl, Or.inl rfl⟩

/-- What an access of a process does outside the files. -/
theorem Host.execStep_moves {pid n time : Nat} (hs : H.execStep m pid n time = some m') :
    ∃ p, m.prog pid = some p ∧ H.Moves m m' pid p.cur := by
  unfold Host.execStep at hs
  split at hs
  · next w hw => exact ⟨_, hw, H.todiskStep_moves hs⟩
  · next v hv => exact ⟨_, hv, H.discardStep_moves hs⟩
  · cases hs

/-- A process that moves stays at a bucket, and leaves the driver to its invariant. -/
theorem Host.Placed.moves {pid cur : Nat} (h : H.Placed m) (hb : H.config.IsBucket cur) (hm : H.Moves m m' pid cur) :
    H.Placed m' := by
  obtain ⟨⟨p, hp, hcur⟩, hcap, -⟩ := hm
  have hdrv : H.config.Inv m'.cap.drv ∧ m'.cap.drv.Inside := by
    rcases hcap with he | he
    · rw [he]
      exact ⟨h.inv, h.inside⟩
    · rw [he]
      exact ⟨h.inv.boardStep m.cap.drv.board.userStart true m.cap.drv.board.captured m.cap.drv.board.stalled, h.inside⟩
  refine ⟨hdrv.1, hdrv.2, fun q r hr => ?_⟩
  rw [hp] at hr
  by_cases hq : q = pid
  · rw [hq, Function.update_self, Option.some.injEq] at hr
    rw [← hr]
    exact hcur hb
  · rw [Function.update_of_ne hq] at hr
    exact h.at_bucket q r hr

/-- Every step that accepts only what was written back keeps it. -/
theorem Host.Placed.step {a : MachineAct} (h : H.Placed m) (hw : m.AcceptsWritten a) (hst : H.Step m a m') : H.Placed m' := by
  cases hst with
  | drv a hs => exact ⟨h.inv.step hw hs, h.inside.step h.inv hs, h.at_bucket⟩
  | startTodisk pid id hnone hid =>
    refine h.moves H.config.isBucket_start ⟨⟨_, rfl, fun _ => ?_⟩, Or.inl rfl, Or.inl rfl⟩
    have hle := H.writers_le
    have hs := H.config.start_le_end
    unfold Config.numBuckets at hle
    unfold Config.IsBucket Host.startTodisk Program.cur
    dsimp only
    omega
  | startDiscard pid hnone => exact h.moves H.config.isBucket_start ⟨⟨_, rfl, id⟩, Or.inl rfl, Or.inl rfl⟩
  | kill pid =>
    refine ⟨h.inv, h.inside, fun q r hr => ?_⟩
    by_cases hq : q = pid
    · rw [hq] at hr
      simp at hr
    · exact h.at_bucket q r ((Function.update_of_ne hq ..).symm.trans hr)
  | exec pid n time hs =>
    obtain ⟨p, hp, hm⟩ := H.execStep_moves hs
    exact h.moves (h.at_bucket pid p hp) hm

/-- It holds at the start, where no process is there. -/
theorem Host.placed_init (hi : H.machine.init m) : H.Placed m := by
  obtain ⟨ram, disk, rfl⟩ := hi
  exact ⟨H.config.inv_start _ _, H.config.inside_start _ _, nofun⟩

/-! ## The driver's view of the memory -/

/-- The driver of the machine is that of a capture: what the processes do to it is to issue the stop. -/
theorem Host.simulates_capture (H : Host) :
    Simulates H.machine (fun _ _ => True) (H.config.capture 0) (fun m cap => m.cap = cap) where
  init := by
    rintro m ⟨ram, disk, rfl⟩
    exact ⟨_, ⟨_, _, rfl⟩, rfl⟩
  step := by
    rintro m a m' cap rfl - hst
    cases hst with
    | drv a hs => exact ⟨_, _, Run.single hs, rfl⟩
    | startTodisk pid id hnone hid | startDiscard pid hnone | kill pid => exact ⟨[], _, Run.nil _, rfl⟩
    | exec pid n time hs =>
      obtain ⟨p, -, hm⟩ := H.execStep_moves hs
      rcases hm.cap with hc | hc
      · exact ⟨[], _, Run.nil _, hc⟩
      · exact ⟨_, _, Run.single Config.Step.userStop, hc⟩

/-- The lengths that the driver has on its board are those in the memory, as far as a length block is copied. -/
def Host.LensShown (H : Host) (m : Machine) : Prop :=
  ∀ b, H.config.IsBucket b → ∀ j, lenOff + 2 * (j + 1) ≤ lenBlockSize → lensOf m.mem b j = m.cap.drv.board.lens b j

/-- A store before the lengths of a bucket keeps the lengths of every bucket. -/
theorem lensOf_store (m : Mem) {b' off : Nat} {bs : List UInt8} (hoff : off + bs.length ≤ lenBlockOff + lenOff) {b j : Nat}
    (hj : lenOff + 2 * (j + 1) ≤ lenBlockSize) : lensOf (m.store (b' * 2 ^ 30 + off) bs) b j = lensOf m b j := by
  have hbig : lenBlockOff + lenBlockSize ≤ 2 ^ 30 := by decide
  exact load16_congr (load_store_apart m (by omega) (by omega) (Or.inr (Or.inr (by omega))))

/-- A length is stored in the memory as on the board. -/
theorem lensOf_store16 (m : Mem) (lens : Nat → Nat → Nat) {cur k len b j : Nat} (hlen : len < 2 ^ 16)
    (hk : lenOff + 2 * (k + 1) ≤ lenBlockSize) (hj : lenOff + 2 * (j + 1) ≤ lenBlockSize)
    (h : lensOf m b j = lens b j) : lensOf (m.store16 (hdrAt cur (lenOff + 2 * k)) len) b j = setLen lens cur k len b j := by
  have hbig : lenBlockOff + lenBlockSize ≤ 2 ^ 30 := by decide
  unfold setLen
  by_cases hb : b = cur
  · subst hb
    rw [Function.update_self]
    by_cases hjk : j = k
    · subst hjk
      rw [Function.update_self]
      exact load16_store16_same m _ len hlen
    · rw [Function.update_of_ne hjk, ← h]
      refine load16_congr (load_store_apart m (by omega) ?_ (Or.inr ?_)) <;> rw [leBytes_length] <;> omega
  · rw [Function.update_of_ne hb, ← h]
    exact load16_congr (load_store_apart m (by omega) (by rw [leBytes_length]; omega) (Or.inl hb))

/-- Every step keeps the lengths on the board and in the memory the same. -/
theorem Host.LensShown.step {a : MachineAct} (h : H.LensShown m) (hp : H.Placed m) (hst : H.Step m a m') : H.LensShown m' := by
  intro b hb j hj
  have hold := h b hb j hj
  cases hst with
  | drv a hs =>
    cases hs with
    | alloc hs =>
      dsimp only
      rw [Config.allocStep_lens hs, ← hold]
      unfold Config.driverStore Config.allocStore
      dsimp only
      split
      · exact lensOf_store m.mem (by rw [leBytes_length]; decide) hj
      · rfl
    | proc hs =>
      dsimp only
      rw [Config.procStep_lens hs]
      unfold Config.driverStore Driver.procStore
      dsimp only
      split
      · next hpc =>
        have hlen := hp.inv.lengthOf_le m.cap.drv.hist.accepted
        rw [← hp.inv.recorded.loaded hpc] at hlen
        rw [if_pos hpc]
        exact lensOf_store16 m.mem _ (Nat.lt_of_le_of_lt hlen (by decide)) (hp.inv.store_inBlock hpc) hj hold
      · next hpc =>
        rw [hpc, if_neg (by decide), ← hold]
        exact lensOf_store m.mem (by rw [leBytes_length]; decide) hj
      · next hpc =>
        rw [hpc, if_neg (by decide), ← hold]
        exact lensOf_store m.mem (by rw [leBytes_length]; decide) hj
      · next hne _ _ =>
        rw [if_neg hne]
        exact hold
    | nic p hq hs =>
      obtain ⟨-, ring, head, ram, slot, rfl⟩ := Config.nicStep_frame hs
      have hroom := hp.inside m.cap.drv.nicHead
      have hlen := hq.2
      dsimp only
      rw [← hold]
      unfold Config.driverStore
      rw [← Nat.div_add_mod' (m.cap.drv.ring m.cap.drv.nicHead).pktAddr (2 ^ 30)]
      exact lensOf_store m.mem (by omega) hj
    | userStart | userStop => exact hold
    | visit k hk => exact absurd hk (Nat.not_lt_zero k)
  | startTodisk pid id hnone hid | startDiscard pid hnone | kill pid => exact hold
  | exec pid n time hs =>
    obtain ⟨p, -, hm⟩ := H.execStep_moves hs
    have hlens : m'.cap.drv.board.lens = m.cap.drv.board.lens := by
      rcases hm.cap with hc | hc
      · rw [hc]
      · rw [hc]
        rfl
    rw [hlens, ← hold]
    rcases hm.mem with he | ⟨off, bs, hoff, he⟩
    · rw [he]
    · have hreal : realSize ≤ lenOff := by decide
      rw [he]
      exact lensOf_store m.mem (by omega) hj

/-- In every run in which the recording thread accepts only what was written back, the driver reads the lengths that are in the
memory. -/
theorem Host.lens_shown {m : Machine} (h : Reached H.machine Machine.AcceptsWritten m) : H.LensShown m := by
  refine (h.invariant (I := fun m => H.Placed m ∧ H.LensShown m) ?_ ?_).2
  · rintro m ⟨ram, disk, rfl⟩
    exact ⟨H.placed_init ⟨ram, disk, rfl⟩, fun _ _ _ _ => rfl⟩
  · rintro m a m' ⟨hp, hl⟩ hw hst
    exact ⟨hp.step hw hst, hl.step hp hst⟩

end NicRecorder
