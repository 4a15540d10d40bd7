import Mathlib.Data.Set.Operations
import NicRecorder.Lemmas.Marks
import NicRecorder.Theorems.Contents
import NicRecorder.Theorems.Numbering

/-!
# What a process of `todisk` saves

A process copies its bucket to its file in pieces, while the driver goes on and other processes copy theirs. `Writing` is what holds of
it on the way, when its accesses are in time (`OnTime`): it takes a bucket by a flag that was set for its block, it copies when the
threads have left the fill, and the driver has not entered the bucket again by then. The bytes that have been copied, as far as they
matter, are those of the bucket that a driver leaves which receives the packets of the block one after the other.
-/

namespace NicRecorder

open ByteMem Runs

/-! ## The bytes that matter -/

/-- The bytes of a bucket that matter to a list of packets: the packets, their lengths, their number, the number of slots and the end
mark; in a run without a stall also the mark of a stall. -/
def Config.Matters (c : Config) (quiet : Prop) (pkts : List (List UInt8)) : Set Nat :=
  { x | (∃ j < pkts.length, c.placeOf pkts j ≤ x ∧ x < c.placeOf pkts j + lengthOf pkts j) ∨
    (∃ j < pkts.length, lenBlockOff + lenOff + 2 * j ≤ x ∧ x < lenBlockOff + lenOff + 2 * j + 2) ∨
    ∃ off, (off = numCapturedOff ∨ off = numRxSlotsOff ∨ off = lastOff ∨ quiet ∧ off = stalledOff) ∧
      lenBlockOff + off ≤ x ∧ x < lenBlockOff + off + 4 }

/-- The bucket that a driver leaves which receives the packets one after the other, over cleared memory, with an end mark. -/
def Config.imageFor (c : Config) (pkts : List (List UInt8)) (last : Nat) : Mem :=
  (c.driverImage ⟨fun _ => 0, fun _ => 0⟩ pkts).store32 (lenBlockOff + lastOff) last

/-- A memory from the start of a bucket on is that of the packets: it holds them, and the header has its words. -/
structure Config.Images (c : Config) (quiet : Prop) (pkts : List (List UInt8)) (last : Nat) (m : Mem) : Prop where
  holds : c.Holds m pkts
  slots : headerSlots m = c.numRxSlots
  last : lastWord m = last
  stalled : quiet → stalledWord m = 0

section Matters

variable {c : Config} {quiet : Prop} {pkts : List (List UInt8)} {last : Nat} {m m' : Mem}

/-- Two memories that are that of the packets are the same where it matters. -/
theorem Config.Images.eqOn (h : c.Images quiet pkts last m) (h' : c.Images quiet pkts last m') :
    Set.EqOn m m' (c.Matters quiet pkts) := by
  rintro x (⟨j, hj, h1, h2⟩ | ⟨j, hj, h1, h2⟩ | ⟨off, hoff, h1, h2⟩)
  · exact eq_of_load_eq ((h.holds.data j hj).trans (h'.holds.data j hj).symm) h1 h2
  · exact eq_of_load_eq (load_eq_of_leNat_eq ((h.holds.lens j hj).trans (h'.holds.lens j hj).symm)) h1 h2
  · refine eq_of_load_eq (load_eq_of_leNat_eq ?_) h1 h2
    rcases hoff with rfl | rfl | rfl | ⟨hq, rfl⟩
    · exact h.holds.captured.trans h'.holds.captured.symm
    · exact h.slots.trans h'.slots.symm
    · exact h.last.trans h'.last.symm
    · exact (h.stalled hq).trans (h'.stalled hq).symm

/-- A memory that is the same where it matters is that of the packets. -/
theorem Config.Images.of_eqOn (h : c.Images quiet pkts last m') (he : Set.EqOn m m' (c.Matters quiet pkts)) :
    c.Images quiet pkts last m := by
  have hword : ∀ off, (off = numCapturedOff ∨ off = numRxSlotsOff ∨ off = lastOff ∨ quiet ∧ off = stalledOff) →
      m.load32 (lenBlockOff + off) = m'.load32 (lenBlockOff + off) := fun off hoff =>
    load32_congr (load_congr fun x h1 h2 => he (Or.inr (Or.inr ⟨off, hoff, h1, h2⟩)))
  refine ⟨⟨fun j hj => ?_, fun j hj => ?_, ?_⟩, ?_, ?_, fun hq => ?_⟩
  · exact (load_congr fun x h1 h2 => he (Or.inl ⟨j, hj, h1, h2⟩)).trans (h.holds.data j hj)
  · exact (load16_congr (load_congr fun x h1 h2 => he (Or.inr (Or.inl ⟨j, hj, h1, h2⟩)))).trans (h.holds.lens j hj)
  · exact (hword _ (Or.inl rfl)).trans h.holds.captured
  · exact (hword _ (Or.inr (Or.inl rfl))).trans h.slots
  · exact (hword _ (Or.inr (Or.inr (Or.inl rfl)))).trans h.last
  · exact (hword _ (Or.inr (Or.inr (Or.inr ⟨hq, rfl⟩)))).trans (h.stalled hq)

theorem Config.WellLaid.images (h : c.WellLaid pkts) (hlast : last < 2 ^ 32) : c.Images quiet pkts last (c.imageFor pkts last) := by
  obtain ⟨hm, hslots⟩ := c.driverImage_holds h ⟨fun _ => 0, fun _ => 0⟩
  have hword : ∀ off, off + 4 ≤ lastOff ∨ lastOff + 4 ≤ off →
      (c.imageFor pkts last).load32 (lenBlockOff + off) =
        (c.driverImage ⟨fun _ => 0, fun _ => 0⟩ pkts).load32 (lenBlockOff + off) := fun off hoff => by
    rw [Config.imageFor, Mem.store32, load32_store_disjoint _ _ _ _ (by rw [leBytes_length]; omega)]
  refine ⟨hm.store_word h (by decide) (by decide), (hword _ (by decide)).trans hslots, load32_store32_same _ _ _ hlast,
    fun _ => (hword _ (by decide)).trans ?_⟩
  rw [Config.driverImage_word h _ (by decide) (by decide)]
  simp [Mem.load32, Mem.load, leNat]

/-- What matters lies below the last page of a bucket. -/
theorem Config.WellLaid.matters_lt (h : c.WellLaid pkts) {x : Nat} (hx : x ∈ c.Matters quiet pkts) :
    x < lenBlockOff + lenBlockSize := by
  rcases hx with ⟨j, hj, h1, h2⟩ | ⟨j, hj, h1, h2⟩ | ⟨off, hoff, h1, h2⟩
  · have := h.place_end hj
    omega
  · have := h.len_end j hj
    omega
  · have hhdr : off + 4 ≤ lenBlockSize := by
      rcases hoff with rfl | rfl | rfl | ⟨-, rfl⟩ <;> decide
    omega

/-- Below the length block only the packets matter. -/
theorem Config.matters_data {x : Nat} (hx : x ∈ c.Matters quiet pkts) (hlt : x < lenBlockOff) :
    ∃ j < pkts.length, c.placeOf pkts j ≤ x ∧ x < c.placeOf pkts j + lengthOf pkts j := by
  rcases hx with hx | ⟨j, -, h1, -⟩ | ⟨off, -, h1, -⟩
  · exact hx
  · omega
  · omega

end Matters

/-! ## The order of a file -/

/-- The byte of a bucket that goes to a place of its file: the length block comes first. -/
def bucketByte (y : Nat) : Nat := if y < lenBlockSize then lenBlockOff + y else y - lenBlockSize

/-- What a place of the file of a list of packets is to hold, if it matters. -/
def Config.Expects (c : Config) (quiet : Prop) (pkts : List (List UInt8)) (last y : Nat) (v : UInt8) : Prop :=
  bucketByte y ∈ c.Matters quiet pkts → v = c.imageFor pkts last (bucketByte y)

theorem bucketByte_lens {y : Nat} (h : y < lenBlockSize) : bucketByte y = lenBlockOff + y := if_pos h

theorem bucketByte_data (x : Nat) : bucketByte (lenBlockSize + x) = x := by
  rw [bucketByte, if_neg (by omega), Nat.add_sub_cancel_left]

/-- A file that has been written to its end as it is to be is read back as the bucket of the packets. -/
theorem Config.WellLaid.images_file {c : Config} {quiet : Prop} {pkts : List (List UInt8)} {last : Nat} {file : List UInt8}
    (h : c.WellLaid pkts) (hlast : last < 2 ^ 32)
    (hw : Written (c.Expects quiet pkts last) file (lenBlockSize + lenBlockOff)) :
    WholeFile file ∧ c.Images quiet pkts last (imageOf file) := by
  have hwhole : WholeFile file := hw.length_le
  refine ⟨hwhole, (h.images hlast).of_eqOn fun x hx => ?_⟩
  have hlt := h.matters_lt hx
  rcases Nat.lt_or_ge x lenBlockOff with hd | hl
  · obtain ⟨v, hv, he⟩ := hw (lenBlockSize + x) (by omega)
    obtain ⟨hb, hv⟩ := List.getElem?_eq_some_iff.mp hv
    have hexp := he (by rwa [bucketByte_data])
    rw [bucketByte_data] at hexp
    rw [imageOf, hwhole.packet_byte _ hd hb, hv, hexp]
  · obtain ⟨k, rfl⟩ := Nat.exists_eq_add_of_le hl
    have hk : k < lenBlockSize := by omega
    obtain ⟨v, hv, he⟩ := hw k (by omega)
    obtain ⟨hb, hv⟩ := List.getElem?_eq_some_iff.mp hv
    have hexp := he (by rwa [bucketByte_lens hk])
    rw [bucketByte_lens hk] at hexp
    rw [imageOf, readBlock_byte _ hb hk, hv, hexp]

/-! ## The driver goes on -/

/-- The end mark that belongs to a fill which the threads have left. -/
def Driver.lastIn (d : Driver) (f : Nat) : Nat := if f < d.hist.procFill then 0 else 1

theorem Driver.lastIn_lt (d : Driver) (f : Nat) : d.lastIn f < 2 ^ 32 := by
  unfold Driver.lastIn
  split <;> decide

/-- What the programs rely on when the driver goes on: the counts grow, the fills that have been begun stay where they are, and a fill
that the threads have left stays as it is. -/
structure Driver.Advances (d d' : Driver) : Prop where
  procFill : d.hist.procFill ≤ d'.hist.procFill
  allocFill : d.hist.allocFill ≤ d'.hist.allocFill
  accepted : d.hist.accepted ≤ d'.hist.accepted
  starts : ∀ f ≤ d.hist.procFill, d'.hist.allocStart f = d.hist.allocStart f
  left : ∀ f, d.Left f → d'.Left f ∧ d'.saved f = d.saved f ∧ d'.lastIn f = d.lastIn f

section Advances

variable {c : Config} {d d' : Driver}

theorem Driver.Advances.of_eq (hh : d'.hist = d.hist) (hp : d'.proc = d.proc) : d.Advances d' := by
  refine ⟨?_, ?_, ?_, fun f _ => ?_, fun f hl => ?_⟩
  · rw [hh]
  · rw [hh]
  · rw [hh]
  · rw [hh]
  · unfold Driver.Left Driver.saved Driver.savedEnd Driver.lastIn at *
    rw [hh, hp]
    exact ⟨hl, rfl, rfl⟩

/-- The packets of a fill that has been left are the same as long as the packets recorded by then are. -/
theorem Config.Fills.saved_eq (h : c.Fills d) {f : Nat} (hf : f ≤ d.hist.procFill)
    (hsent : d'.hist.sent = d.hist.sent ∨ ∃ p, d'.hist.sent = d.hist.sent ++ [p])
    (hstart : d'.hist.allocStart f = d.hist.allocStart f) (hend : d'.savedEnd f = d.savedEnd f) : d'.saved f = d.saved f := by
  have hle := (h.divided.savedEnd_le hf).1
  have ho := h.inv.order
  unfold Driver.saved
  rw [hstart, hend]
  rcases hsent with he | ⟨p, he⟩
  · rw [he]
  · rw [he, List.take_append_of_le_length (by omega)]

theorem Config.Fills.advances_alloc (h : c.Fills d) (hs : c.allocStep d = some d') : d.Advances d' := by
  obtain ⟨hproc, hsent, hacc, -, hpf⟩ := Config.allocStep_frame hs
  have hple := h.inv.procFill_le
  have hstart : d.hist.allocFill ≤ d'.hist.allocFill ∧ ∀ f ≤ d.hist.allocFill, d'.hist.allocStart f = d.hist.allocStart f := by
    rcases Config.allocStep_starts hs with ⟨h1, h2⟩ | ⟨-, -, -, rfl⟩
    · exact ⟨Nat.le_of_eq h1.symm, fun f _ => by rw [h2]⟩
    · exact ⟨Nat.le_succ _, fun f hf => c.opened_start d hf⟩
  refine ⟨Nat.le_of_eq hpf.symm, hstart.1, Nat.le_of_eq hacc.symm, fun f hf => hstart.2 f (by omega), fun f hl => ⟨?_, ?_, ?_⟩⟩
  · unfold Driver.Left at hl ⊢
    rw [hpf, hproc]
    exact hl
  · have hf := hl.le
    refine h.saved_eq hf (Or.inl hsent) (hstart.2 f (by omega)) ?_
    unfold Driver.savedEnd
    rw [hpf, hacc]
    split
    · exact hstart.2 _ (by omega)
    · rfl
  · unfold Driver.lastIn
    rw [hpf]

theorem Config.Fills.advances_proc (h : c.Fills d) (hs : c.procStep d = some d') : d.Advances d' := by
  obtain ⟨-, hsent, -, -, hfill⟩ := Config.procStep_frame hs
  have hstart := Config.procStep_starts hs
  have hacc := (Config.procStep_rest hs).2
  have hpf : d.hist.procFill ≤ d'.hist.procFill := by
    rcases Config.procStep_fill hs with ⟨he, -⟩ | ⟨-, he, -⟩ <;> omega
  refine ⟨hpf, Nat.le_of_eq hfill.symm, hacc, fun f _ => by rw [hstart], fun f hl => ?_⟩
  rcases hl with hlt | ⟨-, hpc⟩
  · refine ⟨Or.inl (by omega), h.saved_eq (Nat.le_of_lt hlt) (Or.inl hsent) (by rw [hstart]) ?_, ?_⟩
    · rw [Driver.savedEnd_of_lt hlt, Driver.savedEnd_of_lt (by omega), hstart]
    · rw [Driver.lastIn, Driver.lastIn, if_pos hlt, if_pos (by omega)]
  · -- a thread that has ended makes no further access
    simp [Config.procStep, hpc] at hs

theorem Config.Fills.advances_nic (h : c.Fills d) {p : List UInt8} (hs : c.nicStep p d = some d') : d.Advances d' := by
  obtain ⟨-, ring, head, ram, slot, rfl⟩ := Config.nicStep_frame hs
  refine ⟨Nat.le_refl _, Nat.le_refl _, Nat.le_refl _, fun _ _ => rfl, fun f hl => ⟨hl, ?_, rfl⟩⟩
  exact h.saved_eq hl.le (Or.inr ⟨p, rfl⟩) rfl rfl

theorem Config.Fills.advances {s t : Capture} {a : Act} (h : c.Fills s.drv) (hst : c.Step 0 s a t) : s.drv.Advances t.drv := by
  cases hst with
  | alloc hs => exact h.advances_alloc hs
  | proc hs => exact h.advances_proc hs
  | nic p hp hs => exact h.advances_nic hs
  | userStart | userStop => exact Driver.Advances.of_eq rfl rfl
  | visit k hk => exact absurd hk (Nat.not_lt_zero k)

end Advances

/-! ## A process on its way -/

/-- The process has taken its bucket. -/
def TodiskPc.taken : TodiskPc → Bool
  | .again0 | .poll | .pollStop | .exited => false
  | _ => true

/-- The process has taken its bucket, and not reset the flag. -/
def TodiskPc.flagged : TodiskPc → Bool
  | .again0 | .poll | .pollStop | .exited | .copyData | .close => false
  | _ => true

/-- The process has begun to copy its bucket. -/
def TodiskPc.copying : TodiskPc → Bool
  | .copyLens | .readLast | .reset | .copyData | .close => true
  | _ => false

/-- What holds of a process on its way. -/
structure Host.Writing (H : Host) (quiet : Prop) (m : Machine) (w : Todisk) : Prop where
  number : w.fileCount % H.table.numWriters = w.id
  cur : w.cur = H.config.bucketOf w.fileCount
  own : w.pc.taken = true → w.fileCount ≤ m.cap.drv.hist.procFill ∧
    m.cap.drv.hist.allocStart w.fileCount < m.cap.drv.hist.accepted
  flag : w.pc.flagged = true → m.cap.drv.hist.allocFill < w.fileCount + H.config.numBuckets → flagOf m.mem w.cur ≠ 0
  fresh : w.pc = .stamp → w.lenDone = 0 ∧ w.dataDone = 0
  lens : w.pc.copying = true → w.lenDone ≤ lenBlockSize ∧ (w.pc ≠ .copyLens → w.lenDone = lenBlockSize)
  data : w.pc.copying = true → w.dataDone ≤ lenBlockOff ∧ (w.pc ≠ .copyData → w.pc ≠ .close → w.dataDone = 0) ∧
    (w.pc = .close → w.dataDone = lenBlockOff)
  left : w.pc.copying = true → 0 < w.lenDone → m.cap.drv.Left w.fileCount
  copied : w.pc.copying = true →
    Written (H.config.Expects quiet (m.cap.drv.saved w.fileCount) (m.cap.drv.lastIn w.fileCount))
      ((m.disk (H.fname w)).getD []) (w.lenDone + w.dataDone)

/-- The accesses of a process are in time: the flag that it takes was set for its block, it copies the lengths when the threads have
left the fill, and the driver has not entered the bucket again when it copies and when it resets the flag. -/
structure Host.OnTime (H : Host) (m : Machine) (w : Todisk) : Prop where
  own : w.pc = .poll → flagOf m.mem w.cur ≠ 0 → m.cap.drv.hist.pubFill w.cur = w.fileCount
  left : w.pc = .copyLens → m.cap.drv.Left w.fileCount
  kept : w.pc = .copyLens ∨ w.pc = .reset ∨ w.pc = .copyData →
    m.cap.drv.hist.allocFill < w.fileCount + H.config.numBuckets

section Writing

variable {H : Host} {quiet : Prop} {m m' : Machine} {w : Todisk}

theorem Host.startTodisk_writing (H : Host) (m : Machine) {id : Nat} (hid : id < H.table.numWriters) :
    H.Writing quiet m (H.startTodisk id) := by
  have hle := H.writers_le
  refine ⟨Nat.mod_eq_of_lt hid, ?_, nofun, nofun, nofun, nofun, nofun, nofun, nofun⟩
  show H.config.start1G + id = H.config.start1G + id % H.config.numBuckets
  rw [Nat.mod_eq_of_lt (by omega)]

/-- Steps of others leave a process to its way, as long as they leave its flag and its file. -/
theorem Host.Writing.frame (h : H.Writing quiet m w) (ha : m.cap.drv.Advances m'.cap.drv)
    (hflag : w.pc.flagged = true → m'.cap.drv.hist.allocFill < w.fileCount + H.config.numBuckets → flagOf m'.mem w.cur ≠ 0)
    (hdisk : m'.disk (H.fname w) = m.disk (H.fname w)) : H.Writing quiet m' w := by
  refine ⟨h.number, h.cur, fun hp => ?_, hflag, h.fresh, h.lens, h.data, fun hc hl => ?_, fun hc => ?_⟩
  · obtain ⟨h1, h2⟩ := h.own hp
    have hpf := ha.procFill
    have hacc := ha.accepted
    rw [ha.starts _ h1]
    omega
  · exact (ha.left _ (h.left hc hl)).1
  · rw [hdisk]
    rcases Nat.eq_zero_or_pos w.lenDone with h0 | hpos
    · have hz : w.dataDone = 0 := by
        have hsize : lenBlockSize ≠ 0 := by decide
        by_cases hpc : w.pc = .copyLens
        · exact (h.data hc).2.1 (by rw [hpc]; decide) (by rw [hpc]; decide)
        · exact absurd (((h.lens hc).2 hpc).symm.trans h0) hsize
      rw [h0, hz]
      exact written_zero _ _
    · obtain ⟨-, h1, h2⟩ := ha.left _ (h.left hc hpos)
      rw [h1, h2]
      exact h.copied hc

/-- What lies below the length block of a fill's bucket is, where it matters, as it is to be. -/
theorem Host.Stored.data_matters (h : H.Stored m) {f : Nat} (hf : f ≤ m.cap.drv.hist.procFill)
    (hr : m.cap.drv.hist.allocFill < f + H.config.numBuckets) {x : Nat} (hx : x ∈ H.config.Matters quiet (m.cap.drv.saved f))
    (hlt : x < lenBlockOff) :
    bucketMem m.mem (H.config.bucketOf f) x = H.config.imageFor (m.cap.drv.saved f) (m.cap.drv.lastIn f) x := by
  obtain ⟨j, hj, h1, h2⟩ := Config.matters_data hx hlt
  have hle := h.fills.inv.procFill_le
  have hpre := h.fills.divided.saved_initial hf
  have hlen := hpre.length_le
  have hmem := (h.bucketHolds (by omega) hr).data j (by omega)
  rw [← Config.placeOf_initial hpre (Nat.le_of_lt hj), ← lengthOf_initial hpre hj, ← getD_initial hpre hj] at hmem
  have himg : H.config.Images quiet _ _ _ := (h.fills.divided.wellLaid_saved hf).images (m.cap.drv.lastIn_lt f)
  exact eq_of_load_eq (hmem.trans (himg.holds.data j hj).symm) h1 h2

/-- The end mark of the bucket of a fill that has been left. -/
theorem Config.Fills.last_left {c : Config} {d : Driver} (h : c.Fills d) {f : Nat} (hl : d.Left f)
    (hr : d.hist.allocFill < f + c.numBuckets) (hown : d.hist.allocStart f < d.hist.accepted) :
    d.board.last (c.bucketOf f) = d.lastIn f := by
  have hle := h.inv.procFill_le
  have hcur := h.inv.wrapped.proc_cur
  rcases hl with hlt | ⟨rfl, hpc⟩
  · rw [Driver.lastIn, if_pos hlt]
    by_cases hpc : d.proc.pc = .exited
    · refine (h.ended hpc).2 _ ?_
      rw [hcur]
      exact Config.bucketOf_ne hlt (by omega)
    · exact h.closing.unmarked hpc _
  · rw [Driver.lastIn, if_neg (Nat.lt_irrefl _), ← hcur]
    exact (h.ended hpc).1 (by omega)

/-- The bucket of a fill that has been left and is flagged is, where it matters, as it is to be. -/
theorem Host.Stored.eqOn (h : H.Stored m) (hz : H.Sized m) (hm : H.Marked quiet m) {f : Nat} (hl : m.cap.drv.Left f)
    (hr : m.cap.drv.hist.allocFill < f + H.config.numBuckets) (hflag : flagOf m.mem (H.config.bucketOf f) ≠ 0)
    (hown : m.cap.drv.hist.allocStart f < m.cap.drv.hist.accepted) :
    Set.EqOn (bucketMem m.mem (H.config.bucketOf f)) (H.config.imageFor (m.cap.drv.saved f) (m.cap.drv.lastIn f))
      (H.config.Matters quiet (m.cap.drv.saved f)) := by
  have hle := h.fills.inv.procFill_le
  have hpf := hl.le
  have hb := H.config.isBucket_bucketOf f
  have hhere : H.config.Images quiet (m.cap.drv.saved f) (m.cap.drv.lastIn f) (bucketMem m.mem (H.config.bucketOf f)) := by
    refine ⟨(h.bucketHolds (by omega) hr).complete hl (by rwa [numCaptured_bucketMem]), hz.geometry.buckets _ hb.1 hb.2, ?_,
      fun hq => ?_⟩
    · rw [lastWord, wordOf_bucketMem, hm.last _ hb, h.fills.last_left hl hr hown]
    · rw [stalledWord, wordOf_bucketMem, hm.stalled hq _ hb]
  exact hhere.eqOn ((h.fills.divided.wellLaid_saved hpf).images (m.cap.drv.lastIn_lt f))

/-- The next piece of the length block. -/
theorem Host.Writing.copy_lens (h : H.Writing quiet m w) (hs : H.Stored m) (hz : H.Sized m) (hm : H.Marked quiet m)
    (ht : H.OnTime m w) (hpc : w.pc = .copyLens) {k : Nat} (hk : w.lenDone + k ≤ lenBlockSize) :
    Written (H.config.Expects quiet (m.cap.drv.saved w.fileCount) (m.cap.drv.lastIn w.fileCount))
      ((writeAt m.disk (H.fname w) w.lenDone (m.mem.load (hdrAt w.cur w.lenDone) k) (H.fname w)).getD [])
      (w.lenDone + k) := by
  have hc : w.pc.copying = true := by rw [hpc]; rfl
  have hzero : w.dataDone = 0 := (h.data hc).2.1 (by rw [hpc]; decide) (by rw [hpc]; decide)
  have hr := ht.kept (Or.inl hpc)
  have heq := hs.eqOn hz hm (ht.left hpc) hr (h.cur ▸ h.flag (by rw [hpc]; rfl) hr) (h.own (by rw [hpc]; rfl)).2
  have hold := h.copied hc
  rw [hzero, Nat.add_zero] at hold
  have hwr := Written.write ⟨(m.disk (H.fname w)).getD [], w.lenDone⟩ (m.mem.load (hdrAt w.cur w.lenDone) k) hold fun i v hv => ?_
  · rw [load_length] at hwr
    rwa [writeAt, Function.update_self, Option.getD_some]
  · obtain ⟨hi, hv⟩ := List.getElem?_eq_some_iff.mp hv
    rw [load_getElem] at hv
    rw [load_length] at hi
    intro hx
    dsimp only at hx ⊢
    rw [bucketByte_lens (by omega)] at hx ⊢
    have hb := heq hx
    rw [← hv, ← hb, bucketMem, ← h.cur, hdrAt, Nat.add_assoc, Nat.add_assoc]

/-- The next piece of the packets. -/
theorem Host.Writing.copy_data (h : H.Writing quiet m w) (hs : H.Stored m) (ht : H.OnTime m w)
    (hpc : w.pc = .copyData) {k : Nat} (hk : w.dataDone + k ≤ lenBlockOff) :
    Written (H.config.Expects quiet (m.cap.drv.saved w.fileCount) (m.cap.drv.lastIn w.fileCount))
      ((writeAt m.disk (H.fname w) (lenBlockSize + w.dataDone) (m.mem.load (w.cur * 2 ^ 30 + w.dataDone) k)
        (H.fname w)).getD [])
      (lenBlockSize + (w.dataDone + k)) := by
  have hc : w.pc.copying = true := by rw [hpc]; rfl
  have hall : w.lenDone = lenBlockSize := (h.lens hc).2 (by rw [hpc]; decide)
  have hpos : 0 < w.lenDone := by
    rw [hall]
    decide
  have hr := ht.kept (Or.inr (Or.inr hpc))
  have hl := (h.left hc hpos).le
  have hold := h.copied hc
  rw [hall] at hold
  have hwr := Written.write ⟨(m.disk (H.fname w)).getD [], lenBlockSize + w.dataDone⟩
    (m.mem.load (w.cur * 2 ^ 30 + w.dataDone) k) hold fun i v hv => ?_
  · rw [load_length, Nat.add_assoc] at hwr
    rwa [writeAt, Function.update_self, Option.getD_some]
  · obtain ⟨hi, hv⟩ := List.getElem?_eq_some_iff.mp hv
    rw [load_getElem] at hv
    rw [load_length] at hi
    intro hx
    dsimp only at hx ⊢
    rw [Nat.add_assoc, bucketByte_data] at hx ⊢
    have hb := hs.data_matters hl hr hx (by omega)
    rw [← hv, ← hb, bucketMem, ← h.cur, Nat.add_assoc]

/-- The flag that a process takes was set by the driver in the block of the process, in which something has been recorded by then. -/
theorem Host.Writing.takes (h : H.Writing quiet m w) (hs : H.Stored m) (ht : H.OnTime m w) (hpc : w.pc = .poll)
    (hflag : flagOf m.mem w.cur ≠ 0) :
    w.fileCount ≤ m.cap.drv.hist.procFill ∧ m.cap.drv.hist.allocStart w.fileCount < m.cap.drv.hist.accepted := by
  have hb : H.config.IsBucket w.cur := h.cur ▸ H.config.isBucket_bucketOf w.fileCount
  have hcap := (hs.flag w.cur hb).resolve_left hflag
  obtain ⟨-, h2, h3⟩ := hs.fills.posted.source w.cur (hcap ▸ hflag)
  rw [ht.own hpc hflag] at h2 h3
  exact ⟨h2, h3⟩

/-- A process that has not begun to copy is on its way when its variables and its flag are in order. -/
theorem Host.Writing.before {w' : Todisk} (h : H.Writing quiet m w) (hid : w'.id = w.id) (hfc : w'.fileCount = w.fileCount)
    (hcur : w'.cur = w.cur) (hcopy : w'.pc.copying = false)
    (hown : w'.pc.taken = true → w.fileCount ≤ m'.cap.drv.hist.procFill ∧
      m'.cap.drv.hist.allocStart w.fileCount < m'.cap.drv.hist.accepted)
    (hflag : w'.pc.flagged = true → m'.cap.drv.hist.allocFill < w.fileCount + H.config.numBuckets → flagOf m'.mem w.cur ≠ 0)
    (hfresh : w'.pc = .stamp → w'.lenDone = 0 ∧ w'.dataDone = 0) : H.Writing quiet m' w' := by
  have hno : w'.pc.copying ≠ true := by rw [hcopy]; decide
  refine ⟨by rw [hfc, hid]; exact h.number, by rw [hcur, hfc]; exact h.cur, by rw [hfc]; exact hown, by rw [hfc, hcur]; exact hflag,
    hfresh, fun hc => absurd hc hno, fun hc => absurd hc hno, fun hc => absurd hc hno, fun hc => absurd hc hno⟩

/-- A process without a bucket has no flag to find, no file to stamp and nothing to copy. -/
theorem TodiskPc.of_not_taken {pc : TodiskPc} (h : pc.taken = false) : pc.copying = false ∧ pc.flagged ≠ true ∧ pc ≠ .stamp := by
  revert h
  cases pc <;> decide

/-- A process without a bucket is on its way when it is at the bucket of its block. -/
theorem Host.Writing.idle {w' : Todisk} (h : H.Writing quiet m w) (hid : w'.id = w.id) (hfc : w'.fileCount = w.fileCount)
    (hcur : w'.cur = w.cur) (htaken : w'.pc.taken = false) : H.Writing quiet m' w' := by
  obtain ⟨hcopy, hflag, hfresh⟩ := TodiskPc.of_not_taken htaken
  exact h.before hid hfc hcur hcopy (fun ht => absurd ht (by rw [htaken]; decide)) (fun hf => absurd hf hflag)
    fun he => absurd he hfresh

/-- The bucket behind the end of a block is that of the next block of the writer. -/
theorem Host.endBlock_writing (h : H.Writing quiet m w) :
    H.Writing quiet m (H.endBlock w) ∧ (H.endBlock w).id = w.id ∧ ((H.endBlock w).fileCount = w.fileCount + H.table.numWriters ∨
      (H.endBlock w).fileCount = w.fileCount ∧ (H.endBlock w).pc = .exited) := by
  unfold Host.endBlock
  dsimp only
  split
  · exact ⟨h.before rfl rfl rfl rfl nofun nofun nofun, rfl, Or.inr ⟨rfl, rfl⟩⟩
  · split
    · exact ⟨h.before rfl rfl rfl rfl nofun nofun nofun, rfl, Or.inr ⟨rfl, rfl⟩⟩
    · refine ⟨⟨?_, ?_, nofun, nofun, nofun, nofun, nofun, nofun, nofun⟩, rfl, Or.inl rfl⟩
      · dsimp only
        rw [Nat.add_mod_right]
        exact h.number
      · dsimp only
        rw [h.cur, Config.bucketOf, Config.bucketOf, Nat.add_sub_cancel_left, Nat.mod_add_mod]

/-- A step of process `pid`, at `w`, has kept it on its way: it is at the same block, or has closed it and is at its next one. -/
def Host.GoesOn (H : Host) (quiet : Prop) (m m' : Machine) (pid : Nat) (w : Todisk) : Prop :=
  ∃ w', m'.prog = Function.update m.prog pid (some (.todisk w')) ∧ w'.id = w.id ∧ H.Writing quiet m' w' ∧ w.pc ≠ .exited ∧
    (w'.fileCount = w.fileCount ∧ (w.pc = .close → w'.pc = .exited) ∨
      w.pc = .close ∧ w'.fileCount = w.fileCount + H.table.numWriters)

/-! The accesses, one by one. -/

section Accesses

variable {pid n time : Nat}

/-- Every access but the last one of a block stays at the block. -/
theorem Host.goesOn_within {w' : Todisk} (hpc : w.pc ≠ .exited ∧ w.pc ≠ .close)
    (hprog : m'.prog = Function.update m.prog pid (some (.todisk w'))) (hid : w'.id = w.id) (hfc : w'.fileCount = w.fileCount)
    (hw : H.Writing quiet m' w') : H.GoesOn quiet m m' pid w :=
  ⟨w', hprog, hid, hw, hpc.1, Or.inl ⟨hfc, fun he => absurd he hpc.2⟩⟩

/-- The head of the loop. -/
theorem Host.Writing.again0_step (h : H.Writing quiet m w) (hpc : w.pc = .again0) (hst : H.todiskStep m pid w n time = some m') :
    H.GoesOn quiet m m' pid w := by
  simp only [Host.todiskStep, hpc, Option.some.injEq] at hst
  subst hst
  obtain ⟨hcur, hid, hfc, -⟩ := w.again0_vars m.userStop
  refine Host.goesOn_within (by rw [hpc]; decide) rfl hid hfc ?_
  rcases w.again0_pc m.userStop with he | he <;> exact h.idle hid hfc hcur (by rw [he]; rfl)

/-- The look at the flag: if it is set, the process takes the bucket. -/
theorem Host.Writing.poll_step (h : H.Writing quiet m w) (hs : H.Stored m) (ht : H.OnTime m w) (hpc : w.pc = .poll)
    (hst : H.todiskStep m pid w n time = some m') : H.GoesOn quiet m m' pid w := by
  simp only [Host.todiskStep, hpc] at hst
  split at hst <;> cases hst
  · exact Host.goesOn_within (by rw [hpc]; decide) rfl rfl rfl (h.idle rfl rfl rfl rfl)
  · next hne =>
    rw [numCaptured_bucketMem] at hne
    have hown := h.takes hs ht hpc hne
    refine Host.goesOn_within (by rw [hpc]; decide) rfl rfl rfl (h.before rfl rfl rfl ?_ (fun _ => hown) (fun _ _ => hne) ?_)
    · dsimp only
      split <;> rfl
    · dsimp only
      split <;> exact TodiskPc.noConfusion

/-- The look at the stop. -/
theorem Host.Writing.pollStop_step (h : H.Writing quiet m w) (hpc : w.pc = .pollStop) (hst : H.todiskStep m pid w n time = some m') :
    H.GoesOn quiet m m' pid w := by
  simp only [Host.todiskStep, hpc, Option.some.injEq] at hst
  subst hst
  refine Host.goesOn_within (by rw [hpc]; decide) rfl rfl rfl (h.idle rfl rfl rfl ?_)
  dsimp only
  split <;> rfl

/-- The stop of a process that has found its bucket flagged at the first look. -/
theorem Host.Writing.raiseStop_step (h : H.Writing quiet m w) (hpc : w.pc = .raiseStop)
    (hst : H.todiskStep m pid w n time = some m') : H.GoesOn quiet m m' pid w := by
  simp only [Host.todiskStep, hpc, Option.some.injEq] at hst
  subst hst
  exact Host.goesOn_within (by rw [hpc]; decide) rfl rfl rfl
    (h.before rfl rfl rfl rfl (fun _ => h.own (by rw [hpc]; rfl)) (fun _ => h.flag (by rw [hpc]; rfl)) TodiskPc.noConfusion)

/-- The mark of a stall is beside the flag. -/
theorem Host.Writing.markStalled_step (h : H.Writing quiet m w) (hpc : w.pc = .markStalled)
    (hst : H.todiskStep m pid w n time = some m') : H.GoesOn quiet m m' pid w := by
  have hflag := H.todiskStep_flag hst w.cur
  rw [hpc] at hflag
  simp only [reduceCtorEq, false_and, if_false] at hflag
  simp only [Host.todiskStep, hpc, Option.some.injEq] at hst
  subst hst
  refine Host.goesOn_within (by rw [hpc]; decide) rfl rfl rfl
    (h.before rfl rfl rfl rfl (fun _ => h.own (by rw [hpc]; rfl)) (fun _ hr => ?_) TodiskPc.noConfusion)
  rw [hflag]
  exact h.flag (by rw [hpc]; rfl) hr

/-- The open: the file is to be written from its start. -/
theorem Host.Writing.openFile_step (h : H.Writing quiet m w) (hpc : w.pc = .openFile)
    (hst : H.todiskStep m pid w n time = some m') : H.GoesOn quiet m m' pid w := by
  simp only [Host.todiskStep, hpc, Option.some.injEq] at hst
  subst hst
  exact Host.goesOn_within (by rw [hpc]; decide) rfl rfl rfl
    (h.before rfl rfl rfl rfl (fun _ => h.own (by rw [hpc]; rfl)) (fun _ => h.flag (by rw [hpc]; rfl)) fun _ => ⟨rfl, rfl⟩)

/-- The stamp: nothing of the file has been written. -/
theorem Host.Writing.stamp_step (h : H.Writing quiet m w) (hpc : w.pc = .stamp) (hst : H.todiskStep m pid w n time = some m') :
    H.GoesOn quiet m m' pid w := by
  have hflag := H.todiskStep_flag hst w.cur
  rw [hpc] at hflag
  simp only [reduceCtorEq, false_and, if_false] at hflag
  simp only [Host.todiskStep, hpc, Option.some.injEq] at hst
  subst hst
  obtain ⟨h0, h1⟩ := h.fresh hpc
  refine Host.goesOn_within (by rw [hpc]; decide) rfl rfl rfl
    ⟨h.number, h.cur, fun _ => h.own (by rw [hpc]; rfl), fun _ hr => ?_, TodiskPc.noConfusion, fun _ => ?_, fun _ => ?_,
    fun _ hl => ?_, fun _ => ?_⟩
  · rw [hflag]
    exact h.flag (by rw [hpc]; rfl) hr
  · exact ⟨by dsimp only; omega, fun he => absurd rfl he⟩
  · exact ⟨by dsimp only; omega, fun _ _ => h1, TodiskPc.noConfusion⟩
  · exact absurd h0 (Nat.ne_of_gt hl)
  · dsimp only
    rw [h0, h1]
    exact written_zero _ _

/-- A piece of the length block, or the end of it. -/
theorem Host.Writing.copyLens_step (h : H.Writing quiet m w) (hs : H.Stored m) (hz : H.Sized m) (hm : H.Marked quiet m)
    (ht : H.OnTime m w) (hpc : w.pc = .copyLens) (hst : H.todiskStep m pid w n time = some m') : H.GoesOn quiet m m' pid w := by
  have hc : w.pc.copying = true := by rw [hpc]; rfl
  have hlens := (h.lens hc).1
  have hzero : w.dataDone = 0 := (h.data hc).2.1 (by rw [hpc]; decide) (by rw [hpc]; decide)
  simp only [Host.todiskStep, hpc] at hst
  split at hst <;> cases hst
  · have hk : w.lenDone + min n (lenBlockSize - w.lenDone) ≤ lenBlockSize := by omega
    refine Host.goesOn_within (by rw [hpc]; decide) rfl rfl rfl
      ⟨h.number, h.cur, fun _ => h.own (by rw [hpc]; rfl), fun _ => h.flag (by rw [hpc]; rfl), TodiskPc.noConfusion,
      fun _ => ⟨hk, fun he => absurd rfl he⟩, fun _ => ⟨(h.data hc).1, fun _ _ => hzero, TodiskPc.noConfusion⟩,
      fun _ _ => ht.left hpc, fun _ => ?_⟩
    dsimp only
    rw [hzero, Nat.add_zero]
    exact h.copy_lens hs hz hm ht hpc hk
  · next hge =>
    have hall : w.lenDone = lenBlockSize := by omega
    exact Host.goesOn_within (by rw [hpc]; decide) rfl rfl rfl
      ⟨h.number, h.cur, fun _ => h.own (by rw [hpc]; rfl), fun _ => h.flag (by rw [hpc]; rfl), TodiskPc.noConfusion,
      fun _ => ⟨hlens, fun _ => hall⟩, fun _ => ⟨(h.data hc).1, fun _ _ => hzero, TodiskPc.noConfusion⟩, fun _ => h.left hc,
      fun _ => h.copied hc⟩

/-- The look at the end mark, behind the length block. -/
theorem Host.Writing.readLast_step (h : H.Writing quiet m w) (hpc : w.pc = .readLast) (hst : H.todiskStep m pid w n time = some m') :
    H.GoesOn quiet m m' pid w := by
  have hc : w.pc.copying = true := by rw [hpc]; rfl
  have hall := (h.lens hc).2 (by rw [hpc]; decide)
  have hzero : w.dataDone = 0 := (h.data hc).2.1 (by rw [hpc]; decide) (by rw [hpc]; decide)
  simp only [Host.todiskStep, hpc, Option.some.injEq] at hst
  subst hst
  exact Host.goesOn_within (by rw [hpc]; decide) rfl rfl rfl
    ⟨h.number, h.cur, fun _ => h.own (by rw [hpc]; rfl), fun _ => h.flag (by rw [hpc]; rfl), TodiskPc.noConfusion,
    fun _ => ⟨(h.lens hc).1, fun _ => hall⟩, fun _ => ⟨(h.data hc).1, fun _ _ => hzero, TodiskPc.noConfusion⟩, fun _ => h.left hc,
    fun _ => h.copied hc⟩

/-- The reset of the flag, which the process does not look at any more. -/
theorem Host.Writing.reset_step (h : H.Writing quiet m w) (hpc : w.pc = .reset) (hst : H.todiskStep m pid w n time = some m') :
    H.GoesOn quiet m m' pid w := by
  have hc : w.pc.copying = true := by rw [hpc]; rfl
  have hall := (h.lens hc).2 (by rw [hpc]; decide)
  simp only [Host.todiskStep, hpc, Option.some.injEq] at hst
  subst hst
  exact Host.goesOn_within (by rw [hpc]; decide) rfl rfl rfl
    ⟨h.number, h.cur, fun _ => h.own (by rw [hpc]; rfl), Bool.noConfusion, TodiskPc.noConfusion,
    fun _ => ⟨(h.lens hc).1, fun _ => hall⟩, fun _ => ⟨(h.data hc).1, fun he => absurd rfl he, TodiskPc.noConfusion⟩,
    fun _ => h.left hc, fun _ => h.copied hc⟩

/-- A piece of the packets, or the end of them. -/
theorem Host.Writing.copyData_step (h : H.Writing quiet m w) (hs : H.Stored m) (ht : H.OnTime m w) (hpc : w.pc = .copyData)
    (hst : H.todiskStep m pid w n time = some m') : H.GoesOn quiet m m' pid w := by
  have hc : w.pc.copying = true := by rw [hpc]; rfl
  have hall := (h.lens hc).2 (by rw [hpc]; decide)
  have hdata := (h.data hc).1
  simp only [Host.todiskStep, hpc] at hst
  split at hst <;> cases hst
  · have hk : w.dataDone + min n (lenBlockOff - w.dataDone) ≤ lenBlockOff := by omega
    refine Host.goesOn_within (by rw [hpc]; decide) rfl rfl rfl
      ⟨h.number, h.cur, fun _ => h.own (by rw [hpc]; rfl), Bool.noConfusion, TodiskPc.noConfusion,
      fun _ => ⟨(h.lens hc).1, fun _ => hall⟩, fun _ => ⟨hk, fun he => absurd rfl he, TodiskPc.noConfusion⟩, fun _ => h.left hc,
      fun _ => ?_⟩
    have hw := h.copy_data hs ht hpc hk
    dsimp only
    rw [hall]
    exact hw
  · next hge =>
    exact Host.goesOn_within (by rw [hpc]; decide) rfl rfl rfl
      ⟨h.number, h.cur, fun _ => h.own (by rw [hpc]; rfl), Bool.noConfusion, TodiskPc.noConfusion,
      fun _ => ⟨(h.lens hc).1, fun _ => hall⟩, fun _ => ⟨hdata, fun _ he => absurd rfl he, fun _ => by dsimp only; omega⟩,
      fun _ => h.left hc, fun _ => h.copied hc⟩

/-- The close: the process goes to its next block, or ends. -/
theorem Host.Writing.close_step (h : H.Writing quiet m w) (hpc : w.pc = .close) (hst : H.todiskStep m pid w n time = some m') :
    H.GoesOn quiet m m' pid w := by
  simp only [Host.todiskStep, hpc, Option.some.injEq] at hst
  subst hst
  obtain ⟨hw, hid, hfc⟩ := H.endBlock_writing h
  refine ⟨_, rfl, hid, ⟨hw.number, hw.cur, hw.own, hw.flag, hw.fresh, hw.lens, hw.data, hw.left, hw.copied⟩, by rw [hpc]; decide, ?_⟩
  rcases hfc with he | ⟨he, hx⟩
  · exact Or.inr ⟨hpc, he⟩
  · exact Or.inl ⟨he, fun _ => hx⟩

end Accesses

/-- A step of a process in time keeps it on its way. -/
theorem Host.Writing.todiskStep (h : H.Writing quiet m w) (hs : H.Stored m) (hz : H.Sized m) (hm : H.Marked quiet m)
    (ht : H.OnTime m w) {pid n time : Nat} (hst : H.todiskStep m pid w n time = some m') : H.GoesOn quiet m m' pid w := by
  cases hpc : w.pc with
  | again0 => exact h.again0_step hpc hst
  | poll => exact h.poll_step hs ht hpc hst
  | pollStop => exact h.pollStop_step hpc hst
  | raiseStop => exact h.raiseStop_step hpc hst
  | markStalled => exact h.markStalled_step hpc hst
  | openFile => exact h.openFile_step hpc hst
  | stamp => exact h.stamp_step hpc hst
  | copyLens => exact h.copyLens_step hs hz hm ht hpc hst
  | readLast => exact h.readLast_step hpc hst
  | reset => exact h.reset_step hpc hst
  | copyData => exact h.copyData_step hs ht hpc hst
  | close => exact h.close_step hpc hst
  | exited =>
    simp only [Host.todiskStep, hpc, reduceCtorEq] at hst

end Writing

end NicRecorder
