import NicRecorder.Tools
import NicRecorder.Lemmas.Extract

/-!
# What a file shows in a mapping

A tool reads a file into its mapping in three pieces, over whatever the mapping held. Byte by byte: the start of the file goes to
the place of the length block, what follows the length block goes to the start of the mapping, and the last page of the mapping is
left alone. So a file that is as long as its header determines what the tool finds in the header (`HasHeader`), and one that is as
long as a bucket without its last page determines everything but that page (`WholeFile`).
-/

namespace NicRecorder

open ByteMem

/-- The header of a bucket, `u.real`, takes up 80 bytes of its file. -/
def HasHeader (file : List UInt8) : Prop := 80 ≤ file.length

/-- A file with the length block and the packets of a bucket. -/
def WholeFile (file : List UInt8) : Prop := lenBlockSize + lenBlockOff ≤ file.length

/-- The file as it shows in a mapping that was cleared before. -/
def imageOf (file : List UInt8) : Mem := readBlock (fun _ => 0) file

/-- The file is flagged as the last one of a recording. -/
def Flagged (file : List UInt8) : Prop := stalledWord (imageOf file) ≠ 0 ∨ lastWord (imageOf file) ≠ 0

theorem WholeFile.hasHeader {file : List UInt8} (h : WholeFile file) : HasHeader file := by
  unfold WholeFile lenBlockSize lenBlockOff const1M at h
  unfold HasHeader
  omega

/-! ## Byte by byte -/

theorem WholeFile.packet_lt {file : List UInt8} (h : WholeFile file) {x : Nat} (hx : x < lenBlockOff) :
    lenBlockSize + x < file.length := by
  unfold WholeFile at h
  omega

theorem readHeader_eq (m : Mem) (file : List UInt8) : readHeader m file = m.store lenBlockOff (file.take const1K) := by
  simp [readHeader, OpenFile.read, OpenFile.opened]

theorem readBlock_eq (m : Mem) (file : List UInt8) :
    readBlock m file = ((readHeader m file).store lenBlockOff (file.take lenBlockSize)).store 0
      ((file.drop (file.take lenBlockSize).length).take lenBlockOff) := by
  simp [readBlock, OpenFile.read, OpenFile.opened, OpenFile.rewind, lenBlockOff]

section Bytes

variable (m : Mem) {file : List UInt8} {x : Nat}

theorem readHeader_byte (h : x < file.length) (hx : x < const1K) : readHeader m file (lenBlockOff + x) = file[x] := by
  rw [readHeader_eq, store_inside _ _ _ x (by rw [List.length_take]; omega), List.getElem_take]

theorem readBlock_byte (h : x < file.length) (hx : x < lenBlockSize) : readBlock m file (lenBlockOff + x) = file[x] := by
  have hlen : ((file.drop (file.take lenBlockSize).length).take lenBlockOff).length ≤ lenBlockOff := by
    rw [List.length_take]
    omega
  rw [readBlock_eq, store_outside _ _ _ _ (by omega), store_inside _ _ _ x (by rw [List.length_take]; omega),
    List.getElem_take]

theorem WholeFile.packet_byte (h : WholeFile file) (hx : x < lenBlockOff) (hb : lenBlockSize + x < file.length) :
    readBlock m file x = file[lenBlockSize + x] := by
  unfold WholeFile at h
  have hlen : (file.take lenBlockSize).length = lenBlockSize := by
    rw [List.length_take]
    omega
  have hin : x < ((file.drop lenBlockSize).take lenBlockOff).length := by
    rw [List.length_take, List.length_drop]
    omega
  have hs := store_inside ((readHeader m file).store lenBlockOff (file.take lenBlockSize)) 0 _ x hin
  rw [Nat.zero_add] at hs
  rw [readBlock_eq, hlen, hs, List.getElem_take, List.getElem_drop]

theorem readHeader_beyond (file : List UInt8) (hx : lenBlockOff + lenBlockSize ≤ x) : readHeader m file x = m x := by
  rw [readHeader_eq, store_outside]
  rw [List.length_take]
  unfold const1K
  unfold lenBlockSize at hx
  omega

theorem readBlock_beyond (file : List UInt8) (hx : lenBlockOff + lenBlockSize ≤ x) : readBlock m file x = m x := by
  rw [readBlock_eq, store_outside, store_outside, readHeader_beyond m file hx]
  · rw [List.length_take]
    omega
  · rw [List.length_take]
    omega

end Bytes

/-! ## The header -/

section Header

variable {file : List UInt8}

/-- The words of the header are the same after the first read and after all reads, whatever the mapping held. -/
theorem HasHeader.word (h : HasHeader file) (m m' : Mem) {off : Nat} (hoff : off + 4 ≤ 80) :
    (readHeader m file).load32 (lenBlockOff + off) = (readBlock m' file).load32 (lenBlockOff + off) := by
  unfold HasHeader at h
  apply load32_congr
  apply load_congr
  intro x h1 h2
  obtain ⟨k, rfl⟩ := Nat.exists_eq_add_of_le (Nat.le_trans (Nat.le_add_right _ _) h1)
  have hk : k < file.length := by omega
  rw [readHeader_byte m hk (by unfold const1K; omega), readBlock_byte m' hk (by unfold lenBlockSize; omega)]

/-- What the tools find in the header of a file after the first read. -/
theorem HasHeader.first_read (h : HasHeader file) (m : Mem) :
    numCaptured (readHeader m file) = numCaptured (imageOf file) ∧
      headerSlots (readHeader m file) = headerSlots (imageOf file) :=
  ⟨h.word m _ (by decide), h.word m _ (by decide)⟩

/-- What the tools find in the header of a file after all reads. -/
theorem HasHeader.all_reads (h : HasHeader file) (m : Mem) :
    numCaptured (readBlock m file) = numCaptured (imageOf file) ∧
      stalledWord (readBlock m file) = stalledWord (imageOf file) ∧ lastWord (readBlock m file) = lastWord (imageOf file) := by
  refine ⟨?_, ?_, ?_⟩
  · exact (h.word m m (by decide)).symm.trans (h.word m _ (by decide))
  · exact (h.word m m (by decide)).symm.trans (h.word m _ (by decide))
  · exact (h.word m m (by decide)).symm.trans (h.word m _ (by decide))

end Header

/-! ## The whole file -/

/-- Two mappings agree where no file is read to: on the last page, and beyond the bucket. -/
def AgreeBeyond (m m' : Mem) : Prop := ∀ x, lenBlockOff + lenBlockSize ≤ x → m x = m' x

/-- A whole file leaves nothing of what the mapping held but the last page. -/
theorem WholeFile.readBlock_eq {file : List UInt8} (h : WholeFile file) {m m' : Mem} (hm : AgreeBeyond m m') :
    readBlock m file = readBlock m' file := by
  funext x
  rcases Nat.lt_or_ge x lenBlockOff with hx | hx
  · rw [h.packet_byte m hx (h.packet_lt hx), h.packet_byte m' hx (h.packet_lt hx)]
  rcases Nat.lt_or_ge x (lenBlockOff + lenBlockSize) with hx' | hx'
  · obtain ⟨k, rfl⟩ := Nat.exists_eq_add_of_le hx
    have hk : k < file.length := by
      unfold WholeFile at h
      omega
    rw [readBlock_byte m hk (by omega), readBlock_byte m' hk (by omega)]
  · rw [readBlock_beyond m file hx', readBlock_beyond m' file hx']
    exact hm x hx'

/-- Below the last page, a whole file shows the same in every mapping. -/
theorem WholeFile.readBlock_apply {file : List UInt8} (h : WholeFile file) (m : Mem) {x : Nat}
    (hx : x < lenBlockOff + lenBlockSize) : readBlock m file x = imageOf file x := by
  rcases Nat.lt_or_ge x lenBlockOff with hx' | hx'
  · rw [imageOf, h.packet_byte m hx' (h.packet_lt hx'), h.packet_byte _ hx' (h.packet_lt hx')]
  · obtain ⟨k, rfl⟩ := Nat.exists_eq_add_of_le hx'
    have hk : k < file.length := by
      unfold WholeFile at h
      omega
    rw [imageOf, readBlock_byte m hk (by omega), readBlock_byte _ hk (by omega)]

/-- Memories that agree below the last page hold the same packets. -/
theorem Config.Holds.congr {c : Config} {m m' : Mem} {pkts : List (List UInt8)} (hm : c.Holds m pkts) (h : c.WellLaid pkts)
    (he : ∀ x < lenBlockOff + lenBlockSize, m' x = m x) : c.Holds m' pkts := by
  refine ⟨fun j hj => ?_, fun j hj => ?_, ?_⟩
  · have hend := h.place_end hj
    refine (load_congr fun x _ h2 => he x ?_).trans (hm.data j hj)
    omega
  · have hend := h.len_end j hj
    refine (load16_congr (load_congr fun x _ h2 => he x ?_)).trans (hm.lens j hj)
    omega
  · rw [← hm.captured]
    unfold numCaptured
    apply load32_congr
    apply load_congr
    intro x _ h2
    have hend : numCapturedOff + 4 ≤ lenBlockSize := by decide
    exact he x (by omega)

/-- A word of the header behind the number of packets can be stored without harm to the packets. -/
theorem Config.Holds.store_word {c : Config} {m : Mem} {pkts : List (List UInt8)} (hm : c.Holds m pkts) (h : c.WellLaid pkts)
    {off v : Nat} (h1 : numCapturedOff + 4 ≤ off) (h2 : off + 4 ≤ lenOff) :
    c.Holds (m.store32 (lenBlockOff + off) v) pkts := by
  refine ⟨fun j hj => ?_, fun j hj => ?_, ?_⟩
  · have := h.place_end hj
    rw [Mem.store32, load_store_disjoint _ _ _ _ _ (by rw [leBytes_length]; omega)]
    exact hm.data j hj
  · rw [Mem.store32, load16_store_disjoint _ _ _ _ (by rw [leBytes_length]; omega)]
    exact hm.lens j hj
  · rw [← hm.captured]
    unfold numCaptured
    rw [Mem.store32, load32_store_disjoint _ _ _ _ (by rw [leBytes_length]; omega)]

/-- A file that holds a list of packets, in the format of the configuration. -/
structure Config.FileHolds (c : Config) (file : List UInt8) (pkts : List (List UInt8)) : Prop where
  whole : WholeFile file
  slots : headerSlots (imageOf file) = c.numRxSlots
  laid : c.WellLaid pkts
  holds : c.Holds (imageOf file) pkts

/-- A file holds the packets in every mapping that it is read to. -/
theorem Config.FileHolds.readBlock {c : Config} {file : List UInt8} {pkts : List (List UInt8)} (h : c.FileHolds file pkts)
    (m : Mem) : c.Holds (readBlock m file) pkts :=
  h.holds.congr h.laid fun _ hx => h.whole.readBlock_apply m hx

/-! ## The files that a writer makes -/

section Written

variable (old : List UInt8) (time : Nat) (bucket : Mem)

theorem wholeFile_todiskFile : WholeFile (todiskFile old time bucket) := by
  obtain ⟨tail, ht⟩ := todiskFile_eq old time bucket
  rw [WholeFile, ht]
  simp only [List.length_append, load_length]
  omega

/-- The words behind the time are those of the bucket. -/
theorem imageOf_todiskFile_word {off : Nat} (h1 : 8 ≤ off) (h2 : off + 4 ≤ lenBlockSize) :
    (imageOf (todiskFile old time bucket)).load32 (lenBlockOff + off) = bucket.load32 (lenBlockOff + off) := by
  apply load32_congr
  exact readBlock_lens _ _ _ _ _ _ (by omega) (by omega)

/-- The file of a bucket is flagged as the bucket is. -/
theorem flagged_todiskFile : Flagged (todiskFile old time bucket) ↔ stalledWord bucket ≠ 0 ∨ lastWord bucket ≠ 0 := by
  unfold Flagged stalledWord lastWord
  rw [imageOf_todiskFile_word old time bucket (by decide) (by decide),
    imageOf_todiskFile_word old time bucket (by decide) (by decide)]

/-- The file of a bucket that holds packets holds them. -/
theorem Config.Holds.fileHolds {c : Config} {pkts : List (List UInt8)} {bucket : Mem} (hm : c.Holds bucket pkts)
    (h : c.WellLaid pkts) (hslots : headerSlots bucket = c.numRxSlots) (old : List UInt8) (time : Nat) :
    c.FileHolds (todiskFile old time bucket) pkts where
  whole := wholeFile_todiskFile old time bucket
  slots := (imageOf_todiskFile_word old time bucket (by decide) (by decide)).trans hslots
  laid := h
  holds := hm.readBlock h _ old time

end Written

/-- The file of a bucket that the driver filled over cleared memory and left with a value of `last`. -/
def Config.fileOf (c : Config) (pkts : List (List UInt8)) (last : Nat) : List UInt8 :=
  todiskFile [] 0 ((c.driverImage ⟨fun _ => 0, fun _ => 0⟩ pkts).store32 (lenBlockOff + lastOff) last)

section FileOf

variable {c : Config} {pkts : List (List UInt8)} {last : Nat}

theorem Config.fileHolds_fileOf (h : c.WellLaid pkts) (last : Nat) : c.FileHolds (c.fileOf pkts last) pkts := by
  obtain ⟨hm, hslots⟩ := c.driverImage_holds h ⟨fun _ => 0, fun _ => 0⟩
  refine Config.Holds.fileHolds (hm.store_word h ?_ ?_) h ?_ _ _
  · decide
  · decide
  · rw [← hslots]
    unfold headerSlots numRxSlotsOff lastOff
    rw [Mem.store32, load32_store_disjoint _ _ _ _ (by rw [leBytes_length]; omega)]

theorem Config.flagged_fileOf (h : c.WellLaid pkts) (hlast : last < 2 ^ 32) : Flagged (c.fileOf pkts last) ↔ last ≠ 0 := by
  have hstalled : (c.driverImage ⟨fun _ => 0, fun _ => 0⟩ pkts).load32 (lenBlockOff + stalledOff) = 0 := by
    rw [Config.driverImage_word h _ (by decide) (by decide)]
    simp [Mem.load32, Mem.load, leNat]
  have hs : stalledWord ((c.driverImage ⟨fun _ => 0, fun _ => 0⟩ pkts).store32 (lenBlockOff + lastOff) last) = 0 := by
    refine Eq.trans ?_ hstalled
    unfold stalledWord stalledOff lastOff
    rw [Mem.store32, load32_store_disjoint _ _ _ _ (by rw [leBytes_length]; omega)]
  have hl : lastWord ((c.driverImage ⟨fun _ => 0, fun _ => 0⟩ pkts).store32 (lenBlockOff + lastOff) last) = last :=
    load32_store32_same _ _ _ hlast
  rw [Config.fileOf, flagged_todiskFile, hs, hl]
  simp

end FileOf

end NicRecorder
