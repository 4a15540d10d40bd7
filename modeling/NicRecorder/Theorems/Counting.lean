import NicRecorder.Counting
import NicRecorder.Theorems.EndToEnd

/-!
# What the counting tools report

`count_recorded` comes to the flagged file and no further, whatever the number of files and with a descriptor for one of them. Its lines
are those that `block_info` prints of each block, its last sum is the number of packets that the extraction tools can get at; behind a run
in time it is the number of packets that the driver recorded.
-/

namespace NicRecorder

open ByteMem Runs

/-- The files `0` to `n - 1` have a header, and the last of them, and no other, is flagged. -/
structure Table.Counted (T : Table) (disk : Disk) (n : Nat) : Prop where
  file : ∀ f < n, ∃ file, T.fileAt disk f = some file ∧ HasHeader file ∧ (Flagged file ↔ f + 1 = n)

/-- What there is to print of a block, by its file. -/
def Table.report (T : Table) (disk : Disk) (f : Nat) : BlockReport := reportOf f (imageOf ((T.fileAt disk f).getD []))

/-- The lines on the end of the recording that there are to print of a block, by its file. -/
def endLines (file : List UInt8) : List Exit :=
  (if stalledWord (imageOf file) ≠ 0 then [.stalled] else []) ++ if lastWord (imageOf file) ≠ 0 then [.normal] else []

theorem endLines_eq_nil {file : List UInt8} : endLines file = [] ↔ ¬Flagged file := by
  unfold endLines Flagged
  by_cases h1 : stalledWord (imageOf file) = 0 <;> by_cases h2 : lastWord (imageOf file) = 0 <;> simp [h1, h2]

section Header

variable {T : Table} {disk : Disk} {file : List UInt8} {f room : Nat} {s : Counter}

/-- What the tools print of a file with a header does not depend on the mapping. -/
theorem HasHeader.printed (h : HasHeader file) (m : Mem) (f : Nat) :
    reportOf f (readHeader m file) = reportOf f (imageOf file) ∧ stalledWord (readHeader m file) = stalledWord (imageOf file) ∧
      lastWord (readHeader m file) = lastWord (imageOf file) := by
  refine ⟨?_, h.word m _ (by decide), h.word m _ (by decide)⟩
  have hstamp : (readHeader m file).load (lenBlockOff + userStampOff) 8 = (imageOf file).load (lenBlockOff + userStampOff) 8 := by
    refine load_congr fun x h1 h2 => ?_
    obtain ⟨k, rfl⟩ := Nat.exists_eq_add_of_le h1
    unfold HasHeader at h
    have hk : userStampOff + k < file.length := by
      unfold userStampOff
      omega
    rw [Nat.add_assoc, readHeader_byte m hk (by unfold userStampOff const1K; omega), imageOf,
      readBlock_byte _ hk (by unfold userStampOff lenBlockSize; omega)]
  rw [reportOf, reportOf, stampWord, stampWord, hstamp, (h.first_read m).1]

/-- One pass of `count_recorded` over a file with a header. -/
theorem Table.countPass_file (hroom : 0 < room) (hheld : s.held = []) (hr : s.reader = T.readerAt f)
    (hf : T.fileAt disk f = some file) (hh : HasHeader file) :
    T.countPass disk room s =
      (⟨T.readerAt (f + 1), readHeader s.mapping file, s.totalPackets + T.captured disk f, [],
        s.lines ++ [(T.report disk f, s.totalPackets + T.captured disk f)]⟩, endOf file) := by
  have hd : disk (s.reader.fname T.writerPath) = some file := by
    rw [hr]
    exact hf
  obtain ⟨hrep, hst, hla⟩ := hh.printed s.mapping f
  have hcap := (hh.first_read s.mapping).1
  have hfc : s.reader.fileCount = f := by rw [hr]; rfl
  have hreport : T.report disk f = reportOf f (imageOf file) := by
    rw [Table.report, hf, Option.getD_some]
  have hend : (if stalledWord (imageOf file) ≠ 0 then some Exit.stalled
      else if lastWord (imageOf file) ≠ 0 then some .normal else none) = endOf file := rfl
  rw [Table.countPass, hheld, if_neg (by rw [List.length_nil]; omega), hd]
  dsimp only
  rw [hst, hla, hcap, hfc, hrep, hr, T.nextFile_readerAt, List.tail_cons, Table.captured_eq hf, hreport, ← hend]
  split_ifs <;> rfl

theorem Table.blockInfo_file (hf : T.fileAt disk f = some file) (hh : HasHeader file) (mapping : Mem) :
    T.blockInfo disk mapping f = some (T.report disk f, endLines file) := by
  have hd : disk ((T.readerAt f).fname T.writerPath) = some file := hf
  obtain ⟨hrep, hst, hla⟩ := hh.printed mapping f
  rw [Table.blockInfo, hd]
  simp only [hrep, hst, hla, Table.report, hf, Option.getD_some, endLines]

end Header

/-! ## The walk -/

section Walk

variable {T : Table} {disk : Disk} {n room : Nat}

/-- The lines that are printed of the first blocks, with the sums. -/
def Table.linesTo (T : Table) (disk : Disk) (k : Nat) : List (BlockReport × Nat) :=
  (List.range k).map fun f => (T.report disk f, T.total disk 0 (f + 1))

theorem Table.linesTo_succ (T : Table) (disk : Disk) (k : Nat) :
    T.linesTo disk (k + 1) = T.linesTo disk k ++ [(T.report disk k, T.total disk 0 (k + 1))] := by
  rw [Table.linesTo, List.range_succ, List.map_append]
  rfl

/-- `count_recorded` behind the first blocks of a recording. -/
theorem Table.Counted.count_before (h : T.Counted disk n) (hroom : 0 < room) (mapping : Mem) (k : Nat) (hk : k < n) :
    ∃ m, T.countRecorded disk mapping room k = (⟨T.readerAt k, m, T.total disk 0 k, [], T.linesTo disk k⟩, none) := by
  induction k with
  | zero =>
    refine ⟨mapping, ?_⟩
    rw [Table.countRecorded, ← T.readerAt_zero]
    rfl
  | succ k ih =>
    obtain ⟨m, hrun⟩ := ih (by omega)
    obtain ⟨file, hf, hh, hflag⟩ := h.file k (by omega)
    have hgoes : endOf file = none := endOf_eq_none.mpr fun hfl => by
      have := hflag.mp hfl
      omega
    refine ⟨readHeader m file, ?_⟩
    have hnone : (Loop.run (T.countPass disk room) k ⟨Reader.first, mapping, 0, [], []⟩).2 = none := congrArg Prod.snd hrun
    rw [Table.countRecorded, Loop.run_snoc hnone]
    rw [Table.countRecorded] at hrun
    rw [hrun, Table.countPass_file hroom rfl rfl hf hh, hgoes, Table.linesTo_succ, T.total_snoc, Nat.zero_add]

/-- `count_recorded` behind the last block. -/
theorem Table.Counted.count_all {k : Nat} (h : T.Counted disk (k + 1)) (hroom : 0 < room) (mapping : Mem) :
    ∃ m file, T.fileAt disk k = some file ∧ Flagged file ∧ T.countRecorded disk mapping room (k + 1) =
      (⟨T.readerAt (k + 1), m, T.total disk 0 (k + 1), [], T.linesTo disk (k + 1)⟩, endOf file) := by
  obtain ⟨m, hrun⟩ := h.count_before hroom mapping k (by omega)
  obtain ⟨file, hf, hh, hflag⟩ := h.file k (by omega)
  have hnone : (Loop.run (T.countPass disk room) k ⟨Reader.first, mapping, 0, [], []⟩).2 = none := congrArg Prod.snd hrun
  refine ⟨readHeader m file, file, hf, hflag.mpr rfl, ?_⟩
  rw [Table.countRecorded, Loop.run_snoc hnone]
  rw [Table.countRecorded] at hrun
  rw [hrun, Table.countPass_file hroom rfl rfl hf hh, Table.linesTo_succ, T.total_snoc, Nat.zero_add]

end Walk

/-- `count_recorded` and `block_info` on files of which the last one, and no other, is flagged, whatever the mapping held: with a descriptor
for one file `count_recorded` comes to the flagged file and ends there, its lines are those that `block_info` prints of each block, and
the sums are those of the packets up to there. -/
theorem count_recorded_exact (T : Table) (disk : Disk) (n : Nat) (h : T.Counted disk n) (hn : 0 < n) (mapping : Mem) (room : Nat)
    (hroom : 0 < room) :
    ∃ t x, T.countRecorded disk mapping room n = (t, some x) ∧ (x = .stalled ∨ x = .normal) ∧
      t.totalPackets = T.total disk 0 n ∧ t.held = [] ∧ t.lines.length = n ∧
      ∀ f < n, ∀ mapping', ∃ ends, (ends = [] ↔ f + 1 < n) ∧
        T.blockInfo disk mapping' f = some (T.report disk f, ends) ∧
        t.lines[f]? = some (T.report disk f, T.total disk 0 (f + 1)) := by
  obtain ⟨k, rfl⟩ : ∃ k, n = k + 1 := ⟨n - 1, by omega⟩
  obtain ⟨m, file, -, hflag, hlast⟩ := h.count_all hroom mapping
  have hblocks : ∀ f < k + 1, ∀ mapping', ∃ ends, (ends = [] ↔ f + 1 < k + 1) ∧
      T.blockInfo disk mapping' f = some (T.report disk f, ends) ∧
      (T.linesTo disk (k + 1))[f]? = some (T.report disk f, T.total disk 0 (f + 1)) := by
    intro f hfk mapping'
    obtain ⟨file', hf', hh', hflag'⟩ := h.file f hfk
    refine ⟨_, ?_, Table.blockInfo_file hf' hh' mapping', ?_⟩
    · rw [endLines_eq_nil, hflag']
      omega
    · rw [Table.linesTo, List.getElem?_map, List.getElem?_range hfk]
      rfl
  rcases endOf_of_flagged hflag with he | he <;> rw [he] at hlast
  · exact ⟨_, _, hlast, Or.inl rfl, rfl, rfl, by simp [Table.linesTo], hblocks⟩
  · exact ⟨_, _, hlast, Or.inr rfl, rfl, rfl, by simp [Table.linesTo], hblocks⟩

theorem Table.Recording.counted {T : Table} {disk : Disk} {n : Nat} (h : T.Recording disk n) : T.Counted disk n := by
  refine ⟨fun f hf => ?_⟩
  obtain ⟨file, hat, hwhole, -, -, hflag⟩ := h.file f hf
  exact ⟨file, hat, hwhole.hasHeader, hflag⟩

/-- The lines of a recording of two files, read to a mapping that was cleared. -/
theorem count_recorded_exact_two :
    ∃ t x, oneWriter.countRecorded sampleDisk (fun _ => 0) 1 2 = (t, some x) ∧ t.lines.length = 2 ∧
      oneWriter.blockInfo sampleDisk (fun _ => 0) 0 = some (oneWriter.report sampleDisk 0, []) := by
  obtain ⟨t, x, hrun, -, -, -, hlen, hblocks⟩ :=
    count_recorded_exact oneWriter sampleDisk 2 sampleDisk_recording.recording.counted (by decide) (fun _ => 0) 1 Nat.one_pos
  obtain ⟨ends, hends, hinfo, -⟩ := hblocks 0 (by decide) fun _ => 0
  rw [hends.mpr (by decide)] at hinfo
  exact ⟨t, x, hrun, hlen, hinfo⟩

/-! ## Behind a run -/

/-- In every run in time without a stall, when every block of the recording has been closed, `count_recorded` ends as it does behind a
normal end, has a line for every fill with the number of packets recorded in it, and comes to the number of packets that were recorded. -/
theorem recording_counted (H : Host) {s t : Machine} {tr : List (Machine × MachineAct)} (hi : H.machine.init s)
    (hr : Run H.machine s tr t) (ht : Meets (H.Timely True) tr) (hnd : (startedWriters tr).Nodup)
    (hall : ∀ f ≤ t.cap.drv.hist.procFill, f ∈ closedBlocks tr) (mapping : Mem) :
    ∃ out, H.table.countRecorded t.disk mapping 1 (t.cap.drv.hist.procFill + 1) = (out, some .normal) ∧
      out.totalPackets = t.cap.drv.hist.accepted ∧
      out.lines.map (fun l => l.1.packets) = (List.range (t.cap.drv.hist.procFill + 1)).map fun f => (t.cap.drv.saved f).length := by
  have hl := H.ledger_of_run hi hr ht hnd
  have hrec := hl.recordingOf hall
  have hfills := hl.stored.fills
  have ho := hfills.inv.order
  -- what the file of each block says of it
  have hfile : ∀ f ≤ t.cap.drv.hist.procFill, ∃ file, H.table.fileAt t.disk f = some file ∧
      numCaptured (imageOf file) = (t.cap.drv.saved f).length ∧ lastWord (imageOf file) = t.cap.drv.lastIn f ∧
      stalledWord (imageOf file) = 0 := by
    intro f hf
    obtain ⟨file, hat, hholds, hlast, hstalled⟩ := (hl.closed f (hall f hf)).1.fileHolds hl.stored
    exact ⟨file, hat, hholds.holds.captured, hlast, hstalled trivial⟩
  obtain ⟨m, file, hat, -, hrun⟩ := hrec.recording.counted.count_all Nat.one_pos mapping
  have hend : endOf file = some .normal := by
    obtain ⟨file', hat', -, hlast, hstalled⟩ := hfile _ (Nat.le_refl _)
    obtain rfl : file = file' := Option.some.inj (hat.symm.trans hat')
    rw [endOf, if_neg (not_not.mpr hstalled), hlast, Driver.lastIn, if_neg (Nat.lt_irrefl _), if_pos (by decide)]
  rw [hend] at hrun
  refine ⟨_, hrun, ?_, ?_⟩
  · show H.table.total t.disk 0 (t.cap.drv.hist.procFill + 1) = t.cap.drv.hist.accepted
    rw [hrec.total _ 0 (by omega), ← List.range_eq_range', hfills.flatMap_saved, List.length_take]
    omega
  · show (H.table.linesTo t.disk _).map _ = _
    rw [Table.linesTo, List.map_map]
    refine List.map_congr_left fun f hf => ?_
    obtain ⟨file', hat', hcap, -, -⟩ := hfile f (by have := List.mem_range.mp hf; omega)
    show (H.table.report t.disk f).packets = _
    rw [Table.report, hat', Option.getD_some, ← hcap]
    rfl

/-- A recording of three packets. -/
theorem recording_counted_three :
    ∃ tr t, Run Host.shipped.machine (Host.shipped.started (fun _ => 0) fun _ => none) tr t ∧
      ∃ out, Host.shipped.table.countRecorded t.disk (fun _ => 0) 1 1 = (out, some .normal) ∧ out.totalPackets = 3 := by
  obtain ⟨tr, t, hr, hm, hs, hc, hfill, -, hacc⟩ := Host.exists_saved_three
  have hall : ∀ f ≤ t.cap.drv.hist.procFill, f ∈ closedBlocks tr := by
    intro f hf
    rw [hfill, Nat.le_zero] at hf
    rw [hc, hf]
    decide
  obtain ⟨out, hrun, htotal, -⟩ := recording_counted Host.shipped ⟨_, _, rfl⟩ hr hm (by rw [hs]; decide) hall fun _ => 0
  rw [hfill] at hrun
  exact ⟨tr, t, hr, out, hrun, htotal.trans hacc⟩

end NicRecorder
