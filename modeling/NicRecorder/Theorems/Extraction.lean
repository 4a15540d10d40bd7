import NicRecorder.Lemmas.Walk
import NicRecorder.Theorems.RoundTrip

/-!
# What the extraction tools make of a recording

Three statements about whole recordings: `to_libpcap` writes exactly the packets asked for, `block2libpcap` writes what `to_libpcap`
writes from the first packet of the block on, and `dump_packet` shows the packets that `to_libpcap` writes, under the numbers that they
have in the recording. All three tools hand on the same list (`Config.tool_recording`); the outputs are two ways to write it down.
-/

namespace NicRecorder

open ByteMem

/-! ## The outputs -/

theorem foldl_writeOnePacket (old : List UInt8) (hs : List Handed) :
    ∀ bs, hs.foldl writeOnePacket (OpenFile.over old bs) =
      OpenFile.over old (bs ++ (hs.map fun h => recordOf h.packet.data).flatMap Pcap.Record.bytes) := by
  induction hs with
  | nil => intro bs; simp
  | cons h hs ih =>
    intro bs
    rw [List.foldl_cons, writeOnePacket, over_write, over_write, ih, List.map_cons, List.flatMap_cons, List.append_assoc,
      List.append_assoc, ← List.append_assoc (Pcap.Record.hdrBytes _)]
    rfl

/-- The output file behind a list of packets: a pcap file, over what was there before. -/
theorem foldl_pcapOpened (old : List UInt8) (hs : List Handed) :
    hs.foldl writeOnePacket (pcapOpened old) =
      OpenFile.over old (Pcap.encode pcapHdr ((hs.map Handed.packet).map fun e => recordOf e.data)) := by
  rw [pcapOpened, opened_eq_over, over_write, List.nil_append, foldl_writeOnePacket, List.map_map]
  rfl

/-- What is shown of a list of packets. -/
theorem foldl_showOnePacket (hs : List Handed) :
    ∀ out, hs.foldl showOnePacket out = out ++ hs.map fun h => ⟨h.label, h.packet.data.length, h.packet.data⟩ := by
  induction hs with
  | nil => intro out; simp
  | cons h hs ih =>
    intro out
    rw [List.foldl_cons, ih, showOnePacket, List.map_cons, List.append_assoc, List.singleton_append]
    rfl

theorem pcapHdr_fits : pcapHdr.Fits := by
  constructor <;> decide

theorem recordOf_fits {data : List UInt8} (h : data.length < 2 ^ 16) : (recordOf data).Fits where
  tsSec := Nat.zero_lt_succ _
  tsUsec := Nat.zero_lt_succ _
  inclLen := Nat.lt_trans h (by decide)
  origLen := Nat.lt_trans h (by decide)
  data := rfl

/-! ## Recordings of given packets -/

/-- The files `0` to `n - 1` hold lists of packets in the format of the configuration, none of them empty; the last file, and no
other, is flagged. -/
structure Config.RecordingOf (c : Config) (T : Table) (disk : Disk) (pkts : Nat → List (List UInt8)) (n : Nat) : Prop where
  file : ∀ f < n, ∃ file, T.fileAt disk f = some file ∧ c.FileHolds file (pkts f) ∧ pkts f ≠ [] ∧ (Flagged file ↔ f + 1 = n)

section Packets

variable {c : Config} {T : Table} {disk : Disk} {pkts : Nat → List (List UInt8)} {n : Nat}

theorem Config.RecordingOf.recording (h : c.RecordingOf T disk pkts n) : T.Recording disk n := by
  refine ⟨fun f hf => ?_⟩
  obtain ⟨file, h1, h2, h3, h4⟩ := h.file f hf
  refine ⟨file, h1, h2.whole, ?_, ?_, h4⟩
  · rw [h2.holds.captured]
    exact List.length_pos_of_ne_nil h3
  · rw [h2.slots]
    exact Nat.ne_of_gt c.slots_pos

/-- When the stride of the tools is the one of the driver, what can be handed on from a file are the packets that it holds. -/
theorem Config.FileHolds.filePackets {file : List UInt8} {ps : List (List UInt8)} (h : c.FileHolds file ps)
    (hstride : c.bytesPerSlot = 240 * 1024) (mapping : Mem) (base : Nat) :
    ((c.filePackets mapping file base).map Handed.packet).map Emitted.data = ps := by
  have hat : ∀ j ∈ List.range' 0 ps.length,
      (c.packetAt (NicRecorder.readBlock mapping file) c.numRxSlots j).data = (c.emittedAt ps j).data := by
    intro j hj
    obtain ⟨-, hlt⟩ := List.mem_range'_1.mp hj
    rw [(h.readBlock mapping).packetAt h.laid hstride (by omega)]
  rw [Config.filePackets, Config.handedOn, h.slots, h.holds.captured, List.map_map, List.map_map]
  refine (List.map_congr_left hat).trans ?_
  have := map_emittedAt c ps 0 ps.length (by omega)
  rwa [List.drop_zero, List.take_length, List.map_map] at this

theorem Config.RecordingOf.packetsFrom (h : c.RecordingOf T disk pkts n) (hstride : c.bytesPerSlot = 240 * 1024) (mapping : Mem)
    (k : Nat) : ∀ b base, b + k ≤ n →
      ((c.packetsFrom T disk mapping b k base).map Handed.packet).map Emitted.data = (List.range' b k).flatMap pkts := by
  induction k with
  | zero => intro _ _ _; rfl
  | succ k ih =>
    intro b base hb
    obtain ⟨file, h1, h2, -, -⟩ := h.file b (by omega)
    rw [Config.packetsFrom_succ h1, List.map_append, List.map_append, h2.filePackets hstride, ih (b + 1) _ (by omega),
      List.range'_succ, List.flatMap_cons]

/-- The headers of a recording count its packets. -/
theorem Config.RecordingOf.total (h : c.RecordingOf T disk pkts n) (k : Nat) :
    ∀ b, b + k ≤ n → T.total disk b k = ((List.range' b k).flatMap pkts).length := by
  induction k with
  | zero => intro _ _; rfl
  | succ k ih =>
    intro b hb
    obtain ⟨file, h1, h2, -, -⟩ := h.file b (by omega)
    rw [T.total_cons, Table.captured_eq h1, h2.holds.captured, ih (b + 1) (by omega), List.range'_succ, List.flatMap_cons,
      List.length_append]

theorem Config.RecordingOf.length_lt (h : c.RecordingOf T disk pkts n) {p : List UInt8}
    (hp : p ∈ (List.range n).flatMap pkts) : p.length < 2 ^ 16 := by
  obtain ⟨f, hf, hp⟩ := List.mem_flatMap.mp hp
  obtain ⟨file, -, h2, -, -⟩ := h.file f (List.mem_range.mp hf)
  obtain ⟨j, hj, rfl⟩ := List.getElem_of_mem hp
  have hlen := h2.laid.length_lt j hj
  rwa [lengthOf, List.getD, List.getElem?_eq_getElem hj, Option.getD_some] at hlen

end Packets

/-! ## `to_libpcap` -/

theorem Table.pos_of_lt_total {T : Table} {disk : Disk} {start n : Nat} (h : start < T.total disk 0 n) : 0 < n := by
  rcases Nat.eq_zero_or_pos n with rfl | hn
  · exact absurd h (Nat.not_lt_zero _)
  · exact hn

/-- What `to_libpcap` leaves, over any old file: the packets asked for, as far as there are, behind the header. -/
theorem Config.RecordingOf.toLibpcap {c : Config} {T : Table} {disk : Disk} {pkts : Nat → List (List UInt8)} {n : Nat}
    (hrec : c.RecordingOf T disk pkts n) (hbits : c.rxSlotBits = 12) (mapping : Mem) (old : List UInt8) {start count : Nat}
    (hstart : start < T.total disk 0 n) (hcount : 0 < count) :
    ∃ t x, c.toLibpcap T disk mapping old start count n = (t, some x) ∧ (x = .done ∨ x = .stalled ∨ x = .normal) ∧
      t.sink = OpenFile.over old
        (Pcap.encode pcapHdr (((((List.range n).flatMap pkts).drop start).take count).map recordOf)) := by
  have hstride : c.bytesPerSlot = 240 * 1024 := by
    simp only [Config.bytesPerSlot, hbits]
  have hn := Table.pos_of_lt_total hstart
  have hdata : (((c.packetsFrom T disk mapping 0 n 0).map Handed.packet).map Emitted.data) = (List.range n).flatMap pkts := by
    rw [hrec.packetsFrom hstride mapping n 0 0 (by omega), ← List.range_eq_range']
  obtain ⟨t, x, hrun, hsink, h1, h2⟩ := c.tool_recording writeOnePacket hrec.recording hn
    (fun _ _ => rfl : AgreeBeyond mapping mapping) hstart hcount (pcapOpened old)
  refine ⟨t, x, ?_, hrec.recording.exit_cases hn h1 h2, ?_⟩
  · rw [Config.toLibpcap, ← T.readerAt_zero]
    exact hrun
  · rw [hsink, foldl_pcapOpened, ← hdata]
    simp [List.map_take, List.map_drop, Function.comp_def]

/-- Extraction is exact. On a recording in the format of the shipped number of slots, whatever the mapping held before, `to_libpcap`
ends and leaves, in a new file, the header of a pcap file and one record for each of the packets asked for, as far as there are: those
of all files, in order, from packet `start` on. A reader of the format gets back their lengths and bytes. -/
theorem extraction_exact (c : Config) (hbits : c.rxSlotBits = 12) (T : Table) (disk : Disk) (n : Nat)
    (pkts : Nat → List (List UInt8)) (hrec : c.RecordingOf T disk pkts n) (mapping : Mem) (start count : Nat)
    (hstart : start < T.total disk 0 n) (hcount : 0 < count) :
    let all := (List.range n).flatMap pkts
    let selected := (all.drop start).take (min (start + count) (T.total disk 0 n) - start)
    all.length = T.total disk 0 n ∧
      ∃ passes t x, c.toLibpcap T disk mapping [] start count passes = (t, some x) ∧
        (x = .done ∨ x = .stalled ∨ x = .normal) ∧
        pcapHdr.bytes.length = 24 ∧
        t.sink.content = pcapHdr.bytes ++ (selected.map recordOf).flatMap Pcap.Record.bytes ∧
        Pcap.decode t.sink.content = some (pcapHdr, selected.map recordOf) := by
  intro all selected
  have hlen : all.length = T.total disk 0 n := by
    rw [hrec.total n 0 (by omega), ← List.range_eq_range']
  have hsel : selected = (all.drop start).take count := by
    have hdrop : (all.drop start).length = T.total disk 0 n - start := by
      rw [List.length_drop, hlen]
    rcases Nat.le_total (start + count) (T.total disk 0 n) with hle | hle
    · simp only [selected, Nat.min_eq_left hle, Nat.add_sub_cancel_left]
    · simp only [selected, Nat.min_eq_right hle]
      rw [List.take_of_length_le (by omega), List.take_of_length_le (by omega)]
  obtain ⟨t, x, hrun, hx, hsink⟩ := hrec.toLibpcap hbits mapping [] hstart hcount
  have hout : t.sink.content = Pcap.encode pcapHdr (selected.map recordOf) := by
    rw [hsink, hsel]
    simp [OpenFile.over, all]
  refine ⟨hlen, n, t, x, hrun, hx, Pcap.header_length _, hout, ?_⟩
  rw [hout]
  refine Pcap.decode_encode pcapHdr_fits fun r hr => ?_
  obtain ⟨p, hp, rfl⟩ := List.mem_map.mp hr
  exact recordOf_fits (hrec.length_lt (List.mem_of_mem_drop (List.mem_of_mem_take hp)))

/-! ### A recording of two files -/

/-- A table with one writer. -/
def oneWriter : Table := ⟨1, fun _ => [], by decide⟩

/-- A disk with the files of blocks 0 and 1. -/
def twoFiles (T : Table) (a b : List UInt8) : Disk := fun name =>
  if name = fileName (T.writerPath (0 % T.numWriters)) 0 then some a
  else if name = fileName (T.writerPath (1 % T.numWriters)) 1 then some b
  else none

theorem fileAt_twoFiles (a b : List UInt8) :
    oneWriter.fileAt (twoFiles oneWriter a b) 0 = some a ∧ oneWriter.fileAt (twoFiles oneWriter a b) 1 = some b := by
  refine ⟨by rw [Table.fileAt, twoFiles, if_pos rfl], ?_⟩
  have h : fileName (oneWriter.writerPath (1 % oneWriter.numWriters)) 1 ≠
      fileName (oneWriter.writerPath (0 % oneWriter.numWriters)) 0 := by
    decide
  rw [Table.fileAt, twoFiles, if_neg h, if_pos rfl]

/-- One packet in each of two files. -/
def samplePkts (f : Nat) : List (List UInt8) := if f = 0 then [List.replicate 60 7] else [List.replicate 64 8]

def sampleDisk : Disk :=
  twoFiles oneWriter (Config.shipped.fileOf (samplePkts 0) 0) (Config.shipped.fileOf (samplePkts 1) 1)

theorem samplePkts_wellLaid (f : Nat) : Config.shipped.WellLaid (samplePkts f) := by
  refine Config.Receivable.wellLaid ⟨?_, Config.shipped.fits_of_length_le ?_⟩
  · unfold samplePkts
    split <;> decide
  · unfold samplePkts
    split <;> decide

theorem sampleDisk_recording : Config.shipped.RecordingOf oneWriter sampleDisk samplePkts 2 := by
  obtain ⟨h0, h1⟩ := fileAt_twoFiles (Config.shipped.fileOf (samplePkts 0) 0) (Config.shipped.fileOf (samplePkts 1) 1)
  refine ⟨fun f hf => ?_⟩
  rcases Nat.lt_or_ge f 1 with h | h
  · obtain rfl : f = 0 := by omega
    refine ⟨_, h0, Config.fileHolds_fileOf (samplePkts_wellLaid 0) 0, by decide, ?_⟩
    rw [Config.flagged_fileOf (samplePkts_wellLaid 0) (by decide)]
    decide
  · obtain rfl : f = 1 := by omega
    refine ⟨_, h1, Config.fileHolds_fileOf (samplePkts_wellLaid 1) 1, by decide, ?_⟩
    rw [Config.flagged_fileOf (samplePkts_wellLaid 1) (by decide)]
    decide

theorem sampleDisk_total : oneWriter.total sampleDisk 0 2 = 2 := by
  rw [sampleDisk_recording.total 2 0 (by decide)]
  decide

/-- Both packets of a recording of two files, asked for from the first on. -/
theorem extraction_exact_two :
    let all := (List.range 2).flatMap samplePkts
    let selected := (all.drop 0).take (min (0 + 5) (oneWriter.total sampleDisk 0 2) - 0)
    all.length = oneWriter.total sampleDisk 0 2 ∧
      ∃ passes t x, Config.shipped.toLibpcap oneWriter sampleDisk (fun _ => 0) [] 0 5 passes = (t, some x) ∧
        (x = .done ∨ x = .stalled ∨ x = .normal) ∧
        pcapHdr.bytes.length = 24 ∧
        t.sink.content = pcapHdr.bytes ++ (selected.map recordOf).flatMap Pcap.Record.bytes ∧
        Pcap.decode t.sink.content = some (pcapHdr, selected.map recordOf) :=
  extraction_exact Config.shipped rfl oneWriter sampleDisk 2 samplePkts sampleDisk_recording (fun _ => 0) 0 5
    (by rw [sampleDisk_total]; decide) (by decide)

/-! ## `block2libpcap` -/

/-- `block2libpcap` is `to_libpcap` with a shifted start. On a recording, from any of its blocks on and for any count, over any two
output files and with mappings that agree on the page that no file is read to, both tools end in the same way (with the count, or
with the flagged file), and both write the same records. -/
theorem block2libpcap_shifted (c : Config) (T : Table) (disk : Disk) (n : Nat) (hrec : T.Recording disk n)
    (mapping mapping' : Mem) (hm : AgreeBeyond mapping mapping') (old old' : List UInt8) (b count : Nat) (hb : b < n)
    (hcount : 0 < count) :
    ∃ passes passes' t t' x records,
      c.block2libpcap T disk mapping old b count passes = (t, some x) ∧
        c.toLibpcap T disk mapping' old' (T.total disk 0 b) count passes' = (t', some x) ∧
        (x = .done ∨ x = .stalled ∨ x = .normal) ∧
        t.sink = OpenFile.over old (Pcap.encode pcapHdr records) ∧
        t'.sink = OpenFile.over old' (Pcap.encode pcapHdr records) := by
  obtain ⟨k, rfl⟩ := Nat.exists_eq_add_of_le (Nat.le_of_lt hb)
  have hsub : b + k - b = k := Nat.add_sub_cancel_left b k
  -- the packets before block `b` are exactly those that the other tool skips
  have htotal : T.total disk 0 (b + k) = T.total disk 0 b + T.total disk b k := by
    have h := congrArg List.length (c.packetsFrom_add T disk mapping k b 0 0)
    rwa [List.length_append, c.packetsFrom_length, c.packetsFrom_length, c.packetsFrom_length, Nat.zero_add] at h
  have hpos : 0 < T.total disk b k := by
    obtain ⟨k, rfl⟩ : ∃ j, k = j + 1 := ⟨k - 1, by omega⟩
    exact hrec.total_pos hb k
  have hs : 0 < T.total disk b (b + k - b) := by
    rw [hsub]
    exact hpos
  have hs' : T.total disk 0 b < T.total disk 0 (b + k - 0) := by
    rw [Nat.sub_zero, htotal]
    omega
  obtain ⟨t, x, hrun, hsink, h1, h2⟩ := c.tool_recording writeOnePacket hrec hb hm hs hcount (pcapOpened old)
  obtain ⟨t', x', hrun', hsink', h1', h2'⟩ := c.tool_recording writeOnePacket hrec (Nat.zero_lt_of_lt hb)
    (fun _ _ => rfl : AgreeBeyond mapping' mapping') hs' hcount (pcapOpened old')
  have hend := hrec.exit_cases hb h1 h2
  rw [hsub] at h1 h2 hsink
  rw [Nat.sub_zero, htotal] at h1' h2'
  have hx : x' = x := by
    rcases Nat.lt_or_ge (T.total disk b k) (0 + count) with hlt | hge
    · exact Option.some.inj ((h2' (by omega)).symm.trans (h2 hlt))
    · rw [h1 hge, h1' (by omega)]
  have hlist : ((c.packetsFrom T disk mapping' 0 (b + k) 0).drop (T.total disk 0 b)).map Handed.packet =
      (c.packetsFrom T disk mapping' b k 0).map Handed.packet := by
    rw [c.packetsFrom_add, List.drop_left' (c.packetsFrom_length T disk mapping' b 0 0), Nat.zero_add,
      c.packetsFrom_packet T disk mapping' k b _ 0]
  refine ⟨b + k - b, b + k, t, t', x, _, hrun, ?_, hend, hsink.trans (foldl_pcapOpened _ _), ?_⟩
  · rw [← hx, Config.toLibpcap, ← T.readerAt_zero]
    exact hrun'
  · rw [hsink', foldl_pcapOpened, Nat.sub_zero, List.drop_zero]
    simp only [List.map_take, hlist]

/-- The second of two blocks. -/
theorem block2libpcap_shifted_second :
    ∃ passes passes' t t' x records,
      Config.shipped.block2libpcap oneWriter sampleDisk (fun _ => 0) [] 1 3 passes = (t, some x) ∧
        Config.shipped.toLibpcap oneWriter sampleDisk (fun _ => 0) [] (oneWriter.total sampleDisk 0 1) 3 passes' = (t', some x) ∧
        (x = .done ∨ x = .stalled ∨ x = .normal) ∧
        t.sink = OpenFile.over [] (Pcap.encode pcapHdr records) ∧
        t'.sink = OpenFile.over [] (Pcap.encode pcapHdr records) :=
  block2libpcap_shifted Config.shipped oneWriter sampleDisk 2 sampleDisk_recording.recording _ _ (fun _ _ => rfl) [] [] 1 3
    (by decide) (by decide)

/-! ## `dump_packet` -/

/-- `dump_packet` numbers the packets of a recording. The packets that it shows carry the numbers from `start` on, without a gap, and
under each number it shows the length and the bytes of the record that `to_libpcap`, asked for the same packets, writes at that
place. -/
theorem dump_packet_labels (c : Config) (T : Table) (disk : Disk) (n : Nat) (hrec : T.Recording disk n)
    (mapping mapping' : Mem) (hm : AgreeBeyond mapping mapping') (old : List UInt8) (start count : Nat)
    (hstart : start < T.total disk 0 n) (hcount : 0 < count) :
    ∃ passes t t' x records,
      c.dumpPacketTool T disk mapping start count passes = (t, some x) ∧
        c.toLibpcap T disk mapping' old start count passes = (t', some x) ∧
        t'.sink = OpenFile.over old (Pcap.encode pcapHdr records) ∧
        t.sink.map Shown.label = List.range' start (min (start + count) (T.total disk 0 n) - start) ∧
        t.sink.map (fun s => (s.len, s.bytes)) = records.map fun r => (r.inclLen, r.data) := by
  have hn := Table.pos_of_lt_total hstart
  obtain ⟨t, x, hrun, hsink, h1, h2⟩ := c.tool_recording showOnePacket hrec hn hm hstart hcount []
  obtain ⟨t', x', hrun', hsink', h1', h2'⟩ := c.tool_recording writeOnePacket hrec hn
    (fun _ _ => rfl : AgreeBeyond mapping' mapping') hstart hcount (pcapOpened old)
  have hx : x' = x := by
    rcases Nat.lt_or_ge (T.total disk 0 (n - 0)) (start + count) with hlt | hge
    · exact Option.some.inj ((h2' hlt).symm.trans (h2 hlt))
    · rw [h1 hge, h1' hge]
  refine ⟨n, t, t', x, _, ?_, ?_, hsink'.trans (foldl_pcapOpened _ _), ?_, ?_⟩
  · rw [Config.dumpPacketTool, ← T.readerAt_zero]
    exact hrun
  · rw [← hx, Config.toLibpcap, ← T.readerAt_zero]
    exact hrun'
  · rw [hsink, foldl_showOnePacket, List.nil_append, List.map_map]
    refine Eq.trans (List.map_take (f := Handed.label)) ?_
    rw [List.map_drop, c.packetsFrom_label]
    apply List.ext_getElem
    · simp only [List.length_take, List.length_drop, List.length_range', Nat.sub_zero]
      omega
    · intro i _ _
      simp
  · rw [hsink, foldl_showOnePacket]
    simp [recordOf, Function.comp_def]

/-- Both packets of a recording of two files. -/
theorem dump_packet_labels_two :
    ∃ passes t t' x records,
      Config.shipped.dumpPacketTool oneWriter sampleDisk (fun _ => 0) 0 5 passes = (t, some x) ∧
        Config.shipped.toLibpcap oneWriter sampleDisk (fun _ => 0) [] 0 5 passes = (t', some x) ∧
        t'.sink = OpenFile.over [] (Pcap.encode pcapHdr records) ∧
        t.sink.map Shown.label = List.range' 0 (min (0 + 5) (oneWriter.total sampleDisk 0 2) - 0) ∧
        t.sink.map (fun s => (s.len, s.bytes)) = records.map fun r => (r.inclLen, r.data) :=
  dump_packet_labels Config.shipped oneWriter sampleDisk 2 sampleDisk_recording.recording _ _ (fun _ _ => rfl) [] 0 5
    (by rw [sampleDisk_total]; decide) (by decide)

/-! ## The output file -/

/-- How the output file of a tool depends on what it held before, for the tool as a function of the old content and for two contents.

* Over a new file the output is a pcap file.
* The tool ends in the same way over any file, and leaves the same bytes with the tail of the old file behind them.
* Both runs leave the same as over a new file if and only if neither old file was longer. -/
structure OutputOver (run : List UInt8 → Tool OpenFile × Option Exit) (old old' : List UInt8) : Prop where
  fresh : ∃ records, (run []).1.sink.content = Pcap.encode pcapHdr records
  exit : (run old).2 = (run []).2
  tail : (run old).1.sink.content = (run []).1.sink.content ++ old.drop (run []).1.sink.content.length
  same : ((run old).1.sink.content = (run []).1.sink.content ∧ (run old').1.sink.content = (run []).1.sink.content) ↔
    old.length ≤ (run []).1.sink.content.length ∧ old'.length ≤ (run []).1.sink.content.length

theorem append_drop_eq_self {α : Type} (out old : List α) : out ++ old.drop out.length = out ↔ old.length ≤ out.length := by
  rw [List.append_right_eq_self, List.drop_eq_nil_iff]

/-- Both tools write over the old file in one way. -/
theorem Config.outputOver (c : Config) (T : Table) (disk : Disk) (mapping : Mem) (r : Reader) (start count passes : Nat)
    (old old' : List UInt8) :
    OutputOver (fun old => c.mainLoop T disk writeOnePacket passes (Tool.entered r mapping start count (pcapOpened old)))
      old old' := by
  -- the packets handed on do not depend on the output file
  obtain ⟨out, hout⟩ : ∃ out, ∀ old,
      (c.mainLoop T disk writeOnePacket passes (Tool.entered r mapping start count (pcapOpened old))).1.sink =
        OpenFile.over old (Pcap.encode pcapHdr out) := by
    refine ⟨((c.collected T disk r mapping start count passes).1.sink.map Handed.packet).map fun e => recordOf e.data,
      fun old => ?_⟩
    rw [c.mainLoop_sink T disk writeOnePacket]
    exact foldl_pcapOpened old _
  have hcontent : ∀ old,
      (c.mainLoop T disk writeOnePacket passes (Tool.entered r mapping start count (pcapOpened old))).1.sink.content =
        Pcap.encode pcapHdr out ++ old.drop (Pcap.encode pcapHdr out).length := by
    intro old
    rw [hout old, OpenFile.over]
  have hnew := hcontent []
  rw [List.drop_nil, List.append_nil] at hnew
  refine ⟨⟨out, hnew⟩, ?_, ?_, ?_⟩
  · rw [c.mainLoop_sink T disk writeOnePacket, c.mainLoop_sink T disk writeOnePacket]
  · rw [hnew, hcontent old]
  · rw [hnew, hcontent old, hcontent old', append_drop_eq_self, append_drop_eq_self]

/-- The length of a new output file, for a recording: that of the header, and of a record for each packet asked for. -/
theorem Config.RecordingOf.fresh_length {c : Config} {T : Table} {disk : Disk} {pkts : Nat → List (List UInt8)} {n : Nat}
    (hrec : c.RecordingOf T disk pkts n) (hbits : c.rxSlotBits = 12) (mapping : Mem) {start count : Nat}
    (hstart : start < T.total disk 0 n) (hcount : 0 < count) :
    (c.toLibpcap T disk mapping [] start count n).1.sink.content.length =
      24 + (((((List.range n).flatMap pkts).drop start).take count).map fun p => 16 + p.length).sum := by
  obtain ⟨t, x, hrun, -, hsink⟩ := hrec.toLibpcap hbits mapping [] hstart hcount
  rw [hrun, hsink, OpenFile.over, List.drop_nil, List.append_nil, Pcap.encode_length, List.map_map]
  rfl

/-- The output of the two tools depends on what the file held before, and only by the tail of a longer file: on any disks, for any
request, and however far the tool has come. For a recording the length of the new output is known from the packets asked for. -/
theorem output_fresh_iff (c : Config) (T : Table) (disk : Disk) (mapping : Mem) (old old' : List UInt8) :
    (∀ start count passes, OutputOver (fun old => c.toLibpcap T disk mapping old start count passes) old old') ∧
      (∀ b count passes, OutputOver (fun old => c.block2libpcap T disk mapping old b count passes) old old') ∧
      ∀ pkts n start count, c.RecordingOf T disk pkts n → c.rxSlotBits = 12 → start < T.total disk 0 n → 0 < count →
        (c.toLibpcap T disk mapping [] start count n).1.sink.content.length =
          24 + (((((List.range n).flatMap pkts).drop start).take count).map fun p => 16 + p.length).sum :=
  ⟨fun start count passes => c.outputOver T disk mapping _ start count passes old old',
    fun b count passes => c.outputOver T disk mapping (T.readerAt b) 0 count passes old old',
    fun _ _ _ _ hrec hbits hstart hcount => hrec.fresh_length hbits mapping hstart hcount⟩

/-- Both packets of a recording in a new file: 24 bytes, and 16 and the length for each of them. -/
theorem output_fresh_iff_both :
    (Config.shipped.toLibpcap oneWriter sampleDisk (fun _ => 0) [] 0 2 2).1.sink.content.length = 24 + (16 + 60) + (16 + 64) := by
  have hlen := (output_fresh_iff Config.shipped oneWriter sampleDisk (fun _ => 0) [] []).2.2 samplePkts 2 0 2 sampleDisk_recording rfl
    (by rw [sampleDisk_total]; decide) Nat.two_pos
  rw [hlen]
  rfl

/-- A recording of two packets: both are extracted to a file, and then the first one again to the same file. The file still shows
both. -/
theorem output_fresh_false :
    ∃ t t' t'' x x' x'', Config.shipped.toLibpcap oneWriter sampleDisk (fun _ => 0) [] 0 2 2 = (t, some x) ∧
      Config.shipped.toLibpcap oneWriter sampleDisk (fun _ => 0) [] 0 1 2 = (t', some x') ∧
      Config.shipped.toLibpcap oneWriter sampleDisk (fun _ => 0) t.sink.content 0 1 2 = (t'', some x'') ∧
      Pcap.decode t'.sink.content = some (pcapHdr, (samplePkts 0).map recordOf) ∧
      Pcap.decode t''.sink.content = some (pcapHdr, (samplePkts 0 ++ samplePkts 1).map recordOf) ∧
      t''.sink.content ≠ t'.sink.content := by
  have hall : (List.range 2).flatMap samplePkts = samplePkts 0 ++ samplePkts 1 := rfl
  have h0 : 0 < oneWriter.total sampleDisk 0 2 := by
    rw [sampleDisk_total]
    decide
  obtain ⟨t, x, ht, -, hs⟩ := sampleDisk_recording.toLibpcap rfl (fun _ => 0) [] h0 (show 0 < 2 by decide)
  obtain ⟨t', x', ht', -, hs'⟩ := sampleDisk_recording.toLibpcap rfl (fun _ => 0) [] h0 (show 0 < 1 by decide)
  obtain ⟨t'', x'', ht'', -, hs''⟩ := sampleDisk_recording.toLibpcap rfl (fun _ => 0) t.sink.content h0 (show 0 < 1 by decide)
  rw [hall, List.drop_zero] at hs hs' hs''
  have hfit : ∀ r ∈ (samplePkts 0 ++ samplePkts 1).map recordOf, r.Fits := by
    intro r hr
    obtain ⟨p, hp, rfl⟩ := List.mem_map.mp hr
    exact recordOf_fits (sampleDisk_recording.length_lt (hall ▸ hp))
  have hfirst : (samplePkts 0 ++ samplePkts 1).take 1 = samplePkts 0 := rfl
  have hboth : (samplePkts 0 ++ samplePkts 1).take 2 = samplePkts 0 ++ samplePkts 1 := rfl
  have hc : t.sink.content = Pcap.encode pcapHdr ((samplePkts 0 ++ samplePkts 1).map recordOf) := by
    rw [hs, hboth, OpenFile.over, List.drop_nil, List.append_nil]
  have hc' : t'.sink.content = Pcap.encode pcapHdr ((samplePkts 0).map recordOf) := by
    rw [hs', hfirst, OpenFile.over, List.drop_nil, List.append_nil]
  -- the record behind the new output is still that of the old file
  have hc'' : t''.sink.content = t.sink.content := by
    rw [hs'', hfirst, hc, List.map_append, Pcap.encode, Pcap.encode, List.flatMap_append, ← List.append_assoc]
    simp only [OpenFile.over, List.drop_left]
  have hd' : Pcap.decode t'.sink.content = some (pcapHdr, (samplePkts 0).map recordOf) := by
    rw [hc']
    refine Pcap.decode_encode pcapHdr_fits fun r hr => hfit r ?_
    rw [List.map_append]
    exact List.mem_append_left _ hr
  have hd'' : Pcap.decode t''.sink.content = some (pcapHdr, (samplePkts 0 ++ samplePkts 1).map recordOf) := by
    rw [hc'', hc]
    exact Pcap.decode_encode pcapHdr_fits hfit
  refine ⟨t, t', t'', x, x', x'', ht, ht', ht'', hd', hd'', fun he => ?_⟩
  rw [he, hd', Option.some.injEq, Prod.mk.injEq] at hd''
  exact absurd (congrArg List.length hd''.2) (by decide)

end NicRecorder
