import NicRecorder.Lemmas.Finishing
import NicRecorder.Theorems.Extraction

/-!
# From the wire to the pcap file

The driver, the writers and `to_libpcap` put together. What the adapter delivers passes through the ring, the buckets, the files of the
writers and the tool; a run in time loses none of it on the way, and what is read back of the pcap file is what was recorded, in order.
-/

namespace NicRecorder

open ByteMem Runs

/-! ## The files that have been closed -/

section Saved

variable {H : Host} {quiet : Prop} {m : Machine} {f : Nat}

theorem Host.SavedIn.fileHolds (h : H.SavedIn quiet m f) (hs : H.Stored m) :
    ∃ file, H.table.fileAt m.disk f = some file ∧ H.config.FileHolds file (m.cap.drv.saved f) ∧
      lastWord (imageOf file) = m.cap.drv.lastIn f ∧ (quiet → stalledWord (imageOf file) = 0) := by
  obtain ⟨file, hat, hwhole, himg⟩ := h.file
  exact ⟨file, hat, ⟨hwhole, himg.slots, hs.fills.divided.wellLaid_saved h.left.le, himg.holds⟩, himg.last, himg.stalled⟩

/-- In a run without a stall a file is flagged when it is that of the last fill. -/
theorem Host.SavedIn.flagged_iff (h : H.SavedIn True m f) (hs : H.Stored m) :
    ∃ file, H.table.fileAt m.disk f = some file ∧ H.config.FileHolds file (m.cap.drv.saved f) ∧
      (Flagged file ↔ f = m.cap.drv.hist.procFill) := by
  obtain ⟨file, hat, hholds, hlast, hstalled⟩ := h.fileHolds hs
  have hle := h.left.le
  refine ⟨file, hat, hholds, ?_⟩
  rw [Flagged, hlast, hstalled trivial, Driver.lastIn]
  split <;> omega

/-- The recorded packets of the fills, up to the last one, are what the adapter has delivered, as far as it has been recorded. -/
theorem Config.Fills.flatMap_saved {c : Config} {d : Driver} (h : c.Fills d) :
    (List.range (d.hist.procFill + 1)).flatMap d.saved = d.hist.sent.take d.hist.accepted := by
  have hle := h.inv.procFill_le
  have hacc := h.inv.window.accepted_eq
  have hbefore : (List.range d.hist.procFill).flatMap d.saved = (List.range d.hist.procFill).flatMap d.arrived := by
    refine List.flatMap_congr fun f hf => ?_
    have hlt := List.mem_range.mp hf
    rw [Driver.saved, Driver.arrived, Driver.savedEnd_of_lt hlt, Driver.fillEnd_of_lt (by omega)]
  rw [List.range_succ, List.flatMap_append, hbefore, h.parted.flatMap_arrived h.inv.agreed.first _ hle, List.flatMap_cons,
    List.flatMap_nil, List.append_nil, Driver.saved, Driver.savedEnd_last]
  have hsplit := List.take_append_drop (d.hist.allocStart d.hist.procFill) (d.hist.sent.take d.hist.accepted)
  rwa [List.take_take, Nat.min_eq_left (by rw [h.inv.start_procFill]; omega)] at hsplit

end Saved

/-- What the writers have saved. In every run in time in which no writer is started twice, whatever the order of the steps: no block is
closed twice, and every file that has been closed holds exactly the packets that were recorded in its fill, with the end mark if the
recording ended there; and that stays so. -/
theorem closed_files_hold_packets (H : Host) {s t : Machine} {tr : List (Machine × MachineAct)} (hi : H.machine.init s)
    (hr : Run H.machine s tr t) (ht : Meets (H.Timely False) tr) (hnd : (startedWriters tr).Nodup) :
    (closedBlocks tr).Nodup ∧ ∀ f ∈ closedBlocks tr, t.cap.drv.Left f ∧ t.cap.drv.saved f ≠ [] ∧
      ∃ file, H.table.fileAt t.disk f = some file ∧ H.config.FileHolds file (t.cap.drv.saved f) ∧
        lastWord (imageOf file) = t.cap.drv.lastIn f := by
  have hl := H.ledger_of_run hi hr ht hnd
  refine ⟨hl.once, fun f hf => ?_⟩
  obtain ⟨hsaved, -, -⟩ := hl.closed f hf
  obtain ⟨file, hat, hholds, hlast, -⟩ := hsaved.fileHolds hl.stored
  exact ⟨hsaved.left, hsaved.nonempty, file, hat, hholds, hlast⟩

/-! ## The recording as a whole -/

/-- When the recording thread has ended and every block has been closed, the files are a recording of what was recorded. -/
theorem Host.Ledger.recordingOf {H : Host} {tr : List (Machine × MachineAct)} {t : Machine} (h : H.Ledger True tr t)
    (hall : ∀ f ≤ t.cap.drv.hist.procFill, f ∈ closedBlocks tr) :
    H.config.RecordingOf H.table t.disk t.cap.drv.saved (t.cap.drv.hist.procFill + 1) := by
  refine ⟨fun f hf => ?_⟩
  obtain ⟨hsaved, -, -⟩ := h.closed f (hall f (by omega))
  obtain ⟨file, hat, hholds, hflag⟩ := hsaved.flagged_iff h.stored
  refine ⟨file, hat, hholds, hsaved.nonempty, hflag.trans ?_⟩
  omega

/-- From the wire to the pcap file. In every run in time without a stall, when every block of the recording has been closed,
`to_libpcap` leaves a file from which a reader of the format gets back the packets asked for: those that the adapter delivered and the
driver recorded, in order, from packet `start` on, with their lengths and their bytes. -/
theorem recording_extracted (H : Host) (hbits : H.config.rxSlotBits = 12) {s t : Machine} {tr : List (Machine × MachineAct)}
    (hi : H.machine.init s) (hr : Run H.machine s tr t) (ht : Meets (H.Timely True) tr) (hnd : (startedWriters tr).Nodup)
    (hall : ∀ f ≤ t.cap.drv.hist.procFill, f ∈ closedBlocks tr) (mapping : Mem) (start count : Nat)
    (hstart : start < t.cap.drv.hist.accepted) (hcount : 0 < count) :
    ∃ passes out x, H.config.toLibpcap H.table t.disk mapping [] start count passes = (out, some x) ∧
      (x = .done ∨ x = .stalled ∨ x = .normal) ∧
      Pcap.decode out.sink.content =
        some (pcapHdr, (((t.cap.drv.hist.sent.take t.cap.drv.hist.accepted).drop start).take count).map recordOf) := by
  have hl := H.ledger_of_run hi hr ht hnd
  have hrec := hl.recordingOf hall
  have hfills := hl.stored.fills
  have ho := hfills.inv.order
  have htotal : H.table.total t.disk 0 (t.cap.drv.hist.procFill + 1) = t.cap.drv.hist.accepted := by
    rw [hrec.total _ 0 (by omega), ← List.range_eq_range', hfills.flatMap_saved, List.length_take]
    omega
  obtain ⟨out, x, hrun, hx, hsink⟩ := hrec.toLibpcap hbits mapping [] (by rw [htotal]; exact hstart) hcount
  refine ⟨_, out, x, hrun, hx, ?_⟩
  have hout : out.sink.content =
      Pcap.encode pcapHdr (((((List.range (t.cap.drv.hist.procFill + 1)).flatMap t.cap.drv.saved).drop start).take count).map
        recordOf) := by
    rw [hsink]
    simp [OpenFile.over]
  rw [hout, ← hfills.flatMap_saved]
  refine Pcap.decode_encode pcapHdr_fits fun r hr => ?_
  obtain ⟨p, hp, rfl⟩ := List.mem_map.mp hr
  exact recordOf_fits (hrec.length_lt (List.mem_of_mem_drop (List.mem_of_mem_take hp)))

/-! ## A recording of three packets -/

/-- The steps of the driver concern no writer. -/
theorem Machine.ByDriver.timely {H : Host} {quiet : Prop} {m : Machine} {a : MachineAct} (h : m.ByDriver a) : H.Timely quiet m a := by
  obtain ⟨b, rfl, ha⟩ := h
  exact ⟨ha, nofun, fun _ => nofun, nofun⟩

/-- A run of the driver starts no writer and closes no file. -/
theorem byDriver_idle {tr : List (Machine × MachineAct)} (h : Meets Machine.ByDriver tr) :
    startedWriters tr = [] ∧ closedBlocks tr = [] := by
  constructor
  · refine List.filterMap_eq_nil_iff.mpr fun x hx => ?_
    obtain ⟨b, he, -⟩ := h x hx
    rw [he]
    rfl
  · refine List.filterMap_eq_nil_iff.mpr fun x hx => ?_
    obtain ⟨b, he, -⟩ := h x hx
    rw [he]
    rfl

theorem Host.timely_start {H : Host} {quiet : Prop} (m : Machine) (pid id : Nat) : H.Timely quiet m (.startTodisk pid id) :=
  ⟨trivial, nofun, fun _ => nofun, nofun⟩

/-- The first fill can be saved when the threads have ended in it. -/
theorem Config.Lazy.settled_finished {c : Config} {d : Driver} (h : c.Lazy d) (hfill : d.hist.procFill = 0)
    (hbuckets : 3 ≤ c.numBuckets) : c.Settled d.finished 0 := by
  refine ⟨?_, Or.inr ⟨hfill.symm, rfl⟩, ?_⟩
  · show Function.update d.hist.pubFill d.proc.cur d.hist.procFill (c.bucketOf 0) = 0
    have hb : c.bucketOf 0 = d.proc.cur := by
      rw [h.inv.wrapped.proc_cur, hfill]
    rw [hb, Function.update_self, hfill]
  · show d.hist.allocFill < 0 + c.numBuckets
    have hlag := h.inv.allocFill_le
    omega

theorem Host.buckets_ge (H : Host) : 3 ≤ H.config.numBuckets := by
  have hB := H.writers_le
  have hW := H.table.writers_pos
  omega

/-- The first writer, started behind the stop, finds the first bucket flagged and takes it. -/
theorem Host.run_taking {H : Host} {m : Machine} (hset : H.config.Settled m.cap.drv 0) (hnone : m.prog 0 = none)
    (hu : m.userStop = true) (hflag : flagOf m.mem H.config.start1G ≠ 0) :
    ∃ tr m' w, Run H.machine m tr m' ∧ Meets (H.Timely True) tr ∧ startedWriters tr = [0] ∧ closedBlocks tr = [] ∧
      m'.cap = m.cap ∧ m'.prog 0 = some (.todisk w) ∧ w.fileCount = 0 ∧ w.cur = H.config.bucketOf 0 ∧ w.pc = .openFile := by
  have hcur : H.config.bucketOf 0 = H.config.start1G := by
    rw [Config.bucketOf, Nat.zero_mod, Nat.add_zero]
  let w0 := H.startTodisk 0
  let w1 : Todisk := { w0 with pc := .poll, delayStop := 1 }
  let w2 : Todisk := { w0 with pc := .openFile, delayStop := 1 }
  let m0 := m.setProg 0 (.todisk w0)
  let m1 := m0.setProg 0 (.todisk w1)
  let m2 := m1.setProg 0 (.todisk w2)
  have hp0 : m0.prog 0 = some (.todisk w0) := m.setProg_self _ _
  have hp1 : m1.prog 0 = some (.todisk w1) := m0.setProg_self _ _
  have hs0 : H.machine.step m (.startTodisk 0 0) m0 := Host.Step.startTodisk 0 0 hnone H.table.writers_pos
  have hu0 : m0.userStop = true := hu
  have hs1 : H.todiskStep m0 0 w0 0 0 = some m1 := by
    simp [Host.todiskStep, w0, Host.startTodisk, Todisk.again0, stopCheck, hu0, m1, w1]
  have hs2 : H.todiskStep m1 0 w1 0 0 = some m2 := by
    have hc : numCaptured (bucketMem m1.mem w1.cur) ≠ 0 := by
      rw [numCaptured_bucketMem]
      exact hflag
    simp [Host.todiskStep, w1, hc, m2, w2]
  refine ⟨_, m2, w2, ((Run.single hs0).append (Host.run_todisk hp0 hs1)).append (Host.run_todisk hp1 hs2), ?_, ?_, ?_, rfl,
    m1.setProg_self _ _, rfl, hcur.symm, rfl⟩
  · refine meets_append.mpr ⟨meets_append.mpr ⟨?_, ?_⟩, ?_⟩
    · exact meets_snoc.mpr ⟨meets_nil _, Host.timely_start m 0 0⟩
    · exact meets_snoc.mpr ⟨meets_nil _, Host.timely_todisk hp0 (Config.Settled.onTime hset hcur.symm) fun he => by cases he⟩
    · exact meets_snoc.mpr ⟨meets_nil _, Host.timely_todisk hp1 (Config.Settled.onTime hset hcur.symm) fun he => by cases he⟩
  · rfl
  · rfl

/-- Less than a lap of packets is captured, the capture is stopped, and the first writer saves the first bucket. -/
theorem Host.exists_saved (H : Host) (ram : Mem) (disk : Disk) {ps : List (List UInt8)} (hps : ∀ p ∈ ps, Deliverable p)
    (hne : ps ≠ []) (hlen : ps.length < H.config.numRxSlots) :
    ∃ tr t, Run H.machine (H.started ram disk) tr t ∧ Meets (H.Timely True) tr ∧ startedWriters tr = [0] ∧ closedBlocks tr = [0] ∧
      t.cap.drv.hist.procFill = 0 ∧ t.cap.drv.hist.sent = ps ∧ t.cap.drv.hist.accepted = ps.length := by
  obtain ⟨d, mem, ⟨tr0, hr0, hd0⟩, hd, hsent, hfill, hcount⟩ := H.exists_recorded ram disk hps hlen
  have hset := hd.settled_finished hfill H.buckets_ge
  have hacc : d.hist.accepted = ps.length := by
    rw [hd.caught, hsent]
  have hm0 : Meets (H.Timely True) tr0 := hd0.mono fun _ _ h => h.timely
  obtain ⟨hs0, hc0⟩ := byDriver_idle hd0
  have hflag : flagOf mem H.config.start1G ≠ 0 := by
    rw [← numCaptured_bucketMem, hcount]
    exact Nat.pos_iff_ne_zero.mp (List.length_pos_iff.mpr hne)
  obtain ⟨tr1, m1, w, hr1, hm1, hs1, hc1, hcap1, hp1, hfc, hcur, hpc⟩ :=
    Host.run_taking (H := H) (m := ⟨⟨d.finished, H.config.startVisitor 0, []⟩, mem, fun _ => none, disk, []⟩) hset rfl rfl hflag
  have hrem : w.remaining = 9 := by
    rw [Todisk.remaining, hpc]
  obtain ⟨tr2, t, hr2, hm2, hs2, hc2, hcap2⟩ := H.run_finishing hp1 (by rw [hcap1, hfc]; exact hset) (by rw [hcur, hfc]) (by omega)
  refine ⟨_, t, (hr0.append hr1).append hr2, meets_append.mpr ⟨meets_append.mpr ⟨hm0, hm1⟩, hm2⟩, ?_, ?_, ?_⟩
  · unfold startedWriters at *
    rw [List.filterMap_append, List.filterMap_append, hs0, hs1, hs2]
    rfl
  · unfold closedBlocks at *
    rw [List.filterMap_append, List.filterMap_append, hc0, hc1, hc2, hfc]
    rfl
  · rw [hcap2, hcap1]
    exact ⟨hfill, hsent, hacc⟩

/-- The recording of three packets in one file. -/
theorem Host.exists_saved_three :
    ∃ tr t, Run Host.shipped.machine (Host.shipped.started (fun _ => 0) fun _ => none) tr t ∧
      Meets (Host.shipped.Timely True) tr ∧ startedWriters tr = [0] ∧ closedBlocks tr = [0] ∧
      t.cap.drv.hist.procFill = 0 ∧ t.cap.drv.hist.sent = threePackets ∧ t.cap.drv.hist.accepted = 3 :=
  Host.shipped.exists_saved _ _ threePackets_deliverable (List.cons_ne_nil _ _) (by decide)

/-- The file of the first block holds the packets that were captured. -/
theorem closed_files_hold_packets_three :
    ∃ tr t, Run Host.shipped.machine (Host.shipped.started (fun _ => 0) fun _ => none) tr t ∧ closedBlocks tr = [0] ∧
      ∃ file, Host.shipped.table.fileAt t.disk 0 = some file ∧ Host.shipped.config.FileHolds file threePackets := by
  obtain ⟨tr, t, hr, hm, hs, hc, hfill, hsent, hacc⟩ := Host.exists_saved_three
  have hm' : Meets (Host.shipped.Timely False) tr := hm.mono fun _ _ h => ⟨h.written, h.kept, nofun, h.onTime⟩
  have hl := (closed_files_hold_packets Host.shipped ⟨_, _, rfl⟩ hr hm' (by rw [hs]; decide)).2 0 (by rw [hc]; decide)
  have hfills := (Host.shipped.ledger_of_run ⟨_, _, rfl⟩ hr hm (by rw [hs]; decide)).stored.fills
  have hsaved : t.cap.drv.saved 0 = threePackets := by
    have hall := hfills.flatMap_saved
    have htake : threePackets.take 3 = threePackets := rfl
    rw [hfill, hacc, hsent, htake] at hall
    simpa using hall
  rw [hsaved] at hl
  obtain ⟨-, -, file, hat, hholds, -⟩ := hl
  exact ⟨tr, t, hr, hc, file, hat, hholds⟩

/-- The second and the third packet are read back of the pcap file. -/
theorem recording_extracted_three :
    ∃ tr t, Run Host.shipped.machine (Host.shipped.started (fun _ => 0) fun _ => none) tr t ∧ t.cap.drv.hist.sent = threePackets ∧
      ∃ passes out x, Host.shipped.config.toLibpcap Host.shipped.table t.disk (fun _ => 0) [] 1 2 passes = (out, some x) ∧
        Pcap.decode out.sink.content = some (pcapHdr, (threePackets.drop 1).map recordOf) := by
  obtain ⟨tr, t, hr, hm, hs, hc, hfill, hsent, hacc⟩ := Host.exists_saved_three
  have hall : ∀ f ≤ t.cap.drv.hist.procFill, f ∈ closedBlocks tr := by
    intro f hf
    rw [hfill, Nat.le_zero] at hf
    rw [hc, hf]
    decide
  obtain ⟨passes, out, x, hrun, -, hdec⟩ := recording_extracted Host.shipped rfl ⟨_, _, rfl⟩ hr hm (by rw [hs]; decide) hall
    (fun _ => 0) 1 2 (by rw [hacc]; decide) (by decide)
  refine ⟨tr, t, hr, hsent, passes, out, x, hrun, ?_⟩
  rw [hdec, hsent, hacc]
  rfl

end NicRecorder
