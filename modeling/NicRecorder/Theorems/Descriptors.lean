import NicRecorder.Theorems.PastEnd

/-!
# The descriptors of the extraction tools

A tool closes a file when it has read it as a whole. A file that it skips, by the number of packets in the header, stays open to the
end of the process. So the descriptors that a tool holds are the files it has skipped, and a process with few descriptors does not
come to the end of a long recording.
-/

namespace NicRecorder

open ByteMem

/-- The files that a tool which begins with block `b` skips among the first `n`: the empty ones, and those that lie before the packet
asked for. -/
def Table.skipped (T : Table) (disk : Disk) (b start n : Nat) : List Nat :=
  (List.range' b n).filter fun f => T.captured disk f = 0 ∨ T.total disk b (f + 1 - b) ≤ start

/-- No file that a tool comes to and that it finds is skipped. -/
def Table.SkipsNone (T : Table) (disk : Disk) (b start count : Nat) : Prop :=
  ∀ f, b ≤ f → (∀ g, b ≤ g → g < f → T.Passed disk b start count g) → T.fileAt disk f ≠ none →
    T.captured disk f ≠ 0 ∧ start < T.total disk b (f + 1 - b)

section Held

variable {σ : Type} {c : Config} {T : Table} {disk : Disk} {put : σ → Handed → σ} {s : Tool σ} {b f : Nat} {file : List UInt8}

theorem Table.skipped_snoc (T : Table) (disk : Disk) (b start n : Nat) :
    T.skipped disk b start (n + 1) = T.skipped disk b start n ++
      if T.captured disk (b + n) = 0 ∨ T.total disk b (n + 1) ≤ start then [b + n] else [] := by
  rw [Table.skipped, List.range'_1_concat, List.filter_append, show n + 1 = b + n + 1 - b by omega]
  by_cases h : T.captured disk (b + n) = 0 ∨ T.total disk b (b + n + 1 - b) ≤ start
  · rw [if_pos h]
    simp [Table.skipped, h]
  · rw [if_neg h]
    simp [Table.skipped, h]

/-- A pass that does not end the loop holds one more file if it skips it, and no other. -/
theorem Config.pass_held (c : Config) (put : σ → Handed → σ) (hr : s.reader = T.readerAt f) (hf : T.fileAt disk f = some file)
    (hh : HasHeader file) (hgo : (c.pass T disk put s).2 = none) :
    (c.pass T disk put s).1.held = if numCaptured (imageOf file) ≤ s.start then f :: s.held else s.held := by
  by_cases hle : numCaptured (imageOf file) ≤ s.start
  · rw [c.pass_skip put hr hf hh hle, if_pos hle]
  · rw [if_neg hle]
    obtain ⟨hslots, hover, -⟩ := ((c.pass_goes_iff put hr hf hh).mp hgo).resolve_left hle
    rw [c.pass_over put hr hf hh hslots (Nat.lt_of_not_le hle) hover]
    rfl

/-- While the loop goes on, the files that are held are those that were skipped, the last one first. -/
theorem Config.mainLoop_held (hh : T.Headed disk) (hb : s.reader = T.readerAt b) (hs : s.held = []) {n : Nat}
    (h : (c.mainLoop T disk put n s).2 = none) :
    (c.mainLoop T disk put n s).1.held = (T.skipped disk b s.start n).reverse := by
  induction n with
  | zero => exact hs
  | succ n ih =>
    have hn := Config.mainLoop_none_of_le h (Nat.le_succ n)
    have hreader := Config.mainLoop_reader hb hn
    obtain ⟨hstart, -⟩ := Config.mainLoop_goes hh hb hn
    obtain ⟨file, hf⟩ := Option.ne_none_iff_exists'.mp (Config.mainLoop_file hb h)
    rw [Config.mainLoop_succ hn] at h ⊢
    rw [c.pass_held put hreader hf (hh _ _ hf) h, ih hn, hstart, T.skipped_snoc, T.total_snoc, Table.captured_eq hf]
    by_cases hle : numCaptured (imageOf file) ≤ s.start - T.total disk b n
    · rw [if_pos hle, if_pos (by omega), List.reverse_append]
      rfl
    · rw [if_neg hle, if_neg (by omega), List.append_nil]

/-- With as many files skipped as there are descriptors, the next file is not opened. -/
theorem Config.mainLoopWithin_full (hh : T.Headed disk) (hb : s.reader = T.readerAt b) (hs : s.held = []) {room n : Nat}
    (heq : c.mainLoopWithin T disk put room n s = c.mainLoop T disk put n s) (h : (c.mainLoop T disk put n s).2 = none)
    (hfull : room ≤ (T.skipped disk b s.start n).length) :
    c.mainLoopWithin T disk put room (n + 1) s = ((c.mainLoop T disk put n s).1, some .cannotOpen) := by
  have hheld : room ≤ (c.mainLoop T disk put n s).1.held.length := by
    rw [Config.mainLoop_held hh hb hs h, List.length_reverse]
    exact hfull
  have hsnoc : c.mainLoopWithin T disk put room (n + 1) s =
      c.passWithin T disk put room (c.mainLoopWithin T disk put room n s).1 :=
    Loop.run_snoc ((congrArg Prod.snd heq).trans h)
  rw [hsnoc, heq, Config.passWithin, if_pos hheld]

/-- A limit is not felt in `n` passes if fewer files than it allows have been skipped whenever there is one to open. -/
theorem Config.mainLoopWithin_eq (hh : T.Headed disk) (hb : s.reader = T.readerAt b) (hs : s.held = []) {room : Nat} (n : Nat)
    (hroom : ∀ k < n, (c.mainLoop T disk put k s).2 = none → T.fileAt disk (b + k) ≠ none →
      (T.skipped disk b s.start k).length < room) :
    c.mainLoopWithin T disk put room n s = c.mainLoop T disk put n s := by
  induction n with
  | zero => rfl
  | succ n ih =>
    have heq := ih fun k hk => hroom k (Nat.lt_succ_of_lt hk)
    rcases hr : (c.mainLoop T disk put n s).2 with _ | x
    · rcases Nat.lt_or_ge (T.skipped disk b s.start n).length room with hlt | hfull
      · have hsnoc : c.mainLoopWithin T disk put room (n + 1) s =
            c.passWithin T disk put room (c.mainLoopWithin T disk put room n s).1 :=
          Loop.run_snoc ((congrArg Prod.snd heq).trans hr)
        rw [hsnoc, heq, Config.passWithin, Config.mainLoop_held hh hb hs hr, List.length_reverse, if_neg (Nat.not_le.mpr hlt),
          Config.mainLoop_succ hr]
      · -- as many have been skipped only where there is no file to open
        have hmiss : T.fileAt disk (b + n) = none := by
          by_contra hfile
          exact Nat.not_lt.mpr hfull (hroom n (Nat.lt_succ_self n) hr hfile)
        rw [Config.mainLoopWithin_full hh hb hs heq hr hfull, Config.mainLoop_succ hr,
          c.pass_missing put (Config.mainLoop_reader hb hr) hmiss]
    · have h1 : c.mainLoop T disk put (n + 1) s = c.mainLoop T disk put n s := Loop.run_stays hr
      have h2 : c.mainLoopWithin T disk put room (n + 1) s = c.mainLoopWithin T disk put room n s :=
        Loop.run_stays ((congrArg Prod.snd heq).trans hr)
      rw [h1, h2, heq]

/-- A limit is never felt if and only if fewer files than it allows have been skipped whenever there is one to open. -/
theorem Config.mainLoopWithin_iff (c : Config) (put : σ → Handed → σ) (hh : T.Headed disk) (hb : s.reader = T.readerAt b)
    (hs : s.held = []) (room : Nat) :
    (∀ n, c.mainLoopWithin T disk put room n s = c.mainLoop T disk put n s) ↔
      ∀ n, (c.mainLoop T disk put n s).2 = none → T.fileAt disk (b + n) ≠ none →
        (T.skipped disk b s.start n).length < room := by
  constructor
  · intro heq n hn hfile
    by_contra hfull
    obtain ⟨file, hf⟩ := Option.ne_none_iff_exists'.mp hfile
    -- the next pass opens a file without the limit, and none with it
    have hstop := Config.mainLoopWithin_full hh hb hs (heq n) hn (Nat.le_of_not_lt hfull)
    rw [heq (n + 1), Config.mainLoop_succ hn] at hstop
    have hopen := (c.pass_opened put (Config.mainLoop_reader hb hn) hf).2
    rw [hstop] at hopen
    exact List.cons_ne_nil _ _ (List.self_eq_append_right.mp hopen)
  · exact fun hroom n => Config.mainLoopWithin_eq hh hb hs n fun k _ => hroom k

/-- No file is skipped among those that the tool finds, if and only if none is skipped while the loop goes on. -/
theorem Config.skipsNone_iff (c : Config) (put : σ → Handed → σ) (hh : T.Headed disk) (hb : s.reader = T.readerAt b) :
    T.SkipsNone disk b s.start s.count ↔
      ∀ n, (c.mainLoop T disk put n s).2 = none → T.skipped disk b s.start n = [] := by
  constructor
  · intro hnone n hn
    have hpass := (Config.mainLoop_none_iff hh hb n).mp hn
    refine List.filter_eq_nil_iff.mpr fun f hf => ?_
    obtain ⟨h1, h2⟩ := List.mem_range'_1.mp hf
    obtain ⟨file, hfile, -⟩ := hpass f h1 h2
    obtain ⟨h3, h4⟩ := hnone f h1 (fun g hg hgf => hpass g hg (by omega)) (by rw [hfile]; exact Option.some_ne_none _)
    rw [decide_eq_true_iff]
    omega
  · intro hnil f hf hpass hfile
    by_contra hskip
    obtain ⟨file, hfile'⟩ := Option.ne_none_iff_exists'.mp hfile
    -- a file that is skipped does not end the loop
    have hmem : T.captured disk f = 0 ∨ T.total disk b (f + 1 - b) ≤ s.start := by omega
    have hgo : (c.mainLoop T disk put (f + 1 - b) s).2 = none := by
      refine (Config.mainLoop_none_iff hh hb _).mpr fun g h1 h2 => ?_
      rcases Nat.lt_or_ge g f with hlt | hge
      · exact hpass g h1 hlt
      · obtain rfl : g = f := by omega
        exact ⟨file, hfile', hmem.imp_right Or.inl⟩
    have hin : f ∈ T.skipped disk b s.start (f + 1 - b) :=
      List.mem_filter.mpr ⟨List.mem_range'_1.mpr ⟨hf, by omega⟩, decide_eq_true hmem⟩
    rw [hnil _ hgo] at hin
    exact List.not_mem_nil hin

end Held

/-- All files opened before are closed whenever the main loop comes to open one, and the limit of the process, if it leaves a
descriptor at all, is not felt. The tool as a function of the number of passes, and with descriptors for a number of files. -/
structure ClosesAll {σ : Type} (run : Nat → Tool σ × Option Exit) (within : Nat → Nat → Tool σ × Option Exit) : Prop where
  closed : ∀ n, (run n).2 = none → (run n).1.held = []
  searched : ∀ room, 0 < room → ∀ n, within room n = run n

/-- The descriptors of a tool that begins with block `b`.

* What it holds when it comes to open a file are the files that it has skipped.
* All of them are closed if and only if none was skipped.
* A limit is not felt if and only if fewer files than it allows have been skipped whenever there is one to open. -/
structure Table.Descriptors {σ : Type} (T : Table) (disk : Disk) (b start count : Nat) (run : Nat → Tool σ × Option Exit)
    (within : Nat → Nat → Tool σ × Option Exit) : Prop where
  held : ∀ n, (run n).2 = none → (run n).1.held = (T.skipped disk b start n).reverse
  closes_iff : ClosesAll run within ↔ T.SkipsNone disk b start count
  within_iff : ∀ room, (∀ n, within room n = run n) ↔
    ∀ n, (run n).2 = none → T.fileAt disk (b + n) ≠ none → (T.skipped disk b start n).length < room

theorem Config.descriptors {σ : Type} (c : Config) {T : Table} {disk : Disk} (put : σ → Handed → σ) (hh : T.Headed disk) (b : Nat)
    (mapping : Mem) (start count : Nat) (sink : σ) :
    T.Descriptors disk b start count
      (fun n => c.mainLoop T disk put n (Tool.entered (T.readerAt b) mapping start count sink))
      (fun room n => c.mainLoopWithin T disk put room n (Tool.entered (T.readerAt b) mapping start count sink)) := by
  have hheld : ∀ n, (c.mainLoop T disk put n (Tool.entered (T.readerAt b) mapping start count sink)).2 = none →
      (c.mainLoop T disk put n (Tool.entered (T.readerAt b) mapping start count sink)).1.held =
        (T.skipped disk b start n).reverse := fun n hn => Config.mainLoop_held hh rfl rfl hn
  have hnone := c.skipsNone_iff put hh (s := Tool.entered (T.readerAt b) mapping start count sink) rfl
  have hwithin := c.mainLoopWithin_iff put hh (s := Tool.entered (T.readerAt b) mapping start count sink) rfl rfl
  refine ⟨hheld, ⟨fun h => hnone.mpr fun n hn => ?_, fun h => ⟨fun n hn => ?_, fun room hroom => ?_⟩⟩, hwithin⟩
  · exact List.reverse_eq_nil_iff.mp ((hheld n hn).symm.trans (h.closed n hn))
  · exact (hheld n hn).trans (List.reverse_eq_nil_iff.mpr (hnone.mp h n hn))
  · refine (hwithin room).mpr fun n hn _ => ?_
    have hnil := hnone.mp h n hn
    exact hnil ▸ hroom

/-- The extraction tools hold the files that they skip, so they close every file before they open the next one, and search a recording
of any length with one descriptor, if and only if they skip none. All files have headers. -/
theorem descriptors_iff (c : Config) (T : Table) (disk : Disk) (hh : T.Headed disk) (mapping : Mem) (old : List UInt8) :
    (∀ start count, T.Descriptors disk 0 start count (c.toLibpcap T disk mapping old start count)
        (c.toLibpcapWithin T disk mapping old start count)) ∧
      (∀ start count, T.Descriptors disk 0 start count (c.dumpPacketTool T disk mapping start count)
        (c.dumpPacketToolWithin T disk mapping start count)) ∧
      ∀ b count, T.Descriptors disk b 0 count (c.block2libpcap T disk mapping old b count)
        (c.block2libpcapWithin T disk mapping old b count) := by
  refine ⟨fun start count => ?_, fun start count => ?_, fun b count => c.descriptors writeOnePacket hh b mapping 0 count _⟩
  · have h := c.descriptors writeOnePacket hh 0 mapping start count (pcapOpened old)
    rwa [T.readerAt_zero] at h
  · have h := c.descriptors showOnePacket hh 0 mapping start count []
    rwa [T.readerAt_zero] at h

/-! ## A recording with one packet in each file -/

/-- The files of `n` blocks, found by the number at the end of the name. -/
def longDisk (n : Nat) : Disk := fun name =>
  if Nat.ofDigitChars 10 (Decimal.trailing name) 0 < n then
    some (Config.shipped.fileOf (samplePkts 0) (if Nat.ofDigitChars 10 (Decimal.trailing name) 0 + 1 = n then 1 else 0))
  else none

theorem fileAt_longDisk (n f : Nat) : oneWriter.fileAt (longDisk n) f =
    if f < n then some (Config.shipped.fileOf (samplePkts 0) (if f + 1 = n then 1 else 0)) else none := by
  have hname : Nat.ofDigitChars 10 (Decimal.trailing (fileName (oneWriter.writerPath (f % oneWriter.numWriters)) f)) 0 = f := by
    have htrail : Decimal.trailing ("/fil".toList ++ 'e' :: Decimal.padded 5 f) = Decimal.padded 5 f :=
      Decimal.trailing_append_padded (by decide) _ 5 f
    refine (congrArg (Nat.ofDigitChars 10 · 0) htrail).trans (Decimal.ofDigitChars_padded 5 f)
  rw [Table.fileAt, longDisk, hname]

theorem longDisk_file {n f : Nat} (h : f < n) :
    oneWriter.fileAt (longDisk n) f = some (Config.shipped.fileOf (samplePkts 0) (if f + 1 = n then 1 else 0)) := by
  rw [fileAt_longDisk, if_pos h]

theorem longDisk_recording (n : Nat) : oneWriter.Recording (longDisk n) n := by
  refine ⟨fun f hf => ⟨_, longDisk_file hf, ?_⟩⟩
  have hw := Config.fileHolds_fileOf (samplePkts_wellLaid 0) (if f + 1 = n then 1 else 0)
  refine ⟨hw.whole, ?_, ?_, ?_⟩
  · rw [hw.holds.captured]
    exact Nat.one_pos
  · rw [hw.slots]
    exact Nat.ne_of_gt Config.shipped.slots_pos
  · rw [Config.flagged_fileOf (samplePkts_wellLaid 0) (by split <;> decide)]
    by_cases h : f + 1 = n <;> simp [h]

theorem longDisk_headed (n : Nat) : oneWriter.Headed (longDisk n) := by
  intro f file hf
  rw [fileAt_longDisk] at hf
  split at hf
  · exact Option.some.inj hf ▸ (Config.fileHolds_fileOf (samplePkts_wellLaid 0) _).whole.hasHeader
  · cases hf

theorem longDisk_total {n k : Nat} (h : k ≤ n) : oneWriter.total (longDisk n) 0 k = k := by
  induction k with
  | zero => rfl
  | succ k ih =>
    rw [oneWriter.total_snoc, ih (Nat.le_of_succ_le h), Nat.zero_add, Table.captured_eq (longDisk_file h),
      (Config.fileHolds_fileOf (samplePkts_wellLaid 0) _).holds.captured]
    rfl

/-- A request for a packet skips the files before it. -/
theorem longDisk_skipped {n start k : Nat} (hk : k ≤ start) (hn : start ≤ n) :
    oneWriter.skipped (longDisk n) 0 start k = List.range' 0 k := by
  refine List.filter_eq_self.mpr fun f hf => decide_eq_true (Or.inr ?_)
  obtain ⟨-, hlt⟩ := List.mem_range'_1.mp hf
  rw [Nat.sub_zero, longDisk_total (by omega)]
  omega

/-- However many descriptors there are, a recording can be too long: the packet of its last file is asked for, all files before it are
held when that one is to be opened, and nothing is extracted, where a process with one descriptor more has the packet. -/
theorem longDisk_unsearched (room : Nat) (mapping : Mem) (old : List UInt8) :
    ∃ u t, Config.shipped.toLibpcap oneWriter (longDisk (room + 1)) mapping old room 1 room = (u, none) ∧
      u.held = (List.range' 0 room).reverse ∧ u.sink = pcapOpened old ∧
      Config.shipped.toLibpcapWithin oneWriter (longDisk (room + 1)) mapping old room 1 room (room + 1) = (u, some .cannotOpen) ∧
      Config.shipped.toLibpcapWithin oneWriter (longDisk (room + 1)) mapping old room 1 (room + 1) (room + 1) = (t, some .done) := by
  have hh := longDisk_headed (room + 1)
  have hfile : ∀ f, f < room + 1 → oneWriter.fileAt (longDisk (room + 1)) f ≠ none := fun f hf => by
    rw [longDisk_file hf]
    exact Option.some_ne_none _
  have hb : (Tool.entered Reader.first mapping room 1 (pcapOpened old)).reader = oneWriter.readerAt 0 := oneWriter.readerAt_zero.symm
  have hlen : ∀ k ≤ room, (oneWriter.skipped (longDisk (room + 1)) 0 room k).length = k := fun k hk => by
    rw [longDisk_skipped hk (Nat.le_succ room), List.length_range']
  obtain ⟨hgo, hsink⟩ := Config.shipped.mainLoop_skips writeOnePacket hh hb room (fun f _ hf => hfile f (by omega))
    (Nat.le_of_eq (longDisk_total (Nat.le_succ room)))
  have hmid : Config.shipped.mainLoopWithin oneWriter (longDisk (room + 1)) writeOnePacket room room
      (Tool.entered Reader.first mapping room 1 (pcapOpened old)) = Config.shipped.mainLoop oneWriter (longDisk (room + 1))
      writeOnePacket room (Tool.entered Reader.first mapping room 1 (pcapOpened old)) :=
    Config.mainLoopWithin_eq hh hb rfl room fun k hk _ _ => (hlen k (Nat.le_of_lt hk)).trans_lt hk
  have hend : Config.shipped.mainLoopWithin oneWriter (longDisk (room + 1)) writeOnePacket (room + 1) (room + 1)
      (Tool.entered Reader.first mapping room 1 (pcapOpened old)) = Config.shipped.mainLoop oneWriter (longDisk (room + 1))
      writeOnePacket (room + 1) (Tool.entered Reader.first mapping room 1 (pcapOpened old)) :=
    Config.mainLoopWithin_eq hh hb rfl (room + 1) fun k hk _ _ => (hlen k (Nat.le_of_lt_succ hk)).trans_lt hk
  -- without the limit the packet is found
  have htotal : oneWriter.total (longDisk (room + 1)) 0 (room + 1 - 0) = room + 1 := longDisk_total (Nat.le_refl _)
  obtain ⟨t, x, hrun, -, hdone, -⟩ := Config.shipped.tool_recording writeOnePacket (longDisk_recording (room + 1))
    (Nat.succ_pos room) (fun _ _ => rfl : AgreeBeyond mapping mapping) ((Nat.lt_succ_self room).trans_eq htotal.symm)
    Nat.one_pos (pcapOpened old)
  rw [hdone (Nat.le_of_eq htotal.symm), Nat.sub_zero, oneWriter.readerAt_zero] at hrun
  refine ⟨_, t, Prod.ext rfl hgo, ?_, hsink, ?_, hend.trans hrun⟩
  · refine (Config.mainLoop_held hh hb rfl hgo).trans (congrArg List.reverse ?_)
    exact longDisk_skipped (Nat.le_refl room) (Nat.le_succ room)
  · exact Config.mainLoopWithin_full hh hb rfl hmid hgo (Nat.le_of_eq (hlen room (Nat.le_refl room)).symm)

/-- With the usual limit of 1024 descriptors, of which 1019 are left for the files of a recording, `to_libpcap` cannot extract the
packet of the last file of a recording of 1020 files. -/
theorem descriptors_false :
    oneWriter.Recording (longDisk 1020) 1020 ∧ oneWriter.total (longDisk 1020) 0 1020 = 1020 ∧
      ∃ u t, Config.shipped.toLibpcap oneWriter (longDisk 1020) (fun _ => 0) [] 1019 1 1019 = (u, none) ∧
        u.held.length = 1019 ∧
        Config.shipped.toLibpcapWithin oneWriter (longDisk 1020) (fun _ => 0) [] 1019 1 1019 1020 = (u, some .cannotOpen) ∧
        u.sink.content = pcapHdr.bytes ∧
        Config.shipped.toLibpcapWithin oneWriter (longDisk 1020) (fun _ => 0) [] 1019 1 1020 1020 = (t, some .done) := by
  obtain ⟨u, t, hgo, hheld, hsink, hfull, hdone⟩ := longDisk_unsearched 1019 (fun _ => 0) []
  refine ⟨longDisk_recording 1020, longDisk_total (Nat.le_refl 1020), u, t, hgo, ?_, hfull, ?_, hdone⟩
  · rw [hheld, List.length_reverse, List.length_range']
  · rw [hsink]
    decide

/-- The tools on a recording of three files. -/
theorem descriptors_iff_three :
    (∀ start count, oneWriter.Descriptors (longDisk 3) 0 start count
        (Config.shipped.toLibpcap oneWriter (longDisk 3) (fun _ => 0) [] start count)
        (Config.shipped.toLibpcapWithin oneWriter (longDisk 3) (fun _ => 0) [] start count)) ∧
      (∀ start count, oneWriter.Descriptors (longDisk 3) 0 start count
        (Config.shipped.dumpPacketTool oneWriter (longDisk 3) (fun _ => 0) start count)
        (Config.shipped.dumpPacketToolWithin oneWriter (longDisk 3) (fun _ => 0) start count)) ∧
      ∀ b count, oneWriter.Descriptors (longDisk 3) b 0 count
        (Config.shipped.block2libpcap oneWriter (longDisk 3) (fun _ => 0) [] b count)
        (Config.shipped.block2libpcapWithin oneWriter (longDisk 3) (fun _ => 0) [] b count) :=
  descriptors_iff Config.shipped oneWriter (longDisk 3) (longDisk_headed 3) (fun _ => 0) []

end NicRecorder
