import NicRecorder.Theorems.Extraction

/-!
# The end of a recording

A recording ends with its first flagged file; files with higher numbers are left from an earlier recording. The extraction tools
test the flags only behind a file whose packets they have handed on. A file that they skip is not tested, so a request that
begins behind the last packet runs over the end of the recording, and into the old files if there are any.
-/

namespace NicRecorder

open ByteMem

/-- File `e` is the first flagged one. -/
structure Table.EndsAt (T : Table) (disk : Disk) (e : Nat) : Prop where
  flagged : ∃ file, T.fileAt disk e = some file ∧ Flagged file
  first : ∀ f < e, ∀ file, T.fileAt disk f = some file → ¬Flagged file

/-- A tool that begins with block `b` runs over file `e` into the next one: no file up to there is missing, and either the packet asked
for lies behind them all, or file `e` is empty and none before it stops the tool. -/
structure Table.RunsPast (T : Table) (disk : Disk) (b start count e : Nat) : Prop where
  files : ∀ f, b ≤ f → f ≤ e + 1 → T.fileAt disk f ≠ none
  skipped : T.total disk b (e + 1 - b) ≤ start ∨
    T.captured disk e = 0 ∧ ∀ f, b ≤ f → f < e → T.Passed disk b start count f

section Tools

variable {σ : Type} {c : Config} {T : Table} {disk : Disk} {put : σ → Handed → σ} {s : Tool σ} {b e : Nat}

/-- A file up to which the packets all lie before the one asked for is skipped. -/
theorem Table.passed_of_total {start count f : Nat} (hf : T.fileAt disk f ≠ none)
    (h : T.total disk b (f + 1 - b) ≤ start) : T.Passed disk b start count f := by
  obtain ⟨file, hfile⟩ := Option.ne_none_iff_exists'.mp hf
  exact ⟨file, hfile, Or.inr (Or.inl h)⟩

/-- The tool runs past the first flagged file if and only if no file up to it stops the tool, and there is a next one. -/
theorem Table.runsPast_iff (he : T.EndsAt disk e) (hbe : b ≤ e) {start count : Nat} :
    T.RunsPast disk b start count e ↔
      (∀ f, b ≤ f → f ≤ e → T.Passed disk b start count f) ∧ T.fileAt disk (e + 1) ≠ none := by
  constructor
  · rintro ⟨hfiles, hskip⟩
    refine ⟨fun f h1 h2 => ?_, hfiles (e + 1) (by omega) (Nat.le_refl _)⟩
    rcases hskip with hle | ⟨hempty, hpass⟩
    · refine Table.passed_of_total (hfiles f h1 (by omega)) (Nat.le_trans (T.total_mono disk b ?_) hle)
      omega
    · rcases Nat.lt_or_ge f e with hlt | hge
      · exact hpass f h1 hlt
      · obtain rfl : f = e := by omega
        obtain ⟨file, hf, -⟩ := he.flagged
        exact ⟨file, hf, Or.inl hempty⟩
  · rintro ⟨hpass, hnext⟩
    refine ⟨fun f h1 h2 => ?_, ?_⟩
    · rcases Nat.lt_or_ge f (e + 1) with hlt | hge
      · obtain ⟨file, hf, -⟩ := hpass f h1 (by omega)
        rw [hf]
        nofun
      · obtain rfl : f = e + 1 := by omega
        exact hnext
    · -- the flagged file itself is skipped, or it is empty
      obtain ⟨file, hf, hcase⟩ := hpass e hbe (Nat.le_refl e)
      obtain ⟨file', hf', hflag⟩ := he.flagged
      obtain rfl : file = file' := Option.some.inj (hf.symm.trans hf')
      rcases hcase with hempty | hle | ⟨-, -, hnot⟩
      · exact Or.inr ⟨hempty, fun f h1 h2 => hpass f h1 (by omega)⟩
      · exact Or.inl hle
      · exact absurd hflag hnot

/-- A tool opens a file behind the first flagged one if and only if it runs past it. -/
theorem Config.opens_past_iff (c : Config) (put : σ → Handed → σ) (hh : T.Headed disk) (he : T.EndsAt disk e) (hbe : b ≤ e)
    (hb : s.reader = T.readerAt b) (ho : s.opened = []) :
    (∃ passes, ∃ f ∈ (c.mainLoop T disk put passes s).1.opened, e < f) ↔ T.RunsPast disk b s.start s.count e := by
  rw [Table.runsPast_iff he hbe]
  constructor
  · rintro ⟨passes, f, hf, hlt⟩
    obtain ⟨k, hopened, hgone, -⟩ := c.mainLoop_opened disk put hb passes
    rw [hopened, ho, List.nil_append, List.mem_range'_1] at hf
    -- the loop was still going on before the file behind the flagged one
    obtain ⟨hnone, hnext⟩ := hgone (e + 1 - b) (by omega)
    rw [show b + (e + 1 - b) = e + 1 by omega] at hnext
    refine ⟨fun f h1 h2 => ?_, hnext⟩
    exact (Config.mainLoop_none_iff hh hb _).mp hnone f h1 (by omega)
  · rintro ⟨hpass, hnext⟩
    have hnone : (c.mainLoop T disk put (e + 1 - b) s).2 = none :=
      (Config.mainLoop_none_iff hh hb _).mpr fun f h1 h2 => hpass f h1 (by omega)
    have hreader := Config.mainLoop_reader hb hnone
    rw [show b + (e + 1 - b) = e + 1 by omega] at hreader
    obtain ⟨file, hf⟩ := Option.ne_none_iff_exists'.mp hnext
    refine ⟨e + 1 - b + 1, e + 1, ?_, Nat.lt_succ_self e⟩
    rw [Config.mainLoop_succ hnone, (c.pass_opened put hreader hf).2]
    exact List.mem_append_right _ List.mem_cons_self

/-- Disks with the same files up to the last one that a tool opens are the same to it. -/
theorem Config.mainLoop_agree (c : Config) (put : σ → Handed → σ) {disk' : Disk} (hb : s.reader = T.readerAt b) {k : Nat}
    (hd : ∀ f, b ≤ f → f < b + k → T.fileAt disk' f = T.fileAt disk f) (hend : (c.mainLoop T disk put k s).2 ≠ none) (n : Nat) :
    c.mainLoop T disk' put n s = c.mainLoop T disk put n s := by
  induction n with
  | zero => rfl
  | succ n ih =>
    rcases hr : (c.mainLoop T disk put n s).2 with _ | x
    · have hlt : n < k := by
        by_contra hge
        exact hend (Config.mainLoop_none_of_le hr (Nat.le_of_not_lt hge))
      have hreader := Config.mainLoop_reader hb hr
      have hfile : disk' ((T.readerAt (b + n)).fname T.writerPath) = disk ((T.readerAt (b + n)).fname T.writerPath) :=
        hd (b + n) (by omega) (by omega)
      rw [Config.mainLoop_succ hr, Config.mainLoop_succ (by rw [ih]; exact hr), ih, Config.pass, Config.pass, hreader, hfile]
    · have h1 : c.mainLoop T disk put (n + 1) s = c.mainLoop T disk put n s := Loop.run_stays hr
      have h2 : c.mainLoop T disk' put (n + 1) s = c.mainLoop T disk' put n s := Loop.run_stays ((congrArg Prod.snd ih).trans hr)
      rw [h1, h2, ih]

/-- A tool that runs past the flagged file on neither of two disks, which have the same files up to it, does the same on both. -/
theorem Config.behind_unread (c : Config) (put : σ → Handed → σ) {disk' : Disk} (hh : T.Headed disk) (he : T.EndsAt disk e)
    (hbe : b ≤ e) (hb : s.reader = T.readerAt b) (hd : ∀ f ≤ e, T.fileAt disk' f = T.fileAt disk f)
    (hnot : ¬T.RunsPast disk b s.start s.count e) (hnot' : ¬T.RunsPast disk' b s.start s.count e) (n : Nat) :
    c.mainLoop T disk' put n s = c.mainLoop T disk put n s := by
  have hcap : ∀ f ≤ e, T.captured disk' f = T.captured disk f := fun f hf => by rw [Table.captured, hd f hf, Table.captured]
  have htotal : ∀ k, b + k ≤ e + 1 → T.total disk' b k = T.total disk b k := by
    intro k hk
    rw [Table.total, Table.total]
    refine congrArg List.sum (List.map_congr_left fun f hf => hcap f ?_)
    obtain ⟨-, hlt⟩ := List.mem_range'_1.mp hf
    omega
  have hpassed : ∀ f, b ≤ f → f ≤ e → (T.Passed disk' b s.start s.count f ↔ T.Passed disk b s.start s.count f) := by
    intro f h1 h2
    rw [Table.Passed, Table.Passed, hd f h2, hcap f h2, htotal (f + 1 - b) (by omega)]
  have he' : T.EndsAt disk' e := by
    refine ⟨?_, fun f hf file => ?_⟩
    · rw [hd e (Nat.le_refl e)]
      exact he.flagged
    · rw [hd f (by omega)]
      exact he.first f hf file
  rw [Table.runsPast_iff he hbe] at hnot
  rw [Table.runsPast_iff he' hbe] at hnot'
  by_cases hpass : ∀ f, b ≤ f → f ≤ e → T.Passed disk b s.start s.count f
  · -- no file up to the flagged one stops the tool, and there is no next one
    have hmiss : T.fileAt disk (e + 1) = none := by
      by_contra h
      exact hnot ⟨hpass, h⟩
    have hmiss' : T.fileAt disk' (e + 1) = none := by
      by_contra h
      exact hnot' ⟨fun f h1 h2 => (hpassed f h1 h2).mpr (hpass f h1 h2), h⟩
    have hnone : (c.mainLoop T disk put (e + 1 - b) s).2 = none :=
      (Config.mainLoop_none_iff hh hb _).mpr fun f h1 h2 => hpass f h1 (by omega)
    have hreader := Config.mainLoop_reader hb hnone
    rw [show b + (e + 1 - b) = e + 1 by omega] at hreader
    refine c.mainLoop_agree put hb (k := e + 1 - b + 1) (fun f h1 h2 => ?_) ?_ n
    · rcases Nat.lt_or_ge f (e + 1) with hlt | hge
      · exact hd f (by omega)
      · obtain rfl : f = e + 1 := by omega
        rw [hmiss, hmiss']
    · rw [Config.mainLoop_succ hnone, c.pass_missing put hreader hmiss]
      exact Option.some_ne_none _
  · refine c.mainLoop_agree put hb (k := e + 1 - b) (fun f h1 h2 => hd f (by omega)) (fun hnone => hpass fun f h1 h2 => ?_) n
    exact (Config.mainLoop_none_iff hh hb _).mp hnone f h1 (by omega)

/-- A tool that skips files hands nothing on. -/
theorem Config.mainLoop_skips (c : Config) (put : σ → Handed → σ) (hh : T.Headed disk) (hb : s.reader = T.readerAt b) (n : Nat)
    (hfiles : ∀ f, b ≤ f → f < b + n → T.fileAt disk f ≠ none) (hle : T.total disk b n ≤ s.start) :
    (c.mainLoop T disk put n s).2 = none ∧ (c.mainLoop T disk put n s).1.sink = s.sink := by
  induction n with
  | zero => exact ⟨rfl, rfl⟩
  | succ n ih =>
    have hmono := Nat.le_trans (T.total_mono disk b (Nat.le_succ n)) hle
    obtain ⟨hnone, hsink⟩ := ih (fun f h1 h2 => hfiles f h1 (by omega)) hmono
    have hreader := Config.mainLoop_reader hb hnone
    obtain ⟨h1, -⟩ := Config.mainLoop_goes hh hb hnone
    obtain ⟨file, hf⟩ := Option.ne_none_iff_exists'.mp (hfiles (b + n) (by omega) (by omega))
    rw [T.total_snoc, Table.captured_eq hf] at hle
    rw [Config.mainLoop_succ hnone, c.pass_skip put hreader hf (hh _ _ hf) (by rw [h1]; omega)]
    exact ⟨rfl, hsink⟩

/-- A request that begins behind the last packet ends with a file that is not there, and hands nothing on, unless the tool runs past
the flagged file. -/
theorem Config.beyond_total (c : Config) (put : σ → Handed → σ) (hh : T.Headed disk) (hbe : b ≤ e)
    (hb : s.reader = T.readerAt b) (hle : T.total disk b (e + 1 - b) ≤ s.start) (hnot : ¬T.RunsPast disk b s.start s.count e) :
    ∃ passes, (c.mainLoop T disk put passes s).2 = some .cannotOpen ∧ (c.mainLoop T disk put passes s).1.sink = s.sink := by
  classical
  -- the first file that is missing
  have hex : ∃ k, T.fileAt disk (b + k) = none ∧ b + k ≤ e + 1 := by
    by_contra hno
    refine hnot ⟨fun f h1 h2 hf => hno ⟨f - b, ?_, by omega⟩, Or.inl hle⟩
    rw [Nat.add_sub_cancel' h1]
    exact hf
  obtain ⟨hmiss, hk⟩ := Nat.find_spec hex
  have hmin := @Nat.find_min _ _ hex
  generalize Nat.find hex = k at hmiss hk hmin
  have hmono := T.total_mono disk b (show k ≤ e + 1 - b by omega)
  obtain ⟨hnone, hsink⟩ := c.mainLoop_skips put hh hb k (fun f h1 h2 hf => hmin (show f - b < k by omega)
    ⟨by rw [Nat.add_sub_cancel' h1]; exact hf, by omega⟩) (by omega)
  refine ⟨k + 1, ?_⟩
  rw [Config.mainLoop_succ hnone, c.pass_missing put (Config.mainLoop_reader hb hnone) hmiss]
  exact ⟨rfl, hsink⟩

end Tools

/-- How a tool that begins with block `b` treats the end of a recording at file `e`; the tool as a function of the disks and of the
number of passes, with the output that it begins with.

* It opens a file behind the flagged one if and only if it runs past that.
* If it does not, nothing of what it does depends on the files behind the flagged one.
* If it does not, a request that begins behind the last packet ends with a file that is not there and without output. -/
structure Table.EndsTool {σ : Type} (T : Table) (disk : Disk) (b start count e : Nat) (run : Disk → Nat → Tool σ × Option Exit)
    (sink : σ) : Prop where
  opens : (∃ passes, ∃ f ∈ (run disk passes).1.opened, e < f) ↔ T.RunsPast disk b start count e
  unread : ¬T.RunsPast disk b start count e → ∀ disk', (∀ f ≤ e, T.fileAt disk' f = T.fileAt disk f) →
    ¬T.RunsPast disk' b start count e → ∀ passes, run disk' passes = run disk passes
  beyond : ¬T.RunsPast disk b start count e → T.total disk b (e + 1 - b) ≤ start →
    ∃ passes, (run disk passes).2 = some .cannotOpen ∧ (run disk passes).1.sink = sink

theorem Config.endsTool {σ : Type} (c : Config) {T : Table} {disk : Disk} {b e : Nat} (put : σ → Handed → σ) (hh : T.Headed disk)
    (he : T.EndsAt disk e) (hbe : b ≤ e) (mapping : Mem) (start count : Nat) (sink : σ) :
    T.EndsTool disk b start count e
      (fun disk passes => c.mainLoop T disk put passes (Tool.entered (T.readerAt b) mapping start count sink)) sink where
  opens := c.opens_past_iff put hh he hbe rfl rfl
  unread := fun hnot _ hd hnot' n => c.behind_unread put hh he hbe rfl hd hnot hnot' n
  beyond := fun hnot hle => c.beyond_total put hh hbe rfl hle hnot

/-- The extraction tools stop at the end of a recording unless they run past it. The files have headers, and file `e` is the first
flagged one; there may be others behind it. -/
theorem past_end_iff (c : Config) (T : Table) (disk : Disk) (hh : T.Headed disk) (e : Nat) (he : T.EndsAt disk e)
    (mapping : Mem) (old : List UInt8) :
    (∀ start count, T.EndsTool disk 0 start count e (fun disk => c.toLibpcap T disk mapping old start count) (pcapOpened old)) ∧
      (∀ start count, T.EndsTool disk 0 start count e (fun disk => c.dumpPacketTool T disk mapping start count) []) ∧
      ∀ b count, b ≤ e →
        T.EndsTool disk b 0 count e (fun disk => c.block2libpcap T disk mapping old b count) (pcapOpened old) := by
  refine ⟨fun start count => ?_, fun start count => ?_, fun b count hbe => c.endsTool _ hh he hbe _ _ _ _⟩
  · have h := c.endsTool writeOnePacket hh he (Nat.zero_le e) mapping start count (pcapOpened old)
    rwa [T.readerAt_zero] at h
  · have h := c.endsTool showOnePacket hh he (Nat.zero_le e) mapping start count []
    rwa [T.readerAt_zero] at h

/-! ## A recording of one file, and an old file behind it -/

def staleDisk : Disk :=
  twoFiles oneWriter (Config.shipped.fileOf (samplePkts 0) 1) (Config.shipped.fileOf (samplePkts 1) 1)

theorem staleDisk_file {f : Nat} (hf : f < 2) : oneWriter.fileAt staleDisk f = some (Config.shipped.fileOf (samplePkts f) 1) := by
  obtain ⟨h0, h1⟩ := fileAt_twoFiles (Config.shipped.fileOf (samplePkts 0) 1) (Config.shipped.fileOf (samplePkts 1) 1)
  rcases Nat.lt_or_ge f 1 with h | h
  · obtain rfl : f = 0 := by omega
    exact h0
  · obtain rfl : f = 1 := by omega
    exact h1

theorem staleDisk_endsAt : oneWriter.EndsAt staleDisk 0 :=
  ⟨⟨_, staleDisk_file (by decide), (Config.flagged_fileOf (samplePkts_wellLaid 0) (by decide)).mpr (by decide)⟩, nofun⟩

theorem headed_twoFiles (T : Table) {a b : List UInt8} (ha : HasHeader a) (hb : HasHeader b) : T.Headed (twoFiles T a b) := by
  intro f file hf
  rw [Table.fileAt, twoFiles] at hf
  split at hf
  · exact Option.some.inj hf ▸ ha
  · split at hf
    · exact Option.some.inj hf ▸ hb
    · cases hf

theorem staleDisk_headed : oneWriter.Headed staleDisk :=
  headed_twoFiles oneWriter (Config.fileHolds_fileOf (samplePkts_wellLaid 0) 1).whole.hasHeader
    (Config.fileHolds_fileOf (samplePkts_wellLaid 1) 1).whole.hasHeader

theorem fileOf_captured (f : Nat) : numCaptured (imageOf (Config.shipped.fileOf (samplePkts f) 1)) = 1 := by
  rw [(Config.fileHolds_fileOf (samplePkts_wellLaid f) 1).holds.captured]
  unfold samplePkts
  split <;> rfl

theorem staleDisk_total : oneWriter.total staleDisk 0 1 = 1 := by
  rw [oneWriter.total_cons, oneWriter.total_zero, Table.captured_eq (staleDisk_file (by decide)), fileOf_captured]

/-- Asked for the packet behind the only one of a recording, `to_libpcap` opens the old file behind the flagged one and writes a packet
of it. -/
theorem past_end_false :
    oneWriter.EndsAt staleDisk 0 ∧ oneWriter.total staleDisk 0 1 = 1 ∧
      ∃ t x, Config.shipped.toLibpcap oneWriter staleDisk (fun _ => 0) [] 1 1 2 = (t, some x) ∧ 1 ∈ t.opened ∧
        Pcap.decode t.sink.content = some (pcapHdr, (samplePkts 1).map recordOf) := by
  have h0 := staleDisk_file (f := 0) (by decide)
  have h1 := staleDisk_file (f := 1) (by decide)
  have hw0 := Config.fileHolds_fileOf (samplePkts_wellLaid 0) 1
  have hw1 := Config.fileHolds_fileOf (samplePkts_wellLaid 1) 1
  -- the flagged file is skipped
  obtain ⟨u, hu, hr, hm, hoffs, hstart, hcount, hsink⟩ := Config.shipped.collect_skip
    (s := Tool.entered Reader.first (fun _ => 0) 1 1 []) oneWriter.readerAt_zero.symm h0 hw0.whole
    (fun _ _ => rfl : AgreeBeyond (fun _ => 0) fun _ => 0) (by rw [fileOf_captured]; decide)
  rw [fileOf_captured] at hstart
  have hs0 : u.start = 0 := hstart
  have hc1 : u.count = 1 := hcount
  have hnil : u.sink = [] := hsink
  -- the packet of the old file is handed on
  obtain ⟨t, ht, hout⟩ := Config.shipped.collect_done hr h1 hw1.whole hm
    (by rw [hw1.slots]; exact Nat.ne_of_gt Config.shipped.slots_pos) (by rw [hc1]; decide)
    (by rw [hs0, hc1, fileOf_captured])
  have hopen := (Config.shipped.pass_opened collect hr h1).2
  rw [ht] at hopen
  have hcol : Config.shipped.collected oneWriter staleDisk Reader.first (fun _ => 0) 1 1 2 = (t, some .done) :=
    (Loop.run_goes hu 1).trans (Loop.run_ends ht 0)
  refine ⟨staleDisk_endsAt, staleDisk_total, t.mapSink fun out => out.foldl writeOnePacket (pcapOpened []), .done, ?_, ?_, ?_⟩
  · rw [Config.toLibpcap, Config.shipped.mainLoop_sink, hcol]
  · show 1 ∈ t.opened
    rw [hopen]
    exact List.mem_append_right _ List.mem_cons_self
  · have hdata : (t.sink.map Handed.packet).map Emitted.data = samplePkts 1 := by
      have hlist := hw1.filePackets rfl (fun _ => 0) u.offs
      rw [hout, hnil, hs0, hc1, List.drop_zero, List.nil_append, List.take_of_length_le]
      · exact hlist
      · rw [Config.filePackets_length, fileOf_captured]
    have hcontent : (t.sink.foldl writeOnePacket (pcapOpened [])).content = Pcap.encode pcapHdr ((samplePkts 1).map recordOf) := by
      rw [foldl_pcapOpened, OpenFile.over, List.drop_nil, List.append_nil, ← hdata, List.map_map (f := Emitted.data)]
      rfl
    show Pcap.decode (t.sink.foldl writeOnePacket (pcapOpened [])).content = _
    rw [hcontent]
    refine Pcap.decode_encode pcapHdr_fits fun r hr => ?_
    obtain ⟨p, hp, rfl⟩ := List.mem_map.mp hr
    exact recordOf_fits (sampleDisk_recording.length_lt (List.mem_flatMap.mpr ⟨1, by decide, hp⟩))

/-- The same disks, for all requests. -/
theorem past_end_iff_stale :
    (∀ start count, oneWriter.EndsTool staleDisk 0 start count 0
        (fun disk => Config.shipped.toLibpcap oneWriter disk (fun _ => 0) [] start count) (pcapOpened [])) ∧
      (∀ start count, oneWriter.EndsTool staleDisk 0 start count 0
        (fun disk => Config.shipped.dumpPacketTool oneWriter disk (fun _ => 0) start count) []) ∧
      ∀ b count, b ≤ 0 → oneWriter.EndsTool staleDisk b 0 count 0
        (fun disk => Config.shipped.block2libpcap oneWriter disk (fun _ => 0) [] b count) (pcapOpened []) :=
  past_end_iff Config.shipped oneWriter staleDisk staleDisk_headed 0 staleDisk_endsAt (fun _ => 0) []

end NicRecorder
