import NicRecorder.Lemmas.Mapping
import NicRecorder.Theorems.Geometry

/-!
# Consumers map the memory they name

The mappings of `todisk` and `count_then_discard` never meet. So the kernel grants every address that is asked for, and a pointer is
the address of the bucket: what a process reads and writes by its pointers is the physical memory that it means.
-/

namespace NicRecorder

open ByteMem AddrSpace Runs

/-- How a process of `todisk` maps memory. Every call and every access is safe and can be made, and an access is to the physical memory
that it names. At the head of the main loop nothing but the shared page is mapped, and nothing at all when the process has returned.
When a file is closed, the ranges mapped in this visit are the length block and the 31 blocks of packets. -/
structure Host.TodiskMaps (H : Host) (w : World MappedTodisk) : Prop where
  safe : ∀ ch, (H.todiskOp w.proc ch).Safe pageSize w.space w.others (H.todiskNamed w.proc)
  enabled : ∀ ch, ∃ w', AddrSpace.Step H.todiskClient mmapMem pageSize H.config.window w (.call ch) w'
  physical : ∀ ch w', AddrSpace.Step H.todiskClient mmapMem pageSize H.config.window w (.call ch) w' →
    ∃ reply, w'.proc = H.todiskNext w.proc ch reply ∧ (H.todiskOp w.proc ch).Answers reply ∧
      (H.todiskOp w.proc ch).Physical (H.todiskNamed w.proc) w.mem w'.mem reply.bytes
  head : w.proc.phase = .access → w.proc.w.pc = .again0 → w.space = [mapped mmapMem H.config.globalRegion]
  visit : w.proc.phase = .access → w.proc.w.pc = .close → w.proc.maps = visitRegions w.proc.w.cur 31
  returned : w.proc.phase = .returned → w.space = []

/-- In all its runs a process of `todisk` maps the memory that it names. -/
theorem Host.todisk_maps (H : Host) {id : Nat} (hid : id < H.table.numWriters) {w : World MappedTodisk}
    (hw : Reached (H.mappedTodisk id) (fun _ _ => True) w) : H.TodiskMaps w := by
  have hsound := H.todisk_sound hid hw
  have hsafe := H.todisk_safe hsound
  refine ⟨hsafe, fun ch => (hsafe ch).enabled, fun ch _ hstep => (hsafe ch).physical hstep, fun hp hpc => ?_, fun hp hpc => ?_,
    fun hp => ?_⟩
  · have hheld : w.proc.held = .nothing := by simp [MappedTodisk.held, hp, hpc, TodiskPc.onLens]
    rw [hsound.space, MappedTodisk.own_nothing hheld (by rw [hp]; rfl), hsound.ok.global (by rw [hp]; rfl)]
    rfl
  · have hstage := hsound.ok.stage
    simp only [MappedTodisk.Stage, hp] at hstage
    exact hstage.2.2.2.2.1 hpc
  · rw [hsound.space, MappedTodisk.own_none (by simp [MappedTodisk.held, hp]) (by rw [hp]; rfl)]
    rfl

/-- How a process of `count_then_discard` maps memory. -/
structure Host.DiscardMaps (H : Host) (w : World MappedDiscard) : Prop where
  safe : (H.discardOp w.proc).Safe pageSize w.space w.others (H.discardNamed w.proc)
  enabled : ∃ w', AddrSpace.Step H.discardClient mmapMem pageSize H.config.window w (.call ()) w'
  physical : ∀ w', AddrSpace.Step H.discardClient mmapMem pageSize H.config.window w (.call ()) w' →
    ∃ reply, w'.proc = H.discardNext w.proc reply ∧ (H.discardOp w.proc).Answers reply ∧
      (H.discardOp w.proc).Physical (H.discardNamed w.proc) w.mem w'.mem reply.bytes
  head : w.proc.phase = .access → w.proc.v.pc = .again0 → w.space = [mapped mmapMem H.config.globalRegion]
  returned : w.proc.phase = .returned → w.space = []

/-- In all its runs a process of `count_then_discard` maps the memory that it names. -/
theorem Host.discard_maps (H : Host) {w : World MappedDiscard} (hw : Reached H.mappedDiscard (fun _ _ => True) w) :
    H.DiscardMaps w := by
  have hsound := H.discard_sound hw
  have hsafe := H.discard_safe hsound
  refine ⟨hsafe, Op.Safe.enabled (C := H.discardClient) hsafe, fun _ hstep => Op.Safe.physical (C := H.discardClient) hsafe hstep,
    fun hp hpc => ?_, fun hp => ?_⟩
  · have hheld : w.proc.holdsLens = false := by simp [MappedDiscard.holdsLens, hp, hpc, DiscardPc.onLens]
    rw [hsound.space, MappedDiscard.own_nothing hheld (by rw [hp]; rfl), hsound.ok.global (by rw [hp]; rfl)]
    rfl
  · rw [hsound.space, MappedDiscard.own_none (by simp [MappedDiscard.holdsLens, hp]) (by rw [hp]; rfl)]
    rfl

/-- Both programs map the memory that they name, in all their runs, whatever they find in the memory and however often they retry; and
the ranges of one visit to a bucket cover it but for its last page, and do not meet. -/
theorem consumers_map_named (H : Host) (id : Nat) (hid : id < H.table.numWriters) :
    (∀ w, Reached (H.mappedTodisk id) (fun _ _ => True) w → H.TodiskMaps w) ∧
      (∀ w, Reached H.mappedDiscard (fun _ _ => True) w → H.DiscardMaps w) ∧
      ∀ b, (visitRegions b 31).Pairwise Region.Disjoint ∧
        ∀ a, (∃ r ∈ visitRegions b 31, r.Has a) ↔ b * 2 ^ 30 ≤ a ∧ a < (b + 1) * 2 ^ 30 - 4096 :=
  ⟨fun _ hw => H.todisk_maps hid hw, fun _ hw => H.discard_maps hw, visitRegions_tile⟩

/-- A process goes on from every state it comes to. -/
theorem Host.todisk_goes_on (H : Host) {id : Nat} (hid : id < H.table.numWriters) {w : World MappedTodisk}
    (hw : Reached (H.mappedTodisk id) (fun _ _ => True) w) (ch : Choice) :
    ∃ w' reply, Reached (H.mappedTodisk id) (fun _ _ => True) w' ∧ w'.proc = H.todiskNext w.proc ch reply ∧
      (H.todiskOp w.proc ch).Answers reply ∧ (H.todiskOp w.proc ch).Physical (H.todiskNamed w.proc) w.mem w'.mem reply.bytes := by
  have hmaps := H.todisk_maps hid hw
  obtain ⟨w', hstep⟩ := hmaps.enabled ch
  obtain ⟨reply, hnext⟩ := hmaps.physical ch w' hstep
  exact ⟨w', reply, hw.step trivial hstep, hnext⟩

/-- With the magic in the shared page and no stop issued, a process comes to the poll of its first bucket. -/
theorem Host.todisk_reaches_poll (H : Host) {id : Nat} (hid : id < H.table.numWriters) {mem : Mem}
    (hmagic : mem.load H.config.globalAddr 8 = magicBytes) (hstop : mem.load (H.config.globalAddr + userIssueStopOff) 1 = [0]) :
    ∃ w, Reached (H.mappedTodisk id) (fun _ _ => True) w ∧ w.proc.phase = .access ∧ w.proc.w.pc = .poll ∧
      w.proc.w.cur = H.config.start1G + id ∧ w.mem = mem := by
  have hinit : Reached (H.mappedTodisk id) (fun _ _ => True) ⟨H.enterTodisk id, [], [], mem⟩ :=
    ⟨_, [], ⟨rfl, rfl, fun q hq => absurd hq List.not_mem_nil⟩, Run.nil _, meets_nil _⟩
  let ch : Choice := ⟨0, 0, false⟩
  -- the shared page is mapped
  obtain ⟨w1, r1, h1, hp, -, hm⟩ := H.todisk_goes_on hid hinit ch
  have hp1 : w1.proc = { H.enterTodisk id with phase := .waitMagic, gshare := r1.addr } := hp
  have hm1 : w1.mem = mem := hm
  -- the magic is there
  obtain ⟨w2, r2, h2, hp, -, hm⟩ := H.todisk_goes_on hid h1 ch
  rw [hp1] at hp hm
  simp only [Host.todiskOp, Host.todiskNamed, Op.Physical, if_true] at hm
  obtain ⟨hb, hm2⟩ := hm
  have hp2 : w2.proc = { H.enterTodisk id with phase := .access, gshare := r1.addr } :=
    hp.trans (if_pos (by rw [hb, hm1, hmagic]))
  -- no stop has been issued
  obtain ⟨w3, r3, h3, hp, -, hm⟩ := H.todisk_goes_on hid h2 ch
  rw [hp2] at hp hm
  simp only [Host.todiskOp, MappedTodisk.access, Host.todiskNamed, Host.enterTodisk, Host.startTodisk, Op.Physical, reduceCtorEq,
    if_false] at hm
  obtain ⟨hb, hm3⟩ := hm
  rw [hm2, hm1, hstop] at hb
  have hp3 : w3.proc = { H.enterTodisk id with phase := .mapLens, gshare := r1.addr, w := (H.startTodisk id).again0 false } := by
    rw [hp]
    simp only [Host.todiskNext, hb]
    rfl
  -- the length block is mapped
  obtain ⟨w4, r4, h4, hp, -, hm4⟩ := H.todisk_goes_on hid h3 ch
  rw [hp3] at hp hm4
  refine ⟨w4, h4, ?_, ?_, ?_, hm4.trans (hm3.trans (hm2.trans hm1))⟩ <;> rw [hp] <;> rfl

/-- With the constants of the source, when the driver has stored the magic: writer 0 comes to the poll of its first bucket. -/
theorem consumers_map_named_shipped :
    ∃ w, Reached (Host.shipped.mappedTodisk 0) (fun _ _ => True) w ∧ w.proc.phase = .access ∧ w.proc.w.pc = .poll ∧
      Host.shipped.TodiskMaps w := by
  have hid : 0 < Host.shipped.table.numWriters := Nat.one_pos
  obtain ⟨w, hw, hp, hpc, -⟩ := Host.shipped.todisk_reaches_poll hid
    (load_store_same (fun _ => 0) Host.shipped.config.globalAddr magicBytes)
    (load_store_disjoint (fun _ => 0) _ magicBytes _ 1 (Or.inr (Nat.add_le_add_left (by decide) _)))
  exact ⟨w, hw, hp, hpc, (consumers_map_named Host.shipped 0 hid).1 w hw⟩

end NicRecorder
