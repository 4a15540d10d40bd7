import NicRecorder.Lemmas.Saving
import NicRecorder.Lemmas.Simulation

/-!
# The ledger of a recording

What the writers have closed, over a whole run. Every file that has been closed is read back as the bucket of its fill, and stays so:
the threads have left the fill, and no process returns to the file. This rests on two conditions on the run: the accesses of the
processes are in time (`Timely`), and no writer is started twice (`write2disk` starts each of them once).
-/

namespace NicRecorder

open ByteMem Runs

/-! ## What a run has started and closed -/

/-- The writer that a step starts. -/
def MachineAct.writer : MachineAct → Option Nat
  | .startTodisk _ id => some id
  | _ => none

/-- The block whose file a step closes. -/
def Machine.closes (m : Machine) : MachineAct → Option Nat
  | .exec pid _ _ =>
    match m.prog pid with
    | some (.todisk w) => if w.pc = .close then some w.fileCount else none
    | _ => none
  | _ => none

/-- The writers that have been started, in order. -/
def startedWriters (tr : List (Machine × MachineAct)) : List Nat := tr.filterMap fun x => x.2.writer

/-- The blocks whose files have been closed, in order. -/
def closedBlocks (tr : List (Machine × MachineAct)) : List Nat := tr.filterMap fun x => x.1.closes x.2

section Traces

variable {tr : List (Machine × MachineAct)} {m : Machine} {a : MachineAct}

theorem startedWriters_snoc : startedWriters (tr ++ [(m, a)]) = startedWriters tr ++ a.writer.toList := by
  rw [startedWriters, List.filterMap_append, ← startedWriters]
  cases h : a.writer <;> simp [h]

theorem closedBlocks_snoc : closedBlocks (tr ++ [(m, a)]) = closedBlocks tr ++ (m.closes a).toList := by
  rw [closedBlocks, List.filterMap_append, ← closedBlocks]
  cases h : m.closes a <;> simp [h]

theorem startedWriters_mono {id : Nat} (h : id ∈ startedWriters tr) : id ∈ startedWriters (tr ++ [(m, a)]) := by
  rw [startedWriters_snoc]
  exact List.mem_append_left _ h

end Traces

/-! ## Runs in time -/

/-- What is asked of a step: the recording thread accepts only what was written back, no header is cleared, a process makes its
accesses in time, and in a run without a stall no process finds itself late. -/
structure Host.Timely (H : Host) (quiet : Prop) (m : Machine) (a : MachineAct) : Prop where
  written : m.AcceptsWritten a
  kept : m.NoClear a
  unstalled : quiet → m.NoStall a
  onTime : ∀ pid n time w, a = .exec pid n time → m.prog pid = some (.todisk w) → H.OnTime m w

/-- The file of a block is read back as the bucket of its fill, which the threads have left. -/
structure Host.SavedIn (H : Host) (quiet : Prop) (m : Machine) (f : Nat) : Prop where
  left : m.cap.drv.Left f
  nonempty : m.cap.drv.saved f ≠ []
  file : ∃ file, H.table.fileAt m.disk f = some file ∧ WholeFile file ∧
    H.config.Images quiet (m.cap.drv.saved f) (m.cap.drv.lastIn f) (imageOf file)

/-- A process does not return to a block. -/
def Todisk.Passed (w : Todisk) (f : Nat) : Prop := f < w.fileCount ∨ f = w.fileCount ∧ w.pc = .exited

/-- What holds behind a run. -/
structure Host.Ledger (H : Host) (quiet : Prop) (tr : List (Machine × MachineAct)) (m : Machine) : Prop where
  stored : H.Stored m
  sized : H.Sized m
  marked : H.Marked quiet m
  writing : ∀ pid w, m.prog pid = some (.todisk w) → w.id ∈ startedWriters tr ∧ H.Writing quiet m w
  alone : ∀ pid q w v, m.prog pid = some (.todisk w) → m.prog q = some (.todisk v) → w.id = v.id → pid = q
  once : (closedBlocks tr).Nodup
  closed : ∀ f ∈ closedBlocks tr, H.SavedIn quiet m f ∧ f % H.table.numWriters ∈ startedWriters tr ∧
    ∀ pid w, m.prog pid = some (.todisk w) → w.id = f % H.table.numWriters → w.Passed f

section Ledger

variable {H : Host} {quiet : Prop} {tr : List (Machine × MachineAct)} {m m' : Machine} {a : MachineAct}

theorem Host.ledger_init (hi : H.machine.init m) : H.Ledger quiet [] m := by
  have hnone : ∀ pid w, m.prog pid ≠ some (.todisk w) := by
    obtain ⟨ram, disk, rfl⟩ := hi
    exact fun _ _ => nofun
  exact ⟨H.stored_init hi, H.sized_init hi, H.marked_init hi, fun pid w hw => absurd hw (hnone pid w),
    fun pid _ w _ hw => absurd hw (hnone pid w), List.nodup_nil, nofun⟩

/-- A step of the driver leaves the flag of a block in which something has been recorded, or sets it anew. -/
theorem Host.Stored.driver_flag (h : H.Stored m) {cap : Capture} {a : Act} (hs : H.config.Step 0 m.cap a cap) {f : Nat}
    (h1 : f ≤ m.cap.drv.hist.procFill) (h2 : m.cap.drv.hist.allocStart f < m.cap.drv.hist.accepted)
    (hr : m.cap.drv.hist.allocFill < f + H.config.numBuckets) (hflag : flagOf m.mem (H.config.bucketOf f) ≠ 0) :
    flagOf (H.config.driverStore m.cap.drv m.mem a) (H.config.bucketOf f) ≠ 0 := by
  have hi := h.fills.inv
  cases hs with
  | alloc hs =>
    unfold Config.driverStore Config.allocStore
    dsimp only
    split
    · have hlt : H.config.rowEnd m.cap.drv.alloc.supRow < 2 ^ 32 := Nat.mod_lt _ (by decide)
      rw [flagOf_store32 m.mem _ _ hlt]
      split
      · exact hi.rowEnd_ne_zero
      · exact hflag
    · exact hflag
  | proc hs =>
    unfold Config.driverStore Driver.procStore
    dsimp only
    split
    · next hpc =>
      have hblock := hi.store_inBlock hpc
      have hbig : lenBlockOff + lenBlockSize ≤ 2 ^ 30 := by decide
      have hword : numCapturedOff + 4 ≤ lenOff := by decide
      rw [Mem.store16, hdrAt, flagOf_store _ (by rw [leBytes_length]; omega) (Or.inr (Or.inr (by omega)))]
      exact hflag
    · have hlt := hi.curPartial_lt
      rw [flagOf_store32 m.mem _ _ (by omega)]
      split
      · next hb =>
        -- the thread ends in the fill of this block
        have hle := hi.procFill_le
        have hacc := hi.window.accepted_eq
        rw [hi.wrapped.proc_cur] at hb
        obtain rfl : f = m.cap.drv.hist.procFill := by
          by_contra hne
          exact Config.bucketOf_ne (Nat.lt_of_le_of_ne h1 hne) (by omega) hb
        rw [hi.start_procFill] at h2
        omega
      · exact hflag
    · rw [Mem.store32, flagOf_store_hdr _ (by rw [leBytes_length]; decide) (Or.inr (Or.inr (by decide)))]
      exact hflag
    · exact hflag
  | nic p hp hs =>
    have hroom := h.placed.inside m.cap.drv.nicHead
    have hlen := hp.2
    have hbig : lenBlockOff ≤ 2 ^ 30 := by decide
    unfold Config.driverStore
    dsimp only
    rw [← Nat.div_add_mod' (m.cap.drv.ring m.cap.drv.nicHead).pktAddr (2 ^ 30),
      flagOf_store _ (by omega) (Or.inr (Or.inl (by omega)))]
    exact hflag
  | userStart | userStop => exact hflag
  | visit k hk => exact absurd hk (Nat.not_lt_zero k)

/-- A saved file stays as long as no process writes to it. -/
theorem Host.SavedIn.keep {f : Nat} (h : H.SavedIn quiet m f) (ha : m.cap.drv.Advances m'.cap.drv)
    (hdisk : H.table.fileAt m'.disk f = H.table.fileAt m.disk f) : H.SavedIn quiet m' f := by
  obtain ⟨hl, hsaved, hlast⟩ := ha.left f h.left
  refine ⟨hl, by rw [hsaved]; exact h.nonempty, ?_⟩
  rw [hdisk, hsaved, hlast]
  exact h.file

/-! ### Steps that are of no writer -/

/-- A step that starts no writer, moves none, and leaves the files and the flags that have been taken keeps the ledger. -/
theorem Host.Ledger.keep (h : H.Ledger quiet tr m) (hs : H.Stored m') (hz : H.Sized m') (hm : H.Marked quiet m')
    (ha : m.cap.drv.Advances m'.cap.drv) (hprog : ∀ q w, m'.prog q = some (.todisk w) → m.prog q = some (.todisk w))
    (hflag : ∀ q w, m.prog q = some (.todisk w) → w.pc.flagged = true →
      m'.cap.drv.hist.allocFill < w.fileCount + H.config.numBuckets → flagOf m'.mem w.cur ≠ 0)
    (hdisk : m'.disk = m.disk) (hcloses : m.closes a = none) : H.Ledger quiet (tr ++ [(m, a)]) m' := by
  have hblocks : closedBlocks (tr ++ [(m, a)]) = closedBlocks tr := by
    rw [closedBlocks_snoc, hcloses, Option.toList_none, List.append_nil]
  refine ⟨hs, hz, hm, fun pid w hw => ?_, fun pid q w v hw hv => h.alone pid q w v (hprog pid w hw) (hprog q v hv),
    hblocks ▸ h.once, fun f hf => ?_⟩
  · obtain ⟨hid, hwr⟩ := h.writing pid w (hprog pid w hw)
    exact ⟨startedWriters_mono hid, hwr.frame ha (hflag pid w (hprog pid w hw)) (by rw [hdisk])⟩
  · rw [hblocks] at hf
    obtain ⟨hsaved, hid, hpassed⟩ := h.closed f hf
    exact ⟨hsaved.keep ha (by rw [hdisk]), startedWriters_mono hid, fun pid w hw => hpassed pid w (hprog pid w hw)⟩

theorem Host.Ledger.drv (h : H.Ledger quiet tr m) {cap : Capture} {a : Act} (ht : H.Timely quiet m (.drv a))
    (hs : H.config.Step 0 m.cap a cap) :
    H.Ledger quiet (tr ++ [(m, .drv a)]) { m with cap := cap, mem := H.config.driverStore m.cap.drv m.mem a } := by
  have hst : H.Step m (.drv a) { m with cap := cap, mem := H.config.driverStore m.cap.drv m.mem a } := Host.Step.drv a hs
  have ha := h.stored.fills.advances hs
  refine h.keep (h.stored.step ht.written hst) (h.sized.step h.stored.placed ht.kept hst)
    (h.marked.step h.stored.placed ht.kept ht.unstalled hst) ha (fun _ _ hw => hw) (fun q w hw hp hr => ?_) rfl rfl
  obtain ⟨-, hwr⟩ := h.writing q w hw
  have htaken : w.pc.taken = true := by
    revert hp
    cases w.pc <;> decide
  have hgrow := ha.allocFill
  dsimp only at hr
  have hr' : m.cap.drv.hist.allocFill < w.fileCount + H.config.numBuckets := by omega
  have hflag := hwr.flag hp hr'
  rw [hwr.cur] at hflag ⊢
  exact h.stored.driver_flag hs (hwr.own htaken).1 (hwr.own htaken).2 hr' hflag

/-! ### The start of a writer -/

/-- A process of `todisk` behind a step of one is another one, as it was, or the one that has moved. -/
theorem update_cases {prog : Nat → Option Program} {pid q : Nat} {w' w : Todisk}
    (h : Function.update prog pid (some (.todisk w')) q = some (.todisk w)) :
    (q ≠ pid ∧ prog q = some (.todisk w)) ∨ (q = pid ∧ w = w') := by
  by_cases hq : q = pid
  · rw [hq, Function.update_self, Option.some.injEq, Program.todisk.injEq] at h
    exact Or.inr ⟨hq, h.symm⟩
  · rw [Function.update_of_ne hq] at h
    exact Or.inl ⟨hq, h⟩

theorem Host.Ledger.startTodisk (h : H.Ledger quiet tr m) {pid id : Nat} (ht : H.Timely quiet m (.startTodisk pid id))
    (hnone : m.prog pid = none) (hid : id < H.table.numWriters) (hnew : id ∉ startedWriters tr) :
    H.Ledger quiet (tr ++ [(m, .startTodisk pid id)]) (m.setProg pid (.todisk (H.startTodisk id))) := by
  have hst : H.Step m (.startTodisk pid id) (m.setProg pid (.todisk (H.startTodisk id))) := Host.Step.startTodisk pid id hnone hid
  have ha : m.cap.drv.Advances m.cap.drv := Driver.Advances.of_eq rfl rfl
  have hblocks : closedBlocks (tr ++ [(m, .startTodisk pid id)]) = closedBlocks tr := by
    rw [closedBlocks_snoc]
    exact List.append_nil _
  have hold : ∀ q w, m.prog q = some (.todisk w) → w.id ≠ id := fun q w hw he => hnew (he ▸ (h.writing q w hw).1)
  refine ⟨h.stored.step ht.written hst, h.sized.step h.stored.placed ht.kept hst,
    h.marked.step h.stored.placed ht.kept ht.unstalled hst, fun q w hw => ?_, fun q q' w v hw hv he => ?_, hblocks ▸ h.once,
    fun f hf => ?_⟩
  · rcases update_cases hw with ⟨-, hw⟩ | ⟨-, rfl⟩
    · obtain ⟨h1, h2⟩ := h.writing q w hw
      exact ⟨startedWriters_mono h1, h2.frame ha h2.flag rfl⟩
    · refine ⟨?_, H.startTodisk_writing _ hid⟩
      rw [startedWriters_snoc]
      exact List.mem_append_right _ (List.mem_singleton.mpr rfl)
  · rcases update_cases hw with ⟨-, hw₀⟩ | ⟨hq, rfl⟩ <;> rcases update_cases hv with ⟨-, hv₀⟩ | ⟨hq', rfl⟩
    · exact h.alone q q' w v hw₀ hv₀ he
    · exact absurd he (hold q w hw₀)
    · exact absurd he.symm (hold q' v hv₀)
    · rw [hq, hq']
  · rw [hblocks] at hf
    obtain ⟨hsaved, hstarted, hpassed⟩ := h.closed f hf
    refine ⟨hsaved.keep ha rfl, startedWriters_mono hstarted, fun q w hw he => ?_⟩
    rcases update_cases hw with ⟨-, hw⟩ | ⟨-, rfl⟩
    · exact hpassed q w hw he
    · exact absurd (he.symm ▸ hstarted : (H.startTodisk id).id ∈ startedWriters tr) hnew

/-! ### A step of a writer -/

/-- A process writes to its own file, and not when it closes it. -/
theorem Host.todiskStep_disk {pid n time : Nat} {w : Todisk} (hs : H.todiskStep m pid w n time = some m') {name : List Char}
    (hname : name ≠ H.fname w ∨ w.pc = .close) : m'.disk name = m.disk name := by
  unfold Host.todiskStep at hs
  cases hpc : w.pc <;> rw [hpc] at hs hname <;> simp only [Option.some.injEq, reduceCtorEq, or_false] at hs hname
  case openFile =>
    subst hs
    exact Function.update_of_ne hname _ _
  case poll => split at hs <;> cases hs <;> rfl
  case copyLens | copyData =>
    split at hs <;> cases hs
    · exact Function.update_of_ne hname _ _
    · rfl
  all_goals subst hs; rfl

/-- The file that a process closes is read back as the bucket of its fill. -/
theorem Host.Writing.savedIn {w : Todisk} (h : H.Writing quiet m w) (hs : H.Stored m) (hpc : w.pc = .close) :
    H.SavedIn quiet m w.fileCount := by
  have hc : w.pc.copying = true := by rw [hpc]; rfl
  have hlens : w.lenDone = lenBlockSize := (h.lens hc).2 (by rw [hpc]; decide)
  have hdata : w.dataDone = lenBlockOff := (h.data hc).2.2 hpc
  have hpos : 0 < lenBlockSize := by decide
  have hleft : m.cap.drv.Left w.fileCount := h.left hc (by omega)
  have hown := (h.own (by rw [hpc]; rfl)).2
  have hcopied := h.copied hc
  rw [hlens, hdata] at hcopied
  refine ⟨hleft, fun hnil => ?_, ?_⟩
  · -- something has been recorded in the fill
    have hlen := hs.fills.divided.saved_length hleft.le
    rw [hnil, List.length_nil] at hlen
    rcases hleft with hlt | ⟨hlast, -⟩
    · have hle := hs.fills.inv.procFill_le
      have hstart := hs.fills.parted.starts w.fileCount (by omega)
      rw [Driver.savedEnd_of_lt hlt] at hlen
      omega
    · rw [hlast, Driver.savedEnd_last] at hlen
      rw [hlast] at hown
      omega
  · have himg := (hs.fills.divided.wellLaid_saved hleft.le).images_file (m.cap.drv.lastIn_lt _) hcopied
    have hat : H.table.fileAt m.disk w.fileCount = m.disk (H.fname w) := by
      rw [Table.fileAt, h.number, Host.fname]
    rw [hat]
    cases hd : m.disk (H.fname w) with
    | none =>
      have hwhole := himg.1
      rw [hd, Option.getD_none, WholeFile, List.length_nil] at hwhole
      omega
    | some file =>
      rw [hd, Option.getD_some] at himg
      exact ⟨file, rfl, himg⟩

/-- Two processes that are both at a flagged bucket, one of them to reset the flag, are not at the same one. -/
theorem Host.Ledger.flag_other (h : H.Ledger quiet tr m) {pid q : Nat} {w v : Todisk} (hw : m.prog pid = some (.todisk w))
    (hv : m.prog q = some (.todisk v)) (hq : q ≠ pid) (hpc : w.pc = .reset) (ht : H.OnTime m w) (hp : v.pc.flagged = true)
    (hr : m.cap.drv.hist.allocFill < v.fileCount + H.config.numBuckets) : v.cur ≠ w.cur := by
  obtain ⟨-, hwr⟩ := h.writing pid w hw
  obtain ⟨-, hvr⟩ := h.writing q v hv
  have htaken : v.pc.taken = true := by
    revert hp
    cases v.pc <;> decide
  have h1 := (hwr.own (by rw [hpc]; rfl)).1
  have h2 := (hvr.own htaken).1
  have h3 := ht.kept (Or.inr (Or.inl hpc))
  have hle := h.stored.fills.inv.procFill_le
  have hne : v.fileCount ≠ w.fileCount := fun he => hq (h.alone q pid v w hv hw (by rw [← hvr.number, ← hwr.number, he]))
  rw [hvr.cur, hwr.cur]
  rcases Nat.lt_or_gt_of_ne hne with hlt | hlt
  · exact Config.bucketOf_ne hlt (by omega)
  · exact (Config.bucketOf_ne hlt (by omega)).symm

theorem Host.Ledger.todisk (h : H.Ledger quiet tr m) {pid n time : Nat} {w : Todisk} (ht : H.Timely quiet m (.exec pid n time))
    (hw : m.prog pid = some (.todisk w)) (hs : H.todiskStep m pid w n time = some m') :
    H.Ledger quiet (tr ++ [(m, .exec pid n time)]) m' := by
  have hexec : H.execStep m pid n time = some m' := by
    rw [Host.execStep, hw]
    exact hs
  have hst : H.Step m (.exec pid n time) m' := Host.Step.exec pid n time hexec
  have hon := ht.onTime pid n time w rfl hw
  obtain ⟨hid, hwr⟩ := h.writing pid w hw
  obtain ⟨w', hprog, hid', hwr', hrun, hfc⟩ := hwr.todiskStep h.stored h.sized h.marked hon hs
  have ha : m.cap.drv.Advances m'.cap.drv := by
    obtain ⟨p, -, hm⟩ := H.execStep_moves hexec
    rcases hm.cap with he | he <;> rw [he] <;> exact Driver.Advances.of_eq rfl rfl
  have hcases : ∀ q v, m'.prog q = some (.todisk v) → (q ≠ pid ∧ m.prog q = some (.todisk v)) ∨ (q = pid ∧ v = w') := by
    rw [hprog]
    exact fun q v hv => update_cases hv
  have hclose : ∀ f ∈ (m.closes (.exec pid n time)).toList, w.pc = .close ∧ f = w.fileCount := by
    intro f hf
    rw [Machine.closes, hw] at hf
    dsimp only at hf
    split at hf
    · next hpc => exact ⟨hpc, by simpa using hf⟩
    · cases hf
  -- a block that has been closed is not the one that the process is at
  have hpast : ∀ f ∈ closedBlocks tr, f ≠ w.fileCount := by
    intro f hf he
    have hp := (h.closed f hf).2.2 pid w hw (by rw [he, hwr.number])
    rcases hp with hp | hp
    · omega
    · exact hrun hp.2
  refine ⟨h.stored.step ht.written hst, h.sized.step h.stored.placed ht.kept hst,
    h.marked.step h.stored.placed ht.kept ht.unstalled hst, fun q v hv => ?_, fun q q' v v' hv hv' he => ?_, ?_, fun f hf => ?_⟩
  · rcases hcases q v hv with ⟨hq, hv⟩ | ⟨-, rfl⟩
    · obtain ⟨h1, h2⟩ := h.writing q v hv
      have hne : v.fileCount ≠ w.fileCount := fun he => hq (h.alone q pid v w hv hw (by rw [← h2.number, ← hwr.number, he]))
      refine ⟨startedWriters_mono h1, h2.frame ha (fun hp hr => ?_) (H.todiskStep_disk hs (Or.inl fun he => hne (fileName_inj he)))⟩
      have hgrow := ha.allocFill
      have hr' : m.cap.drv.hist.allocFill < v.fileCount + H.config.numBuckets := by omega
      rw [H.todiskStep_flag hs, if_neg fun hb => h.flag_other hw hv hq hb.1 hon hp hr' hb.2]
      exact h2.flag hp hr'
    · exact ⟨startedWriters_mono (hid'.symm ▸ hid), hwr'⟩
  · rcases hcases q v hv with ⟨-, hv⟩ | ⟨rfl, rfl⟩ <;> rcases hcases q' v' hv' with ⟨-, hv'⟩ | ⟨rfl, rfl⟩
    · exact h.alone q q' v v' hv hv' he
    · exact h.alone q q' v w hv hw (he.trans hid')
    · exact h.alone q q' w v' hw hv' (hid'.symm.trans he)
    · rfl
  · rw [closedBlocks_snoc, List.nodup_append]
    refine ⟨h.once, ?_, fun f hf g hg he => hpast f hf (he.trans (hclose g hg).2)⟩
    cases m.closes (.exec pid n time) <;> simp
  · rw [closedBlocks_snoc, List.mem_append] at hf
    rcases hf with hf | hf
    · obtain ⟨hsaved, hstarted, hpassed⟩ := h.closed f hf
      refine ⟨hsaved.keep ha (H.todiskStep_disk hs (Or.inl fun he => hpast f hf (fileName_inj he))), startedWriters_mono hstarted,
        fun q v hv he => ?_⟩
      rcases hcases q v hv with ⟨-, hv⟩ | ⟨-, rfl⟩
      · exact hpassed q v hv he
      · have hp := hpassed pid w hw (hid'.symm.trans he)
        rcases hp with hp | hp
        · exact Or.inl (by rcases hfc with ⟨hk, -⟩ | ⟨-, hk⟩ <;> omega)
        · exact absurd hp.2 hrun
    · obtain ⟨hpc, rfl⟩ := hclose f hf
      refine ⟨(hwr.savedIn h.stored hpc).keep ha (H.todiskStep_disk hs (Or.inr hpc)), ?_, fun q v hv he => ?_⟩
      · rw [hwr.number]
        exact startedWriters_mono hid
      · rw [hwr.number] at he
        rcases hcases q v hv with ⟨hq, hv⟩ | ⟨-, rfl⟩
        · exact absurd (h.alone q pid v w hv hw he) hq
        · have hpos := H.table.writers_pos
          rcases hfc with ⟨hk, hx⟩ | ⟨-, hk⟩
          · exact Or.inr ⟨hk.symm, hx hpc⟩
          · exact Or.inl (by omega)

/-! ### Every step -/

theorem Host.Ledger.step (h : H.Ledger quiet tr m) (ht : H.Timely quiet m a) (hnd : (startedWriters (tr ++ [(m, a)])).Nodup)
    (hst : H.Step m a m') : H.Ledger quiet (tr ++ [(m, a)]) m' := by
  have hs := h.stored.step ht.written hst
  have hz := h.sized.step h.stored.placed ht.kept hst
  have hm := h.marked.step h.stored.placed ht.kept ht.unstalled hst
  have ha : m.cap.drv.Advances m.cap.drv := Driver.Advances.of_eq rfl rfl
  cases hst with
  | drv a hd => exact h.drv ht hd
  | startTodisk pid id hnone hid =>
    refine h.startTodisk ht hnone hid fun hmem => ?_
    rw [startedWriters_snoc, List.nodup_append] at hnd
    exact hnd.2.2 id hmem id (List.mem_singleton.mpr rfl) rfl
  | startDiscard pid hnone | kill pid =>
    refine h.keep hs hz hm ha (fun q w hw => (update_prog hw).resolve_right (by simp)) (fun q w hw => ?_) rfl rfl
    exact (h.writing q w hw).2.flag
  | exec pid n time he =>
    have hexec := he
    unfold Host.execStep at he
    split at he
    · next w hw => exact h.todisk ht hw he
    · next v hv =>
      obtain ⟨hcap, hmem, hdisk, v', hprog⟩ := H.discardStep_quiet (ht.kept pid n time v rfl hv) he
      refine h.keep hs hz hm (by rw [hcap]; exact ha) (fun q w hw => ?_) (fun q w hw => ?_) hdisk ?_
      · rw [hprog] at hw
        exact (update_prog hw).resolve_right (by simp)
      · rw [hcap, hmem]
        exact (h.writing q w hw).2.flag
      · rw [Machine.closes, hv]
    · cases he

theorem Host.ledger_of_run {s t : Machine} (hi : H.machine.init s) (hr : Run H.machine s tr t) (ht : Meets (H.Timely quiet) tr)
    (hnd : (startedWriters tr).Nodup) : H.Ledger quiet tr t := by
  induction hr with
  | nil => exact H.ledger_init hi
  | snoc a hr hst ih =>
    rw [meets_snoc] at ht
    refine (ih ht.1 ?_).step ht.2 hnd hst
    rw [startedWriters_snoc] at hnd
    exact (List.nodup_append.mp hnd).1

end Ledger

end NicRecorder
