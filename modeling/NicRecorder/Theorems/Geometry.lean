import NicRecorder.Lemmas.Machine
import NicRecorder.Lemmas.Tools
import NicRecorder.Theorems.Completeness
import NicRecorder.Theorems.Stop

/-!
# The geometry in the headers

`pbm_init_all` stores the number of slots of the ring in the header of every bucket, once. `todisk` copies it to every file, and the
extraction tools divide by it. It outlasts every fill and every visit of `todisk`. `count_then_discard` clears it with the rest of
the header: from then on the bucket names no slots, and so does every file that is made of it.
-/

namespace NicRecorder

open ByteMem Runs

/-- The step is not the clear of a header by `count_then_discard`. -/
def Machine.NoClear (m : Machine) (a : MachineAct) : Prop :=
  ∀ pid n time v, a = .exec pid n time → m.prog pid = some (.discard v) → v.pc ≠ .clear

/-- Every bucket names the slots of the ring, and so does every file to which `todisk` has written a header; no division of
`dump_packet` is by zero for such a file. -/
structure Host.Geometry (H : Host) (m : Machine) : Prop where
  buckets : ∀ b, H.config.start1G ≤ b → b ≤ H.config.end1G → headerSlots (bucketMem m.mem b) = H.config.numRxSlots
  files : ∀ name ∈ m.headed, ∃ file, m.disk name = some file ∧ ∀ mapping,
    headerSlots (readHeader mapping file) = H.config.numRxSlots ∧
      ∀ start count,
        H.config.dumpPacket (readBlock mapping file) (headerSlots (readHeader mapping file)) start count ≠ none

variable {H : Host} {m m' : Machine}

/-! ## The files -/

/-- A file of which the first bytes have been written has `word` as its number of slots, as far as it has been written. -/
def Named (word : List UInt8) (file : Option (List UInt8)) (done : Nat) : Prop :=
  ∀ k < 4, numRxSlotsOff + k < done → (file.getD [])[numRxSlotsOff + k]? = word[k]?

/-- The bytes that are written to a file at a position are those of `word` where they fall on the number of slots. -/
def Fitting (word : List UInt8) (pos : Nat) (bs : List UInt8) : Prop :=
  ∀ k < 4, pos ≤ numRxSlotsOff + k → numRxSlotsOff + k < pos + bs.length → bs[numRxSlotsOff + k - pos]? = word[k]?

section Files

variable {word : List UInt8} {disk : Disk} {name : List Char} {pos : Nat} {bs : List UInt8}

theorem named_zero (word : List UInt8) (file : Option (List UInt8)) : Named word file 0 :=
  fun _ _ h => absurd h (Nat.not_lt_zero _)

theorem Named.mono {file : Option (List UInt8)} {done done' : Nat} (h : Named word file done) (hle : done' ≤ done) :
    Named word file done' :=
  fun k hk hlt => h k hk (Nat.lt_of_lt_of_le hlt hle)

/-- A write of fitting bytes leaves a file as it was as far as it was written. -/
theorem Named.writeAt {name' : List Char} {done : Nat} (h : Named word (disk name') done) (hlen : word.length = 4)
    (hf : Fitting word pos bs) : Named word (writeAt disk name pos bs name') done := by
  by_cases hn : name' = name
  · subst hn
    intro k hk hlt
    rw [NicRecorder.writeAt, Function.update_self, Option.getD_some]
    by_cases hin : pos ≤ numRxSlotsOff + k ∧ numRxSlotsOff + k < pos + bs.length
    · rw [write_getElem?_inside _ _ hin.1 hin.2]
      exact hf k hk hin.1 hin.2
    · have hold := h k hk hlt
      rw [List.getElem?_eq_getElem (show k < word.length by omega)] at hold ⊢
      exact write_getElem?_outside _ _ hold (by show _ < pos ∨ pos + bs.length ≤ _; omega)
  · rw [NicRecorder.writeAt, Function.update_of_ne hn]
    exact h

/-- A write of fitting bytes behind what has been written carries a file further. -/
theorem Named.writeAt_next (h : Named word (disk name) pos) (hlen : word.length = 4) (hf : Fitting word pos bs) :
    Named word (NicRecorder.writeAt disk name pos bs name) (pos + bs.length) := by
  intro k hk hlt
  by_cases hold : numRxSlotsOff + k < pos
  · exact h.writeAt hlen hf k hk hold
  · rw [NicRecorder.writeAt, Function.update_self, Option.getD_some, write_getElem?_inside _ _ (by show pos ≤ _; omega) hlt]
    exact hf k hk (by omega) hlt

/-- A piece of the length block of a bucket fits the number of slots of the bucket. -/
theorem fitting_load {mem : Mem} {cur : Nat} (h : mem.load (hdrAt cur numRxSlotsOff) 4 = word) (pos n : Nat) :
    Fitting word pos (mem.load (hdrAt cur pos) n) := by
  intro k hk h1 h2
  rw [load_length] at h2
  rw [← h, List.getElem?_eq_getElem (by rw [load_length]; omega), List.getElem?_eq_getElem (by rw [load_length]; omega),
    load_getElem, load_getElem]
  unfold hdrAt
  congr 2
  omega

/-- The packets are written behind the length block. -/
theorem fitting_data (word : List UInt8) (done : Nat) (bs : List UInt8) : Fitting word (lenBlockSize + done) bs := by
  intro k hk h1
  unfold lenBlockSize numRxSlotsOff at h1
  omega

/-- A file that is opened is the old one, or empty. -/
theorem getD_openFile (disk : Disk) (opened name : List Char) :
    (Function.update disk opened (some ((disk opened).getD [])) name).getD [] = (disk name).getD [] := by
  by_cases hn : name = opened
  · rw [hn, Function.update_self, Option.getD_some]
  · rw [Function.update_of_ne hn]

/-- What the tools find in a file with a header. -/
theorem Named.headerSlots {file? : Option (List UInt8)} (h : Named word file? realSize) (hlen : word.length = 4) :
    ∃ file, file? = some file ∧ ∀ mapping, headerSlots (readHeader mapping file) = leNat word := by
  cases file? with
  | none =>
    have hb := h 0 (by decide) (by decide)
    rw [Option.getD_none, List.getElem?_nil, eq_comm, List.getElem?_eq_none_iff, hlen] at hb
    cases hb
  | some file =>
    refine ⟨file, rfl, fun mapping => ?_⟩
    have hbytes : (readHeader mapping file).load (lenBlockOff + numRxSlotsOff) 4 = word := by
      apply List.ext_getElem
      · rw [load_length, hlen]
      · intro k h1 h2
        rw [load_length] at h1
        have hb := h k h1 (by unfold numRxSlotsOff realSize; omega)
        rw [List.getElem?_eq_getElem h2, Option.getD_some] at hb
        obtain ⟨hlt, he⟩ := List.getElem?_eq_some_iff.mp hb
        rw [load_getElem, Nat.add_assoc, readHeader_byte mapping hlt (by unfold numRxSlotsOff const1K; omega)]
        exact he
    rw [NicRecorder.headerSlots, Mem.load32, hbytes]

end Files

/-! ## Runs without a clear -/

/-- What holds as long as no header is cleared: every bucket names the slots of the ring, every file that a process writes does so as far
as it has been written, and so does every file with a header. -/
structure Host.Sized (H : Host) (m : Machine) : Prop where
  buckets : ∀ b, H.config.IsBucket b → m.mem.load (hdrAt b numRxSlotsOff) 4 = H.config.slotWord
  writing : ∀ pid w, m.prog pid = some (.todisk w) → Named H.config.slotWord (m.disk (H.fname w)) w.lenDone
  headed : ∀ name ∈ m.headed, Named H.config.slotWord (m.disk name) realSize

theorem Host.sized_init (hi : H.machine.init m) : H.Sized m := by
  obtain ⟨ram, disk, rfl⟩ := hi
  exact ⟨fun b hb => H.config.initAll_slots ram hb.1 hb.2, nofun, nofun⟩

/-- A step that keeps the numbers of slots, writes fitting bytes to the files, and is of one process keeps all. -/
theorem Host.Sized.keep (h : H.Sized m)
    (hmem : ∀ b, m'.mem.load (hdrAt b numRxSlotsOff) 4 = m.mem.load (hdrAt b numRxSlotsOff) 4)
    (hdisk : ∀ name done, Named H.config.slotWord (m.disk name) done → Named H.config.slotWord (m'.disk name) done)
    (hprog : ∀ pid w, m'.prog pid = some (.todisk w) → m.prog pid = some (.todisk w) ∨
      Named H.config.slotWord (m'.disk (H.fname w)) w.lenDone)
    (hhead : ∀ name ∈ m'.headed, name ∈ m.headed ∨ Named H.config.slotWord (m'.disk name) realSize) : H.Sized m' := by
  refine ⟨fun b hb => (hmem b).trans (h.buckets b hb), fun pid w hw => ?_, fun name hname => ?_⟩
  · rcases hprog pid w hw with hw | hw
    · exact hdisk _ _ (h.writing pid w hw)
    · exact hw
  · rcases hhead name hname with hn | hn
    · exact hdisk _ _ (h.headed name hn)
    · exact hn

/-- A process of `todisk` behind a change of one entry of the table was there before, or is the new entry. -/
theorem update_prog {prog : Nat → Option Program} {pid q : Nat} {x : Option Program} {w : Todisk}
    (h : Function.update prog pid x q = some (.todisk w)) : prog q = some (.todisk w) ∨ x = some (.todisk w) := by
  by_cases hq : q = pid
  · rw [hq, Function.update_self] at h
    exact Or.inr h
  · rw [Function.update_of_ne hq] at h
    exact Or.inl h

/-- A step of a process of `todisk` keeps all if it keeps the numbers of slots and writes fitting bytes to its file. -/
theorem Host.Sized.setTodisk (h : H.Sized m) {pid : Nat} {w : Todisk} {mem : Mem} {disk : Disk} {headed : List (List Char)}
    (hmem : ∀ b, mem.load (hdrAt b numRxSlotsOff) 4 = m.mem.load (hdrAt b numRxSlotsOff) 4)
    (hdisk : ∀ name done, Named H.config.slotWord (m.disk name) done → Named H.config.slotWord (disk name) done)
    (hown : Named H.config.slotWord (disk (H.fname w)) w.lenDone)
    (hhead : ∀ name ∈ headed, name ∈ m.headed ∨ Named H.config.slotWord (disk name) realSize) :
    H.Sized { m.setProg pid (.todisk w) with mem := mem, disk := disk, headed := headed } := by
  refine h.keep hmem hdisk (fun q v hv => ?_) hhead
  refine (update_prog hv).imp_right fun he => ?_
  rw [Option.some.injEq, Program.todisk.injEq] at he
  rw [← he]
  exact hown

theorem Host.Sized.todiskStep {pid n time : Nat} {w : Todisk} (h : H.Sized m) (hp : m.prog pid = some (.todisk w))
    (hb : H.config.IsBucket w.cur) (hs : H.todiskStep m pid w n time = some m') : H.Sized m' := by
  have hw := h.writing pid w hp
  -- most steps touch no file, and no more of the memory than another word of a header
  have hquiet : ∀ w' mem, (∀ b, mem.load (hdrAt b numRxSlotsOff) 4 = m.mem.load (hdrAt b numRxSlotsOff) 4) →
      Named H.config.slotWord (m.disk (H.fname w')) w'.lenDone → H.Sized { m.setProg pid (.todisk w') with mem := mem } :=
    fun w' mem hmem hown => h.setTodisk hmem (fun _ _ hn => hn) hown (fun _ hn => Or.inl hn)
  have hword : ∀ off v, off + 4 ≤ numRxSlotsOff → ∀ b,
      (m.mem.store32 (hdrAt w.cur off) v).load (hdrAt b numRxSlotsOff) 4 = m.mem.load (hdrAt b numRxSlotsOff) 4 :=
    fun off v hoff => load_slots_store_hdr m.mem (by rw [leBytes_length]; exact hoff)
  unfold Host.todiskStep at hs
  cases hpc : w.pc <;> rw [hpc] at hs <;> simp only [Option.some.injEq, reduceCtorEq] at hs
  case again0 =>
    subst hs
    obtain ⟨-, hid, hfc, hlen⟩ := w.again0_vars m.userStop
    refine hquiet _ m.mem (fun _ => rfl) ?_
    unfold Host.fname
    rw [hid, hfc, hlen]
    exact hw
  case poll => split at hs <;> cases hs <;> exact hquiet _ m.mem (fun _ => rfl) hw
  case pollStop | readLast =>
    subst hs
    exact hquiet _ m.mem (fun _ => rfl) hw
  case raiseStop =>
    subst hs
    have hq := hquiet { w with pc := .markStalled } m.mem (fun _ => rfl) hw
    exact ⟨hq.buckets, hq.writing, hq.headed⟩
  case markStalled | reset =>
    subst hs
    exact hquiet _ _ (hword _ _ (by decide)) hw
  case openFile =>
    subst hs
    refine h.setTodisk (fun _ => rfl) (fun name done hn k hk hlt => ?_) (named_zero H.config.slotWord _) (fun _ hn => Or.inl hn)
    rw [getD_openFile]
    exact hn k hk hlt
  case stamp =>
    subst hs
    exact hquiet _ _ (load_slots_store_hdr m.mem (by rw [leBytes_length]; decide)) hw
  case copyLens =>
    split at hs <;> cases hs
    · -- the piece is a part of the length block of a bucket
      have hf := fitting_load (h.buckets w.cur hb) w.lenDone (min n (lenBlockSize - w.lenDone))
      have hnext := hw.writeAt_next H.config.slotWord_length hf
      rw [load_length] at hnext
      refine h.setTodisk (fun _ => rfl) (fun _ _ hn => hn.writeAt H.config.slotWord_length hf) hnext (fun name hn => ?_)
      split at hn
      · next hle =>
        rcases List.mem_cons.mp hn with he | hn
        · rw [he]
          exact Or.inr (hnext.mono hle)
        · exact Or.inl hn
      · exact Or.inl hn
    · exact hquiet _ m.mem (fun _ => rfl) hw
  case copyData =>
    split at hs <;> cases hs
    · have hf := fitting_data H.config.slotWord w.dataDone
        (m.mem.load (w.cur * 2 ^ 30 + w.dataDone) (min n (lenBlockOff - w.dataDone)))
      exact h.setTodisk (fun _ => rfl) (fun _ _ hn => hn.writeAt H.config.slotWord_length hf)
        (hw.writeAt H.config.slotWord_length hf) (fun _ hn => Or.inl hn)
    · exact hquiet _ m.mem (fun _ => rfl) hw
  case close =>
    subst hs
    refine hquiet _ m.mem (fun _ => rfl) ?_
    rw [(H.endBlock_vars w).1]
    exact named_zero H.config.slotWord _

/-- A change of the table that brings no process of `todisk` keeps all. -/
theorem Host.Sized.setOther (h : H.Sized m) {pid : Nat} {x : Option Program} (hx : ∀ w, x ≠ some (.todisk w)) :
    H.Sized { m with prog := Function.update m.prog pid x } :=
  h.keep (fun _ => rfl) (fun _ _ hn => hn) (fun _ w hw => (update_prog hw).imp_right fun he => absurd he (hx w))
    (fun _ hn => Or.inl hn)

/-- A step of a process of `count_then_discard` that clears no header stores nothing. -/
theorem Host.Sized.discardStep {pid : Nat} {v : Discard} (h : H.Sized m) (hc : v.pc ≠ .clear)
    (hs : H.discardStep m pid v = some m') : H.Sized m' := by
  have hset : ∀ v', H.Sized (m.setProg pid (.discard v')) := fun v' => h.setOther nofun
  unfold Host.discardStep at hs
  cases hpc : v.pc <;> rw [hpc] at hs <;> simp only [Option.some.injEq, reduceCtorEq] at hs
  case clear => exact absurd hpc hc
  case poll => split at hs <;> cases hs <;> exact hset _
  all_goals
    subst hs
    exact hset _

/-- Every step but a clear keeps the geometry. -/
theorem Host.Sized.step {a : MachineAct} (h : H.Sized m) (hp : H.Placed m) (hc : m.NoClear a) (hst : H.Step m a m') :
    H.Sized m' := by
  cases hst with
  | drv a hs =>
    have hmem := Config.driverStore_slots hp.inv hp.inside hs m.mem
    exact ⟨fun b hb => (hmem b).trans (h.buckets b hb), h.writing, h.headed⟩
  | startTodisk pid id hnone hid =>
    exact h.setTodisk (fun _ => rfl) (fun _ _ hn => hn) (named_zero H.config.slotWord _) (fun _ hn => Or.inl hn)
  | startDiscard pid hnone => exact h.setOther nofun
  | kill pid => exact h.setOther nofun
  | exec pid n time hs =>
    unfold Host.execStep at hs
    split at hs
    · next w hw => exact h.todiskStep hw (hp.at_bucket pid _ hw) hs
    · next v hv => exact h.discardStep (hc pid n time v rfl hv) hs
    · cases hs

theorem Host.Sized.geometry (h : H.Sized m) : H.Geometry m := by
  refine ⟨fun b h1 h2 => ?_, fun name hname => ?_⟩
  · rw [headerSlots, bucketMem_load32, Mem.load32, h.buckets b ⟨h1, h2⟩, H.config.leNat_slotWord]
  · obtain ⟨file, he, hslots⟩ := (h.headed name hname).headerSlots H.config.slotWord_length
    refine ⟨file, he, fun mapping => ?_⟩
    have hpos := H.config.slots_pos
    rw [hslots, H.config.leNat_slotWord]
    refine ⟨rfl, fun start count => ?_⟩
    rw [Config.dumpPacket, if_neg (by omega)]
    exact Option.some_ne_none _

/-! ## A clear -/

/-- A header that has been cleared names no slots. -/
theorem load_slots_clear (m : Mem) (b : Nat) :
    (m.store (hdrAt b 0) (List.replicate realSize 0)).load (hdrAt b numRxSlotsOff) 4 = List.replicate 4 0 := by
  have he : hdrAt b numRxSlotsOff = hdrAt b 0 + numRxSlotsOff := by
    unfold hdrAt
    omega
  rw [he, load_store_inside _ _ _ (by rw [List.length_replicate]; decide), List.drop_replicate, List.take_replicate]
  rfl

theorem Host.discardStep_clear {pid : Nat} {v : Discard} (hc : v.pc = .clear) (hs : H.discardStep m pid v = some m') :
    headerSlots (bucketMem m'.mem v.cur) = 0 := by
  simp only [Host.discardStep, hc, Option.some.injEq] at hs
  rw [← hs, headerSlots, bucketMem_load32, Mem.load32, load_slots_clear]
  rfl

/-- The geometry holds in every state of a run if and only if no header is cleared in the run. -/
theorem geometry_iff (H : Host) {s t : Machine} {tr : List (Machine × MachineAct)} (hi : H.machine.init s)
    (hr : Run H.machine s tr t) (hw : Meets Machine.AcceptsWritten tr) :
    (∀ u ∈ visited tr t, H.Geometry u) ↔ Meets Machine.NoClear tr := by
  have hplaced := hr.visited_invariant (I := H.Placed) (fun _ _ _ h hw hst => h.step hw hst) (H.placed_init hi) hw
  constructor
  · intro hgeo x hx pid n time v ha hv hc
    obtain ⟨u, hst, hu⟩ := hr.after x hx
    have hb := (hplaced x.1 (List.mem_append_left _ (List.mem_map_of_mem hx))).at_bucket pid _ hv
    have hN := H.config.slots_pos
    rw [ha] at hst
    cases hst with
    | exec pid n time hs =>
      rw [Host.execStep, hv] at hs
      have hzero := H.discardStep_clear hc hs
      have hkeep := (hgeo u hu).buckets v.cur hb.1 hb.2
      omega
  · intro hc u hu
    have hboth : Meets (fun m a => m.AcceptsWritten a ∧ m.NoClear a) tr := fun x hx => ⟨hw x hx, hc x hx⟩
    have hI := hr.visited_invariant (I := fun m => H.Placed m ∧ H.Sized m)
      (fun _ _ _ h hwc hst => ⟨h.1.step hwc.1 hst, h.2.step h.1 hwc.2 hst⟩) ⟨H.placed_init hi, H.sized_init hi⟩ hboth
    exact (hI u hu).2.geometry

/-! ## Captures of the machine -/

/-- A step of a run in which the recording thread accepts only what was written back and no header is cleared. -/
def Machine.Calm (m : Machine) (a : MachineAct) : Prop := m.AcceptsWritten a ∧ m.NoClear a

/-- The step is one of the driver, the adapter or the user, and accepts only what was written back. -/
def Machine.ByDriver (m : Machine) (a : MachineAct) : Prop := ∃ b, a = .drv b ∧ NicRecorder.AcceptsWritten m.cap b

theorem Machine.ByDriver.calm {a : MachineAct} (h : m.ByDriver a) : m.Calm a := by
  obtain ⟨b, rfl, ha⟩ := h
  exact ⟨ha, nofun⟩

/-- A run of the driver is a run of the machine. -/
theorem Host.lift {cap : Capture} (hinv : H.config.Inv m.cap.drv) (h : Leads (H.config.capture 0) H.config.NotDry m.cap cap) :
    ∃ mem, Leads H.machine Machine.ByDriver m { m with cap := cap, mem := mem } := by
  obtain ⟨tr, hr, hm⟩ := h
  have hw := (hinv.meets_acceptsWritten hr hm).1
  clear hm
  generalize hcap : m.cap = s at hr
  induction hr with
  | nil =>
    subst hcap
    exact ⟨m.mem, Leads.refl m⟩
  | @snoc t u tr a hr hst ih =>
    obtain ⟨hw, ha⟩ := meets_snoc.mp hw
    obtain ⟨mem, hl⟩ := ih hw
    have hstep : H.machine.step { m with cap := t, mem := mem } (.drv a) _ :=
      Host.Step.drv (m := { m with cap := t, mem := mem }) a hst
    exact ⟨_, hl.trans (Leads.single hstep ⟨a, rfl, ha⟩)⟩

/-- A capture is stopped where every packet has been recorded: the threads end, and the last bucket is flagged. -/
theorem Host.leads_stopped (h : H.config.Lazy m.cap.drv) :
    ∃ d mem, Leads H.machine Machine.ByDriver m { m with cap := { m.cap with drv := d.finished }, mem := mem } ∧
      H.config.Lazy d ∧ m.cap.drv.Refills d ∧ numCaptured (bucketMem mem d.proc.cur) = d.proc.curPartial := by
  obtain ⟨d, hl, hd, href⟩ := h.stop 0
  obtain ⟨mem, hlift⟩ := Host.lift h.inv hl
  let mem₁ := mem.store32 (hdrAt d.proc.cur numCapturedOff) d.proc.curPartial
  let mem₂ := mem₁.store32 (hdrAt d.proc.cur lastOff) 1
  let m₀ : Machine := { m with cap := { m.cap with drv := d.leaving }, mem := mem }
  let m₁ : Machine := { m with cap := { m.cap with drv := d.counted }, mem := mem₁ }
  let m₂ : Machine := { m with cap := { m.cap with drv := d.finished }, mem := mem₂ }
  have hs₁ : H.machine.step m₀ (.drv .proc) m₁ := Host.Step.drv (m := m₀) .proc (Config.Step.proc (H.config.procStep_leaving d))
  have hs₂ : H.machine.step m₁ (.drv .proc) m₂ := Host.Step.drv (m := m₁) .proc (Config.Step.proc (H.config.procStep_counted d))
  have h₁ : Leads H.machine Machine.ByDriver m₀ m₁ := Leads.single hs₁ ⟨.proc, rfl, fun _ hp => by cases hp⟩
  have h₂ : Leads H.machine Machine.ByDriver m₁ m₂ := Leads.single hs₂ ⟨.proc, rfl, fun _ hp => by cases hp⟩
  refine ⟨d, mem₂, hlift.trans (h₁.trans h₂), hd, href, ?_⟩
  have hlt : d.proc.curPartial < 2 ^ 32 := Nat.lt_of_succ_lt hd.inv.curPartial_lt
  have hkeep : mem₂.load32 (hdrAt d.proc.cur numCapturedOff) = mem₁.load32 (hdrAt d.proc.cur numCapturedOff) := by
    refine load32_store_disjoint _ _ _ _ (Or.inl ?_)
    unfold hdrAt numCapturedOff lastOff
    omega
  rw [numCaptured, bucketMem_load32, hkeep, load32_store32_same _ _ _ hlt]

/-- Less than a lap of packets is captured and the capture is stopped: they are in the first bucket, and it is flagged. -/
theorem Host.exists_recorded (H : Host) (ram : Mem) (disk : Disk) {ps : List (List UInt8)} (hps : ∀ p ∈ ps, Deliverable p)
    (hlen : ps.length < H.config.numRxSlots) :
    ∃ d mem, Leads H.machine Machine.ByDriver (H.started ram disk)
        ⟨⟨d.finished, H.config.startVisitor 0, []⟩, mem, fun _ => none, disk, []⟩ ∧
      H.config.Lazy d ∧ d.hist.sent = ps ∧ d.hist.procFill = 0 ∧ numCaptured (bucketMem mem H.config.start1G) = ps.length := by
  let c := H.config
  obtain ⟨d₀, hl₀, h₀, hsent₀⟩ := c.exists_captured 0 (lensOf (c.initAll ram)) (c.initAll ram) hps
  have hfill₀ : d₀.hist.procFill = 0 := by
    refine (Config.fill_of_reached (Config.reached_acceptsWritten (hl₀.reached ⟨_, _, rfl⟩))).resolve_right ?_
    have hcaught := h₀.caught
    rw [hsent₀] at hcaught
    dsimp only
    rw [hcaught]
    exact Nat.not_le.mpr hlen
  obtain ⟨mem₀, hm₀⟩ := Host.lift (H := H) (m := H.started ram disk) (c.inv_start _ _) hl₀
  obtain ⟨d, mem, hl, hd, href, hflag⟩ := Host.leads_stopped (H := H)
    (m := ⟨⟨d₀, c.startVisitor 0, []⟩, mem₀, fun _ => none, disk, []⟩) h₀
  have hsent : d.hist.sent = ps := href.sent.trans hsent₀
  have hfill : d.hist.procFill = 0 := href.fill.trans hfill₀
  obtain ⟨hcur, hpart⟩ := hd.first_fill hfill
  rw [hcur, hpart, hsent] at hflag
  exact ⟨d, mem, hm₀.trans hl, hd, hsent, hfill, hflag⟩

/-- The capture up to the publication of the first bucket: the refill thread has flagged it. -/
theorem Host.exists_published (H : Host) (ram : Mem) (disk : Disk) :
    ∃ d mem, Leads H.machine Machine.ByDriver (H.started ram disk)
        ⟨⟨d, H.config.startVisitor 0, []⟩, mem, fun _ => none, disk, []⟩ ∧
      H.config.Lazy d ∧ d.hist.procFill = 0 ∧ numCaptured (bucketMem mem H.config.start1G) ≠ 0 := by
  let c := H.config
  obtain ⟨tr, d₀, hr, hm, h₀, hpc, hfill, -⟩ := c.exists_first_over 0 shortPacket_deliverable (lensOf (c.initAll ram)) (c.initAll ram)
  obtain ⟨mem, hl⟩ := Host.lift (H := H) (m := H.started ram disk) (c.inv_start _ _) ⟨tr, hr, hm.mono fun _ _ h => h.1⟩
  obtain ⟨d, hs, hd⟩ := h₀.allocStep
  have hstep : H.machine.step ⟨⟨d₀, c.startVisitor 0, []⟩, mem, fun _ => none, disk, []⟩ (.drv .alloc) _ :=
    Host.Step.drv (m := ⟨⟨d₀, c.startVisitor 0, []⟩, mem, fun _ => none, disk, []⟩) .alloc (Config.Step.alloc hs)
  refine ⟨d, _, hl.trans (Leads.single hstep ⟨.alloc, rfl, fun ha => by cases ha⟩), hd, ?_, ?_⟩
  · have hle := h₀.inv.procFill_le
    have href := (Config.allocStep_refills hs).fill
    omega
  · have hcur : d₀.alloc.cur = c.start1G := by
      rw [h₀.inv.wrapped.alloc_cur, hfill, Config.bucketOf, Nat.zero_mod, Nat.add_zero]
    have hstore : c.driverStore d₀ mem .alloc = mem.store32 (hdrAt d₀.alloc.cur numCapturedOff) (c.rowEnd d₀.alloc.supRow) := by
      simp only [Config.driverStore, Config.allocStore, hpc]
    have hlt : c.rowEnd d₀.alloc.supRow < 2 ^ 32 := Nat.mod_lt _ (by decide)
    rw [numCaptured, bucketMem_load32]
    show (c.driverStore d₀ mem .alloc).load32 (hdrAt c.start1G numCapturedOff) ≠ 0
    rw [hstore, ← hcur, load32_store32_same _ _ _ hlt, h₀.inv.rowEnd_eq]
    exact Nat.mul_ne_zero (Nat.succ_ne_zero _) (Nat.pos_iff_ne_zero.mp c.slots_pos)

/-- The capture goes on for a lap, records one packet in the first bucket and is stopped: the bucket is flagged again. -/
theorem Host.leads_lap (h : H.config.Lazy m.cap.drv) (hfill : m.cap.drv.hist.procFill = 0) :
    ∃ d : Driver, ∃ mem, Leads H.machine Machine.ByDriver m { m with cap := { m.cap with drv := d.finished }, mem := mem } ∧
      numCaptured (bucketMem mem H.config.start1G) = 1 := by
  obtain ⟨k, hk⟩ := Nat.exists_eq_succ_of_ne_zero (Nat.pos_iff_ne_zero.mp H.config.numBuckets_pos)
  obtain ⟨d₀, hgo, h₀, hfill₀, hpart⟩ := h.toFill 0 shortPacket_deliverable k
  obtain ⟨mem₀, hl₀⟩ := Host.lift h.inv hgo.leads
  obtain ⟨d, mem, hl, hd, href, hflag⟩ := Host.leads_stopped (H := H) (m := { m with cap := { m.cap with drv := d₀ }, mem := mem₀ }) h₀
  have hcur : d.proc.cur = H.config.start1G := by
    have hlap : d.hist.procFill = H.config.numBuckets := by
      rw [href.fill, hfill₀, hfill, hk, Nat.zero_add]
    rw [hd.inv.wrapped.proc_cur, hlap, Config.bucketOf, Nat.mod_self, Nat.add_zero]
  rw [hcur, href.proc, hpart] at hflag
  exact ⟨d, mem, hl₀.trans hl, hflag⟩

/-- No step of the driver or the adapter stores to the number of slots of a bucket. -/
theorem Host.Placed.slots_kept (hp : H.Placed m) (h : Leads H.machine Machine.ByDriver m m') (b : Nat) :
    m'.mem.load (hdrAt b numRxSlotsOff) 4 = m.mem.load (hdrAt b numRxSlotsOff) 4 := by
  obtain ⟨tr, hr, hm⟩ := h
  refine (hr.invariantUnder
    (I := fun u => H.Placed u ∧ u.mem.load (hdrAt b numRxSlotsOff) 4 = m.mem.load (hdrAt b numRxSlotsOff) 4) ?_ ⟨hp, rfl⟩ hm).2
  rintro s _ t ⟨hs, hkept⟩ ⟨a, rfl, ha⟩ hst
  refine ⟨hs.step (a := .drv a) ha hst, ?_⟩
  cases hst with
  | drv a hst => exact (Config.driverStore_slots hs.inv hs.inside hst s.mem b).trans hkept

/-! ## Visits -/

theorem Machine.setProg_setProg (m : Machine) (pid : Nat) (p q : Program) : (m.setProg pid p).setProg pid q = m.setProg pid q := by
  unfold Machine.setProg
  dsimp only
  rw [Function.update_idem]

theorem Machine.setProg_self (m : Machine) (pid : Nat) (p : Program) : (m.setProg pid p).prog pid = some p :=
  Function.update_self ..

/-- The step is an access of process `pid` of `todisk`. -/
def Machine.ByTodisk (pid : Nat) (m : Machine) (a : MachineAct) : Prop :=
  ∃ n time w, a = .exec pid n time ∧ m.prog pid = some (.todisk w)

theorem Machine.ByTodisk.calm {pid : Nat} {a : MachineAct} (h : m.ByTodisk pid a) : m.Calm a := by
  obtain ⟨n, time, w, rfl, hp⟩ := h
  refine ⟨trivial, ?_⟩
  intro pid' n' time' v he hv
  cases he
  rw [hp] at hv
  cases hv

/-- A step of a process of `todisk`. -/
theorem Host.leads_todisk {pid n time : Nat} {w : Todisk} (hp : m.prog pid = some (.todisk w))
    (hs : H.todiskStep m pid w n time = some m') : Leads H.machine (Machine.ByTodisk pid) m m' := by
  refine Leads.single (Host.Step.exec pid n time ?_) ⟨n, time, w, rfl, hp⟩
  rw [Host.execStep, hp]
  exact hs

/-- A first writer that is started behind the stop finds the first bucket flagged and goes on to its file. -/
theorem Host.leads_found {pid : Nat} (hp : m.prog pid = some (.todisk (H.startTodisk 0))) (hu : m.userStop = true)
    (hc : numCaptured (bucketMem m.mem H.config.start1G) ≠ 0) :
    Leads H.machine (Machine.ByTodisk pid) m
      (m.setProg pid (.todisk { H.startTodisk 0 with pc := .openFile, delayStop := 1 })) := by
  let w1 : Todisk := { H.startTodisk 0 with pc := .poll, delayStop := 1 }
  have hs1 : H.todiskStep m pid (H.startTodisk 0) 0 0 = some (m.setProg pid (.todisk w1)) := by
    simp [Host.todiskStep, Host.startTodisk, Todisk.again0, stopCheck, hu, w1]
  have hs2 : H.todiskStep (m.setProg pid (.todisk w1)) pid w1 0 0 =
      some ((m.setProg pid (.todisk w1)).setProg pid (.todisk { H.startTodisk 0 with pc := .openFile, delayStop := 1 })) := by
    have hc' : numCaptured (bucketMem (m.setProg pid (.todisk w1)).mem w1.cur) ≠ 0 := hc
    simp [Host.todiskStep, w1, hc']
  rw [Machine.setProg_setProg] at hs2
  exact (Host.leads_todisk hp hs1).trans (Host.leads_todisk (m.setProg_self _ _) hs2)

/-- The length block of a bucket is written to a file at once. -/
theorem Host.todiskStep_whole (H : Host) (m : Machine) (pid time : Nat) {w : Todisk} (hpc : w.pc = .copyLens)
    (hz : w.lenDone = 0) :
    ∃ m', H.todiskStep m pid w lenBlockSize time = some m' ∧ m'.cap = m.cap ∧ m'.headed = H.fname w :: m.headed ∧ m'.mem = m.mem ∧
      m'.disk = writeAt m.disk (H.fname w) 0 (m.mem.load (hdrAt w.cur 0) lenBlockSize) := by
  have hlt : w.lenDone < lenBlockSize := by
    rw [hz]
    decide
  have hk : min lenBlockSize (lenBlockSize - w.lenDone) = lenBlockSize := by
    rw [hz, Nat.sub_zero, Nat.min_self]
  have hhead : realSize ≤ w.lenDone + lenBlockSize := by
    rw [hz]
    decide
  simp only [Host.todiskStep, hpc, if_pos hlt, hk, if_pos hhead]
  refine ⟨_, rfl, rfl, rfl, rfl, ?_⟩
  dsimp only
  rw [hz]

/-- The bytes of a file to which the length block of a bucket has been written. -/
theorem written_byte (old : List UInt8) (mem : Mem) (b : Nat) {x : Nat} (hx : x < lenBlockSize) :
    ((OpenFile.mk old 0).write (mem.load (hdrAt b 0) lenBlockSize)).content[x]? = some (mem (hdrAt b x)) := by
  rw [write_getElem?_inside _ _ (Nat.zero_le x) (by rw [Nat.zero_add, load_length]; exact hx), Nat.sub_zero,
    List.getElem?_eq_getElem (by rw [load_length]; exact hx), load_getElem, hdrAt, hdrAt, Nat.add_zero, Nat.add_assoc]

theorem hasHeader_written (old : List UInt8) (mem : Mem) (b : Nat) :
    HasHeader ((OpenFile.mk old 0).write (mem.load (hdrAt b 0) lenBlockSize)).content :=
  (List.getElem?_eq_some_iff.mp (written_byte old mem b (x := 79) (by decide))).1

/-- The words of its header are those of the bucket. -/
theorem readHeader_written (old : List UInt8) (mem : Mem) (b : Nat) (mapping : Mem) {off : Nat} (hoff : off + 4 ≤ realSize) :
    (readHeader mapping ((OpenFile.mk old 0).write (mem.load (hdrAt b 0) lenBlockSize)).content).load32 (lenBlockOff + off) =
      mem.load32 (hdrAt b off) := by
  have hsize : realSize ≤ const1K ∧ realSize ≤ lenBlockSize := by decide
  refine congrArg leNat (load_congr_at fun k hk => ?_)
  obtain ⟨hin, hval⟩ := List.getElem?_eq_some_iff.mp (written_byte old mem b (x := off + k) (by omega))
  rw [Nat.add_assoc, readHeader_byte mapping hin (by omega), hval, hdrAt, hdrAt, Nat.add_assoc, Nat.add_assoc]

/-- A writer that has found a bucket flagged writes the header of its file: the words behind the time are those of the bucket. -/
theorem Host.leads_headed {pid : Nat} {w : Todisk} (hp : m.prog pid = some (.todisk w)) (hpc : w.pc = .openFile) :
    ∃ m' file, Leads H.machine (Machine.ByTodisk pid) m m' ∧ m'.cap = m.cap ∧ m'.headed = H.fname w :: m.headed ∧
      m'.disk (H.fname w) = some file ∧ HasHeader file ∧
      ∀ off, userStampOff + 8 ≤ off → off + 4 ≤ realSize → m'.mem.load32 (hdrAt w.cur off) = m.mem.load32 (hdrAt w.cur off) ∧
        ∀ mapping, (readHeader mapping file).load32 (lenBlockOff + off) = m.mem.load32 (hdrAt w.cur off) := by
  let w1 : Todisk := { w with pc := .stamp, lenDone := 0, dataDone := 0 }
  let m1 : Machine := { m.setProg pid (.todisk w1) with
    disk := Function.update m.disk (H.fname w) (some ((m.disk (H.fname w)).getD [])) }
  let w2 : Todisk := { w1 with pc := .copyLens }
  let m2 : Machine := { m1.setProg pid (.todisk w2) with mem := m.mem.store (hdrAt w.cur userStampOff) (leBytes 8 0) }
  have hs1 : H.todiskStep m pid w 0 0 = some m1 := by
    simp only [Host.todiskStep, hpc, m1, w1]
  have hs2 : H.todiskStep m1 pid w1 0 0 = some m2 := rfl
  have hp1 : m1.prog pid = some (.todisk w1) := m.setProg_self _ _
  have hp2 : m2.prog pid = some (.todisk w2) := m1.setProg_self _ _
  obtain ⟨m3, hs3, hcap, hhead, hmem, hdisk⟩ := H.todiskStep_whole m2 pid 0 (w := w2) rfl rfl
  have hstamp : ∀ off, userStampOff + 8 ≤ off → m2.mem.load32 (hdrAt w.cur off) = m.mem.load32 (hdrAt w.cur off) := by
    intro off hoff
    refine load32_store_disjoint _ _ _ _ (Or.inr ?_)
    rw [leBytes_length]
    unfold hdrAt
    omega
  let file := ((OpenFile.mk ((m2.disk (H.fname w)).getD []) 0).write (m2.mem.load (hdrAt w.cur 0) lenBlockSize)).content
  refine ⟨m3, file, (Host.leads_todisk hp hs1).trans ((Host.leads_todisk hp1 hs2).trans (Host.leads_todisk hp2 hs3)), hcap, hhead, ?_,
    ?_, fun off hlow hhigh => ⟨?_, fun mapping => ?_⟩⟩
  · rw [hdisk]
    exact Function.update_self ..
  · exact hasHeader_written _ m2.mem w.cur
  · rw [hmem]
    exact hstamp off hlow
  · rw [readHeader_written _ _ _ mapping hhigh]
    exact hstamp off hlow

/-- The first writer is started behind the stop, when the first bucket is flagged: it writes the header of the bucket to its file. -/
theorem Host.leads_first_file (pid : Nat) (hnone : m.prog pid = none) (hu : m.userStop = true)
    (hc : numCaptured (bucketMem m.mem H.config.start1G) ≠ 0) :
    ∃ m' file, Leads H.machine Machine.Calm m m' ∧ H.fname (H.startTodisk 0) ∈ m'.headed ∧
      m'.disk (H.fname (H.startTodisk 0)) = some file ∧ HasHeader file ∧
      ∀ off, userStampOff + 8 ≤ off → off + 4 ≤ realSize →
        m'.mem.load32 (hdrAt H.config.start1G off) = m.mem.load32 (hdrAt H.config.start1G off) ∧
          ∀ mapping, (readHeader mapping file).load32 (lenBlockOff + off) = m.mem.load32 (hdrAt H.config.start1G off) := by
  let w : Todisk := { H.startTodisk 0 with pc := .openFile, delayStop := 1 }
  let m1 := m.setProg pid (.todisk (H.startTodisk 0))
  have hstart : Leads H.machine Machine.Calm m m1 :=
    Leads.single (Host.Step.startTodisk pid 0 hnone H.table.writers_pos) ⟨trivial, nofun⟩
  have hfound : Leads H.machine (Machine.ByTodisk pid) m1 (m1.setProg pid (.todisk w)) :=
    Host.leads_found (m.setProg_self _ _) hu hc
  obtain ⟨m', file, hfile, -, hhead, hdisk, hheader, hwords⟩ := Host.leads_headed (H := H) (w := w) (m1.setProg_self _ _) rfl
  refine ⟨m', file, hstart.trans ((hfound.trans hfile).mono fun _ _ h => h.calm), ?_, hdisk, hheader, hwords⟩
  rw [hhead]
  exact List.mem_cons_self

/-- An access of process `pid` of `count_then_discard` that stays at its bucket and clears nothing, with its variables. -/
def Host.DiscardAccess (H : Host) (pid : Nat) (x y : Machine × Discard) : Prop :=
  H.discardStep x.1 pid x.2 = some y.1 ∧ y.1.prog pid = some (.discard y.2) ∧ x.2.pc ≠ .clear ∧ y.2.cur = x.2.cur ∧ y.1.cap = x.1.cap

/-- A process that is started when the first bucket is flagged comes to the clear of its header, with the end mark in its variables. -/
theorem Host.visit_first (m : Machine) (pid : Nat) (hc : numCaptured (bucketMem m.mem H.config.start1G) ≠ 0) :
    ∃ v, Relation.ReflTransGen (H.DiscardAccess pid) (m, H.startDiscard) (m.setProg pid (.discard v), v) ∧ v.pc = .clear ∧
      v.cur = H.config.start1G ∧ v.driverStop = lastWord (bucketMem m.mem H.config.start1G) := by
  let v1 : Discard := { H.startDiscard with pc := .poll, delayStop := if m.userStop then 1 else 0 }
  let v2 : Discard := { v1 with pc := .readCaptured }
  let v3 : Discard := { v2 with
    pc := .readLast, totalPackets := v2.totalPackets + numCaptured (bucketMem m.mem v2.cur) }
  let v4 : Discard := { v3 with pc := .clear, driverStop := lastWord (bucketMem m.mem v3.cur) }
  let at' : Discard → Machine := fun v => m.setProg pid (.discard v)
  have hat : ∀ v, (at' v).prog pid = some (.discard v) := fun v => m.setProg_self _ _
  have hset : ∀ v v', (at' v).setProg pid (.discard v') = at' v' := fun v v' => m.setProg_setProg _ _ _
  have hs1 : H.discardStep m pid H.startDiscard = some (at' v1) := by
    cases hu : m.userStop <;> simp [Host.discardStep, Host.startDiscard, Discard.again0, stopCheck, hu, v1, at']
  have hs2 : H.discardStep (at' v1) pid v1 = some (at' v2) := by
    have hc' : numCaptured (bucketMem (at' v1).mem v1.cur) ≠ 0 := hc
    simp only [Host.discardStep, v1, if_neg hc', hset]
    rfl
  have hs3 : H.discardStep (at' v2) pid v2 = some (at' v3) := by
    simp only [Host.discardStep, v2, hset]
    rfl
  have hs4 : H.discardStep (at' v3) pid v3 = some (at' v4) := by
    simp only [Host.discardStep, v3, hset]
    rfl
  have hrun : Relation.ReflTransGen (H.DiscardAccess pid) (m, H.startDiscard) (at' v4, v4) := by
    refine Relation.ReflTransGen.tail (b := (at' v3, v3)) ?_ ⟨hs4, hat v4, DiscardPc.noConfusion, rfl, rfl⟩
    refine Relation.ReflTransGen.tail (b := (at' v2, v2)) ?_ ⟨hs3, hat v3, DiscardPc.noConfusion, rfl, rfl⟩
    refine Relation.ReflTransGen.tail (b := (at' v1, v1)) ?_ ⟨hs2, hat v2, DiscardPc.noConfusion, rfl, rfl⟩
    exact Relation.ReflTransGen.single ⟨hs1, hat v1, DiscardPc.noConfusion, rfl, rfl⟩
  exact ⟨v4, hrun, rfl, rfl, rfl⟩

/-- The clear, and where the process goes from there. -/
theorem Host.discardStep_last (m : Machine) (pid : Nat) {v : Discard} (hpc : v.pc = .clear) :
    ∃ v', H.discardStep (m.setProg pid (.discard v)) pid v =
        some { m.setProg pid (.discard v') with mem := m.mem.store (hdrAt v.cur 0) (List.replicate realSize 0) } ∧
      v'.driverStop = v.driverStop ∧ v'.pc = if v.driverStop = 0 then .again0 else .exited := by
  simp only [Host.discardStep, hpc, Machine.setProg_setProg]
  exact ⟨_, rfl, rfl, rfl⟩

/-- A step of a process of `count_then_discard`. -/
theorem Host.leads_discard {pid : Nat} {v : Discard} (hp : m.prog pid = some (.discard v))
    (hs : H.discardStep m pid v = some m') : Leads H.machine Machine.AcceptsWritten m m' := by
  refine Leads.single (Host.Step.exec pid 0 0 ?_) trivial
  rw [Host.execStep, hp]
  exact hs

/-- The accesses of a process are a run of the machine. -/
theorem Host.leads_accesses {pid : Nat} {x y : Machine × Discard} (h : Relation.ReflTransGen (H.DiscardAccess pid) x y)
    (hp : x.1.prog pid = some (.discard x.2)) :
    Leads H.machine Machine.AcceptsWritten x.1 y.1 ∧ y.1.prog pid = some (.discard y.2) := by
  induction h with
  | refl => exact ⟨Leads.refl _, hp⟩
  | tail _ hstep ih => exact ⟨ih.1.trans (Host.leads_discard ih.2 hstep.1), hstep.2.1⟩

/-- A process of `count_then_discard` that finds the first bucket flagged clears its header. -/
theorem Host.leads_cleared {pid : Nat} (hp : m.prog pid = some (.discard H.startDiscard))
    (hc : numCaptured (bucketMem m.mem H.config.start1G) ≠ 0) :
    ∃ m', Leads H.machine Machine.AcceptsWritten m m' ∧ m'.cap = m.cap ∧ (∀ q, q ≠ pid → m'.prog q = m.prog q) ∧
      m'.mem = m.mem.store (hdrAt H.config.start1G 0) (List.replicate realSize 0) := by
  obtain ⟨v, hrun, hpc, hcur, -⟩ := H.visit_first m pid hc
  obtain ⟨hleads, hpv⟩ := Host.leads_accesses hrun hp
  obtain ⟨v', hlast, -, -⟩ := H.discardStep_last m pid hpc
  refine ⟨_, hleads.trans (Host.leads_discard hpv hlast), rfl, fun q hq => Function.update_of_ne hq .., ?_⟩
  rw [← hcur]

/-- A host with the shipped configuration and one writer. -/
def Host.shipped : Host := ⟨Config.shipped, ⟨1, fun _ => [], Nat.one_pos⟩, 1, by decide, Nat.one_pos⟩

/-- Three packets are captured, and `todisk` writes their bucket to a file. -/
theorem geometry_iff_visited :
    ∃ s tr t, Host.shipped.machine.init s ∧ Run Host.shipped.machine s tr t ∧ Meets Machine.AcceptsWritten tr ∧
      t.headed ≠ [] ∧ ∀ u ∈ visited tr t, Host.shipped.Geometry u := by
  obtain ⟨d, mem, hl, -, -, -, hc⟩ := Host.shipped.exists_recorded (fun _ => 0) (fun _ => none) threePackets_deliverable (by decide)
  obtain ⟨t, file, hfile, hhead, -⟩ := Host.leads_first_file (H := Host.shipped)
    (m := ⟨⟨d.finished, Config.shipped.startVisitor 0, []⟩, mem, fun _ => none, fun _ => none, []⟩) 0 rfl rfl
    (show numCaptured (bucketMem mem Host.shipped.config.start1G) ≠ 0 by rw [hc]; decide)
  obtain ⟨tr, hr, hm⟩ := (hl.mono fun _ _ h => h.calm).trans hfile
  have hi : Host.shipped.machine.init (Host.shipped.started (fun _ => 0) (fun _ => none)) := ⟨_, _, rfl⟩
  have hw : Meets Machine.AcceptsWritten tr := hm.mono fun _ _ h => h.1
  exact ⟨_, tr, t, hi, hr, hw, List.ne_nil_of_mem hhead, (geometry_iff Host.shipped hi hr hw).mpr (hm.mono fun _ _ h => h.2)⟩

/-- A bucket is filled and published, and `count_then_discard` clears its header. The capture goes on for a lap, records a packet in the
bucket again and is stopped: the bucket has a packet, and names no slots. -/
theorem Host.exists_cleared (H : Host) (ram : Mem) (disk : Disk) :
    ∃ m, Leads H.machine Machine.AcceptsWritten (H.started ram disk) m ∧ m.prog 0 = none ∧ m.userStop = true ∧
      m.mem.load32 (hdrAt H.config.start1G numCapturedOff) = 1 ∧ m.mem.load32 (hdrAt H.config.start1G numRxSlotsOff) = 0 := by
  obtain ⟨d, mem, hl, hd, hfill, hc⟩ := H.exists_published ram disk
  have hdrv : ∀ {m m' : Machine}, Leads H.machine Machine.ByDriver m m' → Leads H.machine Machine.AcceptsWritten m m' := fun h =>
    h.mono fun _ _ h => h.calm.1
  -- the first lap: the bucket is cleared
  let m1 : Machine := ⟨⟨d, H.config.startVisitor 0, []⟩, mem, fun _ => none, disk, []⟩
  let m2 := m1.setProg 1 (.discard H.startDiscard)
  have h2 : Leads H.machine Machine.AcceptsWritten m1 m2 := Leads.single (Host.Step.startDiscard 1 rfl) trivial
  obtain ⟨m3, h3, hcap3, hprog3, hmem3⟩ := Host.leads_cleared (m1.setProg_self 1 (.discard H.startDiscard)) hc
  have h123 := (hdrv hl).trans (h2.trans h3)
  have hplaced : H.Placed m3 :=
    (h123.reached ⟨_, _, rfl⟩).invariant (fun _ h => Host.placed_init h) fun _ _ _ h hw hst => h.step hw hst
  -- the next lap: it is filled and flagged again
  obtain ⟨d', mem', h4, hc'⟩ := Host.leads_lap (H := H) (m := m3) (by rw [hcap3]; exact hd) (by rw [hcap3]; exact hfill)
  have hzero : mem'.load (hdrAt H.config.start1G numRxSlotsOff) 4 = List.replicate 4 0 := by
    rw [← load_slots_clear m2.mem, ← hmem3]
    exact hplaced.slots_kept h4 _
  refine ⟨_, h123.trans (hdrv h4), hprog3 0 (by decide), rfl, ?_, congrArg leNat hzero⟩
  rw [← hc', numCaptured, bucketMem_load32]

/-- A bucket is filled and published, and `count_then_discard` clears its header. The capture goes on for a lap, records a packet in the
bucket again and is stopped, and `todisk` writes the bucket to a file: the file has a packet and names no slots, and the tools are
killed by a division by zero. -/
theorem geometry_false :
    ∃ s tr t, Host.shipped.machine.init s ∧ Run Host.shipped.machine s tr t ∧ Meets Machine.AcceptsWritten tr ∧
      headerSlots (bucketMem t.mem Host.shipped.config.start1G) = 0 ∧
      ∃ name ∈ t.headed, ∃ file, t.disk name = some file ∧ ∀ mapping, numCaptured (readHeader mapping file) = 1 ∧
        (∀ start count,
          Host.shipped.config.dumpPacket (readBlock mapping file) (headerSlots (readHeader mapping file)) start count = none) ∧
        ∀ old count, (Host.shipped.config.toLibpcap Host.shipped.table t.disk mapping old 0 count 1).2 = some .killed := by
  obtain ⟨m, hl, hnone, hstop, hcap, hslot⟩ := Host.shipped.exists_cleared (fun _ => 0) (fun _ => none)
  have hflag : numCaptured (bucketMem m.mem Host.shipped.config.start1G) ≠ 0 := by
    rw [numCaptured, bucketMem_load32, hcap]
    exact Nat.one_ne_zero
  obtain ⟨t, file, hfile, hhead, hdisk, hheader, hwords⟩ := Host.leads_first_file 0 hnone hstop hflag
  obtain ⟨tr, hr, hm⟩ := hl.trans (hfile.mono fun _ _ h => h.1)
  obtain ⟨hbucket, hzero⟩ := hwords numRxSlotsOff (by decide) (by decide)
  obtain ⟨-, hone⟩ := hwords numCapturedOff (by decide) (by decide)
  have hcount : ∀ mapping, numCaptured (readHeader mapping file) = 1 := fun mapping => (hone mapping).trans hcap
  have hslots : ∀ mapping, headerSlots (readHeader mapping file) = 0 := fun mapping => (hzero mapping).trans hslot
  refine ⟨_, tr, t, ⟨_, _, rfl⟩, hr, hm, ?_, _, hhead, file, hdisk, fun mapping => ⟨hcount mapping, fun start count => ?_,
    fun old count => ?_⟩⟩
  · rw [headerSlots, bucketMem_load32]
    exact hbucket.trans hslot
  · rw [Config.dumpPacket, if_pos (hslots mapping)]
  · obtain ⟨hfirst, hnames⟩ := hheader.first_read mapping
    rw [Config.toLibpcap, Config.mainLoop, Loop.run_one, Config.pass_killed (f := 0) _ _ rfl hdisk hheader]
    · show 0 < numCaptured (imageOf file)
      rw [← hfirst, hcount mapping]
      exact Nat.one_pos
    · rw [← hnames, hslots mapping]

end NicRecorder
