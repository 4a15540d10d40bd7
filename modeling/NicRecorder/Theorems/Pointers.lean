import NicRecorder.Lemmas.Mapping

/-!
# Processes with pointers

The processes of `Machine` name the physical memory; those with pointers reach it through their mappings. Since a pointer is the
address that is named, a call or an access of a process with pointers is an access of the process of `Machine`, or none: what holds of
the programs in `Machine` holds of them with their mappings. `Machine` has no bytes for the shared page, but a board.
-/

namespace NicRecorder

open ByteMem AddrSpace Runs

/-- A machine has the memory of a process: the bytes outside of the shared page, of which it has the stop on its board. -/
structure Host.Shows (H : Host) (m : Machine) (mem : Mem) : Prop where
  bytes : ∀ a, ¬H.config.globalRegion.Has a → m.mem a = mem a
  stop : m.userStop = decide (mem (H.config.globalAddr + userIssueStopOff) ≠ 0)

/-- The machine after a process has gone on to `q`, with the memory and the files after it. -/
structure Host.Goes (H : Host) (m : Machine) (pid : Nat) (q : Program) (mem' : Mem) (files : Disk) (m' : Machine) : Prop where
  prog : m'.prog = Function.update m.prog pid (some q)
  shows : H.Shows m' mem'
  disk : m'.disk = files

section Shows

theorem Config.globalRegion_stopByte (c : Config) : c.globalRegion.Has (c.globalAddr + userIssueStopOff) :=
  ⟨Nat.le_add_right _ _, Nat.add_lt_add_left (show userIssueStopOff < 4096 by decide) _⟩

variable {H : Host} {m m' : Machine} {mem : Mem} {b off n : Nat}

theorem Host.Shows.stop_eq (hs : H.Shows m mem) :
    m.userStop = decide (leNat (mem.load (H.config.globalAddr + userIssueStopOff) 1) ≠ 0) := by
  rw [hs.stop]
  refine decide_eq_decide.mpr (not_congr ?_)
  generalize H.config.globalAddr + userIssueStopOff = a
  have hle : leNat (mem.load a 1) = (mem a).toNat := by simp [Mem.load, leNat]
  rw [hle]
  exact (UInt8.toNat_inj (b := 0)).symm

/-- Apart from the shared page, a machine loads what the process loads. -/
theorem Host.Shows.load (hs : H.Shows m mem) {r : Region} (hr : r.Disjoint H.config.globalRegion) :
    m.mem.load r.start r.len = mem.load r.start r.len :=
  load_congr fun x h1 h2 => hs.bytes x (hr.not_has ⟨h1, h2⟩)

/-- A store of a process and of the machine, apart from the shared page. -/
theorem Host.Shows.store (hs : H.Shows m mem) {a : Nat} {bs : List UInt8}
    (hr : Region.Disjoint ⟨a, bs.length⟩ H.config.globalRegion) (hmem : m'.mem = m.mem.store a bs)
    (hcap : m'.cap = m.cap) : H.Shows m' (mem.store a bs) := by
  refine ⟨fun x hx => ?_, ?_⟩
  · rw [hmem, Mem.store, Mem.store, hs.bytes x hx]
  · rw [Machine.userStop, hcap, ← Machine.userStop, hs.stop, store_outside _ _ _ _ ?_]
    have hnot := hr.symm.not_has H.config.globalRegion_stopByte
    simp only [Region.Has, Region.stop] at hnot
    omega

/-- The length block lies apart from the shared page. -/
theorem hdr_apart (hb : H.config.IsBucket b) (hoff : off + n ≤ lenBlockSize) :
    Region.Disjoint ⟨hdrAt b off, n⟩ H.config.globalRegion := by
  refine (lensRegion_inside hb).2.symm.of_within ?_
  rw [hdrAt, ← Nat.add_assoc]
  exact Region.within_add hoff

/-- What a process finds in the length block, the machine finds there. -/
theorem Host.Shows.load_hdr (hs : H.Shows m mem) (hb : H.config.IsBucket b) (hoff : off + n ≤ lenBlockSize) :
    m.mem.load (hdrAt b off) n = mem.load (hdrAt b off) n :=
  hs.load (r := ⟨hdrAt b off, n⟩) (hdr_apart hb hoff)

theorem Host.Shows.load32_hdr (hs : H.Shows m mem) (hb : H.config.IsBucket b) (hoff : off + 4 ≤ lenBlockSize) :
    (bucketMem m.mem b).load32 (lenBlockOff + off) = leNat (mem.load (hdrAt b off) 4) := by
  rw [bucketMem_load32, Mem.load32, hs.load_hdr hb hoff]

theorem Host.Shows.numCaptured_eq (hs : H.Shows m mem) (hb : H.config.IsBucket b) :
    numCaptured (bucketMem m.mem b) = leNat (mem.load (hdrAt b numCapturedOff) 4) :=
  hs.load32_hdr hb (by decide)

theorem Host.Shows.lastWord_eq (hs : H.Shows m mem) (hb : H.config.IsBucket b) :
    lastWord (bucketMem m.mem b) = leNat (mem.load (hdrAt b lastOff) 4) :=
  hs.load32_hdr hb (by decide)

/-- An access that loads. -/
theorem Host.Shows.goes (hs : H.Shows m mem) (pid : Nat) (q : Program) : H.Goes m pid q mem m.disk (m.setProg pid q) :=
  ⟨rfl, ⟨hs.bytes, hs.stop⟩, rfl⟩

/-- An access that writes to a file. -/
theorem Host.Shows.goes_write (hs : H.Shows m mem) (pid : Nat) (q : Program) (files : Disk) (headed : List (List Char)) :
    H.Goes m pid q mem files { m.setProg pid q with disk := files, headed := headed } :=
  ⟨rfl, ⟨hs.bytes, hs.stop⟩, rfl⟩

/-- An access that stores to the length block. -/
theorem Host.Shows.goes_store (hs : H.Shows m mem) (pid : Nat) (q : Program) (hb : H.config.IsBucket b) {bs : List UInt8}
    (hoff : off + bs.length ≤ lenBlockSize) :
    H.Goes m pid q (mem.store (hdrAt b off) bs) m.disk { m.setProg pid q with mem := m.mem.store (hdrAt b off) bs } :=
  ⟨rfl, hs.store (hdr_apart hb hoff) rfl rfl, rfl⟩

/-- The stop is issued. -/
theorem Host.Shows.goes_stop (hs : H.Shows m mem) (pid : Nat) (q : Program) :
    H.Goes m pid q (mem.store (H.config.globalAddr + userIssueStopOff) [1]) m.disk (m.setProg pid q).raiseStop := by
  have hhas := H.config.globalRegion_stopByte
  refine ⟨rfl, ⟨fun x hx => ?_, ?_⟩, rfl⟩
  · have hne : x ≠ H.config.globalAddr + userIssueStopOff := fun he => hx (he ▸ hhas)
    refine (hs.bytes x hx).trans (store_outside mem _ [1] x ?_).symm
    exact Nat.lt_or_gt_of_ne hne
  · have hbyte := store_inside mem (H.config.globalAddr + userIssueStopOff) [1] 0 Nat.one_pos
    rw [Nat.add_zero] at hbyte
    rw [hbyte]
    rfl

end Shows

/-- Process `pid` of the machine is the process with pointers: `prog` is what it is without them. -/
structure Host.Has {σ : Type} (H : Host) (pid : Nat) (Ok : σ → Prop) (own : σ → List Region) (prog : σ → Program) (w : World σ)
    (m : Machine) : Prop where
  sound : AddrSpace.Sound mmapMem H.config.window Ok own w
  shows : H.Shows m w.mem
  prog : m.prog pid = some (prog w.proc)

/-- If every call and access is matched by one of the machine or by none, a run of them is matched by a run of the machine. -/
theorem Host.run_matched {σ ι : Type} {H : Host} {C : Client σ ι} {s : σ} {pid : Nat} {Ok : σ → Prop} {own : σ → List Region}
    {prog : σ → Program} {w w' : World σ} {m : Machine} {tr : List (World σ × AddrSpace.Act ι)}
    (hrun : Run (C.system mmapMem pageSize H.config.window s) w tr w') (hcalls : Meets (fun _ act => act ≠ .env) tr)
    (h : H.Has pid Ok own prog w m)
    (hmatch : ∀ {w w' i m}, H.Has pid Ok own prog w m → AddrSpace.Step C mmapMem pageSize H.config.window w (.call i) w' →
      ∃ m', H.Has pid Ok own prog w' m' ∧ (m' = m ∨ ∃ n time, H.Step m (.exec pid n time) m')) :
    ∃ tr' m', Run H.machine m tr' m' ∧ H.Has pid Ok own prog w' m' := by
  refine hrun.matched (fun w act w' m h hcall hstep => ?_) hcalls h
  cases act with
  | env => exact absurd rfl hcall
  | call i =>
    obtain ⟨m', h', hgo⟩ := hmatch h hstep
    rcases hgo with rfl | ⟨n, time, hexec⟩
    · exact ⟨[], m', Run.nil m', h'⟩
    · exact ⟨_, m', Run.single hexec, h'⟩

/-! ## `todisk` -/

/-- A process of `Machine` goes from `w` to `w'`, with the memory and the files, by an access or without one. -/
def Host.Matched (H : Host) (ch : Choice) (w w' : Todisk) (mem mem' : Mem) (files : Disk → Disk) : Prop :=
  (w' = w ∧ mem' = mem ∧ ∀ disk, files disk = disk) ∨
    ∀ m pid, H.Shows m mem → ∃ n m', H.todiskStep m pid w n ch.time = some m' ∧ H.Goes m pid (.todisk w') mem' (files m.disk) m'

section Todisk

variable {H : Host} {p : MappedTodisk} {ch : Choice} {bytes : List UInt8} {mem mem' : Mem} {w w' : World MappedTodisk}

/-- The copy of the length block. -/
theorem Host.TodiskOk.copyLens_goes (h : H.TodiskOk p) (hp : p.phase = .access) (hpc : p.w.pc = .copyLens)
    (hphys : (p.access ch).Physical (hdrAt p.w.cur p.w.lenDone) mem mem' bytes) :
    H.Matched ch p.w (H.todiskAccess p ch bytes).w mem mem' (H.todiskFiles p ch bytes) := by
  unfold MappedTodisk.access at hphys
  simp only [hpc] at hphys
  simp only [Host.Matched, Host.todiskAccess, Host.todiskFiles, Host.todiskStep, hp, hpc]
  by_cases hlt : p.w.lenDone < lenBlockSize
  · simp only [hlt, if_true] at hphys ⊢
    obtain ⟨rfl, rfl⟩ := hphys
    refine Or.inr fun m pid hs => ⟨ch.n, _, rfl, ?_⟩
    rw [load_length, hs.load_hdr h.bucket (by omega)]
    exact hs.goes_write pid _ _ _
  · simp only [hlt, if_false] at hphys ⊢
    subst hphys
    exact Or.inr fun m pid hs => ⟨0, _, rfl, hs.goes pid _⟩

/-- A block of packets lies apart from the shared page, and before the length block. -/
theorem Host.TodiskOk.piece (h : H.TodiskOk p) (hp : p.phase = .access) (hpc : p.w.pc = .copyData) (hi : p.i < 31)
    (hblock : p.blockDone < dataBlockSize) (n : Nat) :
    p.w.dataDone + min n (dataBlockSize - p.blockDone) ≤ lenBlockOff ∧ p.w.dataDone < lenBlockOff ∧
      Region.Disjoint ⟨p.w.cur * 2 ^ 30 + p.w.dataDone, min n (dataBlockSize - p.blockDone)⟩ H.config.globalRegion := by
  have hheld : p.held = .data := by simp [MappedTodisk.held, hp, hpc, TodiskPc.onLens, hi]
  obtain ⟨-, -, hlo, -⟩ := h.data hheld
  have hdone : p.blockDone = p.w.dataDone - p.i * dataBlockSize := rfl
  have hsize : dataBlockSize = 33554432 := rfl
  have hoff : lenBlockOff = 1040187392 := rfl
  rw [hsize] at hdone hlo hblock ⊢
  rw [hoff]
  have hle : p.w.dataDone + min n (33554432 - p.blockDone) ≤ 1040187392 := by omega
  have hend : p.w.cur * 2 ^ 30 + p.w.dataDone + min n (33554432 - p.blockDone) ≤ (p.w.cur + 1) * 2 ^ 30 - 4096 := by
    rw [Nat.add_assoc, Nat.succ_mul]
    generalize p.w.cur * 2 ^ 30 = start
    omega
  exact ⟨hle, by omega, (h.bucket.inside (r := ⟨_, _⟩) (Nat.le_add_right _ _) hend).2⟩

/-- The copy of the packets, block by block, is a copy of all of them in pieces. -/
theorem Host.TodiskOk.copyData_goes (h : H.TodiskOk p) (hp : p.phase = .access) (hpc : p.w.pc = .copyData)
    (hphys : (p.access ch).Physical (p.w.cur * 2 ^ 30 + p.w.dataDone) mem mem' bytes) :
    H.Matched ch p.w (H.todiskAccess p ch bytes).w mem mem' (H.todiskFiles p ch bytes) := by
  unfold MappedTodisk.access at hphys
  simp only [hpc] at hphys
  simp only [Host.Matched, Host.todiskAccess, Host.todiskFiles, Host.todiskStep, hp, hpc]
  by_cases hi : p.i < 31
  · by_cases hblock : p.blockDone < dataBlockSize
    · obtain ⟨hle, hlt, hapart⟩ := h.piece hp hpc hi hblock ch.n
      rw [if_pos ⟨hi, hblock⟩] at hphys
      obtain ⟨rfl, rfl⟩ := hphys
      -- the piece that is copied at once ends with the block
      refine Or.inr fun m pid hs => ⟨min ch.n (dataBlockSize - p.blockDone), ?_⟩
      rw [if_pos hlt, Nat.min_eq_left (Nat.le_sub_of_add_le' hle), if_pos hi, if_pos hblock, if_pos ⟨hi, hblock⟩, load_length]
      refine ⟨_, rfl, ?_⟩
      rw [hs.load (r := ⟨_, _⟩) hapart]
      exact hs.goes_write pid _ _ _
    · rw [if_neg fun hb => hblock hb.2] at hphys
      refine Or.inl ⟨?_, hphys, fun _ => if_neg fun hb => hblock hb.2⟩
      rw [if_pos hi, if_neg hblock]
  · rw [if_neg fun hb => hi hb.1] at hphys
    have hstage := h.stage
    simp only [MappedTodisk.Stage, hp, hpc, forall_const] at hstage
    have hall : p.w.dataDone = lenBlockOff := (hstage.2.2.2.1 hi).1
    refine Or.inr fun m pid hs => ⟨0, ?_⟩
    rw [if_neg (Nat.not_lt.mpr (Nat.le_of_eq hall.symm)), if_neg hi, if_neg fun hb => hi hb.1, show mem' = mem from hphys]
    exact ⟨_, rfl, hs.goes pid _⟩

/-- An access of a process is that of `Machine`, or none. -/
theorem Host.TodiskOk.access_goes (h : H.TodiskOk p) (hp : p.phase = .access)
    (hphys : (p.access ch).Physical (H.todiskNamed p) mem mem' bytes) :
    H.Matched ch p.w (H.todiskAccess p ch bytes).w mem mem' (H.todiskFiles p ch bytes) := by
  have hphase : p.phase ≠ .waitMagic := by
    rw [hp]
    decide
  rw [Host.todiskNamed, if_neg hphase] at hphys
  by_cases hlens : p.w.pc = .copyLens
  · rw [hlens] at hphys
    exact h.copyLens_goes hp hlens hphys
  by_cases hdata : p.w.pc = .copyData
  · rw [hdata] at hphys
    exact h.copyData_goes hp hdata hphys
  unfold MappedTodisk.access at hphys
  cases hpc : p.w.pc <;> simp only [hpc] at hphys <;> simp only [Host.Matched, Host.todiskAccess, Host.todiskFiles, Host.todiskStep, hp, hpc]
  case again0 =>
    obtain ⟨rfl, rfl⟩ := hphys
    refine Or.inr fun m pid hs => ⟨0, _, rfl, ?_⟩
    rw [← hs.stop_eq]
    exact hs.goes pid _
  case poll =>
    obtain ⟨rfl, rfl⟩ := hphys
    refine Or.inr fun m pid hs => ?_
    rw [hs.numCaptured_eq h.bucket]
    split
    · exact ⟨0, _, rfl, hs.goes pid _⟩
    · exact ⟨0, _, rfl, hs.goes pid _⟩
  case pollStop =>
    obtain ⟨rfl, rfl⟩ := hphys
    refine Or.inr fun m pid hs => ⟨0, _, rfl, ?_⟩
    simp only [hs.stop_eq, decide_eq_true_eq]
    split
    · exact hs.goes pid _
    · exact hs.goes pid _
  case raiseStop =>
    subst hphys
    exact Or.inr fun m pid hs => ⟨0, _, rfl, hs.goes_stop pid _⟩
  case markStalled =>
    subst hphys
    exact Or.inr fun m pid hs => ⟨0, _, rfl, hs.goes_store pid _ h.bucket (by decide)⟩
  case openFile =>
    subst hphys
    by_cases hopen : ch.opens = true
    · simp only [hopen, if_true]
      exact Or.inr fun m pid hs => ⟨0, _, rfl, hs.goes_write pid _ _ _⟩
    · rw [if_neg hopen]
      exact Or.inl ⟨rfl, rfl, fun _ => if_neg hopen⟩
  case stamp =>
    subst hphys
    exact Or.inr fun m pid hs => ⟨0, _, rfl, hs.goes_store pid _ h.bucket (by rw [leBytes_length]; decide)⟩
  case copyLens => exact absurd hpc hlens
  case readLast =>
    obtain ⟨rfl, rfl⟩ := hphys
    refine Or.inr fun m pid hs => ⟨0, _, rfl, ?_⟩
    rw [hs.lastWord_eq h.bucket]
    exact hs.goes pid _
  case reset =>
    subst hphys
    exact Or.inr fun m pid hs => ⟨0, _, rfl, hs.goes_store pid _ h.bucket (by decide)⟩
  case copyData => exact absurd hpc hdata
  case close =>
    subst hphys
    exact Or.inr fun m pid hs => ⟨0, _, rfl, hs.goes pid _⟩
  case exited => exact Or.inl ⟨trivial, hphys, fun _ => trivial⟩

/-- A call or an access is that of `Machine`, or none, in its variables, the memory and the files. -/
theorem Host.TodiskOk.goes (h : H.TodiskOk p) {reply : Reply}
    (hphys : (H.todiskOp p ch).Physical (H.todiskNamed p) mem mem' reply.bytes) :
    H.Matched ch p.w (H.todiskNext p ch reply).w mem mem' (H.todiskFiles p ch reply.bytes) := by
  cases hp : p.phase
  case access =>
    rw [Host.todiskOp, hp] at hphys
    rw [Host.todiskNext, hp]
    exact h.access_goes hp hphys
  all_goals
    refine Or.inl ?_
    rw [Host.todiskOp, hp] at hphys
    simp only [Host.todiskNext, Host.todiskFiles, hp]
  case waitMagic =>
    refine ⟨?_, hphys.2, fun _ => trivial⟩
    split <;> rfl
  all_goals exact ⟨trivial, hphys, fun _ => trivial⟩

/-- Every call and access of a process with pointers is matched by an access of the process of `Machine`, or by none; and what is
written to the files is what the process loads. -/
theorem Host.todisk_step_matched {pid : Nat} {m : Machine} (h : H.Has pid H.TodiskOk MappedTodisk.own (.todisk ·.w) w m)
    (hstep : AddrSpace.Step H.todiskClient mmapMem pageSize H.config.window w (.call ch) w') :
    ∃ m', H.Has pid H.TodiskOk MappedTodisk.own (.todisk ·.w) w' m' ∧ (m' = m ∨ ∃ n, H.Step m (.exec pid n ch.time) m') ∧
      ∃ reply, w'.proc = H.todiskNext w.proc ch reply ∧ m'.disk = H.todiskFiles w.proc ch reply.bytes m.disk := by
  have hsound := H.todisk_keepsBooks.sound_step h.sound hstep
  obtain ⟨reply, hproc, -, hphys⟩ := (H.todisk_safe h.sound ch).physical hstep
  have hproc : w'.proc = H.todiskNext w.proc ch reply := hproc
  rcases h.sound.ok.goes hphys with ⟨hw, hmem, hfiles⟩ | hgoes
  · refine ⟨m, ⟨hsound, hmem ▸ h.shows, ?_⟩, Or.inl rfl, reply, hproc, (hfiles m.disk).symm⟩
    rw [hproc, hw]
    exact h.prog
  · obtain ⟨n, m', hstep', hm'⟩ := hgoes m pid h.shows
    have hexec : H.execStep m pid n ch.time = some m' := by
      rw [Host.execStep, h.prog]
      exact hstep'
    refine ⟨m', ⟨hsound, hm'.shows, ?_⟩, Or.inr ⟨n, .exec pid n ch.time hexec⟩, reply, hproc, hm'.disk⟩
    rw [hm'.prog, Function.update_self, hproc]

/-- Between two steps of its surroundings, a run of a process with pointers is one of the process of `Machine`. -/
theorem Host.todisk_run_matched {id pid : Nat} (hid : id < H.table.numWriters) (hw : Reached (H.mappedTodisk id) (fun _ _ => True) w)
    {tr : List (World MappedTodisk × AddrSpace.Act Choice)} (hrun : Run (H.mappedTodisk id) w tr w')
    (hcalls : Meets (fun _ act => act ≠ .env) tr) {m : Machine} (hs : H.Shows m w.mem)
    (hprog : m.prog pid = some (.todisk w.proc.w)) :
    ∃ tr' m', Run H.machine m tr' m' ∧ H.Shows m' w'.mem ∧ m'.prog pid = some (.todisk w'.proc.w) := by
  have h : H.Has pid H.TodiskOk MappedTodisk.own (.todisk ·.w) w m := ⟨H.todisk_sound hid hw, hs, hprog⟩
  obtain ⟨tr', m', hm, h'⟩ := Host.run_matched hrun hcalls h fun h hstep => by
    obtain ⟨m', h', hgo, -⟩ := Host.todisk_step_matched h hstep
    rcases hgo with heq | ⟨n, hexec⟩
    · exact ⟨m', h', Or.inl heq⟩
    · exact ⟨m', h', Or.inr ⟨n, _, hexec⟩⟩
  exact ⟨tr', m', hm, h'.shows, h'.prog⟩

end Todisk

/-! ## `count_then_discard` -/

section Discard

variable {H : Host} {p : MappedDiscard} {bytes : List UInt8} {mem mem' : Mem} {w w' : World MappedDiscard}

/-- An access of a process is that of `Machine`. -/
theorem Host.DiscardOk.access_goes (h : H.DiscardOk p) (hp : p.phase = .access)
    (hphys : p.access.Physical (H.discardNamed p) mem mem' bytes) {m : Machine} (pid : Nat) (hs : H.Shows m mem) :
    ∃ m', H.discardStep m pid p.v = some m' ∧ H.Goes m pid (.discard (H.discardAccess p bytes).v) mem' m.disk m' := by
  have hphase : p.phase ≠ .waitMagic := by
    rw [hp]
    decide
  rw [Host.discardNamed, if_neg hphase] at hphys
  unfold MappedDiscard.access at hphys
  cases hpc : p.v.pc <;> simp only [hpc] at hphys <;> simp only [Host.discardAccess, Host.discardStep, hpc]
  case again0 =>
    obtain ⟨rfl, rfl⟩ := hphys
    refine ⟨_, rfl, ?_⟩
    rw [← hs.stop_eq]
    exact hs.goes pid _
  case poll =>
    obtain ⟨rfl, rfl⟩ := hphys
    rw [hs.numCaptured_eq h.bucket]
    split
    · exact ⟨_, rfl, hs.goes pid _⟩
    · exact ⟨_, rfl, hs.goes pid _⟩
  case pollStop =>
    obtain ⟨rfl, rfl⟩ := hphys
    refine ⟨_, rfl, ?_⟩
    simp only [hs.stop_eq, decide_eq_true_eq]
    split
    · exact hs.goes pid _
    · exact hs.goes pid _
  case readCaptured =>
    obtain ⟨rfl, rfl⟩ := hphys
    refine ⟨_, rfl, ?_⟩
    rw [hs.numCaptured_eq h.bucket]
    exact hs.goes pid _
  case readLast =>
    obtain ⟨rfl, rfl⟩ := hphys
    refine ⟨_, rfl, ?_⟩
    rw [hs.lastWord_eq h.bucket]
    exact hs.goes pid _
  case clear =>
    subst hphys
    exact ⟨_, rfl, hs.goes_store pid _ h.bucket (by rw [List.length_replicate]; decide)⟩
  case exited =>
    have hstage := h.stage
    simp only [MappedDiscard.Stage, hp] at hstage
    exact absurd hpc hstage

theorem Host.DiscardOk.goes (h : H.DiscardOk p) {reply : Reply}
    (hphys : (H.discardOp p).Physical (H.discardNamed p) mem mem' reply.bytes) :
    ((H.discardNext p reply).v = p.v ∧ mem' = mem) ∨ ∀ m pid, H.Shows m mem →
      ∃ m', H.discardStep m pid p.v = some m' ∧ H.Goes m pid (.discard (H.discardNext p reply).v) mem' m.disk m' := by
  cases hp : p.phase <;> rw [Host.discardOp, hp] at hphys <;> rw [Host.discardNext, hp]
  case access => exact Or.inr fun m pid hs => h.access_goes hp hphys pid hs
  case waitMagic =>
    refine Or.inl ⟨?_, hphys.2⟩
    dsimp only
    split <;> rfl
  all_goals exact Or.inl ⟨rfl, hphys⟩

/-- Every call and access of a process with pointers is matched by an access of the process of `Machine`, or by none. -/
theorem Host.discard_step_matched {pid : Nat} {m : Machine} (h : H.Has pid H.DiscardOk MappedDiscard.own (.discard ·.v) w m)
    (hstep : AddrSpace.Step H.discardClient mmapMem pageSize H.config.window w (.call ()) w') (time : Nat) :
    ∃ m', H.Has pid H.DiscardOk MappedDiscard.own (.discard ·.v) w' m' ∧ (m' = m ∨ H.Step m (.exec pid 0 time) m') ∧
      m'.disk = m.disk := by
  have hsound := H.discard_keepsBooks.sound_step h.sound hstep
  obtain ⟨reply, hproc, -, hphys⟩ := Op.Safe.physical (C := H.discardClient) (H.discard_safe h.sound) hstep
  have hproc : w'.proc = H.discardNext w.proc reply := hproc
  rcases h.sound.ok.goes hphys with ⟨hv, hmem⟩ | hgoes
  · refine ⟨m, ⟨hsound, hmem ▸ h.shows, ?_⟩, Or.inl rfl, rfl⟩
    rw [hproc, hv]
    exact h.prog
  · obtain ⟨m', hstep', hm'⟩ := hgoes m pid h.shows
    have hexec : H.execStep m pid 0 time = some m' := by
      rw [Host.execStep, h.prog]
      exact hstep'
    refine ⟨m', ⟨hsound, hm'.shows, ?_⟩, Or.inr (.exec pid 0 time hexec), hm'.disk⟩
    rw [hm'.prog, Function.update_self, hproc]

/-- Between two steps of its surroundings, a run of a process with pointers is one of the process of `Machine`. -/
theorem Host.discard_run_matched {pid : Nat} (hw : Reached H.mappedDiscard (fun _ _ => True) w)
    {tr : List (World MappedDiscard × AddrSpace.Act Unit)} (hrun : Run H.mappedDiscard w tr w')
    (hcalls : Meets (fun _ act => act ≠ .env) tr) {m : Machine} (hs : H.Shows m w.mem)
    (hprog : m.prog pid = some (.discard w.proc.v)) :
    ∃ tr' m', Run H.machine m tr' m' ∧ H.Shows m' w'.mem ∧ m'.prog pid = some (.discard w'.proc.v) := by
  have h : H.Has pid H.DiscardOk MappedDiscard.own (.discard ·.v) w m := ⟨H.discard_sound hw, hs, hprog⟩
  obtain ⟨tr', m', hm, h'⟩ := Host.run_matched hrun hcalls h fun h hstep => by
    obtain ⟨m', h', hgo, -⟩ := Host.discard_step_matched h hstep 0
    exact ⟨m', h', hgo.imp_right fun hexec => ⟨0, 0, hexec⟩⟩
  exact ⟨tr', m', hm, h'.shows, h'.prog⟩

end Discard

end NicRecorder
