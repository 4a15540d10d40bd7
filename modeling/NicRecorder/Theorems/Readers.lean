import NicRecorder.Readers
import NicRecorder.Theorems.Counting

/-!
# The tools and the memory that they read to

A tool that nobody disturbs computes what it would compute alone: whatever else goes on in the machine, as long as it leaves the first
bucket and the files alone (`tool_undisturbed`). The steps of a tool are related to the passes of the sequential tool by `Loop.MakesUp`.

Nothing keeps the others away. Two tools at once mix up their files (`block_info_mixed`), and a tool that is run before the writers are
started leaves the first bucket flagged, which ends the recording before it has begun (`tool_ends_recording`).
-/

namespace NicRecorder

open ByteMem Runs

/-! ## The mapping -/

@[simp] theorem Machine.withMem_mem (m : Machine) (mem : Mem) : (m.withMem mem).mem = mem := rfl

@[simp] theorem Machine.withMem_cap (m : Machine) (mem : Mem) : (m.withMem mem).cap = m.cap := rfl

@[simp] theorem Machine.withMem_disk (m : Machine) (mem : Mem) : (m.withMem mem).disk = m.disk := rfl

@[simp] theorem Machine.withMem_prog (m : Machine) (mem : Mem) : (m.withMem mem).prog = m.prog := rfl

/-- A read to the mapping, as the process sees it. -/
theorem Config.mappedBucket_store (c : Config) (m : Mem) {off : Nat} {bs : List UInt8} (h : off + bs.length ≤ 2 ^ 30) :
    c.mappedBucket (m.store (c.start1G * 2 ^ 30 + off) bs) = (c.mappedBucket m).store off bs := by
  funext x
  by_cases hx : off ≤ x ∧ x < off + bs.length
  · obtain ⟨k, rfl⟩ := Nat.exists_eq_add_of_le hx.1
    have hk : k < bs.length := by omega
    rw [Config.mappedBucket, if_pos (by omega), ← Nat.add_assoc, store_inside _ _ _ k hk, store_inside _ _ _ k hk]
  · rw [store_outside _ _ _ _ (by omega), Config.mappedBucket, Config.mappedBucket]
    split_ifs
    · rw [store_outside _ _ _ _ (by omega)]
    · rfl

/-- A word of the header, as the process sees it. -/
theorem Config.mappedBucket_word (c : Config) (m : Mem) {off : Nat} (hoff : off + 4 ≤ realSize) :
    (c.mappedBucket m).load32 (lenBlockOff + off) = wordOf off m c.start1G := by
  have hbig : lenBlockOff + realSize ≤ 2 ^ 30 := by decide
  have hload : (c.mappedBucket m).load (lenBlockOff + off) 4 = m.load (hdrAt c.start1G off) 4 := by
    refine load_congr_at fun k hk => ?_
    rw [Config.mappedBucket, if_pos (by omega), hdrAt, Nat.add_assoc, Nat.add_assoc, Nat.add_assoc]
  rw [wordOf, Mem.load32, Mem.load32, hload]

section Alone

variable {c : Config} {T : Table} {disk : Disk}

/-- What is read goes to the mapping. -/
theorem Config.toolStep_within {img : Mem} {p q : ToolProcess} {off : Nat} {bs : List UInt8}
    (h : c.toolStep T disk img p = some (q, off, bs)) : off + bs.length ≤ 2 ^ 30 := by
  have hread : ∀ (f : OpenFile) (n : Nat), (f.read n).1.length ≤ n := fun f n => by
    rw [OpenFile.read, List.length_take]
    omega
  unfold Config.toolStep at h
  cases hpc : p.pc <;> rw [hpc] at h <;> dsimp only at h
  case openFile => split at h <;> cases h <;> decide
  case readHeader =>
    cases h
    have := hread (p.file disk) const1K
    unfold lenBlockOff const1M const1K at *
    omega
  case readLens =>
    cases h
    have := hread (p.file disk) lenBlockSize
    unfold lenBlockOff const1M lenBlockSize at *
    omega
  case readData =>
    cases h
    have := hread (p.file disk) (992 * const1M)
    unfold const1M at *
    omega
  case ended => cases h
  all_goals cases h; decide

/-! ## A tool that is alone -/

/-- The next step of a tool that is alone with its mapping. -/
def Config.ownStep (c : Config) (T : Table) (disk : Disk) (s : ToolProcess × Mem) : Option (ToolProcess × Mem) :=
  (c.toolStep T disk s.2 s.1).map fun r => (r.1, s.2.store r.2.1 r.2.2)

theorem Config.ownStep_eq_some_iff {p q : ToolProcess} {m m' : Mem} :
    c.ownStep T disk (p, m) = some (q, m') ↔ ∃ off bs, c.toolStep T disk m p = some (q, off, bs) ∧ m' = m.store off bs := by
  rw [Config.ownStep]
  dsimp only
  constructor
  · intro h
    obtain ⟨⟨q', off, bs⟩, hstep, he⟩ := Option.map_eq_some_iff.mp h
    obtain ⟨rfl, rfl⟩ := Prod.mk.inj he
    exact ⟨off, bs, hstep, rfl⟩
  · rintro ⟨off, bs, hstep, rfl⟩
    rw [hstep, Option.map_some]

theorem Config.ownStep_eq_none {p : ToolProcess} {m : Mem} (h : p.pc = .ended) : c.ownStep T disk (p, m) = none := by
  simp [Config.ownStep, Config.toolStep, h]

theorem Config.own_cannotOpen {p : ToolProcess} (hpc : p.pc = .openFile) (hf : disk ((p.job.reader T).fname T.writerPath) = none)
    (m : Mem) : c.ownStep T disk (p, m) = some ({ p with pc := .ended, exit := some .cannotOpen }, m) := by
  simp [Config.ownStep, Config.toolStep, hpc, hf]

/-- A process opens its next file. -/
theorem Config.own_open {p : ToolProcess} {file : List UInt8} (hpc : p.pc = .openFile)
    (hf : disk ((p.job.reader T).fname T.writerPath) = some file) (m : Mem) :
    c.ownStep T disk (p, m) =
      some ({ p with pc := .readHeader, fname := (p.job.reader T).fname T.writerPath, pos := 0, job := p.job.opened T }, m) := by
  simp [Config.ownStep, Config.toolStep, hpc, hf]

/-- A process reads the header of the file that it has opened. -/
theorem Config.own_read {p : ToolProcess} {file : List UInt8} (hpc : p.pc = .readHeader) (hpos : p.pos = 0)
    (hf : disk p.fname = some file) (m : Mem) :
    ∃ pos, c.ownStep T disk (p, m) = some ({ p with pc := .look, pos := pos }, readHeader m file) := by
  refine ⟨((OpenFile.opened file).read const1K).2.pos, ?_⟩
  simp only [Config.ownStep, Config.toolStep, ToolProcess.file, hpc, hpos, hf, Option.getD_some, Option.map_some]
  rfl

/-- A process opens its next file and reads the header. -/
theorem Config.own_header {p : ToolProcess} {file : List UInt8} (hpc : p.pc = .openFile)
    (hf : disk ((p.job.reader T).fname T.writerPath) = some file) (m : Mem) :
    ∃ pos, Loop.steps (c.ownStep T disk) 2 (p, m) =
      some ({ p with pc := .look, fname := (p.job.reader T).fname T.writerPath, pos := pos, job := p.job.opened T },
        readHeader m file) := by
  let p₁ : ToolProcess := { p with pc := .readHeader, fname := (p.job.reader T).fname T.writerPath, pos := 0, job := p.job.opened T }
  obtain ⟨pos, hread⟩ := Config.own_read (c := c) (T := T) (p := p₁) rfl rfl hf m
  exact ⟨pos, Loop.steps_trans (Loop.steps_one (Config.own_open hpc hf m)) (Loop.steps_one hread)⟩

/-- A process looks at the header. -/
theorem Config.own_look {p : ToolProcess} (hpc : p.pc = .look) (m : Mem) :
    c.ownStep T disk (p, m) =
      some ({ p with pc := (p.job.look T m).1, pos := 0, job := (p.job.look T m).2.1, exit := (p.job.look T m).2.2 }, m) := by
  simp [Config.ownStep, Config.toolStep, hpc]

/-- A process reads the rest of its file. -/
theorem Config.own_rest {p : ToolProcess} {file : List UInt8} (hpc : p.pc = .readLens) (hpos : p.pos = 0) (hf : disk p.fname = some file)
    (m : Mem) :
    ∃ pos, Loop.steps (c.ownStep T disk) 2 (p, readHeader m file) =
      some ({ p with pc := .extract, pos := pos }, readBlock m file) := by
  let lens := (OpenFile.opened file).read lenBlockSize
  let p₁ : ToolProcess := { p with pc := .readData, pos := lens.2.pos }
  have h₁ : c.ownStep T disk (p, readHeader m file) = some (p₁, (readHeader m file).store lenBlockOff lens.1) := by
    simp only [Config.ownStep, Config.toolStep, ToolProcess.file, hpc, hpos, hf, Option.getD_some, Option.map_some]
    rfl
  have h₂ : c.ownStep T disk (p₁, (readHeader m file).store lenBlockOff lens.1) =
      some ({ p₁ with pc := .extract, pos := (lens.2.read (992 * const1M)).2.pos }, readBlock m file) := by
    simp only [Config.ownStep, Config.toolStep, ToolProcess.file, p₁, hf, Option.getD_some, Option.map_some]
    rfl
  exact ⟨_, Loop.steps_trans (Loop.steps_one h₁) (Loop.steps_one h₂)⟩

theorem Config.own_extract {p : ToolProcess} (hpc : p.pc = .extract) (m : Mem) :
    c.ownStep T disk (p, m) =
      some ({ p with pc := (c.extractJob m p.job).1, job := (c.extractJob m p.job).2.1, exit := (c.extractJob m p.job).2.2 }, m) := by
  simp [Config.ownStep, Config.toolStep, hpc]

/-! ### The extraction tools -/

/-- A process of an extraction tool at the head of its main loop, with the variables of the tool that is alone. -/
def ExtractHead (s : ToolProcess × Mem) (v : Tool ToolOutput) : Prop :=
  s.1.pc = .openFile ∧ ∃ u n, s.1.job = .extract u n ∧ v = { u with mapping := s.2 }

/-- A process of an extraction tool behind its main loop. -/
def ExtractEnd (s : ToolProcess × Mem) (v : Tool ToolOutput) (x : Exit) : Prop :=
  s.1.pc = .ended ∧ s.1.exit = some x ∧ ∃ u n, s.1.job = .extract u n ∧ v = { u with mapping := s.2 }

theorem Config.extractJob_behind (c : Config) {p : ToolProcess} {u : Tool ToolOutput} {n : Nat} (hjob : p.job = .extract u n) (m m' : Mem) :
    Loop.Behind ExtractHead ExtractEnd ({ p with pc := (c.extractJob m p.job).1, job := (c.extractJob m p.job).2.1, exit := (c.extractJob m p.job).2.2 }, m)
      (c.extractFile ToolOutput.put m n { u with mapping := m' }) := by
  have hmap : c.extractFile ToolOutput.put m n { u with mapping := m' } = c.extractFile ToolOutput.put m n u := rfl
  have hm : (c.extractFile ToolOutput.put m n u).1.mapping = m := by
    unfold Config.extractFile
    dsimp only
    split
    · rfl
    · split_ifs <;> rfl
  rw [hmap, hjob, Config.extractJob]
  rcases hr : c.extractFile ToolOutput.put m n u with ⟨v, _ | x⟩ <;> rw [hr] at hm
  · refine ⟨fun _ => ⟨rfl, v, n, rfl, ?_⟩, nofun⟩
    rw [← hm]
  · refine ⟨nofun, fun y hy => ⟨rfl, hy, v, n, rfl, ?_⟩⟩
    rw [← hm]

/-- The steps of a process make up the passes of the main loop. -/
theorem Config.own_pass (c : Config) (T : Table) (disk : Disk) {s : ToolProcess × Mem} {v : Tool ToolOutput} (h : ExtractHead s v) :
    ∃ n s', Loop.steps (c.ownStep T disk) (n + 1) s = some s' ∧ Loop.Behind ExtractHead ExtractEnd s' (c.pass T disk ToolOutput.put v) := by
  obtain ⟨p, m⟩ := s
  obtain ⟨hpc, u, n, hjob, rfl⟩ := h
  dsimp only at hpc hjob ⊢
  have hreader : p.job.reader T = u.reader := by rw [hjob]; rfl
  unfold Config.pass
  dsimp only
  rcases hf : disk (u.reader.fname T.writerPath) with _ | file
  · refine ⟨0, _, Loop.steps_one (Config.own_cannotOpen hpc (by rw [hreader]; exact hf) m), nofun, fun x hx => ?_⟩
    exact ⟨rfl, hx, u, n, hjob, rfl⟩
  · obtain ⟨pos, hhead⟩ := Config.own_header (c := c) hpc (by rw [hreader]; exact hf) m
    have hlook := Loop.steps_trans hhead (Loop.steps_one (Config.own_look rfl (readHeader m file)))
    rw [hreader, hjob] at hlook
    unfold Job.opened Job.look at hlook
    dsimp only at hlook ⊢
    by_cases hskip : numCaptured (readHeader m file) ≤ u.start
    · rw [if_pos hskip] at hlook ⊢
      exact ⟨2, _, hlook, fun _ => ⟨rfl, _, _, rfl, rfl⟩, nofun⟩
    · rw [if_neg hskip] at hlook ⊢
      let u₁ : Tool ToolOutput := { u with
        reader := T.nextFile u.reader
        held := u.reader.fileCount :: u.held
        opened := u.opened ++ [u.reader.fileCount] }
      let p₁ : ToolProcess := ⟨.readLens, u.reader.fname T.writerPath, 0, .extract u₁ (headerSlots (readHeader m file)), none⟩
      obtain ⟨pos', hrest⟩ := Config.own_rest (c := c) (T := T) (p := p₁) rfl rfl hf m
      let p₂ : ToolProcess := { p₁ with pc := .extract, pos := pos' }
      have hextract : c.ownStep T disk (p₂, readBlock m file) = _ := Config.own_extract rfl (readBlock m file)
      have hbehind := c.extractJob_behind (p := p₂) (u := u₁) rfl (readBlock m file) (readHeader m file)
      exact ⟨5, _, Loop.steps_trans (Loop.steps_trans hlook hrest) (Loop.steps_one hextract), hbehind⟩

theorem Config.makesUp_extract (c : Config) (T : Table) (disk : Disk) :
    Loop.MakesUp (c.ownStep T disk) (c.pass T disk ToolOutput.put) ExtractHead ExtractEnd :=
  ⟨fun _ _ h => c.own_pass T disk h, fun _ _ _ h => Config.ownStep_eq_none h.1⟩

/-! ### `count_recorded` -/

/-- A process of `count_recorded` at the head of its main loop, with the variables of the tool that is alone. -/
def CountHead (s : ToolProcess × Mem) (v : Counter) : Prop :=
  s.1.pc = .openFile ∧ ∃ u, s.1.job = .count u ∧ u.held = [] ∧ v = { u with mapping := s.2 }

/-- A process of `count_recorded` behind its main loop. -/
def CountEnd (s : ToolProcess × Mem) (v : Counter) (x : Exit) : Prop :=
  s.1.pc = .ended ∧ s.1.exit = some x ∧ ∃ u, s.1.job = .count u ∧ v = { u with mapping := s.2 }

theorem Config.own_countPass (c : Config) (T : Table) (disk : Disk) {s : ToolProcess × Mem} {v : Counter} (h : CountHead s v) :
    ∃ n s', Loop.steps (c.ownStep T disk) (n + 1) s = some s' ∧ Loop.Behind CountHead CountEnd s' (T.countPass disk 1 v) := by
  obtain ⟨p, m⟩ := s
  obtain ⟨hpc, u, hjob, hheld, rfl⟩ := h
  dsimp only at hpc hjob ⊢
  have hreader : p.job.reader T = u.reader := by rw [hjob]; rfl
  unfold Table.countPass
  dsimp only
  rw [hheld, if_neg (by decide)]
  rcases hf : disk (u.reader.fname T.writerPath) with _ | file
  · refine ⟨0, _, Loop.steps_one (Config.own_cannotOpen hpc (by rw [hreader]; exact hf) m), nofun, fun x hx => ?_⟩
    refine ⟨rfl, hx, u, hjob, ?_⟩
    dsimp only
    rw [hheld]
  · obtain ⟨pos, hhead⟩ := Config.own_header (c := c) hpc (by rw [hreader]; exact hf) m
    have hlook := Loop.steps_trans hhead (Loop.steps_one (Config.own_look rfl (readHeader m file)))
    rw [hreader, hjob] at hlook
    unfold Job.opened Job.look at hlook
    dsimp only at hlook ⊢
    refine ⟨2, _, hlook, ?_⟩
    split_ifs
    · exact ⟨nofun, fun x hx => ⟨rfl, hx, _, rfl, by rw [hheld]⟩⟩
    · exact ⟨nofun, fun x hx => ⟨rfl, hx, _, rfl, by rw [hheld]⟩⟩
    · exact ⟨fun _ => ⟨rfl, _, rfl, by rw [hheld]; rfl, by rw [hheld]⟩, nofun⟩

theorem Config.makesUp_count (c : Config) (T : Table) (disk : Disk) :
    Loop.MakesUp (c.ownStep T disk) (T.countPass disk 1) CountHead CountEnd :=
  ⟨fun _ _ h => c.own_countPass T disk h, fun _ _ _ h => Config.ownStep_eq_none h.1⟩

/-! ### All of them -/

/-- A process of an extraction tool that has ended, with its output. -/
def ToolProcess.Leaves (q : ToolProcess) (out : ToolOutput) (x : Exit) : Prop :=
  q.pc = .ended ∧ q.exit = some x ∧ ∃ u n, q.job = .extract u n ∧ u.sink = out

theorem ToolProcess.Leaves.result_pcap {q : ToolProcess} {f : OpenFile} {x : Exit} (h : q.Leaves (.pcap f) x) :
    q.result = some (.pcap f.content x) := by
  obtain ⟨-, hexit, u, n, hjob, hsink⟩ := h
  simp only [ToolProcess.result, hjob, hexit, hsink]

theorem ToolProcess.Leaves.result_text {q : ToolProcess} {shown : List Shown} {x : Exit} (h : q.Leaves (.text shown) x) :
    q.result = some (.text shown x) := by
  obtain ⟨-, hexit, u, n, hjob, hsink⟩ := h
  simp only [ToolProcess.result, hjob, hexit, hsink]

section Sinks

variable {σ : Type} (put : σ → Handed → σ) (g : σ → ToolOutput)

/-- A process of an extraction tool at the head of its main loop, before the first pass. -/
def enteredTool (r : Reader) (start count : Nat) (out : ToolOutput) : ToolProcess :=
  ⟨.openFile, [], 0, .extract (Tool.entered r (fun _ => 0) start count out) 0, none⟩

theorem Config.mainLoop_output (c : Config) (T : Table) (disk : Disk) (hg : ∀ k h, g (put k h) = ToolOutput.put (g k) h) (r : Reader)
    (m : Mem) (start count n : Nat) (sink : σ) :
    Loop.run (c.pass T disk ToolOutput.put) n (Tool.entered r m start count (g sink)) =
      ((c.mainLoop T disk put n (Tool.entered r m start count sink)).1.mapSink g,
        (c.mainLoop T disk put n (Tool.entered r m start count sink)).2) :=
  c.mainLoop_map hg n (Tool.entered r m start count sink)

/-- When the process ends, the tool that is alone ends with the same output. -/
theorem Config.tool_of_own (hg : ∀ k h, g (put k h) = ToolOutput.put (g k) h) {r : Reader} {start count : Nat} {sink : σ} {m m' : Mem}
    {k : Nat} {q : ToolProcess} (hk : Loop.steps (c.ownStep T disk) k (enteredTool r start count (g sink), m) = some (q, m'))
    (hend : q.pc = .ended) :
    ∃ n t x, c.mainLoop T disk put n (Tool.entered r m start count sink) = (t, some x) ∧ q.Leaves (g t.sink) x := by
  obtain ⟨n, v, x, hrun, -, hexit, u, slots, hjob, rfl⟩ := (c.makesUp_extract T disk).reached k
    (t := Tool.entered r m start count (g sink)) ⟨rfl, _, _, rfl, rfl⟩ hk (Config.ownStep_eq_none hend)
  rw [Config.mainLoop_output put g c T disk hg] at hrun
  obtain ⟨hv, hx⟩ := Prod.mk.inj hrun
  exact ⟨n, _, x, Prod.ext rfl hx, hend, hexit, u, slots, hjob, (congrArg Tool.sink hv).symm⟩

/-- When the tool that is alone ends, the process ends with the same output. -/
theorem Config.own_of_tool (hg : ∀ k h, g (put k h) = ToolOutput.put (g k) h) {r : Reader} {start count n : Nat} {sink : σ} {m : Mem}
    {t : Tool σ} {x : Exit} (hrun : c.mainLoop T disk put n (Tool.entered r m start count sink) = (t, some x)) :
    ∃ k q m', Loop.steps (c.ownStep T disk) k (enteredTool r start count (g sink), m) = some (q, m') ∧ q.Leaves (g t.sink) x := by
  have hout := Config.mainLoop_output put g c T disk hg r m start count n sink
  rw [hrun] at hout
  obtain ⟨k, ⟨q, m'⟩, hk, hend, hexit, u, slots, hjob, hv⟩ := (c.makesUp_extract T disk).reaches n
    (s := (enteredTool r start count (g sink), m)) ⟨rfl, _, _, rfl, rfl⟩ hout
  exact ⟨k, q, m', hk, hend, hexit, u, slots, hjob, (congrArg Tool.sink hv).symm⟩

end Sinks

/-- `block_info` ends with what the tool prints that is alone. -/
theorem Config.own_info (c : Config) (T : Table) (disk : Disk) (b : Nat) (m : Mem) :
    ∃ k q m', Loop.steps (c.ownStep T disk) k (ToolCommand.process T (.blockInfo b), m) = some (q, m') ∧ q.pc = .ended ∧
      q.result = some (.info (T.blockInfo disk m b)) := by
  let p := ToolCommand.process T (.blockInfo b)
  unfold Table.blockInfo
  rcases hf : disk ((T.readerAt b).fname T.writerPath) with _ | file
  · exact ⟨1, _, _, Loop.steps_one (Config.own_cannotOpen (p := p) rfl hf m), rfl, rfl⟩
  · obtain ⟨pos, hhead⟩ := Config.own_header (c := c) (p := p) rfl hf m
    exact ⟨3, _, _, Loop.steps_trans hhead (Loop.steps_one (Config.own_look rfl (readHeader m file))), rfl, rfl⟩

/-- A tool leaves what it leaves alone: when the process ends. -/
theorem ToolCommand.alone_of_own (cmd : ToolCommand) {m m' : Mem} {k : Nat} {q : ToolProcess}
    (hk : Loop.steps (c.ownStep T disk) k (cmd.process T, m) = some (q, m')) (hend : q.pc = .ended) :
    ∃ passes r, cmd.alone c T disk m passes = some r ∧ q.result = some r := by
  cases cmd with
  | toLibpcap old start count =>
    obtain ⟨n, t, x, hrun, hq⟩ := Config.tool_of_own writeOnePacket .pcap (fun _ _ => rfl) hk hend
    refine ⟨n, _, ?_, hq.result_pcap⟩
    simp only [ToolCommand.alone, Config.toLibpcap, hrun, Option.map_some]
  | block2libpcap old b count =>
    obtain ⟨n, t, x, hrun, hq⟩ := Config.tool_of_own writeOnePacket .pcap (fun _ _ => rfl) hk hend
    refine ⟨n, _, ?_, hq.result_pcap⟩
    simp only [ToolCommand.alone, Config.block2libpcap, hrun, Option.map_some]
  | dumpPacket start count =>
    obtain ⟨n, t, x, hrun, hq⟩ := Config.tool_of_own showOnePacket .text (fun _ _ => rfl) hk hend
    refine ⟨n, _, ?_, hq.result_text⟩
    simp only [ToolCommand.alone, Config.dumpPacketTool, hrun, Option.map_some]
  | countRecorded =>
    obtain ⟨n, v, x, hrun, -, hexit, u, hjob, rfl⟩ := (c.makesUp_count T disk).reached k
      (t := ⟨Reader.first, m, 0, [], []⟩) ⟨rfl, _, rfl, rfl, rfl⟩ hk (Config.ownStep_eq_none hend)
    dsimp only at hexit hjob
    refine ⟨n, .lines u.lines x, ?_, ?_⟩
    · simp only [ToolCommand.alone, Table.countRecorded, hrun, Option.map_some]
    · simp only [ToolProcess.result, hjob, hexit]
  | blockInfo b =>
    obtain ⟨j, q', m'', hj, hend', hres⟩ := c.own_info T disk b m
    obtain ⟨hle, hrest⟩ := Loop.steps_le_of_final hk (Config.ownStep_eq_none hend) hj
    obtain ⟨hle', -⟩ := Loop.steps_le_of_final hj (Config.ownStep_eq_none hend') hk
    rw [Nat.sub_eq_zero_of_le hle'] at hrest
    cases hrest
    exact ⟨0, _, rfl, hres⟩

/-- A tool leaves what it leaves alone: when the tool that is alone ends. -/
theorem ToolCommand.own_of_alone (cmd : ToolCommand) {m : Mem} {passes : Nat} {r : ToolResult}
    (h : cmd.alone c T disk m passes = some r) :
    ∃ k q m', Loop.steps (c.ownStep T disk) k (cmd.process T, m) = some (q, m') ∧ q.pc = .ended ∧ q.result = some r := by
  cases cmd with
  | toLibpcap old start count =>
    obtain ⟨x, hx, rfl⟩ := Option.map_eq_some_iff.mp h
    obtain ⟨k, q, m', hk, hq⟩ := Config.own_of_tool writeOnePacket .pcap (fun _ _ => rfl) (Prod.ext rfl hx)
    exact ⟨k, q, m', hk, hq.1, hq.result_pcap⟩
  | block2libpcap old b count =>
    obtain ⟨x, hx, rfl⟩ := Option.map_eq_some_iff.mp h
    obtain ⟨k, q, m', hk, hq⟩ := Config.own_of_tool writeOnePacket .pcap (fun _ _ => rfl) (Prod.ext rfl hx)
    exact ⟨k, q, m', hk, hq.1, hq.result_pcap⟩
  | dumpPacket start count =>
    obtain ⟨x, hx, rfl⟩ := Option.map_eq_some_iff.mp h
    obtain ⟨k, q, m', hk, hq⟩ := Config.own_of_tool showOnePacket .text (fun _ _ => rfl) (Prod.ext rfl hx)
    exact ⟨k, q, m', hk, hq.1, hq.result_text⟩
  | countRecorded =>
    obtain ⟨x, hx, rfl⟩ := Option.map_eq_some_iff.mp h
    have hrun : Loop.run (T.countPass disk 1) passes ⟨Reader.first, m, 0, [], []⟩ = ((T.countRecorded disk m 1 passes).1, some x) :=
      Prod.ext rfl hx
    obtain ⟨k, ⟨q, m'⟩, hk, hend, hexit, u, hjob, hv⟩ := (c.makesUp_count T disk).reaches passes
      (s := (ToolCommand.process T .countRecorded, m)) ⟨rfl, _, rfl, rfl, rfl⟩ hrun
    dsimp only at hexit hjob
    refine ⟨k, q, m', hk, hend, ?_⟩
    have hlines : (T.countRecorded disk m 1 passes).1.lines = u.lines := by rw [hv]
    simp only [ToolProcess.result, hjob, hexit, hlines]
  | blockInfo b =>
    cases h
    exact c.own_info T disk b m

end Alone

/-! ## A tool that nobody disturbs -/

/-- The step is one of the process, or it leaves the process, the first bucket and the files alone. -/
def Host.Undisturbed (H : Host) (pid : Nat) (s : Shared) (a : SharedAct) : Prop :=
  a = .tool pid ∨ ∀ t, H.SharedStep s a t → t.tool pid = s.tool pid ∧ t.mach.disk = s.mach.disk ∧
    H.config.mappedBucket t.mach.mem = H.config.mappedBucket s.mach.mem

/-- The step is one of the process. -/
def ByTool (pid : Nat) (_ : Shared) (a : SharedAct) : Prop := a = .tool pid

section Undisturbed

variable {H : Host} {pid : Nat} {s t : Shared} {tr : List (Shared × SharedAct)}

/-- A process that nobody disturbs makes its own steps. -/
theorem Host.own_of_undisturbed (hr : Run H.shared s tr t) {p : ToolProcess} (hp : s.tool pid = some p)
    (hm : Meets (H.Undisturbed pid) tr) :
    ∃ k q, Loop.steps (H.config.ownStep H.table s.mach.disk) k (p, H.config.mappedBucket s.mach.mem) =
      some (q, H.config.mappedBucket t.mach.mem) ∧ t.tool pid = some q ∧ t.mach.disk = s.mach.disk := by
  induction hr with
  | nil => exact ⟨0, p, rfl, hp, rfl⟩
  | snoc a hr hst ih =>
    obtain ⟨hm, ha⟩ := meets_snoc.mp hm
    obtain ⟨k, q, hk, hq, hdisk⟩ := ih hm
    rcases ha with rfl | hother
    · cases hst with
      | @tool p' q' off bs _ hp' hs =>
        obtain rfl : q = p' := Option.some.inj (hq.symm.trans hp')
        rw [hdisk] at hs
        have hown := Config.ownStep_eq_some_iff.mpr ⟨off, bs, hs, rfl⟩
        rw [← H.config.mappedBucket_store _ (Config.toolStep_within hs)] at hown
        refine ⟨k + 1, q', ?_, Function.update_self .., ?_⟩
        · rw [Machine.withMem_mem]
          exact Loop.steps_trans hk (Loop.steps_one hown)
        · rw [Machine.withMem_disk, hdisk]
    · obtain ⟨htool, hd, hmap⟩ := hother _ hst
      exact ⟨k, q, by rw [hmap]; exact hk, htool.trans hq, hd.trans hdisk⟩

/-- What the steps of a process leave as it was: the machine but for its memory, and the other tools. -/
structure Shared.Beside (pid : Nat) (s t : Shared) : Prop where
  mach : ∃ mem, t.mach = s.mach.withMem mem
  tool : ∀ q, q ≠ pid → t.tool q = s.tool q

theorem Shared.Beside.refl (pid : Nat) (s : Shared) : Shared.Beside pid s s := ⟨⟨s.mach.mem, rfl⟩, fun _ _ => rfl⟩

theorem Shared.Beside.trans {u : Shared} (h : Shared.Beside pid s t) (h' : Shared.Beside pid t u) : Shared.Beside pid s u := by
  obtain ⟨mem, hmem⟩ := h.mach
  obtain ⟨mem', hmem'⟩ := h'.mach
  refine ⟨⟨mem', ?_⟩, fun q hq => (h'.tool q hq).trans (h.tool q hq)⟩
  rw [hmem', hmem]
  rfl

theorem Shared.Beside.disk (h : Shared.Beside pid s t) : t.mach.disk = s.mach.disk := by
  obtain ⟨mem, hmem⟩ := h.mach
  rw [hmem, Machine.withMem_disk]

/-- A step that a process makes alone it can make in the system. -/
theorem Host.shared_own {p q : ToolProcess} {m' : Mem} (hp : s.tool pid = some p)
    (hs : H.config.ownStep H.table s.mach.disk (p, H.config.mappedBucket s.mach.mem) = some (q, m')) :
    ∃ t, H.SharedStep s (.tool pid) t ∧ t.tool pid = some q ∧ H.config.mappedBucket t.mach.mem = m' ∧ Shared.Beside pid s t := by
  obtain ⟨off, bs, hstep, rfl⟩ := Config.ownStep_eq_some_iff.mp hs
  refine ⟨_, Host.SharedStep.tool pid hp hstep, Function.update_self .., ?_, ⟨_, rfl⟩, fun q hq => Function.update_of_ne hq ..⟩
  rw [Machine.withMem_mem, H.config.mappedBucket_store _ (Config.toolStep_within hstep)]

theorem Host.leads_own (k : Nat) {p q : ToolProcess} {m' : Mem} (hp : s.tool pid = some p)
    (hk : Loop.steps (H.config.ownStep H.table s.mach.disk) k (p, H.config.mappedBucket s.mach.mem) = some (q, m')) :
    ∃ t, Leads H.shared (ByTool pid) s t ∧ t.tool pid = some q ∧ H.config.mappedBucket t.mach.mem = m' ∧ Shared.Beside pid s t := by
  induction k generalizing s p with
  | zero =>
    cases hk
    exact ⟨s, Leads.refl s, hp, rfl, Shared.Beside.refl pid s⟩
  | succ k ih =>
    rw [Loop.steps] at hk
    obtain ⟨⟨p₁, m₁⟩, hone, hrest⟩ := Option.bind_eq_some_iff.mp hk
    obtain ⟨u, hst, hp₁, hm₁, hbeside⟩ := Host.shared_own hp hone
    rw [← hm₁, ← hbeside.disk] at hrest
    obtain ⟨t, hl, hq, hm, hbeside'⟩ := ih hp₁ hrest
    have hfirst : Leads H.shared (ByTool pid) s u := Leads.single hst rfl
    exact ⟨t, hfirst.trans hl, hq, hm, hbeside.trans hbeside'⟩

end Undisturbed

/-- A tool that nobody disturbs, in every run of the machine with any number of other tools: when it has ended, it leaves what it would
leave alone with its mapping; and when it would end alone, it can go on to its end, with that result, from wherever it is. -/
theorem tool_undisturbed (H : Host) (cmd : ToolCommand) (pid : Nat) {s t : Shared} {tr : List (Shared × SharedAct)}
    (hp : s.tool pid = some (cmd.process H.table)) (hr : Run H.shared s tr t) (hm : Meets (H.Undisturbed pid) tr) :
    ∃ q, t.tool pid = some q ∧
      (q.pc = .ended → ∃ passes r,
        cmd.alone H.config H.table s.mach.disk (H.config.mappedBucket s.mach.mem) passes = some r ∧ q.result = some r) ∧
      ∀ passes r, cmd.alone H.config H.table s.mach.disk (H.config.mappedBucket s.mach.mem) passes = some r →
        ∃ u q', Leads H.shared (ByTool pid) t u ∧ u.tool pid = some q' ∧ q'.pc = .ended ∧ q'.result = some r := by
  obtain ⟨k, q, hk, hq, hdisk⟩ := Host.own_of_undisturbed hr hp hm
  refine ⟨q, hq, fun hend => cmd.alone_of_own hk hend, fun passes r halone => ?_⟩
  obtain ⟨j, q', m', hj, hend, hres⟩ := cmd.own_of_alone halone
  -- the process has made the first of the steps that lead to its end
  obtain ⟨-, hrest⟩ := Loop.steps_le_of_final hj (Config.ownStep_eq_none hend) hk
  rw [← hdisk] at hrest
  obtain ⟨u, hl, hq', -⟩ := Host.leads_own (j - k) hq hrest
  exact ⟨u, q', hl, hq', hend, hres⟩

/-- The block whose file a tool opens first. -/
def ToolCommand.firstBlock : ToolCommand → Nat
  | .block2libpcap _ b _ | .blockInfo b => b
  | .toLibpcap _ _ _ | .dumpPacket _ _ | .countRecorded => 0

theorem ToolCommand.first_file (cmd : ToolCommand) {T : Table} {disk : Disk} {file : List UInt8}
    (hfile : T.fileAt disk cmd.firstBlock = some file) :
    disk (((cmd.process T).job.reader T).fname T.writerPath) = some file := by
  have hreader : (cmd.process T).job.reader T = T.readerAt cmd.firstBlock := by
    cases cmd with
    | toLibpcap | dumpPacket | countRecorded => exact T.readerAt_zero.symm
    | block2libpcap | blockInfo => rfl
  rw [hreader]
  exact hfile

/-- A host with the files of a recording, before anything is started. -/
def Host.withSample : Shared := ⟨Host.shipped.started (fun _ => 0) sampleDisk, fun _ => none⟩

theorem Host.withSample_recording : Host.shipped.table.Recording Host.withSample.mach.disk 2 := sampleDisk_recording.recording

section Beside

variable {H : Host} {s : Shared} {pid pid' : Nat}

/-- The start of another tool disturbs nobody. -/
theorem Host.undisturbed_begin (hne : pid ≠ pid') (cmd : ToolCommand) : H.Undisturbed pid s (.begin pid' cmd) := by
  refine Or.inr fun t hst => ?_
  cases hst
  exact ⟨Function.update_of_ne hne .., rfl, rfl⟩

/-- Another tool that opens a file disturbs nobody. -/
theorem Host.undisturbed_open {p : ToolProcess} (hne : pid ≠ pid') (hp : s.tool pid' = some p) (hpc : p.pc = .openFile) :
    H.Undisturbed pid s (.tool pid') := by
  refine Or.inr fun t hst => ?_
  cases hst with
  | @tool p' q off bs _ hp' hs =>
    obtain rfl : p = p' := Option.some.inj (hp.symm.trans hp')
    have hnil : bs = [] := by
      rw [Config.toolStep, hpc] at hs
      dsimp only at hs
      split at hs <;> (cases hs; rfl)
    rw [hnil, store_nil]
    exact ⟨Function.update_of_ne hne .., s.mach.withMem_disk _, by rw [Machine.withMem_mem]⟩

/-- A step of the driver that stores nothing in the buckets disturbs nobody. -/
theorem Host.undisturbed_drv {a : Act} (hmem : H.config.driverStore s.mach.cap.drv s.mach.mem a = s.mach.mem) :
    H.Undisturbed pid s (.mach (.drv a)) := by
  refine Or.inr fun t hst => ?_
  cases hst with
  | mach _ hst =>
    cases hst
    exact ⟨rfl, rfl, by rw [hmem]⟩

end Beside

/-- A run beside the process: between its read of the first header and its loads the refill thread takes a step, and `block_info` is
started and opens a file. -/
theorem Host.exists_beside :
    ∃ s tr t, s.mach = Host.withSample.mach ∧ s.tool 0 = some (ToolCommand.process Host.shipped.table .countRecorded) ∧
      Run Host.shipped.shared s tr t ∧ Meets (Host.shipped.Undisturbed 0) tr ∧
      tr.map Prod.snd = [.tool 0, .tool 0, .mach (.drv .alloc), .begin 1 (.blockInfo 1), .tool 1, .tool 0] := by
  let H := Host.shipped
  let p : ToolProcess := ToolCommand.process H.table .countRecorded
  let p₁ : ToolProcess := { p with
    pc := .readHeader, fname := (p.job.reader H.table).fname H.table.writerPath, pos := 0, job := p.job.opened H.table }
  let s : Shared := { Host.withSample with tool := Function.update (fun _ => none) 0 (some p) }
  obtain ⟨file₀, hfile₀, -⟩ := Host.withSample_recording.file 0 (by decide)
  obtain ⟨file₁, hfile₁, -⟩ := Host.withSample_recording.file 1 (by decide)
  have hname₀ := ToolCommand.first_file .countRecorded hfile₀
  have hname₁ := ToolCommand.first_file (.blockInfo 1) hfile₁
  -- the process opens the first file and reads the header
  have hp : s.tool 0 = some p := rfl
  obtain ⟨s₁, hst₁, hp₁, -, hbeside₁⟩ := Host.shared_own (H := H) hp (Config.own_open rfl hname₀ _)
  have hname : s₁.mach.disk p₁.fname = some file₀ := by
    rw [hbeside₁.disk]
    exact hname₀
  obtain ⟨pos, hread⟩ := Config.own_read (c := H.config) (T := H.table) (p := p₁) rfl rfl hname (H.config.mappedBucket s₁.mach.mem)
  obtain ⟨s₂, hst₂, hp₂, -, hbeside₂⟩ := Host.shared_own hp₁ hread
  have hbeside := hbeside₁.trans hbeside₂
  have hcap : s₂.mach.cap = s.mach.cap := by
    obtain ⟨mem, hmem⟩ := hbeside.mach
    rw [hmem, Machine.withMem_cap]
  -- the refill thread asks for the command to start
  obtain ⟨d, hd⟩ : ∃ d, H.config.allocStep s₂.mach.cap.drv = some d := by
    rw [hcap]
    exact ⟨_, rfl⟩
  have hmem : H.config.driverStore s₂.mach.cap.drv s₂.mach.mem .alloc = s₂.mach.mem := by
    rw [hcap]
    rfl
  let s₃ : Shared := { s₂ with mach := { s₂.mach with
    cap := { s₂.mach.cap with drv := d }, mem := H.config.driverStore s₂.mach.cap.drv s₂.mach.mem .alloc } }
  have hst₃ : H.SharedStep s₂ (.mach (.drv .alloc)) s₃ := .mach _ (.drv _ (.alloc hd))
  -- the other tool is started, and opens its file
  let s₄ : Shared := { s₃ with tool := Function.update s₃.tool 1 (some (ToolCommand.process H.table (.blockInfo 1))) }
  have hst₄ : H.SharedStep s₃ (.begin 1 (.blockInfo 1)) s₄ := .begin 1 _ (hbeside.tool 1 (by decide))
  have hdisk₄ : s₄.mach.disk = Host.withSample.mach.disk := hbeside.disk
  have hp₄ : s₄.tool 1 = some (ToolCommand.process H.table (.blockInfo 1)) := Function.update_self 1 _ s₃.tool
  have hkept₄ : s₄.tool 0 = s₂.tool 0 := rfl
  obtain ⟨s₅, hst₅, -, -, hbeside₅⟩ := Host.shared_own (H := H) hp₄ (Config.own_open rfl (by rw [hdisk₄]; exact hname₁) _)
  -- the process looks at the header that it has read
  obtain ⟨s₆, hst₆, -⟩ := Host.shared_own ((hbeside₅.tool 0 (by decide)).trans (hkept₄.trans hp₂)) (Config.own_look rfl _)
  have hrun₃ : Run H.shared s _ s₃ := ((Run.snoc _ (Run.nil s) hst₁).snoc _ hst₂).snoc _ hst₃
  refine ⟨s, _, s₆, rfl, rfl, ((hrun₃.snoc _ hst₄).snoc _ hst₅).snoc _ hst₆, ?_, rfl⟩
  simp only [meets_snoc]
  exact ⟨⟨⟨⟨⟨⟨meets_nil _, Or.inl rfl⟩, Or.inl rfl⟩, Host.undisturbed_drv hmem⟩, Host.undisturbed_begin (by decide) _⟩,
    Host.undisturbed_open (by decide) hp₄ rfl⟩, Or.inl rfl⟩

/-- `count_recorded` on a recording of two files, with steps of the driver and of another tool between its own: it can go on to its end,
and prints the lines of the recording. -/
theorem tool_undisturbed_count :
    ∃ s tr t u q x, s.tool 0 = some (ToolCommand.process Host.shipped.table .countRecorded) ∧ Run Host.shipped.shared s tr t ∧
      tr.map Prod.snd = [.tool 0, .tool 0, .mach (.drv .alloc), .begin 1 (.blockInfo 1), .tool 1, .tool 0] ∧
      Leads Host.shipped.shared (ByTool 0) t u ∧ u.tool 0 = some q ∧ q.pc = .ended ∧
      q.result = some (.lines (Host.shipped.table.linesTo Host.withSample.mach.disk 2) x) := by
  obtain ⟨s, tr, t, hmach, hp, hr, hm, htr⟩ := Host.exists_beside
  obtain ⟨q, -, -, hgoes⟩ := tool_undisturbed Host.shipped .countRecorded 0 hp hr hm
  obtain ⟨m, file, -, hflag, hrun⟩ := Host.withSample_recording.counted.count_all Nat.one_pos
    (Host.shipped.config.mappedBucket s.mach.mem)
  obtain ⟨x, hx⟩ : ∃ x, endOf file = some x := by
    rcases endOf_of_flagged hflag with he | he
    · exact ⟨_, he⟩
    · exact ⟨_, he⟩
  have halone : ToolCommand.alone Host.shipped.config Host.shipped.table s.mach.disk (Host.shipped.config.mappedBucket s.mach.mem) 2
      .countRecorded = some (.lines (Host.shipped.table.linesTo Host.withSample.mach.disk 2) x) := by
    rw [ToolCommand.alone, congrArg Machine.disk hmach, hrun, hx]
    rfl
  obtain ⟨u, q', hl, hq', hend, hres⟩ := hgoes 2 _ halone
  exact ⟨s, tr, t, u, q', x, hp, hr, htr, hl, hq', hend, hres⟩

/-! ## What a tool does to the others -/

section Mixing

variable {H : Host} {s : Shared} {file : List UInt8}

/-- A tool is started and reads the header of its first file. -/
theorem Host.leads_header (H : Host) (s : Shared) (cmd : ToolCommand) {pid : Nat} (hfree : s.tool pid = none)
    (hfile : H.table.fileAt s.mach.disk cmd.firstBlock = some file) :
    ∃ t p, Leads H.shared (fun _ a => a = .begin pid cmd ∨ a = .tool pid) s t ∧ t.tool pid = some p ∧ p.pc = .look ∧
      p.job = (cmd.job H.table).opened H.table ∧
      H.config.mappedBucket t.mach.mem = readHeader (H.config.mappedBucket s.mach.mem) file ∧ Shared.Beside pid s t := by
  let s₁ : Shared := { s with tool := Function.update s.tool pid (some (cmd.process H.table)) }
  have hbegin : Leads H.shared (fun _ a => a = .begin pid cmd ∨ a = .tool pid) s s₁ :=
    Leads.single (Host.SharedStep.begin pid cmd hfree) (Or.inl rfl)
  obtain ⟨pos, hown⟩ := Config.own_header (c := H.config) rfl (cmd.first_file hfile) (H.config.mappedBucket s.mach.mem)
  obtain ⟨t, hl, hp, hmap, hbeside⟩ := Host.leads_own (s := s₁) 2 (Function.update_self ..) hown
  refine ⟨t, _, hbegin.trans (hl.mono fun _ _ h => Or.inr h), hp, rfl, rfl, hmap, hbeside.mach, fun q hq => ?_⟩
  rw [hbeside.tool q hq]
  exact Function.update_of_ne hq ..

end Mixing

/-- Two tools at once. Whatever the machine is doing, a second tool can read a header between the read of `block_info` and its loads;
then `block_info` prints what is in the file of the other tool as what is in its own. -/
theorem block_info_mixed (H : Host) (cmd : ToolCommand) (s : Shared) (b pid pid' : Nat) {file file' : List UInt8} (hne : pid' ≠ pid)
    (hfree : s.tool pid = none) (hfree' : s.tool pid' = none) (hfile : H.table.fileAt s.mach.disk b = some file)
    (hfile' : H.table.fileAt s.mach.disk cmd.firstBlock = some file') (hh : HasHeader file') :
    ∃ t p, Leads H.shared (fun _ a => a = .begin pid (.blockInfo b) ∨ a = .tool pid ∨ a = .begin pid' cmd ∨ a = .tool pid') s t ∧
      t.tool pid = some p ∧ p.pc = .ended ∧ p.result = some (.info (some (reportOf b (imageOf file'), endLines file'))) := by
  obtain ⟨s₁, p, hl₁, hp, hpc, hjob, -, hbeside₁⟩ := H.leads_header s (.blockInfo b) hfree hfile
  obtain ⟨s₂, -, hl₂, -, -, -, hmap, hbeside₂⟩ := H.leads_header s₁ cmd ((hbeside₁.tool pid' hne).trans hfree')
    (by rw [hbeside₁.disk]; exact hfile')
  have hp₂ : s₂.tool pid = some p := (hbeside₂.tool pid hne.symm).trans hp
  obtain ⟨t, hst, hq, -, -⟩ := Host.shared_own hp₂ (Config.own_look hpc _)
  have hlook : Leads H.shared (ByTool pid) s₂ t := Leads.single hst rfl
  refine ⟨t, _, ?_, hq, ?_⟩
  · refine (hl₁.mono fun _ _ h => ?_).trans ((hl₂.mono fun _ _ h => ?_).trans (hlook.mono fun _ _ h => Or.inr (Or.inl h)))
    · exact h.imp_right Or.inl
    · exact Or.inr (Or.inr h)
  · obtain ⟨hrep, hst, hla⟩ := hh.printed (H.config.mappedBucket s₁.mach.mem) b
    rw [hjob, hmap]
    simp only [ToolCommand.job, Job.opened, Job.look, ToolProcess.result, hrep, hst, hla, endLines, and_self]

/-- The first block of a recording of two files is not flagged. A second `block_info` makes the first one print a mark of the end. -/
theorem block_info_mixed_two :
    ∃ tr t p r ends, Run Host.shipped.shared Host.withSample tr t ∧ t.tool 0 = some p ∧ p.result = some (.info (some (r, ends))) ∧
      r.block = 0 ∧ ends ≠ [] ∧ Host.shipped.table.blockInfo Host.withSample.mach.disk (fun _ => 0) 0 =
        some (Host.shipped.table.report Host.withSample.mach.disk 0, []) := by
  obtain ⟨file, hfile, hwhole, -, -, hflag⟩ := Host.withSample_recording.file 0 (by decide)
  obtain ⟨file', hfile', hwhole', -, -, hflag'⟩ := Host.withSample_recording.file 1 (by decide)
  obtain ⟨t, p, ⟨tr, hr, -⟩, hp, -, hres⟩ := block_info_mixed Host.shipped (.blockInfo 1) Host.withSample 0 0 1
    (by decide) rfl rfl hfile hfile' hwhole'.hasHeader
  refine ⟨tr, t, p, _, _, hr, hp, hres, rfl, ?_, ?_⟩
  · rw [Ne, endLines_eq_nil, not_not]
    exact hflag'.mpr rfl
  · rw [Table.blockInfo_file hfile hwhole.hasHeader, endLines_eq_nil.mpr fun h => absurd (hflag.mp h) (by decide)]

/-! ## What a tool does to a recording -/

/-- The step is the start of the first writer or one of its accesses. -/
def Machine.ByWriter (pid : Nat) (_ : Machine) (a : MachineAct) : Prop := a = .startTodisk pid 0 ∨ ∃ n time, a = .exec pid n time

section Forging

variable {H : Host} {m m' : Machine} {pid : Nat}

theorem Machine.ByTodisk.byWriter {a : MachineAct} (h : m.ByTodisk pid a) : Machine.ByWriter pid m a := by
  obtain ⟨n, time, -, he, -⟩ := h
  exact Or.inr ⟨n, time, he⟩

/-- A first writer that finds the first bucket flagged when it comes there issues the stop and marks the bucket. -/
theorem Host.leads_late (hnone : m.prog pid = none) (hstop : m.userStop = false) (hflag : flagOf m.mem H.config.start1G ≠ 0) :
    ∃ m' w, Leads H.machine (Machine.ByWriter pid) m m' ∧ m'.prog pid = some (.todisk w) ∧ w.pc = .openFile ∧ w.id = 0 ∧
      w.fileCount = 0 ∧ w.cur = H.config.start1G ∧ m'.cap = m.raiseStop.cap ∧ m'.disk = m.disk ∧
      flagOf m'.mem H.config.start1G = flagOf m.mem H.config.start1G ∧ wordOf stalledOff m'.mem H.config.start1G = 1 := by
  let w₀ := H.startTodisk 0
  let w₁ : Todisk := { w₀ with pc := .poll }
  let w₂ : Todisk := { w₀ with pc := .raiseStop }
  let w₃ : Todisk := { w₀ with pc := .markStalled }
  let w₄ : Todisk := { w₀ with pc := .openFile, stalled := true }
  let m₀ := m.setProg pid (.todisk w₀)
  let m₁ := m₀.setProg pid (.todisk w₁)
  let m₂ := m₁.setProg pid (.todisk w₂)
  let m₃ := (m₂.setProg pid (.todisk w₃)).raiseStop
  have hcur : w₀.cur = H.config.start1G := Nat.add_zero _
  have hs₀ : H.machine.step m (.startTodisk pid 0) m₀ := Host.Step.startTodisk pid 0 hnone H.table.writers_pos
  have hs₁ : H.todiskStep m₀ pid w₀ 0 0 = some m₁ := by
    have hu : m₀.userStop = false := hstop
    simp [Host.todiskStep, w₀, w₁, Host.startTodisk, Todisk.again0, stopCheck, hu, m₁]
  have hs₂ : H.todiskStep m₁ pid w₁ 0 0 = some m₂ := by
    have hc : numCaptured (bucketMem m₁.mem w₁.cur) ≠ 0 := by
      rw [numCaptured_bucketMem]
      exact hcur ▸ hflag
    simp only [Host.todiskStep, w₁, if_neg hc]
    rfl
  have hs₃ : H.todiskStep m₂ pid w₂ 0 0 = some m₃ := rfl
  obtain ⟨m₄, hs₄, hp₄, hdisk₄⟩ : ∃ m₄, H.todiskStep m₃ pid w₃ 0 0 = some m₄ ∧ m₄.prog pid = some (.todisk w₄) ∧ m₄.disk = m₃.disk :=
    ⟨_, rfl, m₃.setProg_self _ _, rfl⟩
  have hstart : Leads H.machine (Machine.ByWriter pid) m m₀ := Leads.single hs₀ (Or.inl rfl)
  have hrun := (Host.leads_todisk (m.setProg_self _ _) hs₁).trans ((Host.leads_todisk (m₀.setProg_self _ _) hs₂).trans
    ((Host.leads_todisk (m₁.setProg_self _ _) hs₃).trans (Host.leads_todisk (m₂.setProg_self _ _) hs₄)))
  have hflag₄ := Host.todiskStep_flag hs₄ H.config.start1G
  have hword₄ := Host.todiskStep_word hs₄ (Or.inr rfl) H.config.start1G
  rw [if_neg fun h => by cases h.1] at hflag₄
  rw [if_pos ⟨rfl, rfl, hcur.symm⟩] at hword₄
  exact ⟨m₄, w₄, hstart.trans (hrun.mono fun _ _ h => h.byWriter), hp₄, rfl, rfl, rfl, hcur, H.todiskStep_cap hs₄, hdisk₄, hflag₄, hword₄⟩

/-- A writer that has taken its bucket writes the header of it to its file. -/
theorem Host.leads_heading {w : Todisk} (hp : m.prog pid = some (.todisk w)) (hpc : w.pc = .openFile) :
    ∃ m' file, Leads H.machine (Machine.ByWriter pid) m m' ∧ m'.cap = m.cap ∧ m'.disk (H.fname w) = some file ∧
      numCaptured (imageOf file) = flagOf m.mem w.cur ∧ stalledWord (imageOf file) = wordOf stalledOff m.mem w.cur := by
  obtain ⟨m', file, hl, hcap, -, hdisk, hh, hwords⟩ := Host.leads_headed (H := H) hp hpc
  have hword : ∀ off, userStampOff + 8 ≤ off → off + 4 ≤ realSize →
      (imageOf file).load32 (lenBlockOff + off) = wordOf off m.mem w.cur := by
    intro off hlow hhigh
    rw [wordOf, ← (hwords off hlow hhigh).2 fun _ => 0]
    exact (hh.word _ _ hhigh).symm
  exact ⟨m', file, hl.mono fun _ _ h => h.byWriter, hcap, hdisk, hword numCapturedOff (by decide) (by decide),
    hword stalledOff (by decide) (by decide)⟩

end Forging

/-- Steps of the machine in the machine with tools. -/
theorem Host.leads_mach {H : Host} {φ : Machine → MachineAct → Prop} {m m' : Machine} (h : Leads H.machine φ m m')
    (tool : Nat → Option ToolProcess) :
    Leads H.shared (fun s a => ∃ a', a = .mach a' ∧ φ s.mach a') ⟨m, tool⟩ ⟨m', tool⟩ := by
  obtain ⟨tr, hr, hm⟩ := h
  induction hr with
  | nil => exact Leads.refl _
  | @snoc u v tr a hr hst ih =>
    obtain ⟨hm, ha⟩ := meets_snoc.mp hm
    have hstep : H.shared.step ⟨u, tool⟩ (.mach a) ⟨v, tool⟩ := Host.SharedStep.mach (s := ⟨u, tool⟩) a hst
    exact (ih hm).trans (Leads.single hstep ⟨a, rfl, ha⟩)

/-- A look at an old recording ends the next one. In any state of the machine in which the stop has not been issued and there is a file
with packets: when a tool has read its header and then the first writer is started, the writer finds the first bucket flagged. It issues
the stop, and the file of the first block has a header with the number of packets of the old file and the mark of a stall, whatever the
driver has recorded. -/
theorem tool_ends_recording (H : Host) (cmd : ToolCommand) (s : Shared) (pid wpid : Nat) {file : List UInt8} (hfree : s.tool pid = none)
    (hnone : s.mach.prog wpid = none) (hstop : s.mach.userStop = false)
    (hfile : H.table.fileAt s.mach.disk cmd.firstBlock = some file) (hh : HasHeader file) (hc : numCaptured (imageOf file) ≠ 0) :
    ∃ t new, Leads H.shared (fun u a => (a = .begin pid cmd ∨ a = .tool pid) ∨ ∃ a', a = .mach a' ∧ Machine.ByWriter wpid u.mach a') s t ∧
      t.mach.userStop = true ∧ t.mach.cap.drv.hist = s.mach.cap.drv.hist ∧ H.table.fileAt t.mach.disk 0 = some new ∧
      numCaptured (imageOf new) = numCaptured (imageOf file) ∧ stalledWord (imageOf new) = 1 := by
  obtain ⟨⟨m₁, tool₁⟩, p, hl₁, -, -, -, hmap, ⟨mem, hmach⟩, -⟩ := H.leads_header s cmd hfree hfile
  dsimp only at hmap hmach
  have hcap₁ : m₁.cap = s.mach.cap := by rw [hmach, Machine.withMem_cap]
  have hflag : flagOf m₁.mem H.config.start1G = numCaptured (imageOf file) := by
    rw [← (hh.first_read (H.config.mappedBucket s.mach.mem)).1, ← hmap, numCaptured, flagOf, H.config.mappedBucket_word _ (by decide)]
  obtain ⟨m₂, w, hl₂, hp, hpc, hid, hfc, hcur, hcap₂, -, hflag₂, hword₂⟩ := Host.leads_late (H := H) (m := m₁)
    (by rw [hmach, Machine.withMem_prog]; exact hnone) (by rw [Machine.userStop, hcap₁]; exact hstop) (by rw [hflag]; exact hc)
  obtain ⟨m₃, new, hl₃, hcap₃, hdisk, hcount, hstalled⟩ := Host.leads_heading hp hpc
  have hname : H.fname w = fileName (H.table.writerPath (0 % H.table.numWriters)) 0 := by
    rw [Host.fname, hid, hfc, Nat.zero_mod]
  refine ⟨⟨m₃, tool₁⟩, new, ?_, ?_, ?_, ?_, ?_, ?_⟩
  · exact (hl₁.mono fun _ _ h => Or.inl h).trans ((Host.leads_mach (hl₂.trans hl₃) tool₁).mono fun _ _ h => Or.inr h)
  · dsimp only
    rw [Machine.userStop, hcap₃, hcap₂]
    rfl
  · dsimp only
    rw [hcap₃, hcap₂, ← hcap₁]
    rfl
  · rw [Table.fileAt, ← hname]
    exact hdisk
  · rw [hcount, hcur, hflag₂, hflag]
  · rw [hstalled, hcur, hword₂]

/-- Nothing has been started, and no packet has been delivered: the recording that is to begin has ended. -/
theorem tool_ends_recording_blank :
    ∃ tr t new, Run Host.shipped.shared Host.withSample tr t ∧ t.mach.userStop = true ∧ t.mach.cap.drv.hist.sent = [] ∧
      Host.shipped.table.fileAt t.mach.disk 0 = some new ∧ numCaptured (imageOf new) ≠ 0 ∧ stalledWord (imageOf new) = 1 := by
  obtain ⟨file, hfile, hwhole, hpos, -, -⟩ := Host.withSample_recording.file 1 (by decide)
  obtain ⟨t, new, ⟨tr, hr, -⟩, hstop, hhist, hnew, hcount, hstalled⟩ := tool_ends_recording Host.shipped (.blockInfo 1) Host.withSample
    0 0 rfl rfl rfl hfile hwhole.hasHeader (Nat.pos_iff_ne_zero.mp hpos)
  refine ⟨tr, t, new, hr, hstop, ?_, hnew, ?_, hstalled⟩
  · rw [hhist]
    rfl
  · rw [hcount]
    exact Nat.pos_iff_ne_zero.mp hpos

end NicRecorder
