import NicRecorder.Recording

/-!
# What a step of a recording can do

`Moves` lists the steps of a writer, and `Fills` those of the driver and the user, each with what it found and the state it
leaves. The lemmas after them say what each of the parties leaves alone, so that an invariant is looked at only where a step
touches what it is about.
-/

namespace NicRecorder

open Runs

variable {S : Setup} {s t : RecState} {k : Nat}

/-! ## Buckets -/

/-- Two fills of one bucket are at least one round of the buckets apart. -/
theorem Config.bucketOf_gap {c : Config} {m n : Nat} (h : c.bucketOf m = c.bucketOf n) (hlt : m < n) :
    m + c.numBuckets ≤ n := by
  have hmod : m % c.numBuckets = n % c.numBuckets := by
    unfold Config.bucketOf at h
    omega
  have hdvd := Nat.sub_mod_eq_zero_of_mod_eq hmod.symm
  have hle := Nat.le_of_dvd (by omega) (Nat.dvd_of_mod_eq_zero hdvd)
  omega

/-- A writer steps from the bucket of its block to that of its next block. -/
theorem Setup.nextBucket_bucketOf (S : Setup) (n : Nat) :
    S.nextBucket (S.config.bucketOf n) = S.config.bucketOf (n + S.writers) := by
  unfold Setup.nextBucket Config.bucketOf
  rw [Nat.add_sub_cancel_left, Nat.mod_add_mod]

/-! ## Writers and files -/

@[simp] theorem RecState.setWriter_mem (w : Writer) : (s.setWriter k w).mem = s.mem := rfl
@[simp] theorem RecState.setWriter_drv (w : Writer) : (s.setWriter k w).drv = s.drv := rfl
@[simp] theorem RecState.setWriter_file (w : Writer) : (s.setWriter k w).file = s.file := rfl
@[simp] theorem RecState.setWriter_ledger (w : Writer) : (s.setWriter k w).ledger = s.ledger := rfl

@[simp] theorem RecState.setWriter_self (w : Writer) : (s.setWriter k w).writer k = w := by
  simp [RecState.setWriter]

@[simp] theorem RecState.editFile_mem (f : Nat) (g : Image → Image) : (s.editFile f g).mem = s.mem := rfl
@[simp] theorem RecState.editFile_drv (f : Nat) (g : Image → Image) : (s.editFile f g).drv = s.drv := rfl
@[simp] theorem RecState.editFile_writer (f : Nat) (g : Image → Image) : (s.editFile f g).writer = s.writer := rfl
@[simp] theorem RecState.editFile_ledger (f : Nat) (g : Image → Image) : (s.editFile f g).ledger = s.ledger := rfl

@[simp] theorem RecState.editFile_self (f : Nat) (g : Image → Image) : (s.editFile f g).file f = (s.file f).map g := by
  simp [RecState.editFile]

theorem RecState.editFile_ne {f n : Nat} (g : Image → Image) (h : n ≠ f) : (s.editFile f g).file n = s.file n := by
  simp [RecState.editFile, h]

theorem RecState.of_editFile {f : Nat} {g : Image → Image} {img : Image} (h : (s.editFile f g).file f = some img) :
    ∃ old, s.file f = some old ∧ g old = img := by
  rw [RecState.editFile_self] at h
  exact Option.map_eq_some_iff.mp h

/-- A file that is complete is there. -/
theorem RecState.closed_iff {f : Nat} : s.closed f = true ↔ ∃ img, s.file f = some img ∧ img.closed = true := by
  simp [RecState.closed, Option.any_eq_true]

theorem RecState.closed_congr {f : Nat} (h : t.file f = s.file f) : t.closed f = s.closed f := by
  unfold RecState.closed
  rw [h]

theorem RecState.closed_none {f : Nat} (h : s.file f = none) : s.closed f = false := by
  simp [RecState.closed, h]

/-! ## The phases of a writer -/

/-- The writer is looking for the flag of its bucket. -/
def WriterPc.waits : WriterPc → Bool
  | .again0 | .poll | .pollStop => true
  | _ => false

/-- The writer has found the flag and goes on to write, or is writing. -/
def WriterPc.holds : WriterPc → Bool
  | .copyCaptured | .copyLast | .copyStalled | .copyLens | .readLast | .reset | .copyData | .close => true
  | _ => false

/-- The file of the writer is open. -/
def WriterPc.writes : WriterPc → Bool
  | .copyLast | .copyStalled | .copyLens | .readLast | .reset | .copyData | .close => true
  | _ => false

/-- The writer found the bucket empty when it came to it. -/
def Writer.polled (w : Writer) : Bool := (w.pc = .poll || w.pc = .pollStop) && w.endCnt ≠ 0

/-! ## The two ends of the loop -/

/-- A writer ends its block: it exits, or goes to the next block of its class. -/
theorem Setup.endBlock_cases (S : Setup) (w : Writer) :
    (S.endBlock w).pc = .exited ∧ (S.endBlock w).fileCount = w.fileCount ∧ (S.endBlock w).cur = w.cur ∧
      (w.last ≠ 0 ∨ w.stalled = true ∨ w.blocksWritten + 1 = S.maxBlocks) ∨
    (S.endBlock w).pc = .again0 ∧ (S.endBlock w).fileCount = w.fileCount + S.writers ∧ w.last = 0 ∧ w.stalled = false := by
  unfold Setup.endBlock
  split
  · next hx => exact Or.inl ⟨rfl, rfl, rfl, by tauto⟩
  · next hx =>
    split
    · next hb => exact Or.inl ⟨rfl, rfl, rfl, by tauto⟩
    · exact Or.inr ⟨rfl, rfl, by tauto, by simpa using fun he => hx (Or.inr he)⟩

theorem Setup.endBlock_keeps (S : Setup) (w : Writer) :
    (S.endBlock w).stalled = w.stalled ∧ (S.endBlock w).delayStop = w.delayStop ∧ (S.endBlock w).endCnt = w.endCnt := by
  unfold Setup.endBlock
  split
  · exact ⟨rfl, rfl, rfl⟩
  · split <;> exact ⟨rfl, rfl, rfl⟩

/-- The head of the loop leaves the block as it is. -/
theorem Writer.again0_keeps (w : Writer) (stop : Bool) :
    (w.again0 stop).fileCount = w.fileCount ∧ (w.again0 stop).cur = w.cur ∧ (w.again0 stop).stalled = w.stalled ∧
      ((w.again0 stop).pc = .exited ∨ (w.again0 stop).pc = .poll ∧ (w.again0 stop).endCnt = 0) := by
  unfold Writer.again0
  split
  · split
    · exact ⟨rfl, rfl, rfl, Or.inl rfl⟩
    · exact ⟨rfl, rfl, rfl, Or.inr ⟨rfl, rfl⟩⟩
  · exact ⟨rfl, rfl, rfl, Or.inr ⟨rfl, rfl⟩⟩

/-! ## The steps of a writer -/

/-- The steps of writer `k`, one for each access and outcome. -/
inductive Moves (S : Setup) (s : RecState) (k : Nat) : RecState → Prop where
  | look (hpc : (s.writer k).pc = .again0) : Moves S s k (s.setWriter k ((s.writer k).again0 s.mem.userStop))
  | wait (hpc : (s.writer k).pc = .poll) (hc : s.mem.captured (s.writer k).cur = 0) :
      Moves S s k (s.setWriter k { s.writer k with pc := .pollStop, endCnt := (s.writer k).endCnt + 1 })
  | take (hpc : (s.writer k).pc = .poll) (hc : s.mem.captured (s.writer k).cur ≠ 0) :
      Moves S s k (s.setWriter k { s.writer k with
        pc := if (s.writer k).endCnt = 0 ∧ (s.writer k).delayStop = 0 then .raiseStop else .copyCaptured
        taken := s.ledger.pubFill (s.writer k).cur })
  | check (hpc : (s.writer k).pc = .pollStop) :
      Moves S s k (s.setWriter k { s.writer k with
        pc := if s.mem.userStop = true ∧ (s.writer k).endCnt > 40 then .again0 else .poll })
  | raise (hpc : (s.writer k).pc = .raiseStop) :
      Moves S s k { s.setWriter k { s.writer k with pc := .markStalled } with mem := { s.mem with userStop := true } }
  | mark (hpc : (s.writer k).pc = .markStalled) :
      Moves S s k { s.setWriter k { s.writer k with pc := .copyCaptured, stalled := true } with
        mem := { s.mem with stalled := Function.update s.mem.stalled (s.writer k).cur 1 } }
  | create (hpc : (s.writer k).pc = .copyCaptured) :
      Moves S s k { s.setWriter k { s.writer k with pc := .copyLast } with
        file := Function.update s.file (s.writer k).fileCount
          (some ⟨s.mem.captured (s.writer k).cur, 0, 0, fun _ => none, false, (s.writer k).taken⟩) }
  | copyLast (hpc : (s.writer k).pc = .copyLast) :
      Moves S s k ((s.setWriter k { s.writer k with pc := .copyStalled }).editFile (s.writer k).fileCount fun img =>
        { img with last := s.mem.last (s.writer k).cur })
  | copyStalled (hpc : (s.writer k).pc = .copyStalled) :
      Moves S s k ((s.setWriter k { s.writer k with pc := .copyLens, i := 0 }).editFile (s.writer k).fileCount fun img =>
        { img with stalled := s.mem.stalled (s.writer k).cur })
  | copyLen (hpc : (s.writer k).pc = .copyLens) (hi : (s.writer k).i < S.lenPieces) :
      Moves S s k ((s.setWriter k { s.writer k with pc := .copyLens, i := (s.writer k).i + 1 }).editFile
        (s.writer k).fileCount fun img =>
          { img with cell := Function.update img.cell (s.writer k).i (s.mem.cell (s.writer k).cur (s.writer k).i) })
  | lensDone (hpc : (s.writer k).pc = .copyLens) (hi : ¬(s.writer k).i < S.lenPieces) :
      Moves S s k (s.setWriter k { s.writer k with pc := .readLast })
  | readLast (hpc : (s.writer k).pc = .readLast) :
      Moves S s k (s.setWriter k { s.writer k with pc := .reset, last := s.mem.last (s.writer k).cur })
  | reset (hpc : (s.writer k).pc = .reset) :
      Moves S s k { s.setWriter k { s.writer k with pc := .copyData } with
        mem := { s.mem with captured := Function.update s.mem.captured (s.writer k).cur 0 }
        ledger := { s.ledger with consumed := Function.update s.ledger.consumed (s.writer k).taken true } }
  | copyPiece (hpc : (s.writer k).pc = .copyData) (hi : (s.writer k).i < S.lenPieces + S.dataPieces) :
      Moves S s k ((s.setWriter k { s.writer k with pc := .copyData, i := (s.writer k).i + 1 }).editFile
        (s.writer k).fileCount fun img =>
          { img with cell := Function.update img.cell (s.writer k).i (s.mem.cell (s.writer k).cur (s.writer k).i) })
  | dataDone (hpc : (s.writer k).pc = .copyData) (hi : ¬(s.writer k).i < S.lenPieces + S.dataPieces) :
      Moves S s k (s.setWriter k { s.writer k with pc := .close })
  | close (hpc : (s.writer k).pc = .close) :
      Moves S s k ((s.setWriter k (S.endBlock (s.writer k))).editFile (s.writer k).fileCount fun img =>
        { img with closed := true })

/-- The next access of a writer is one of its steps. -/
theorem moves_of_writerStep (h : S.writerStep s k = some t) : Moves S s k t := by
  cases hpc : (s.writer k).pc <;> simp only [Setup.writerStep, hpc] at h
  case again0 => exact Option.some.inj h ▸ .look hpc
  case poll =>
    split at h
    · exact Option.some.inj h ▸ .wait hpc ‹_›
    · exact Option.some.inj h ▸ .take hpc ‹_›
  case pollStop => exact Option.some.inj h ▸ .check hpc
  case raiseStop => exact Option.some.inj h ▸ .raise hpc
  case markStalled => exact Option.some.inj h ▸ .mark hpc
  case copyCaptured => exact Option.some.inj h ▸ .create hpc
  case copyLast => exact Option.some.inj h ▸ .copyLast hpc
  case copyStalled => exact Option.some.inj h ▸ .copyStalled hpc
  case copyLens =>
    split at h
    · exact Option.some.inj h ▸ .copyLen hpc ‹_›
    · exact Option.some.inj h ▸ .lensDone hpc ‹_›
  case readLast => exact Option.some.inj h ▸ .readLast hpc
  case reset => exact Option.some.inj h ▸ .reset hpc
  case copyData =>
    split at h
    · exact Option.some.inj h ▸ .copyPiece hpc ‹_›
    · exact Option.some.inj h ▸ .dataDone hpc ‹_›
  case close => exact Option.some.inj h ▸ .close hpc
  case exited => exact absurd h (by simp)

section Frame

/-- A writer leaves the capture threads alone. -/
theorem Moves.drv (h : Moves S s k t) : t.drv = s.drv := by cases h <;> rfl

theorem Moves.last (h : Moves S s k t) : t.mem.last = s.mem.last := by cases h <;> rfl

/-- A writer does not write to the buckets. -/
theorem Moves.cell (h : Moves S s k t) : t.mem.cell = s.mem.cell := by cases h <;> rfl

/-- A writer changes the history at its reset only. -/
theorem Moves.ledger (h : Moves S s k t) : ∃ consumed, t.ledger = { s.ledger with consumed := consumed } := by
  cases h <;> exact ⟨_, rfl⟩

theorem Moves.writer_ne (h : Moves S s k t) {j : Nat} (hj : j ≠ k) : t.writer j = s.writer j := by
  cases h <;> exact Function.update_of_ne hj _ _

/-- A writer writes to its own file only. -/
theorem Moves.file_ne (h : Moves S s k t) {n : Nat} (hn : n ≠ (s.writer k).fileCount) : t.file n = s.file n := by
  cases h <;> first | rfl | exact Function.update_of_ne hn _ _

/-- A writer takes back no stop command. -/
theorem Moves.unstopped (h : Moves S s k t) (ht : t.mem.userStop = false) : s.mem.userStop = false := by
  cases h <;> first | exact ht | exact absurd ht (by simp)

end Frame

/-! ## The steps of the driver -/

/-- The steps of the driver and the user. -/
inductive Fills (S : Setup) (s : RecState) : FillAct → RecState → Prop where
  | dma (ahead : Bool) (x n : Nat) (hn : n = if ahead then s.drv.allocFill else s.drv.procFill) (hx : S.lenPieces ≤ x) :
      Fills S s (.dma ahead x) { s with mem := { s.mem with
        cell := Function.update s.mem.cell (S.config.bucketOf n)
          (Function.update (s.mem.cell (S.config.bucketOf n)) x (some n)) } }
  | accept (xs : List Nat) (he : s.drv.ending = .recording)
      (hx : ∀ x ∈ xs, x < S.lenPieces + S.dataPieces ∧
        (S.lenPieces ≤ x → s.mem.cell (S.config.bucketOf s.drv.procFill) x = some s.drv.procFill)) :
      Fills S s (.accept xs) { s with
        mem := { s.mem with
          cell := Function.update s.mem.cell (S.config.bucketOf s.drv.procFill) fun x =>
            if x ∈ xs then some s.drv.procFill else s.mem.cell (S.config.bucketOf s.drv.procFill) x }
        drv := { s.drv with count := s.drv.count + 1 }
        ledger := { s.ledger with
          recorded := Function.update s.ledger.recorded s.drv.procFill fun x =>
            x ∈ xs || s.ledger.recorded s.drv.procFill x
          packets := Function.update s.ledger.packets s.drv.procFill (s.ledger.packets s.drv.procFill + 1) } }
  | publish (m : Nat) (ha : s.drv.allocEnded = false) (hp : s.drv.allocFill = s.drv.procFill) (hc : s.drv.count ≠ 0)
      (hm : m ≠ 0) :
      Fills S s (.publish m) { S.setFlag s s.drv.allocFill m with drv := { s.drv with published := true } }
  | startNext (ha : s.drv.allocEnded = false) (hp : s.drv.allocFill = s.drv.procFill) (hpub : s.drv.published = true) :
      Fills S s .startNext { s with
        drv := { s.drv with allocFill := s.drv.allocFill + 1, published := false }
        ledger := { s.ledger with overrun := S.noteOverrun s (s.drv.allocFill + 1) } }
  | procNext (he : s.drv.ending = .recording) (hp : s.drv.procFill < s.drv.allocFill)
      (hc : s.drv.count = s.ledger.size s.drv.procFill) :
      Fills S s .procNext { s with drv := { s.drv with procFill := s.drv.procFill + 1, count := 0 } }
  | allocEnd (hu : s.mem.userStop = true) : Fills S s .allocEnd { s with drv := { s.drv with allocEnded := true } }
  | finalCaptured (ha : s.drv.allocEnded = true) (he : s.drv.ending = .recording) :
      Fills S s .finalCaptured { S.setFlag s s.drv.procFill s.drv.count with drv := { s.drv with ending := .flagged } }
  | finalLast (he : s.drv.ending = .flagged) :
      Fills S s .finalLast { s with
        mem := { s.mem with last := Function.update s.mem.last (S.config.bucketOf s.drv.procFill) 1 }
        drv := { s.drv with ending := .ended } }
  | userStop : Fills S s .userStop { s with mem := { s.mem with userStop := true } }

theorem fills_of_fillStep {a : FillAct} (h : S.fillStep s a = some t) : Fills S s a t := by
  cases a <;> simp only [Setup.fillStep] at h
  case dma ahead x =>
    split at h
    · next hx => exact Option.some.inj h ▸ .dma ahead x _ rfl hx.1
    · exact absurd h (by simp)
  case accept xs =>
    split at h
    · next hx => exact Option.some.inj h ▸ .accept xs hx.1 hx.2
    · exact absurd h (by simp)
  case publish m =>
    split at h
    · next hx => exact Option.some.inj h ▸ .publish m hx.1 hx.2.1 hx.2.2.1 hx.2.2.2
    · exact absurd h (by simp)
  case startNext =>
    split at h
    · next hx => exact Option.some.inj h ▸ .startNext hx.1 hx.2.1 hx.2.2
    · exact absurd h (by simp)
  case procNext =>
    split at h
    · next hx => exact Option.some.inj h ▸ .procNext hx.1 hx.2.1 hx.2.2
    · exact absurd h (by simp)
  case allocEnd =>
    split at h
    · next hx => exact Option.some.inj h ▸ .allocEnd hx
    · exact absurd h (by simp)
  case finalCaptured =>
    split at h
    · next hx => exact Option.some.inj h ▸ .finalCaptured hx.1 hx.2
    · exact absurd h (by simp)
  case finalLast =>
    split at h
    · next hx => exact Option.some.inj h ▸ .finalLast hx
    · exact absurd h (by simp)
  case userStop => exact Option.some.inj h ▸ .userStop

/-- The driver leaves the writers alone. -/
theorem Fills.writer {a : FillAct} (h : Fills S s a t) : t.writer = s.writer := by cases h <;> rfl

theorem Fills.file {a : FillAct} (h : Fills S s a t) : t.file = s.file := by cases h <;> rfl

theorem Fills.closed {a : FillAct} (h : Fills S s a t) : t.closed = s.closed := by
  unfold RecState.closed
  rw [h.file]

theorem Fills.unstopped {a : FillAct} (h : Fills S s a t) (ht : t.mem.userStop = false) : s.mem.userStop = false := by
  cases h <;> first | exact ht | exact absurd ht (by simp)

/-- The adapter and the recording thread write to the buckets of the two current fills only. -/
theorem Fills.cell {a : FillAct} (h : Fills S s a t) (b x : Nat) : t.mem.cell b x = s.mem.cell b x ∨
    ∃ n, (n = s.drv.allocFill ∨ n = s.drv.procFill) ∧ b = S.config.bucketOf n ∧ t.mem.cell b x = some n := by
  cases h with
  | dma ahead y n hn hy =>
    by_cases hb : b = S.config.bucketOf n
    · subst hb
      by_cases hx : x = y
      · refine Or.inr ⟨n, ?_, rfl, by simp [hx]⟩
        rw [hn]
        cases ahead <;> simp
      · exact Or.inl (by simp [hx])
    · exact Or.inl (by simp [hb])
  | accept xs he hx =>
    by_cases hb : b = S.config.bucketOf s.drv.procFill
    · subst hb
      by_cases hm : x ∈ xs
      · exact Or.inr ⟨s.drv.procFill, Or.inr rfl, rfl, by simp [hm]⟩
      · exact Or.inl (by simp [hm])
    · exact Or.inl (by simp [hb])
  | _ => exact Or.inl rfl

/-- A step of a recording is one of the driver or the user, or one of a writer. -/
theorem next_cases {a : RecAct} (h : S.next s a = some t) :
    (∃ f, a = .drv f ∧ Fills S s f t) ∨ ∃ k, a = .writer k ∧ k < S.writers ∧ Moves S s k t := by
  cases a with
  | drv f => exact Or.inl ⟨f, rfl, fills_of_fillStep h⟩
  | writer k =>
    simp only [Setup.next] at h
    split at h
    · exact Or.inr ⟨k, rfl, ‹_›, moves_of_writerStep h⟩
    · exact absurd h (by simp)

/-- No step takes back the stop command. -/
theorem next_userStop {a : RecAct} (h : S.next s a = some t) (hu : s.mem.userStop = true) : t.mem.userStop = true := by
  by_contra ht
  rw [Bool.not_eq_true] at ht
  rcases next_cases h with ⟨f, _, hf⟩ | ⟨j, _, _, hm⟩
  · exact absurd (hf.unstopped ht) (by simp [hu])
  · exact absurd (hm.unstopped ht) (by simp [hu])

/-- A writer is changed by its own steps only. -/
theorem next_writer {a : RecAct} (h : S.next s a = some t) (ha : a ≠ .writer k) : t.writer k = s.writer k := by
  rcases next_cases h with ⟨f, _, hf⟩ | ⟨j, rfl, _, hm⟩
  · rw [hf.writer]
  · exact hm.writer_ne fun he => ha (by rw [he])

/-! ## Lists of steps -/

/-- A list of steps that can all be taken is a run. -/
theorem run_of_list {φ : RecState → RecAct → Prop} {c : RecState → RecAct → Bool} (hc : ∀ s a, c s a = true → φ s a) :
    ∀ (as : List RecAct) {s t : RecState}, S.run c as s = some t → ∃ tr, Run S.system s tr t ∧ Meets φ tr
  | [], s, t, h => by
    cases h
    exact ⟨[], Run.nil s, meets_nil φ⟩
  | a :: as, s, t, h => by
    simp only [Setup.run] at h
    split at h
    · next hca =>
      obtain ⟨u, hu, h⟩ := Option.bind_eq_some_iff.mp h
      obtain ⟨tr, hr, hm⟩ := run_of_list hc as h
      have hstep : S.system.step s a u := hu
      refine ⟨[(s, a)] ++ tr, (Run.single hstep).append hr, meets_append.mpr ⟨?_, hm⟩⟩
      intro x hx
      rw [List.mem_singleton] at hx
      subst hx
      exact hc _ _ hca
    · exact absurd h (by simp)

/-- A list of steps that leads to a state with a property. -/
theorem exists_run {as : List RecAct} {P : RecState → Bool} (h : (S.run (fun _ _ => true) as S.start).any P = true) :
    ∃ tr s, Run S.system S.start tr s ∧ P s = true := by
  obtain ⟨s, hs, hp⟩ := (Option.any_eq_true ..).mp h
  obtain ⟨tr, hr, _⟩ := run_of_list (φ := fun _ _ => True) (fun _ _ _ => trivial) as hs
  exact ⟨tr, s, hr, hp⟩

/-- A list of steps that meet a condition and lead to a state with a property. -/
theorem exists_run_meets {φ : RecState → RecAct → Prop} {c : RecState → RecAct → Bool} {as : List RecAct}
    {P : RecState → Bool} (hc : ∀ s a, c s a = true → φ s a) (h : (S.run c as S.start).any P = true) :
    ∃ tr s, Run S.system S.start tr s ∧ Meets φ tr ∧ P s = true := by
  obtain ⟨s, hs, hp⟩ := (Option.any_eq_true ..).mp h
  obtain ⟨tr, hr, hm⟩ := run_of_list hc as hs
  exact ⟨tr, s, hr, hm, hp⟩

/-- The shipped configuration with a number of writers; each block of a bucket is one piece. -/
def Setup.shipped (writers : Nat) (hw : 0 < writers ∧ writers ≤ 13) : Setup where
  config := Config.shipped
  writers := writers
  maxBlocks := 1000
  lenPieces := 1
  dataPieces := 1
  writers_pos := hw.1
  writers_le := by
    show writers + 2 ≤ 15
    omega
  maxBlocks_pos := by decide

/-- A packet arrives in the fill of the driver and is recorded; the driver publishes the fill and goes to the next. The driver closes a
fill only when a slot is beyond the limit, with many rows of packets in it. One packet stands for them here: a writer sees no more of
their number than that the flag is not zero, and copies the same pieces. -/
def wholeFill : List RecAct :=
  [.drv (.dma false 1), .drv (.accept [0, 1]), .drv (.publish 1), .drv .startNext, .drv .procNext]

/-- A number of whole fills. -/
def wholeFills (n : Nat) : List RecAct := (List.replicate n wholeFill).flatten

/-- A number of steps of one writer. -/
def writerSteps (k n : Nat) : List RecAct := List.replicate n (.writer k)

end NicRecorder
