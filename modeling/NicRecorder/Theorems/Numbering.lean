import NicRecorder.Numbering
import NicRecorder.Lemmas.Shape
import NicRecorder.Lemmas.Effects

/-!
# Block numbers agree

The counters of the programs and of the capture threads are recurrences with different steps, moduli and starts. Each has a closed
form in the number of the block. `block_numbering_agrees` puts them together: one writer and iteration for each block, the same
bucket as both capture threads, the same file name as every reader, and different names for different blocks.
-/

namespace NicRecorder

open Decimal Runs

variable {S : Setup} {s t : RecState} {k : Nat}

/-! ## The recurrences -/

theorem Setup.blockAt_succ (S : Setup) (id i : Nat) : S.blockAt id (i + 1) = S.nextBlock (S.blockAt id i) :=
  Function.iterate_succ_apply' ..

/-- Iteration `i` of a writer is at the `i`-th block of its residue class, and in the bucket of that fill. -/
theorem Setup.blockAt_eq (S : Setup) {id : Nat} (hid : id < S.writers) (i : Nat) :
    S.blockAt id i = ⟨S.config.bucketOf (id + i * S.writers), id + i * S.writers⟩ := by
  induction i with
  | zero =>
    have hlt : id < S.config.numBuckets := by
      have := S.writers_le
      omega
    simp [Setup.blockAt, Setup.firstBlock, Config.bucketOf, Nat.mod_eq_of_lt hlt]
  | succ i ih =>
    rw [S.blockAt_succ, ih, Setup.nextBlock, S.nextBucket_bucketOf, Nat.succ_mul, Nat.add_assoc]

/-- A block has one writer and one iteration. -/
theorem Setup.blockAt_fileCount_iff (S : Setup) {id : Nat} (hid : id < S.writers) (i f : Nat) :
    (S.blockAt id i).fileCount = f ↔ id = f % S.writers ∧ i = f / S.writers := by
  rw [S.blockAt_eq hid]
  constructor
  · rintro rfl
    rw [Nat.add_mul_mod_self_right, Nat.mod_eq_of_lt hid, Nat.add_mul_div_right _ _ S.writers_pos, Nat.div_eq_of_lt hid,
      Nat.zero_add]
    exact ⟨rfl, rfl⟩
  · rintro ⟨rfl, rfl⟩
    show f % S.writers + f / S.writers * S.writers = f
    rw [Nat.mul_comm]
    exact Nat.mod_add_div f S.writers

/-- The counters in the iteration for block `f`. -/
theorem Setup.blockAt_block (S : Setup) (f : Nat) : S.blockAt (f % S.writers) (f / S.writers) = ⟨S.config.bucketOf f, f⟩ := by
  have hf : f % S.writers + f / S.writers * S.writers = f := by
    rw [Nat.mul_comm]
    exact Nat.mod_add_div f S.writers
  rw [S.blockAt_eq (Nat.mod_lt f S.writers_pos), hf]

/-- A reader that begins with the file of block `b` stays at the writer of its block. -/
theorem Setup.nextFile_iterate (S : Setup) (b i : Nat) : S.nextFile^[i] (S.readerAt b) = S.readerAt (b + i) := by
  induction i with
  | zero => rfl
  | succ i ih =>
    rw [Function.iterate_succ_apply', ih, Setup.nextFile, Setup.readerAt, Setup.readerAt, Nat.mod_add_mod, Nat.add_assoc]

theorem Setup.readerAt_zero (S : Setup) : S.readerAt 0 = Reader.first := by
  simp [Setup.readerAt, Reader.first]

/-- The file of a block, whoever asks for it. -/
theorem Setup.readerAt_fname (S : Setup) (writerPath : Nat → List Char) (f : Nat) :
    (S.readerAt f).fname writerPath = S.todiskName writerPath (f % S.writers) (f / S.writers) := by
  rw [Setup.todiskName, S.blockAt_block]
  rfl

/-- The name of a file determines the number of the block. -/
theorem fileName_inj {p q : List Char} {m n : Nat} (h : fileName p m = fileName q n) : m = n := by
  refine padded_inj (c := 'e') rfl (p := p ++ "/fil".toList) (q := q ++ "/fil".toList) (w := 5) (v := 5) ?_
  simpa [fileName] using h

/-! ## The threads and the writers -/

/-- The bucket of each capture thread is that of its fill. -/
def Config.AtFill (c : Config) (d : Driver) : Prop :=
  d.alloc.cur = c.nextCur^[d.hist.allocFill] c.start1G ∧ d.proc.cur = c.nextCur^[d.hist.procFill] c.start1G

theorem Config.AtFill.step {c : Config} {writers : Nat} {s t : Capture} {a : Act} (h : c.AtFill s.drv)
    (hst : c.Step writers s a t) : c.AtFill t.drv := by
  cases hst with
  | @alloc d hs =>
    obtain ⟨hproc, _, _, _, hfill⟩ := Config.allocStep_frame hs
    refine ⟨?_, ?_⟩
    · rcases Config.allocStep_fill hs with ⟨hf, hc⟩ | ⟨_, _, hf, hc⟩
      · rw [hf, hc]
        exact h.1
      · rw [hf, hc, Function.iterate_succ_apply', h.1]
    · rw [hproc, hfill]
      exact h.2
  | @proc d hs =>
    obtain ⟨halloc, _, _, _, hfill⟩ := Config.procStep_frame hs
    refine ⟨?_, ?_⟩
    · rw [halloc, hfill]
      exact h.1
    · rcases Config.procStep_fill hs with ⟨hf, hc, _⟩ | ⟨_, hf, hc, _⟩
      · rw [hf, hc]
        exact h.2
      · rw [hf, hc, Function.iterate_succ_apply', h.2]
  | nic p _ hs =>
    unfold Config.nicStep at hs
    split at hs
    · cases hs
    · cases hs
      exact h
  | userStart | userStop => exact h
  | visit k _ =>
    obtain ⟨captured, he, -⟩ := c.visitStep_drv k s
    rw [he]
    exact h

/-- In every capture, whatever the speeds and the packets. -/
theorem Config.atFill_of_run {c : Config} {writers : Nat} {s t : Capture} {tr : List (Capture × Act)}
    (hi : (c.capture writers).init s) (hr : Run (c.capture writers) s tr t) : c.AtFill t.drv := by
  refine hr.invariant (I := fun s => c.AtFill s.drv) (fun _ _ _ h hst => h.step hst) ?_
  obtain ⟨lens, ram, rfl⟩ := hi
  exact ⟨rfl, rfl⟩

/-- A writer that has not ended is in the iteration that its blocks written say. -/
def Setup.InLoop (S : Setup) (s : RecState) : Prop :=
  ∀ k < S.writers, (s.writer k).pc ≠ .exited → (s.writer k).cursor = S.blockAt k (s.writer k).blocksWritten

/-- A step of a writer keeps its counters, or ends an iteration, or ends the writer. -/
theorem Moves.cursor (h : Moves S s k t) :
    (t.writer k).cursor = (s.writer k).cursor ∧ (t.writer k).blocksWritten = (s.writer k).blocksWritten ∨
      (t.writer k).cursor = S.nextBlock (s.writer k).cursor ∧
        (t.writer k).blocksWritten = (s.writer k).blocksWritten + 1 ∨ (t.writer k).pc = .exited := by
  cases h with
  | look =>
    simp only [RecState.setWriter_self, Writer.again0, Writer.cursor]
    split
    · split <;> exact Or.inl ⟨rfl, rfl⟩
    · exact Or.inl ⟨rfl, rfl⟩
  | close =>
    simp only [RecState.editFile_writer, RecState.setWriter_self, Setup.endBlock, Writer.cursor]
    split
    · exact Or.inr (Or.inr rfl)
    · split
      · exact Or.inr (Or.inr rfl)
      · exact Or.inr (Or.inl ⟨rfl, rfl⟩)
  | _ => simp [RecState.setWriter, RecState.editFile, Writer.cursor]

theorem Setup.InLoop.step {a : RecAct} (h : S.InLoop s) (hst : S.next s a = some t) : S.InLoop t := by
  intro j hj hpc
  by_cases ha : a = .writer j
  · subst ha
    rcases next_cases hst with ⟨f, hf, _⟩ | ⟨k, hk, _, hm⟩
    · cases hf
    · cases hk
      have hrun := h j hj hm.pc_ne
      rcases hm.cursor with ⟨hc, hb⟩ | ⟨hc, hb⟩ | he
      · rw [hc, hb]
        exact hrun
      · rw [hc, hb, hrun, S.blockAt_succ]
      · exact absurd he hpc
  · rw [next_writer hst ha] at hpc ⊢
    exact h j hj hpc

theorem Setup.inLoop_of_run {tr : List (RecState × RecAct)} (hr : Run S.system S.start tr s) : S.InLoop s :=
  hr.invariant (I := S.InLoop) (fun _ _ _ h hst => h.step hst) (fun _ _ _ => rfl)

/-- A file changes only by a step of the writer of its block, in the iteration for it. -/
theorem Setup.file_changed {a : RecAct} {f : Nat} (h : S.InLoop s) (hst : S.next s a = some t) (hne : t.file f ≠ s.file f) :
    a = .writer (f % S.writers) ∧ (s.writer (f % S.writers)).blocksWritten = f / S.writers ∧
      (s.writer (f % S.writers)).cur = S.config.bucketOf f := by
  rcases next_cases hst with ⟨g, rfl, hf⟩ | ⟨k, rfl, hk, hm⟩
  · exact absurd (congrFun hf.file f) hne
  · have hfc : (s.writer k).fileCount = f := by
      by_contra hfc
      exact hne (hm.file_ne (Ne.symm hfc))
    have hc := h k hk hm.pc_ne
    have hcount : (S.blockAt k (s.writer k).blocksWritten).fileCount = f := by
      rw [← hc]
      exact hfc
    obtain ⟨hk', hb⟩ := (S.blockAt_fileCount_iff hk _ f).mp hcount
    have hcur : (s.writer k).cur = (S.blockAt k (s.writer k).blocksWritten).cur := congrArg BlockCursor.cur hc
    rw [hb, hk', S.blockAt_block] at hcur
    rw [← hk'] at hcur ⊢
    exact ⟨rfl, hb, hcur⟩

/-! ## Block numbers -/

/-- What all the programs agree on about block `f`, with a table of directories. -/
structure Setup.Agrees (S : Setup) (writerPath : Nat → List Char) (f : Nat) : Prop where
  /-- one writer has the block, in one iteration -/
  writer : ∀ id < S.writers, ∀ i, (S.blockAt id i).fileCount = f ↔ id = f % S.writers ∧ i = f / S.writers
  /-- it reads it from the bucket that stepping through the buckets has come to after `f` steps -/
  bucket : (S.blockAt (f % S.writers) (f / S.writers)).cur = S.config.nextCur^[f] S.config.start1G
  /-- both capture threads are there in their fill `f` -/
  threads : ∀ writers u tr v, (S.config.capture writers).init u → Run (S.config.capture writers) u tr v →
    (v.drv.hist.allocFill = f → v.drv.alloc.cur = S.config.nextCur^[f] S.config.start1G) ∧
      (v.drv.hist.procFill = f → v.drv.proc.cur = S.config.nextCur^[f] S.config.start1G)
  /-- in a recording, only that writer, in that iteration and at that bucket, writes to the file -/
  written : ∀ tr s a t, Run S.system S.start tr s → S.next s a = some t → t.file f ≠ s.file f →
    a = .writer (f % S.writers) ∧ (s.writer (f % S.writers)).blocksWritten = f / S.writers ∧
      (s.writer (f % S.writers)).cur = S.config.nextCur^[f] S.config.start1G
  /-- the readers that begin with the first file open the file that the writer writes -/
  sequential : (S.nextFile^[f] Reader.first).fname writerPath = S.todiskName writerPath (f % S.writers) (f / S.writers)
  /-- so does the reader of one block, and one that begins with an earlier block -/
  block : ∀ b ≤ f, (S.nextFile^[f - b] (S.readerAt b)).fname writerPath =
    S.todiskName writerPath (f % S.writers) (f / S.writers)
  /-- no other block has a file of that name, in whatever directory -/
  distinct : ∀ id < S.writers, ∀ i, S.todiskName writerPath id i = S.todiskName writerPath (f % S.writers) (f / S.writers) →
    id = f % S.writers ∧ i = f / S.writers

/-- For every number of writers that the programs accept, every table of directories and every block. -/
theorem block_numbering_agrees (S : Setup) (writerPath : Nat → List Char) (f : Nat) : S.Agrees writerPath f where
  writer := fun _ hid i => S.blockAt_fileCount_iff hid i f
  bucket := by rw [S.blockAt_block, S.config.nextCur_iterate]
  threads := by
    intro writers u tr v hi hr
    obtain ⟨ha, hp⟩ := Config.atFill_of_run hi hr
    exact ⟨fun hf => hf ▸ ha, fun hf => hf ▸ hp⟩
  written := by
    intro tr s a t hr hst hne
    rw [S.config.nextCur_iterate]
    exact Setup.file_changed (Setup.inLoop_of_run hr) hst hne
  sequential := by
    rw [← S.readerAt_zero, S.nextFile_iterate, Nat.zero_add]
    exact S.readerAt_fname writerPath f
  block := by
    intro b hb
    rw [S.nextFile_iterate, Nat.add_sub_cancel' hb]
    exact S.readerAt_fname writerPath f
  distinct := by
    intro id hid i h
    have hn := fileName_inj h
    rw [S.blockAt_block] at hn
    exact (S.blockAt_fileCount_iff hid i f).mp hn

/-- Twelve writers share two directories; block 25 is the third block of writer 1, from bucket 20. -/
theorem block_numbering_agrees_shared :
    (Setup.shipped 12 (by decide)).todiskName (fun k => if k % 3 = 0 then "/mnt/sda".toList else "/mnt/sdb".toList) 1 2 =
        "/mnt/sdb/file00025".toList ∧
      ((Setup.shipped 12 (by decide)).blockAt 1 2).cur = 20 ∧
      (Setup.shipped 12 (by decide)).Agrees (fun k => if k % 3 = 0 then "/mnt/sda".toList else "/mnt/sdb".toList) 25 :=
  ⟨by decide, by decide, block_numbering_agrees _ _ 25⟩

end NicRecorder
