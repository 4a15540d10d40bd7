import NicRecorder.Lemmas.Detect

/-!
# The first overrun is detected

A writer that finds the flag of its next bucket set when it comes there takes it as a sign that the driver has gone round, raises
the stop and marks its file. `first_overrun_detected`: after the first overrun the writer concerned finds the flag set, unless
the stop has been raised before. `overrun_read_nonzero_false`: it need not find it set when another writer has raised the stop.
-/

namespace NicRecorder

open Runs

variable {S : Setup} {s t : RecState} {k n : Nat}

/-! ## The first overrun -/

/-- `f` is the smallest block that the driver overran in a run. -/
def Setup.FirstOverrun (S : Setup) (tr : List (RecState × RecAct)) (f : Nat) : Prop :=
  (∃ x ∈ tr, S.Overruns f x.1 x.2) ∧ ∀ g < f, Meets (fun s a => ¬S.Overruns g s a) tr

theorem Setup.FirstOverrun.unique {tr : List (RecState × RecAct)} {f g : Nat} (hf : S.FirstOverrun tr f)
    (hg : S.FirstOverrun tr g) : f = g := by
  obtain ⟨⟨x, hx, hxf⟩, hf⟩ := hf
  obtain ⟨⟨y, hy, hyg⟩, hg⟩ := hg
  rcases Nat.lt_trichotomy f g with hlt | he | hlt
  · exact absurd hxf (hg f hlt x hx)
  · exact he
  · exact absurd hyg (hf g hlt y hy)

/-- Only `startNext` changes the note of the first overrun, and the fill of the refill thread. -/
theorem next_overrun {a : RecAct} (h : S.next s a = some t) :
    a = .drv .startNext ∧ t.ledger.overrun = S.noteOverrun s (s.drv.allocFill + 1) ∧
      t.drv.allocFill = s.drv.allocFill + 1 ∨
    a ≠ .drv .startNext ∧ t.ledger.overrun = s.ledger.overrun ∧ t.drv.allocFill = s.drv.allocFill := by
  rcases next_cases h with ⟨f, rfl, hf⟩ | ⟨k, rfl, _, hm⟩
  · cases hf with
    | startNext => exact Or.inl ⟨rfl, rfl, rfl⟩
    | _ => exact Or.inr ⟨nofun, rfl, rfl⟩
  · obtain ⟨c, hl⟩ := hm.ledger
    exact Or.inr ⟨nofun, by rw [hl], by rw [hm.drv]⟩

/-- A first overrun stays the first if no smaller block is overrun. -/
theorem Setup.FirstOverrun.snoc {tr : List (RecState × RecAct)} {f : Nat} {a : RecAct} (h : S.FirstOverrun tr f)
    (hno : ∀ g < f, ¬S.Overruns g s a) : S.FirstOverrun (tr ++ [(s, a)]) f := by
  obtain ⟨⟨x, hx, hov⟩, hmin⟩ := h
  exact ⟨⟨x, List.mem_append_left _ hx, hov⟩, fun g hg => meets_snoc.mpr ⟨hmin g hg, hno g hg⟩⟩

/-- The note in the history is the first overrun of the run. -/
theorem overrun_of_run {tr : List (RecState × RecAct)} (hr : Run S.system S.start tr s) :
    (s.ledger.overrun = none → ∀ g, Meets (fun u a => ¬S.Overruns g u a) tr) ∧
      ∀ f, s.ledger.overrun = some f → S.FirstOverrun tr f ∧ f + S.config.numBuckets ≤ s.drv.allocFill := by
  generalize hs : S.start = s₀ at hr
  induction hr with
  | nil => exact ⟨fun _ _ => meets_nil _, fun f hf => by subst hs; cases hf⟩
  | @snoc u v tr a _ hst ih =>
    obtain ⟨ihn, ihs⟩ := ih
    rcases next_overrun hst with ⟨rfl, ho, ha⟩ | ⟨hne, ho, ha⟩
    · rw [ho, ha]
      cases hu : u.ledger.overrun with
      | some g =>
        -- The block noted first is smaller than any block that is overrun now.
        obtain ⟨hg, hle⟩ := ihs g hu
        have hnote : S.noteOverrun u (u.drv.allocFill + 1) = some g := by simp [Setup.noteOverrun, hu]
        rw [hnote]
        refine ⟨fun hn => absurd hn (Option.some_ne_none _), fun f hf => ?_⟩
        cases hf
        refine ⟨hg.snoc fun j hj hov => ?_, by omega⟩
        have := hov.2.1
        omega
      | none =>
        have hnone := ihn hu
        simp only [Setup.noteOverrun, hu]
        split
        · next hx =>
          refine ⟨fun hn => absurd hn (Option.some_ne_none _), fun f hf => ?_⟩
          cases hf
          refine ⟨⟨⟨_, List.mem_append_right _ (List.mem_singleton_self _), rfl, by simp only; omega, hx.2⟩, ?_⟩, by omega⟩
          refine fun j hj => meets_snoc.mpr ⟨hnone j, fun hov => ?_⟩
          have := hov.2.1
          omega
        · next hx =>
          refine ⟨fun _ j => meets_snoc.mpr ⟨hnone j, fun hov => hx ?_⟩, fun f hf => absurd hf (Option.some_ne_none f).symm⟩
          obtain ⟨_, hj, hc⟩ := hov
          have hj' : u.drv.allocFill + 1 - S.config.numBuckets = j := by omega
          exact ⟨by omega, hj' ▸ hc⟩
    · have hno : ∀ g, ¬S.Overruns g u a := fun g hov => hne hov.1
      rw [ho, ha]
      exact ⟨fun hn g => meets_snoc.mpr ⟨ihn hn g, hno g⟩, fun f hf => ⟨(ihs f hf).1.snoc fun g _ => hno g, (ihs f hf).2⟩⟩

theorem firstOverrun_iff {tr : List (RecState × RecAct)} (hr : Run S.system S.start tr s) {f : Nat} :
    S.FirstOverrun tr f ↔ s.ledger.overrun = some f := by
  obtain ⟨hn, hs⟩ := overrun_of_run hr
  constructor
  · intro hf
    cases ho : s.ledger.overrun with
    | none =>
      obtain ⟨⟨x, hx, hov⟩, _⟩ := hf
      exact absurd hov (hn ho f x hx)
    | some g => rw [hf.unique (hs g ho).1]
  · exact fun hf => (hs f hf).1

/-! ## What the writer does then -/

/-- The steps that a writer takes in a run. -/
def stepsOf (k : Nat) (tr : List (RecState × RecAct)) : Nat := (tr.map Prod.snd).count (.writer k)

theorem stepsOf_snoc (k : Nat) (tr : List (RecState × RecAct)) (s : RecState) (a : RecAct) :
    stepsOf k (tr ++ [(s, a)]) = stepsOf k tr + if a = .writer k then 1 else 0 := by
  by_cases h : a = .writer k
  · simp [stepsOf, h]
  · simp [stepsOf, h]

/-- The accesses left to a writer that has found a flag. -/
def Setup.left (S : Setup) (w : Writer) : Nat :=
  match w.pc with
  | .raiseStop => S.lenPieces + S.dataPieces + 10
  | .markStalled => S.lenPieces + S.dataPieces + 9
  | .copyCaptured => S.lenPieces + S.dataPieces + 8
  | .copyLast => S.lenPieces + S.dataPieces + 7
  | .copyStalled => S.lenPieces + S.dataPieces + 6
  | .copyLens => S.lenPieces - w.i + S.dataPieces + 5
  | .readLast => S.dataPieces + 4
  | .reset => S.dataPieces + 3
  | .copyData => S.lenPieces + S.dataPieces - w.i + 2
  | .close => 1
  | .again0 | .poll | .pollStop | .exited => 0

/-- A writer has found the flag of block `n` set at once. From then on it raises the stop, marks the bucket, copies the mark to
the file, and ends when the file is complete. -/
def Setup.Stalling (S : Setup) (k n : Nat) (s : RecState) : Prop :=
  (s.writer k).fileCount = n ∧ ((s.writer k).pc = .raiseStop ∨ s.mem.userStop = true) ∧
  match (s.writer k).pc with
  | .raiseStop | .markStalled => True
  | .copyCaptured | .copyLast | .copyStalled => (s.writer k).stalled = true ∧ s.mem.stalled (s.writer k).cur = 1
  | .copyLens | .copyData | .close => (s.writer k).stalled = true ∧ ∃ img, s.file n = some img ∧ img.stalled = 1
  | .readLast | .reset =>
    (s.writer k).stalled = true ∧ S.lenPieces ≤ (s.writer k).i ∧ ∃ img, s.file n = some img ∧ img.stalled = 1
  | .exited => ∃ img, s.file n = some img ∧ img.closed = true ∧ img.stalled = 1
  | .again0 | .poll | .pollStop => False

/-- The marks of the buckets are never taken back. -/
theorem next_stalled {a : RecAct} (h : S.next s a = some t) {b : Nat} (hb : s.mem.stalled b = 1) : t.mem.stalled b = 1 := by
  rcases next_cases h with ⟨f, _, hf⟩ | ⟨j, _, _, hm⟩
  · cases hf <;> exact hb
  · cases hm with
    | mark =>
      by_cases hc : b = (s.writer j).cur
      · simp [hc]
      · simpa [hc] using hb
    | _ => exact hb

/-- The steps of the others do not keep a writer from marking its file. -/
theorem Setup.Stalling.other {a : RecAct} (h : S.Stalling k n s) (hs : Shape S s) (hk : k < S.writers)
    (hst : S.next s a = some t) (ha : a ≠ .writer k) : S.Stalling k n t := by
  have hw := next_writer hst ha
  have hf : t.file n = s.file n := by
    rcases next_cases hst with ⟨f, _, hf⟩ | ⟨j, rfl, hj, hm⟩
    · rw [hf.file]
    · refine hm.file_ne fun he => ha ?_
      have hn := (hs.writers j hj).number
      rw [← he, ← h.1, (hs.writers k hk).number] at hn
      rw [hn]
  obtain ⟨h1, h2, h3⟩ := h
  refine ⟨hw ▸ h1, ?_, ?_⟩ <;> rw [hw]
  · exact h2.imp_right (next_userStop hst)
  · rw [hf]
    revert h3
    cases (s.writer k).pc <;> first | exact id | exact fun h => ⟨h.1, next_stalled hst h.2⟩

/-- Each of its own steps brings it nearer to its end. -/
theorem Setup.Stalling.own (h : S.Stalling k n s) (hs : WriterShape S s k) (hm : Moves S s k t) :
    S.Stalling k n t ∧ S.left (t.writer k) + 1 ≤ S.left (s.writer k) := by
  obtain ⟨rfl, h2, h3⟩ := h
  cases hm with
  | look hpc | wait hpc | take hpc | check hpc => simp [hpc] at h3
  | raise hpc => exact ⟨⟨by simp, by simp, by simp⟩, by simp [Setup.left, hpc]⟩
  | mark hpc => exact ⟨⟨by simp, Or.inr (by simpa [hpc] using h2), by simp⟩, by simp [Setup.left, hpc]⟩
  | create hpc | copyLast hpc =>
    simp only [hpc] at h3
    exact ⟨⟨by simp, Or.inr (by simpa [hpc] using h2), by simpa using h3⟩, by simp [Setup.left, hpc]⟩
  | copyStalled hpc =>
    obtain ⟨img, hi, _⟩ := hs.opened (by rw [hpc]; rfl)
    simp only [hpc] at h3
    exact ⟨⟨by simp, Or.inr (by simpa [hpc] using h2), by simpa [hi] using h3⟩, by simp [Setup.left, hpc]⟩
  | copyLen hpc hlt =>
    simp only [hpc] at h3
    obtain ⟨h3, img, hi, hst⟩ := h3
    refine ⟨⟨by simp, Or.inr (by simpa [hpc] using h2), by simpa [hi] using ⟨h3, hst⟩⟩, ?_⟩
    simp only [Setup.left, hpc, RecState.editFile_writer, RecState.setWriter_self]
    omega
  | lensDone hpc hge =>
    simp only [hpc] at h3
    obtain ⟨h3, hex⟩ := h3
    refine ⟨⟨by simp, Or.inr (by simpa [hpc] using h2), ?_⟩, by simp [Setup.left, hpc]⟩
    simp only [RecState.setWriter_self, RecState.setWriter_file]
    exact ⟨h3, by omega, hex⟩
  | readLast hpc =>
    simp only [hpc] at h3
    exact ⟨⟨by simp, Or.inr (by simpa [hpc] using h2), by simpa using h3⟩, by simp [Setup.left, hpc]⟩
  | reset hpc =>
    simp only [hpc] at h3
    obtain ⟨h3, hle, hex⟩ := h3
    refine ⟨⟨by simp, Or.inr (by simpa [hpc] using h2), by simpa using ⟨h3, hex⟩⟩, ?_⟩
    simp only [Setup.left, hpc, RecState.setWriter_self]
    omega
  | copyPiece hpc hlt =>
    simp only [hpc] at h3
    obtain ⟨h3, img, hi, hst⟩ := h3
    refine ⟨⟨by simp, Or.inr (by simpa [hpc] using h2), by simpa [hi] using ⟨h3, hst⟩⟩, ?_⟩
    simp only [Setup.left, hpc, RecState.editFile_writer, RecState.setWriter_self]
    omega
  | dataDone hpc hge =>
    simp only [hpc] at h3
    exact ⟨⟨by simp, Or.inr (by simpa [hpc] using h2), by simpa using h3⟩, by simp [Setup.left, hpc]⟩
  | close hpc =>
    simp only [hpc] at h3
    obtain ⟨h3, img, hi, hst⟩ := h3
    have hend : S.endBlock (s.writer k) = { s.writer k with pc := .exited } := if_pos (Or.inr h3)
    rw [hend]
    exact ⟨⟨by simp, Or.inr (by simpa [hpc] using h2), by simpa [hi] using hst⟩, by simp [Setup.left, hpc]⟩

/-- A run in which a writer that found the flag set goes on: it raises the stop with its next step, and completes a file that is
marked. -/
theorem Setup.Stalling.run {tr : List (RecState × RecAct)} (h : S.Stalling k n s) (hs : Shape S s) (hk : k < S.writers)
    (hr : Run S.system s tr t) : S.Stalling k n t ∧ S.left (t.writer k) + stepsOf k tr ≤ S.left (s.writer k) := by
  refine (?_ : (S.Stalling k n t ∧ S.left (t.writer k) + stepsOf k tr ≤ S.left (s.writer k)) ∧ Shape S t).1
  induction hr with
  | nil => exact ⟨⟨h, by simp [stepsOf]⟩, hs⟩
  | @snoc u v tr a _ hst ih =>
    obtain ⟨⟨hu, hle⟩, hsu⟩ := ih
    refine ⟨?_, hsu.step hst⟩
    rw [stepsOf_snoc]
    by_cases ha : a = .writer k
    · rcases next_cases hst with ⟨f, hf, _⟩ | ⟨j, hj, _, hm⟩
      · exact absurd (hf.symm.trans ha) (by simp)
      · cases hj.symm.trans ha
        obtain ⟨hv, hlt⟩ := hu.own (hsu.writers k hk) hm
        exact ⟨hv, by rw [if_pos ha]; omega⟩
    · exact ⟨hu.other hsu hk hst ha, by rw [if_neg ha, next_writer hst ha]; omega⟩

/-- A writer that has seen no stop and finds the flag of its bucket set at once goes on to raise the stop. -/
theorem next_raiseStop (hk : k < S.writers) (hpc : (s.writer k).pc = .poll) (he : (s.writer k).endCnt = 0)
    (hd : (s.writer k).delayStop = 0) (hc : s.mem.captured (s.writer k).cur ≠ 0) :
    ∃ t, S.next s (.writer k) = some t ∧ S.Stalling k (s.writer k).fileCount t ∧
      S.left (t.writer k) = S.lenPieces + S.dataPieces + 10 := by
  refine ⟨_, by simp only [Setup.next, if_pos hk, Setup.writerStep, hpc, if_neg hc]; rfl, ?_, ?_⟩
  · simp [Setup.Stalling, he, hd]
  · simp [Setup.left, he, hd]

/-- Stall detection. Let `f` be the first block that the driver overruns, and let its writer come to its next block and read the
flag for the first time. Then the flag is set, or the stop has been raised. If it is set and the writer has seen no stop, then
whatever the others do it raises the stop with its step after that, and once it has taken the rest of its steps the file of the
block is complete and marked as stalled. -/
theorem first_overrun_detected (S : Setup) {s : RecState} {tr : List (RecState × RecAct)} {f : Nat}
    (hr : Run S.system S.start tr s) (hf : S.FirstOverrun tr f) (hpc : (s.writer (f % S.writers)).pc = .poll)
    (he : (s.writer (f % S.writers)).endCnt = 0)
    (hblock : (s.writer (f % S.writers)).fileCount = f + S.writers) :
    (s.mem.captured (s.writer (f % S.writers)).cur ≠ 0 ∨ s.mem.userStop = true) ∧
    (s.mem.captured (s.writer (f % S.writers)).cur ≠ 0 → (s.writer (f % S.writers)).delayStop = 0 →
      ∃ t, S.next s (.writer (f % S.writers)) = some t ∧ ∀ tr' u, Run S.system t tr' u →
        (1 ≤ stepsOf (f % S.writers) tr' → u.mem.userStop = true) ∧
        (S.lenPieces + S.dataPieces + 10 ≤ stepsOf (f % S.writers) tr' →
          ∃ img, u.file (f + S.writers) = some img ∧ img.closed = true ∧ img.stalled = 1)) := by
  have hs := shape_of_run hr
  have hk : f % S.writers < S.writers := Nat.mod_lt _ S.writers_pos
  have hbucket := (hs.writers _ hk).bucket
  rw [hblock] at hbucket
  constructor
  · by_cases hu : s.mem.userStop = true
    · exact Or.inr hu
    · refine Or.inl ?_
      have hd := detect_of_run hr (by simpa using hu)
      have ho := (firstOverrun_iff hr).mp hf
      have hle := hd.started f ho
      have hW := S.writers_le
      rw [hbucket]
      refine hd.kept (f + S.writers) (hs.done _ (by omega)) (Or.inr ?_) fun g hg => ?_
      · rw [Nat.add_mod_right]
        exact ⟨hblock, by rw [hpc]; rfl⟩
      · cases ho.symm.trans hg
        omega
  · intro hc hd
    obtain ⟨t, hst, hstall, hleft⟩ := next_raiseStop hk hpc he hd hc
    rw [hblock] at hstall
    refine ⟨t, hst, fun tr' u hrun => ?_⟩
    obtain ⟨⟨_, hu, hphase⟩, hcount⟩ := hstall.run (hs.step hst) hk hrun
    rw [hleft] at hcount
    constructor
    · intro hone
      rcases hu with hp | hu
      · simp only [Setup.left, hp] at hcount
        omega
      · exact hu
    · intro hall
      cases hp : (u.writer (f % S.writers)).pc <;> simp only [hp] at hphase <;>
        first | exact hphase | (simp only [Setup.left, hp] at hcount; omega)

/-! ## A run in which the flag is gone -/

/-- Twelve writers. Writer 0 is slow with the data of block 0, and the driver comes round to its bucket. Writer 3 has been
waiting at the bucket for block 15, writes it, and goes on to block 27, where it finds the flag of block 12 and raises the stop.
It clears the flag after writer 0 has come to block 12 and before it has looked at it. -/
def clearedFlag : List RecAct :=
  writerSteps 0 3 ++ writerSteps 3 3 ++ wholeFill ++ writerSteps 0 8 ++ wholeFills 3 ++ writerSteps 3 14 ++ wholeFills 12 ++
    writerSteps 3 13 ++ writerSteps 0 4 ++ writerSteps 3 9

/-- The first read of a writer after the first overrun can find the flag cleared, even if the writer has seen no stop. -/
theorem overrun_read_nonzero_false : ¬∀ (S : Setup) (tr : List (RecState × RecAct)) (s : RecState) (f : Nat),
    Run S.system S.start tr s → S.FirstOverrun tr f → (s.writer (f % S.writers)).pc = .poll →
    (s.writer (f % S.writers)).endCnt = 0 → (s.writer (f % S.writers)).fileCount = f + S.writers →
    (s.writer (f % S.writers)).delayStop = 0 → s.mem.captured (s.writer (f % S.writers)).cur ≠ 0 := by
  intro h
  have hrun : ((Setup.shipped 12 (by decide)).run (fun _ _ => true) clearedFlag
      (Setup.shipped 12 (by decide)).start).any (fun s =>
      s.ledger.overrun = some 0 && (s.writer 0).pc = .poll && (s.writer 0).endCnt = 0 && (s.writer 0).fileCount = 12 &&
        (s.writer 0).delayStop = 0 && s.mem.captured (s.writer 0).cur = 0) = true := by
    decide +kernel
  obtain ⟨tr, s, hr, hp⟩ := exists_run hrun
  simp only [Bool.and_eq_true, decide_eq_true_eq] at hp
  obtain ⟨⟨⟨⟨⟨ho, hpc⟩, he⟩, hb⟩, hd⟩, hc⟩ := hp
  exact h _ tr s 0 hr ((firstOverrun_iff hr).mpr ho) hpc he hb hd hc

/-- One writer that is slow with the data of block 0 while the driver goes round. -/
def slowWriter : List RecAct :=
  writerSteps 0 3 ++ wholeFill ++ writerSteps 0 8 ++ wholeFills 14 ++ writerSteps 0 4

/-- The writer of the only writer's recording finds the flag of block 1 set. -/
theorem first_overrun_detected_slow : ∃ (tr : List (RecState × RecAct)) (s t : RecState),
    Run (Setup.shipped 1 (by decide)).system (Setup.shipped 1 (by decide)).start tr s ∧
      (Setup.shipped 1 (by decide)).FirstOverrun tr 0 ∧ (s.writer 0).fileCount = 1 ∧
      s.mem.captured (s.writer 0).cur ≠ 0 ∧ (Setup.shipped 1 (by decide)).next s (.writer 0) = some t ∧
      ∀ tr' u, Run (Setup.shipped 1 (by decide)).system t tr' u → 12 ≤ stepsOf 0 tr' →
        ∃ img, u.file 1 = some img ∧ img.closed = true ∧ img.stalled = 1 := by
  have hrun : ((Setup.shipped 1 (by decide)).run (fun _ _ => true) slowWriter
      (Setup.shipped 1 (by decide)).start).any (fun s =>
      s.ledger.overrun = some 0 && (s.writer 0).pc = .poll && (s.writer 0).endCnt = 0 && (s.writer 0).fileCount = 1 &&
        (s.writer 0).delayStop = 0 && s.mem.userStop = false) = true := by
    decide +kernel
  obtain ⟨tr, s, hr, hp⟩ := exists_run hrun
  simp only [Bool.and_eq_true, decide_eq_true_eq] at hp
  obtain ⟨⟨⟨⟨⟨ho, hpc⟩, he⟩, hb⟩, hd⟩, hu⟩ := hp
  obtain ⟨hread, hthen⟩ := first_overrun_detected _ hr ((firstOverrun_iff hr).mpr ho) hpc he hb
  have hc := hread.resolve_right (by simp [hu])
  obtain ⟨t, hst, hall⟩ := hthen hc hd
  exact ⟨tr, s, t, hr, (firstOverrun_iff hr).mpr ho, hb, hc, hst, fun tr' u hru => (hall tr' u hru).2⟩

end NicRecorder
