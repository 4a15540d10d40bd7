import NicRecorder.Lemmas.Moves

/-!
# What holds in every recording

`Shape` says how far the capture threads are apart, what a flag in a bucket stands for, whose tag a piece has, and how the block
number of a writer, its bucket and its files belong together. It holds in every state of every recording, whatever the speeds.
-/

namespace NicRecorder

open Runs

variable {S : Setup} {s t : RecState} {k : Nat}

/-- A writer writes the blocks of its residue class in order, each from the bucket of its fill. -/
structure WriterShape (S : Setup) (s : RecState) (k : Nat) : Prop where
  number : (s.writer k).fileCount % S.writers = k
  bucket : (s.writer k).cur = S.config.bucketOf (s.writer k).fileCount
  below : ∀ n, n % S.writers = k → n < (s.writer k).fileCount → s.closed n = true
  above : ∀ n, n % S.writers = k → (s.writer k).fileCount < n → s.file n = none
  unopened : (s.writer k).pc.writes = false → (s.writer k).pc ≠ .exited → s.file (s.writer k).fileCount = none
  opened : (s.writer k).pc.writes = true → ∃ img, s.file (s.writer k).fileCount = some img ∧ img.closed = false

/-- The invariant of every recording. -/
structure Shape (S : Setup) (s : RecState) : Prop where
  lag : s.drv.procFill ≤ s.drv.allocFill ∧ s.drv.allocFill ≤ s.drv.procFill + 1
  running : s.mem.userStop = false → s.drv.allocEnded = false
  going : s.drv.allocEnded = false → s.drv.ending = .recording
  done : ∀ n < s.drv.allocFill, s.ledger.publishedEver n = true
  own : s.drv.published = true → s.ledger.publishedEver s.drv.allocFill = true
  fresh : ∀ n, s.ledger.publishedEver n = true → n ≤ s.drv.procFill
  pubFill_le : ∀ b, s.ledger.pubFill b ≤ s.drv.procFill
  latest : ∀ n, s.ledger.publishedEver n = true → n ≤ s.ledger.pubFill (S.config.bucketOf n)
  flag : ∀ b, s.mem.captured b ≠ 0 → S.config.bucketOf (s.ledger.pubFill b) = b ∧
    s.ledger.publishedEver (s.ledger.pubFill b) = true ∧ s.mem.captured b = s.ledger.size (s.ledger.pubFill b)
  counted : ∀ n < s.drv.procFill, s.ledger.packets n = s.ledger.size n
  counting : s.ledger.packets s.drv.procFill = s.drv.count
  uncounted : ∀ n, s.drv.procFill < n → s.ledger.packets n = 0
  final : s.drv.ending ≠ .recording → s.ledger.size s.drv.procFill = s.drv.count
  live : s.ledger.publishedEver s.drv.procFill = true → s.drv.count ≠ 0
  ended : ∀ b, s.mem.last b ≠ 0 → s.drv.ending = .ended ∧ b = S.config.bucketOf s.drv.procFill
  lastSet : s.drv.ending = .ended → s.mem.last (S.config.bucketOf s.drv.procFill) ≠ 0
  tags : ∀ b x n, s.mem.cell b x = some n → S.config.bucketOf n = b ∧ n ≤ s.drv.allocFill
  writers : ∀ k < S.writers, WriterShape S s k

/-! ## The writers -/

/-- The shape of a writer is about its own variables and the files of its blocks. -/
theorem WriterShape.congr (h : WriterShape S s k) (hw : t.writer k = s.writer k)
    (hf : ∀ n, n % S.writers = k → t.file n = s.file n) : WriterShape S t k := by
  have hfc := hf _ h.number
  refine ⟨?_, ?_, ?_, ?_, ?_, ?_⟩ <;> rw [hw]
  · exact h.number
  · exact h.bucket
  · intro n hn hlt
    rw [RecState.closed_congr (hf n hn)]
    exact h.below n hn hlt
  · intro n hn hlt
    rw [hf n hn]
    exact h.above n hn hlt
  · rw [hfc]
    exact h.unopened
  · rw [hfc]
    exact h.opened

/-- A step that keeps the block number and the bucket of a writer, and opens or edits its file as its next access says. -/
theorem WriterShape.same (h : WriterShape S s k) (hc : (t.writer k).cur = (s.writer k).cur)
    (hn : (t.writer k).fileCount = (s.writer k).fileCount)
    (hf : ∀ n, n ≠ (s.writer k).fileCount → t.file n = s.file n)
    (hu : (t.writer k).pc.writes = false → (t.writer k).pc ≠ .exited → t.file (s.writer k).fileCount = none)
    (ho : (t.writer k).pc.writes = true → ∃ img, t.file (s.writer k).fileCount = some img ∧ img.closed = false) :
    WriterShape S t k := by
  refine ⟨hn ▸ h.number, ?_, ?_, ?_, ?_, ?_⟩ <;> rw [hn]
  · rw [hc]
    exact h.bucket
  · intro n hk hlt
    rw [RecState.closed_congr (hf n (by omega))]
    exact h.below n hk hlt
  · intro n hk hlt
    rw [hf n (by omega)]
    exact h.above n hk hlt
  · exact hu
  · exact ho

/-- The block of a writer at work is not complete. -/
theorem WriterShape.unfinished (h : WriterShape S s k) (hpc : (s.writer k).pc ≠ .exited) :
    s.closed (s.writer k).fileCount = false := by
  cases hw : (s.writer k).pc.writes with
  | false => exact RecState.closed_none (h.unopened hw hpc)
  | true =>
    obtain ⟨img, hi, hc⟩ := h.opened hw
    simp [RecState.closed, hi, hc]

/-- The next block of a residue class is one round of the writers on. -/
theorem class_gap {S : Setup} {m n : Nat} (h : m % S.writers = n % S.writers) (hlt : m < n) : m + S.writers ≤ n := by
  have hle := Nat.le_of_dvd (by omega) (Nat.dvd_of_mod_eq_zero (Nat.sub_mod_eq_zero_of_mod_eq h.symm))
  omega

/-- A writer that has closed its file goes to its next block, or ends. -/
theorem WriterShape.close (h : WriterShape S s k) (hpc : (s.writer k).pc = .close) :
    WriterShape S ((s.setWriter k (S.endBlock (s.writer k))).editFile (s.writer k).fileCount fun img =>
      { img with closed := true }) k := by
  obtain ⟨img, hi, hc⟩ := h.opened (by rw [hpc]; rfl)
  have hclosed : ∀ n, n % S.writers = k → n < (s.writer k).fileCount + S.writers →
      ((s.setWriter k (S.endBlock (s.writer k))).editFile (s.writer k).fileCount fun img =>
        { img with closed := true }).closed n = true := by
    intro n hn hlt
    rcases Nat.lt_trichotomy n (s.writer k).fileCount with hl | rfl | hl
    · rw [RecState.closed_congr (RecState.editFile_ne _ (by omega))]
      exact h.below n hn hl
    · simp [RecState.closed, hi]
    · have := class_gap (h.number.trans hn.symm) hl
      omega
  have habove : ∀ n, n % S.writers = k → (s.writer k).fileCount < n →
      ((s.setWriter k (S.endBlock (s.writer k))).editFile (s.writer k).fileCount fun img =>
        { img with closed := true }).file n = none := by
    intro n hn hlt
    rw [RecState.editFile_ne _ (by omega)]
    exact h.above n hn hlt
  have hw : ((s.setWriter k (S.endBlock (s.writer k))).editFile (s.writer k).fileCount fun img =>
      { img with closed := true }).writer k = S.endBlock (s.writer k) := by simp
  by_cases hend : (s.writer k).last ≠ 0 ∨ (s.writer k).stalled = true ∨ (s.writer k).blocksWritten + 1 = S.maxBlocks
  · have hpc' : (S.endBlock (s.writer k)).pc = .exited ∧ (S.endBlock (s.writer k)).fileCount = (s.writer k).fileCount ∧
        (S.endBlock (s.writer k)).cur = (s.writer k).cur := by
      unfold Setup.endBlock
      split
      · exact ⟨rfl, rfl, rfl⟩
      · rw [if_pos (by tauto)]
        exact ⟨rfl, rfl, rfl⟩
    obtain ⟨h1, h2, h3⟩ := hpc'
    refine ⟨?_, ?_, ?_, ?_, ?_, ?_⟩ <;> rw [hw]
    · rw [h2]; exact h.number
    · rw [h2, h3]; exact h.bucket
    · intro n hn hlt
      exact hclosed n hn (by omega)
    · intro n hn hlt
      exact habove n hn (by omega)
    · exact fun _ hne => absurd h1 hne
    · rw [h1]
      exact fun hf => absurd hf (by decide)
  · have hgo : S.endBlock (s.writer k) = { s.writer k with
        pc := .again0
        blocksWritten := (s.writer k).blocksWritten + 1
        fileCount := (s.writer k).fileCount + S.writers
        cur := S.nextBucket (s.writer k).cur } := by
      unfold Setup.endBlock
      rw [if_neg (by tauto), if_neg (by tauto)]
    have hpos := S.writers_pos
    refine ⟨?_, ?_, ?_, ?_, ?_, ?_⟩ <;> rw [hw, hgo]
    · simpa using h.number
    · show S.nextBucket (s.writer k).cur = _
      rw [h.bucket, S.nextBucket_bucketOf]
    · exact hclosed
    · intro n hn hlt
      have hlt : (s.writer k).fileCount + S.writers < n := hlt
      exact habove n hn (by omega)
    · intro _ _
      exact habove _ (by simpa using h.number) (by simpa using hpos)
    · exact fun hf => absurd hf (by simp [WriterPc.writes])

/-- A step of a writer keeps its shape. -/
theorem WriterShape.moves (h : WriterShape S s k) (hm : Moves S s k t) : WriterShape S t k := by
  have hu : ∀ pc, (s.writer k).pc = pc → pc.writes = false → pc ≠ .exited → s.file (s.writer k).fileCount = none := by
    rintro _ rfl
    exact h.unopened
  have ho : ∀ pc, (s.writer k).pc = pc → pc.writes = true → ∃ img, s.file (s.writer k).fileCount = some img ∧
      img.closed = false := by
    rintro _ rfl
    exact h.opened
  have hedit : ∀ (u : RecState) (g : Image → Image), u.file = s.file → (∀ img, (g img).closed = img.closed) →
      (s.writer k).pc.writes = true → ∃ img, (u.editFile (s.writer k).fileCount g).file (s.writer k).fileCount = some img ∧
        img.closed = false := by
    intro u g hu hg hw
    obtain ⟨img, hi, hc⟩ := h.opened hw
    exact ⟨g img, by simp [hu, hi], by rw [hg, hc]⟩
  have hfile := fun n hn => hm.file_ne (n := n) hn
  cases hm with
  | look hpc =>
    have hw : ∀ stop, ((s.writer k).again0 stop).cur = (s.writer k).cur ∧
        ((s.writer k).again0 stop).fileCount = (s.writer k).fileCount ∧
        ((s.writer k).again0 stop).pc.writes = false := by
      intro stop
      unfold Writer.again0
      split
      · split <;> exact ⟨rfl, rfl, rfl⟩
      · exact ⟨rfl, rfl, rfl⟩
    refine h.same ?_ ?_ hfile ?_ ?_ <;> rw [RecState.setWriter_self]
    · exact (hw _).1
    · exact (hw _).2.1
    · exact fun _ _ => hu _ hpc rfl (by decide)
    · rw [(hw _).2.2]
      exact fun hf => absurd hf (by decide)
  | wait hpc =>
    exact h.same (by simp) (by simp) hfile (fun _ _ => hu _ hpc rfl (by decide)) (by simp [WriterPc.writes])
  | take hpc =>
    refine h.same (by simp) (by simp) hfile (fun _ _ => hu _ hpc rfl (by decide)) ?_
    rw [RecState.setWriter_self]
    intro hf
    split at hf <;> exact Bool.noConfusion hf
  | check hpc =>
    refine h.same (by simp) (by simp) hfile (fun _ _ => hu _ hpc rfl (by decide)) ?_
    rw [RecState.setWriter_self]
    intro hf
    split at hf <;> exact Bool.noConfusion hf
  | raise hpc =>
    exact h.same (by simp) (by simp) hfile (fun _ _ => hu _ hpc rfl (by decide)) (by simp [WriterPc.writes])
  | mark hpc =>
    exact h.same (by simp) (by simp) hfile (fun _ _ => hu _ hpc rfl (by decide)) (by simp [WriterPc.writes])
  | create hpc => exact h.same (by simp) (by simp) hfile (by simp [WriterPc.writes]) (fun _ => ⟨_, Function.update_self .., rfl⟩)
  | copyLast hpc | copyStalled hpc | copyLen hpc | copyPiece hpc =>
    exact h.same (by simp) (by simp) hfile (by simp [WriterPc.writes])
      (fun _ => hedit _ _ rfl (fun _ => rfl) (by rw [hpc]; rfl))
  | lensDone hpc | readLast hpc | reset hpc | dataDone hpc =>
    exact h.same (by simp) (by simp) hfile (by simp [WriterPc.writes]) (fun _ => ho _ hpc rfl)
  | close hpc => exact h.close hpc

theorem Moves.pc_ne (h : Moves S s k t) : (s.writer k).pc ≠ .exited := by
  cases h <;> simp [*]

/-- A complete file stays so: its writer has gone on. -/
theorem Moves.closed_mono (h : Moves S s k t) (hs : WriterShape S s k) {n : Nat} (hn : s.closed n = true) :
    t.closed n = true := by
  by_cases he : n = (s.writer k).fileCount
  · rw [he, hs.unfinished h.pc_ne] at hn
    exact absurd hn (by decide)
  · rw [RecState.closed_congr (h.file_ne he)]
    exact hn

/-! ## Blocks that wait -/

/-- The writer of a block has not yet found the flag of the block. -/
def Setup.Untaken (S : Setup) (s : RecState) (m : Nat) : Prop :=
  (s.writer (m % S.writers)).fileCount < m ∨
    (s.writer (m % S.writers)).fileCount = m ∧ (s.writer (m % S.writers)).pc.waits = true

/-- A writer comes to a block from the block before, or waits at it already. -/
theorem Moves.waits (h : Moves S s k t) : (s.writer k).fileCount ≤ (t.writer k).fileCount ∧
    ((t.writer k).pc.waits = true → (s.writer k).pc.waits = true ∨ (s.writer k).fileCount < (t.writer k).fileCount) := by
  cases h with
  | look hpc =>
    rw [RecState.setWriter_self, ((s.writer k).again0_keeps _).1]
    exact ⟨Nat.le_refl _, fun _ => Or.inl (by rw [hpc]; rfl)⟩
  | close =>
    simp only [RecState.editFile_writer, RecState.setWriter_self]
    have hpos := S.writers_pos
    rcases S.endBlock_cases (s.writer k) with ⟨hp, he, _⟩ | ⟨_, he, _⟩ <;> rw [he]
    · exact ⟨Nat.le_refl _, fun hw => absurd hw (by rw [hp]; decide)⟩
    · exact ⟨by omega, fun _ => Or.inr (by omega)⟩
  | wait hpc | take hpc | check hpc => exact ⟨by simp, fun _ => Or.inl (by rw [hpc]; rfl)⟩
  | _ => exact ⟨by simp, fun hw => absurd hw (by simp [WriterPc.waits])⟩

/-- A block that waits has waited before. -/
theorem Moves.untaken (h : Moves S s k t) {m : Nat} (hu : S.Untaken t m) : S.Untaken s m := by
  obtain ⟨hle, hw⟩ := h.waits
  unfold Setup.Untaken at hu ⊢
  by_cases hj : m % S.writers = k
  · rw [hj] at hu ⊢
    rcases Nat.lt_or_ge (s.writer k).fileCount m with hlt | hge
    · exact Or.inl hlt
    · obtain ⟨he, hp⟩ := hu.resolve_left (by omega)
      exact Or.inr ⟨by omega, (hw hp).resolve_right (by omega)⟩
  · rw [h.writer_ne hj] at hu
    exact hu

/-- The file of a block that waits is not there. -/
theorem Setup.Untaken.file_none {m : Nat} (h : S.Untaken s m) (hs : ∀ k < S.writers, WriterShape S s k) :
    s.file m = none := by
  have hws := hs _ (Nat.mod_lt m S.writers_pos)
  rcases h with hlt | ⟨he, hp⟩
  · exact hws.above m rfl hlt
  · have hnone := hws.unopened (by revert hp; cases (s.writer (m % S.writers)).pc <;> simp [WriterPc.waits, WriterPc.writes])
      (by intro hx; rw [hx] at hp; exact absurd hp (by decide))
    rw [he] at hnone
    exact hnone

/-! ## The recording -/

/-- A writer's step makes no flag. -/
theorem Moves.captured (h : Moves S s k t) (b : Nat) : t.mem.captured b = s.mem.captured b ∨
    (s.writer k).pc = .reset ∧ b = (s.writer k).cur ∧ t.mem.captured b = 0 := by
  cases h with
  | reset hpc =>
    by_cases hb : b = (s.writer k).cur
    · exact Or.inr ⟨hpc, hb, by simp [hb]⟩
    · exact Or.inl (Function.update_of_ne hb _ _)
  | _ => exact Or.inl rfl

theorem Shape.moves (h : Shape S s) (hk : k < S.writers) (hm : Moves S s k t) : Shape S t := by
  obtain ⟨c, hl⟩ := hm.ledger
  have hd := hm.drv
  refine ⟨?_, ?_, ?_, ?_, ?_, ?_, ?_, ?_, ?_, ?_, ?_, ?_, ?_, ?_, ?_, ?_,
    ?_, ?_⟩ <;> (try rw [hl]) <;> (try rw [hd])
  · exact h.lag
  · exact fun hu => h.running (hm.unstopped hu)
  · exact h.going
  · exact h.done
  · exact h.own
  · exact h.fresh
  · exact h.pubFill_le
  · exact h.latest
  · intro b hb
    rcases hm.captured b with he | ⟨_, _, he⟩
    · rw [he] at hb ⊢
      exact h.flag b hb
    · exact absurd he hb
  · exact h.counted
  · exact h.counting
  · exact h.uncounted
  · exact h.final
  · exact h.live
  · rw [hm.last]
    exact h.ended
  · rw [hm.last]
    exact h.lastSet
  · rw [hm.cell]
    exact h.tags
  · intro j hj
    by_cases hjk : j = k
    · subst hjk
      exact (h.writers j hj).moves hm
    · refine (h.writers j hj).congr (hm.writer_ne hjk) fun n hn => hm.file_ne ?_
      rintro rfl
      exact hjk (hn.symm.trans (h.writers k hk).number)

/-- A store of a flag for the fill of the recording thread. -/
theorem Shape.setFlag (h : Shape S s) {n m : Nat} (hn : n = s.drv.procFill) :
    (∀ f < s.drv.allocFill, (S.setFlag s n m).ledger.publishedEver f = true) ∧
    (∀ f, s.ledger.publishedEver f = true → (S.setFlag s n m).ledger.publishedEver f = true) ∧
    (∀ f, (S.setFlag s n m).ledger.publishedEver f = true → f ≤ s.drv.procFill) ∧
    (∀ b, (S.setFlag s n m).ledger.pubFill b ≤ s.drv.procFill) ∧
    (∀ f, (S.setFlag s n m).ledger.publishedEver f = true →
      f ≤ (S.setFlag s n m).ledger.pubFill (S.config.bucketOf f)) ∧
    (∀ b, (S.setFlag s n m).mem.captured b ≠ 0 → S.config.bucketOf ((S.setFlag s n m).ledger.pubFill b) = b ∧
      (S.setFlag s n m).ledger.publishedEver ((S.setFlag s n m).ledger.pubFill b) = true ∧
      (S.setFlag s n m).mem.captured b = (S.setFlag s n m).ledger.size ((S.setFlag s n m).ledger.pubFill b)) := by
  have hkeep : ∀ f, s.ledger.publishedEver f = true → (S.setFlag s n m).ledger.publishedEver f = true := by
    intro f hf
    simp only [Setup.setFlag, Function.update_apply]
    split
    · next he => simp [← he, hf]
    · exact hf
  have hback : ∀ f, (S.setFlag s n m).ledger.publishedEver f = true → f ≤ s.drv.procFill := by
    intro f hf
    by_cases he : f = n
    · omega
    · simp only [Setup.setFlag, Function.update_of_ne he] at hf
      exact h.fresh f hf
  refine ⟨fun f hf => hkeep f (h.done f hf), hkeep, hback, ?_, ?_, ?_⟩
  · intro b
    simp only [Setup.setFlag, Function.update_apply]
    split
    · omega
    · exact h.pubFill_le b
  · intro f hf
    have hle := hback f hf
    by_cases hb : S.config.bucketOf f = S.config.bucketOf n
    · simp only [Setup.setFlag, hb, Function.update_self]
      omega
    · have hne : f ≠ n := fun he => hb (by rw [he])
      simp only [Setup.setFlag, Function.update_of_ne hb]
      simp only [Setup.setFlag, Function.update_of_ne hne] at hf
      exact h.latest f hf
  · intro b hb
    by_cases hbn : b = S.config.bucketOf n
    · subst hbn
      simp only [Setup.setFlag, Function.update_self] at hb ⊢
      exact ⟨trivial, by simp [hb], trivial⟩
    · simp only [Setup.setFlag, Function.update_of_ne hbn] at hb ⊢
      obtain ⟨h1, h2, h3⟩ := h.flag b hb
      have hne : s.ledger.pubFill b ≠ n := fun he => hbn (by rw [← h1, he])
      simp only [Function.update_of_ne hne]
      exact ⟨h1, h2, h3⟩

/-- The refill thread publishes the fill that the recording thread is in. -/
theorem Shape.publish {m : Nat} (h : Shape S s) (ha : s.drv.allocEnded = false) (hp : s.drv.allocFill = s.drv.procFill)
    (hc : s.drv.count ≠ 0) (hm : m ≠ 0) (hw : ∀ j < S.writers, WriterShape S t j)
    (ht : t = { S.setFlag s s.drv.allocFill m with drv := { s.drv with published := true } }) : Shape S t := by
  subst ht
  obtain ⟨h1, h2, h3, h4, h5, h6⟩ := h.setFlag (n := s.drv.allocFill) (m := m) hp
  refine { h with writers := hw, done := h1, own := ?_, fresh := h3, pubFill_le := h4, latest := h5, flag := h6,
                  counted := ?_, final := ?_, live := fun _ => hc }
  · intro _
    simp [Setup.setFlag, hm]
  · intro n hn
    have hn : n < s.drv.procFill := hn
    simp only [Setup.setFlag, Function.update_of_ne (show n ≠ s.drv.allocFill by omega)]
    exact h.counted n hn
  · exact fun hne => absurd (h.going ha) hne

/-- The recording thread goes on to the fill that the refill thread is in. -/
theorem Shape.procNext (h : Shape S s) (he : s.drv.ending = .recording) (hp : s.drv.procFill < s.drv.allocFill)
    (hc : s.drv.count = s.ledger.size s.drv.procFill) (hw : ∀ j < S.writers, WriterShape S t j)
    (ht : t = { s with drv := { s.drv with procFill := s.drv.procFill + 1, count := 0 } }) : Shape S t := by
  subst ht
  refine { h with writers := hw, lag := ?_, fresh := ?_, pubFill_le := ?_, counted := ?_, counting := ?_, uncounted := ?_,
                  final := ?_, ended := ?_, live := ?_, lastSet := ?_ }
  · exact ⟨hp, Nat.le_succ_of_le h.lag.2⟩
  · exact fun n hn => Nat.le_succ_of_le (h.fresh n hn)
  · exact fun b => Nat.le_succ_of_le (h.pubFill_le b)
  · intro n hn
    rcases Nat.lt_succ_iff_lt_or_eq.mp hn with hlt | rfl
    · exact h.counted n hlt
    · exact h.counting.trans hc
  · exact h.uncounted _ (Nat.lt_succ_self _)
  · exact fun n hn => h.uncounted n ((Nat.lt_succ_self _).trans hn)
  · exact fun hne => absurd he hne
  · exact fun hpub => absurd (h.fresh _ hpub) (Nat.not_succ_le_self _)
  · exact fun b hb => absurd ((h.ended b hb).1.symm.trans he) (by decide)
  · exact fun hend => absurd (he.symm.trans hend) (by decide)

/-- The recording thread publishes its last fill. -/
theorem Shape.finalCaptured (h : Shape S s) (ha : s.drv.allocEnded = true) (he : s.drv.ending = .recording)
    (hw : ∀ j < S.writers, WriterShape S t j)
    (ht : t = { S.setFlag s s.drv.procFill s.drv.count with drv := { s.drv with ending := .flagged } }) : Shape S t := by
  subst ht
  obtain ⟨h1, h2, h3, h4, h5, h6⟩ := h.setFlag (n := s.drv.procFill) (m := s.drv.count) rfl
  refine { h with writers := hw, done := h1, own := fun hp => h2 _ (h.own hp), fresh := h3, pubFill_le := h4,
                  latest := h5, flag := h6, going := ?_, counted := ?_, final := ?_, ended := ?_, live := ?_,
                  lastSet := fun hend => by cases hend }
  · intro hn
    exact absurd ha (by simp [show s.drv.allocEnded = false from hn])
  · intro n hn
    have hn : n < s.drv.procFill := hn
    simp only [Setup.setFlag, Function.update_of_ne hn.ne]
    exact h.counted n hn
  · intro _
    simp [Setup.setFlag]
  · intro hpub
    have hpub : s.ledger.publishedEver s.drv.procFill = true ∨ s.drv.count ≠ 0 := by simpa [Setup.setFlag] using hpub
    exact hpub.elim h.live id
  · exact fun b hb => absurd ((h.ended b hb).1.symm.trans he) (by decide)

theorem Shape.fills {a : FillAct} (h : Shape S s) (hf : Fills S s a t) : Shape S t := by
  obtain ⟨hlo, hhi⟩ := h.lag
  have hw : ∀ j < S.writers, WriterShape S t j :=
    fun j hj => (h.writers j hj).congr (by rw [hf.writer]) fun n _ => by rw [hf.file]
  have htags : ∀ b x n, t.mem.cell b x = some n → S.config.bucketOf n = b ∧ n ≤ s.drv.allocFill := by
    intro b x n hc
    rcases hf.cell b x with he | ⟨m, hm, hb, he⟩
    · exact h.tags b x n (he ▸ hc)
    · cases he.symm.trans hc
      exact ⟨hb.symm, by omega⟩
  cases hf with
  | dma => exact { h with writers := hw, tags := htags }
  | accept xs he hx =>
    refine { h with writers := hw, tags := htags, counted := ?_, counting := ?_, uncounted := ?_, final := ?_,
                    live := fun _ => Nat.succ_ne_zero _ }
    · intro n hn
      have hn : n < s.drv.procFill := hn
      simp only [Function.update_of_ne hn.ne]
      exact h.counted n hn
    · simp only [Function.update_self, h.counting]
    · intro n hn
      have hn : s.drv.procFill < n := hn
      simp only [Function.update_of_ne hn.ne']
      exact h.uncounted n hn
    · exact fun hne => absurd he hne
  | publish m ha hp hc hm => exact h.publish ha hp hc hm hw rfl
  | startNext ha hp hpub =>
    refine { h with writers := hw, lag := ?_, done := ?_, own := nofun, tags := ?_ }
    · exact ⟨Nat.le_succ_of_le hlo, Nat.succ_le_succ hp.le⟩
    · intro n hn
      have hn : n < s.drv.allocFill + 1 := hn
      rcases Nat.lt_succ_iff_lt_or_eq.mp hn with hlt | rfl
      · exact h.done n hlt
      · exact h.own hpub
    · intro b x n hc
      obtain ⟨h1, h2⟩ := h.tags b x n hc
      exact ⟨h1, Nat.le_succ_of_le h2⟩
  | procNext he hp hc => exact h.procNext he hp hc hw rfl
  | allocEnd hu =>
    refine { h with writers := hw, running := ?_, going := nofun }
    intro hn
    exact absurd hu (by simp [show s.mem.userStop = false from hn])
  | finalCaptured ha he => exact h.finalCaptured ha he hw rfl
  | finalLast he =>
    refine { h with writers := hw, going := ?_, final := ?_, ended := ?_, lastSet := fun _ => by simp }
    · exact fun hn => absurd (he.symm.trans (h.going hn)) (by decide)
    · exact fun _ => h.final (by rw [he]; decide)
    · intro b hb
      refine ⟨rfl, ?_⟩
      by_contra hne
      refine absurd (h.ended b ?_).1 (by rw [he]; decide)
      simpa [show b ≠ S.config.bucketOf s.drv.procFill from hne] using hb
  | userStop => exact { h with writers := hw, running := nofun }

theorem shape_start (S : Setup) : Shape S S.start where
  lag := ⟨Nat.le_refl _, Nat.zero_le _⟩
  running := fun _ => rfl
  going := fun _ => rfl
  done := fun n hn => absurd hn (Nat.not_lt_zero n)
  own := nofun
  fresh := nofun
  pubFill_le := fun _ => Nat.le_refl _
  latest := nofun
  flag := fun _ h => absurd rfl h
  counted := fun n hn => absurd hn (Nat.not_lt_zero n)
  counting := rfl
  uncounted := fun _ _ => rfl
  final := fun h => absurd rfl h
  live := nofun
  lastSet := nofun
  ended := fun _ h => absurd rfl h
  tags := nofun
  writers := by
    intro k hk
    refine ⟨Nat.mod_eq_of_lt hk, ?_, ?_, fun _ _ _ => rfl, fun _ _ => rfl, nofun⟩
    · have := S.writers_le
      show S.config.start1G + k = S.config.start1G + k % S.config.numBuckets
      rw [Nat.mod_eq_of_lt (by omega)]
    · intro n hn hlt
      have hlt : n < k := hlt
      rw [Nat.mod_eq_of_lt (by omega)] at hn
      omega

theorem Shape.step {a : RecAct} (h : Shape S s) (hs : S.next s a = some t) : Shape S t := by
  rcases next_cases hs with ⟨f, _, hf⟩ | ⟨k, _, hk, hm⟩
  · exact h.fills hf
  · exact h.moves hk hm

theorem shape_of_run {tr : List (RecState × RecAct)} (hr : Run S.system S.start tr s) : Shape S s :=
  hr.invariant (fun _ _ _ h hs => h.step hs) (shape_start S)

end NicRecorder
