import NicRecorder.Lemmas.Shape

/-!
# Files of settled buckets

What can be said about the files when no block is overrun, no bucket is taken while the driver is in it, and no writer takes an
old flag after the stop. A writer that takes an old flag before the stop marks the bucket first, so whoever shares the bucket
with it copies the mark. Every other writer is alone in its bucket, and copies the pieces of its own fill.
-/

namespace NicRecorder

open Runs

variable {S : Setup} {s t : RecState} {k : Nat}

/-! ## The invariant -/

/-- The pieces that a writer has copied. -/
def Setup.copied (S : Setup) (w : Writer) : Nat :=
  match w.pc with
  | .copyLens | .readLast | .reset | .copyData => w.i
  | .close => S.lenPieces + S.dataPieces
  | _ => 0

/-- The mark of a file: the one that it has, or that the writer is about to copy. -/
def RecState.mark (s : RecState) (w : Writer) (img : Image) : Nat :=
  if w.pc = .copyLast ∨ w.pc = .copyStalled then s.mem.stalled w.cur else img.stalled

/-- A file that a writer is writing: the pieces copied so far are those of its fill, and unless the file is marked it has the
number of the packets. The `last` word that the writer reads is the one in the file. -/
structure Copy (S : Setup) (s : RecState) (k : Nat) (img : Image) : Prop where
  tags : ∀ x m, img.cell x = some m → m ≤ (s.writer k).fileCount
  pieces : ∀ x < S.copied (s.writer k), s.ledger.recorded (s.writer k).fileCount x = true →
    img.cell x = some (s.writer k).fileCount
  header : img.captured = s.ledger.size (s.writer k).fileCount ∨ s.mark (s.writer k) img ≠ 0
  last : (s.writer k).pc ≠ .copyLast → img.last = s.mem.last (s.writer k).cur
  lastRead : (s.writer k).pc = .reset ∨ (s.writer k).pc = .copyData ∨ (s.writer k).pc = .close →
    img.last = (s.writer k).last

/-- A writer that has taken the flag of its block, which is settled. -/
structure Holding (S : Setup) (s : RecState) (k : Nat) : Prop where
  reached : (s.writer k).fileCount ≤ s.drv.procFill
  settled : s.Settled (s.writer k).fileCount
  flag : (s.writer k).pc = .copyCaptured →
    s.mem.captured (s.writer k).cur ≠ 0 ∧ s.ledger.pubFill (s.writer k).cur = (s.writer k).fileCount ∨
      s.mem.stalled (s.writer k).cur ≠ 0
  copy : (s.writer k).pc.writes = true → ∀ img, s.file (s.writer k).fileCount = some img → Copy S s k img

/-- A writer that has found an old flag: the bucket is marked, and so is the file once the mark is copied. -/
structure Marked (s : RecState) (k : Nat) : Prop where
  bucket : s.mem.stalled (s.writer k).cur ≠ 0
  file : (s.writer k).pc.writes = true → (s.writer k).pc ≠ .copyLast → (s.writer k).pc ≠ .copyStalled →
    ∀ img, s.file (s.writer k).fileCount = some img → img.stalled ≠ 0

/-- A complete file holds its fill: the number of its packets, every piece with one of them, and no piece of a later fill. -/
structure Intact (s : RecState) (f : Nat) (img : Image) : Prop where
  captured : img.captured = s.ledger.packets f
  pieces : ∀ x, s.ledger.recorded f x = true → img.cell x = some f
  tags : ∀ x m, img.cell x = some m → m ≤ f

/-- The invariant. -/
structure Safe (S : Setup) (s : RecState) : Prop where
  free : ∀ n, n + S.config.numBuckets ≤ s.drv.allocFill → s.closed n = true
  ahead : ∀ k < S.writers, (s.writer k).fileCount ≤ s.drv.allocFill + S.writers
  later : ∀ k < S.writers, (s.writer k).polled = true → s.mem.captured (s.writer k).cur ≠ 0 →
    (s.writer k).fileCount ≤ s.ledger.pubFill (s.writer k).cur
  recorded : ∀ n x, s.ledger.recorded n x = true → n ≤ s.drv.procFill ∧ x < S.lenPieces + S.dataPieces
  memory : ∀ n x, s.ledger.recorded n x = true → s.closed n = false → s.mem.cell (S.config.bucketOf n) x = some n
  marked : ∀ k < S.writers, (s.writer k).stalled = true → Marked s k
  holding : ∀ k < S.writers, (s.writer k).pc.holds = true → (s.writer k).stalled = false → Holding S s k
  intact : ∀ f img, s.file f = some img → img.closed = true → img.stalled = 0 →
    Intact s f img ∧ s.Settled f ∧ (f < s.drv.procFill ∨ img.last ≠ 0)

theorem safe_start (S : Setup) : Safe S S.start := by
  refine ⟨?_, ?_, nofun, nofun, nofun, nofun, nofun, nofun⟩
  · intro n hn
    have hn : n + S.config.numBuckets ≤ 0 := hn
    have := S.config.numBuckets_pos
    omega
  · intro k hk
    show k ≤ 0 + S.writers
    omega

/-- No later fill of its bucket is started before a block is complete. -/
theorem Safe.alone (h : Safe S s) {m n : Nat} (hn : s.closed n = false) (hm : m ≤ s.drv.allocFill)
    (hb : S.config.bucketOf m = S.config.bucketOf n) : m ≤ n := by
  by_contra hlt
  have hgap := Config.bucketOf_gap hb.symm (by omega)
  have hc := h.free n (by omega)
  rw [hn] at hc
  exact absurd hc (by decide)

/-! ## Settled fills -/

/-- A settled fill has its packets counted. -/
theorem Shape.settled_size (hs : Shape S s) {n : Nat} (h : s.Settled n) (hn : n ≤ s.drv.procFill) :
    s.ledger.packets n = s.ledger.size n := by
  rcases h with he | hlt
  · rcases Nat.lt_or_ge n s.drv.procFill with hlt | hge
    · exact hs.counted n hlt
    · have hn : n = s.drv.procFill := by omega
      rw [hn, hs.counting, hs.final (by rw [he]; decide)]
  · exact hs.counted n hlt

/-- The driver leaves a settled fill as it is. -/
theorem Fills.settled {a : FillAct} (hf : Fills S s a t) (hs : Shape S s) {n : Nat} (h : s.Settled n) :
    t.Settled n ∧ t.ledger.size n = s.ledger.size n ∧ t.ledger.recorded n = s.ledger.recorded n ∧
      t.ledger.packets n = s.ledger.packets n := by
  cases hf with
  | accept xs he hx =>
    have hlt : n < s.drv.procFill := h.resolve_left (by rw [he]; decide)
    exact ⟨h, rfl, Function.update_of_ne hlt.ne _ _, Function.update_of_ne hlt.ne _ _⟩
  | publish m ha hp hc hm =>
    have hlt : n < s.drv.procFill := h.resolve_left (by rw [hs.going ha]; decide)
    exact ⟨h, Function.update_of_ne (hp ▸ hlt.ne) _ _, rfl, rfl⟩
  | procNext he hp hc => exact ⟨h.imp_right Nat.lt_succ_of_lt, rfl, rfl, rfl⟩
  | finalCaptured ha he =>
    have hlt : n < s.drv.procFill := h.resolve_left (by rw [he]; decide)
    exact ⟨Or.inr hlt, Function.update_of_ne hlt.ne _ _, rfl, rfl⟩
  | finalLast he => exact ⟨Or.inl rfl, rfl, rfl, rfl⟩
  | _ => exact ⟨h, rfl, rfl, rfl⟩

/-- The driver leaves alone the header of every bucket that it is not in. -/
theorem Fills.header {a : FillAct} (hf : Fills S s a t) (hs : Shape S s) {b : Nat}
    (h : s.drv.ending = .ended ∨ b ≠ S.config.bucketOf s.drv.procFill) :
    t.mem.captured b = s.mem.captured b ∧ t.ledger.pubFill b = s.ledger.pubFill b ∧ t.mem.last b = s.mem.last b := by
  cases hf with
  | publish m ha hp hc hm =>
    have hb := h.resolve_left (by rw [hs.going ha]; decide)
    rw [← hp] at hb
    exact ⟨Function.update_of_ne hb _ _, Function.update_of_ne hb _ _, rfl⟩
  | finalCaptured ha he =>
    have hb := h.resolve_left (by rw [he]; decide)
    exact ⟨Function.update_of_ne hb _ _, Function.update_of_ne hb _ _, rfl⟩
  | finalLast he =>
    have hb := h.resolve_left (by rw [he]; decide)
    exact ⟨rfl, rfl, Function.update_of_ne hb _ _⟩
  | _ => exact ⟨rfl, rfl, rfl⟩

theorem Fills.stalled {a : FillAct} (hf : Fills S s a t) : t.mem.stalled = s.mem.stalled := by cases hf <;> rfl

/-- The marks of the buckets are never taken back. -/
theorem Moves.stalled_mono (hm : Moves S s k t) {b : Nat} (hb : s.mem.stalled b ≠ 0) : t.mem.stalled b ≠ 0 := by
  cases hm with
  | mark =>
    by_cases hc : b = (s.writer k).cur
    · simp [hc]
    · simpa [hc] using hb
  | _ => exact hb

/-! ## Frames -/

/-- What a writer that holds its block relies on: its own variables and its file, its fill, and the header of its bucket. Its
flag may be cleared by another writer that has marked the bucket. -/
theorem Holding.frame (h : Holding S s k) (hw : t.writer k = s.writer k)
    (hfile : t.file (s.writer k).fileCount = s.file (s.writer k).fileCount)
    (hsize : t.ledger.size (s.writer k).fileCount = s.ledger.size (s.writer k).fileCount)
    (hrec : t.ledger.recorded (s.writer k).fileCount = s.ledger.recorded (s.writer k).fileCount)
    (hset : t.Settled (s.writer k).fileCount) (hp : s.drv.procFill ≤ t.drv.procFill)
    (hst : s.mem.stalled (s.writer k).cur ≠ 0 → t.mem.stalled (s.writer k).cur ≠ 0)
    (hlast : t.mem.last (s.writer k).cur = s.mem.last (s.writer k).cur)
    (hflag : t.mem.captured (s.writer k).cur = s.mem.captured (s.writer k).cur ∧
      t.ledger.pubFill (s.writer k).cur = s.ledger.pubFill (s.writer k).cur ∨ t.mem.stalled (s.writer k).cur ≠ 0) :
    Holding S t k := by
  refine ⟨?_, ?_, ?_, ?_⟩ <;> rw [hw]
  · exact h.reached.trans hp
  · exact hset
  · intro hpc
    rcases hflag with ⟨h1, h2⟩ | hm
    · rw [h1, h2]
      exact (h.flag hpc).imp_right hst
    · exact Or.inr hm
  · intro hpc img hi
    rw [hfile] at hi
    obtain ⟨c2, c3, c4, c5, c6⟩ := h.copy hpc img hi
    refine ⟨?_, ?_, ?_, ?_, ?_⟩ <;> rw [hw]
    · exact c2
    · rw [hrec]
      exact c3
    · rw [hsize]
      refine c4.imp_right fun hm => ?_
      unfold RecState.mark at hm ⊢
      split at hm
      · next hx =>
        rw [if_pos hx]
        exact hst hm
      · next hx =>
        rw [if_neg hx]
        exact hm
    · rw [hlast]
      exact c5
    · exact c6

theorem Marked.frame (h : Marked s k) (hw : t.writer k = s.writer k)
    (hfile : t.file (s.writer k).fileCount = s.file (s.writer k).fileCount)
    (hst : s.mem.stalled (s.writer k).cur ≠ 0 → t.mem.stalled (s.writer k).cur ≠ 0) : Marked t k := by
  refine ⟨?_, ?_⟩ <;> rw [hw]
  · exact hst h.bucket
  · rw [hfile]
    exact h.file

/-! ## The steps of the driver -/

theorem Fills.fill_mono {a : FillAct} (hf : Fills S s a t) :
    s.drv.allocFill ≤ t.drv.allocFill ∧ s.drv.procFill ≤ t.drv.procFill := by
  cases hf <;> first | exact ⟨Nat.le_refl _, Nat.le_refl _⟩ | exact ⟨Nat.le_succ _, Nat.le_refl _⟩ |
    exact ⟨Nat.le_refl _, Nat.le_succ _⟩

/-- The driver sets the flag of the fill of the recording thread, if any. -/
theorem Fills.flag {a : FillAct} (hf : Fills S s a t) (b : Nat) :
    t.mem.captured b = s.mem.captured b ∧ t.ledger.pubFill b = s.ledger.pubFill b ∨
      b = S.config.bucketOf s.drv.procFill ∧ t.ledger.pubFill b = s.drv.procFill := by
  cases hf with
  | publish m ha hp hc hm =>
    by_cases hb : b = S.config.bucketOf s.drv.procFill
    · refine Or.inr ⟨hb, ?_⟩
      simp [Setup.setFlag, hp, hb]
    · rw [← hp] at hb
      exact Or.inl ⟨Function.update_of_ne hb _ _, Function.update_of_ne hb _ _⟩
  | finalCaptured ha he =>
    by_cases hb : b = S.config.bucketOf s.drv.procFill
    · refine Or.inr ⟨hb, ?_⟩
      simp [Setup.setFlag, hb]
    · exact Or.inl ⟨Function.update_of_ne hb _ _, Function.update_of_ne hb _ _⟩
  | _ => exact Or.inl ⟨rfl, rfl⟩

/-- A step of the driver that overruns no block leaves less than a round between it and the writers. -/
theorem Safe.free_fills {a : FillAct} (h : Safe S s) (hf : Fills S s a t) (ho : S.NoOverrun s (.drv a)) (n : Nat)
    (hn : n + S.config.numBuckets ≤ t.drv.allocFill) : s.closed n = true := by
  cases hf with
  | startNext ha hp hpub =>
    have hn : n + S.config.numBuckets ≤ s.drv.allocFill + 1 := hn
    rcases Nat.lt_or_ge s.drv.allocFill (n + S.config.numBuckets) with hlt | hge
    · by_contra hc
      exact ho n ⟨rfl, by omega, by simpa using hc⟩
    · exact h.free n hge
  | _ => exact h.free n hn

/-- A packet that is counted lies in its bucket until the file is complete. -/
theorem Safe.memory_fills {a : FillAct} (h : Safe S s) (hs : Shape S s) (hf : Fills S s a t) {n x : Nat}
    (hr : s.ledger.recorded n x = true) (hc : s.closed n = false) : t.mem.cell (S.config.bucketOf n) x = some n := by
  rcases hf.cell (S.config.bucketOf n) x with he | ⟨m, hm, hb, he⟩
  · rw [he]
    exact h.memory n x hr hc
  · -- The bucket is written for a fill that is current, so for no earlier one than `n`.
    have hlag := hs.lag
    have hle := h.alone hc (m := m) (by omega) hb.symm
    have hn := (h.recorded n x hr).1
    have hge : n ≤ m := by
      by_contra hlt
      have := Config.bucketOf_gap hb.symm (by omega)
      have := S.writers_le
      omega
    rw [he, show m = n by omega]

theorem Safe.fills {a : FillAct} (h : Safe S s) (hs : Shape S s) (hf : Fills S s a t) (ho : S.NoOverrun s (.drv a)) :
    Safe S t := by
  have hlag := hs.lag
  have hW := S.writers_le
  have hmono := hf.fill_mono
  refine ⟨?_, ?_, ?_, ?_, ?_, ?_, ?_, ?_⟩ <;> (try rw [hf.closed]) <;> (try rw [hf.writer]) <;> (try rw [hf.file])
  · exact h.free_fills hf ho
  · exact fun k hk => (h.ahead k hk).trans (Nat.add_le_add_right hmono.1 _)
  · intro k hk hp hc
    rcases hf.flag (s.writer k).cur with ⟨h1, h2⟩ | ⟨hb, h2⟩
    · rw [h1] at hc
      rw [h2]
      exact h.later k hk hp hc
    · -- A flag set while the writer waits is not one of an earlier round.
      rw [h2]
      rw [(hs.writers k hk).bucket] at hb
      by_contra hlt
      have := Config.bucketOf_gap hb.symm (by omega)
      have := h.ahead k hk
      omega
  · cases hf with
    | accept xs he hx =>
      intro n x hr
      by_cases hn : n = s.drv.procFill
      · subst hn
        simp only [Function.update_self, Bool.or_eq_true, decide_eq_true_eq] at hr
        rcases hr with hr | hr
        · exact ⟨Nat.le_refl _, (hx x hr).1⟩
        · exact h.recorded _ x hr
      · simp only [Function.update_of_ne hn] at hr
        exact h.recorded n x hr
    | procNext he hp hc => exact fun n x hr => ⟨Nat.le_succ_of_le (h.recorded n x hr).1, (h.recorded n x hr).2⟩
    | _ => exact h.recorded
  · intro n x hr hc
    by_cases hr' : s.ledger.recorded n x = true
    · exact h.memory_fills hs hf hr' hc
    · cases hf with
      | accept xs he hx =>
        by_cases hn : n = s.drv.procFill
        · subst hn
          simp only [Function.update_self, Bool.or_eq_true, decide_eq_true_eq] at hr
          simp [hr.resolve_right hr']
        · simp only [Function.update_of_ne hn] at hr
          exact absurd hr hr'
      | _ => exact absurd hr hr'
  · intro k hk hst
    exact (h.marked k hk hst).frame (by rw [hf.writer]) (by rw [hf.file]) (by rw [hf.stalled]; exact id)
  · intro k hk hp hst
    have hh := h.holding k hk hp hst
    have hopen := (hs.writers k hk).unfinished (by intro he; rw [he] at hp; exact absurd hp (by decide))
    obtain ⟨hset, hsize, hrec, _⟩ := hf.settled hs hh.settled
    have hbucket : s.drv.ending = .ended ∨ (s.writer k).cur ≠ S.config.bucketOf s.drv.procFill := by
      refine hh.settled.imp_right fun hlt hb => ?_
      rw [(hs.writers k hk).bucket] at hb
      have := h.alone hopen hlag.1 hb.symm
      omega
    obtain ⟨h1, h2, h3⟩ := hf.header hs hbucket
    exact hh.frame (by rw [hf.writer]) (by rw [hf.file]) hsize hrec hset hmono.2 (by rw [hf.stalled]; exact id) h3
      (Or.inl ⟨h1, h2⟩)
  · intro f img hi hc hz
    obtain ⟨⟨h1, h2, h3⟩, h4, h5⟩ := h.intact f img hi hc hz
    obtain ⟨hset, _, hrec, hpk⟩ := hf.settled hs h4
    exact ⟨⟨h1.trans hpk.symm, by rw [hrec]; exact h2, h3⟩, hset, h5.imp_left fun hlt => hlt.trans_le hmono.2⟩

/-! ## The steps of a writer -/

/-- Only its last step completes the file of a writer. -/
theorem Moves.file_open (hm : Moves S s k t) (hs : WriterShape S s k) (hpc : (s.writer k).pc ≠ .close) (img : Image)
    (hi : t.file (s.writer k).fileCount = some img) : img.closed = false := by
  have hnone : ∀ pc, (s.writer k).pc = pc → pc.writes = false → pc ≠ .exited → s.file (s.writer k).fileCount = some img →
      img.closed = false := by
    rintro _ rfl hw he hi
    rw [hs.unopened hw he] at hi
    exact absurd hi (by simp)
  have hold : ∀ pc, (s.writer k).pc = pc → pc.writes = true → s.file (s.writer k).fileCount = some img →
      img.closed = false := by
    rintro _ rfl hw hi
    obtain ⟨img', hi', hc⟩ := hs.opened hw
    cases hi'.symm.trans hi
    exact hc
  have hedit : ∀ (u : RecState) (g : Image → Image), u.file = s.file → (∀ img, (g img).closed = img.closed) →
      (s.writer k).pc.writes = true → (u.editFile (s.writer k).fileCount g).file (s.writer k).fileCount = some img →
      img.closed = false := by
    intro u g hu hg hw hi
    obtain ⟨img', hi', hc⟩ := hs.opened hw
    rw [RecState.editFile_self, hu, hi'] at hi
    cases hi
    rw [hg]
    exact hc
  cases hm with
  | look hpc | wait hpc | take hpc | check hpc | raise hpc | mark hpc => exact hnone _ hpc rfl (by decide) hi
  | create hpc =>
    simp only [Function.update_self] at hi
    cases hi
    rfl
  | copyLast hpc | copyStalled hpc | copyLen hpc | copyPiece hpc =>
    refine hedit _ _ ?_ ?_ ?_ hi
    · rfl
    · exact fun _ => rfl
    · rw [hpc]
      rfl
  | lensDone hpc | readLast hpc | reset hpc | dataDone hpc => exact hold _ hpc rfl hi
  | close hpc' => exact absurd hpc' hpc

/-- A writer that clears the flag of a bucket another writer holds has marked it: two blocks that are reached and not complete
cannot share a bucket. -/
theorem Safe.marked_of_reset (h : Safe S s) (hs : Shape S s) {j : Nat} (hk : k < S.writers) (hj : j < S.writers) (hjk : j ≠ k)
    (hreset : (s.writer k).pc = .reset) (hcur : (s.writer j).cur = (s.writer k).cur) (hp : (s.writer j).pc.holds = true)
    (hh : Holding S s j) : s.mem.stalled (s.writer k).cur ≠ 0 := by
  cases hst : (s.writer k).stalled with
  | true => exact (h.marked k hk hst).bucket
  | false =>
    have hhk := h.holding k hk (by rw [hreset]; rfl) hst
    have hne : (s.writer j).pc ≠ .exited := by
      intro he
      rw [he] at hp
      exact absurd hp (by decide)
    have hopenj := (hs.writers j hj).unfinished hne
    have hopenk := (hs.writers k hk).unfinished (by rw [hreset]; decide)
    rw [(hs.writers j hj).bucket, (hs.writers k hk).bucket] at hcur
    have h1 := h.alone hopenj (hhk.reached.trans hs.lag.1) hcur.symm
    have h2 := h.alone hopenk (hh.reached.trans hs.lag.1) hcur
    refine absurd ?_ hjk
    rw [← (hs.writers j hj).number, ← (hs.writers k hk).number, Nat.le_antisymm h2 h1]

/-- A writer that moves leaves the others as they are, unless it clears their flag; and then it has marked their bucket. -/
theorem Safe.of_moves (h : Safe S s) (hs : Shape S s) (hk : k < S.writers) (hm : Moves S s k t)
    (hahead : (t.writer k).fileCount ≤ s.drv.allocFill + S.writers)
    (hlater : (t.writer k).polled = true → t.mem.captured (t.writer k).cur ≠ 0 →
      (t.writer k).fileCount ≤ s.ledger.pubFill (t.writer k).cur)
    (hmarked : (t.writer k).stalled = true → Marked t k)
    (hholding : (t.writer k).pc.holds = true → (t.writer k).stalled = false → Holding S t k)
    (hintact : ∀ img, t.file (s.writer k).fileCount = some img → img.closed = true → img.stalled = 0 →
      Intact t (s.writer k).fileCount img ∧ t.Settled (s.writer k).fileCount ∧
        ((s.writer k).fileCount < s.drv.procFill ∨ img.last ≠ 0)) :
    Safe S t := by
  obtain ⟨c, hl⟩ := hm.ledger
  have hd := hm.drv
  have hsettled : ∀ n, s.Settled n → t.Settled n := fun n hn => by
    unfold RecState.Settled
    rw [hd]
    exact hn
  have hfile : ∀ j < S.writers, j ≠ k → t.file (s.writer j).fileCount = s.file (s.writer j).fileCount := by
    intro j hj hjk
    refine hm.file_ne fun he => hjk ?_
    rw [← (hs.writers j hj).number, he, (hs.writers k hk).number]
  refine ⟨?_, ?_, ?_, ?_, ?_, ?_, ?_, ?_⟩ <;> (try rw [hd]) <;> (try rw [hl])
  · exact fun n hn => hm.closed_mono (hs.writers k hk) (h.free n hn)
  · intro j hj
    by_cases hjk : j = k
    · exact hjk ▸ hahead
    · rw [hm.writer_ne hjk]
      exact h.ahead j hj
  · intro j hj
    by_cases hjk : j = k
    · exact hjk ▸ hlater
    · rw [hm.writer_ne hjk]
      intro hp hc
      rcases hm.captured (s.writer j).cur with he | ⟨_, _, he⟩
      · exact h.later j hj hp (he ▸ hc)
      · exact absurd he hc
  · exact h.recorded
  · intro n x hr hc
    rw [hm.cell]
    refine h.memory n x hr ?_
    by_contra hne
    rw [hm.closed_mono (hs.writers k hk) (by simpa using hne)] at hc
    exact absurd hc (by decide)
  · intro j hj
    by_cases hjk : j = k
    · exact hjk ▸ hmarked
    · intro hst
      rw [hm.writer_ne hjk] at hst
      exact (h.marked j hj hst).frame (hm.writer_ne hjk) (hfile j hj hjk) hm.stalled_mono
  · intro j hj
    by_cases hjk : j = k
    · exact hjk ▸ hholding
    · intro hp hst
      rw [hm.writer_ne hjk] at hp hst
      have hh := h.holding j hj hp hst
      refine hh.frame (hm.writer_ne hjk) (hfile j hj hjk) (by rw [hl]) (by rw [hl]) (hsettled _ hh.settled) (by rw [hd])
        hm.stalled_mono (by rw [hm.last]) ?_
      rcases hm.captured (s.writer j).cur with he | ⟨hreset, hcur, _⟩
      · exact Or.inl ⟨he, by rw [hl]⟩
      · refine Or.inr (hm.stalled_mono ?_)
        rw [hcur]
        exact h.marked_of_reset hs hk hj hjk hreset hcur hp hh
  · intro f img hi hc hz
    by_cases hf : f = (s.writer k).fileCount
    · subst hf
      exact hintact img hi hc hz
    · rw [hm.file_ne hf] at hi
      obtain ⟨⟨h1, h2, h3⟩, h4, h5⟩ := h.intact f img hi hc hz
      exact ⟨⟨by rw [hl]; exact h1, by rw [hl]; exact h2, h3⟩, hsettled f h4, h5⟩

/-- A writer that holds its block goes on in its file. -/
theorem Holding.own (h : Holding S s k) (hm : Moves S s k t) (hfc : (t.writer k).fileCount = (s.writer k).fileCount)
    (hpc : (t.writer k).pc ≠ .copyCaptured)
    (hcopy : ∀ img, t.file (s.writer k).fileCount = some img → Copy S t k img) : Holding S t k := by
  refine ⟨?_, ?_, fun he => absurd he hpc, ?_⟩ <;> rw [hfc]
  · rw [hm.drv]
    exact h.reached
  · unfold RecState.Settled
    rw [hm.drv]
    exact h.settled
  · exact fun _ => hcopy

/-- A writer finds a flag. Before the stop it has found none before, so the flag is one of its own block or of a later one; a
later one would mean an overrun. -/
theorem Safe.take_own (h : Safe S s) (hs : Shape S s) (hk : k < S.writers) (hpc : (s.writer k).pc = .poll)
    (hc : s.mem.captured (s.writer k).cur ≠ 0) (hown : TakesOwnLate s (.writer k))
    (hno : ¬((s.writer k).endCnt = 0 ∧ (s.writer k).delayStop = 0)) :
    s.ledger.pubFill (s.writer k).cur = (s.writer k).fileCount := by
  by_cases hd : (s.writer k).delayStop = 0
  · have he : (s.writer k).endCnt ≠ 0 := fun he => hno ⟨he, hd⟩
    have hp : (s.writer k).polled = true := by simp [Writer.polled, hpc, he]
    have hge := h.later k hk hp hc
    obtain ⟨hb, he, _⟩ := hs.flag _ hc
    have hopen := (hs.writers k hk).unfinished (by rw [hpc]; decide)
    have hle := h.alone hopen ((hs.pubFill_le _).trans hs.lag.1) (hb.trans (hs.writers k hk).bucket)
    omega
  · exact hown k ⟨rfl, hpc, hc⟩ hd

theorem Safe.take_holding (h : Safe S s) (hs : Shape S s) (hk : k < S.writers) (hpc : (s.writer k).pc = .poll)
    (hc : s.mem.captured (s.writer k).cur ≠ 0) (hleft : S.TakesLeft s (.writer k)) (hown : TakesOwnLate s (.writer k))
    (hno : ¬((s.writer k).endCnt = 0 ∧ (s.writer k).delayStop = 0)) :
    Holding S (s.setWriter k { s.writer k with pc := .copyCaptured, taken := s.ledger.pubFill (s.writer k).cur }) k := by
  have hpf := h.take_own hs hk hpc hc hown hno
  have hle := hs.pubFill_le (s.writer k).cur
  refine ⟨?_, ?_, ?_, ?_⟩ <;> rw [RecState.setWriter_self]
  · rw [← hpf]
    exact hle
  · rcases hleft k ⟨rfl, hpc, hc⟩ with he | ⟨_, hp⟩
    · exact Or.inl he
    · refine Or.inr (Nat.lt_of_le_of_ne (hpf ▸ hle) fun he => hp ?_)
      rw [(hs.writers k hk).bucket]
      exact congrArg S.config.bucketOf he.symm
  · exact fun _ => Or.inl ⟨hc, hpf⟩
  · exact fun hf => Bool.noConfusion hf

/-- The piece that a writer copies next is one of its fill, if there is a packet in it, and of no later one. -/
theorem Safe.copy_piece (h : Safe S s) (hs : Shape S s) (hk : k < S.writers) (hpc : (s.writer k).pc ≠ .exited) {img : Image}
    (htags : ∀ x m, img.cell x = some m → m ≤ (s.writer k).fileCount)
    (hpieces : ∀ x < (s.writer k).i, s.ledger.recorded (s.writer k).fileCount x = true →
      img.cell x = some (s.writer k).fileCount) :
    (∀ x m, Function.update img.cell (s.writer k).i (s.mem.cell (s.writer k).cur (s.writer k).i) x = some m →
      m ≤ (s.writer k).fileCount) ∧
    ∀ x < (s.writer k).i + 1, s.ledger.recorded (s.writer k).fileCount x = true →
      Function.update img.cell (s.writer k).i (s.mem.cell (s.writer k).cur (s.writer k).i) x =
        some (s.writer k).fileCount := by
  have hopen := (hs.writers k hk).unfinished hpc
  have hbucket := (hs.writers k hk).bucket
  constructor
  · intro x m hx
    by_cases hi : x = (s.writer k).i
    · subst hi
      rw [Function.update_self] at hx
      obtain ⟨hb, hle⟩ := hs.tags _ _ _ hx
      exact h.alone hopen hle (hb.trans hbucket)
    · rw [Function.update_of_ne hi] at hx
      exact htags x m hx
  · intro x hx hr
    rcases Nat.lt_succ_iff_lt_or_eq.mp hx with hlt | rfl
    · rw [Function.update_of_ne hlt.ne]
      exact hpieces x hlt hr
    · rw [Function.update_self, hbucket]
      exact h.memory _ _ hr hopen

/-- The mark of a file that is being written, by the next access of the writer. -/
theorem RecState.mark_of_ne {w : Writer} {img : Image} (h1 : w.pc ≠ .copyLast) (h2 : w.pc ≠ .copyStalled) :
    s.mark w img = img.stalled := if_neg (by tauto)

/-- A writer that holds its block keeps doing so until it closes its file. -/
theorem Safe.holding_own (h : Safe S s) (hs : Shape S s) (hk : k < S.writers) (hh : Holding S s k)
    (hm : Moves S s k t) (hpc : (s.writer k).pc.holds = true) (hne : (s.writer k).pc ≠ .close) : Holding S t k := by
  have hm' := hm
  have hcopy : ∀ pc, (s.writer k).pc = pc → pc.writes = true → ∀ img, s.file (s.writer k).fileCount = some img →
      Copy S s k img := by
    rintro _ rfl
    exact hh.copy
  cases hm with
  | look hp | wait hp | take hp | check hp | raise hp | mark hp => exact absurd hpc (by rw [hp]; decide)
  | create hp =>
    refine hh.own hm' (by simp) (by simp) fun img hi => ?_
    simp only [Function.update_self] at hi
    cases hi
    refine ⟨nofun, by simp [Setup.copied], ?_, by simp, by simp⟩
    simp only [RecState.setWriter_self, RecState.mark, true_or, if_true]
    rcases hh.flag hp with ⟨hc, hf⟩ | hst
    · exact Or.inl ((hs.flag _ hc).2.2.trans (by rw [hf]; rfl))
    · exact Or.inr hst
  | copyLast hp =>
    refine hh.own hm' (by simp) (by simp) fun img hi => ?_
    obtain ⟨img, hold, rfl⟩ := RecState.of_editFile hi
    obtain ⟨c2, _, c4, _, _⟩ := hcopy _ hp rfl img hold
    refine ⟨by simpa using c2, by simp [Setup.copied], ?_, by simp, by simp⟩
    simpa [RecState.mark, hp] using c4
  | copyStalled hp =>
    refine hh.own hm' (by simp) (by simp) fun img hi => ?_
    obtain ⟨img, hold, rfl⟩ := RecState.of_editFile hi
    obtain ⟨c2, _, c4, c5, _⟩ := hcopy _ hp rfl img hold
    refine ⟨by simpa using c2, by simp [Setup.copied], ?_, ?_, by simp⟩
    · simpa [RecState.mark, hp] using c4
    · simpa [hp] using c5
  | copyLen hp hlt =>
    refine hh.own hm' (by simp) (by simp) fun img hi => ?_
    obtain ⟨img, hold, rfl⟩ := RecState.of_editFile hi
    obtain ⟨c2, c3, c4, c5, _⟩ := hcopy _ hp rfl img hold
    obtain ⟨d2, d3⟩ := h.copy_piece hs hk (by rw [hp]; decide) c2 (by simpa [Setup.copied, hp] using c3)
    refine ⟨by simpa using d2, by simpa [Setup.copied] using d3, ?_, ?_, by simp⟩
    · simpa [RecState.mark, hp] using c4
    · simpa [hp] using c5
  | lensDone hp hge =>
    refine hh.own hm' (by simp) (by simp) fun img hi => ?_
    obtain ⟨c2, c3, c4, c5, _⟩ := hcopy _ hp rfl img hi
    refine ⟨by simpa using c2, by simpa [Setup.copied, hp] using c3, ?_, ?_, by simp⟩
    · simpa [RecState.mark, hp] using c4
    · simpa [hp] using c5
  | readLast hp =>
    refine hh.own hm' (by simp) (by simp) fun img hi => ?_
    obtain ⟨c2, c3, c4, c5, _⟩ := hcopy _ hp rfl img hi
    refine ⟨by simpa using c2, by simpa [Setup.copied, hp] using c3, ?_, ?_, ?_⟩
    · simpa [RecState.mark, hp] using c4
    · simpa [hp] using c5
    · simpa [hp] using c5
  | reset hp =>
    refine hh.own hm' (by simp) (by simp) fun img hi => ?_
    obtain ⟨c2, c3, c4, c5, c6⟩ := hcopy _ hp rfl img hi
    refine ⟨by simpa using c2, by simpa [Setup.copied, hp] using c3, ?_, ?_, ?_⟩
    · simpa [RecState.mark, hp] using c4
    · simpa [hp] using c5
    · simpa [hp] using c6
  | copyPiece hp hlt =>
    refine hh.own hm' (by simp) (by simp) fun img hi => ?_
    obtain ⟨img, hold, rfl⟩ := RecState.of_editFile hi
    obtain ⟨c2, c3, c4, c5, c6⟩ := hcopy _ hp rfl img hold
    obtain ⟨d2, d3⟩ := h.copy_piece hs hk (by rw [hp]; decide) c2 (by simpa [Setup.copied, hp] using c3)
    refine ⟨by simpa using d2, by simpa [Setup.copied] using d3, ?_, ?_, ?_⟩
    · simpa [RecState.mark, hp] using c4
    · simpa [hp] using c5
    · simpa [hp] using c6
  | dataDone hp hge =>
    refine hh.own hm' (by simp) (by simp) fun img hi => ?_
    obtain ⟨c2, c3, c4, c5, c6⟩ := hcopy _ hp rfl img hi
    refine ⟨by simpa using c2, ?_, ?_, ?_, ?_⟩
    · intro x hx
      simp only [Setup.copied, RecState.setWriter_self] at hx
      have hx' : x < S.copied (s.writer k) := by
        simp only [Setup.copied, hp]
        omega
      simpa using c3 x hx'
    · simpa [RecState.mark, hp] using c4
    · simpa [hp] using c5
    · simpa [hp] using c6
  | close hp => exact absurd hp hne

/-- A writer that has found an old flag marks its bucket and its file. -/
theorem Safe.marked_own (h : Safe S s) (hk : k < S.writers) (hm : Moves S s k t) (hst : (t.writer k).stalled = true) :
    Marked t k := by
  have hold := h.marked k hk
  cases hm with
  | look hp =>
    obtain ⟨h1, h2, h3, h4⟩ := (s.writer k).again0_keeps s.mem.userStop
    simp only [RecState.setWriter_self] at hst
    refine ⟨?_, ?_⟩ <;> simp only [RecState.setWriter_self]
    · rw [h2]
      exact (hold (h3 ▸ hst)).bucket
    · rcases h4 with h4 | ⟨h4, _⟩ <;> rw [h4] <;> exact fun hw => Bool.noConfusion hw
  | wait hp | take hp | check hp | raise hp =>
    simp only [RecState.setWriter_self] at hst
    refine ⟨by simpa using (hold hst).bucket, ?_⟩
    simp only [RecState.setWriter_self]
    first
      | exact fun hw => Bool.noConfusion hw
      | exact fun hw => absurd hw (by split <;> decide)
  | mark hp => exact ⟨by simp, by simp [WriterPc.writes]⟩
  | create hp | copyLast hp =>
    simp only [RecState.setWriter_self, RecState.editFile_writer] at hst
    exact ⟨by simpa using (hold hst).bucket, by simp⟩
  | copyStalled hp =>
    simp only [RecState.setWriter_self, RecState.editFile_writer] at hst
    refine ⟨by simpa using (hold hst).bucket, fun _ _ _ img hi => ?_⟩
    simp only [RecState.setWriter_self, RecState.editFile_writer] at hi
    obtain ⟨img, _, rfl⟩ := RecState.of_editFile hi
    exact (hold hst).bucket
  | copyLen hp | copyPiece hp =>
    simp only [RecState.setWriter_self, RecState.editFile_writer] at hst
    refine ⟨by simpa using (hold hst).bucket, fun _ _ _ img hi => ?_⟩
    simp only [RecState.setWriter_self, RecState.editFile_writer] at hi
    obtain ⟨img, hf, rfl⟩ := RecState.of_editFile hi
    exact (hold hst).file (by rw [hp]; rfl) (by rw [hp]; decide) (by rw [hp]; decide) img hf
  | lensDone hp | readLast hp | reset hp | dataDone hp =>
    simp only [RecState.setWriter_self] at hst
    refine ⟨by simpa using (hold hst).bucket, fun _ _ _ img hi => ?_⟩
    simp only [RecState.setWriter_self] at hi
    exact (hold hst).file (by rw [hp]; rfl) (by rw [hp]; decide) (by rw [hp]; decide) img hi
  | close hp =>
    simp only [RecState.setWriter_self, RecState.editFile_writer, (S.endBlock_keeps _).1] at hst
    rcases S.endBlock_cases (s.writer k) with ⟨h1, _, h3, _⟩ | ⟨_, _, _, h4⟩
    · refine ⟨?_, ?_⟩ <;> simp only [RecState.setWriter_self, RecState.editFile_writer]
      · rw [h3]
        exact (hold hst).bucket
      · rw [h1]
        exact fun hw => Bool.noConfusion hw
    · rw [h4] at hst
      exact absurd hst (by decide)

/-- A writer that goes on to write holds its block, or has marked its bucket. -/
theorem Safe.holding_next (h : Safe S s) (hs : Shape S s) (hk : k < S.writers) (hm : Moves S s k t)
    (hleft : S.TakesLeft s (.writer k)) (hown : TakesOwnLate s (.writer k)) (hpc : (t.writer k).pc.holds = true)
    (hst : (t.writer k).stalled = false) : Holding S t k := by
  have hgo : (s.writer k).pc.holds = true → (s.writer k).pc ≠ .close → (s.writer k).stalled = false → Holding S t k :=
    fun h1 h2 h3 => h.holding_own hs hk (h.holding k hk h1 h3) hm h1 h2
  cases hm with
  | look hp =>
    simp only [RecState.setWriter_self] at hpc
    rcases ((s.writer k).again0_keeps s.mem.userStop).2.2.2 with he | ⟨he, _⟩ <;> rw [he] at hpc <;>
      exact absurd hpc (by decide)
  | wait hp | raise hp => exact absurd hpc (by simp [WriterPc.holds])
  | check hp =>
    simp only [RecState.setWriter_self] at hpc
    split at hpc <;> exact absurd hpc (by simp [WriterPc.holds])
  | take hp hc =>
    by_cases hx : (s.writer k).endCnt = 0 ∧ (s.writer k).delayStop = 0
    · simp only [RecState.setWriter_self, if_pos hx] at hpc
      exact absurd hpc (by simp [WriterPc.holds])
    · rw [if_neg hx]
      exact h.take_holding hs hk hp hc hleft hown hx
  | mark hp => exact absurd hst (by simp)
  | create hp | lensDone hp | readLast hp | reset hp | dataDone hp =>
    exact hgo (by rw [hp]; rfl) (by rw [hp]; decide) (by simpa using hst)
  | copyLast hp | copyStalled hp | copyLen hp | copyPiece hp =>
    exact hgo (by rw [hp]; rfl) (by rw [hp]; decide) (by simpa using hst)
  | close hp =>
    simp only [RecState.setWriter_self, RecState.editFile_writer] at hpc
    rcases S.endBlock_cases (s.writer k) with ⟨he, _⟩ | ⟨he, _⟩ <;> rw [he] at hpc <;> exact absurd hpc (by decide)

/-- A file is complete with its last step. If it is not marked, its writer has held the block. -/
theorem Safe.intact_own (h : Safe S s) (hs : Shape S s) (hk : k < S.writers) (hm : Moves S s k t) (img : Image)
    (hi : t.file (s.writer k).fileCount = some img) (hc : img.closed = true) (hz : img.stalled = 0) :
    Intact t (s.writer k).fileCount img ∧ t.Settled (s.writer k).fileCount ∧
      ((s.writer k).fileCount < s.drv.procFill ∨ img.last ≠ 0) := by
  by_cases hp : (s.writer k).pc = .close
  · cases hm with
    | close =>
      obtain ⟨img, hf, rfl⟩ := RecState.of_editFile hi
      have hz : img.stalled = 0 := hz
      have hne : ∀ pc, pc ≠ .close → (s.writer k).pc ≠ pc := fun pc hpc he => hpc (he.symm.trans hp)
      cases hst : (s.writer k).stalled with
      | true => exact absurd hz ((h.marked k hk hst).file (by rw [hp]; rfl) (hne _ (by decide)) (hne _ (by decide)) img hf)
      | false =>
        have hh := h.holding k hk (by rw [hp]; rfl) hst
        obtain ⟨c2, c3, c4, c5, _⟩ := hh.copy (by rw [hp]; rfl) img hf
        rw [RecState.mark_of_ne (hne _ (by decide)) (hne _ (by decide))] at c4
        refine ⟨⟨?_, fun x hr => c3 x ?_ hr, c2⟩, hh.settled, ?_⟩
        · exact (c4.resolve_right (fun hx => hx hz)).trans (hs.settled_size hh.settled hh.reached).symm
        · simp only [Setup.copied, hp]
          exact (h.recorded _ x hr).2
        · -- The last fill is settled when the recording thread has stored `last`, and the file has it then.
          rcases Nat.lt_or_ge (s.writer k).fileCount s.drv.procFill with hlt | hge
          · exact Or.inl hlt
          · refine Or.inr ?_
            have hend := hh.settled.resolve_right (by omega)
            have hcur : (s.writer k).cur = S.config.bucketOf s.drv.procFill :=
              (hs.writers k hk).bucket.trans (congrArg _ (Nat.le_antisymm hh.reached hge))
            rw [show img.last = s.mem.last (s.writer k).cur from c5 (hne _ (by decide)), hcur]
            exact hs.lastSet hend
    | _ => simp_all
  · rw [hm.file_open (hs.writers k hk) hp img hi] at hc
    exact absurd hc (by decide)

theorem Safe.moves (h : Safe S s) (hs : Shape S s) (hk : k < S.writers) (hm : Moves S s k t)
    (hleft : S.TakesLeft s (.writer k)) (hown : TakesOwnLate s (.writer k)) : Safe S t := by
  refine h.of_moves hs hk hm ?_ ?_ (h.marked_own hk hm) (h.holding_next hs hk hm hleft hown) (h.intact_own hs hk hm)
  · have hle := h.ahead k hk
    cases hm with
    | look =>
      rw [RecState.setWriter_self, ((s.writer k).again0_keeps _).1]
      exact hle
    | close hp =>
      simp only [RecState.editFile_writer, RecState.setWriter_self]
      rcases S.endBlock_cases (s.writer k) with ⟨_, he, _⟩ | ⟨_, he, _, hst⟩ <;> rw [he]
      · exact hle
      · have := (h.holding k hk (by rw [hp]; rfl) hst).reached
        have := hs.lag
        omega
    | _ => simpa using hle
  · have hle := h.later k hk
    cases hm with
    | look =>
      rw [RecState.setWriter_self]
      rcases ((s.writer k).again0_keeps s.mem.userStop).2.2.2 with he | ⟨he, hz⟩
      · simp [Writer.polled, he]
      · simp [Writer.polled, he, hz]
    | wait hp hc => exact fun _ hne => absurd hc (by simpa using hne)
    | take hp hc =>
      rw [RecState.setWriter_self]
      split <;> simp [Writer.polled]
    | check hp =>
      rw [RecState.setWriter_self]
      split
      · simp [Writer.polled]
      · simpa [Writer.polled, hp] using hle
    | close hp =>
      simp only [RecState.editFile_writer, RecState.setWriter_self]
      rcases S.endBlock_cases (s.writer k) with ⟨he, _⟩ | ⟨he, _⟩ <;> simp [Writer.polled, he]
    | _ => simp [Writer.polled]

/-! ## Runs -/

/-- A step that overruns no block, takes no bucket that the driver is in, and takes no old flag after the stop. -/
def Setup.Careful (S : Setup) (s : RecState) (a : RecAct) : Prop :=
  S.NoOverrun s a ∧ S.TakesLeft s a ∧ TakesOwnLate s a

theorem Safe.step {a : RecAct} (h : Safe S s) (hs : Shape S s) (hc : S.Careful s a) (hst : S.next s a = some t) :
    Safe S t := by
  obtain ⟨ho, hleft, hown⟩ := hc
  rcases next_cases hst with ⟨f, rfl, hf⟩ | ⟨k, rfl, hk, hm⟩
  · exact h.fills hs hf ho
  · exact h.moves hs hk hm hleft hown

/-- A careful step, checked: the conditions that ask for all blocks or writers are about those that the step concerns. -/
def Setup.carefulStep (S : Setup) (s : RecState) : RecAct → Bool
  | .drv .startNext =>
    s.drv.allocFill + 1 < S.config.numBuckets || s.closed (s.drv.allocFill + 1 - S.config.numBuckets)
  | .drv _ => true
  | .writer k =>
    (s.writer k).pc ≠ .poll || s.mem.captured (s.writer k).cur = 0 ||
      (s.drv.ending = .ended || S.config.bucketOf s.drv.allocFill ≠ (s.writer k).cur &&
        S.config.bucketOf s.drv.procFill ≠ (s.writer k).cur) &&
        s.ledger.pubFill (s.writer k).cur = (s.writer k).fileCount

theorem carefulStep_spec {a : RecAct} (h : S.carefulStep s a = true) :
    S.NoOverrun s a ∧ S.TakesLeft s a ∧ TakesOwn s a := by
  cases a with
  | drv f =>
    refine ⟨?_, fun k ht => absurd ht.1 (by simp), fun k ht => absurd ht.1 (by simp)⟩
    rintro n ⟨hf, hn, hc⟩
    cases hf
    simp only [Setup.carefulStep, Bool.or_eq_true, decide_eq_true_eq] at h
    rcases h with h | h
    · omega
    · rw [show s.drv.allocFill + 1 - S.config.numBuckets = n by omega, hc] at h
      exact absurd h (by decide)
  | writer k =>
    simp only [Setup.carefulStep, Bool.or_eq_true, Bool.and_eq_true, decide_eq_true_eq] at h
    refine ⟨fun n ho => absurd ho.1 (by simp), ?_, ?_⟩
    · rintro j ⟨hj, hp, hc⟩
      cases hj
      rcases h with (h | h) | h
      · exact absurd hp h
      · exact absurd h hc
      · exact h.1
    · rintro j ⟨hj, hp, hc⟩
      cases hj
      rcases h with (h | h) | h
      · exact absurd hp h
      · exact absurd h hc
      · exact h.2

theorem TakesOwn.late {a : RecAct} (h : TakesOwn s a) : TakesOwnLate s a := fun k ht _ => h k ht

end NicRecorder
