import NicRecorder.Lemmas.Drain

/-!
# The end of a recording

`count_recorded` and the extraction tools read files 0, 1, 2, ... until one is flagged. `recording_ends_marked`: in an orderly run
without a stall, in which the last bucket is not empty, no writer gives up before the driver has ended, and no writer has a
backlog of more than three, the last file is flagged. `recording_ends_marked_false`: if the capture stops when a bucket has just
been closed, the flag of the last bucket is zero and no writer comes to write the file with the marker.
-/

namespace NicRecorder

open Runs

variable {S : Setup} {s t : RecState} {k : Nat}

/-- The files are 0 to `h`, without a gap, and the last one is flagged. -/
def EndsMarked (s : RecState) : Prop :=
  ∃ h, (∀ f ≤ h, s.closed f = true) ∧ s.file (h + 1) = none ∧ s.flagged h = true

/-- A step of a run that ends well: it is orderly; no writer finds a flag set when it comes to a bucket before the stop; the last
bucket is not empty when the recording thread ends; a writer gives up only when the driver has ended; and a writer that sees the
stop has at most three published blocks left. -/
structure Setup.Finishing (S : Setup) (s : RecState) (a : RecAct) : Prop where
  orderly : S.Orderly s a
  unstalled : ∀ k, s.Takes k a → (s.writer k).endCnt ≠ 0 ∨ (s.writer k).delayStop ≠ 0
  counted : a = .drv .finalCaptured → s.drv.count ≠ 0
  patient : ∀ k, a = .writer k → (s.writer k).pc = .again0 → s.mem.userStop = true → 2 < (s.writer k).delayStop →
    s.drv.ending = .ended
  backlog : ∀ n, S.BacklogTo n s a

/-- The invariant of such a run: nothing is marked as stalled, `last` is in the file of the last fill only, that fill is
published when the recording thread ends, and no writer has ended before. -/
structure Plain (S : Setup) (s : RecState) : Prop where
  buckets : ∀ b, s.mem.stalled b = 0
  writers : ∀ k < S.writers, (s.writer k).stalled = false ∧ (s.writer k).pc ≠ .raiseStop ∧ (s.writer k).pc ≠ .markStalled
  files : ∀ f img, s.file f = some img → img.stalled = 0 ∧ (img.last ≠ 0 → s.drv.ending = .ended ∧ f = s.drv.procFill)
  final : s.drv.ending ≠ .recording → s.ledger.publishedEver s.drv.procFill = true
  exits : ∀ k < S.writers, (s.writer k).pc = .exited → s.drv.ending = .ended

theorem plain_start (S : Setup) : Plain S S.start :=
  ⟨fun _ => rfl, fun _ _ => ⟨rfl, nofun, nofun⟩, nofun, fun h => absurd rfl h, nofun⟩

/-- The end of the recording thread is final. -/
theorem Fills.ended {a : FillAct} (hf : Fills S s a t) (he : s.drv.ending = .ended) :
    t.drv.ending = .ended ∧ t.drv.procFill = s.drv.procFill := by
  cases hf with
  | procNext hr | finalCaptured _ hr | finalLast hr => exact absurd (hr.symm.trans he) (by decide)
  | _ => exact ⟨he, rfl⟩

theorem Plain.fills {a : FillAct} (h : Plain S s) (hf : Fills S s a t)
    (hc : a = .finalCaptured → s.drv.count ≠ 0) : Plain S t := by
  refine ⟨?_, ?_, ?_, ?_, ?_⟩
  · rw [hf.stalled]
    exact h.buckets
  · rw [hf.writer]
    exact h.writers
  · rw [hf.file]
    intro f img hi
    refine ⟨(h.files f img hi).1, fun hl => ?_⟩
    obtain ⟨he, hp⟩ := (h.files f img hi).2 hl
    obtain ⟨he', hp'⟩ := hf.ended he
    exact ⟨he', hp.trans hp'.symm⟩
  · cases hf with
    | procNext hr => exact fun hne => absurd hr hne
    | publish m ha hp _ hm =>
      intro _
      simp [Setup.setFlag, hp, hm]
    | finalCaptured =>
      intro _
      simp [Setup.setFlag, hc rfl]
    | finalLast hr => exact fun _ => h.final (by rw [hr]; decide)
    | _ => exact h.final
  · rw [hf.writer]
    exact fun k hk hp => (hf.ended (h.exits k hk hp)).1

/-- Only the last fill has the `last` word. -/
theorem Holding.last_eq (hh : Holding S s k) (hs : Shape S s) (hsafe : Safe S s) (hk : k < S.writers)
    (hpc : (s.writer k).pc ≠ .exited) (hl : s.mem.last (s.writer k).cur ≠ 0) :
    s.drv.ending = .ended ∧ (s.writer k).fileCount = s.drv.procFill := by
  obtain ⟨he, hb⟩ := hs.ended _ hl
  refine ⟨he, Nat.le_antisymm hh.reached ?_⟩
  rw [(hs.writers k hk).bucket] at hb
  exact hsafe.alone ((hs.writers k hk).unfinished hpc) hs.lag.1 hb.symm

/-- A writer's step writes no mark, and `last` to the file of the last fill only. -/
theorem Plain.files_own (h : Plain S s) (hs : Shape S s) (hsafe : Safe S s) (hk : k < S.writers) (hst : (s.writer k).stalled = false)
    (hm : Moves S s k t) (img : Image) (hi : t.file (s.writer k).fileCount = some img) :
    img.stalled = 0 ∧ (img.last ≠ 0 → s.drv.ending = .ended ∧ (s.writer k).fileCount = s.drv.procFill) := by
  cases hm with
  | create hpc =>
    simp only [Function.update_self] at hi
    cases hi
    exact ⟨rfl, fun hx => absurd rfl hx⟩
  | copyLast hpc =>
    obtain ⟨old, hold, rfl⟩ := RecState.of_editFile hi
    have hh := hsafe.holding k hk (by rw [hpc]; rfl) hst
    exact ⟨(h.files _ old hold).1, fun hl => hh.last_eq hs hsafe hk (by rw [hpc]; decide) hl⟩
  | copyStalled =>
    obtain ⟨old, hold, rfl⟩ := RecState.of_editFile hi
    exact ⟨h.buckets _, (h.files _ old hold).2⟩
  | copyLen | copyPiece | close =>
    obtain ⟨old, hold, rfl⟩ := RecState.of_editFile hi
    exact h.files _ old hold
  | _ => exact h.files _ img hi

/-- A writer ends when the driver has ended: with the `last` word, or because it has waited long enough. -/
theorem Plain.exits_own (h : Plain S s) (hs : Shape S s) (hsafe : Safe S s) (hk : k < S.writers) (hm : Moves S s k t)
    (hf : S.Finishing s (.writer k)) (hp : (t.writer k).pc = .exited) : s.drv.ending = .ended := by
  cases hm with
  | look hpc =>
    rw [RecState.setWriter_self] at hp
    unfold Writer.again0 at hp
    split at hp
    · next hu =>
      split at hp
      · next hd => exact hf.patient k rfl hpc hu hd
      · exact absurd hp (by simp)
    · exact absurd hp (by simp)
  | take =>
    rw [RecState.setWriter_self] at hp
    split at hp <;> exact absurd hp (by simp)
  | check =>
    rw [RecState.setWriter_self] at hp
    split at hp <;> exact absurd hp (by simp)
  | close hpc =>
    simp only [RecState.editFile_writer, RecState.setWriter_self] at hp
    obtain ⟨img, hi, _⟩ := (hs.writers k hk).opened (by rw [hpc]; rfl)
    have hst := (h.writers k hk).1
    have hcopy := (hsafe.holding k hk (by rw [hpc]; rfl) hst).copy (by rw [hpc]; rfl) img hi
    rcases S.endBlock_cases (s.writer k) with ⟨_, _, _, hend⟩ | ⟨he, _⟩
    · rw [hst] at hend
      have hlast := hend.resolve_right (by simpa using hf.orderly.underLimit k rfl hpc)
      rw [← hcopy.lastRead (by simp [hpc]), hcopy.last (by rw [hpc]; decide)] at hlast
      exact (hs.ended _ hlast).1
    · exact absurd (he.symm.trans hp) (by decide)
  | _ => exact absurd hp (by simp)

/-- A writer that detects no stall marks nothing. -/
theorem Plain.writers_own (h : Plain S s) (hk : k < S.writers) (hm : Moves S s k t) (hf : S.Finishing s (.writer k)) :
    (∀ b, t.mem.stalled b = 0) ∧ (t.writer k).stalled = false ∧ (t.writer k).pc ≠ .raiseStop ∧
      (t.writer k).pc ≠ .markStalled := by
  obtain ⟨h1, h2, h3⟩ := h.writers k hk
  cases hm with
  | look =>
    rw [RecState.setWriter_self]
    obtain ⟨_, _, hst, hpc⟩ := (s.writer k).again0_keeps s.mem.userStop
    refine ⟨h.buckets, hst.trans h1, ?_⟩
    rcases hpc with he | ⟨he, _⟩ <;> rw [he] <;> exact ⟨nofun, nofun⟩
  | take hpc hc =>
    rw [RecState.setWriter_self, if_neg (not_and_or.mpr (hf.unstalled k ⟨rfl, hpc, hc⟩))]
    exact ⟨h.buckets, h1, nofun, nofun⟩
  | check =>
    rw [RecState.setWriter_self]
    refine ⟨h.buckets, h1, ?_⟩
    simp only
    split <;> exact ⟨nofun, nofun⟩
  | raise hpc => exact absurd hpc h2
  | mark hpc => exact absurd hpc h3
  | close =>
    simp only [RecState.editFile_writer, RecState.setWriter_self, (S.endBlock_keeps _).1]
    refine ⟨h.buckets, h1, ?_⟩
    rcases S.endBlock_cases (s.writer k) with ⟨he, _⟩ | ⟨he, _⟩ <;> rw [he] <;> exact ⟨nofun, nofun⟩
  | _ => exact ⟨h.buckets, by simpa using h1, by simp, by simp⟩

theorem Plain.moves (h : Plain S s) (hs : Shape S s) (hsafe : Safe S s) (hk : k < S.writers) (hm : Moves S s k t)
    (hf : S.Finishing s (.writer k)) : Plain S t := by
  obtain ⟨c, hl⟩ := hm.ledger
  have hd := hm.drv
  obtain ⟨hb, hw⟩ := h.writers_own hk hm hf
  refine ⟨hb, ?_, ?_, ?_, ?_⟩ <;> (try rw [hd]) <;> (try rw [hl])
  · intro j hj
    by_cases hjk : j = k
    · exact hjk ▸ hw
    · rw [hm.writer_ne hjk]
      exact h.writers j hj
  · intro f img hi
    by_cases he : f = (s.writer k).fileCount
    · subst he
      exact h.files_own hs hsafe hk (h.writers k hk).1 hm img hi
    · rw [hm.file_ne he] at hi
      exact h.files f img hi
  · exact h.final
  · intro j hj
    by_cases hjk : j = k
    · subst hjk
      exact h.exits_own hs hsafe hj hm hf
    · rw [hm.writer_ne hjk]
      exact h.exits j hj

theorem plain_of_run {tr : List (RecState × RecAct)} (hr : Run S.system S.start tr s) (hf : Meets S.Finishing tr) :
    Plain S s := by
  refine (hr.invariantUnder (I := fun u => (Shape S u ∧ Safe S u ∧ Kept S u) ∧ Plain S u) ?_
    ⟨⟨shape_start S, safe_start S, kept_start S⟩, plain_start S⟩ hf).2
  rintro u a v ⟨⟨h1, h2, h3⟩, h4⟩ hu hst
  refine ⟨kept_step h1 h2 h3 hu.orderly hst, ?_⟩
  rcases next_cases hst with ⟨f, rfl, hf⟩ | ⟨k, rfl, hk, hm⟩
  · exact h4.fills hf fun he => hu.counted (by rw [he])
  · exact h4.moves h1 h2 hk hm hu

/-- In every run that finishes, when all the writers have ended, the files are numbered without a gap and the last one is
flagged. -/
theorem recording_ends_marked (S : Setup) {s : RecState} {tr : List (RecState × RecAct)} (hr : Run S.system S.start tr s)
    (hf : Meets S.Finishing tr) (hexit : ∀ k < S.writers, (s.writer k).pc = .exited) : EndsMarked s := by
  have ho : Meets S.Orderly tr := fun x hx => (hf x hx).orderly
  obtain ⟨hs, hsafe, hkept⟩ := kept_of_run hr ho
  have hp := plain_of_run hr hf
  have hend := hp.exits 0 S.writers_pos (hexit 0 S.writers_pos)
  have hflag : ∀ f, s.flagged f = true → f = s.drv.procFill := by
    intro f hfl
    obtain ⟨img, hi, hfl⟩ := (Option.any_eq_true ..).mp hfl
    obtain ⟨h1, h2⟩ := hp.files f img hi
    exact (h2 (by simpa [h1] using hfl)).2
  have hclosed : ∀ f ≤ s.drv.procFill, s.closed f = true := by
    intro f hle
    have hpub : s.ledger.publishedEver f = true := by
      rcases Nat.lt_or_ge f s.drv.procFill with hlt | hge
      · exact hs.done f (hlt.trans_le hs.lag.1)
      · rw [Nat.le_antisymm hle hge]
        exact hp.final (by rw [hend]; decide)
    have hreach := reaches_of_run hr ho (n := f) fun x hx => (hf x hx).backlog f
    refine (hkept.written hs hreach hpub (hexit _ (Nat.mod_lt _ S.writers_pos))).resolve_right ?_
    rintro ⟨h, hlt, hfl⟩
    have := hflag h hfl
    omega
  refine ⟨s.drv.procFill, hclosed, ?_, ?_⟩
  · by_contra hne
    obtain ⟨img, hi⟩ := Option.ne_none_iff_exists'.mp hne
    exact absurd (hkept.src _ img hi).2 (Nat.not_succ_le_self _)
  · obtain ⟨img, hi, hc⟩ := RecState.closed_iff.mp (hclosed _ (Nat.le_refl _))
    have hlast := (hsafe.intact _ img hi hc (hp.files _ img hi).1).2.2.resolve_left (Nat.lt_irrefl _)
    simp [RecState.flagged, hi, hlast]

/-- A step of a run that finishes, checked. The backlog is bounded by the fill of the driver. -/
def Setup.finishingStep (S : Setup) (s : RecState) (a : RecAct) : Bool :=
  S.orderlyStep s a && match a with
  | .writer k =>
    ((s.writer k).pc ≠ .poll || s.mem.captured (s.writer k).cur = 0 || (s.writer k).endCnt ≠ 0 ||
      (s.writer k).delayStop ≠ 0) &&
    ((s.writer k).pc ≠ .again0 || s.mem.userStop = false || (s.writer k).delayStop ≤ 2 || s.drv.ending = .ended) &&
    ((s.writer k).pc ≠ .again0 || s.drv.procFill < (s.writer k).fileCount + 3 * S.writers)
  | .drv .finalCaptured => s.drv.count ≠ 0
  | .drv _ => true

theorem finishingStep_spec {a : RecAct} (hs : Shape S s) (h : S.finishingStep s a = true) : S.Finishing s a := by
  simp only [Setup.finishingStep, Bool.and_eq_true] at h
  obtain ⟨ho, h⟩ := h
  refine ⟨orderlyStep_spec ho, ?_, ?_, ?_, ?_⟩
  · rintro k ⟨rfl, hp, hc⟩
    simp only [Bool.and_eq_true] at h
    simpa [hp, hc] using h.1.1
  · rintro rfl
    simpa using h
  · rintro k rfl hp hu hd
    simp only [Bool.and_eq_true] at h
    simpa [hp, hu, Nat.not_le.mpr hd] using h.1.2
  · rintro n ⟨rfl, hp, _, _⟩ hn
    have hlt : s.drv.procFill < (s.writer (n % S.writers)).fileCount + 3 * S.writers := by
      simp only [Bool.and_eq_true] at h
      simpa [hp] using h.2
    exact (hs.fresh n hn).trans_lt hlt

/-- A recording of two blocks ends with a marker. -/
theorem recording_ends_marked_last : ∃ (tr : List (RecState × RecAct)) (s : RecState),
    Run (Setup.shipped 1 (by decide)).system (Setup.shipped 1 (by decide)).start tr s ∧
      Meets (Setup.shipped 1 (by decide)).Finishing tr ∧ (s.writer 0).pc = .exited ∧ EndsMarked s := by
  have hrun : ((Setup.shipped 1 (by decide)).run (Setup.shipped 1 (by decide)).finishingStep lastBlock
      (Setup.shipped 1 (by decide)).start).any (fun s => (s.writer 0).pc = .exited) = true := by
    decide +kernel
  obtain ⟨tr, s, hr, hm, hp⟩ := exists_run_meets
    (φ := fun u a => (Setup.shipped 1 (by decide)).finishingStep u a = true) (fun _ _ h => h) hrun
  have hp := of_decide_eq_true hp
  have hf : Meets (Setup.shipped 1 (by decide)).Finishing tr := by
    intro x hx
    obtain ⟨pre, post, _, hpre⟩ := hr.before x hx
    exact finishingStep_spec (shape_of_run hpre) (hm x hx)
  refine ⟨tr, s, hr, hf, hp, recording_ends_marked _ hr hf ?_⟩
  intro k hk
  have hk : k < 1 := hk
  rw [show k = 0 by omega]
  exact hp

/-! ## A run without a marker -/

/-- The stop comes when the recording thread has just closed the bucket of fill 0. Its last stores are a zero and the marker, in
the header of an empty bucket. The writer has written block 0, waits at block 1 until it has timed out three times, and ends. (The fill is
that of `wholeFill`, shorter than the driver's.) -/
def emptyBucket : List RecAct :=
  writerSteps 0 3 ++ wholeFill ++ writerSteps 0 11 ++
    [.drv .userStop, .drv .allocEnd, .drv .finalCaptured, .drv .finalLast] ++ writerSteps 0 250

/-- A recording with a packet in it need not end with a marker, even if it is orderly. -/
theorem recording_ends_marked_false : ¬∀ (S : Setup) (tr : List (RecState × RecAct)) (s : RecState),
    Run S.system S.start tr s → Meets S.Orderly tr → (∃ n, s.ledger.packets n ≠ 0) →
      (∀ k < S.writers, (s.writer k).pc = .exited) → EndsMarked s := by
  intro h
  have hrun : ((Setup.shipped 1 (by decide)).run (Setup.shipped 1 (by decide)).orderlyStep emptyBucket
      (Setup.shipped 1 (by decide)).start).any (fun s => (s.writer 0).pc = .exited && s.ledger.packets 0 ≠ 0 &&
        (s.file 1).isNone && s.flagged 0 = false) = true := by
    decide +kernel
  obtain ⟨tr, s, hr, hm, hp⟩ := exists_run_meets (φ := (Setup.shipped 1 (by decide)).Orderly)
    (fun u a h => orderlyStep_spec h) hrun
  simp only [Bool.and_eq_true, decide_eq_true_eq, Option.isNone_iff_eq_none] at hp
  obtain ⟨⟨⟨hexit, hpk⟩, hnone⟩, hflag⟩ := hp
  obtain ⟨g, hclosed, _, hg⟩ := h _ tr s hr hm ⟨0, hpk⟩ (fun k hk => by
    have hk : k < 1 := hk
    rw [show k = 0 by omega]
    exact hexit)
  rcases Nat.eq_zero_or_pos g with rfl | hpos
  · rw [hflag] at hg
    exact absurd hg (by decide)
  · have := hclosed 1 hpos
    rw [RecState.closed_none hnone] at this
    exact absurd this (by decide)

end NicRecorder
