import NicRecorder.Lemmas.Drain

/-!
# Published buckets at the stop

After the stop a writer makes three more passes through its loop, whatever is waiting for it. `no_bucket_dropped_iff`: in an
orderly run, when all the writers have ended, every published bucket up to the end marker is written if and only if each writer
had at most three published buckets left when it saw the stop. `no_bucket_dropped_false`: a writer with a longer backlog leaves
the rest.
-/

namespace NicRecorder

open Runs

variable {S : Setup} {s t : RecState} {k n : Nat}

/-- Every fill that was published is in its file, up to the first flagged file. -/
def NoneDropped (s : RecState) : Prop :=
  ∀ n, s.ledger.publishedEver n = true → (∀ h < n, s.flagged h = false) →
    ∃ img, s.file n = some img ∧ img.closed = true ∧ img.src = n

/-- A writer that sees the stop for the first time has at most three published blocks left, not counting those beyond a file that
is flagged in the end, in state `s`. -/
def Setup.Backlog (S : Setup) (s u : RecState) (a : RecAct) : Prop :=
  ∀ n, (∀ h < n, s.flagged h = false) → S.BacklogTo n u a

/-! ## What is beyond the third pass -/

/-- Block `n` is beyond the three passes of a writer that saw the stop at block `f`. -/
structure Setup.Beyond (S : Setup) (f n : Nat) (s : RecState) : Prop where
  published : s.ledger.publishedEver n = true
  stopped : s.mem.userStop = true
  unwritten : s.file n = none
  passes : (s.writer (n % S.writers)).pc = .exited ∨
    1 ≤ (s.writer (n % S.writers)).delayStop ∧ (s.writer (n % S.writers)).delayStop ≤ 3 ∧
      (s.writer (n % S.writers)).fileCount + (if (s.writer (n % S.writers)).pc = .again0 then 0 else S.writers) ≤
        f + (s.writer (n % S.writers)).delayStop * S.writers

theorem next_published {a : RecAct} (h : S.next s a = some t) (hn : s.ledger.publishedEver n = true) :
    t.ledger.publishedEver n = true := by
  rcases next_cases h with ⟨f, _, hf⟩ | ⟨k, _, _, hm⟩
  · cases hf with
    | publish =>
      by_cases he : n = s.drv.allocFill
      · simp [Setup.setFlag, ← he, hn]
      · simpa [Setup.setFlag, he] using hn
    | finalCaptured =>
      by_cases he : n = s.drv.procFill
      · simp [Setup.setFlag, ← he, hn]
      · simpa [Setup.setFlag, he] using hn
    | _ => exact hn
  · obtain ⟨c, hl⟩ := hm.ledger
    rw [hl]
    exact hn

/-- The passes of the writer stay before the block. -/
theorem Setup.Beyond.passes_own {f : Nat} (h : S.Beyond f n s) (hm : Moves S s (n % S.writers) t) :
    (t.writer (n % S.writers)).pc = .exited ∨
    1 ≤ (t.writer (n % S.writers)).delayStop ∧ (t.writer (n % S.writers)).delayStop ≤ 3 ∧
      (t.writer (n % S.writers)).fileCount + (if (t.writer (n % S.writers)).pc = .again0 then 0 else S.writers) ≤
        f + (t.writer (n % S.writers)).delayStop * S.writers := by
  obtain ⟨h1, h2, h3⟩ := h.passes.resolve_left hm.pc_ne
  have hin : (s.writer (n % S.writers)).pc ≠ .again0 → (s.writer (n % S.writers)).fileCount + S.writers ≤
      f + (s.writer (n % S.writers)).delayStop * S.writers := by
    intro hp
    rwa [if_neg hp] at h3
  have hle : ∀ (c : Prop) [Decidable c], (if c then 0 else S.writers) ≤ S.writers := by
    intro c _
    split
    · exact Nat.zero_le _
    · exact Nat.le_refl _
  cases hm with
  | look hpc =>
    rw [if_pos hpc] at h3
    rw [RecState.setWriter_self]
    unfold Writer.again0
    rw [if_pos h.stopped]
    split
    · exact Or.inl rfl
    · next hd =>
      refine Or.inr ⟨Nat.succ_pos _, Nat.succ_le_succ (Nat.le_of_not_lt hd), ?_⟩
      simp only [reduceCtorEq, if_false, Nat.succ_mul]
      omega
  | check hpc =>
    rw [RecState.setWriter_self]
    exact Or.inr ⟨h1, h2, (Nat.add_le_add_left (hle _) _).trans (hin (by rw [hpc]; decide))⟩
  | take hpc =>
    rw [RecState.setWriter_self]
    exact Or.inr ⟨h1, h2, (Nat.add_le_add_left (hle _) _).trans (hin (by rw [hpc]; decide))⟩
  | close hpc =>
    have := hin (by rw [hpc]; decide)
    simp only [RecState.editFile_writer, RecState.setWriter_self, (S.endBlock_keeps _).2.1]
    rcases S.endBlock_cases (s.writer (n % S.writers)) with ⟨hp, _⟩ | ⟨hp, he, _⟩
    · exact Or.inl hp
    · exact Or.inr ⟨h1, h2, by rw [he, if_pos hp]; exact this⟩
  | wait hpc | raise hpc | mark hpc | create hpc | copyLast hpc | copyStalled hpc | copyLen hpc =>
    exact Or.inr ⟨by simpa using h1, by simpa using h2, by simpa using hin (by rw [hpc]; decide)⟩
  | lensDone hpc | readLast hpc | reset hpc | copyPiece hpc | dataDone hpc =>
    exact Or.inr ⟨by simpa using h1, by simpa using h2, by simpa using hin (by rw [hpc]; decide)⟩

theorem Moves.file_again0 (hm : Moves S s k t) (hp : (s.writer k).pc = .again0) : t.file = s.file := by
  cases hm <;> first | rfl | exact absurd (hp.symm.trans ‹(s.writer k).pc = _›) (by decide)

/-- The block stays unwritten: its writer is at an earlier one whenever it writes. -/
theorem Setup.Beyond.step {a : RecAct} {f : Nat} (h : S.Beyond f n s) (hs : Shape S s) (hf : f + 3 * S.writers ≤ n)
    (hst : S.next s a = some t) : S.Beyond f n t := by
  have hpos := S.writers_pos
  refine ⟨next_published hst h.published, next_userStop hst h.stopped, ?_, ?_⟩
  · rcases next_cases hst with ⟨g, _, hg⟩ | ⟨k, _, hk, hm⟩
    · rw [hg.file]
      exact h.unwritten
    · by_cases hn : n = (s.writer k).fileCount
      · have hws := hs.writers k hk
        have hkn : n % S.writers = k := by rw [hn, hws.number]
        rw [← hkn] at hm
        have hpass := h.passes.resolve_left hm.pc_ne
        rw [hkn, ← hn] at hpass
        obtain ⟨h1, h2, h3⟩ := hpass
        have hmul : (s.writer k).delayStop * S.writers ≤ 3 * S.writers := Nat.mul_le_mul_right _ h2
        -- At the block itself the writer can only be about to see the stop for the last time.
        have hagain : (s.writer k).pc = .again0 := by
          by_contra hne
          rw [if_neg hne] at h3
          omega
        rw [hkn] at hm
        rw [hm.file_again0 hagain]
        exact h.unwritten
      · rw [hm.file_ne hn]
        exact h.unwritten
  · by_cases ha : a = .writer (n % S.writers)
    · rcases next_cases hst with ⟨g, hg, _⟩ | ⟨k, hk, _, hm⟩
      · exact absurd (hg.symm.trans ha) (by simp)
      · cases hk.symm.trans ha
        exact h.passes_own hm
    · have hw : t.writer (n % S.writers) = s.writer (n % S.writers) := by
        rcases next_cases hst with ⟨g, _, hg⟩ | ⟨j, rfl, _, hm⟩
        · rw [hg.writer]
        · exact hm.writer_ne fun he => ha (by rw [he])
      rw [hw]
      exact h.passes

theorem Setup.Beyond.run {tr : List (RecState × RecAct)} {f : Nat} (h : S.Beyond f n s) (hs : Shape S s)
    (hf : f + 3 * S.writers ≤ n) (hr : Run S.system s tr t) : S.Beyond f n t :=
  (hr.invariant (I := fun u => Shape S u ∧ S.Beyond f n u)
    (fun _ _ _ h hst => ⟨h.1.step hst, h.2.step h.1 hf hst⟩) ⟨hs, h⟩).2

/-- A writer that sees the stop for the first time, with a published block too far ahead. -/
theorem beyond_of_seesStop {a : RecAct} (hs : Shape S s) (hsees : s.SeesStop (n % S.writers) a)
    (hn : s.ledger.publishedEver n = true) (hfar : (s.writer (n % S.writers)).fileCount + 3 * S.writers ≤ n)
    (hst : S.next s a = some t) : S.Beyond (s.writer (n % S.writers)).fileCount n t := by
  obtain ⟨rfl, hpc, hu, hd⟩ := hsees
  have hpos := S.writers_pos
  have hk : n % S.writers < S.writers := Nat.mod_lt _ hpos
  have ht : t = s.setWriter (n % S.writers) ((s.writer (n % S.writers)).again0 true) := by
    simpa [Setup.next, if_pos hk, Setup.writerStep, hpc, hu, eq_comm] using hst
  subst ht
  refine ⟨hn, hu, (hs.writers _ hk).above n rfl (by omega), Or.inr ?_⟩
  rw [RecState.setWriter_self]
  simp [Writer.again0, hd]

/-! ## The theorem -/

/-- In an orderly run, when all the writers have ended, no published bucket up to the end marker is dropped if and only if each
writer had at most three of them left when it saw the stop. -/
theorem no_bucket_dropped_iff (S : Setup) {s : RecState} {tr : List (RecState × RecAct)} (hr : Run S.system S.start tr s)
    (ho : Meets S.Orderly tr) (hexit : ∀ k < S.writers, (s.writer k).pc = .exited) :
    NoneDropped s ↔ Meets (S.Backlog s) tr := by
  obtain ⟨hs, _, hkept⟩ := kept_of_run hr ho
  constructor
  · intro hnone x hx n hflag hsees hn
    by_contra hfar
    obtain ⟨pre, post, v, _, hpre, hst, hpost⟩ := hr.split x hx
    have hsx := shape_of_run hpre
    have hb := (beyond_of_seesStop hsx hsees hn (by omega) hst).run (hsx.step hst) (by omega) hpost
    obtain ⟨img, hi, _⟩ := hnone n hb.published hflag
    rw [hb.unwritten] at hi
    exact absurd hi (by simp)
  · intro hb n hn hflag
    have hreach := reaches_of_run hr ho (fun x hx => hb x hx n hflag)
    rcases hkept.written hs hreach hn (hexit _ (Nat.mod_lt _ S.writers_pos)) with hc | ⟨h, hlt, hf⟩
    · obtain ⟨img, hi, hc⟩ := RecState.closed_iff.mp hc
      exact ⟨img, hi, hc, (hkept.src n img hi).1⟩
    · rw [hflag h hlt] at hf
      exact absurd hf (by decide)

/-- A recording of two blocks is written completely. -/
theorem no_bucket_dropped_iff_last : ∃ (tr : List (RecState × RecAct)) (s : RecState),
    Run (Setup.shipped 1 (by decide)).system (Setup.shipped 1 (by decide)).start tr s ∧
      Meets (Setup.shipped 1 (by decide)).Orderly tr ∧ (s.writer 0).pc = .exited ∧ s.ledger.publishedEver 1 = true ∧
      NoneDropped s := by
  have hrun : ((Setup.shipped 1 (by decide)).run (fun u a => (Setup.shipped 1 (by decide)).orderlyStep u a &&
      u.drv.procFill < (u.writer 0).fileCount + 3) lastBlock (Setup.shipped 1 (by decide)).start).any (fun s =>
        (s.writer 0).pc = .exited && s.ledger.publishedEver 1) = true := by
    decide +kernel
  obtain ⟨tr, s, hr, hm, hp⟩ := exists_run_meets (φ := fun u a => (Setup.shipped 1 (by decide)).Orderly u a ∧
    u.drv.procFill < (u.writer 0).fileCount + 3) (fun u a h => by
      simp only [Bool.and_eq_true, decide_eq_true_eq] at h
      exact ⟨orderlyStep_spec h.1, h.2⟩) hrun
  simp only [Bool.and_eq_true, decide_eq_true_eq] at hp
  have ho : Meets (Setup.shipped 1 (by decide)).Orderly tr := fun x hx => (hm x hx).1
  refine ⟨tr, s, hr, ho, hp.1, hp.2, (no_bucket_dropped_iff _ hr ho ?_).mpr ?_⟩
  · intro k hk
    have hk : k < 1 := hk
    rw [show k = 0 by omega]
    exact hp.1
  · intro x hx n _ _ hn
    obtain ⟨pre, post, _, hpre⟩ := hr.before x hx
    have hle := (shape_of_run hpre).fresh n hn
    have hlt := (hm x hx).2
    show n < (x.1.writer (n % 1)).fileCount + 3 * 1
    rw [Nat.mod_one]
    omega

/-! ## A run with a longer backlog -/

/-- One writer is at block 0 when six more blocks are published and the stop comes. It writes three of them and ends. (The fills are
those of `wholeFill`, shorter than the driver's.) -/
def longBacklog : List RecAct :=
  writerSteps 0 3 ++ wholeFill ++ writerSteps 0 1 ++ wholeFills 6 ++ driverEnd ++ writerSteps 0 47

/-- In an orderly run a published bucket can be dropped, and nothing below it be flagged. -/
theorem no_bucket_dropped_false : ¬∀ (S : Setup) (tr : List (RecState × RecAct)) (s : RecState),
    Run S.system S.start tr s → Meets S.Orderly tr → s.drv.ending = .ended → (∀ k < S.writers, (s.writer k).pc = .exited) →
      NoneDropped s := by
  intro h
  have hrun : ((Setup.shipped 1 (by decide)).run (Setup.shipped 1 (by decide)).orderlyStep longBacklog
      (Setup.shipped 1 (by decide)).start).any (fun s => s.drv.ending = .ended && (s.writer 0).pc = .exited &&
        s.ledger.publishedEver 4 && (s.file 4).isNone && (List.range 4).all (fun h => s.flagged h = false)) = true := by
    decide +kernel
  obtain ⟨tr, s, hr, hm, hp⟩ := exists_run_meets (φ := (Setup.shipped 1 (by decide)).Orderly)
    (fun u a h => orderlyStep_spec h) hrun
  simp only [Bool.and_eq_true, decide_eq_true_eq, List.all_eq_true, List.mem_range, Option.isNone_iff_eq_none] at hp
  obtain ⟨⟨⟨⟨hend, hexit⟩, hpub⟩, hnone⟩, hflag⟩ := hp
  obtain ⟨img, hi, _⟩ := h _ tr s hr hm hend (fun k hk => by
    have hk : k < 1 := hk
    rw [show k = 0 by omega]
    exact hexit) 4 hpub hflag
  rw [hnone] at hi
  exact absurd hi (by simp)

end NicRecorder
