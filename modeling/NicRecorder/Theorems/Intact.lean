import NicRecorder.Lemmas.Safe

/-!
# Files below the end marker

The tools that read a recording accept the files before the first one that is flagged. `files_intact`: these files hold their
fills, in every run in which no block is overrun, no bucket is taken while the driver is in it, and no writer takes an old flag
after the stop. `files_intact_false`: they need not otherwise. The mark is put on the file after the one that was overwritten.
-/

namespace NicRecorder

open Runs

variable {S : Setup}

/-- Every complete file below the first flagged one holds its fill. -/
def IntactBelow (s : RecState) : Prop :=
  ∀ g, (∀ h < g, s.flagged h = false) → ∀ f < g, ∀ img, s.file f = some img → img.closed = true → Intact s f img

/-- A file that is not flagged is not marked. -/
theorem RecState.stalled_of_flagged {s : RecState} {f : Nat} {img : Image} (hi : s.file f = some img)
    (hf : s.flagged f = false) : img.stalled = 0 ∧ img.last = 0 := by
  simpa [RecState.flagged, hi] using hf

/-- In every run of careful steps the files below the end marker are intact, in every state that the run goes through. -/
theorem files_intact (S : Setup) {s : RecState} {tr : List (RecState × RecAct)} (hr : Run S.system S.start tr s)
    (hc : Meets S.Careful tr) : ∀ u ∈ visited tr s, IntactBelow u := by
  intro u hu g hg f hf img hi hclosed
  have hinv : Shape S u ∧ Safe S u := by
    refine Run.visited_invariant (T := S.system) (φ := S.Careful) (I := fun v => Shape S v ∧ Safe S v) ?_ hr
      ⟨shape_start S, safe_start S⟩ hc u hu
    rintro v a w ⟨h1, h2⟩ hca hst
    exact ⟨h1.step hst, h2.step h1 hca hst⟩
  exact (hinv.2.intact f img hi hclosed (RecState.stalled_of_flagged hi (hg f hf)).1).1

/-- A writer that finds its bucket empty first, and writes one file when the driver has gone on. -/
def onePass : List RecAct := writerSteps 0 3 ++ wholeFill ++ writerSteps 0 11

/-- The file of block 0 in a careful recording with one writer. -/
theorem files_intact_pass : ∃ (tr : List (RecState × RecAct)) (s : RecState) (img : Image),
    Run (Setup.shipped 1 (by decide)).system (Setup.shipped 1 (by decide)).start tr s ∧
      Meets (Setup.shipped 1 (by decide)).Careful tr ∧ s.file 0 = some img ∧ img.closed = true ∧ img.captured = 1 ∧
      Intact s 0 img := by
  have hrun : ((Setup.shipped 1 (by decide)).run (Setup.shipped 1 (by decide)).carefulStep onePass
      (Setup.shipped 1 (by decide)).start).any (fun s =>
        (s.file 0).any (fun img => img.closed && img.captured = 1) && s.flagged 0 = false) = true := by
    decide +kernel
  obtain ⟨tr, s, hr, hm, hp⟩ := exists_run_meets (φ := (Setup.shipped 1 (by decide)).Careful)
    (fun s a h => ⟨(carefulStep_spec h).1, (carefulStep_spec h).2.1, (carefulStep_spec h).2.2.late⟩) hrun
  simp only [Bool.and_eq_true, decide_eq_true_eq] at hp
  obtain ⟨hany, hfl⟩ := hp
  obtain ⟨img, hi, hany⟩ := (Option.any_eq_true ..).mp hany
  simp only [Bool.and_eq_true, decide_eq_true_eq] at hany
  refine ⟨tr, s, img, hr, hm, hi, hany.1, hany.2, ?_⟩
  refine files_intact _ hr hm s (by simp [visited]) 1 (fun h hh => ?_) 0 (by decide) img hi hany.1
  rw [show h = 0 by omega]
  exact hfl

/-- One writer is slow with the data of block 0. The driver comes round to the bucket, and a packet of fill 15 arrives there. The
writer copies it, closes the file, and finds the flag of block 1 set. (The fills are those of `wholeFill`, shorter than the driver's.) -/
def overwritten : List RecAct :=
  writerSteps 0 3 ++ wholeFill ++ writerSteps 0 8 ++ wholeFills 14 ++ [.drv (.dma false 1)] ++ writerSteps 0 10

/-- A file below the first flagged one can hold data of a later fill. -/
theorem files_intact_false : ¬∀ (S : Setup) (tr : List (RecState × RecAct)) (s : RecState),
    Run S.system S.start tr s → ∀ g, s.flagged g = true → (∀ h < g, s.flagged h = false) →
      ∀ f < g, ∀ img, s.file f = some img → img.closed = true → Intact s f img := by
  intro h
  have hrun : ((Setup.shipped 1 (by decide)).run (fun _ _ => true) overwritten (Setup.shipped 1 (by decide)).start).any
      (fun s => (s.file 0).any (fun img => img.closed && img.cell 1 = some 15) && s.flagged 0 = false && s.flagged 1) =
        true := by
    decide +kernel
  obtain ⟨tr, s, hr, hp⟩ := exists_run hrun
  simp only [Bool.and_eq_true, decide_eq_true_eq] at hp
  obtain ⟨⟨hany, hfl⟩, hg⟩ := hp
  obtain ⟨img, hi, hany⟩ := (Option.any_eq_true ..).mp hany
  simp only [Bool.and_eq_true, decide_eq_true_eq] at hany
  have hin := h _ tr s hr 1 hg (fun j hj => by rw [show j = 0 by omega]; exact hfl) 0 (by decide) img hi hany.1
  exact absurd (hin.tags 1 15 hany.2) (by decide)

end NicRecorder
