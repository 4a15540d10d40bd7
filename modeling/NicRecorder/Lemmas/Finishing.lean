import NicRecorder.Lemmas.Ledger

/-!
# A writer finishes its block

A process that has taken a block which the threads have left needs nobody else to close its file: each of its steps is possible and in
time, and nine of them are enough when it copies all at once.
-/

namespace NicRecorder

open ByteMem Runs

/-- The accesses that a process has left in its block, when it copies all at once. -/
def Todisk.remaining (w : Todisk) : Nat :=
  match w.pc with
  | .openFile => 9
  | .stamp => 8
  | .copyLens => if w.lenDone < lenBlockSize then 7 else 6
  | .readLast => 5
  | .reset => 4
  | .copyData => if w.dataDone < lenBlockOff then 3 else 2
  | .close => 1
  | _ => 0

theorem Todisk.remaining_eq_one_iff (w : Todisk) : w.remaining = 1 ↔ w.pc = .close := by
  unfold Todisk.remaining
  cases w.pc <;> dsimp only
  case copyLens | copyData => split <;> simp
  all_goals simp

theorem Todisk.remaining_raiseStop {w : Todisk} (h : w.pc = .raiseStop) : w.remaining = 0 := by
  rw [Todisk.remaining, h]

/-- A block that can be taken and saved: its flag was set for it, the threads have left it, and the bucket has not been entered again. -/
structure Config.Settled (c : Config) (d : Driver) (f : Nat) : Prop where
  posted : d.hist.pubFill (c.bucketOf f) = f
  left : d.Left f
  kept : d.hist.allocFill < f + c.numBuckets

section Finishing

variable {H : Host} {m m' : Machine} {pid : Nat} {w : Todisk}

theorem Config.Settled.onTime (h : H.config.Settled m.cap.drv w.fileCount) (hcur : w.cur = H.config.bucketOf w.fileCount) :
    H.OnTime m w :=
  ⟨fun _ _ => by rw [hcur]; exact h.posted, fun _ => h.left, fun _ => h.kept⟩

/-- A step of a process in time that does not find itself late. -/
theorem Host.timely_todisk {n time : Nat} (hp : m.prog pid = some (.todisk w)) (ht : H.OnTime m w) (hpc : w.pc ≠ .raiseStop) :
    H.Timely True m (.exec pid n time) := by
  have hw : ∀ q n' time' p, MachineAct.exec pid n time = .exec q n' time' → m.prog q = some p → p = .todisk w := by
    intro q n' time' p he hq
    cases he
    rw [hp] at hq
    exact (Option.some.inj hq).symm
  refine ⟨trivial, ?_, fun _ => ?_, ?_⟩
  · intro q n' time' v he hv
    cases hw q n' time' _ he hv
  · intro q n' time' w' he hw'
    cases hw q n' time' _ he hw'
    exact hpc
  · intro q n' time' w' he hw'
    cases hw q n' time' _ he hw'
    exact ht

theorem Host.run_todisk {n time : Nat} (hp : m.prog pid = some (.todisk w)) (hs : H.todiskStep m pid w n time = some m') :
    Run H.machine m [(m, .exec pid n time)] m' := by
  refine Run.single (Host.Step.exec pid n time ?_)
  rw [Host.execStep, hp]
  exact hs

/-- A process that has taken its block and not come to the end of it goes on to its next access. -/
theorem Host.todisk_next (H : Host) (m : Machine) (pid : Nat) {w : Todisk} (hk : 1 < w.remaining) :
    ∃ m' w', H.todiskStep m pid w (lenBlockSize + lenBlockOff) 0 = some m' ∧ m'.cap = m.cap ∧
      m'.prog = Function.update m.prog pid (some (.todisk w')) ∧ w'.fileCount = w.fileCount ∧ w'.cur = w.cur ∧
      0 < w'.remaining ∧ w'.remaining < w.remaining := by
  unfold Todisk.remaining at hk ⊢
  unfold Host.todiskStep
  cases hpc : w.pc <;> rw [hpc] at hk <;> dsimp only at hk ⊢
  case copyLens =>
    by_cases hlt : w.lenDone < lenBlockSize
    · rw [if_pos hlt, if_pos hlt]
      refine ⟨_, _, rfl, rfl, rfl, rfl, rfl, ?_⟩
      dsimp only
      rw [if_neg (by omega)]
      decide
    · rw [if_neg hlt, if_neg hlt]
      exact ⟨_, _, rfl, rfl, rfl, rfl, rfl, by dsimp only; omega⟩
  case copyData =>
    by_cases hlt : w.dataDone < lenBlockOff
    · rw [if_pos hlt, if_pos hlt]
      refine ⟨_, _, rfl, rfl, rfl, rfl, rfl, ?_⟩
      dsimp only
      rw [if_neg (by omega)]
      decide
    · rw [if_neg hlt, if_neg hlt]
      exact ⟨_, _, rfl, rfl, rfl, rfl, rfl, by dsimp only; omega⟩
  case stamp | reset =>
    refine ⟨_, _, rfl, rfl, rfl, rfl, rfl, ?_⟩
    dsimp only
    split <;> decide
  case openFile | readLast => exact ⟨_, _, rfl, rfl, rfl, rfl, rfl, by dsimp only; omega⟩
  all_goals omega

/-- A process that has taken a block which can be saved closes its file on its own. -/
theorem Host.run_finishing (H : Host) {m : Machine} {pid : Nat} {w : Todisk} (hp : m.prog pid = some (.todisk w))
    (hset : H.config.Settled m.cap.drv w.fileCount) (hcur : w.cur = H.config.bucketOf w.fileCount) (hk : 0 < w.remaining) :
    ∃ tr m', Run H.machine m tr m' ∧ Meets (H.Timely True) tr ∧ startedWriters tr = [] ∧ closedBlocks tr = [w.fileCount] ∧
      m'.cap = m.cap := by
  generalize hn : w.remaining = n
  -- the accesses that are left become fewer with each of them
  induction n using Nat.strong_induction_on generalizing m w with
  | _ n ih =>
    have ht := hset.onTime hcur
    by_cases hlast : w.remaining = 1
    · have hpc := w.remaining_eq_one_iff.mp hlast
      have hs : H.todiskStep m pid w 0 0 = some (m.setProg pid (.todisk (H.endBlock w))) := by
        rw [Host.todiskStep, hpc]
      have hcl : m.closes (.exec pid 0 0) = some w.fileCount := by
        rw [Machine.closes, hp]
        exact if_pos hpc
      refine ⟨_, _, Host.run_todisk hp hs, ?_, rfl, ?_, rfl⟩
      · exact meets_snoc.mpr ⟨meets_nil _, Host.timely_todisk hp ht (by rw [hpc]; decide)⟩
      · simp only [closedBlocks, List.filterMap_cons, hcl, List.filterMap_nil]
    · have hpc : w.pc ≠ .close := fun he => hlast (w.remaining_eq_one_iff.mpr he)
      have hrun : w.pc ≠ .raiseStop := fun he => absurd (Todisk.remaining_raiseStop he) (by omega)
      obtain ⟨m₁, w₁, hs, hcap, hprog, hfc, hcur₁, hpos, hless⟩ := H.todisk_next m pid (w := w) (by omega)
      have hp₁ : m₁.prog pid = some (.todisk w₁) := by rw [hprog, Function.update_self]
      obtain ⟨tr, m₂, hr, hm, hst, hcl, hcap₂⟩ := ih w₁.remaining (by omega) hp₁ (by rw [hcap, hfc]; exact hset)
        (by rw [hcur₁, hfc]; exact hcur) hpos rfl
      have hnone : m.closes (.exec pid (lenBlockSize + lenBlockOff) 0) = none := by
        rw [Machine.closes, hp]
        exact if_neg hpc
      refine ⟨_, m₂, (Host.run_todisk hp hs).append hr, ?_, ?_, ?_, hcap₂.trans hcap⟩
      · refine meets_append.mpr ⟨?_, hm⟩
        exact meets_snoc.mpr ⟨meets_nil _, Host.timely_todisk hp ht hrun⟩
      · simp only [startedWriters, List.filterMap_append] at hst ⊢
        rw [hst]
        rfl
      · simp only [closedBlocks, List.filterMap_append, List.filterMap_cons, hnone, List.filterMap_nil, List.nil_append] at hcl ⊢
        rw [hcl, hfc]

end Finishing

end NicRecorder
