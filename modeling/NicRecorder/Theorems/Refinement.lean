import NicRecorder.Lemmas.Simulation
import NicRecorder.Theorems.EndMarker
import NicRecorder.Theorems.NoneDropped

/-!
# The recorder refines the recording

`recorder_refines_recording`: every run of the recorder that never polls a dry ring makes a recording (`Setup.recordingOf`) with the
same flags, the same pieces in the buckets, the same writers and the same files. So what holds in every state of every recording
holds of the threads, the adapter and the writers as they are. The steps of the recording meet a condition if and only if the steps
of the recorder meet it in the recording that they make (`Setup.Upon`), so what holds of the recordings whose steps are careful, orderly
or finishing holds of the runs of the recorder that are.
-/

namespace NicRecorder

open Runs

variable {S : Setup} {G : Pieces S} {m n : Recorder} {r : RecState}

/-- The recording makes the steps that a step of the recorder comes to. -/
theorem Sim.step {a : RingAct} (h : Sim G m r) (hso : Sound G m) (hst : S.RingStep G m a n) :
    ∃ t, S.Makes r (m.acts G a) t ∧ Sim G n t := by
  cases hst with
  | alloc hs => exact h.allocStep hso.inv hs
  | proc hs => exact h.procStep hso hs
  | nic p _ hs => exact h.nicStep hso hs
  | userStart => exact ⟨r, makes_nil r, h.mem, h.drv, h.writer, h.file, h.pubFill, h.sized, h.sizing⟩
  | userStop =>
    have hstep : S.fillStep r .userStop = some { r with mem := { r.mem with userStop := true } } := rfl
    refine ⟨_, makes_fill hstep, ?_, h.drv, h.writer, h.file, h.pubFill, h.sized, h.sizing⟩
    rw [h.mem]
    rfl
  | writer k hk hs =>
    obtain ⟨u, hu, hsim⟩ := h.writerStep hs
    exact ⟨u, makes_one ((if_pos hk).trans hu), hsim⟩

/-- A run is what its steps make. -/
theorem Setup.foldlM_of_run {s t : RecState} {tr : List (RecState × RecAct)} (hr : Run S.system s tr t) :
    (tr.map (·.2)).foldlM S.next s = some t := by
  induction hr with
  | nil => rfl
  | snoc a _ hst ih =>
    rw [List.map_append, List.foldlM_append, ih]
    exact (bind_pure _).trans hst

/-- A condition on the steps of a recording in terms of the recorder, for one more step. -/
theorem Setup.upon_iff {φ : RecState → RecAct → Prop} {past : List (Recorder × RingAct)} {a : RingAct}
    (hr : S.recordingOf G past = some r) : S.Upon G φ past m a ↔ ∀ b ∈ m.acts G a, φ r b := by
  refine ⟨fun h => h r hr, fun h r' hr' => ?_⟩
  cases hr.symm.trans hr'
  exact h

/-- The recording that a run of the recorder makes. -/
theorem recording_of_run (S : Setup) (G : Pieces S) {m₀ m : Recorder} {tr : List (Recorder × RingAct)}
    (hi : (S.recorder G).init m₀) (hr : Run (S.recorder G) m₀ tr m) (hn : Meets S.RingNotDry tr) :
    ∃ tr' r, Run S.system S.start tr' r ∧ S.recordingOf G tr = some r ∧ Sound G m ∧ Sim G m r ∧
      ∀ φ, AllowsDma φ → (Meets φ tr' ↔ MeetsAfter (S.Upon G φ) tr) := by
  induction hr with
  | nil =>
    obtain ⟨lens, ram, rfl⟩ := hi
    exact ⟨[], S.start, Run.nil _, rfl, sound_start G lens ram, ⟨rfl, rfl, rfl, rfl, rfl, fun _ h => absurd rfl h, nofun⟩,
      fun φ _ => iff_of_true (meets_nil φ) (meetsAfter_nil _)⟩
  | @snoc m n tr a _ hst ih =>
    obtain ⟨hn, ha⟩ := meets_snoc.mp hn
    obtain ⟨tr', r, hr', hmade, hso, hsim, hiff⟩ := ih hn
    obtain ⟨t, ⟨tr'', hr'', hacts, hmeets⟩, ht⟩ := hsim.step hso hst
    refine ⟨tr' ++ tr'', t, hr'.append hr'', ?_, hso.step ha hst, ht, fun φ hφ => ?_⟩
    · have hlast : (m.acts G a).foldlM S.next r = some t := by
        rw [← hacts]
        exact Setup.foldlM_of_run hr''
      unfold Setup.recordingOf at hmade ⊢
      rw [List.flatMap_append, List.foldlM_append, hmade, List.flatMap_cons, List.flatMap_nil, List.append_nil]
      exact hlast
    · rw [meets_append, meetsAfter_snoc, hiff φ hφ, hmeets φ hφ, Setup.upon_iff hmade]

/-! ## The conditions -/

/-- A packet that arrives is no step that the conditions are about. -/
theorem Setup.careful_dma (S : Setup) : AllowsDma S.Careful := by
  refine fun s ahead x => ⟨fun f hf => ?_, fun k hk => ?_, fun k hk => ?_⟩
  · cases hf.1
  · cases hk.1
  · cases hk.1

theorem Setup.orderly_dma (S : Setup) : AllowsDma S.Orderly := by
  refine fun s ahead x => ⟨(S.careful_dma s ahead x).1, (S.careful_dma s ahead x).2.1, fun k hk => ?_, fun k hk => ?_, fun h => ?_⟩
  · cases hk.1
  · cases hk
  · rcases h with ⟨n, hn⟩ | ⟨hn, -⟩ <;> cases hn

theorem Setup.backlogTo_dma (S : Setup) (n : Nat) : AllowsDma (S.BacklogTo n) := by
  intro s ahead x hsees
  cases hsees.1

theorem Setup.finishing_dma (S : Setup) : AllowsDma S.Finishing := by
  refine fun s ahead x => ⟨S.orderly_dma s ahead x, fun k hk => ?_, fun ha => ?_, fun k hk => ?_, fun n => S.backlogTo_dma n s ahead x⟩
  · cases hk.1
  · cases ha
  · cases hk

/-! ## The theorem -/

/-- Every run of the recorder that never polls a dry ring makes a recording with the same flags and pieces in the buckets, the same
writers, the same files, and the same fills of the flags. The recording is careful, orderly, finishing, or leaves no writer a backlog at
the stop, if and only if the run of the recorder is and does so. -/
theorem recorder_refines_recording (S : Setup) (G : Pieces S) {m₀ m : Recorder} {tr : List (Recorder × RingAct)}
    (hi : (S.recorder G).init m₀) (hr : Run (S.recorder G) m₀ tr m) (hn : Meets S.RingNotDry tr) :
    ∃ tr' r, Run S.system S.start tr' r ∧ S.recordingOf G tr = some r ∧
      r.mem = m.mem ∧ r.drv = m.drv.filler ∧ r.writer = m.writer ∧ r.file = m.file ∧ r.ledger.pubFill = m.drv.hist.pubFill ∧
      (Meets S.Careful tr' ↔ MeetsAfter (S.Upon G S.Careful) tr) ∧
      (Meets S.Orderly tr' ↔ MeetsAfter (S.Upon G S.Orderly) tr) ∧
      (Meets S.Finishing tr' ↔ MeetsAfter (S.Upon G S.Finishing) tr) ∧
      (Meets (S.Backlog r) tr' ↔ MeetsAfter (S.Upon G (S.Backlog r)) tr) := by
  obtain ⟨tr', r, hr', hmade, -, h, hiff⟩ := recording_of_run S G hi hr hn
  exact ⟨tr', r, hr', hmade, h.mem, h.drv, h.writer, h.file, h.pubFill, hiff _ S.careful_dma, hiff _ S.orderly_dma,
    hiff _ S.finishing_dma, hiff _ fun s ahead x n _ => S.backlogTo_dma n s ahead x⟩

end NicRecorder
