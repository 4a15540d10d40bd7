import NicRecorder.Lemmas.ProcSteps
import NicRecorder.Lemmas.Effects

/-!
# The invariant over whole captures

`AcceptsWritten` is the condition on a step that the recording thread accepts only what the adapter wrote back in the current
lap. The thread does not check it. `NotDry` is a condition on the positions of the threads under which it holds: the ring has
been through one lap and the recording thread is at the descriptor that is re-armed next only if it is not at its poll. The two
come to the same thing over a whole run (`meets_acceptsWritten_iff`).
-/

namespace NicRecorder

open ByteMem Runs

variable {c : Config}

/-- The recording thread accepts a descriptor only if the adapter has written it back since it was last re-armed, and it has not
been accepted since. -/
def AcceptsWritten (s : Capture) (a : Act) : Prop :=
  a = .proc → s.drv.proc.pc = .poll → (s.drv.ring s.drv.proc.rxDesc).dd = true →
    s.drv.hist.slot s.drv.proc.rxDesc = .written

/-- The recording thread does not poll a descriptor of the last lap: when it has caught up with the refill thread, the ring is
still in its first lap. -/
def Config.NotDry (c : Config) (s : Capture) (a : Act) : Prop :=
  a = .proc → s.drv.proc.pc = .poll → s.drv.hist.accepted = s.drv.hist.armed → s.drv.hist.armed < c.numRxSlots

/-- Only an access of the recording thread can be to a dry ring. -/
theorem Config.notDry_of_ne {s : Capture} {a : Act} (h : a ≠ .proc) : c.NotDry s a := fun he => absurd he h

/-- Every step keeps the invariant. -/
theorem Config.Inv.step {writers : Nat} {s t : Capture} {a : Act} (h : c.Inv s.drv) (hw : AcceptsWritten s a)
    (hst : c.Step writers s a t) : c.Inv t.drv := by
  cases hst with
  | alloc hs => exact h.allocStep hs
  | proc hs => exact h.procStep hs (hw rfl)
  | nic p hp hs => exact h.nicStep hp hs
  | userStart => exact h.boardStep true s.drv.board.userStop s.drv.board.captured s.drv.board.stalled
  | userStop => exact h.boardStep s.drv.board.userStart true s.drv.board.captured s.drv.board.stalled
  | visit k hk =>
    obtain ⟨captured, he, -⟩ := c.visitStep_drv k s
    rw [he]
    exact h.boardStep s.drv.board.userStart s.drv.board.userStop captured s.drv.board.stalled

theorem Config.inv_init {writers : Nat} {s : Capture} (h : (c.capture writers).init s) : c.Inv s.drv := by
  obtain ⟨lens, ram, rfl⟩ := h
  exact c.inv_start lens ram

/-- On a dry ring the done bit of the last lap is still set. -/
theorem Config.Inv.stale {d : Driver} (h : c.Inv d) (hpc : d.proc.pc = .poll) (he : d.hist.accepted = d.hist.armed)
    (hN : c.numRxSlots ≤ d.hist.armed) :
    (d.ring d.proc.rxDesc).dd = true ∧ d.hist.slot d.proc.rxDesc = .accepted := by
  have hrx := (h.wrapped.published (by rw [hpc]; decide)).2
  have ht : d.taken = d.hist.accepted := Driver.taken_of_ne (by rw [hpc]; decide)
  have hpos := c.slots_pos
  have hold := h.ringed.accepted (d.hist.armed - c.numRxSlots) (by omega) (by omega)
  rw [← Nat.mod_eq_sub_mod hN, ← he, ← hrx] at hold
  exact ⟨hold.2, hold.1⟩

/-- On a ring that is not dry a set done bit was written back in the current lap. -/
theorem Config.Inv.acceptsWritten {s : Capture} {a : Act} (h : c.Inv s.drv) (hn : c.NotDry s a) : AcceptsWritten s a := by
  intro ha hpc hdd
  have hrx := (h.wrapped.published (by rw [hpc]; decide)).2
  have ht : s.drv.taken = s.drv.hist.accepted := Driver.taken_of_ne (by rw [hpc]; decide)
  have ho := h.order
  by_cases hlt : s.drv.hist.accepted < s.drv.hist.sent.length
  · rw [hrx]
    exact (h.ringed.written _ (by omega) hlt).1
  · by_cases harm : s.drv.hist.accepted < s.drv.hist.armed
    · rw [hrx, (h.ringed.armed _ (by omega) harm).2] at hdd
      cases hdd
    · have he : s.drv.hist.accepted = s.drv.hist.armed := by omega
      have hN := hn ha hpc he
      rw [hrx, he, Nat.mod_eq_of_lt hN, (h.ringed.fresh _ (Nat.le_refl _) hN).2] at hdd
      cases hdd

/-- A done bit that is found set on a ring that is not dry belongs to a packet that has not been recorded. -/
theorem Config.Inv.done_lt {s : Capture} (h : c.Inv s.drv) (hn : c.NotDry s .proc) (hpc : s.drv.proc.pc = .poll)
    (hdd : (s.drv.ring s.drv.proc.rxDesc).dd = true) : s.drv.hist.accepted < s.drv.hist.sent.length :=
  h.written_lt hpc (h.acceptsWritten hn rfl hpc hdd)

theorem Config.Inv.notDry {s : Capture} {a : Act} (h : c.Inv s.drv) (hw : AcceptsWritten s a) : c.NotDry s a := by
  intro ha hpc he
  by_contra hN
  obtain ⟨hdd, hslot⟩ := h.stale hpc he (Nat.le_of_not_lt hN)
  rw [hw ha hpc hdd] at hslot
  cases hslot

/-- The invariant holds in every state of a run that accepts only what was written back. -/
theorem Config.inv_of_run {writers : Nat} {s t : Capture} {tr : List (Capture × Act)} (hi : (c.capture writers).init s)
    (hr : Run (c.capture writers) s tr t) (hm : Meets AcceptsWritten tr) : c.Inv t.drv :=
  hr.invariantUnder (I := fun s => c.Inv s.drv) (fun _ _ _ h hw hst => h.step hw hst) (Config.inv_init hi) hm

/-- A capture that has closed a bucket has recorded a lap of packets. -/
theorem Config.fill_of_reached {writers : Nat} {t : Capture} (h : Reached (c.capture writers) AcceptsWritten t) :
    t.drv.hist.procFill = 0 ∨ c.numRxSlots ≤ t.drv.hist.accepted := by
  refine (h.invariant (I := fun s => c.Inv s.drv ∧ (s.drv.hist.procFill = 0 ∨ c.numRxSlots ≤ s.drv.hist.accepted)) ?_ ?_).2
  · rintro s ⟨lens, ram, rfl⟩
    exact ⟨c.inv_start lens ram, Or.inl rfl⟩
  · rintro s a t ⟨hinv, hfill⟩ hw hst
    refine ⟨hinv.step hw hst, ?_⟩
    cases hst with
    | alloc hs =>
      obtain ⟨-, -, hacc, -, hf⟩ := Config.allocStep_frame hs
      dsimp only
      rw [hacc, hf]
      exact hfill
    | proc hs =>
      have hle := (Config.procStep_rest hs).2
      rcases Config.procStep_fill hs with ⟨hf, -⟩ | ⟨hpc, -⟩
      · dsimp only
        rw [hf]
        exact hfill.imp_right fun h => Nat.le_trans h hle
      · -- a bucket is closed at the end of a lap
        have hdvd := hinv.wrapped.comparing (Or.inr hpc)
        have hpos := hinv.wrapped.counting (Or.inr (Or.inr hpc))
        have hacc := hinv.window.accepted_eq
        have hlap := Nat.le_of_dvd (by omega) hdvd
        exact Or.inr (Nat.le_trans hlap hle)
    | nic p hp hs =>
      obtain ⟨-, ring, head, ram, slot, rfl⟩ := Config.nicStep_frame hs
      exact hfill
    | userStart | userStop => exact hfill
    | visit k hk =>
      obtain ⟨captured, he, -⟩ := c.visitStep_drv k s
      rw [he]
      exact hfill

/-- A run accepts only what was written back if and only if it never polls a dry ring. -/
theorem Config.meets_acceptsWritten_iff {writers : Nat} {s t : Capture} {tr : List (Capture × Act)}
    (hi : (c.capture writers).init s) (hr : Run (c.capture writers) s tr t) :
    Meets AcceptsWritten tr ↔ Meets c.NotDry tr := by
  induction hr with
  | nil => exact ⟨fun _ => meets_nil _, fun _ => meets_nil _⟩
  | snoc a hr _ ih =>
    rw [meets_snoc, meets_snoc, ← ih]
    refine and_congr_right fun hm => ?_
    have hinv := Config.inv_of_run hi hr hm
    exact ⟨hinv.notDry, hinv.acceptsWritten⟩

/-- The same from any state that keeps the invariant. -/
theorem Config.Inv.meets_acceptsWritten {writers : Nat} {s t : Capture} {tr : List (Capture × Act)} (h : c.Inv s.drv)
    (hr : Run (c.capture writers) s tr t) (hm : Meets c.NotDry tr) : Meets AcceptsWritten tr ∧ c.Inv t.drv := by
  induction hr with
  | nil => exact ⟨meets_nil _, h⟩
  | snoc a _ hst ih =>
    obtain ⟨hm, ha⟩ := meets_snoc.mp hm
    obtain ⟨hw, hinv⟩ := ih hm
    have hacc := hinv.acceptsWritten ha
    exact ⟨meets_snoc.mpr ⟨hw, hacc⟩, hinv.step hacc hst⟩

end NicRecorder
