import Mathlib.Logic.Basic
import Mathlib.Data.Nat.Basic

/-!
# Loops that end with a result

The main loop of a program: a pass takes the state to the next one and may end the loop with a result. `run` makes at most a
given number of passes, so that a loop that never ends is one that has no result after any number of them. `run_rel` relates two
loops whose passes go in step. `MakesUp` relates a loop to a program that makes each pass in a number of small steps.
-/

namespace Loop

variable {σ τ ε : Type}

/-- The state after at most `n` passes, with the result if the loop has ended by then. -/
def run (body : σ → σ × Option ε) : Nat → σ → σ × Option ε
  | 0, s => (s, none)
  | n + 1, s =>
    match body s with
    | (t, some e) => (t, some e)
    | (t, none) => run body n t

section Run

variable {body : σ → σ × Option ε} {s t : σ} {e : ε}

theorem run_ends (h : body s = (t, some e)) (n : Nat) : run body (n + 1) s = (t, some e) := by
  rw [run, h]

theorem run_goes (h : body s = (t, none)) (n : Nat) : run body (n + 1) s = run body n t := by
  rw [run, h]

/-- A loop that has not ended goes on from the state it is in. -/
theorem run_add {m : Nat} (h : run body m s = (t, none)) (n : Nat) : run body (m + n) s = run body n t := by
  induction m generalizing s with
  | zero =>
    cases h
    rw [Nat.zero_add]
  | succ m ih =>
    rw [Nat.succ_add, run]
    rw [run] at h
    rcases hb : body s with ⟨u, _ | e⟩ <;> rw [hb] at h
    · exact ih h
    · cases h

/-- A loop that has ended stays as it is. -/
theorem run_ended {m : Nat} (h : run body m s = (t, some e)) (n : Nat) : run body (m + n) s = (t, some e) := by
  induction m generalizing s with
  | zero => cases h
  | succ m ih =>
    rw [Nat.succ_add, run]
    rw [run] at h
    rcases hb : body s with ⟨u, _ | e'⟩ <;> rw [hb] at h
    · exact ih h
    · exact h

theorem run_one (body : σ → σ × Option ε) (s : σ) : run body 1 s = body s := by
  rw [run]
  rcases body s with ⟨t, _ | e⟩ <;> rfl

/-- One more pass of a loop that has not ended. -/
theorem run_snoc {n : Nat} (h : (run body n s).2 = none) : run body (n + 1) s = body (run body n s).1 := by
  have hr : run body n s = ((run body n s).1, none) := Prod.ext rfl h
  rw [run_add hr 1, run_one]

theorem run_stays {n : Nat} (h : (run body n s).2 = some e) : run body (n + 1) s = run body n s := by
  have hr : run body n s = ((run body n s).1, some e) := Prod.ext rfl h
  exact (run_ended hr 1).trans hr.symm

/-- A loop that has not ended after a number of passes had not ended before. -/
theorem run_none_of_le {n k : Nat} (h : (run body n s).2 = none) (hk : k ≤ n) : (run body k s).2 = none := by
  obtain ⟨j, rfl⟩ := Nat.exists_eq_add_of_le hk
  rcases hr : run body k s with ⟨t, _ | e⟩
  · rfl
  · rw [run_ended hr j] at h
    cases h

end Run

/-- Two loops whose passes keep their states related and end together, with the same result, stay related and end together. -/
theorem run_rel {R : σ → τ → Prop} {body : σ → σ × Option ε} {body' : τ → τ × Option ε}
    (hb : ∀ s t, R s t → R (body s).1 (body' t).1 ∧ (body s).2 = (body' t).2) (n : Nat) {s : σ} {t : τ} (h : R s t) :
    R (run body n s).1 (run body' n t).1 ∧ (run body n s).2 = (run body' n t).2 := by
  induction n generalizing s t with
  | zero => exact ⟨h, rfl⟩
  | succ n ih =>
    obtain ⟨hs, he⟩ := hb s t h
    rw [run, run]
    rcases h1 : body s with ⟨u, _ | e⟩ <;> rcases h2 : body' t with ⟨v, _ | e'⟩ <;> rw [h1, h2] at hs he
    · exact ih hs
    · cases he
    · cases he
    · exact ⟨hs, he⟩

/-! ## Small steps -/

/-- The state after a number of small steps, if there are as many. -/
def steps (step : σ → Option σ) : Nat → σ → Option σ
  | 0, s => some s
  | n + 1, s => (step s).bind (steps step n)

section Steps

variable {step : σ → Option σ} {s s' : σ}

theorem steps_one (h : step s = some s') : steps step 1 s = some s' := by
  rw [steps, h]
  rfl

theorem steps_add (step : σ → Option σ) (m n : Nat) (s : σ) : steps step (m + n) s = (steps step m s).bind (steps step n) := by
  induction m generalizing s with
  | zero =>
    rw [Nat.zero_add]
    rfl
  | succ m ih =>
    rw [Nat.succ_add, steps, steps]
    cases step s with
    | none => rfl
    | some u => exact ih u

theorem steps_trans {s₁ s₂ : σ} {m n : Nat} (h : steps step m s = some s₁) (h' : steps step n s₁ = some s₂) :
    steps step (m + n) s = some s₂ := by
  rw [steps_add, h]
  exact h'

/-- A state without a step is the last one. -/
theorem steps_le_of_final {m n : Nat} {t : σ} (hm : steps step m s = some s') (hfin : step s' = none) (hn : steps step n s = some t) :
    n ≤ m ∧ steps step (m - n) t = some s' := by
  have hle : n ≤ m := by
    by_contra hlt
    obtain ⟨k, rfl⟩ : ∃ k, n = m + (k + 1) := ⟨n - m - 1, by omega⟩
    rw [steps_add, hm, Option.bind_some, steps, hfin] at hn
    cases hn
  refine ⟨hle, ?_⟩
  rw [← Nat.add_sub_of_le hle, steps_add, hn] at hm
  exact hm

end Steps

/-- A state behind a pass: at the head of the next one, or behind the end of the loop. -/
def Behind (R : σ → τ → Prop) (E : σ → τ → ε → Prop) (s : σ) (r : τ × Option ε) : Prop :=
  (r.2 = none → R s r.1) ∧ ∀ e, r.2 = some e → E s r.1 e

/-- Small steps make up the passes of a loop: from the head of a pass they lead behind it, and there is none behind the end of the loop.
`R` relates the states at the head of a pass, `E` those behind the end. -/
structure MakesUp (step : σ → Option σ) (body : τ → τ × Option ε) (R : σ → τ → Prop) (E : σ → τ → ε → Prop) : Prop where
  pass : ∀ s t, R s t → ∃ n s', steps step (n + 1) s = some s' ∧ Behind R E s' (body t)
  final : ∀ s t e, E s t e → step s = none

section MakesUp

variable {step : σ → Option σ} {body : τ → τ × Option ε} {R : σ → τ → Prop} {E : σ → τ → ε → Prop} {s s' : σ} {t t' : τ}

/-- When the loop ends, the small steps come to its end. -/
theorem MakesUp.reaches (h : MakesUp step body R E) {e : ε} (n : Nat) (hR : R s t) (hrun : run body n t = (t', some e)) :
    ∃ k s', steps step k s = some s' ∧ E s' t' e := by
  induction n generalizing s t with
  | zero => cases hrun
  | succ n ih =>
    rw [run] at hrun
    obtain ⟨k, s₁, hk, hgoes, hends⟩ := h.pass s t hR
    rcases hb : body t with ⟨u, _ | e'⟩ <;> rw [hb] at hrun hgoes hends
    · obtain ⟨j, s₂, hj, hE⟩ := ih (hgoes rfl) hrun
      exact ⟨k + 1 + j, s₂, steps_trans hk hj, hE⟩
    · cases hrun
      exact ⟨k + 1, s₁, hk, hends e rfl⟩

/-- When the small steps come to an end, the loop ends there. -/
theorem MakesUp.reached (h : MakesUp step body R E) (k : Nat) (hR : R s t) (hk : steps step k s = some s') (hfin : step s' = none) :
    ∃ n t' e, run body n t = (t', some e) ∧ E s' t' e := by
  -- a pass that does not end the loop takes at least one of the steps
  induction k using Nat.strong_induction_on generalizing s t with
  | _ k ih =>
    obtain ⟨j, s₁, hj, hgoes, hends⟩ := h.pass s t hR
    obtain ⟨hle, hrest⟩ := steps_le_of_final hk hfin hj
    rcases hb : body t with ⟨u, _ | e⟩ <;> rw [hb] at hgoes hends
    · obtain ⟨n, t', e, hrun, hE⟩ := ih (k - (j + 1)) (by omega) (hgoes rfl) hrest
      exact ⟨n + 1, t', e, by rw [run_goes hb, hrun], hE⟩
    · have hE := hends e rfl
      obtain ⟨hle', -⟩ := steps_le_of_final hj (h.final s₁ u e hE) hk
      rw [Nat.sub_eq_zero_of_le hle'] at hrest
      cases hrest
      exact ⟨1, u, e, by rw [run_one, hb], hE⟩

end MakesUp

end Loop
