import Mathlib.Logic.Relation

/-!
# Labelled transition systems and their runs

A system has initial states and labelled steps. A run is the list of the steps taken, each with the state it was taken in, so
that a condition on the steps of a run is a condition on the members of a list. `Run.invariant` is the induction every safety
proof goes through; `Run.invariantUnder` is the same for the runs whose steps meet a condition. `Simulates` relates the runs of
two systems.
-/

namespace Runs

variable {σ α : Type}

/-- A labelled transition system. -/
structure System (σ α : Type) where
  init : σ → Prop
  step : σ → α → σ → Prop

/-- `Run T s tr t`: the steps `tr` lead from `s` to `t`. Each member of `tr` is a label and the state it was taken in. -/
inductive Run (T : System σ α) : σ → List (σ × α) → σ → Prop where
  | nil (s : σ) : Run T s [] s
  | snoc {s t u : σ} {tr : List (σ × α)} (a : α) : Run T s tr t → T.step t a u → Run T s (tr ++ [(t, a)]) u

/-- Every step of a run meets the condition `φ` on the state before it and its label. -/
def Meets (φ : σ → α → Prop) (tr : List (σ × α)) : Prop := ∀ x ∈ tr, φ x.1 x.2

theorem meets_nil (φ : σ → α → Prop) : Meets φ [] := by
  intro x hx
  cases hx

theorem meets_snoc {φ : σ → α → Prop} {tr : List (σ × α)} {s : σ} {a : α} :
    Meets φ (tr ++ [(s, a)]) ↔ Meets φ tr ∧ φ s a := by
  simp only [Meets, List.mem_append, List.mem_singleton]
  constructor
  · intro h
    exact ⟨fun x hx => h x (Or.inl hx), h (s, a) (Or.inr rfl)⟩
  · rintro ⟨h1, h2⟩ x (hx | rfl)
    · exact h1 x hx
    · exact h2

theorem meets_append {φ : σ → α → Prop} {tr tr' : List (σ × α)} :
    Meets φ (tr ++ tr') ↔ Meets φ tr ∧ Meets φ tr' := by
  simp only [Meets, List.mem_append]
  constructor
  · intro h
    exact ⟨fun x hx => h x (Or.inl hx), fun x hx => h x (Or.inr hx)⟩
  · rintro ⟨h1, h2⟩ x (hx | hx)
    · exact h1 x hx
    · exact h2 x hx

theorem Meets.mono {φ ψ : σ → α → Prop} {tr : List (σ × α)} (h : ∀ s a, φ s a → ψ s a) (hm : Meets φ tr) :
    Meets ψ tr :=
  fun x hx => h _ _ (hm x hx)

/-- One step is a run. -/
theorem Run.single {T : System σ α} {s t : σ} {a : α} (h : T.step s a t) : Run T s [(s, a)] t := by
  have hr := Run.snoc a (Run.nil s) h
  simpa using hr

/-- Runs compose. -/
theorem Run.append {T : System σ α} {s t u : σ} {tr tr' : List (σ × α)} (h : Run T s tr t) (h' : Run T t tr' u) :
    Run T s (tr ++ tr') u := by
  induction h' with
  | nil => simpa using h
  | snoc a _ hs ih =>
    rw [← List.append_assoc]
    exact Run.snoc a ih hs

/-- Every step of a run meets the condition `φ` on the run before it, the state before it and its label. -/
def MeetsAfter (φ : List (σ × α) → σ → α → Prop) (tr : List (σ × α)) : Prop :=
  ∀ tr₁ s a tr₂, tr = tr₁ ++ (s, a) :: tr₂ → φ tr₁ s a

theorem meetsAfter_nil (φ : List (σ × α) → σ → α → Prop) : MeetsAfter φ [] := by
  intro tr₁ s a tr₂ h
  exact absurd h (by simp)

theorem meetsAfter_snoc {φ : List (σ × α) → σ → α → Prop} {tr : List (σ × α)} {s : σ} {a : α} :
    MeetsAfter φ (tr ++ [(s, a)]) ↔ MeetsAfter φ tr ∧ φ tr s a := by
  constructor
  · intro h
    refine ⟨fun tr₁ u b tr₂ he => h tr₁ u b (tr₂ ++ [(s, a)]) ?_, h tr s a [] rfl⟩
    rw [he, List.append_assoc, List.cons_append]
  · rintro ⟨h1, h2⟩ tr₁ u b tr₂ he
    rcases List.eq_nil_or_concat tr₂ with rfl | ⟨tr₃, x, rfl⟩
    · obtain ⟨rfl, hx⟩ := List.append_inj' he rfl
      cases hx
      exact h2
    · rw [List.concat_eq_append, ← List.cons_append, ← List.append_assoc] at he
      exact h1 tr₁ u b tr₃ (List.append_inj' he rfl).1

/-- A condition on the states and the labels alone. -/
theorem Meets.after {φ : σ → α → Prop} {ψ : List (σ × α) → σ → α → Prop} {tr : List (σ × α)} (h : ∀ tr s a, φ s a → ψ tr s a)
    (hm : Meets φ tr) : MeetsAfter ψ tr := by
  rintro tr₁ s a tr₂ rfl
  exact h tr₁ s a (hm (s, a) (by simp))

/-- There is a run from `s` to `t` whose steps meet `φ`. -/
def Leads (T : System σ α) (φ : σ → α → Prop) (s t : σ) : Prop := ∃ tr, Run T s tr t ∧ Meets φ tr

theorem Leads.refl {T : System σ α} {φ : σ → α → Prop} (s : σ) : Leads T φ s s := ⟨[], Run.nil s, meets_nil _⟩

theorem Leads.single {T : System σ α} {φ : σ → α → Prop} {s t : σ} {a : α} (h : T.step s a t) (ha : φ s a) :
    Leads T φ s t := by
  refine ⟨[(s, a)], Run.single h, ?_⟩
  intro x hx
  rw [List.mem_singleton] at hx
  exact hx ▸ ha

theorem Leads.trans {T : System σ α} {φ : σ → α → Prop} {s t u : σ} (h : Leads T φ s t) (h' : Leads T φ t u) :
    Leads T φ s u := by
  obtain ⟨tr, hr, hm⟩ := h
  obtain ⟨tr', hr', hm'⟩ := h'
  exact ⟨tr ++ tr', hr.append hr', meets_append.mpr ⟨hm, hm'⟩⟩

theorem Leads.mono {T : System σ α} {φ ψ : σ → α → Prop} {s t : σ} (hφ : ∀ s a, φ s a → ψ s a) (h : Leads T φ s t) :
    Leads T ψ s t := by
  obtain ⟨tr, hr, hm⟩ := h
  exact ⟨tr, hr, hm.mono hφ⟩

/-- A property that every step meeting `φ` keeps is kept by every run whose steps meet `φ`. -/
theorem Run.invariantUnder {T : System σ α} {φ : σ → α → Prop} {I : σ → Prop}
    (hs : ∀ s a t, I s → φ s a → T.step s a t → I t) {s t : σ} {tr : List (σ × α)} (h : Run T s tr t) (h0 : I s)
    (hm : Meets φ tr) : I t := by
  induction h with
  | nil => exact h0
  | snoc a _ hst ih =>
    obtain ⟨hm, ha⟩ := meets_snoc.mp hm
    exact hs _ a _ (ih hm) ha hst

/-- The rule of invariants for a property of the run and the state behind it. -/
theorem Run.invariantAfter {T : System σ α} {φ : List (σ × α) → σ → α → Prop} {I : List (σ × α) → σ → Prop}
    (hs : ∀ tr s a t, I tr s → φ tr s a → T.step s a t → I (tr ++ [(s, a)]) t) {s t : σ} {tr : List (σ × α)} (h0 : I [] s)
    (h : Run T s tr t) (hm : MeetsAfter φ tr) : I tr t := by
  induction h with
  | nil => exact h0
  | snoc a _ hst ih =>
    obtain ⟨hm, ha⟩ := meetsAfter_snoc.mp hm
    exact hs _ _ _ _ (ih hm) ha hst

/-- A property that every step keeps is kept by every run. -/
theorem Run.invariant {T : System σ α} {I : σ → Prop} (hs : ∀ s a t, I s → T.step s a t → I t) {s t : σ}
    {tr : List (σ × α)} (h : Run T s tr t) (h0 : I s) : I t := by
  induction h with
  | nil => exact h0
  | snoc a _ hst ih => exact hs _ a _ ih hst

/-- A run is a run up to any of its steps, that step, and a run after it. -/
theorem Run.split {T : System σ α} {s t : σ} {tr : List (σ × α)} (h : Run T s tr t) :
    ∀ x ∈ tr, ∃ pre post v, tr = pre ++ x :: post ∧ Run T s pre x.1 ∧ T.step x.1 x.2 v ∧ Run T v post t := by
  induction h with
  | nil => intro x hx; cases hx
  | @snoc t u tr a hr hst ih =>
    intro x hx
    rcases List.mem_append.mp hx with hx | hx
    · obtain ⟨pre, post, v, rfl, hp, hv, hq⟩ := ih x hx
      exact ⟨pre, post ++ [(t, a)], v, by simp, hp, hv, Run.snoc a hq hst⟩
    · rw [List.mem_singleton] at hx
      subst hx
      exact ⟨tr, [], u, rfl, hr, hst, Run.nil u⟩

/-- Every state of a run in which a step was taken ends a shorter run, whose steps are steps of the whole. -/
theorem Run.before {T : System σ α} {s t : σ} {tr : List (σ × α)} (h : Run T s tr t) :
    ∀ x ∈ tr, ∃ pre post, tr = pre ++ x :: post ∧ Run T s pre x.1 := by
  intro x hx
  obtain ⟨pre, post, _, htr, hp, _⟩ := h.split x hx
  exact ⟨pre, post, htr, hp⟩

/-- The states a run goes through: those its steps were taken in, and the last one. -/
def visited (tr : List (σ × α)) (t : σ) : List σ := tr.map (·.1) ++ [t]

/-- Either no state of a run has a property, or there is a first step that brings it about. -/
theorem Run.none_or_first {T : System σ α} {P : σ → Prop} {s t : σ} {tr : List (σ × α)} (h : Run T s tr t) (hs : ¬P s) :
    (∀ y ∈ visited tr t, ¬P y) ∨ ∃ pre u a v post, tr = pre ++ (u, a) :: post ∧ Run T s pre u ∧ T.step u a v ∧
      (∀ y ∈ visited pre u, ¬P y) ∧ P v := by
  induction h with
  | nil =>
    refine Or.inl fun y hy => ?_
    rw [visited, List.map_nil, List.nil_append, List.mem_singleton] at hy
    exact hy ▸ hs
  | @snoc t u tr a hr hst ih =>
    rcases ih with hno | ⟨pre, u', a', v', post, rfl, h1, h2, h3, h4⟩
    · by_cases hp : P u
      · exact Or.inr ⟨tr, t, a, u, [], rfl, hr, hst, hno, hp⟩
      · refine Or.inl fun y hy => ?_
        rw [visited, List.map_append, List.mem_append, List.mem_singleton] at hy
        rcases hy with hy | rfl
        · exact hno y (by simpa [visited] using hy)
        · exact hp
    · exact Or.inr ⟨pre, u', a', v', post ++ [(t, a)], by simp, h1, h2, h3, h4⟩

/-- A run to a state with a property from one without it has a first step that brings the property about. -/
theorem Run.first_step {T : System σ α} {P : σ → Prop} {s t : σ} {tr : List (σ × α)} (h : Run T s tr t) (hs : ¬P s)
    (ht : P t) : ∃ pre u a v post, tr = pre ++ (u, a) :: post ∧ Run T s pre u ∧ T.step u a v ∧
      (∀ y ∈ visited pre u, ¬P y) ∧ P v := by
  rcases h.none_or_first hs with hno | hex
  · exact absurd ht (hno t (by simp [visited]))
  · exact hex

/-- The state after a step of a run is one that the run goes through. -/
theorem Run.after {T : System σ α} {s t : σ} {tr : List (σ × α)} (h : Run T s tr t) :
    ∀ x ∈ tr, ∃ v, T.step x.1 x.2 v ∧ v ∈ visited tr t := by
  induction h with
  | nil => intro x hx; cases hx
  | @snoc t u tr a hr hst ih =>
    intro x hx
    rcases List.mem_append.mp hx with hx | hx
    · obtain ⟨v, hv, hmem⟩ := ih x hx
      refine ⟨v, hv, ?_⟩
      simp only [visited, List.map_append, List.mem_append] at hmem ⊢
      exact Or.inl (by simpa using hmem)
    · rw [List.mem_singleton] at hx
      subst hx
      exact ⟨u, hst, by simp [visited]⟩

/-- An invariant of the runs that meet `φ` holds in every state such a run goes through. -/
theorem Run.visited_invariant {T : System σ α} {φ : σ → α → Prop} {I : σ → Prop}
    (hs : ∀ s a t, I s → φ s a → T.step s a t → I t) {s t : σ} {tr : List (σ × α)} (h : Run T s tr t) (h0 : I s)
    (hm : Meets φ tr) : ∀ x ∈ visited tr t, I x := by
  intro x hx
  rcases List.mem_append.mp hx with hx | hx
  · obtain ⟨y, hy, rfl⟩ := List.mem_map.mp hx
    obtain ⟨pre, post, rfl, hp⟩ := Run.before h y hy
    exact hp.invariantUnder hs h0 (meets_append.mp hm).1
  · rw [List.mem_singleton] at hx
    subst hx
    exact h.invariantUnder hs h0 hm

/-- A property that a step keeps as long as it ends in a state with `Q` is kept by a run through such states. -/
theorem Run.invariantWithin {T : System σ α} {φ : σ → α → Prop} {I Q : σ → Prop}
    (hs : ∀ s a t, I s → φ s a → Q t → T.step s a t → I t) {s t : σ} {tr : List (σ × α)} (h : Run T s tr t) (h0 : I s)
    (hm : Meets φ tr) (hq : ∀ y ∈ visited tr t, Q y) : I t := by
  induction h with
  | nil => exact h0
  | @snoc t u tr a hr hst ih =>
    obtain ⟨hm, ha⟩ := meets_snoc.mp hm
    refine hs _ a _ (ih hm fun y hy => hq y ?_) ha (hq u (by simp [visited])) hst
    simp only [visited, List.map_append, List.mem_append] at hy ⊢
    exact Or.inl (by simpa using hy)

/-! ## Measures -/

/-- When every step with a label of one kind lowers a measure, and no other step raises it, a run has no more steps of this kind
than the measure says. -/
theorem Run.countP_add_le {T : System σ α} {φ : σ → α → Prop} {I : σ → Prop} {μ : σ → Nat} {p : α → Bool}
    (hs : ∀ s a t, I s → φ s a → T.step s a t → I t ∧ (if p a then 1 else 0) + μ t ≤ μ s) {s t : σ} {tr : List (σ × α)}
    (h : Run T s tr t) (h0 : I s) (hm : Meets φ tr) : tr.countP (fun x => p x.2) + μ t ≤ μ s := by
  induction h with
  | nil => simp
  | @snoc t u tr a hr hst ih =>
    obtain ⟨hm, ha⟩ := meets_snoc.mp hm
    have hI : I t := hr.invariantUnder (fun s a t h h' h'' => (hs s a t h h' h'').1) h0 hm
    have h1 := (hs _ a _ hI ha hst).2
    have h2 := ih hm
    simp only [List.countP_append, List.countP_singleton]
    omega

/-- When a step with one label is always possible, and raises a measure, there are runs that raise it by any amount. -/
theorem Run.exists_raising {T : System σ α} {I : σ → Prop} {μ : σ → Nat} {a : α}
    (hs : ∀ s, I s → ∃ t, T.step s a t ∧ I t ∧ μ s < μ t) (n : Nat) {s : σ} (h0 : I s) :
    ∃ tr t, Run T s tr t ∧ I t ∧ μ s + n ≤ μ t := by
  induction n with
  | zero => exact ⟨[], s, Run.nil s, h0, Nat.le_refl _⟩
  | succ n ih =>
    obtain ⟨tr, t, hr, hI, hle⟩ := ih
    obtain ⟨u, hst, hu, hlt⟩ := hs t hI
    exact ⟨tr ++ [(t, a)], u, Run.snoc a hr hst, hu, by omega⟩

/-! ## Reached states -/

/-- A state reached by a run from an initial state all of whose steps meet `φ`. -/
def Reached (T : System σ α) (φ : σ → α → Prop) (t : σ) : Prop :=
  ∃ s tr, T.init s ∧ Run T s tr t ∧ Meets φ tr

/-- A property of the initial states that every step meeting `φ` keeps holds in every state reached under `φ`. -/
theorem Reached.invariant {T : System σ α} {φ : σ → α → Prop} {I : σ → Prop} (h0 : ∀ s, T.init s → I s)
    (hs : ∀ s a t, I s → φ s a → T.step s a t → I t) {t : σ} (h : Reached T φ t) : I t := by
  obtain ⟨s, tr, hi, hr, hm⟩ := h
  exact hr.invariantUnder hs (h0 s hi) hm

theorem Reached.step {T : System σ α} {φ : σ → α → Prop} {t u : σ} {a : α} (h : Reached T φ t) (ha : φ t a)
    (hst : T.step t a u) : Reached T φ u := by
  obtain ⟨s, tr, hi, hr, hm⟩ := h
  exact ⟨s, tr ++ [(t, a)], hi, Run.snoc a hr hst, meets_snoc.mpr ⟨hm, ha⟩⟩

theorem Leads.reached {T : System σ α} {φ : σ → α → Prop} {s t : σ} (h : Leads T φ s t) (hi : T.init s) : Reached T φ t := by
  obtain ⟨tr, hr, hm⟩ := h
  exact ⟨s, tr, hi, hr, hm⟩

theorem Reached.leads {T : System σ α} {φ : σ → α → Prop} {t u : σ} (h : Reached T φ t) (h' : Leads T φ t u) :
    Reached T φ u := by
  obtain ⟨s, tr, hi, hr, hm⟩ := h
  obtain ⟨tr', hr', hm'⟩ := h'
  exact ⟨s, tr ++ tr', hi, hr.append hr', meets_append.mpr ⟨hm, hm'⟩⟩

/-! ## Simulation -/

/-- `R` relates the states of two systems so that every step of the first that meets `φ` is matched by a run of the second. -/
structure Simulates {τ β : Type} (T : System σ α) (φ : σ → α → Prop) (U : System τ β) (R : σ → τ → Prop) : Prop where
  init : ∀ s, T.init s → ∃ u, U.init u ∧ R s u
  step : ∀ s a t u, R s u → φ s a → T.step s a t → ∃ tr v, Run U u tr v ∧ R t v

/-- If every step that meets `φ` is matched by a run of a second system, from related states to related states, then every run of
such steps is. -/
theorem Run.matched {τ β : Type} {T : System σ α} {φ : σ → α → Prop} {U : System τ β} {R : σ → τ → Prop}
    (hstep : ∀ s a t u, R s u → φ s a → T.step s a t → ∃ tr v, Run U u tr v ∧ R t v) {s t : σ} {tr : List (σ × α)} {u : τ}
    (hr : Run T s tr t) (hm : Meets φ tr) (hR : R s u) : ∃ tr' v, Run U u tr' v ∧ R t v := by
  induction hr with
  | nil => exact ⟨[], u, Run.nil u, hR⟩
  | snoc a _ hst ih =>
    obtain ⟨hm, ha⟩ := meets_snoc.mp hm
    obtain ⟨tr', v, hv, hR⟩ := ih hm
    obtain ⟨tr'', w, hw, hR'⟩ := hstep _ _ _ v hR ha hst
    exact ⟨tr' ++ tr'', w, hv.append hw, hR'⟩

/-- A run of the first system whose steps meet `φ` is matched by a run of the second one. -/
theorem Simulates.run {τ β : Type} {T : System σ α} {φ : σ → α → Prop} {U : System τ β} {R : σ → τ → Prop}
    (h : Simulates T φ U R) {s t : σ} {tr : List (σ × α)} (hi : T.init s) (hr : Run T s tr t) (hm : Meets φ tr) :
    ∃ u tr' v, U.init u ∧ Run U u tr' v ∧ R t v := by
  obtain ⟨u, hu, hR⟩ := h.init s hi
  obtain ⟨tr', v, hv, hR'⟩ := hr.matched h.step hm hR
  exact ⟨u, tr', v, hu, hv, hR'⟩

end Runs
