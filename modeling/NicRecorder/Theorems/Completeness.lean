import NicRecorder.Theorems.Boundaries

/-!
# Buckets are published before they are complete

`num_captured` of a bucket is the flag that the programs poll. The refill thread sets it while it arms the last row of the bucket
(line 104), before a single packet of that row can have arrived. So a capture in which every published bucket is complete is one
in which the refill thread publishes none: it is stopped in its first bucket, and the only flag is the one that the recording
thread sets at the end.
-/

namespace NicRecorder

open ByteMem Runs

variable {c : Config}

/-- The recording thread has stored the length of packet `j` of fill `n`. -/
def StoredIn (d : Driver) (n j : Nat) : Prop :=
  (n < d.hist.procFill ∧ d.hist.procStart n + j < d.hist.procStart (n + 1)) ∨ (n = d.hist.procFill ∧ j < d.proc.curPartial)

/-- Fill `n` is the current fill of bucket `b`: the last one that the driver has started. -/
def Config.CurrentFill (c : Config) (d : Driver) (b n : Nat) : Prop :=
  n ≤ d.hist.allocFill ∧ c.bucketOf n = b ∧ ∀ n' ≤ d.hist.allocFill, c.bucketOf n' = b → n' ≤ n

/-- Every published bucket is complete: all lengths below `num_captured` are stored and are those of the packets of the current
fill, and these packets have been received. -/
def Config.PublishedComplete (c : Config) (d : Driver) : Prop :=
  ∀ b n, c.CurrentFill d b n → ∀ j < d.board.captured b,
    StoredIn d n j ∧ d.board.lens b j = lengthOf d.hist.sent (d.hist.procStart n + j) ∧
      d.hist.procStart n + j < d.hist.sent.length

/-- The refill thread does not publish: it has met no slot beyond the limit. -/
def NoPublication (s : Capture) (a : Act) : Prop := a = .alloc → s.drv.alloc.pc ≠ .setCaptured

/-! ## Every store of the refill thread comes too early -/

/-- The bucket of the refill thread holds its current fill. -/
theorem Config.Inv.currentFill {d : Driver} (h : c.Inv d) : c.CurrentFill d d.alloc.cur d.hist.allocFill :=
  ⟨Nat.le_refl _, h.wrapped.alloc_cur.symm, fun _ hn _ => hn⟩

/-- After its store the last row has not been recorded. -/
theorem Config.Inv.early {d d' : Driver} (h : c.Inv d) (hpc : d.alloc.pc = .setCaptured) (hs : c.allocStep d = some d') :
    ¬c.PublishedComplete d' := by
  have hrow := h.agreed.rowPc (Or.inr (Or.inl hpc))
  obtain ⟨hfill, -⟩ := h.sameFill hrow
  have hlt := h.accepted_lt
  have hacc := h.window.accepted_eq
  rw [h.procBase_eq hfill] at hacc
  simp only [Config.allocStep, hpc, Option.some.injEq] at hs
  subst hs
  intro hcomp
  have hcap : d.proc.curPartial < Function.update d.board.captured d.alloc.cur (c.rowEnd d.alloc.supRow) d.alloc.cur := by
    rw [Function.update_self, h.rowEnd_eq]
    omega
  rcases (hcomp d.alloc.cur d.hist.allocFill h.currentFill d.proc.curPartial hcap).1 with ⟨h1, -⟩ | ⟨-, h1⟩
  · have h2 : d.hist.allocFill < d.hist.procFill := h1
    omega
  · exact Nat.lt_irrefl _ h1

/-! ## Without a store of the refill thread -/

/-- What holds as long as the refill thread has not published: it is in its first fill, and the only flag is the one that the
recording thread has set at its end. -/
structure Config.FirstFill (c : Config) (d : Driver) : Prop where
  fill : d.hist.allocFill = 0
  unset : d.maxRow = 0 ∧ d.alloc.pc ≠ .setMaxRow
  flag : ∀ b, d.board.captured b ≠ 0 → b = d.proc.cur ∧ d.board.captured b ≤ d.proc.curPartial ∧
    (d.proc.pc = .setLast ∨ d.proc.pc = .exited)

/-- A flag that is set while the recording thread moves on. -/
theorem Config.FirstFill.unflagged {d : Driver} (h : c.FirstFill d) (hpc : d.proc.pc ≠ .setLast ∧ d.proc.pc ≠ .exited) (b : Nat) :
    d.board.captured b = 0 := by
  by_contra hne
  rcases (h.flag b hne).2.2 with h' | h'
  · exact hpc.1 h'
  · exact hpc.2 h'

theorem Config.FirstFill.allocStep {d d' : Driver} (h : c.FirstFill d) (hpub : d.alloc.pc ≠ .setCaptured)
    (hs : c.allocStep d = some d') : c.FirstFill d' := by
  obtain ⟨hboard, -, hpc⟩ := Config.allocStep_board hs hpub
  have hmax := Config.allocStep_maxRow hs h.unset.2
  have hproc := (Config.allocStep_frame hs).1
  have hfill : d'.hist.allocFill = d.hist.allocFill := by
    rcases Config.allocStep_fill hs with h1 | ⟨-, h1, -⟩
    · exact h1.1
    · exact absurd h.unset.1 h1
  refine ⟨by rw [hfill, h.fill], ⟨by rw [hmax, h.unset.1], hpc⟩, ?_⟩
  rw [hboard, hproc]
  exact h.flag

theorem Config.FirstFill.procStep {d d' : Driver} (h : c.FirstFill d) (hinv : c.Inv d) (hs : c.procStep d = some d') :
    c.FirstFill d' := by
  obtain ⟨halloc, -, -, -, hfill⟩ := Config.procStep_frame hs
  have hreset : d.proc.pc ≠ .resetRow := fun hr => (hinv.agreed.resetting hr).1.set h.unset.1
  obtain ⟨-, -, hmax⟩ | ⟨hr, -⟩ := Config.procStep_fill hs
  · refine ⟨by rw [hfill, h.fill], by rw [hmax, halloc]; exact h.unset, fun b hb => ?_⟩
    by_cases hpc : d.proc.pc = .setCaptured
    · have h0 := h.unflagged (by rw [hpc]; decide)
      simp only [Config.procStep, hpc, Option.some.injEq] at hs
      subst hs
      by_cases he : b = d.proc.cur
      · subst he
        exact ⟨rfl, by simp, Or.inl rfl⟩
      · exact absurd ((Function.update_of_ne he ..).trans (h0 b)) hb
    · by_cases hend : d.proc.pc = .setLast ∨ d.proc.pc = .exited
      · obtain ⟨hproc, hcap⟩ := Config.procStep_ended hs hend
        rw [hcap] at hb ⊢
        rw [hproc]
        exact ⟨(h.flag b hb).1, (h.flag b hb).2.1, Or.inr rfl⟩
      · rw [(Config.procStep_captured hs hpc).1] at hb
        exact absurd (h.unflagged (not_or.mp hend) b) hb
  · exact absurd hr hreset

/-- Every step but a store of the refill thread keeps it. -/
theorem Config.FirstFill.step {writers : Nat} {s t : Capture} {a : Act} (h : c.FirstFill s.drv) (hinv : c.Inv s.drv)
    (hpub : NoPublication s a) (hst : c.Step writers s a t) : c.FirstFill t.drv := by
  cases hst with
  | alloc hs => exact h.allocStep (hpub rfl) hs
  | proc hs => exact h.procStep hinv hs
  | nic p hp hs =>
    unfold Config.nicStep at hs
    split at hs <;> cases hs
    exact ⟨h.fill, h.unset, h.flag⟩
  | userStart => exact ⟨h.fill, h.unset, h.flag⟩
  | userStop => exact ⟨h.fill, h.unset, h.flag⟩
  | visit k hk =>
    obtain ⟨captured, he, hcap⟩ := c.visitStep_drv k s
    rw [he]
    refine ⟨h.fill, h.unset, fun b hb => ?_⟩
    rcases hcap b with hc | hc
    · have := h.flag b (hc ▸ hb)
      rw [← hc] at this
      exact this
    · exact absurd hc hb

/-- As long as the refill thread has not published, every flag is the one of a complete bucket. -/
theorem Config.FirstFill.complete {d : Driver} (h : c.FirstFill d) (hinv : c.Inv d) : c.PublishedComplete d := by
  intro b n hcur j hj
  have hpf : d.hist.procFill = 0 := by
    have := hinv.procFill_le
    rw [h.fill] at this
    omega
  have hn : n = 0 := by
    have := hcur.1
    rw [h.fill] at this
    omega
  obtain ⟨hb, hle, -⟩ := h.flag b (by omega)
  have hj' : j < d.proc.curPartial := by omega
  have hbase : d.hist.procStart n = d.procBase := by rw [hn, Driver.procBase, hpf]
  have hacc := hinv.window.accepted_eq
  have ho := hinv.order
  refine ⟨Or.inr ⟨by omega, hj'⟩, ?_, by omega⟩
  rw [hb, hbase]
  exact hinv.recorded.cells j hj'

/-! ## The result -/

/-- In a capture without phantom packets every published bucket is complete, in every state, if and only if the refill thread
never gets to the store of line 104. -/
theorem published_complete_iff (c : Config) (writers : Nat) {s t : Capture} {tr : List (Capture × Act)}
    (hi : (c.capture writers).init s) (hr : Run (c.capture writers) s tr t) (hm : Meets c.NotDry tr) :
    (∀ u ∈ visited tr t, c.PublishedComplete u.drv) ↔ Meets NoPublication tr := by
  have hw := (Config.meets_acceptsWritten_iff hi hr).mpr hm
  constructor
  · rintro hcomp ⟨u, a⟩ hx ha hpc
    obtain ⟨pre, post, rfl, hpre⟩ := hr.before (u, a) hx
    have hinv : c.Inv u.drv := Config.inv_of_run hi hpre (meets_append.mp hw).1
    obtain ⟨v, hst, hv⟩ := hr.after (u, a) hx
    have hst' : c.Step writers u a v := hst
    have ha' : a = .alloc := ha
    subst ha'
    cases hst' with
    | alloc hs => exact hinv.early hpc hs (hcomp _ hv)
  · intro hpub u hu
    have hboth : Meets (fun s a => AcceptsWritten s a ∧ NoPublication s a) tr := fun x hx => ⟨hw x hx, hpub x hx⟩
    have h0 : c.Inv s.drv ∧ c.FirstFill s.drv := by
      refine ⟨Config.inv_init hi, ?_⟩
      obtain ⟨lens, ram, rfl⟩ := hi
      exact ⟨rfl, ⟨rfl, nofun⟩, fun b hb => absurd rfl hb⟩
    obtain ⟨hinv, hff⟩ := hr.visited_invariant (I := fun u => c.Inv u.drv ∧ c.FirstFill u.drv)
      (fun _ _ _ h hφ hst => ⟨h.1.step hφ.1 hst, h.2.step h.1 hφ.2 hst⟩) h0 hboth u hu
    exact hff.complete hinv

/-! ## The first slot beyond the limit -/

theorem slotBytes_const (slots k : Nat) (lens : Nat → Nat) (slot : Nat) :
    ∀ row, (∀ r < row, lens (r * slots + slot) = k) → slotBytes slots lens slot row = k * row
  | 0, _ => rfl
  | row + 1, h => by
    have ih := slotBytes_const slots k lens slot row fun r hr => h r (by omega)
    simp only [slotBytes, ih, h row (by omega), Nat.mul_succ]

/-- With packets of one length all slots of a row hold the same. -/
theorem Config.Inv.held_const {d : Driver} (h : c.Inv d) {p : List UInt8} (hall : ∀ q ∈ d.hist.sent, q = p) {x : Nat}
    (hx : x < c.numRxSlots) (hxa : x ≤ d.alloc.rowArmed) : c.held d x d.alloc.supRow = p.length * d.alloc.supRow := by
  refine slotBytes_const _ _ _ _ _ fun r hr => ?_
  have hlt := h.held_lt (Nat.le_refl _) hx (fun _ => hxa) r hr
  rw [lengthOf_eq _ _ hlt, hall _ (List.getElem_mem hlt)]

/-- The slowest schedule sends one packet over and over. -/
theorem Config.Goes.sent {writers : Nat} {p : List UInt8} {s t : Capture} (h : c.Goes writers p s t)
    (h0 : ∀ q ∈ s.drv.hist.sent, q = p) : ∀ q ∈ t.drv.hist.sent, q = p := by
  obtain ⟨tr, hr, hm⟩ := h
  refine hr.invariantUnder (I := fun t => ∀ q ∈ t.drv.hist.sent, q = p) ?_ h0 hm
  intro u a v hu ha hst
  cases hst with
  | alloc hs => rw [(Config.allocStep_frame hs).2.1]; exact hu
  | proc hs => rw [(Config.procStep_frame hs).2.1]; exact hu
  | nic q hq hs =>
    unfold Config.nicStep at hs
    split at hs <;> cases hs
    intro q' hq'
    rcases List.mem_append.mp hq' with h' | h'
    · exact hu q' h'
    · rw [List.mem_singleton] at h'
      exact h'.trans ha
  | userStart | userStop | visit _ _ => exact ha.elim

/-- The refill thread has met a slot beyond the limit. -/
def MetLimit (d : Driver) : Prop :=
  d.alloc.pc = .setCaptured ∨ d.alloc.pc = .setMaxRow ∨ d.maxRow ≠ 0 ∨ d.hist.allocFill ≠ 0

/-- The step by which it meets the first one. -/
theorem Config.Lazily.meets {writers : Nat} {p : List UInt8} {u v : Capture} {a : Act} (ha : c.Lazily p u a)
    (hst : c.Step writers u a v) (hu : ¬MetLimit u.drv) (hv : MetLimit v.drv) :
    c.Lazy u.drv ∧ c.Lazy v.drv ∧ u.drv.alloc.pc = .accumulate ∧ c.byteLimit < c.grown u.drv ∧ a = .alloc ∧
      c.allocStep u.drv = some v.drv := by
  simp only [MetLimit, not_or, not_not] at hu
  obtain ⟨hsc, hsm, hmax, hfill⟩ := hu
  cases hst with
  | alloc hs =>
    obtain ⟨d', hs', hl⟩ := Config.Lazy.allocStep (c := c) ha
    rw [hs, Option.some.injEq] at hs'
    subst hs'
    have h1 := (Config.allocStep_board hs hsc).2.2
    have h2 := Config.allocStep_maxRow hs hsm
    rcases hv with hv | hv | hv | hv
    · obtain ⟨hacc, hover⟩ := Config.allocStep_over hs hv
      exact ⟨ha, hl, hacc, hover, rfl, hs⟩
    · exact absurd hv h1
    · exact absurd (h2.trans hmax) hv
    · rcases Config.allocStep_fill hs with h3 | ⟨-, h3, -⟩
      · exact absurd (h3.1.trans hfill) hv
      · exact absurd hmax h3
  | proc hs =>
    obtain ⟨halloc, -, -, -, hf⟩ := Config.procStep_frame hs
    simp only [MetLimit, halloc, hf] at hv
    rcases hv with hv | hv | hv | hv
    · exact absurd hv hsc
    · exact absurd hv hsm
    · rcases Config.procStep_fill hs with ⟨-, -, h2⟩ | ⟨-, -, -, h2⟩
      · exact absurd (h2.trans hmax) hv
      · exact absurd h2 hv
    · exact absurd hfill hv
  | nic q hq hs =>
    unfold Config.nicStep at hs
    split at hs <;> cases hs
    rcases hv with hv | hv | hv | hv
    · exact absurd hv hsc
    · exact absurd hv hsm
    · exact absurd hmax hv
    · exact absurd hfill hv
  | userStart | userStop | visit _ _ => exact ha.elim

/-- The slowest schedule comes to a state in which the refill thread is about to publish the first bucket, at the first slot of
a row. -/
theorem Config.exists_first_over (c : Config) (writers : Nat) {p : List UInt8} (hp : Deliverable p) (lens : Nat → Nat → Nat)
    (ram : Mem) :
    ∃ tr d, Run (c.capture writers) ⟨c.startDriver lens ram, c.startVisitor writers, []⟩ tr ⟨d, c.startVisitor writers, []⟩ ∧
      Meets c.Undisturbed tr ∧ c.Lazy d ∧ d.alloc.pc = .setCaptured ∧ d.hist.allocFill = 0 ∧
      d.alloc.supPartial = 0 ∧ (∀ q ∈ d.hist.sent, q = p) ∧ c.byteLimit < p.length * d.alloc.supRow := by
  obtain ⟨d, ⟨tr, hr, hm⟩, hd, hfill⟩ := c.exists_closed writers hp lens ram
  have hstart : ¬MetLimit (c.startedDriver lens ram) := by
    rintro (h | h | h | h)
    · cases h
    · cases h
    · exact h rfl
    · exact h rfl
  have hend : MetLimit d := by
    have := hd.inv.procFill_le
    exact Or.inr (Or.inr (Or.inr (by omega)))
  obtain ⟨pre, u, a, v, post, rfl, hpre, hst, hno, hv⟩ := hr.first_step (P := fun t => MetLimit t.drv) hstart hend
  have hu : ¬MetLimit u.drv := hno u (by simp [visited])
  obtain ⟨hmpre, hmpost⟩ := meets_append.mp hm
  have hua : c.Lazily p u a := hmpost (u, a) (by simp)
  obtain ⟨hlu, hlv, hacc, hover, ha, hs⟩ := hua.meets hst hu hv
  have hgou : c.Goes writers p ⟨c.startedDriver lens ram, c.startVisitor writers, []⟩ u := ⟨pre, hpre, hmpre⟩
  have hprog := (hgou.trans (Config.Goes.single hst hua)).programs
  have hall := hgou.sent (fun q hq => by cases hq)
  have hb := hlu.inv.window.batch (by rw [hacc]; rfl)
  have harm : u.drv.alloc.rowArmed = u.drv.alloc.supPartial := AllocThread.rowArmed_of_ne (by rw [hacc]; decide)
  have hheld : ∀ x ≤ u.drv.alloc.supPartial, c.held u.drv x u.drv.alloc.supRow = p.length * u.drv.alloc.supRow :=
    fun x hx => hlu.inv.held_const hall (by omega) (by omega)
  have hlim := hover
  rw [hlu.inv.grown_eq hacc, hheld _ (Nat.le_refl _)] at hlim
  simp only [MetLimit, not_or, not_not] at hu
  obtain ⟨-, -, hmax, hfu⟩ := hu
  -- all slots of the row are beyond the limit, so the first one was met first
  have hsp : u.drv.alloc.supPartial = 0 := by
    by_contra hne
    have hle := hlu.inv.grown.notOver hmax (by rw [hacc]; decide) (by rw [hacc]; decide) 0
      (by simp only [AllocThread.rowGrown, hacc]; omega) c.slots_pos
    rw [hheld 0 (Nat.zero_le _)] at hle
    omega
  obtain ⟨tr0, hr0, hm0⟩ := c.exists_started writers lens ram
  have hrun : Run (c.capture writers) _ (tr0 ++ (pre ++ [(u, a)])) v := hr0.append (Run.snoc a hpre hst)
  have hquiet : Meets c.Undisturbed (tr0 ++ (pre ++ [(u, a)])) := by
    rw [meets_append, meets_snoc]
    refine ⟨hm0, fun x hx => ⟨(hmpre x hx).notDry, fun _ hpc => ?_, (hmpre x hx).no_visit⟩,
      hua.notDry, fun _ hpc => ?_, hua.no_visit⟩
    · exact hno x.1 (List.mem_append_left _ (List.mem_map_of_mem hx)) (Or.inl hpc)
    · rw [hacc] at hpc
      cases hpc
  rw [hprog] at hrun
  refine ⟨_, v.drv, hrun, hquiet, hlv, ?_, ?_, ?_, ?_, ?_⟩ <;>
    simp only [Config.allocStep, hacc, Option.some.injEq] at hs <;> rw [← hs]
  · exact if_pos hover
  · exact hfu
  · exact hsp
  · exact hall
  · exact hlim

/-- A capture of the shipped configuration with frames of 60 bytes that arrive one at a time: the first bucket is published when
its last row is empty. -/
theorem published_complete_false :
    ∃ t, Reached (Config.shipped.capture 1) Config.shipped.NotDry t ∧ ¬Config.shipped.PublishedComplete t.drv := by
  obtain ⟨tr, d, hr, hm, hd, hpc, -⟩ := Config.shipped.exists_first_over 1 shortPacket_deliverable (fun _ _ => 0) fun _ => 0
  obtain ⟨d', hs, -⟩ := hd.allocStep
  have hreach : Reached (Config.shipped.capture 1) Config.shipped.NotDry _ := ⟨_, tr, ⟨_, _, rfl⟩, hr, hm.mono fun _ _ h => h.1⟩
  exact ⟨_, hreach.step (a := .alloc) nofun (Config.Step.alloc hs), hd.inv.early hpc hs⟩

/-- The same capture up to the publication, and with it: the first run meets the condition, the second one does not. -/
theorem published_complete_iff_first :
    ∃ s tr t u, (Config.shipped.capture 1).init s ∧ Run (Config.shipped.capture 1) s (tr ++ [(t, .alloc)]) u ∧
      (∀ v ∈ visited tr t, Config.shipped.PublishedComplete v.drv) ∧
      ¬∀ v ∈ visited (tr ++ [(t, .alloc)]) u, Config.shipped.PublishedComplete v.drv := by
  obtain ⟨tr, d, hr, hquiet, hd, hpc, -⟩ := Config.shipped.exists_first_over 1 shortPacket_deliverable (fun _ _ => 0) fun _ => 0
  have hi : (Config.shipped.capture 1).init ⟨Config.shipped.startDriver (fun _ _ => 0) fun _ => 0, _, _⟩ := ⟨_, _, rfl⟩
  obtain ⟨d', hs, -⟩ := hd.allocStep
  have hm : Meets Config.shipped.NotDry tr := hquiet.mono fun _ _ h => h.1
  have hpub : Meets NoPublication tr := hquiet.mono fun _ _ h => h.2.1
  have hr' := Run.snoc Act.alloc hr (Config.Step.alloc hs)
  have hm' : Meets Config.shipped.NotDry (tr ++ [(⟨d, Config.shipped.startVisitor 1, []⟩, Act.alloc)]) :=
    meets_snoc.mpr ⟨hm, nofun⟩
  refine ⟨_, tr, _, _, hi, hr', (published_complete_iff Config.shipped 1 hi hr hm).mpr hpub, fun hall => ?_⟩
  exact (meets_snoc.mp ((published_complete_iff Config.shipped 1 hi hr' hm').mp hall)).2 rfl hpc

end NicRecorder
