import NicRecorder.Lemmas.Handover
import NicRecorder.Lemmas.CaptureRuns
import NicRecorder.Lemmas.Moves

/-!
# The two levels of the driver

`Sound` is what holds in every state of the recorder, and `Sim` relates its states to those of a recording. An access of a thread
is one step of the driver of the recording (a length is stored, a bucket is published, a thread goes to the next bucket or ends)
or none; a packet is one step for each piece it lies in; a writer makes the same step at both levels.
-/

namespace NicRecorder

open Runs

variable {S : Setup} {G : Pieces S} {m n : Recorder} {r t : RecState} {d : Driver} {k : Nat}

/-! ## What holds in the recorder -/

/-- The pieces of a packet that has been delivered and not yet recorded are those of its fill. -/
def Tagged (G : Pieces S) (m : Recorder) : Prop :=
  ∀ i, m.drv.hist.accepted ≤ i → i < m.drv.hist.sent.length →
    ∀ x ∈ G.ofData (m.drv.hist.addrs.getD i 0 % 2 ^ 30) (lengthOf m.drv.hist.sent i),
      m.cell (S.config.bucketOf (m.drv.fillAt i)) x = some (m.drv.fillAt i)

/-- The invariant of the recorder. -/
structure Sound (G : Pieces S) (m : Recorder) : Prop where
  inv : S.config.Inv m.drv
  addressed : S.config.Addressed m.drv
  closing : m.drv.Closing
  tagged : Tagged G m

theorem sound_start (G : Pieces S) (lens : Nat → Nat → Nat) (ram : ByteMem.Mem) : Sound G (S.startRecorder lens ram) :=
  ⟨S.config.inv_start lens ram, S.config.addressed_start lens ram, S.config.closing_start lens ram,
    fun _ _ h => absurd h (Nat.not_lt_zero _)⟩

theorem tagAll_of_ne {cell : Nat → Nat → Option Nat} {b n : Nat} {xs : List Nat} {a x : Nat} (h : a = b → x ∉ xs) :
    tagAll cell b n xs a x = cell a x := by
  unfold tagAll
  by_cases ha : a = b
  · subst ha
    simp [h rfl]
  · simp [ha]

theorem tagAll_of_mem {cell : Nat → Nat → Option Nat} {b n : Nat} {xs : List Nat} {x : Nat} (h : x ∈ xs) :
    tagAll cell b n xs b x = some n := by
  simp [tagAll, h]

/-- The two fills that the threads may be in have different buckets. -/
theorem Config.Inv.fillAt_inj (hi : S.config.Inv d) {i j : Nat}
    (h : S.config.bucketOf (d.fillAt i) = S.config.bucketOf (d.fillAt j)) : d.fillAt i = d.fillAt j := by
  have hw := S.writers_le
  have hpos := S.writers_pos
  have hle := hi.procFill_le
  have hlag := hi.allocFill_le
  have hat : ∀ i, d.fillAt i = d.hist.allocFill ∨ d.fillAt i = d.hist.procFill := by
    intro i
    unfold Driver.fillAt
    split
    · exact Or.inl rfl
    · exact Or.inr rfl
  have h1 := hat i
  have h2 := hat j
  rcases Nat.lt_trichotomy (d.fillAt i) (d.fillAt j) with hlt | he | hlt
  · have := Config.bucketOf_gap h hlt
    omega
  · exact he
  · have := Config.bucketOf_gap h.symm hlt
    omega

/-- A packet that is stored is of the recording thread's fill. -/
theorem Config.Inv.fillAt_store {c : Config} (hi : c.Inv d) (hpc : d.proc.pc = .store) :
    d.fillAt d.hist.accepted = d.hist.procFill := by
  rcases hi.agreed.fills with hs | hn
  · exact hs.fillAt _
  · refine Driver.fillAt_of_lt (Nat.lt_of_le_of_ne hn.behind fun he => ?_)
    have := hn.closing he
    simp [hpc] at this

/-- A packet that is stored has been delivered. -/
theorem Config.Inv.sent_store {c : Config} (hi : c.Inv d) (hpc : d.proc.pc = .store) :
    d.hist.accepted < d.hist.sent.length := by
  have h := hi.window.taken_le
  simp only [Driver.taken, hpc, or_true, if_true] at h
  omega

theorem Tagged.allocStep (h : Tagged G m) (hi : S.config.Inv m.drv) (hs : S.config.allocStep m.drv = some d) :
    Tagged G { m with drv := d } := by
  obtain ⟨_, hsent, hacc, _, _⟩ := Config.allocStep_frame hs
  obtain ⟨_, _, haddr, _⟩ := Config.allocStep_rest hs
  have ho := hi.order
  intro i h1 h2
  dsimp only at h1 h2 ⊢
  rw [hacc] at h1
  rw [hsent] at h2
  rw [haddr, hsent, hi.fillAt_allocStep hs (by omega)]
  exact h i h1 h2

/-- The piece of a length is no piece of the data. -/
theorem Tagged.store (h : Tagged G m) {i : Nat} (h1 : m.drv.hist.accepted ≤ i) (h2 : i < m.drv.hist.sent.length) (j : Nat) :
    ∀ x ∈ G.ofData (m.drv.hist.addrs.getD i 0 % 2 ^ 30) (lengthOf m.drv.hist.sent i),
      tagAll m.cell m.drv.proc.cur m.drv.hist.procFill [G.ofLen j] (S.config.bucketOf (m.drv.fillAt i)) x =
        some (m.drv.fillAt i) := by
  intro x hx
  rw [tagAll_of_ne fun _ hmem => ?_]
  · exact h i h1 h2 x hx
  · have hlt := G.ofLen_lt j
    have hge := (G.ofData_mem _ _ x hx).1
    rw [List.mem_singleton] at hmem
    omega

theorem Tagged.procStep (h : Tagged G m) (hi : S.config.Inv m.drv) (hs : S.config.procStep m.drv = some d) :
    Tagged G { m with
      drv := d
      cell := if m.drv.proc.pc = .store
        then tagAll m.cell m.drv.proc.cur m.drv.hist.procFill [G.ofLen m.drv.proc.curPartial] else m.cell } := by
  obtain ⟨_, hsent, _, _, _⟩ := Config.procStep_frame hs
  obtain ⟨haddr, hacc⟩ := Config.procStep_rest hs
  intro i h1 h2
  dsimp only at h1 h2 ⊢
  rw [hsent] at h2
  have h1 : m.drv.hist.accepted ≤ i := hacc.trans h1
  rw [haddr, hsent, hi.fillAt_procStep hs h1]
  split
  · exact h.store h1 h2 _
  · exact h i h1 h2

/-- A packet marks the pieces it lies in, and no piece of the other fill. -/
theorem Tagged.nicStep (h : Tagged G m) (hi : S.config.Inv m.drv) (ha : S.config.Addressed m.drv) {p : List UInt8}
    (hs : S.config.nicStep p m.drv = some d) :
    Tagged G { m with
      drv := d
      cell := tagAll m.cell ((m.drv.ring m.drv.nicHead).pktAddr / 2 ^ 30) (m.drv.fillAt m.drv.hist.sent.length)
        (G.ofData ((m.drv.ring m.drv.nicHead).pktAddr % 2 ^ 30) p.length) } := by
  obtain ⟨hne, ring, nicHead, ram, slot, rfl⟩ := Config.nicStep_frame hs
  have hhead := ha.head hi hne
  intro i h1 h2 x hx
  have h1 : m.drv.hist.accepted ≤ i := h1
  have h2 : i < (m.drv.hist.sent ++ [p]).length := h2
  have hx : x ∈ G.ofData ((m.drv.hist.addrs ++ [(m.drv.ring m.drv.nicHead).pktAddr]).getD i 0 % 2 ^ 30)
    (lengthOf (m.drv.hist.sent ++ [p]) i) := hx
  show tagAll m.cell _ _ _ (S.config.bucketOf (m.drv.fillAt i)) x = some (m.drv.fillAt i)
  rw [List.length_append, List.length_singleton] at h2
  rcases Nat.lt_or_ge i m.drv.hist.sent.length with hlt | hge
  · have haddr : (m.drv.hist.addrs ++ [(m.drv.ring m.drv.nicHead).pktAddr]).getD i 0 = m.drv.hist.addrs.getD i 0 := by
      simp [List.getD, List.getElem?_append_left (ha.addrs.symm ▸ hlt)]
    rw [haddr, lengthOf_append_left _ _ hlt] at hx
    by_cases hin : S.config.bucketOf (m.drv.fillAt i) = (m.drv.ring m.drv.nicHead).pktAddr / 2 ^ 30 ∧
        x ∈ G.ofData ((m.drv.ring m.drv.nicHead).pktAddr % 2 ^ 30) p.length
    · rw [hi.fillAt_inj (hin.1.trans hhead), ← hhead, tagAll_of_mem hin.2]
    · rw [tagAll_of_ne fun hb hmem => hin ⟨hb, hmem⟩]
      exact h i h1 hlt x hx
  · have he : i = m.drv.hist.sent.length := by omega
    subst he
    have haddr : (m.drv.hist.addrs ++ [(m.drv.ring m.drv.nicHead).pktAddr]).getD m.drv.hist.sent.length 0 =
        (m.drv.ring m.drv.nicHead).pktAddr := by
      simp [← ha.addrs]
    have hlen : lengthOf (m.drv.hist.sent ++ [p]) m.drv.hist.sent.length = p.length := by
      simp [lengthOf]
    rw [haddr, hlen] at hx
    rw [← hhead, tagAll_of_mem hx]

/-- The commands and the writers change nothing that the invariant is about. -/
theorem Sound.boardStep (h : Sound G m) (b b' : Bool) (captured stalled : Nat → Nat) (writer : Nat → Writer)
    (file : Nat → Option Image) :
    Sound G ⟨{ m.drv with board := { m.drv.board with
      userStart := b, userStop := b', captured := captured, stalled := stalled } }, m.cell, writer, file⟩ :=
  ⟨h.inv.boardStep b b' captured stalled, ⟨h.addressed.addrs, h.addressed.bucket⟩,
    ⟨h.closing.stopped, h.closing.final, h.closing.unmarked⟩, h.tagged⟩

/-- Every step that does not poll a dry ring keeps the invariant. -/
theorem Sound.step {a : RingAct} (h : Sound G m) (hn : S.RingNotDry m a) (hst : S.RingStep G m a n) : Sound G n := by
  cases hst with
  | alloc hs =>
    exact ⟨h.inv.allocStep hs, h.addressed.allocStep h.inv hs, h.closing.allocStep hs, h.tagged.allocStep h.inv hs⟩
  | proc hs =>
    have hw : AcceptsWritten ⟨m.drv, fun _ => ⟨0, 0, none, []⟩, []⟩ .proc := h.inv.acceptsWritten fun _ => hn rfl
    exact ⟨h.inv.procStep hs (hw rfl), h.addressed.procStep h.inv hs, h.closing.procStep hs, h.tagged.procStep h.inv hs⟩
  | nic p hp hs =>
    exact ⟨h.inv.nicStep hp hs, h.addressed.nicStep hs, h.closing.nicStep hs, h.tagged.nicStep h.inv h.addressed hs⟩
  | userStart => exact h.boardStep true m.drv.board.userStop m.drv.board.captured m.drv.board.stalled m.writer m.file
  | userStop => exact h.boardStep m.drv.board.userStart true m.drv.board.captured m.drv.board.stalled m.writer m.file
  | @writer t k hk hs =>
    exact h.boardStep m.drv.board.userStart t.mem.userStop t.mem.captured t.mem.stalled t.writer t.file

/-! ## The simulation -/

/-- The states of the two levels that belong together: they share the memory, the writers and the files, the driver of the one is
what the threads of the other come to, and the number published for the fill of the recording thread is `max_row`. -/
structure Sim (G : Pieces S) (m : Recorder) (r : RecState) : Prop where
  mem : r.mem = m.mem
  drv : r.drv = m.drv.filler
  writer : r.writer = m.writer
  file : r.file = m.file
  pubFill : r.ledger.pubFill = m.drv.hist.pubFill
  sized : m.drv.endingOf = .recording → m.drv.maxRow ≠ 0 → r.ledger.size m.drv.hist.procFill = m.drv.maxRow
  sizing : m.drv.alloc.pc = .setMaxRow → r.ledger.size m.drv.hist.allocFill = S.config.rowEnd m.drv.alloc.supRow

/-- An access that the writers do not see, and that changes nothing of what the threads come to. -/
theorem Sim.quiet (h : Sim G m r) (cell : Nat → Nat → Option Nat) (hc : cell = m.cell)
    (hb : d.board.userStop = m.drv.board.userStop ∧ d.board.captured = m.drv.board.captured ∧
      d.board.last = m.drv.board.last ∧ d.board.stalled = m.drv.board.stalled)
    (hf : d.filler = m.drv.filler) (hp : d.hist.pubFill = m.drv.hist.pubFill)
    (hs : d.maxRow = m.drv.maxRow ∨ r.ledger.size d.hist.procFill = d.maxRow)
    (hz : d.alloc.pc = .setMaxRow → m.drv.alloc.pc = .setMaxRow ∧ d.alloc.supRow = m.drv.alloc.supRow) :
    Sim G { m with drv := d, cell := cell } r where
  mem := by
    rw [h.mem]
    unfold Recorder.mem
    rw [hc, hb.1, hb.2.1, hb.2.2.1, hb.2.2.2]
  drv := h.drv.trans hf.symm
  writer := h.writer
  file := h.file
  pubFill := h.pubFill.trans hp.symm
  sized := by
    intro he hne
    rcases hs with hs | hs
    · have hpf : d.hist.procFill = m.drv.hist.procFill := congrArg Filler.procFill hf
      dsimp only
      rw [hpf, hs]
      exact h.sized ((congrArg Filler.ending hf).symm.trans he) (hs ▸ hne)
    · exact hs
  sizing := by
    intro hpc
    obtain ⟨hpc', hrow⟩ := hz hpc
    have haf : d.hist.allocFill = m.drv.hist.allocFill := congrArg Filler.allocFill hf
    dsimp only
    rw [haf, hrow]
    exact h.sizing hpc'

theorem Driver.endingOf_recording (h : d.proc.pc ≠ .setLast) (h' : d.proc.pc = .exited → d.board.last d.proc.cur = 0) :
    d.endingOf = .recording := by
  unfold Driver.endingOf
  split
  · next hpc => exact absurd hpc h
  · next hpc => rw [if_pos (h' hpc)]
  · rfl

/-- The condition says nothing of what the adapter writes. -/
def AllowsDma (φ : RecState → RecAct → Prop) : Prop := ∀ s ahead x, φ s (.drv (.dma ahead x))

/-- The recording makes the given steps. They meet a condition on the way if they do at the start. -/
def Setup.Makes (S : Setup) (r : RecState) (as : List RecAct) (t : RecState) : Prop :=
  ∃ tr, Run S.system r tr t ∧ tr.map (·.2) = as ∧ ∀ φ, AllowsDma φ → (Meets φ tr ↔ ∀ b ∈ as, φ r b)

theorem makes_nil (r : RecState) : S.Makes r [] r :=
  ⟨[], Run.nil r, rfl, fun φ _ => iff_of_true (meets_nil φ) (List.forall_mem_nil _)⟩

/-- One step of a recording. -/
theorem makes_one {a : RecAct} (h : S.next r a = some t) : S.Makes r [a] t := by
  refine ⟨[(r, a)], Run.single h, rfl, fun φ _ => ?_⟩
  rw [List.forall_mem_singleton]
  exact List.forall_mem_singleton

/-- One step of the driver of a recording. -/
theorem makes_fill {a : FillAct} (h : S.fillStep r a = some t) : S.Makes r [.drv a] t := makes_one h

/-! ## The refill thread -/

/-- In a later row of its bucket the refill thread is one row ahead of what has been recorded. -/
theorem Config.Inv.count_ne_zero {c : Config} (hi : c.Inv d) (hrow : d.alloc.supRow ≠ 0) : d.proc.curPartial ≠ 0 := by
  have hsame := hi.sameFill hrow
  have h1 := hi.window.armed_eq
  have h2 := hi.window.room
  have h3 := hi.window.cleaned_le
  have h4 := hi.window.accepted_eq
  have h5 := hi.procBase_eq hsame.1
  have h6 := Nat.le_mul_of_pos_left c.numRxSlots (Nat.pos_of_ne_zero hrow)
  omega

theorem Config.Inv.rowEnd_ne_zero {c : Config} (hi : c.Inv d) : c.rowEnd d.alloc.supRow ≠ 0 := by
  rw [hi.rowEnd_eq]
  exact Nat.mul_ne_zero (Nat.succ_ne_zero _) (Nat.pos_iff_ne_zero.mp c.slots_pos)

/-- The first of the two stores of line 104 publishes the fill. -/
theorem Sim.setCaptured (h : Sim G m r) (hi : S.config.Inv m.drv) (hpc : m.drv.alloc.pc = .setCaptured)
    (hs : S.config.allocStep m.drv = some d) :
    ∃ t, S.Makes r [.drv (.publish (S.config.rowEnd m.drv.alloc.supRow))] t ∧ Sim G { m with drv := d } t := by
  have hrow := hi.agreed.rowPc (Or.inr (Or.inl hpc))
  have hsame := hi.sameFill hrow
  have hend := hi.rowEnd_eq
  have hstep : S.fillStep r (.publish (S.config.rowEnd m.drv.alloc.supRow)) =
      some { S.setFlag r r.drv.allocFill (S.config.rowEnd m.drv.alloc.supRow) with
        drv := { r.drv with published := true } } := by
    refine if_pos ⟨?_, ?_, ?_, hi.rowEnd_ne_zero⟩ <;> rw [h.drv]
    · simp [Driver.filler, hpc]
    · exact hsame.1
    · exact hi.count_ne_zero hrow
  have hmakes := makes_fill hstep
  simp only [Config.allocStep, hpc, Option.some.injEq] at hs
  subst hs
  have hall : r.drv.allocFill = m.drv.hist.allocFill := by
    rw [h.drv]
    rfl
  refine ⟨_, hmakes, ?_, ?_, h.writer, h.file, ?_, ?_, ?_⟩
  · simp only [Setup.setFlag, h.mem, Recorder.mem, hall, hi.wrapped.alloc_cur]
  · rw [h.drv]
    simp [Driver.filler, Driver.endingOf, hsame.1, hpc]
  · simp only [Setup.setFlag, h.pubFill, hall, hi.wrapped.alloc_cur]
  · intro _ hne
    have hmax := (hsame.2.resolve_left hne).1
    simp only [Setup.setFlag, hall, ← hsame.1, Function.update_self]
    rw [hend, hmax]
  · intro _
    simp only [Setup.setFlag, hall, Function.update_self]

/-- The switch to the next bucket. -/
theorem Sim.startNext (h : Sim G m r) (hi : S.config.Inv m.drv) (hpc : m.drv.alloc.pc = .endRow)
    (hsp : m.drv.alloc.supPartial = S.config.numRxSlots) (hmax : m.drv.maxRow ≠ 0)
    (hs : S.config.allocStep m.drv = some d) : ∃ t, S.Makes r [.drv .startNext] t ∧ Sim G { m with drv := d } t := by
  have hsame := hi.sameFill_endRow hpc hsp
  have hstep : S.fillStep r .startNext = some { r with
      drv := { r.drv with allocFill := r.drv.allocFill + 1, published := false }
      ledger := { r.ledger with overrun := S.noteOverrun r (r.drv.allocFill + 1) } } := by
    refine if_pos ⟨?_, ?_, ?_⟩ <;> rw [h.drv]
    · simp [Driver.filler, hpc]
    · exact hsame.1
    · simp [Driver.filler, hsame.1, hmax]
  have hmakes := makes_fill hstep
  simp only [Config.allocStep, hpc, Option.some.injEq] at hs
  subst hs
  simp only [Config.endRow, hsp, hmax, if_true, if_false]
  refine ⟨_, hmakes, h.mem, ?_, h.writer, h.file, h.pubFill, h.sized, ?_⟩
  · rw [h.drv]
    simp [Driver.filler, Driver.endingOf, hsame.1, hpc]
  · intro he
    cases he

/-- The refill thread sees the stop command. -/
theorem Sim.allocEnd (h : Sim G m r) (hstop : m.drv.board.userStop = true) (hpc : m.drv.alloc.pc ≠ .setMaxRow) :
    ∃ t, S.Makes r [.drv .allocEnd] t ∧
      Sim G { m with drv := { m.drv with alloc := { m.drv.alloc with pc := .setStop } } } t := by
  have hstep : S.fillStep r .allocEnd = some { r with drv := { r.drv with allocEnded := true } } := by
    refine if_pos ?_
    rw [h.mem]
    exact hstop
  have hmakes := makes_fill hstep
  refine ⟨_, hmakes, h.mem, ?_, h.writer, h.file, h.pubFill, h.sized, nofun⟩
  rw [h.drv]
  simp [Driver.filler, Driver.endingOf, hpc]

/-- The second of the two stores of line 104. -/
theorem Sim.setMaxRow (h : Sim G m r) (hi : S.config.Inv m.drv) (hpc : m.drv.alloc.pc = .setMaxRow)
    (hs : S.config.allocStep m.drv = some d) : Sim G { m with drv := d } r := by
  have hsame := hi.sameFill (hi.agreed.rowPc (Or.inr (Or.inr hpc)))
  have hsize := h.sizing hpc
  simp only [Config.allocStep, hpc, Option.some.injEq] at hs
  subst hs
  refine h.quiet m.cell rfl ⟨rfl, rfl, rfl, rfl⟩ ?_ rfl (Or.inr ?_) ?_
  · simp [Driver.filler, Driver.endingOf, hpc, hi.rowEnd_ne_zero]
  · rw [hsame.1] at hsize
    exact hsize
  · intro he
    cases he

/-- The access by which the refill thread sees the stop. -/
theorem Config.allocActs_ended {c : Config} {d' : Driver} (hs : c.allocStep d = some d')
    (he : d'.alloc.pc = .setStop ∨ d'.alloc.pc = .exited) (hne : d.alloc.pc ≠ .setStop) : c.allocActs d = [.allocEnd] := by
  obtain ⟨hpc, hu, -⟩ := (Config.allocStep_ended hs he).resolve_left hne
  unfold Config.allocActs
  rcases hpc with hpc | hpc <;> rw [hpc] <;> exact if_pos hu

/-- The accesses of the refill thread that are nothing in the recording. -/
theorem Config.allocActs_quiet {c : Config} {d' : Driver} (hs : c.allocStep d = some d') (hcap : d.alloc.pc ≠ .setCaptured)
    (hfill : d'.hist.allocFill = d.hist.allocFill)
    (hend : ¬((d'.alloc.pc = .setStop ∨ d'.alloc.pc = .exited) ∧ d.alloc.pc ≠ .setStop)) : c.allocActs d = [] := by
  unfold Config.allocActs
  split
  · next hpc => exact absurd hpc hcap
  · next hpc =>
    simp only [Config.allocStep, hpc, Option.some.injEq] at hs
    subst hs
    refine if_neg fun hnext => ?_
    simp [Config.endRow, hnext.1, hnext.2] at hfill
  · next hpc =>
    simp only [Config.allocStep, hpc, Option.some.injEq] at hs
    subst hs
    refine if_neg fun hu => hend ⟨Or.inl ?_, by rw [hpc]; decide⟩
    simp only [hu, if_true]
  · next hpc =>
    simp only [Config.allocStep, hpc, Option.some.injEq] at hs
    subst hs
    refine if_neg fun hu => hend ⟨Or.inl ?_, by rw [hpc]; decide⟩
    simp only [hu, if_true]
  · rfl

theorem Sim.allocStep (h : Sim G m r) (hi : S.config.Inv m.drv) (hs : S.config.allocStep m.drv = some d) :
    ∃ t, S.Makes r (m.acts G .alloc) t ∧ Sim G { m with drv := d } t := by
  unfold Recorder.acts
  by_cases hcap : m.drv.alloc.pc = .setCaptured
  · have hacts : S.config.allocActs m.drv = [.publish (S.config.rowEnd m.drv.alloc.supRow)] := by
      simp only [Config.allocActs, hcap]
    rw [hacts]
    exact h.setCaptured hi hcap hs
  obtain ⟨hboard, hpub, hpc⟩ := Config.allocStep_board hs hcap
  obtain ⟨hproc, _, _, _, hpf⟩ := Config.allocStep_frame hs
  rcases Config.allocStep_fill hs with ⟨hfill, _⟩ | ⟨⟨hrow, hsp⟩, hm, _⟩
  · by_cases hend : (d.alloc.pc = .setStop ∨ d.alloc.pc = .exited) ∧ m.drv.alloc.pc ≠ .setStop
    · rw [Config.allocActs_ended hs hend.1 hend.2]
      obtain ⟨hat, hu, rfl⟩ := (Config.allocStep_ended hs hend.1).resolve_left hend.2
      exact h.allocEnd hu (by rcases hat with hat | hat <;> rw [hat] <;> decide)
    · rw [Config.allocActs_quiet hs hcap hfill hend]
      refine ⟨r, makes_nil r, ?_⟩
      by_cases hset : m.drv.alloc.pc = .setMaxRow
      · exact h.setMaxRow hi hset hs
      have hmax := Config.allocStep_maxRow hs hset
      have hended : (d.alloc.pc = .setStop ∨ d.alloc.pc = .exited) ↔
          (m.drv.alloc.pc = .setStop ∨ m.drv.alloc.pc = .exited) := by
        refine ⟨fun hd => Or.inl (by_contra fun hne => hend ⟨hd, hne⟩), ?_⟩
        rintro (he | he) <;> simp only [Config.allocStep, he, Option.some.injEq, reduceCtorEq] at hs
        subst hs
        exact Or.inr rfl
      refine h.quiet m.cell rfl ?_ ?_ hpub (Or.inl hmax) fun he => absurd he hpc
      · rw [hboard]
        exact ⟨rfl, rfl, rfl, rfl⟩
      · unfold Driver.filler Driver.endingOf
        simp [hproc, hfill, hpf, hmax, hboard, hpc, hset, hended]
  · have hacts : S.config.allocActs m.drv = [.startNext] := by
      simp only [Config.allocActs, hrow]
      exact if_pos ⟨hsp, hm⟩
    rw [hacts]
    exact h.startNext hi hrow hsp hm hs

/-! ## The recording thread -/

/-- The data of the packet is marked already. -/
theorem Sound.storing_cell (h : Sound G m) (hpc : m.drv.proc.pc = .store) {x : Nat} (hx : x ∈ m.storing G)
    (hd : S.lenPieces ≤ x) : m.cell (S.config.bucketOf m.drv.hist.procFill) x = some m.drv.hist.procFill := by
  rcases List.mem_cons.mp hx with rfl | hx
  · exact absurd (G.ofLen_lt _) (Nat.not_lt.mpr hd)
  · have ht := h.tagged m.drv.hist.accepted (Nat.le_refl _) (h.inv.sent_store hpc) x hx
    rwa [h.inv.fillAt_store hpc] at ht

theorem Sound.storing_lt {x : Nat} (hx : x ∈ m.storing G) : x < S.lenPieces + S.dataPieces := by
  rcases List.mem_cons.mp hx with rfl | hx
  · exact Nat.lt_add_right _ (G.ofLen_lt _)
  · exact (G.ofData_mem _ _ x hx).2

/-- The length of a packet is stored. -/
theorem Sim.store (h : Sim G m r) (hso : Sound G m) (hpc : m.drv.proc.pc = .store)
    (hs : S.config.procStep m.drv = some d) : ∃ t, S.Makes r [.drv (.accept (m.storing G))] t ∧ Sim G { m with
      drv := d
      cell := tagAll m.cell m.drv.proc.cur m.drv.hist.procFill [G.ofLen m.drv.proc.curPartial] } t := by
  have hp : r.drv.procFill = m.drv.hist.procFill := by
    rw [h.drv]
    rfl
  have hcell : r.mem.cell = m.cell := by
    rw [h.mem]
    rfl
  have hstep : S.fillStep r (.accept (m.storing G)) = some { r with
      mem := { r.mem with
        cell := Function.update r.mem.cell (S.config.bucketOf r.drv.procFill) fun x =>
          if x ∈ m.storing G then some r.drv.procFill else r.mem.cell (S.config.bucketOf r.drv.procFill) x }
      drv := { r.drv with count := r.drv.count + 1 }
      ledger := { r.ledger with
        recorded := Function.update r.ledger.recorded r.drv.procFill fun x =>
          x ∈ m.storing G || r.ledger.recorded r.drv.procFill x
        packets := Function.update r.ledger.packets r.drv.procFill (r.ledger.packets r.drv.procFill + 1) } } := by
    refine if_pos ⟨?_, fun x hx => ⟨Sound.storing_lt hx, fun hd => ?_⟩⟩
    · rw [h.drv]
      simp [Driver.filler, Driver.endingOf, hpc]
    · rw [hcell, hp]
      exact hso.storing_cell hpc hx hd
  have hmakes := makes_fill hstep
  have hcur := hso.inv.wrapped.proc_cur
  have hlt := hso.inv.curPartial_lt
  simp only [Config.procStep, hpc, Option.some.injEq] at hs
  subst hs
  refine ⟨_, hmakes, ?_, ?_, h.writer, h.file, h.pubFill, ?_, h.sizing⟩
  · -- the pieces of the data have the mark of the fill already
    have htag : Function.update r.mem.cell (S.config.bucketOf r.drv.procFill) (fun x =>
        if x ∈ m.storing G then some r.drv.procFill else r.mem.cell (S.config.bucketOf r.drv.procFill) x) =
        tagAll m.cell m.drv.proc.cur m.drv.hist.procFill [G.ofLen m.drv.proc.curPartial] := by
      unfold tagAll
      rw [hcell, hp, hcur]
      congr 1
      funext x
      by_cases hx : x ∈ m.storing G
      · rw [if_pos hx]
        by_cases hl : x ∈ [G.ofLen m.drv.proc.curPartial]
        · rw [if_pos hl]
        · rw [if_neg hl]
          refine (hso.storing_cell hpc hx ?_).symm
          rcases List.mem_cons.mp hx with rfl | hx
          · exact absurd (List.mem_singleton.mpr rfl) hl
          · exact (G.ofData_mem _ _ x hx).1
      · rw [if_neg hx, if_neg fun hl => hx (List.mem_cons.mpr (Or.inl (List.mem_singleton.mp hl)))]
    rw [htag, h.mem]
    rfl
  · rw [h.drv]
    have hnext : (m.drv.proc.curPartial + 1) % 2 ^ 32 = m.drv.proc.curPartial + 1 := Nat.mod_eq_of_lt hlt
    simp only [Driver.filler, Driver.endingOf, hpc, hnext]
    by_cases h0 : (m.drv.proc.curPartial + 1) % 256 = 0 <;> simp [h0]
  · intro _ hne
    exact h.sized (by simp [Driver.endingOf, hpc]) hne

/-- The recording thread follows to the next bucket. -/
theorem Sim.resetRow (h : Sim G m r) (hi : S.config.Inv m.drv) (hpc : m.drv.proc.pc = .resetRow)
    (hs : S.config.procStep m.drv = some d) : ∃ t, S.Makes r [.drv .procNext] t ∧ Sim G { m with drv := d } t := by
  obtain ⟨hn, hacc⟩ := hi.agreed.resetting hpc
  have hcount := hi.window.accepted_eq
  have hrec : m.drv.endingOf = .recording := by simp [Driver.endingOf, hpc]
  have hstep : S.fillStep r .procNext = some { r with
      drv := { r.drv with procFill := r.drv.procFill + 1, count := 0 } } := by
    refine if_pos ⟨?_, ?_, ?_⟩ <;> rw [h.drv]
    · exact hrec
    · show m.drv.hist.procFill < m.drv.hist.allocFill
      rw [hn.next]
      exact Nat.lt_succ_self _
    · show m.drv.proc.curPartial = r.ledger.size m.drv.hist.procFill
      rw [h.sized hrec hn.set]
      have := hn.size
      omega
  have hmakes := makes_fill hstep
  simp only [Config.procStep, hpc, Option.some.injEq] at hs
  subst hs
  refine ⟨_, hmakes, h.mem, ?_, h.writer, h.file, h.pubFill, fun _ hne => absurd rfl hne, h.sizing⟩
  rw [h.drv]
  have hne : m.drv.alloc.pc ≠ .setMaxRow := fun he => hi.agreed.rowPc (Or.inr (Or.inr he)) hn.row
  simp [Driver.filler, Driver.endingOf, hpc, hn.next, hne]

/-- The last store of a flag. -/
theorem Sim.finalCaptured (h : Sim G m r) (hi : S.config.Inv m.drv) (hc : m.drv.Closing)
    (hpc : m.drv.proc.pc = .setCaptured) (hs : S.config.procStep m.drv = some d) :
    ∃ t, S.Makes r [.drv .finalCaptured] t ∧ Sim G { m with drv := d } t := by
  have hexit := hc.stopped (hc.final (Or.inl hpc))
  have hstep : S.fillStep r .finalCaptured = some { S.setFlag r r.drv.procFill r.drv.count with
      drv := { r.drv with ending := .flagged } } := by
    refine if_pos ⟨?_, ?_⟩ <;> rw [h.drv]
    · simp [Driver.filler, hexit]
    · simp [Driver.filler, Driver.endingOf, hpc]
  have hmakes := makes_fill hstep
  have hp : r.drv.procFill = m.drv.hist.procFill ∧ r.drv.count = m.drv.proc.curPartial := by
    rw [h.drv]
    exact ⟨rfl, rfl⟩
  simp only [Config.procStep, hpc, Option.some.injEq] at hs
  subst hs
  refine ⟨_, hmakes, ?_, ?_, h.writer, h.file, ?_, ?_, ?_⟩
  · simp only [Setup.setFlag, h.mem, Recorder.mem, hp, hi.wrapped.proc_cur]
  · rw [h.drv]
    simp [Driver.filler, Driver.endingOf]
  · simp only [Setup.setFlag, h.pubFill, hp, hi.wrapped.proc_cur]
  · intro he
    cases he
  · intro he
    rw [hexit] at he
    cases he

/-- The store of `last`. -/
theorem Sim.finalLast (h : Sim G m r) (hi : S.config.Inv m.drv) (hpc : m.drv.proc.pc = .setLast)
    (hs : S.config.procStep m.drv = some d) : ∃ t, S.Makes r [.drv .finalLast] t ∧ Sim G { m with drv := d } t := by
  have hstep : S.fillStep r .finalLast = some { r with
      mem := { r.mem with last := Function.update r.mem.last (S.config.bucketOf r.drv.procFill) 1 }
      drv := { r.drv with ending := .ended } } := by
    refine if_pos ?_
    rw [h.drv]
    simp [Driver.filler, Driver.endingOf, hpc]
  have hmakes := makes_fill hstep
  have hp : r.drv.procFill = m.drv.hist.procFill := by
    rw [h.drv]
    rfl
  simp only [Config.procStep, hpc, Option.some.injEq] at hs
  subst hs
  refine ⟨_, hmakes, ?_, ?_, h.writer, h.file, h.pubFill, ?_, h.sizing⟩
  · simp only [h.mem, Recorder.mem, hp, hi.wrapped.proc_cur]
  · rw [h.drv]
    simp [Driver.filler, Driver.endingOf]
  · simp [Driver.endingOf]

theorem Sim.procStep (h : Sim G m r) (hso : Sound G m) (hs : S.config.procStep m.drv = some d) :
    ∃ t, S.Makes r (m.acts G .proc) t ∧ Sim G { m with
      drv := d
      cell := if m.drv.proc.pc = .store
        then tagAll m.cell m.drv.proc.cur m.drv.hist.procFill [G.ofLen m.drv.proc.curPartial] else m.cell } t := by
  unfold Recorder.acts Recorder.procActs
  by_cases hst : m.drv.proc.pc = .store
  · rw [if_pos hst, hst]
    exact h.store hso hst hs
  rw [if_neg hst]
  by_cases hrow : m.drv.proc.pc = .resetRow
  · rw [hrow]
    exact h.resetRow hso.inv hrow hs
  by_cases hcap : m.drv.proc.pc = .setCaptured
  · rw [hcap]
    exact h.finalCaptured hso.inv hso.closing hcap hs
  by_cases hlast : m.drv.proc.pc = .setLast
  · rw [hlast]
    exact h.finalLast hso.inv hlast hs
  have hnone : m.procActs G = [] := by
    unfold Recorder.procActs
    split
    · next he => exact absurd he hst
    · next he => exact absurd he hrow
    · next he => exact absurd he hcap
    · next he => exact absurd he hlast
    · rfl
  refine ⟨r, (congrArg (fun as => S.Makes r (as.map RecAct.drv) r) hnone).mpr (makes_nil r), ?_⟩
  obtain ⟨hboard, hmax, hcur, hcount, _, _, hpc, _, slot, cleaned, hhist⟩ :=
    Config.procStep_quiet hs ⟨hst, hrow, hcap, hlast⟩
  have halloc := (Config.procStep_frame hs).1
  -- a thread that ends here has seen the stop before the start, and marks nothing
  have hrun : m.drv.proc.pc ≠ .exited := fun he => by simp [Config.procStep, he] at hs
  have hend : d.endingOf = m.drv.endingOf := by
    rw [Driver.endingOf_recording hlast fun he => absurd he hrun]
    refine Driver.endingOf_recording hpc fun _ => ?_
    rw [hboard]
    exact hso.closing.unmarked hrun _
  refine h.quiet m.cell rfl ?_ ?_ (by rw [hhist]) (Or.inl hmax) ?_
  · rw [hboard]
    exact ⟨rfl, rfl, rfl, rfl⟩
  · unfold Driver.filler
    rw [hend, halloc, hmax, hcount, hhist]
  · rw [halloc]
    exact fun he => ⟨he, rfl⟩

/-! ## The adapter and the writers -/

theorem tagAll_cons (cell : Nat → Nat → Option Nat) (b n x : Nat) (xs : List Nat) :
    tagAll (Function.update cell b (Function.update (cell b) x (some n))) b n xs = tagAll cell b n (x :: xs) := by
  funext a y
  by_cases ha : a = b
  · subst ha
    by_cases hy : y = x
    · simp [tagAll, hy]
    · simp [tagAll, hy]
  · simp [tagAll, ha]

/-- The adapter writes to a number of pieces, one after the other. -/
theorem makes_dma (ahead : Bool) (n : Nat) (xs : List Nat) : ∀ {r : RecState},
    (n = if ahead then r.drv.allocFill else r.drv.procFill) →
    (∀ x ∈ xs, S.lenPieces ≤ x ∧ x < S.lenPieces + S.dataPieces) →
    S.Makes r ((xs.map (.dma ahead)).map .drv)
      { r with mem := { r.mem with cell := tagAll r.mem.cell (S.config.bucketOf n) n xs } } := by
  induction xs with
  | nil =>
    intro r _ _
    have hnil : tagAll r.mem.cell (S.config.bucketOf n) n [] = r.mem.cell := by
      funext b x
      exact tagAll_of_ne fun _ => List.not_mem_nil
    rw [hnil]
    exact makes_nil r
  | cons x xs ih =>
    intro r hn hx
    have hstep : S.fillStep r (.dma ahead x) = some { r with mem := { r.mem with
        cell := Function.update r.mem.cell (S.config.bucketOf n)
          (Function.update (r.mem.cell (S.config.bucketOf n)) x (some n)) } } := by
      rw [hn]
      exact if_pos (hx x List.mem_cons_self)
    obtain ⟨tr, hr, hacts, hmeets⟩ := makes_fill hstep
    obtain ⟨tr', hr', hacts', hmeets'⟩ := ih (r := { r with mem := { r.mem with
        cell := Function.update r.mem.cell (S.config.bucketOf n)
          (Function.update (r.mem.cell (S.config.bucketOf n)) x (some n)) } }) hn
      fun y hy => hx y (List.mem_cons_of_mem x hy)
    rw [tagAll_cons] at hr'
    refine ⟨tr ++ tr', hr.append hr', ?_, fun φ hφ => ?_⟩
    · rw [List.map_append, hacts, hacts']
      rfl
    · -- the condition is met by every one of them
      have hall : ∀ (u : RecState) (ys : List Nat), ∀ b ∈ (ys.map (FillAct.dma ahead)).map RecAct.drv, φ u b := by
        intro u ys b hb
        obtain ⟨a, ha, rfl⟩ := List.mem_map.mp hb
        obtain ⟨y, -, rfl⟩ := List.mem_map.mp ha
        exact hφ u ahead y
      refine iff_of_true (meets_append.mpr ⟨(hmeets φ hφ).mpr ?_, (hmeets' φ hφ).mpr (hall _ xs)⟩) (hall r (x :: xs))
      exact hall r [x]

/-- A packet arrives. -/
theorem Sim.nicStep (h : Sim G m r) (hso : Sound G m) {p : List UInt8} (hs : S.config.nicStep p m.drv = some d) :
    ∃ t, S.Makes r (m.acts G (.nic p)) t ∧ Sim G { m with
      drv := d
      cell := tagAll m.cell ((m.drv.ring m.drv.nicHead).pktAddr / 2 ^ 30) (m.drv.fillAt m.drv.hist.sent.length)
        (G.ofData ((m.drv.ring m.drv.nicHead).pktAddr % 2 ^ 30) p.length) } t := by
  obtain ⟨hne, ring, nicHead, ram, slot, rfl⟩ := Config.nicStep_frame hs
  have hmakes := makes_dma (S := S) (r := r) (decide (m.drv.base ≤ m.drv.hist.sent.length))
    (m.drv.fillAt m.drv.hist.sent.length) (G.ofData ((m.drv.ring m.drv.nicHead).pktAddr % 2 ^ 30) p.length)
    (by
      rw [h.drv]
      simp only [decide_eq_true_eq]
      rfl)
    (G.ofData_mem _ _)
  refine ⟨_, hmakes, ?_, h.drv, h.writer, h.file, h.pubFill, h.sized, h.sizing⟩
  rw [hso.addressed.head hso.inv hne, h.mem]
  rfl

/-- A step of a writer depends on nothing of the driver but the shared memory, and on no history but the fills of the flags. -/
theorem Setup.writerStep_congr {s : RecState} (drv : Filler) (ledger : Ledger) (hp : ledger.pubFill = s.ledger.pubFill)
    (hs : S.writerStep s k = some t) : ∃ consumed, S.writerStep { s with drv := drv, ledger := ledger } k =
      some { t with drv := drv, ledger := { ledger with consumed := consumed } } := by
  cases moves_of_writerStep hs with
  | look hpc | check hpc | raise hpc | mark hpc | create hpc | copyLast hpc | copyStalled hpc | readLast hpc | close hpc =>
    refine ⟨ledger.consumed, ?_⟩
    simp only [Setup.writerStep, hpc]
    rfl
  | wait hpc hc | copyLen hpc hc | copyPiece hpc hc =>
    refine ⟨ledger.consumed, ?_⟩
    simp only [Setup.writerStep, hpc, hc, if_true]
    rfl
  | lensDone hpc hc | dataDone hpc hc =>
    refine ⟨ledger.consumed, ?_⟩
    simp only [Setup.writerStep, hpc, hc, if_false]
    rfl
  | take hpc hc =>
    refine ⟨ledger.consumed, ?_⟩
    simp only [Setup.writerStep, hpc, hc, if_false, ← hp]
    rfl
  | reset hpc =>
    refine ⟨Function.update ledger.consumed (s.writer k).taken true, ?_⟩
    simp only [Setup.writerStep, hpc]
    rfl

/-- A writer makes the same step at both levels. -/
theorem Sim.writerStep (h : Sim G m r) (hs : S.writerStep m.seen k = some t) :
    ∃ u, S.writerStep r k = some u ∧ Sim G (m.back t) u := by
  have hm := moves_of_writerStep hs
  obtain ⟨consumed, hu⟩ := Setup.writerStep_congr r.drv r.ledger h.pubFill hs
  have hr : r = { m.seen with drv := r.drv, ledger := r.ledger } := by
    obtain ⟨mem, drv, writer, file, ledger⟩ := r
    obtain ⟨rfl, _, rfl, rfl, _, _, _⟩ := h
    rfl
  rw [← hr] at hu
  refine ⟨_, hu, ?_, h.drv, rfl, rfl, h.pubFill, h.sized, h.sizing⟩
  have hlast : t.mem.last = m.drv.board.last := hm.last
  have hcell : t.mem.cell = m.cell := hm.cell
  unfold Recorder.mem Recorder.back
  rw [← hlast, ← hcell]

end NicRecorder
