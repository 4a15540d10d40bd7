import NicRecorder.Lemmas.AllocSteps

/-!
# The recording thread and the adapter keep the invariant

One statement for each access of `nlsim_process_thread`, and one for the adapter. The thread accepts a descriptor that the
adapter has written back (`Inv.accept`); which states of the ring make sure that it does is a separate question. Its position
is before the end of the row of the refill thread as long as both are in the same fill, so that `max_row` can only match when
the refill thread has gone on to the next bucket (`Inv.matchRow`).
-/

namespace NicRecorder

open ByteMem

variable {c : Config} {d : Driver}

/-! ## Positions -/

/-- The recording thread is between two packets: it is not at work on one, and not at the end of a group of 256. -/
def ProcPc.between : ProcPc → Bool
  | .load | .store | .publishClean | .compareRow | .resetRow => false
  | _ => true

theorem ProcPc.ne_of_between {q : ProcPc} (h : q.between = true) :
    q ≠ .load ∧ q ≠ .store ∧ q ≠ .publishClean ∧ q ≠ .compareRow ∧ q ≠ .resetRow := by
  cases q <;> simp_all [ProcPc.between]

theorem Driver.taken_of_ne (h : d.proc.pc ≠ .load ∧ d.proc.pc ≠ .store) : d.taken = d.hist.accepted := by
  simp [Driver.taken, h.1, h.2]

/-- In the fill of the refill thread, the recording thread is before the end of its row. -/
theorem Config.Inv.accepted_lt (h : c.Inv d) :
    d.hist.accepted < d.base + (d.alloc.supRow + 1) * c.numRxSlots := by
  have h1 := h.tailed_lt
  have h2 := h.window.sent_le
  have h3 := h.window.taken_le
  have h4 : d.hist.accepted ≤ d.taken := Nat.le_add_right _ _
  rw [Nat.succ_mul]
  omega

theorem Config.Inv.procBase_eq (h : c.Inv d) (hs : d.hist.allocFill = d.hist.procFill) : d.procBase = d.base := by
  unfold Driver.procBase Driver.base
  rw [hs]
  exact h.agreed.starts _ (Nat.le_refl _)

/-- A bucket is closed after a bounded number of packets. -/
theorem Config.Inv.curPartial_le (h : c.Inv d) : d.proc.curPartial ≤ (c.maxRows + 1) * c.numRxSlots := by
  have hacc := h.window.accepted_eq
  rcases h.agreed.fills with ⟨hs, -⟩ | hn
  · have h1 := h.accepted_lt
    have h2 := h.procBase_eq hs
    have h3 := Nat.mul_le_mul_right c.numRxSlots (Nat.succ_le_succ h.row_bound)
    rw [Nat.succ_eq_add_one, Nat.succ_eq_add_one] at h3
    omega
  · have h1 := hn.behind
    have h2 := hn.size
    have h3 := h.agreed.maxRow_le
    omega

/-- The position in the bucket stays inside its machine word. -/
theorem Config.Inv.curPartial_lt (h : c.Inv d) : d.proc.curPartial + 1 < 2 ^ 32 := by
  have hb := c.maxRows_bounds.2.1
  have hpos := c.slots_ge
  have hle := h.curPartial_le
  rw [Nat.succ_mul] at hb
  omega

/-- The adapter only has descriptors that are still armed. -/
theorem Config.Inv.order (h : c.Inv d) :
    d.hist.cleaned ≤ d.hist.accepted ∧ d.hist.accepted ≤ d.taken ∧ d.taken ≤ d.hist.sent.length ∧
      d.hist.sent.length ≤ d.hist.tailed ∧ d.hist.tailed ≤ d.hist.armed ∧ d.hist.armed < d.hist.cleaned + c.numRxSlots := by
  have h1 := h.window.tailed_eq
  exact ⟨h.window.cleaned_le, Nat.le_add_right _ _, h.window.taken_le, h.window.sent_le, by omega, h.window.room⟩

/-! ## Steps between packets -/

/-- The recording thread goes from one access between packets to another. -/
theorem Config.Inv.procLocal (h : c.Inv d) (q : ProcPc) (hq : q.between = true)
    (hpc : d.proc.pc.between = true ∨ d.proc.pc = .compareRow) (hclose : c.NextFill d → d.hist.accepted ≠ d.base)
    (captured last pubFill : Nat → Nat) :
    c.Inv { d with
      proc := { d.proc with pc := q }
      board := { d.board with captured := captured, last := last }
      hist := { d.hist with pubFill := pubFill } } := by
  have hne := ProcPc.ne_of_between hq
  have hne' : d.proc.pc ≠ .load ∧ d.proc.pc ≠ .store ∧ d.proc.pc ≠ .publishClean ∧ d.proc.pc ≠ .resetRow := by
    rcases hpc with hb | hb
    · exact ⟨(ProcPc.ne_of_between hb).1, (ProcPc.ne_of_between hb).2.1, (ProcPc.ne_of_between hb).2.2.1,
        (ProcPc.ne_of_between hb).2.2.2.2⟩
    · rw [hb]
      decide
  generalize hd' : ({ d with
      proc := { d.proc with pc := q }
      board := { d.board with captured := captured, last := last }
      hist := { d.hist with pubFill := pubFill } } : Driver) = d'
  have ht : d'.taken = d.taken := by
    subst hd'
    rw [Driver.taken_of_ne ⟨hne'.1, hne'.2.1⟩, Driver.taken_of_ne ⟨hne.1, hne.2.1⟩]
  obtain ⟨w, p, ag, r, l, g⟩ := h
  have hring : c.Ringed d' := by
    refine r.of_words ht ?_ ?_ ?_ ?_ ?_ <;> subst hd'
    exacts [fun _ => ⟨rfl, rfl⟩, rfl, rfl, rfl, Nat.le_refl _]
  have hwin : c.Window d' := by
    refine ⟨?_, ?_, ?_, ?_, ?_, ?_, ?_, ht ▸ ?_, ?_, ?_⟩ <;> subst hd'
    exacts [w.armed_eq, w.tailed_eq, w.room, w.batch, w.ending, w.inRow, w.cleaned_le, w.taken_le, w.sent_le, w.accepted_eq]
  subst hd'
  refine ⟨hwin, ⟨p.1, p.2, p.3, p.4, fun h' => absurd h' hne.2.2.1, fun _ => p.published hne'.2.2.1, ?_, ?_, p.9, p.10, p.11, p.12⟩,
    ⟨ag.first, ag.starts, ?_, fun h' => absurd h' hne.2.2.2.2, ag.rowPc, ag.maxRow_le, ag.allocLog, ag.places, ag.procLog⟩, hring,
    ⟨l.1, l.2, fun h' => absurd h' hne.2.1, l.4⟩, ⟨g.1, g.2, g.3, g.4, g.5⟩⟩
  · rintro (h' | h')
    · exact absurd h' hne.2.2.2.1
    · exact absurd h' hne.2.2.2.2
  · rintro (h' | h' | h')
    · exact absurd h' hne.2.2.1
    · exact absurd h' hne.2.2.2.1
    · exact absurd h' hne.2.2.2.2
  · rcases ag.fills with hs | hn
    · exact Or.inl hs
    · exact Or.inr ⟨hn.1, hn.2, hn.3, hn.4, hn.5, hn.6, fun he => absurd he (hclose hn)⟩

/-- Between packets the recording thread has not reached the end of its fill. -/
theorem Config.NextFill.not_closing (hn : c.NextFill d)
    (hpc : d.proc.pc ≠ .publishClean ∧ d.proc.pc ≠ .compareRow ∧ d.proc.pc ≠ .resetRow) : d.hist.accepted ≠ d.base := by
  intro he
  rcases hn.closing he with h' | h' | h'
  · exact hpc.1 h'
  · exact hpc.2.1 h'
  · exact hpc.2.2 h'

/-! ## Accepting a packet -/

/-- A descriptor that was written back and not accepted holds a packet that the adapter sent. -/
theorem Config.Inv.written_lt (h : c.Inv d) (hpc : d.proc.pc = .poll) (hw : d.hist.slot d.proc.rxDesc = .written) :
    d.hist.accepted < d.hist.sent.length := by
  have hrx := (h.wrapped.published (by rw [hpc]; decide)).2
  have ht : d.taken = d.hist.accepted := Driver.taken_of_ne (by rw [hpc]; decide)
  have ho := h.order
  rw [hrx] at hw
  by_contra hlt
  by_cases harm : d.hist.accepted < d.hist.armed
  · have := (h.ringed.armed d.hist.accepted (by omega) harm).1
    rw [hw] at this
    cases this
  · have he : d.hist.accepted = d.hist.armed := by omega
    by_cases hN : d.hist.armed < c.numRxSlots
    · rw [he, Nat.mod_eq_of_lt hN] at hw
      have := (h.ringed.fresh _ (Nat.le_refl _) hN).1
      rw [hw] at this
      cases this
    · have := (h.ringed.accepted (d.hist.armed - c.numRxSlots) (by have := c.slots_pos; omega) (by omega)).1
      rw [← Nat.mod_eq_sub_mod (by omega), ← he, hw] at this
      cases this

/-- The descriptor that is accepted is the next one of the written ones. -/
theorem Config.Inv.accept_ringed (h : c.Inv d) (hpc : d.proc.pc = .poll) (hw : d.hist.slot d.proc.rxDesc = .written) :
    c.Ringed { d with
      proc := { d.proc with pc := .load }
      hist := { d.hist with slot := Function.update d.hist.slot d.proc.rxDesc .accepted } } := by
  have hlt := h.written_lt hpc hw
  have hrx := (h.wrapped.published (by rw [hpc]; decide)).2
  have ht : d.taken = d.hist.accepted := Driver.taken_of_ne (by rw [hpc]; decide)
  have ho := h.order
  have hslot : ∀ i, i % c.numRxSlots ≠ d.hist.accepted % c.numRxSlots →
      Function.update d.hist.slot d.proc.rxDesc .accepted (i % c.numRxSlots) = d.hist.slot (i % c.numRxSlots) :=
    fun i hne => Function.update_of_ne (hrx ▸ hne) ..
  have r := h.ringed
  refine ⟨fun i (hi : i < d.hist.accepted + 1) (hlap : d.hist.armed ≤ i + c.numRxSlots) => ?_,
    fun i (hi : d.hist.accepted + 1 ≤ i) (hi' : i < d.hist.sent.length) => ?_,
    fun i (hi : d.hist.sent.length ≤ i) (hi' : i < d.hist.armed) => ?_,
    fun x (hx : d.hist.armed ≤ x) hxN => ?_, r.length⟩ <;> dsimp only
  · by_cases he : i = d.hist.accepted
    · subst he
      rw [← hrx, Function.update_self, hrx]
      exact ⟨rfl, (r.written d.hist.accepted (by omega) hlt).2⟩
    · rw [hslot i (slot_ne_of_lt (by omega) (by omega))]
      exact r.accepted i (by omega) hlap
  · rw [hslot i (Ne.symm (slot_ne_of_lt (by omega) (by omega)))]
    exact r.written i (by omega) hi'
  · rw [hslot i (Ne.symm (slot_ne_of_lt (by omega) (by omega)))]
    exact r.armed i hi hi'
  · have hne : x ≠ d.proc.rxDesc := by
      rw [hrx, Nat.mod_eq_of_lt (by omega)]
      omega
    rw [Function.update_of_ne hne]
    exact r.fresh x hx hxN

/-- Line 180: the done bit of a descriptor that was written back. -/
theorem Config.Inv.accept (h : c.Inv d) (hpc : d.proc.pc = .poll) (hw : d.hist.slot d.proc.rxDesc = .written) :
    c.Inv { d with
      proc := { d.proc with pc := .load }
      hist := { d.hist with slot := Function.update d.hist.slot d.proc.rxDesc .accepted } } := by
  have hring := h.accept_ringed hpc hw
  have hlt := h.written_lt hpc hw
  have hclose : c.NextFill d → d.hist.accepted ≠ d.base := fun hn => hn.not_closing (by rw [hpc]; decide)
  have hpub := h.wrapped.published (by rw [hpc]; decide)
  obtain ⟨w, p, ag, -, l, g⟩ := h
  refine ⟨⟨w.1, w.2, w.3, w.4, w.5, w.6, w.7, hlt, w.9, w.10⟩,
    ⟨p.1, p.2, p.3, p.4, nofun, fun _ => hpub, ?_, ?_, p.9, p.10, p.11, p.12⟩,
    ⟨ag.first, ag.starts, ?_, nofun, ag.rowPc, ag.maxRow_le, ag.allocLog, ag.places, ag.procLog⟩, hring,
    ⟨l.1, l.2, nofun, l.4⟩, ⟨g.1, g.2, g.3, g.4, g.5⟩⟩
  · rintro (h' | h') <;> cases h'
  · rintro (h' | h' | h') <;> cases h'
  · rcases ag.fills with hs | hn
    · exact Or.inl hs
    · exact Or.inr ⟨hn.1, hn.2, hn.3, hn.4, hn.5, hn.6, fun he => absurd he (hclose hn)⟩

/-- Line 185, the load of the length. -/
theorem Config.Inv.load (h : c.Inv d) (hpc : d.proc.pc = .load) :
    c.Inv { d with proc := { d.proc with pc := .store, len := (d.ring d.proc.rxDesc).length } } := by
  have hpub := h.wrapped.published (by rw [hpc]; decide)
  have ht : d.taken = d.hist.accepted + 1 := by simp [Driver.taken, hpc]
  have hlt : d.hist.accepted < d.hist.sent.length := by
    have := h.window.taken_le
    omega
  have hlen : (d.ring d.proc.rxDesc).length = lengthOf d.hist.sent d.hist.accepted := by
    rw [hpub.2]
    exact h.ringed.length _ (Nat.le_refl _) hlt
  obtain ⟨w, p, ag, r, l, g⟩ := h
  refine ⟨⟨w.1, w.2, w.3, w.4, w.5, w.6, w.7, hlt, w.9, w.10⟩,
    ⟨p.1, p.2, p.3, p.4, nofun, fun _ => hpub, ?_, ?_, p.9, p.10, p.11, p.12⟩,
    ⟨ag.first, ag.starts, ?_, nofun, ag.rowPc, ag.maxRow_le, ag.allocLog, ag.places, ag.procLog⟩,
    ⟨fun i hi => r.accepted i (ht.symm ▸ hi), fun i hi => r.written i (ht.symm ▸ hi), r.3, r.4, r.5⟩,
    ⟨l.1, l.2, fun _ => hlen, l.4⟩, ⟨g.1, g.2, g.3, g.4, g.5⟩⟩
  · rintro (h' | h') <;> cases h'
  · rintro (h' | h' | h') <;> cases h'
  · rcases ag.fills with hs | hn
    · exact Or.inl hs
    · exact Or.inr ⟨hn.1, hn.2, hn.3, hn.4, hn.5, hn.6, fun he => absurd he (hn.not_closing (by rw [hpc]; decide))⟩

/-- The place that the recording thread gives to a packet is the one that the refill thread gave it. -/
theorem Config.Inv.procLog_push (h : c.Inv d) (hpc : d.proc.pc = .store) :
    d.hist.procLog ++ [⟨d.proc.cur, d.proc.curPartial / c.numRxSlots, d.proc.curPartial % c.numRxSlots⟩] =
      d.hist.allocLog.take (d.hist.accepted + 1) := by
  have ht : d.taken = d.hist.accepted + 1 := by simp [Driver.taken, hpc]
  have ho := h.order
  have hacc := h.window.accepted_eq
  have hbase : d.hist.allocStart d.hist.procFill = d.procBase := (h.agreed.starts _ (Nat.le_refl _)).symm
  have hle : d.hist.procFill ≤ d.hist.allocFill := by
    rcases h.agreed.fills with ⟨hs, -⟩ | hn
    · omega
    · have := hn.next
      omega
  have hplace := h.agreed.places d.hist.procFill (Nat.le_refl _) hle d.hist.accepted (by omega) (by omega) (by
    intro hlt
    rcases h.agreed.fills with ⟨hs, -⟩ | hn
    · omega
    · have h1 := hn.next
      have h2 := hn.behind
      have h3 := hn.not_closing (by rw [hpc]; decide)
      unfold Driver.base at h2 h3
      rw [h1] at h2 h3
      omega)
  rw [List.take_add_one, hplace, h.agreed.procLog, hbase, hacc, Nat.add_sub_cancel_left]
  unfold Config.placeIn
  rw [← h.wrapped.proc_cur]
  rfl

/-- The lengths of a bucket after one store. -/
theorem setLen_self (lens : Nat → Nat → Nat) (cur j len : Nat) : setLen lens cur j len cur j = len := by
  simp [setLen]

theorem setLen_of_ne (lens : Nat → Nat → Nat) (cur j len : Nat) {j' : Nat} (h : j' ≠ j) :
    setLen lens cur j len cur j' = lens cur j' := by
  simp [setLen, h]

/-- The recording thread counts a group of 256 in its bucket as over all packets. -/
theorem Config.Inv.batch_mod (h : c.Inv d) : (d.proc.curPartial + 1) % 256 = (d.hist.accepted + 1) % 256 := by
  obtain ⟨b, hb⟩ := Nat.dvd_trans c.batch_dvd h.wrapped.procBase_dvd
  rw [h.window.accepted_eq, hb, Nat.add_assoc, Nat.mul_add_mod]

theorem Config.Inv.curPartial_mod (h : c.Inv d) : d.proc.curPartial % c.numRxSlots = d.hist.accepted % c.numRxSlots := by
  obtain ⟨b, hb⟩ := h.wrapped.procBase_dvd
  rw [h.window.accepted_eq, hb, Nat.mul_add_mod]

/-- The length that is stored is that of the next packet delivered. -/
theorem Config.Inv.recorded_push (h : c.Inv d) (hpc : d.proc.pc = .store) :
    d.hist.recorded ++ [d.proc.len] = (d.hist.sent.map List.length).take (d.hist.accepted + 1) := by
  have ht : d.taken = d.hist.accepted + 1 := by simp [Driver.taken, hpc]
  have hlt : d.hist.accepted < d.hist.sent.length := by
    have := h.window.taken_le
    omega
  rw [List.take_add_one, List.getElem?_map, List.getElem?_eq_getElem hlt, h.recorded.loaded hpc, ← h.recorded.recorded,
    lengthOf_eq _ _ hlt]
  rfl

/-- With it, the cells of the bucket hold the lengths of one more packet. -/
theorem Config.Inv.cells_push (h : c.Inv d) (hpc : d.proc.pc = .store) {j : Nat} (hj : j < d.proc.curPartial + 1) :
    setLen d.board.lens d.proc.cur d.proc.curPartial d.proc.len d.proc.cur j = lengthOf d.hist.sent (d.procBase + j) := by
  by_cases he : j = d.proc.curPartial
  · subst he
    rw [setLen_self, h.recorded.loaded hpc, h.window.accepted_eq]
  · rw [setLen_of_ne _ _ _ _ he]
    exact h.recorded.cells j (by omega)

/-- The last packet of a fill ends a group of 256. -/
theorem Config.Inv.fill_end_batch (h : c.Inv d) (he : d.hist.accepted + 1 = d.base) : (d.hist.accepted + 1) % 256 = 0 := by
  obtain ⟨b, hb⟩ := Nat.dvd_trans c.batch_dvd h.wrapped.base_dvd
  omega

/-- Line 185, the store of the length, and lines 190 to 193. -/
theorem Config.Inv.store (h : c.Inv d) (hpc : d.proc.pc = .store) :
    c.Inv { d with
      proc := { d.proc with
        pc := if (d.proc.curPartial + 1) % 2 ^ 32 % 256 = 0 then .publishClean else .poll
        curPartial := (d.proc.curPartial + 1) % 2 ^ 32
        rxDesc := d.proc.rxDesc + 1 }
      board := { d.board with lens := setLen d.board.lens d.proc.cur d.proc.curPartial d.proc.len }
      hist := { d.hist with
        accepted := d.hist.accepted + 1
        recorded := d.hist.recorded ++ [d.proc.len]
        procLog := d.hist.procLog ++
          [⟨d.proc.cur, d.proc.curPartial / c.numRxSlots, d.proc.curPartial % c.numRxSlots⟩] } } := by
  have hpub := h.wrapped.published (by rw [hpc]; decide)
  have ht : d.taken = d.hist.accepted + 1 := by simp [Driver.taken, hpc]
  have hlog := h.procLog_push hpc
  have hrec := h.recorded_push hpc
  have hcells := fun j => h.cells_push hpc (j := j)
  have hfill := h.fill_end_batch
  have hclose : c.NextFill d → d.hist.accepted ≠ d.base := fun hn => hn.not_closing (by rw [hpc]; decide)
  rw [Nat.mod_eq_of_lt h.curPartial_lt, h.batch_mod]
  obtain ⟨w, p, ag, r, l, g⟩ := h
  obtain ⟨k, hk⟩ := p.cleaned_dvd
  have hle := w.cleaned_le
  generalize hq : (if (d.hist.accepted + 1) % 256 = 0 then ProcPc.publishClean else .poll) = q
  have hcase : (q = .publishClean ∧ (d.hist.accepted + 1) % 256 = 0) ∨ (q = .poll ∧ (d.hist.accepted + 1) % 256 ≠ 0) := by
    by_cases hz : (d.hist.accepted + 1) % 256 = 0
    · rw [if_pos hz] at hq
      exact Or.inl ⟨hq.symm, hz⟩
    · rw [if_neg hz] at hq
      exact Or.inr ⟨hq.symm, hz⟩
  clear hq
  generalize hd' : ({ d with
      proc := { d.proc with pc := q, curPartial := d.proc.curPartial + 1, rxDesc := d.proc.rxDesc + 1 }
      board := { d.board with lens := setLen d.board.lens d.proc.cur d.proc.curPartial d.proc.len }
      hist := { d.hist with
        accepted := d.hist.accepted + 1
        recorded := d.hist.recorded ++ [d.proc.len]
        procLog := d.hist.procLog ++
          [⟨d.proc.cur, d.proc.curPartial / c.numRxSlots, d.proc.curPartial % c.numRxSlots⟩] } } : Driver) = d'
  have ht' : d'.taken = d.taken := by
    rw [ht]
    subst hd'
    rcases hcase with ⟨rfl, -⟩ | ⟨rfl, -⟩ <;> rfl
  have hring : c.Ringed d' := by
    refine r.of_words ht' ?_ ?_ ?_ ?_ ?_ <;> subst hd'
    exacts [fun _ => ⟨rfl, rfl⟩, rfl, rfl, rfl, Nat.le_succ _]
  have hwin : c.Window d' := by
    refine ⟨?_, ?_, ?_, ?_, ?_, ?_, ?_, ht' ▸ ?_, ?_, ?_⟩ <;> subst hd'
    exacts [w.armed_eq, w.tailed_eq, w.room, w.batch, w.ending, w.inRow, Nat.le_succ_of_le w.cleaned_le, w.taken_le, w.sent_le,
      congrArg (· + 1) w.accepted_eq]
  subst hd'
  have hsame : c.NextFill d → d.hist.accepted + 1 ≤ d.base := fun hn => by
    have h1 := hn.behind
    have h2 := hclose hn
    omega
  -- the end of a group is published before the next packet, and only it
  rcases hcase with ⟨rfl, hz⟩ | ⟨rfl, hz⟩
  · refine ⟨hwin, ⟨p.1, p.2, p.3, p.4, fun _ => ⟨?_, ?_⟩, fun h' => absurd rfl h', ?_, fun _ => Nat.succ_ne_zero _, p.9, p.10, p.11,
        p.12⟩,
      ⟨ag.first, ag.starts, ?_, nofun, ag.rowPc, ag.maxRow_le, ag.allocLog, ag.places, hlog⟩, hring,
      ⟨l.1, hrec, nofun, hcells⟩, ⟨g.1, g.2, g.3, g.4, g.5⟩⟩ <;> dsimp only
    · omega
    · rw [Nat.add_sub_cancel, hpub.2]
    · rintro (h' | h') <;> cases h'
    · exact ag.fills.imp (fun hs => hs) fun hn => ⟨hn.1, hn.2, hn.3, hn.4, hn.5, hsame hn, fun _ => Or.inl rfl⟩
  · refine ⟨hwin, ⟨p.1, p.2, p.3, p.4, nofun, fun _ => ⟨?_, ?_⟩, ?_, ?_, p.9, p.10, p.11, p.12⟩,
      ⟨ag.first, ag.starts, ?_, nofun, ag.rowPc, ag.maxRow_le, ag.allocLog, ag.places, hlog⟩, hring,
      ⟨l.1, hrec, nofun, hcells⟩, ⟨g.1, g.2, g.3, g.4, g.5⟩⟩ <;> dsimp only
    · omega
    · rw [c.succ_mod_of_batch hz, hpub.2]
    · rintro (h' | h') <;> cases h'
    · rintro (h' | h' | h') <;> cases h'
    · exact ag.fills.imp (fun hs => hs) fun hn => ⟨hn.1, hn.2, hn.3, hn.4, hn.5, hsame hn, fun he => absurd (hfill he) hz⟩

/-! ## The end of a group, of a row and of a bucket -/

/-- The descriptor pointer is one behind the last descriptor: at the end of a lap it has left the ring. -/
theorem Config.pred_mod_add_one (c : Config) {n : Nat} (h : n ≠ 0) :
    (n - 1) % c.numRxSlots + 1 = n % c.numRxSlots + if n % c.numRxSlots = 0 then c.numRxSlots else 0 := by
  have hsucc := c.succ_mod (n - 1)
  rw [Nat.sub_add_cancel (Nat.pos_of_ne_zero h)] at hsucc
  by_cases he : (n - 1) % c.numRxSlots + 1 = c.numRxSlots
  · rw [if_pos he] at hsucc
    rw [hsucc, if_pos rfl, he, Nat.zero_add]
  · rw [if_neg he] at hsucc
    rw [hsucc, if_neg (Nat.succ_ne_zero _), Nat.add_zero]

/-- The variables of the recording thread behind lines 194 to 196: at the end of a row the descriptor pointer goes back to the
start of the ring. -/
theorem Config.Inv.publish_vars (h : c.Inv d) (hpc : d.proc.pc = .publishClean) {t : ProcThread}
    (ht : t = if c.mask d.proc.curPartial = 0
      then { d.proc with pc := .compareRow, rxDesc := d.proc.rxDesc - c.numRxSlots } else { d.proc with pc := .poll }) :
    t.curPartial = d.proc.curPartial ∧ t.cur = d.proc.cur ∧ t.rxDesc = d.hist.accepted % c.numRxSlots ∧
      (t.pc = .compareRow ∧ d.hist.accepted % c.numRxSlots = 0 ∨ t.pc = .poll ∧ d.hist.accepted % c.numRxSlots ≠ 0) := by
  have hpub := h.wrapped.publishing hpc
  have hptr := c.pred_mod_add_one (n := d.hist.accepted) (by omega)
  unfold Config.mask at ht
  rw [h.curPartial_mod] at ht
  by_cases hz : d.hist.accepted % c.numRxSlots = 0
  · rw [if_pos hz] at ht
    rw [if_pos hz, ← hpub.2, hz] at hptr
    subst ht
    refine ⟨rfl, rfl, ?_, Or.inl ⟨rfl, hz⟩⟩
    dsimp only
    omega
  · rw [if_neg hz] at ht
    rw [if_neg hz, ← hpub.2] at hptr
    subst ht
    exact ⟨rfl, rfl, hptr, Or.inr ⟨rfl, hz⟩⟩

/-- Lines 194 to 196: the position is published. -/
theorem Config.Inv.publishClean (h : c.Inv d) (hpc : d.proc.pc = .publishClean) :
    c.Inv { d with
      proc := if c.mask d.proc.curPartial = 0
        then { d.proc with pc := .compareRow, rxDesc := d.proc.rxDesc - c.numRxSlots } else { d.proc with pc := .poll }
      nextToClean := d.proc.curPartial % 2 ^ 16
      hist := { d.hist with cleaned := d.hist.accepted } } := by
  have hpub := h.wrapped.publishing hpc
  have hcount := h.wrapped.counting (Or.inl hpc)
  have ht : d.taken = d.hist.accepted := Driver.taken_of_ne (by rw [hpc]; decide)
  have hmod := h.curPartial_mod
  generalize hpr : (if c.mask d.proc.curPartial = 0
      then { d.proc with pc := .compareRow, rxDesc := d.proc.rxDesc - c.numRxSlots } else { d.proc with pc := .poll }) = pr
  obtain ⟨hcur, hbucket, hrx, hcase⟩ := h.publish_vars hpc hpr.symm
  clear hpr
  obtain ⟨w, p, ag, r, l, g⟩ := h
  have hne : ¬(pr.pc = .load ∨ pr.pc = .store) ∧ pr.pc ≠ .publishClean ∧ pr.pc ≠ .resetRow ∧ pr.pc ≠ .store := by
    rcases hcase with ⟨hq, -⟩ | ⟨hq, -⟩ <;> rw [hq] <;> decide
  have ht' : Driver.taken { d with
      proc := pr, nextToClean := d.proc.curPartial % 2 ^ 16
      hist := { d.hist with cleaned := d.hist.accepted } } = d.taken := by
    rw [ht]
    simp [Driver.taken, hne.1]
  have hroom : ∀ n, n < d.hist.cleaned + c.numRxSlots → n < d.hist.accepted + c.numRxSlots :=
    fun n hn => Nat.lt_of_lt_of_le hn (Nat.add_le_add_right w.cleaned_le _)
  refine ⟨⟨w.1, w.2, hroom _ w.room, fun hr => ?_, w.5, w.6, Nat.le_refl _, ht' ▸ w.taken_le, w.9, hcur ▸ w.accepted_eq⟩,
    ⟨p.1, p.2, ?_, ?_, fun h' => absurd h' hne.2.1, fun _ => ⟨Nat.lt_add_of_pos_right (by decide), hrx⟩, fun h' => ?_,
      fun _ => hcur ▸ hcount, p.9, p.10, p.11, hbucket ▸ p.12⟩,
    ⟨ag.first, ag.starts, ?_, fun h' => absurd h' hne.2.2.1, ag.rowPc, ag.maxRow_le, ag.allocLog, ag.places, ag.procLog⟩,
    r.of_words ht' (fun _ => ⟨rfl, rfl⟩) rfl rfl rfl (Nat.le_refl _),
    ⟨l.1, l.2, fun h' => absurd h' hne.2.2.2, ?_⟩, ⟨g.1, g.2, g.3, g.4, g.5⟩⟩
  · obtain ⟨h1, h2, h3, h4⟩ := w.batch hr
    exact ⟨h1, h2, h3, hroom _ h4⟩
  · dsimp only
    rw [Nat.mod_mod_of_dvd _ c.slots_dvd, hmod]
  · dsimp only
    rw [hpub.1]
    exact Nat.dvd_add p.cleaned_dvd (Nat.dvd_refl _)
  · rcases hcase with ⟨-, hz⟩ | ⟨hq, -⟩
    · exact Nat.dvd_of_mod_eq_zero hz
    · rcases h' with h' | h' <;> exact absurd (hq.symm.trans h') (by decide)
  · refine ag.fills.imp (fun hs => hs) fun hn => ⟨hn.1, hn.2, hn.3, hn.4, hn.5, hn.6, fun (he : d.hist.accepted = d.base) => ?_⟩
    rcases hcase with ⟨hq, -⟩ | ⟨-, hz⟩
    · exact Or.inr (Or.inl hq)
    · rw [he] at hz
      exact absurd (Nat.mod_eq_zero_of_dvd p.base_dvd) hz
  · dsimp only
    rw [hcur, hbucket]
    exact l.cells

/-- Line 198: `max_row` is the position of the recording thread only when the refill thread has left the bucket. -/
theorem Config.Inv.matchRow (h : c.Inv d) (hpc : d.proc.pc = .compareRow) (hm : d.maxRow = d.proc.curPartial) :
    c.NextFill d ∧ d.hist.accepted = d.base := by
  have hacc := h.window.accepted_eq
  rcases h.agreed.fills with ⟨hs, hset⟩ | hn
  · have hlt := h.accepted_lt
    have hbase := h.procBase_eq hs
    have hpos := h.wrapped.counting (Or.inr (Or.inl hpc))
    rcases hset with h0 | ⟨h1, -, -⟩
    · omega
    · omega
  · refine ⟨hn, ?_⟩
    have := hn.size
    omega

theorem Config.Inv.compareMatch (h : c.Inv d) (hpc : d.proc.pc = .compareRow) (hm : d.maxRow = d.proc.curPartial) :
    c.Inv { d with proc := { d.proc with pc := .resetRow } } := by
  obtain ⟨hnext, hat⟩ := h.matchRow hpc hm
  have hpub := h.wrapped.published (by rw [hpc]; decide)
  have hcomp := h.wrapped.comparing (Or.inl hpc)
  have hcount := h.wrapped.counting (Or.inr (Or.inl hpc))
  have ht : Driver.taken { d with proc := { d.proc with pc := .resetRow } } = d.taken := by
    simp [Driver.taken, hpc]
  obtain ⟨w, p, ag, r, l, g⟩ := h
  have hnext' : c.NextFill { d with proc := { d.proc with pc := .resetRow } } :=
    ⟨hnext.1, hnext.2, hnext.3, hnext.4, hnext.5, hnext.6, fun _ => Or.inr (Or.inr rfl)⟩
  exact ⟨⟨w.1, w.2, w.3, w.4, w.5, w.6, w.7, ht ▸ w.taken_le, w.9, w.10⟩,
    ⟨p.1, p.2, p.3, p.4, nofun, fun _ => hpub, fun _ => hcomp, fun _ => hcount, p.9, p.10, p.11, p.12⟩,
    ⟨ag.first, ag.starts, Or.inr hnext', fun _ => ⟨hnext', hat⟩, ag.rowPc, ag.maxRow_le, ag.allocLog, ag.places, ag.procLog⟩,
    ⟨ht ▸ r.accepted, ht ▸ r.written, r.3, r.4, r.5⟩, ⟨l.1, l.2, nofun, l.4⟩, ⟨g.1, g.2, g.3, g.4, g.5⟩⟩

/-- Lines 206 to 209: the recording thread goes to the next bucket, where the refill thread already is, in its first row. -/
theorem Config.Inv.resetRow (h : c.Inv d) (hpc : d.proc.pc = .resetRow) :
    c.Inv { d with
      proc := { d.proc with pc := .poll, curPartial := 0, cur := c.nextCur d.proc.cur }
      maxRow := 0
      hist := { d.hist with
        procFill := d.hist.procFill + 1
        procStart := Function.update d.hist.procStart (d.hist.procFill + 1) d.hist.accepted } } := by
  obtain ⟨hnext, hat⟩ := h.agreed.resetting hpc
  have hpub := h.wrapped.published (by rw [hpc]; decide)
  have hcomp := h.wrapped.comparing (Or.inr hpc)
  obtain ⟨w, p, ag, r, l, g⟩ := h
  generalize hd' : ({ d with
      proc := { d.proc with pc := .poll, curPartial := 0, cur := c.nextCur d.proc.cur }
      maxRow := 0
      hist := { d.hist with
        procFill := d.hist.procFill + 1
        procStart := Function.update d.hist.procStart (d.hist.procFill + 1) d.hist.accepted } } : Driver) = d'
  have hb' : d'.procBase = d.hist.accepted := by
    subst hd'
    exact Function.update_self ..
  have ht' : d'.taken = d.taken := by
    subst hd'
    simp [Driver.taken, hpc]
  have hring : c.Ringed d' := by
    refine r.of_words ht' ?_ ?_ ?_ ?_ ?_ <;> subst hd'
    exacts [fun _ => ⟨rfl, rfl⟩, rfl, rfl, rfl, Nat.le_refl _]
  have hwin : c.Window d' := by
    refine ⟨?_, ?_, ?_, ?_, ?_, ?_, ?_, ht' ▸ ?_, ?_, hb' ▸ ?_⟩ <;> subst hd'
    exacts [w.armed_eq, w.tailed_eq, w.room, w.batch, w.ending, w.inRow, w.cleaned_le, w.taken_le, w.sent_le, rfl]
  have hstarts : ∀ f ≤ d.hist.procFill + 1, d'.hist.procStart f = d.hist.allocStart f := by
    intro f hf
    by_cases he : f = d.hist.procFill + 1
    · subst he hd'
      refine (Function.update_self ..).trans ?_
      rw [hat, Driver.base, hnext.next]
    · subst hd'
      exact (Function.update_of_ne he ..).trans (ag.starts f (by omega))
  have hdvd : c.numRxSlots ∣ d'.procBase := by
    rw [hb']
    exact hcomp
  subst hd'
  refine ⟨hwin, ⟨p.1, hdvd, p.3, p.4, nofun, fun _ => hpub, ?_, ?_, p.9, p.10, p.11, ?_⟩,
    ⟨ag.first, hstarts, Or.inl ⟨hnext.next, Or.inl rfl⟩, nofun, ag.rowPc, Nat.zero_le _, ag.allocLog,
      fun f hf => ag.places f (Nat.le_of_succ_le hf), ag.procLog⟩, hring,
    ⟨l.1, l.2, nofun, nofun⟩, ⟨g.1, g.2, g.3, fun _ _ _ x _ _ => ?_, g.5⟩⟩
  · rintro (h' | h') <;> cases h'
  · rintro (h' | h' | h') <;> cases h'
  · show c.nextCur d.proc.cur = c.bucketOf (d.hist.procFill + 1)
    rw [p.proc_cur, c.nextCur_bucketOf]
  · have h0 : d.alloc.supRow = 0 := hnext.row
    simp only [h0]
    exact Nat.zero_le _

/-- Every access of the recording thread keeps the invariant, if a descriptor that it accepts was written back. -/
theorem Config.Inv.procStep (h : c.Inv d) {d' : Driver} (hs : c.procStep d = some d')
    (hacc : d.proc.pc = .poll → (d.ring d.proc.rxDesc).dd = true → d.hist.slot d.proc.rxDesc = .written) : c.Inv d' := by
  unfold Config.procStep at hs
  cases hpc : d.proc.pc <;> rw [hpc] at hs <;> simp only [Option.some.injEq, reduceCtorEq] at hs
  case waitStart | waitStop | outer =>
    subst hs
    exact h.procLocal _ (by split <;> rfl) (Or.inl (by rw [hpc]; rfl)) (fun hn => hn.not_closing (by rw [hpc]; decide)) _ _ _
  case poll =>
    by_cases hdd : (d.ring d.proc.rxDesc).dd = true
    · rw [if_pos hdd, Option.some.injEq] at hs
      exact hs ▸ h.accept hpc (hacc hpc hdd)
    · rw [if_neg hdd, Option.some.injEq] at hs
      subst hs
      exact h.procLocal _ rfl (Or.inl (by rw [hpc]; rfl)) (fun hn => hn.not_closing (by rw [hpc]; decide)) _ _ _
  case load => exact hs ▸ h.load hpc
  case store => exact hs ▸ h.store hpc
  case publishClean => exact hs ▸ h.publishClean hpc
  case compareRow =>
    by_cases hm : d.maxRow = d.proc.curPartial
    · rw [if_pos hm] at hs
      exact hs ▸ h.compareMatch hpc hm
    · rw [if_neg hm] at hs
      subst hs
      refine h.procLocal _ rfl (Or.inr hpc) (fun hn he => hm ?_) _ _ _
      have h1 := hn.size
      have h2 := h.window.accepted_eq
      omega
  case resetRow => exact hs ▸ h.resetRow hpc
  case setCaptured | setLast =>
    subst hs
    exact h.procLocal _ rfl (Or.inl (by rw [hpc]; rfl)) (fun hn => hn.not_closing (by rw [hpc]; decide)) _ _ _

/-! ## The adapter -/

theorem lengthOf_append_left (pkts : List (List UInt8)) (p : List UInt8) {j : Nat} (h : j < pkts.length) :
    lengthOf (pkts ++ [p]) j = lengthOf pkts j := by
  simp [lengthOf, List.getD, List.getElem?_append_left h]

/-- The bytes below a row do not depend on packets that come after the row. -/
theorem slotBytes_append (slots : Nat) (pkts : List (List UInt8)) (p : List UInt8) (base slot : Nat) :
    ∀ row, (∀ r < row, base + (r * slots + slot) < pkts.length) →
      slotBytes slots (fun j => lengthOf (pkts ++ [p]) (base + j)) slot row =
        slotBytes slots (fun j => lengthOf pkts (base + j)) slot row
  | 0, _ => rfl
  | row + 1, h => by
    have ih := slotBytes_append slots pkts p base slot row fun r hr => h r (by omega)
    simp only [slotBytes, ih, lengthOf_append_left pkts p (h row (by omega))]

/-- What the refill thread has added up so far is about packets that were recorded. -/
theorem Config.Inv.held_lt (h : c.Inv d) {x row : Nat} (hrow : row ≤ d.alloc.supRow) (hx : x < c.numRxSlots)
    (hlast : row = d.alloc.supRow → x ≤ d.alloc.rowArmed) :
    ∀ r < row, d.base + (r * c.numRxSlots + x) < d.hist.sent.length := by
  intro r hr
  have ho := h.order
  have harm := h.window.armed_eq
  have h1 := Nat.mul_le_mul_right c.numRxSlots (show r + 1 ≤ row by omega)
  rw [Nat.succ_mul] at h1
  by_cases he : row = d.alloc.supRow
  · have := hlast he
    rw [he] at h1
    omega
  · have h2 := Nat.mul_le_mul_right c.numRxSlots (show row + 1 ≤ d.alloc.supRow by omega)
    rw [Nat.succ_mul] at h2
    omega

/-- The slots that have been brought up to the row are re-armed, but for the one at work. -/
theorem AllocThread.rowGrown_le (a : AllocThread) : a.rowGrown ≤ a.rowArmed + 1 := by
  unfold AllocThread.rowGrown AllocThread.rowArmed
  cases a.pc <;> simp
  split <;> omega

/-- The adapter has a descriptor that has been shown to it. -/
theorem Config.Inv.sent_lt (h : c.Inv d) (hne : d.nicHead ≠ d.tail) : d.hist.sent.length < d.hist.tailed := by
  refine Nat.lt_of_le_of_ne h.window.sent_le fun he => hne ?_
  rw [h.wrapped.head_eq, h.wrapped.tail_eq, he]

/-- The step of the adapter, and that it is about a descriptor shown to it. -/
theorem Config.Inv.nicStep_eq (h : c.Inv d) {p : List UInt8} {d' : Driver} (hs : c.nicStep p d = some d') :
    d.hist.sent.length < d.hist.tailed ∧
      d' = { d with
        ring := Function.update d.ring d.nicHead { d.ring d.nicHead with dd := true, length := p.length }
        nicHead := c.mask (d.nicHead + 1)
        board := { d.board with ram := d.board.ram.store (d.ring d.nicHead).pktAddr p }
        hist := { d.hist with
          sent := d.hist.sent ++ [p]
          addrs := d.hist.addrs ++ [(d.ring d.nicHead).pktAddr]
          slot := Function.update d.hist.slot d.nicHead .written } } := by
  unfold Config.nicStep at hs
  by_cases hne : d.nicHead = d.tail
  · rw [if_pos hne] at hs
    cases hs
  · rw [if_neg hne, Option.some.injEq] at hs
    exact ⟨h.sent_lt hne, hs.symm⟩

/-- What the refill thread has added up does not depend on the packet delivered. -/
theorem Config.Inv.nicStep_grown (h : c.Inv d) {p : List UInt8} {d' : Driver} (hs : c.nicStep p d = some d') : c.Grown d' := by
  obtain ⟨-, hd'⟩ := h.nicStep_eq hs
  have hheld : ∀ x row, row ≤ d.alloc.supRow → x < c.numRxSlots → (row = d.alloc.supRow → x < d.alloc.rowGrown) →
      c.held d' x row = c.held d x row := by
    intro x row h1 h2 h3
    subst hd'
    refine slotBytes_append _ _ _ _ _ _ (h.held_lt h1 h2 fun he => ?_)
    have := h3 he
    have := d.alloc.rowGrown_le
    omega
  have halloc : d'.alloc = d.alloc ∧ d'.maxRow = d.maxRow := by
    subst hd'
    exact ⟨rfl, rfl⟩
  have g := h.grown
  refine ⟨?_, ?_, ?_, ?_, ?_⟩ <;> rw [halloc.1]
  · intro x hx hxN
    rw [hheld x _ (Nat.le_refl _) hxN fun _ => hx]
    exact g.grown x hx hxN
  · intro h0 x hx hxN
    rw [hheld x _ (Nat.sub_le _ _) hxN fun he => by omega]
    exact g.old h0 x hx hxN
  · intro row hrow x hx
    rw [hheld x row (Nat.le_of_lt hrow) hx fun he => by omega]
    exact g.rows row hrow x hx
  · intro hm h1 h2 x hx hxN
    rw [hheld x _ (Nat.le_refl _) hxN fun _ => hx]
    exact g.notOver (halloc.2 ▸ hm) h1 h2 x hx hxN
  · intro hpc
    have hb := h.window.batch (by rcases hpc with hpc | hpc <;> rw [hpc] <;> rfl)
    have hx : d.alloc.supPartial < d.alloc.rowGrown := by
      rcases hpc with hpc | hpc <;> simp [AllocThread.rowGrown, hpc]
    rw [hheld _ _ (Nat.le_refl _) (by omega) fun _ => hx]
    exact g.beyond hpc

/-- The descriptor written back is the first of the armed ones. -/
theorem Config.Inv.nicStep_ringed (h : c.Inv d) {p : List UInt8} {d' : Driver} (hs : c.nicStep p d = some d') : c.Ringed d' := by
  obtain ⟨hlt, rfl⟩ := h.nicStep_eq hs
  have ho := h.order
  have hhead := h.wrapped.head_eq
  have hlen : (d.hist.sent ++ [p]).length = d.hist.sent.length + 1 := List.length_append
  have hslot : ∀ i, i % c.numRxSlots ≠ d.hist.sent.length % c.numRxSlots → i % c.numRxSlots ≠ d.nicHead := fun i hi => hhead ▸ hi
  have r := h.ringed
  refine ⟨fun i (hi : i < d.taken) (hlap : d.hist.armed ≤ i + c.numRxSlots) => ?_,
    fun i (hi : d.taken ≤ i) (hi' : i < (d.hist.sent ++ [p]).length) => ?_,
    fun i (hi : (d.hist.sent ++ [p]).length ≤ i) (hi' : i < d.hist.armed) => ?_, fun x (hx : d.hist.armed ≤ x) hxN => ?_,
    fun i (hi : d.hist.accepted ≤ i) (hi' : i < (d.hist.sent ++ [p]).length) => ?_⟩
  · simp only [Function.update_of_ne (hslot i (slot_ne_of_lt (by omega) (by omega)))]
    exact r.accepted i hi hlap
  · by_cases he : i = d.hist.sent.length
    · rw [he, ← hhead]
      simp only [Function.update_self, and_self]
    · simp only [Function.update_of_ne (hslot i (slot_ne_of_lt (by omega) (by omega)))]
      exact r.written i hi (by omega)
  · simp only [Function.update_of_ne (hslot i (Ne.symm (slot_ne_of_lt (by omega) (by omega))))]
    exact r.armed i (by omega) hi'
  · have hx' : x ≠ d.nicHead := by
      rw [hhead, Nat.mod_eq_of_lt (by omega)]
      omega
    simp only [Function.update_of_ne hx']
    exact r.fresh x hx hxN
  · by_cases he : i = d.hist.sent.length
    · subst he
      simp only [← hhead, Function.update_self]
      simp [lengthOf, List.getD]
    · simp only [Function.update_of_ne (hslot i (slot_ne_of_lt (by omega) (by omega)))]
      rw [r.length i hi (by omega)]
      exact (lengthOf_append_left _ _ (by omega)).symm

/-- What has been recorded is about the packets before the one delivered. -/
theorem Config.Inv.nicStep_recorded (h : c.Inv d) {p : List UInt8} (hp : Deliverable p) {d' : Driver}
    (hs : c.nicStep p d = some d') : c.Recorded d' := by
  obtain ⟨-, rfl⟩ := h.nicStep_eq hs
  have ho := h.order
  have hacc := h.window.accepted_eq
  have l := h.recorded
  refine ⟨fun x hx => ?_, ?_, fun (hpc : d.proc.pc = .store) => ?_, fun j (hj : j < d.proc.curPartial) => ?_⟩
  · rcases List.mem_append.mp hx with hx | hx
    · exact l.deliverable x hx
    · rw [List.mem_singleton] at hx
      exact hx ▸ hp
  · dsimp only
    rw [List.map_append, List.take_append_of_le_length (by rw [List.length_map]; omega)]
    exact l.recorded
  · have ht : d.taken = d.hist.accepted + 1 := by simp [Driver.taken, hpc]
    exact (l.loaded hpc).trans (lengthOf_append_left _ _ (by omega)).symm
  · exact (l.cells j hj).trans (lengthOf_append_left _ _ (by omega)).symm

/-- The adapter writes back a packet. -/
theorem Config.Inv.nicStep (h : c.Inv d) {p : List UInt8} (hp : Deliverable p) {d' : Driver}
    (hs : c.nicStep p d = some d') : c.Inv d' := by
  have hring := h.nicStep_ringed hs
  have hrec := h.nicStep_recorded hp hs
  have hgrown := h.nicStep_grown hs
  obtain ⟨hlt, rfl⟩ := h.nicStep_eq hs
  have hlen : (d.hist.sent ++ [p]).length = d.hist.sent.length + 1 := List.length_append
  obtain ⟨w, q, ag, -, -, -⟩ := h
  refine ⟨⟨w.1, w.2, w.3, w.4, w.5, w.6, w.7, ?_, ?_, w.10⟩,
    ⟨q.1, q.2, q.3, q.4, q.5, q.6, q.7, q.8, ?_, q.10, q.11, q.12⟩,
    ⟨ag.first, ag.starts, ag.fills.imp (fun hs => hs) (fun hn => ⟨hn.1, hn.2, hn.3, hn.4, hn.5, hn.6, hn.7⟩),
      fun hr => (ag.resetting hr).imp (fun hn => ⟨hn.1, hn.2, hn.3, hn.4, hn.5, hn.6, hn.7⟩) (fun he => he), ag.rowPc,
      ag.maxRow_le, ag.allocLog, ag.places, ag.procLog⟩, hring, hrec, hgrown⟩
  · exact hlen ▸ Nat.le_succ_of_le w.taken_le
  · exact hlen ▸ hlt
  · dsimp only
    rw [hlen, Config.mask, q.head_eq, Nat.mod_add_mod]

/-! ## The programs and the start -/

/-- The commands and the programs change only the part of the shared memory that the capture threads do not agree by. -/
theorem Config.Inv.boardStep (h : c.Inv d) (b b' : Bool) (captured stalled : Nat → Nat) :
    c.Inv { d with board := { d.board with userStart := b, userStop := b', captured := captured, stalled := stalled } } := by
  obtain ⟨w, q, ag, r, l, g⟩ := h
  exact ⟨⟨w.1, w.2, w.3, w.4, w.5, w.6, w.7, w.8, w.9, w.10⟩,
    ⟨q.1, q.2, q.3, q.4, q.5, q.6, q.7, q.8, q.9, q.10, q.11, q.12⟩,
    ⟨ag.first, ag.starts, ag.fills.imp (fun hs => hs) (fun hn => ⟨hn.1, hn.2, hn.3, hn.4, hn.5, hn.6, hn.7⟩),
      fun hr => (ag.resetting hr).imp (fun hn => ⟨hn.1, hn.2, hn.3, hn.4, hn.5, hn.6, hn.7⟩) (fun he => he),
      ag.rowPc, ag.maxRow_le, ag.allocLog, ag.places, ag.procLog⟩, ⟨r.1, r.2, r.3, r.4, r.5⟩, ⟨l.1, l.2, l.3, l.4⟩,
    ⟨g.1, g.2, g.3, g.4, g.5⟩⟩

/-- The invariant holds at the start. -/
theorem Config.inv_start (c : Config) (lens : Nat → Nat → Nat) (ram : Mem) : c.Inv (c.startDriver lens ram) := by
  have hpos := c.slots_pos
  refine ⟨⟨?_, rfl, ?_, nofun, nofun, fun _ => hpos, Nat.le_refl _, Nat.le_refl _, Nat.le_refl _, rfl⟩,
    ⟨Nat.dvd_zero _, Nat.dvd_zero _, rfl, Nat.dvd_zero _, nofun,
      fun _ => ⟨Nat.lt_add_of_pos_right (by decide), (Nat.zero_mod _).symm⟩, ?_, ?_, (Nat.zero_mod _).symm, (Nat.zero_mod _).symm, ?_, ?_⟩,
    ⟨rfl, fun _ _ => rfl, Or.inl ⟨rfl, Or.inl rfl⟩, nofun, ?_, Nat.zero_le _, rfl,
      fun _ _ _ _ _ h => absurd h (Nat.not_lt_zero _), rfl⟩,
    ⟨fun _ h => absurd h (Nat.not_lt_zero _), fun _ _ h => absurd h (Nat.not_lt_zero _),
      fun _ _ h => absurd h (Nat.not_lt_zero _), fun _ _ _ => ⟨rfl, rfl⟩, fun _ _ h => absurd h (Nat.not_lt_zero _)⟩,
    ⟨nofun, rfl, nofun, nofun⟩, ⟨nofun, fun h0 => absurd rfl h0, nofun, fun _ _ _ => nofun, ?_⟩⟩
  · simp [Config.startDriver, Driver.base, AllocThread.rowArmed]
  · show 0 < 0 + c.numRxSlots
    omega
  · rintro (h' | h') <;> cases h'
  · rintro (h' | h' | h') <;> cases h'
  · simp [Config.startDriver, Config.bucketOf]
  · simp [Config.startDriver, Config.bucketOf]
  · rintro (h' | h' | h') <;> cases h'
  · rintro (h' | h') <;> cases h'

end NicRecorder
