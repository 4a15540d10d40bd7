import NicRecorder.Lemmas.Invariant

/-!
# The refill thread keeps the invariant

One statement for each access of `nlsim_alloc_thread`. The accesses outside the loop over slots change only the program counter
(`Inv.allocQuiet`). Three carry the argument: the count that line 93 computes is the room left in the window
(`refill_room`), the length that line 102 adds is the length of the packet one row before (`grown_eq`), and the test at the end
of a row sees a `max_row` of the current row (`Inv.endRow`).
-/

namespace NicRecorder

open ByteMem

variable {c : Config} {d : Driver}

/-! ## Program counters -/

theorem AllocThread.pending_idle {a : AllocThread} (h : a.pc.idle = true) : a.pending = 0 := by
  unfold AllocThread.pending
  cases hp : a.pc <;> simp_all [AllocPc.idle]

theorem AllocThread.rowArmed_of_ne {a : AllocThread} (h : a.pc ≠ .setAddr) : a.rowArmed = a.supPartial := by
  simp [AllocThread.rowArmed, h]

theorem AllocThread.rowGrown_idle {a : AllocThread} (h : a.pc.idle = true) : a.rowGrown = a.supPartial := by
  unfold AllocThread.rowGrown
  cases hp : a.pc <;> simp_all [AllocPc.idle]

theorem AllocPc.ne_of_idle {q : AllocPc} (h : q.idle = true) :
    q.refilling = false ∧ q ≠ .accumulate ∧ q ≠ .setCaptured ∧ q ≠ .setMaxRow ∧ q ≠ .clearHdr ∧ q ≠ .setAddr ∧
      q ≠ .endRow ∧ q ≠ .writeTail := by
  cases q <;> simp_all [AllocPc.idle, AllocPc.refilling]

/-- The state of the refill thread before it works on a slot. -/
theorem AllocThread.at_slot {a : AllocThread} (h : a.pc = slotPc a.supRow) :
    a.pending = a.i ∧ a.rowArmed = a.supPartial ∧ a.rowGrown = a.supPartial ∧ a.pc.idle = false ∧
      a.pc ≠ .endRow ∧ a.pc ≠ .writeTail ∧ a.pc ≠ .setCaptured ∧ a.pc ≠ .setMaxRow := by
  unfold AllocThread.pending AllocThread.rowArmed AllocThread.rowGrown
  rw [h]
  by_cases hr : a.supRow = 0 <;> simp [slotPc, hr, AllocPc.idle]

theorem slotPc_accumulate {r : Nat} (h : slotPc r = .accumulate ∨ slotPc r = .setCaptured ∨ slotPc r = .setMaxRow) :
    r ≠ 0 := by
  intro hr
  simp [slotPc, hr] at h

/-! ## Consequences of the invariant -/

/-- Two descriptors of one lap are different. -/
theorem slot_ne_of_lt {n i j : Nat} (h : i < j) (h' : j < i + n) : i % n ≠ j % n := by
  intro he
  have hz := Nat.sub_mod_eq_zero_of_mod_eq he.symm
  rw [Nat.mod_eq_of_lt (by omega)] at hz
  omega

/-- A bucket has few rows: every slot of a complete row grew by at least the shortest packet. -/
theorem Config.Inv.row_bound (h : c.Inv d) : d.alloc.supRow ≤ c.maxRows := by
  cases hr : d.alloc.supRow with
  | zero => exact Nat.zero_le _
  | succ r =>
    have hle := h.grown.rows r (by omega) 0 c.slots_pos
    have hlen : ∀ r' < r, minPacket ≤ lengthOf d.hist.sent (d.base + (r' * c.numRxSlots + 0)) := by
      intro r' hr'
      have hm := Nat.mul_le_mul_right c.numRxSlots (show r' + 1 + 1 ≤ d.alloc.supRow by omega)
      have h1 := h.window.armed_eq
      have h2 := h.window.room
      have h3 := h.window.cleaned_le
      have h4 := h.window.taken_le
      have h5 : d.hist.accepted ≤ d.taken := Nat.le_add_right _ _
      rw [Nat.succ_mul, Nat.succ_mul] at hm
      have hlt : d.base + (r' * c.numRxSlots + 0) < d.hist.sent.length := by omega
      rw [lengthOf_eq _ _ hlt]
      exact (h.recorded.deliverable _ (List.getElem_mem hlt)).1
    have := le_slotBytes c.numRxSlots minPacket (fun j => lengthOf d.hist.sent (d.base + j)) 0 r hlen
    unfold Config.held at hle
    have hm : minPacket * r ≤ c.byteLimit := Nat.le_trans this hle
    have := (Nat.le_div_iff_mul_le (show 0 < minPacket by decide)).mpr (Nat.mul_comm minPacket r ▸ hm)
    unfold Config.maxRows
    omega

/-- The bounds that keep the counters of a bucket inside their machine words. -/
theorem Config.maxRows_bounds (c : Config) :
    c.maxRows + 1 < 2 ^ 16 ∧ (c.maxRows + 2) * c.numRxSlots < 2 ^ 32 ∧ c.byteLimit + rxBufSize < 2 ^ 32 := by
  have hl := c.byteLimit_add
  unfold Config.maxRows minPacket
  unfold rxBufSize at hl ⊢
  rcases c.cases with ⟨hN, hB⟩ | ⟨hN, hB⟩ | ⟨hN, hB⟩ | ⟨hN, hB⟩ <;> rw [hN] <;> omega

/-- The longest bucket fits the part of the length block that is copied. -/
theorem Config.rows_inBlock (c : Config) : lenOff + 2 * ((c.maxRows + 1) * c.numRxSlots) ≤ lenBlockSize := by
  have hl := c.byteLimit_add
  unfold Config.maxRows minPacket lenOff lenBlockSize
  unfold rxBufSize at hl
  rcases c.cases with ⟨hN, hB⟩ | ⟨hN, hB⟩ | ⟨hN, hB⟩ | ⟨hN, hB⟩ <;> rw [hN] <;> omega

/-- The value stored for a closing row is the number of packets up to its end. -/
theorem Config.Inv.rowEnd_eq (h : c.Inv d) : c.rowEnd d.alloc.supRow = (d.alloc.supRow + 1) * c.numRxSlots := by
  have h1 := h.row_bound
  have h2 := c.maxRows_bounds.2.1
  have h3 := Nat.mul_le_mul_right c.numRxSlots (show d.alloc.supRow + 1 ≤ c.maxRows + 2 by omega)
  exact Nat.mod_eq_of_lt (by omega)

/-- The refill thread is at most one fill ahead. -/
theorem Config.Inv.procFill_le (h : c.Inv d) : d.hist.procFill ≤ d.hist.allocFill := by
  rcases h.agreed.fills with ⟨hs, -⟩ | hn
  · omega
  · have := hn.next
    omega

theorem Config.Inv.allocFill_le (h : c.Inv d) : d.hist.allocFill ≤ d.hist.procFill + 1 := by
  rcases h.agreed.fills with ⟨hs, -⟩ | hn
  · omega
  · have := hn.next
    omega

/-- In a later row the refill thread is in the fill of the other thread. -/
theorem Config.Inv.sameFill (h : c.Inv d) (hr : d.alloc.supRow ≠ 0) : c.SameFill d := by
  rcases h.agreed.fills with hs | hn
  · exact hs
  · exact absurd hn.row hr

/-- What the adapter may use ends in the row of the refill thread. -/
theorem Config.Inv.tailed_lt (h : c.Inv d) :
    d.hist.tailed < d.base + d.alloc.supRow * c.numRxSlots + c.numRxSlots := by
  have h1 := h.window.armed_eq
  have h2 := h.window.tailed_eq
  cases hpc : d.alloc.pc with
  | accumulate | setCaptured | setMaxRow | clearHdr =>
    have h3 := h.window.batch (by rw [hpc]; rfl)
    simp only [AllocThread.pending, AllocThread.rowArmed, hpc, reduceCtorEq, if_false] at h1 h2
    omega
  | setAddr =>
    have h3 := h.window.batch (by rw [hpc]; rfl)
    simp only [AllocThread.pending, AllocThread.rowArmed, hpc, if_true] at h1 h2
    omega
  | endRow =>
    have h3 := h.window.ending hpc
    simp only [AllocThread.pending, AllocThread.rowArmed, hpc, reduceCtorEq, if_false] at h1 h2
    omega
  | waitStart | waitStop | setStart | checkStop | setStop | readClean | exited | writeTail =>
    have h3 := h.window.inRow (by rw [hpc]; decide)
    simp only [AllocThread.pending, AllocThread.rowArmed, hpc, reduceCtorEq, if_false] at h1 h2
    omega

/-- The place in the row is the place in the ring. -/
theorem Config.Inv.supPartial_mod (h : c.Inv d) (hpc : d.alloc.pc ≠ .setAddr) (hlt : d.alloc.supPartial < c.numRxSlots) :
    d.alloc.supPartial = d.hist.armed % c.numRxSlots := by
  have harm := h.window.armed_eq
  rw [AllocThread.rowArmed_of_ne hpc] at harm
  obtain ⟨b, hb⟩ := h.wrapped.base_dvd
  rw [harm, hb, Nat.mul_comm d.alloc.supRow, ← Nat.mul_add, Nat.mul_add_mod, Nat.mod_eq_of_lt hlt]

/-- Line 93: the number of descriptors that can be re-armed is the room left in the window. -/
theorem Config.Inv.refill_room (h : c.Inv d) (hpc : d.alloc.pc.idle = true) :
    c.mask (c.numRxSlots + d.nextToClean - d.alloc.supPartial - 1) =
      d.hist.cleaned + c.numRxSlots - 1 - d.hist.armed := by
  have h1 := h.window.armed_eq
  have h2 := h.window.room
  have h3 := h.window.inRow (Or.inl hpc)
  have h4 := h.window.tailed_eq
  have h5 := h.window.sent_le
  have h6 := h.window.taken_le
  have h7 := h.window.cleaned_le
  have h8 : d.hist.accepted ≤ d.taken := Nat.le_add_right _ _
  rw [AllocThread.rowArmed_of_ne (AllocPc.ne_of_idle hpc).2.2.2.2.2.1] at h1
  rw [AllocThread.pending_idle hpc] at h4
  obtain ⟨b, hb⟩ := h.wrapped.base_dvd
  have hn := Nat.div_add_mod d.nextToClean c.numRxSlots
  have hc := Nat.div_add_mod d.hist.cleaned c.numRxSlots
  rw [h.wrapped.clean_mod] at hn
  have hlt := Nat.mod_lt d.hist.cleaned c.slots_pos
  generalize d.hist.cleaned % c.numRxSlots = r at hn hc hlt
  generalize d.nextToClean / c.numRxSlots = q1 at hn
  generalize d.hist.cleaned / c.numRxSlots = q2 at hc
  -- both sides are congruent to `cleaned - armed - 1`, and the right one is below the ring's length
  have e1 : c.numRxSlots + d.nextToClean - d.alloc.supPartial - 1 =
      (c.numRxSlots + r - d.alloc.supPartial - 1) + c.numRxSlots * q1 := by omega
  have e2 : (d.hist.cleaned + c.numRxSlots - 1 - d.hist.armed) + c.numRxSlots * (b + d.alloc.supRow) =
      (c.numRxSlots + r - d.alloc.supPartial - 1) + c.numRxSlots * q2 := by
    rw [Nat.mul_add, Nat.mul_comm c.numRxSlots d.alloc.supRow]
    omega
  have e3 := congrArg (· % c.numRxSlots) e2
  simp only [Nat.add_mul_mod_self_left] at e3
  unfold Config.mask
  rw [e1, Nat.add_mul_mod_self_left, ← e3, Nat.mod_eq_of_lt (by omega)]

/-- What the ring holds is in the words that the adapter writes back, and in how far the recording thread is. -/
theorem Config.Ringed.of_words (r : c.Ringed d) {d' : Driver} (ht : d'.taken = d.taken)
    (hring : ∀ x, (d'.ring x).dd = (d.ring x).dd ∧ (d'.ring x).length = (d.ring x).length)
    (hslot : d'.hist.slot = d.hist.slot) (harm : d'.hist.armed = d.hist.armed) (hsent : d'.hist.sent = d.hist.sent)
    (hle : d.hist.accepted ≤ d'.hist.accepted) : c.Ringed d' := by
  refine ⟨fun i hi hlap => ?_, fun i hi hi' => ?_, fun i hi hi' => ?_, fun x hx hxN => ?_, fun i hi hi' => ?_⟩
  · rw [hslot, (hring _).1]
    exact r.accepted i (ht ▸ hi) (harm ▸ hlap)
  · rw [hslot, (hring _).1]
    exact r.written i (ht ▸ hi) (hsent ▸ hi')
  · rw [hslot, (hring _).1]
    exact r.armed i (hsent ▸ hi) (harm ▸ hi')
  · rw [hslot, (hring _).1]
    exact r.fresh x (harm ▸ hx) hxN
  · rw [hsent, (hring _).2]
    exact r.length i (hle.trans hi) (hsent ▸ hi')

/-! ## Steps that leave the row as it is -/

/-- The refill thread goes to another access, and at most starts a batch: what the invariant says about its row stays. -/
theorem Config.Inv.allocLocal (h : c.Inv d) (q : AllocPc) (n k : Nat) (b b' : Bool) (captured pubFill : Nat → Nat)
    {a : AllocThread} (ha : a = { d.alloc with pc := q, count := n, i := k })
    (hcounts : a.rowArmed = d.alloc.rowArmed ∧ a.pending = d.alloc.pending ∧ a.rowGrown = d.alloc.rowGrown)
    (hbatch : q.refilling = true → k < n ∧ k ≤ d.alloc.supPartial ∧ d.alloc.supPartial + n ≤ c.numRxSlots + k ∧
      d.hist.tailed + n < d.hist.cleaned + c.numRxSlots)
    (hin : q.idle = true ∨ q = .writeTail → d.alloc.supPartial < c.numRxSlots) (hend : q ≠ .endRow)
    (hrow : q = .accumulate ∨ q = .setCaptured ∨ q = .setMaxRow → d.alloc.supRow ≠ 0)
    (hover : q = .setCaptured ∨ q = .setMaxRow ↔ d.alloc.pc = .setCaptured ∨ d.alloc.pc = .setMaxRow) :
    c.Inv { d with
      processStart := b, processStop := b', alloc := a
      board := { d.board with captured := captured }
      hist := { d.hist with pubFill := pubFill } } := by
  subst ha
  obtain ⟨harm, hpend, hgr⟩ := hcounts
  obtain ⟨w, p, ag, r, l, g⟩ := h
  refine ⟨⟨?_, ?_, w.room, hbatch, fun he => absurd he hend, hin, w.cleaned_le, w.taken_le, w.sent_le, w.accepted_eq⟩,
    ⟨p.1, p.2, p.3, p.4, p.5, p.6, p.7, p.8, p.9, p.10, p.11, p.12⟩,
    ⟨ag.first, ag.starts, ?_, ?_, hrow, ag.maxRow_le, ag.allocLog, ag.places, ag.procLog⟩, ⟨r.1, r.2, r.3, r.4, r.5⟩,
    ⟨l.1, l.2, l.3, l.4⟩, ⟨?_, ?_, g.rows, ?_, ?_⟩⟩
  · exact harm ▸ w.armed_eq
  · exact hpend ▸ w.tailed_eq
  · rcases ag.fills with hs | hn
    · exact Or.inl hs
    · exact Or.inr ⟨hn.1, hn.2, hn.3, hn.4, hn.5, hn.6, hn.7⟩
  · intro hr
    obtain ⟨hn, he⟩ := ag.resetting hr
    exact ⟨⟨hn.1, hn.2, hn.3, hn.4, hn.5, hn.6, hn.7⟩, he⟩
  · exact hgr ▸ g.grown
  · exact hgr ▸ g.old
  · intro hm h1 h2
    obtain ⟨h3, h4⟩ := not_or.mp (fun hq => (not_or.mpr ⟨h1, h2⟩) (hover.mpr hq))
    exact hgr ▸ g.notOver hm h3 h4
  · intro hq
    exact g.beyond (hover.mp hq)

/-- Outside the loop over slots the refill thread only looks at flags. -/
theorem Config.Inv.allocQuiet (h : c.Inv d) (hpc : d.alloc.pc.idle = true) (q : AllocPc) (hq : q.idle = true)
    (b b' : Bool) :
    c.Inv { d with processStart := b, processStop := b', alloc := { d.alloc with pc := q } } := by
  have hne := AllocPc.ne_of_idle hq
  have hne' := AllocPc.ne_of_idle hpc
  refine h.allocLocal q d.alloc.count d.alloc.i b b' d.board.captured d.hist.pubFill rfl ⟨?_, ?_, ?_⟩ ?_ ?_
    hne.2.2.2.2.2.2.1 ?_ ?_
  · rw [AllocThread.rowArmed_of_ne hne.2.2.2.2.2.1, AllocThread.rowArmed_of_ne hne'.2.2.2.2.2.1]
  · rw [AllocThread.pending_idle hq, AllocThread.pending_idle hpc]
  · rw [AllocThread.rowGrown_idle hq, AllocThread.rowGrown_idle hpc]
  · intro hr
    rw [hne.1] at hr
    cases hr
  · intro _
    exact h.window.inRow (Or.inl hpc)
  · rintro (h' | h' | h')
    · exact absurd h' hne.2.1
    · exact absurd h' hne.2.2.1
    · exact absurd h' hne.2.2.2.1
  · simp [hne.2.2.1, hne.2.2.2.1, hne'.2.2.1, hne'.2.2.2.1]

/-- Lines 93 to 99: the batch is neither larger than the room in the window nor than the rest of the row. -/
theorem Config.Inv.readClean (h : c.Inv d) (hpc : d.alloc.pc = .readClean)
    (hc : c.refillCount d.nextToClean d.alloc.supPartial ≠ 0) :
    c.Inv { d with alloc := { d.alloc with
      pc := slotPc d.alloc.supRow, count := c.refillCount d.nextToClean d.alloc.supPartial, i := 0 } } := by
  have hidle : d.alloc.pc.idle = true := by
    rw [hpc]
    rfl
  have hne := AllocPc.ne_of_idle hidle
  obtain ⟨hp, ha, hg, hid, hend, htail, hsc, hsm⟩ := AllocThread.at_slot
    (a := { d.alloc with
      pc := slotPc d.alloc.supRow, count := c.refillCount d.nextToClean d.alloc.supPartial, i := 0 }) rfl
  refine h.allocLocal _ _ 0 _ _ d.board.captured d.hist.pubFill rfl ⟨?_, ?_, ?_⟩ ?_ ?_ hend ?_ ?_
  · rw [ha, AllocThread.rowArmed_of_ne hne.2.2.2.2.2.1]
  · rw [hp, AllocThread.pending_idle hidle]
  · rw [hg, AllocThread.rowGrown_idle hidle]
  · intro _
    have h1 := h.window.inRow (Or.inl hidle)
    have h2 := h.window.tailed_eq
    rw [AllocThread.pending_idle hidle] at h2
    have h3 := h.window.room
    have hroom := h.refill_room hidle
    unfold Config.refillCount at hc ⊢
    rw [hroom] at hc ⊢
    refine ⟨Nat.pos_of_ne_zero hc, Nat.zero_le _, ?_, ?_⟩ <;> omega
  · rintro (h' | h')
    · rw [hid] at h'
      cases h'
    · exact absurd h' htail
  · exact slotPc_accumulate
  · simp [hsc, hsm, hpc]

/-- The store that publishes the bucket (line 104) is not part of the agreement of the threads. -/
theorem Config.Inv.allocCaptured (h : c.Inv d) (hpc : d.alloc.pc = .setCaptured) (captured pubFill : Nat → Nat) :
    c.Inv { d with
      alloc := { d.alloc with pc := .setMaxRow }
      board := { d.board with captured := captured }
      hist := { d.hist with pubFill := pubFill } } := by
  refine h.allocLocal .setMaxRow d.alloc.count d.alloc.i _ _ captured pubFill rfl ?_ ?_ ?_ (by decide) ?_ ?_
  · simp [AllocThread.rowArmed, AllocThread.pending, AllocThread.rowGrown, hpc]
  · intro _
    exact h.window.batch (by rw [hpc]; rfl)
  · rintro (h' | h') <;> cases h'
  · intro _
    exact h.agreed.rowPc (Or.inr (Or.inl hpc))
  · simp [hpc]

/-! ## The loop over slots -/

theorem Config.held_succ (c : Config) (d : Driver) (x r : Nat) :
    c.held d x (r + 1) = c.held d x r + lengthOf d.hist.sent (d.base + (r * c.numRxSlots + x)) := rfl

/-- A recorded packet is no longer than a buffer. -/
theorem Config.Inv.lengthOf_le (h : c.Inv d) (j : Nat) : lengthOf d.hist.sent j ≤ rxBufSize :=
  NicRecorder.lengthOf_le (fun p hp => (h.recorded.deliverable p hp).2) j

/-- The packet one row before the slot at which the refill thread adds a length: it is in the same bucket, it has been recorded, and
its length is what the thread reads. -/
theorem Config.Inv.length_read (h : c.Inv d) (hpc : d.alloc.pc = .accumulate) :
    d.base + ((d.alloc.supRow - 1) * c.numRxSlots + d.alloc.supPartial) + c.numRxSlots = d.hist.armed ∧
      d.board.lens d.alloc.cur ((d.alloc.supRow - 1) * c.numRxSlots + d.alloc.supPartial) =
        lengthOf d.hist.sent (d.base + ((d.alloc.supRow - 1) * c.numRxSlots + d.alloc.supPartial)) := by
  have hrow := h.agreed.rowPc (Or.inl hpc)
  have hb := h.window.batch (by rw [hpc]; rfl)
  obtain ⟨hfill, -⟩ := h.sameFill hrow
  have hcur : d.alloc.cur = d.proc.cur := by rw [h.wrapped.alloc_cur, h.wrapped.proc_cur, hfill]
  have hbase : d.procBase = d.base := by
    unfold Driver.procBase Driver.base
    rw [hfill]
    exact h.agreed.starts _ (Nat.le_refl _)
  obtain ⟨r, hr⟩ := Nat.exists_eq_succ_of_ne_zero hrow
  have harm := h.window.armed_eq
  rw [AllocThread.rowArmed_of_ne (by rw [hpc]; decide), hr, Nat.succ_mul] at harm
  have h1 := h.window.room
  have h2 := h.window.cleaned_le
  have h3 := h.window.accepted_eq
  have hcell := h.recorded.cells (r * c.numRxSlots + d.alloc.supPartial) (by omega)
  rw [hr, Nat.succ_sub_one, hcur, hcell, hbase]
  exact ⟨by omega, rfl⟩

/-- Line 102: the length of the slot is the number of bytes in it. -/
theorem Config.Inv.grown_eq (h : c.Inv d) (hpc : d.alloc.pc = .accumulate) :
    c.grown d = c.held d d.alloc.supPartial d.alloc.supRow := by
  have hrow := h.agreed.rowPc (Or.inl hpc)
  have hb := h.window.batch (by rw [hpc]; rfl)
  obtain ⟨-, hread⟩ := h.length_read hpc
  obtain ⟨r, hr⟩ := Nat.exists_eq_succ_of_ne_zero hrow
  have hold := h.grown.old hrow d.alloc.supPartial (by simp [AllocThread.rowGrown, hpc]) (by omega)
  have hle := h.grown.rows r (by omega) d.alloc.supPartial (by omega)
  have hlen := h.lengthOf_le (d.base + (r * c.numRxSlots + d.alloc.supPartial))
  have hbig := c.maxRows_bounds.2.2
  rw [hr, Nat.succ_sub_one] at hold hread
  unfold Config.grown
  rw [hr, Nat.succ_sub_one, hold, hread, Nat.mod_eq_of_lt (by omega)]
  exact (c.held_succ d d.alloc.supPartial r).symm

/-- Lines 102 and 103: the length of the slot, and the test of the limit. -/
theorem Config.Inv.accumulate (h : c.Inv d) (hpc : d.alloc.pc = .accumulate) :
    c.Inv { d with alloc := { d.alloc with
      pc := if c.byteLimit < c.grown d then .setCaptured else .clearHdr
      glength := Function.update d.alloc.glength d.alloc.supPartial (c.grown d) } } := by
  have hrow := h.agreed.rowPc (Or.inl hpc)
  have hgr := h.grown_eq hpc
  have hbatch := h.window.batch (by rw [hpc]; rfl)
  have hreset : d.proc.pc ≠ .resetRow := fun hr => hrow (h.agreed.resetting hr).1.row
  have hng : d.alloc.rowGrown = d.alloc.supPartial := by simp [AllocThread.rowGrown, hpc]
  generalize hq : (if c.byteLimit < c.grown d then AllocPc.setCaptured else .clearHdr) = q
  have hcase : (q = .setCaptured ∧ c.byteLimit < c.grown d) ∨ (q = .clearHdr ∧ c.grown d ≤ c.byteLimit) := by
    by_cases hlim : c.byteLimit < c.grown d
    · rw [if_pos hlim] at hq
      exact Or.inl ⟨hq.symm, hlim⟩
    · rw [if_neg hlim] at hq
      exact Or.inr ⟨hq.symm, Nat.le_of_not_lt hlim⟩
  have hsp : ∀ gl, ({ d.alloc with pc := q, glength := gl } : AllocThread).rowArmed = d.alloc.rowArmed ∧
      ({ d.alloc with pc := q, glength := gl } : AllocThread).pending = d.alloc.pending ∧
      ({ d.alloc with pc := q, glength := gl } : AllocThread).rowGrown = d.alloc.supPartial + 1 := by
    intro gl
    rcases hcase with ⟨rfl, -⟩ | ⟨rfl, -⟩ <;>
      simp [AllocThread.rowArmed, AllocThread.pending, AllocThread.rowGrown, hpc, hrow]
  obtain ⟨harm, hpend, hgrow⟩ := hsp (Function.update d.alloc.glength d.alloc.supPartial (c.grown d))
  obtain ⟨w, p, ag, r, l, g⟩ := h
  refine ⟨⟨harm ▸ w.armed_eq, hpend ▸ w.tailed_eq, w.room, fun _ => hbatch, ?_, ?_, w.cleaned_le, w.taken_le, w.sent_le,
      w.accepted_eq⟩, ⟨p.1, p.2, p.3, p.4, p.5, p.6, p.7, p.8, p.9, p.10, p.11, p.12⟩,
    ⟨ag.first, ag.starts, ?_, fun hr => absurd hr hreset, fun _ => hrow, ag.maxRow_le, ag.allocLog, ag.places, ag.procLog⟩,
    ⟨r.1, r.2, r.3, r.4, r.5⟩, ⟨l.1, l.2, l.3, l.4⟩, ⟨?_, ?_, g.rows, ?_, ?_⟩⟩
  · intro he
    rcases hcase with ⟨rfl, -⟩ | ⟨rfl, -⟩ <;> cases he
  · intro he
    rcases hcase with ⟨rfl, -⟩ | ⟨rfl, -⟩ <;> rcases he with he | he <;> cases he
  · rcases ag.fills with hs | hn
    · exact Or.inl hs
    · exact absurd hn.row hrow
  · rw [hgrow]
    intro x hx hxN
    by_cases he : x = d.alloc.supPartial
    · subst he
      exact (Function.update_self ..).trans hgr
    · exact (Function.update_of_ne he ..).trans (g.grown x (by omega) hxN)
  · rw [hgrow]
    intro _ x hx hxN
    exact (Function.update_of_ne (by omega) ..).trans (g.old hrow x (by omega) hxN)
  · rw [hgrow]
    intro hm hne _ x hx hxN
    by_cases he : x = d.alloc.supPartial
    · rcases hcase with ⟨rfl, -⟩ | ⟨rfl, hlim⟩
      · exact absurd rfl hne
      · rw [he]
        exact hgr ▸ hlim
    · exact g.notOver hm (by rw [hpc]; decide) (by rw [hpc]; decide) x (by omega) hxN
  · intro he
    rcases hcase with ⟨rfl, hlim⟩ | ⟨rfl, -⟩
    · exact hgr ▸ hlim
    · rcases he with he | he <;> cases he

/-- The second store of line 104. -/
theorem Config.Inv.setMaxRow (h : c.Inv d) (hpc : d.alloc.pc = .setMaxRow) :
    c.Inv { d with
      alloc := { d.alloc with pc := .clearHdr }
      maxRow := c.rowEnd d.alloc.supRow
      hist := { d.hist with maxRowFill := d.hist.allocFill } } := by
  have hrow := h.agreed.rowPc (Or.inr (Or.inr hpc))
  have hend := h.rowEnd_eq
  have hbound := h.row_bound
  have hpos : c.rowEnd d.alloc.supRow ≠ 0 := by
    rw [hend]
    exact Nat.mul_ne_zero (Nat.succ_ne_zero _) (Nat.pos_iff_ne_zero.mp c.slots_pos)
  obtain ⟨hfill, -⟩ := h.sameFill hrow
  have hbatch := h.window.batch (by rw [hpc]; rfl)
  have hg : ({ d.alloc with pc := .clearHdr } : AllocThread).rowGrown = d.alloc.rowGrown := by
    simp [AllocThread.rowGrown, hpc, hrow]
  obtain ⟨w, p, ag, r, l, g⟩ := h
  have harm := w.armed_eq
  have htl := w.tailed_eq
  simp only [AllocThread.rowArmed, AllocThread.pending, hpc, reduceCtorEq, if_false] at harm htl
  refine ⟨⟨harm, htl, w.room, fun _ => hbatch, nofun, ?_, w.cleaned_le, w.taken_le, w.sent_le, w.accepted_eq⟩,
    ⟨p.1, p.2, p.3, p.4, p.5, p.6, p.7, p.8, p.9, p.10, p.11, p.12⟩,
    ⟨ag.first, ag.starts, Or.inl ⟨hfill, Or.inr ⟨hend, rfl, hrow⟩⟩, ?_, fun _ => hrow, ?_, ag.allocLog, ag.places, ag.procLog⟩,
    ⟨r.1, r.2, r.3, r.4, r.5⟩, ⟨l.1, l.2, l.3, l.4⟩, ⟨hg ▸ g.grown, hg ▸ g.old, g.rows, fun hm => absurd hm hpos, ?_⟩⟩
  · rintro (h' | h') <;> cases h'
  · intro hr
    exact absurd (ag.resetting hr).1.row hrow
  · show c.rowEnd d.alloc.supRow ≤ _
    rw [hend]
    exact Nat.mul_le_mul_right _ (by omega)
  · rintro (h' | h') <;> cases h'

/-- The place that the refill thread gives to the descriptor it re-arms. -/
theorem Config.Inv.place_eq (h : c.Inv d) (hpc : d.alloc.pc = .clearHdr) :
    c.placeIn d.hist.allocFill (d.hist.armed - d.base) = ⟨d.alloc.cur, d.alloc.supRow, d.alloc.supPartial⟩ := by
  have hb := h.window.batch (by rw [hpc]; rfl)
  have harm := h.window.armed_eq
  rw [AllocThread.rowArmed_of_ne (by rw [hpc]; decide)] at harm
  have hj : d.hist.armed - d.base = d.alloc.supPartial + c.numRxSlots * d.alloc.supRow := by
    rw [Nat.mul_comm]
    omega
  have hlt : d.alloc.supPartial < c.numRxSlots := by omega
  unfold Config.placeIn
  rw [hj, Nat.add_mul_div_left _ _ c.slots_pos, Nat.div_eq_of_lt hlt, Nat.add_mul_mod_self_left, Nat.mod_eq_of_lt hlt,
    ← h.wrapped.alloc_cur, Nat.zero_add]

/-- The places that the refill thread has given out, after one more. -/
theorem Config.Inv.places_push (h : c.Inv d) (hpc : d.alloc.pc = .clearHdr) :
    ∀ f, d.hist.procFill ≤ f → f ≤ d.hist.allocFill → ∀ i, d.hist.allocStart f ≤ i → i < d.hist.armed + 1 →
      (f < d.hist.allocFill → i < d.hist.allocStart (f + 1)) →
      (d.hist.allocLog ++ [⟨d.alloc.cur, d.alloc.supRow, d.alloc.supPartial⟩])[i]? =
        some (c.placeIn f (i - d.hist.allocStart f)) := by
  intro f hf hf' i hi hlt hnext
  have hlen := h.agreed.allocLog
  by_cases he : i = d.hist.armed
  · have hff : f = d.hist.allocFill := by
      by_contra hne
      have h1 : f + 1 = d.hist.allocFill := by
        have := h.allocFill_le
        omega
      have h2 := hnext (by omega)
      have h3 := h.window.armed_eq
      rw [h1] at h2
      unfold Driver.base at h3
      omega
    subst hff
    rw [he, ← hlen, List.getElem?_concat_length, hlen]
    exact congrArg some (h.place_eq hpc).symm
  · rw [List.getElem?_append_left (by omega)]
    exact h.agreed.places f hf hf' i hi (by omega) hnext

/-- There is room for one more descriptor in the window. -/
theorem Config.Inv.armed_succ_lt (h : c.Inv d) (hpc : d.alloc.pc = .clearHdr) :
    d.hist.armed + 1 < d.hist.cleaned + c.numRxSlots := by
  have hbatch := h.window.batch (by rw [hpc]; rfl)
  have htl := h.window.tailed_eq
  simp only [AllocThread.pending, hpc] at htl
  omega

theorem Config.Inv.accepted_le_log (h : c.Inv d) : d.hist.accepted ≤ d.hist.allocLog.length := by
  have h1 := h.window.tailed_eq
  have h2 := h.window.sent_le
  have h3 := h.window.taken_le
  have h4 : d.hist.accepted ≤ d.taken := Nat.le_add_right _ _
  rw [h.agreed.allocLog]
  omega

/-- The driver when a descriptor has been cleared. -/
def Driver.cleared (d : Driver) : Driver :=
  { d with
    alloc := { d.alloc with
      pc := .setAddr
      glength := if d.alloc.supRow = 0 then Function.update d.alloc.glength d.alloc.supPartial 0 else d.alloc.glength }
    ring := Function.update d.ring d.alloc.supPartial { d.ring d.alloc.supPartial with dd := false, length := 0 }
    hist := { d.hist with
      armed := d.hist.armed + 1
      slot := Function.update d.hist.slot d.alloc.supPartial .armed
      allocLog := d.hist.allocLog ++ [⟨d.alloc.cur, d.alloc.supRow, d.alloc.supPartial⟩] } }

section Clear

variable (h : c.Inv d) (hpc : d.alloc.pc = .clearHdr)

include h hpc

/-- The descriptor cleared is the next one behind the armed ones, which has left the window. -/
theorem Config.Inv.clearHdr_ringed : c.Ringed d.cleared := by
  have hbatch := h.window.batch (by rw [hpc]; rfl)
  have hmod := h.supPartial_mod (by rw [hpc]; decide) (by omega)
  have hroom := h.armed_succ_lt hpc
  have htl := h.window.tailed_eq
  have hsent := h.window.sent_le
  have htak := h.window.taken_le
  have hcl := h.window.cleaned_le
  have hacc : d.hist.accepted ≤ d.taken := Nat.le_add_right _ _
  -- every descriptor of the window but the new one keeps what it holds
  have hother : ∀ i, i < d.hist.armed → d.hist.armed < i + c.numRxSlots → i % c.numRxSlots ≠ d.alloc.supPartial := by
    intro i h1 h2
    rw [hmod]
    exact slot_ne_of_lt h1 h2
  have r := h.ringed
  refine ⟨fun i (hi : i < d.taken) (hlap : d.hist.armed + 1 ≤ i + c.numRxSlots) => ?_,
    fun i (hi : d.taken ≤ i) (hi' : i < d.hist.sent.length) => ?_,
    fun i (hi : d.hist.sent.length ≤ i) (hi' : i < d.hist.armed + 1) => ?_, fun x (hx : d.hist.armed + 1 ≤ x) hxN => ?_,
    fun i (hi : d.hist.accepted ≤ i) (hi' : i < d.hist.sent.length) => ?_⟩ <;> dsimp only [Driver.cleared]
  · simp only [Function.update_of_ne (hother i (by omega) hlap)]
    exact r.accepted i hi (Nat.le_of_succ_le hlap)
  · simp only [Function.update_of_ne (hother i (by omega) (by omega))]
    exact r.written i hi hi'
  · by_cases he : i = d.hist.armed
    · rw [he, ← hmod]
      simp only [Function.update_self, and_self]
    · simp only [Function.update_of_ne (hother i (by omega) (by omega))]
      exact r.armed i hi (by omega)
  · have hne : x ≠ d.alloc.supPartial := by
      rw [hmod, Nat.mod_eq_of_lt (by omega)]
      omega
    simp only [Function.update_of_ne hne]
    exact r.fresh x (Nat.le_of_succ_le hx) hxN
  · simp only [Function.update_of_ne (hother i (by omega) (by omega))]
    exact r.length i hi hi'

/-- In the first row the slot starts empty; in a later row its length is already that of the row. -/
theorem Config.Inv.clearHdr_grown : c.Grown d.cleared := by
  have g := h.grown
  refine ⟨fun x (hx : x < d.alloc.supPartial + 1) hxN => ?_,
    fun (hrow : d.alloc.supRow ≠ 0) x (hx : d.alloc.supPartial + 1 ≤ x) hxN => ?_, g.rows,
    fun hm _ _ x (hx : x < d.alloc.supPartial + 1) hxN => ?_, ?_⟩ <;> dsimp only [Driver.cleared]
  · by_cases hrow : d.alloc.supRow = 0
    · simp only [hrow, if_true]
      by_cases he : x = d.alloc.supPartial
      · rw [he, Function.update_self]
        rfl
      · rw [Function.update_of_ne he]
        have hlt : x < d.alloc.rowGrown := by
          simp only [AllocThread.rowGrown, hpc, hrow, if_true]
          omega
        have := g.grown x hlt hxN
        rw [hrow] at this
        exact this
    · simp only [hrow, if_false]
      exact g.grown x (by simpa [AllocThread.rowGrown, hpc, hrow] using hx) hxN
  · simp only [if_neg hrow]
    exact g.old hrow x (by simpa [AllocThread.rowGrown, hpc, hrow] using hx) hxN
  · by_cases hrow : d.alloc.supRow = 0
    · simp only [hrow]
      exact Nat.zero_le _
    · exact g.notOver hm (by rw [hpc]; decide) (by rw [hpc]; decide) x
        (by simpa [AllocThread.rowGrown, hpc, hrow] using hx) hxN
  · rintro (h' | h') <;> cases h'

/-- Lines 106 and 116: the descriptor is cleared. -/
theorem Config.Inv.clearHdr :
    c.Inv { d with
      alloc := { d.alloc with
        pc := .setAddr
        glength := if d.alloc.supRow = 0 then Function.update d.alloc.glength d.alloc.supPartial 0 else d.alloc.glength }
      ring := Function.update d.ring d.alloc.supPartial { d.ring d.alloc.supPartial with dd := false, length := 0 }
      hist := { d.hist with
        armed := d.hist.armed + 1
        slot := Function.update d.hist.slot d.alloc.supPartial .armed
        allocLog := d.hist.allocLog ++ [⟨d.alloc.cur, d.alloc.supRow, d.alloc.supPartial⟩] } } := by
  have hbatch := h.window.batch (by rw [hpc]; rfl)
  have hplaces := h.places_push hpc
  have hroom := h.armed_succ_lt hpc
  have hring := h.clearHdr_ringed hpc
  have hgrown := h.clearHdr_grown hpc
  have hle : d.hist.accepted ≤ d.hist.allocLog.length := h.accepted_le_log
  obtain ⟨w, p, ag, -, l, -⟩ := h
  have harm := w.armed_eq
  have htl := w.tailed_eq
  simp only [AllocThread.rowArmed, AllocThread.pending, hpc, reduceCtorEq, if_false] at harm htl
  refine ⟨⟨congrArg (· + 1) harm, congrArg (· + 1) htl, hroom, fun _ => hbatch, nofun, ?_, w.cleaned_le, w.taken_le, w.sent_le,
      w.accepted_eq⟩,
    ⟨p.1, p.2, p.3, p.4, p.5, p.6, p.7, p.8, p.9, p.10, p.11, p.12⟩,
    ⟨ag.first, ag.starts, ag.fills.imp (fun hs => hs) (fun hn => ⟨hn.1, hn.2, hn.3, hn.4, hn.5, hn.6, hn.7⟩),
      fun hr => (ag.resetting hr).imp (fun hn => ⟨hn.1, hn.2, hn.3, hn.4, hn.5, hn.6, hn.7⟩) (fun he => he), ?_, ag.maxRow_le, ?_,
      hplaces, ?_⟩, hring, ⟨l.1, l.2, l.3, l.4⟩, hgrown⟩
  · rintro (h' | h') <;> cases h'
  · rintro (h' | h' | h') <;> cases h'
  · simp [ag.allocLog]
  · exact ag.procLog.trans (List.take_append_of_le_length hle).symm

end Clear

/-- Writing the address of a descriptor leaves the word that the adapter writes back. -/
theorem update_pktAddr (ring : Nat → Desc) (x addr y : Nat) :
    (Function.update ring x { ring x with pktAddr := addr } y).dd = (ring y).dd ∧
      (Function.update ring x { ring x with pktAddr := addr } y).length = (ring y).length := by
  by_cases h : y = x
  · subst h
    simp
  · simp [h]

/-- Lines 107 to 110 and 117 to 119: the descriptor gets its address, and the thread goes to the next slot. -/
theorem Config.Inv.setAddr (h : c.Inv d) (hpc : d.alloc.pc = .setAddr) (addr : Nat) :
    c.Inv { d with
      alloc := { d.alloc with
        pc := if d.alloc.i + 1 < d.alloc.count then slotPc d.alloc.supRow else .endRow
        supPartial := d.alloc.supPartial + 1
        i := d.alloc.i + 1 }
      ring := Function.update d.ring d.alloc.supPartial { d.ring d.alloc.supPartial with pktAddr := addr } } := by
  have hbatch := h.window.batch (by rw [hpc]; rfl)
  have hg : d.alloc.rowGrown = d.alloc.supPartial + 1 := by simp [AllocThread.rowGrown, hpc]
  obtain ⟨w, p, ag, r, l, g⟩ := h
  have harm := w.armed_eq
  have htl := w.tailed_eq
  simp only [AllocThread.rowArmed, AllocThread.pending, hpc, if_true] at harm htl
  generalize hq : (if d.alloc.i + 1 < d.alloc.count then slotPc d.alloc.supRow else AllocPc.endRow) = q
  have hcase : (q = slotPc d.alloc.supRow ∧ d.alloc.i + 1 < d.alloc.count) ∨ q = .endRow := by
    by_cases hlt : d.alloc.i + 1 < d.alloc.count
    · rw [if_pos hlt] at hq
      exact Or.inl ⟨hq.symm, hlt⟩
    · rw [if_neg hlt] at hq
      exact Or.inr hq.symm
  obtain ⟨hp', ha', hg', hid, htail, hsc, hsm⟩ :
      ({ d.alloc with pc := q, supPartial := d.alloc.supPartial + 1, i := d.alloc.i + 1 } : AllocThread).pending =
        d.alloc.i + 1 ∧
      ({ d.alloc with pc := q, supPartial := d.alloc.supPartial + 1, i := d.alloc.i + 1 } : AllocThread).rowArmed =
        d.alloc.supPartial + 1 ∧
      ({ d.alloc with pc := q, supPartial := d.alloc.supPartial + 1, i := d.alloc.i + 1 } : AllocThread).rowGrown =
        d.alloc.supPartial + 1 ∧ q.idle = false ∧ q ≠ .writeTail ∧ q ≠ .setCaptured ∧ q ≠ .setMaxRow := by
    rcases hcase with ⟨rfl, -⟩ | rfl
    · obtain ⟨h1, h2, h3, h4, -, h5, h6, h7⟩ := AllocThread.at_slot (a := { d.alloc with
        pc := slotPc d.alloc.supRow, supPartial := d.alloc.supPartial + 1, i := d.alloc.i + 1 }) rfl
      exact ⟨h1, h2, h3, h4, h5, h6, h7⟩
    · simp [AllocThread.pending, AllocThread.rowArmed, AllocThread.rowGrown, AllocPc.idle]
  refine ⟨⟨ha'.symm ▸ harm, hp'.symm ▸ htl, w.room, ?_, ?_, ?_, w.cleaned_le, w.taken_le, w.sent_le, w.accepted_eq⟩,
    ⟨p.1, p.2, p.3, p.4, p.5, p.6, p.7, p.8, p.9, p.10, p.11, p.12⟩,
    ⟨ag.first, ag.starts, ag.fills.imp (fun hs => hs) (fun hn => ⟨hn.1, hn.2, hn.3, hn.4, hn.5, hn.6, hn.7⟩),
      fun hr => (ag.resetting hr).imp (fun hn => ⟨hn.1, hn.2, hn.3, hn.4, hn.5, hn.6, hn.7⟩) (fun he => he), ?_, ag.maxRow_le,
      ag.allocLog, ag.places, ag.procLog⟩,
    r.of_words rfl (update_pktAddr _ _ _) rfl rfl rfl (Nat.le_refl _), ⟨l.1, l.2, l.3, l.4⟩,
    ⟨hg'.symm ▸ hg ▸ g.grown, hg'.symm ▸ hg ▸ g.old, g.rows, ?_, ?_⟩⟩
  · intro hr
    rcases hcase with ⟨-, hlt⟩ | rfl
    · have : d.alloc.i + 1 < d.alloc.count ∧ d.alloc.i + 1 ≤ d.alloc.supPartial + 1 ∧
          d.alloc.supPartial + 1 + d.alloc.count ≤ c.numRxSlots + (d.alloc.i + 1) ∧
          d.hist.tailed + d.alloc.count < d.hist.cleaned + c.numRxSlots := by omega
      exact this
    · cases hr
  · intro _
    have : 0 < d.alloc.i + 1 ∧ d.alloc.i + 1 ≤ d.alloc.supPartial + 1 ∧ d.alloc.supPartial + 1 ≤ c.numRxSlots := by omega
    exact this
  · rintro (h' | h')
    · rw [hid] at h'
      cases h'
    · exact absurd h' htail
  · rcases hcase with ⟨rfl, -⟩ | rfl
    · exact slotPc_accumulate
    · rintro (h' | h' | h') <;> cases h'
  · intro hm _ _
    rw [hg']
    exact hg ▸ g.notOver hm (by rw [hpc]; decide) (by rw [hpc]; decide)
  · rintro (h' | h')
    · exact absurd h' hsc
    · exact absurd h' hsm

/-! ## The end of a row -/

/-- At the end of a row of a new bucket the other thread has closed the last one: a whole row beyond it would not fit the
window. -/
theorem Config.Inv.sameFill_endRow (h : c.Inv d) (hpc : d.alloc.pc = .endRow) (hsp : d.alloc.supPartial = c.numRxSlots) :
    c.SameFill d := by
  rcases h.agreed.fills with hs | hn
  · exact hs
  · have harm := h.window.armed_eq
    rw [AllocThread.rowArmed_of_ne (by rw [hpc]; decide), hsp, hn.row, Nat.zero_mul] at harm
    have h1 := h.window.room
    have h2 := h.window.cleaned_le
    have h3 := hn.behind
    omega

/-- Lines 123 to 127: the next row of the same bucket. -/
theorem Config.Inv.nextRow (h : c.Inv d) (hpc : d.alloc.pc = .endRow) (hsp : d.alloc.supPartial = c.numRxSlots)
    (hm : d.maxRow = 0) :
    c.Inv { d with alloc := { d.alloc with
      pc := .writeTail, supPartial := 0, supRow := (d.alloc.supRow + 1) % 2 ^ 16 } } := by
  have hsame := h.sameFill_endRow hpc hsp
  have hreset : d.proc.pc ≠ .resetRow := fun hr => (h.agreed.resetting hr).1.set hm
  have hrow : (d.alloc.supRow + 1) % 2 ^ 16 = d.alloc.supRow + 1 := by
    have h1 := h.row_bound
    have h2 := c.maxRows_bounds.1
    exact Nat.mod_eq_of_lt (by omega)
  have hg : d.alloc.rowGrown = c.numRxSlots := by simp [AllocThread.rowGrown, hpc, hsp]
  obtain ⟨w, p, ag, r, l, g⟩ := h
  have harm := w.armed_eq
  have htl := w.tailed_eq
  simp only [AllocThread.rowArmed, AllocThread.pending, hpc, reduceCtorEq, if_false, hsp] at harm htl
  rw [hrow]
  refine ⟨⟨?_, htl, w.room, nofun, nofun, fun _ => c.slots_pos, w.cleaned_le, w.taken_le, w.sent_le, w.accepted_eq⟩,
    ⟨p.1, p.2, p.3, p.4, p.5, p.6, p.7, p.8, p.9, p.10, p.11, p.12⟩,
    ⟨ag.first, ag.starts, Or.inl ⟨hsame.1, Or.inl hm⟩, fun hr => absurd hr hreset, ?_, ag.maxRow_le, ag.allocLog,
      ag.places, ag.procLog⟩,
    ⟨r.1, r.2, r.3, r.4, r.5⟩, ⟨l.1, l.2, l.3, l.4⟩, ⟨nofun, ?_, ?_, fun _ _ _ => nofun, ?_⟩⟩
  · have : d.hist.armed = d.base + (d.alloc.supRow + 1) * c.numRxSlots + 0 := by
      rw [Nat.succ_mul]
      omega
    exact this
  · rintro (h' | h' | h') <;> cases h'
  · intro _ x _ hxN
    exact g.grown x (hg ▸ hxN) hxN
  · intro x hx y hy
    by_cases he : x = d.alloc.supRow
    · subst he
      exact g.notOver hm (by rw [hpc]; decide) (by rw [hpc]; decide) y (hg ▸ hy) hy
    · have hx' : x < d.alloc.supRow + 1 := hx
      exact g.rows x (by omega) y hy
  · rintro (h' | h') <;> cases h'

/-- The driver when the refill thread has gone to the next bucket, lines 128 to 134: the new fill starts at the descriptor that
is re-armed next. -/
def Config.opened (c : Config) (d : Driver) : Driver :=
  { d with
    alloc := { d.alloc with pc := .writeTail, supPartial := 0, supRow := 0, cur := c.nextCur d.alloc.cur }
    hist := { d.hist with
      allocFill := d.hist.allocFill + 1
      allocStart := Function.update d.hist.allocStart (d.hist.allocFill + 1) d.hist.armed } }

theorem Config.opened_base (c : Config) (d : Driver) : (c.opened d).base = d.hist.armed := Function.update_self ..

theorem Config.opened_start (c : Config) (d : Driver) {f : Nat} (hf : f ≤ d.hist.allocFill) :
    (c.opened d).hist.allocStart f = d.hist.allocStart f :=
  Function.update_of_ne (by omega) ..

section Open

variable (h : c.Inv d) (hpc : d.alloc.pc = .endRow) (hsp : d.alloc.supPartial = c.numRxSlots)

include h hpc hsp

/-- The row at whose end the refill thread is has been re-armed whole. -/
theorem Config.Inv.armed_endRow : d.hist.armed = d.base + d.alloc.supRow * c.numRxSlots + c.numRxSlots := by
  have harm := h.window.armed_eq
  rw [AllocThread.rowArmed_of_ne (by rw [hpc]; decide), hsp] at harm
  exact harm

omit hsp in
theorem Config.Inv.opened_window : c.Window (c.opened d) := by
  have w := h.window
  have htl := w.tailed_eq
  have harm : d.hist.armed = (c.opened d).base + 0 * c.numRxSlots + 0 := by
    rw [c.opened_base, Nat.zero_mul]
    rfl
  simp only [AllocThread.pending, hpc] at htl
  exact ⟨harm, htl, w.room, nofun, nofun, fun _ => c.slots_pos, w.cleaned_le, w.taken_le, w.sent_le, w.accepted_eq⟩

theorem Config.Inv.opened_wrapped : c.Wrapped (c.opened d) := by
  have p := h.wrapped
  have hdvd : c.numRxSlots ∣ (c.opened d).base := by
    rw [c.opened_base, h.armed_endRow hpc hsp]
    exact Nat.dvd_add (Nat.dvd_add p.base_dvd (Nat.dvd_mul_left _ _)) (Nat.dvd_refl _)
  have hcur : c.nextCur d.alloc.cur = c.bucketOf (d.hist.allocFill + 1) := by
    rw [p.alloc_cur, c.nextCur_bucketOf]
  exact ⟨hdvd, p.2, p.3, p.4, p.5, p.6, p.7, p.8, p.9, p.10, hcur, p.12⟩

/-- The other thread is still in the old bucket, and `max_row` is where it ends. -/
theorem Config.Inv.opened_nextFill (hm : d.maxRow ≠ 0) : c.NextFill (c.opened d) := by
  obtain ⟨hfill, hset⟩ := h.sameFill_endRow hpc hsp
  have hmax : d.maxRow = (d.alloc.supRow + 1) * c.numRxSlots ∧ d.hist.maxRowFill = d.hist.allocFill :=
    hset.elim (fun h0 => absurd h0 hm) (fun h1 => ⟨h1.1, h1.2.1⟩)
  have hbase : d.procBase = d.base := by
    unfold Driver.procBase Driver.base
    rw [hfill]
    exact h.agreed.starts _ (Nat.le_refl _)
  have hsize : d.procBase + d.maxRow = (c.opened d).base := by
    rw [c.opened_base, h.armed_endRow hpc hsp, hbase, hmax.1, Nat.succ_mul, Nat.add_assoc]
  have hlt : d.hist.accepted < (c.opened d).base := by
    have h1 := h.window.taken_le
    have h2 := h.window.sent_le
    have h3 : d.hist.accepted ≤ d.taken := Nat.le_add_right _ _
    have h4 := h.window.tailed_eq
    have h5 := h.window.ending hpc
    simp only [AllocThread.pending, hpc] at h4
    rw [c.opened_base]
    omega
  exact ⟨congrArg (· + 1) hfill, hsize, hm, hmax.2.trans hfill, rfl, Nat.le_of_lt hlt, fun he => absurd he (Nat.ne_of_lt hlt)⟩

theorem Config.Inv.opened_agreed (hm : d.maxRow ≠ 0) : c.Agreed (c.opened d) := by
  have hnext := h.opened_nextFill hpc hsp hm
  have hfill := (h.sameFill_endRow hpc hsp).1
  have ag := h.agreed
  refine ⟨?_, fun f (hf : f ≤ d.hist.procFill) => ?_, Or.inr hnext, fun hr => ?_, ?_, ag.maxRow_le, ag.allocLog,
    fun f (hf : d.hist.procFill ≤ f) (hf' : f ≤ d.hist.allocFill + 1) i hi hlt hbelow => ?_, ag.procLog⟩
  · rw [c.opened_start d (Nat.zero_le _)]
    exact ag.first
  · rw [c.opened_start d (by omega)]
    exact ag.starts f hf
  · have := (ag.resetting hr).1.next
    omega
  · rintro (h' | h' | h') <;> cases h'
  · -- nothing has been re-armed in the new fill
    by_cases he : f = d.hist.allocFill + 1
    · have hs : (c.opened d).hist.allocStart f = d.hist.armed := he ▸ Function.update_self ..
      exact absurd hlt (Nat.not_lt.mpr (hs ▸ hi))
    · rw [c.opened_start d (by omega)] at hi ⊢
      exact ag.places f hf (by omega) i hi hlt fun hlt' => by omega

/-- Lines 128 to 134: the first row of the next bucket. -/
theorem Config.Inv.nextBucket (hm : d.maxRow ≠ 0) :
    c.Inv { d with
      alloc := { d.alloc with pc := .writeTail, supPartial := 0, supRow := 0, cur := c.nextCur d.alloc.cur }
      hist := { d.hist with
        allocFill := d.hist.allocFill + 1
        allocStart := Function.update d.hist.allocStart (d.hist.allocFill + 1) d.hist.armed } } := by
  have hgrown : c.Grown (c.opened d) := by
    refine ⟨nofun, fun h0 => absurd rfl h0, nofun, fun _ _ _ => nofun, ?_⟩
    rintro (h' | h') <;> cases h'
  exact ⟨h.opened_window hpc, h.opened_wrapped hpc hsp, h.opened_agreed hpc hsp hm,
    ⟨h.ringed.1, h.ringed.2, h.ringed.3, h.ringed.4, h.ringed.5⟩,
    ⟨h.recorded.1, h.recorded.2, h.recorded.3, h.recorded.4⟩, hgrown⟩

end Open

/-- Lines 123 to 135. -/
theorem Config.Inv.endRow (h : c.Inv d) (hpc : d.alloc.pc = .endRow) : c.Inv (c.endRow d) := by
  unfold Config.endRow
  by_cases hsp : d.alloc.supPartial = c.numRxSlots
  · rw [if_pos hsp]
    by_cases hm : d.maxRow = 0
    · rw [if_pos hm]
      exact h.nextRow hpc hsp hm
    · rw [if_neg hm]
      exact h.nextBucket hpc hsp hm
  · rw [if_neg hsp]
    have hend := h.window.ending hpc
    refine h.allocLocal .writeTail d.alloc.count d.alloc.i _ _ d.board.captured d.hist.pubFill rfl ?_ nofun ?_
      (by decide) nofun ?_
    · simp [AllocThread.rowArmed, AllocThread.pending, AllocThread.rowGrown, hpc]
    · intro _
      omega
    · simp [hpc]

/-- Line 137: the tail shows the batch to the adapter. -/
theorem Config.Inv.writeTail (h : c.Inv d) (hpc : d.alloc.pc = .writeTail) :
    c.Inv { d with
      alloc := { d.alloc with pc := .checkStop }
      tail := d.alloc.supPartial
      hist := { d.hist with tailed := d.hist.armed } } := by
  have hmod := h.supPartial_mod (by rw [hpc]; decide) (h.window.inRow (Or.inr hpc))
  have hg : ({ d.alloc with pc := .checkStop } : AllocThread).rowGrown = d.alloc.rowGrown := by
    simp [AllocThread.rowGrown, hpc]
  obtain ⟨w, p, ag, r, l, g⟩ := h
  have harm := w.armed_eq
  rw [AllocThread.rowArmed_of_ne (by rw [hpc]; decide)] at harm
  refine ⟨⟨harm, rfl, w.room, nofun, nofun, fun _ => w.inRow (Or.inr hpc), w.cleaned_le, w.taken_le, ?_, w.accepted_eq⟩,
    ⟨p.1, p.2, p.3, p.4, p.5, p.6, p.7, p.8, p.9, hmod, p.11, p.12⟩,
    ⟨ag.first, ag.starts, ?_, ?_, ?_, ag.maxRow_le, ag.allocLog, ag.places, ag.procLog⟩,
    ⟨r.1, r.2, r.3, r.4, r.5⟩, ⟨l.1, l.2, l.3, l.4⟩,
    ⟨hg ▸ g.grown, hg ▸ g.old, g.rows, fun hm _ _ => hg ▸ g.notOver hm (by rw [hpc]; decide) (by rw [hpc]; decide), ?_⟩⟩
  · have h1 := w.sent_le
    have h2 := w.tailed_eq
    have : d.hist.sent.length ≤ d.hist.armed := by omega
    exact this
  · rcases ag.fills with hs | hn
    · exact Or.inl hs
    · exact Or.inr ⟨hn.1, hn.2, hn.3, hn.4, hn.5, hn.6, hn.7⟩
  · intro hr
    obtain ⟨hn, he⟩ := ag.resetting hr
    exact ⟨⟨hn.1, hn.2, hn.3, hn.4, hn.5, hn.6, hn.7⟩, he⟩
  · rintro (h' | h' | h') <;> cases h'
  · rintro (h' | h') <;> cases h'

/-- Every access of the refill thread keeps the invariant. -/
theorem Config.Inv.allocStep (h : c.Inv d) {d' : Driver} (hs : c.allocStep d = some d') : c.Inv d' := by
  unfold Config.allocStep at hs
  cases hpc : d.alloc.pc <;> rw [hpc] at hs <;> simp only [Option.some.injEq, reduceCtorEq] at hs
  case waitStart | waitStop | checkStop =>
    subst hs
    exact h.allocQuiet (by rw [hpc]; rfl) _ (by split <;> rfl) _ _
  case setStart | setStop =>
    subst hs
    exact h.allocQuiet (by rw [hpc]; rfl) _ rfl _ _
  case readClean =>
    by_cases hc : c.refillCount d.nextToClean d.alloc.supPartial = 0
    · rw [if_pos hc, Option.some.injEq] at hs
      subst hs
      exact h.allocQuiet (by rw [hpc]; rfl) _ rfl _ _
    · rw [if_neg hc, Option.some.injEq] at hs
      subst hs
      exact h.readClean hpc hc
  case accumulate => exact hs ▸ h.accumulate hpc
  case setCaptured => exact hs ▸ h.allocCaptured hpc _ _
  case setMaxRow => exact hs ▸ h.setMaxRow hpc
  case clearHdr => exact hs ▸ h.clearHdr hpc
  case setAddr => exact hs ▸ h.setAddr hpc _
  case endRow => exact hs ▸ h.endRow hpc
  case writeTail => exact hs ▸ h.writeTail hpc

end NicRecorder
