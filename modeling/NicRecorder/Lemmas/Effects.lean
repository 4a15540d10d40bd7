import NicRecorder.Capture

/-!
# What an access of a thread can change

One statement for each part of the shared state: which accesses of a thread change it, and to what. The arguments about the flags
of the buckets need no more of the step functions than this.
-/

namespace NicRecorder

variable {c : Config} {d d' : Driver}

/-! ## The refill thread -/

/-- What the refill thread leaves alone. -/
theorem Config.allocStep_frame (hs : c.allocStep d = some d') :
    d'.proc = d.proc ∧ d'.hist.sent = d.hist.sent ∧ d'.hist.accepted = d.hist.accepted ∧
      d'.board.userStop = d.board.userStop ∧ d'.hist.procFill = d.hist.procFill := by
  unfold Config.allocStep at hs
  cases hpc : d.alloc.pc <;> rw [hpc] at hs <;> simp only [Option.some.injEq, reduceCtorEq] at hs
  case readClean =>
    split at hs <;> cases hs <;> exact ⟨rfl, rfl, rfl, rfl, rfl⟩
  case endRow =>
    unfold Config.endRow at hs
    split at hs
    · split at hs <;> cases hs <;> exact ⟨rfl, rfl, rfl, rfl, rfl⟩
    · cases hs
      exact ⟨rfl, rfl, rfl, rfl, rfl⟩
  all_goals cases hs; exact ⟨rfl, rfl, rfl, rfl, rfl⟩

theorem Config.allocStep_procStart (hs : c.allocStep d = some d') : d'.hist.procStart = d.hist.procStart := by
  unfold Config.allocStep at hs
  cases hpc : d.alloc.pc <;> rw [hpc] at hs <;> simp only [Option.some.injEq, reduceCtorEq] at hs
  case readClean => split at hs <;> cases hs <;> rfl
  case endRow =>
    unfold Config.endRow at hs
    split at hs
    · split at hs <;> cases hs <;> rfl
    · cases hs
      rfl
  all_goals cases hs; rfl

/-- It marks no bucket, and stops the other thread with its last access. -/
theorem Config.allocStep_rest (hs : c.allocStep d = some d') :
    d'.board.last = d.board.last ∧ d'.board.stalled = d.board.stalled ∧ d'.hist.addrs = d.hist.addrs ∧
      (d'.processStop = d.processStop ∨ d'.processStop = true ∧ d'.alloc.pc = .exited) := by
  unfold Config.allocStep at hs
  cases hpc : d.alloc.pc <;> rw [hpc] at hs <;> simp only [Option.some.injEq, reduceCtorEq] at hs
  case setStop => subst hs; exact ⟨rfl, rfl, rfl, Or.inr ⟨rfl, rfl⟩⟩
  case readClean => split at hs <;> cases hs <;> exact ⟨rfl, rfl, rfl, Or.inl rfl⟩
  case endRow =>
    subst hs
    unfold Config.endRow
    split
    · split <;> exact ⟨rfl, rfl, rfl, Or.inl rfl⟩
    · exact ⟨rfl, rfl, rfl, Or.inl rfl⟩
  all_goals subst hs; exact ⟨rfl, rfl, rfl, Or.inl rfl⟩

/-- The refill thread changes the memory it shares with the programs only by the store of line 104. -/
theorem Config.allocStep_board (hs : c.allocStep d = some d') (hpc : d.alloc.pc ≠ .setCaptured) :
    d'.board = d.board ∧ d'.hist.pubFill = d.hist.pubFill ∧ d'.alloc.pc ≠ .setMaxRow := by
  unfold Config.allocStep at hs
  cases hq : d.alloc.pc <;> rw [hq] at hs <;> simp only [Option.some.injEq, reduceCtorEq] at hs
  case setCaptured => exact absurd hq hpc
  case readClean =>
    split at hs <;> cases hs
    · exact ⟨rfl, rfl, nofun⟩
    · exact ⟨rfl, rfl, by dsimp only; unfold slotPc; split <;> decide⟩
  case waitStart | waitStop | checkStop | accumulate =>
    subst hs
    exact ⟨rfl, rfl, by dsimp only; split <;> decide⟩
  case setAddr =>
    subst hs
    refine ⟨rfl, rfl, ?_⟩
    dsimp only
    unfold slotPc
    split
    · split <;> decide
    · decide
  case endRow =>
    subst hs
    unfold Config.endRow
    split
    · split <;> exact ⟨rfl, rfl, nofun⟩
    · exact ⟨rfl, rfl, nofun⟩
  all_goals subst hs; exact ⟨rfl, rfl, nofun⟩

/-- It stores no length. -/
theorem Config.allocStep_lens (hs : c.allocStep d = some d') : d'.board.lens = d.board.lens := by
  by_cases hpc : d.alloc.pc = .setCaptured
  · simp only [Config.allocStep, hpc, Option.some.injEq] at hs
    rw [← hs]
  · rw [(Config.allocStep_board hs hpc).1]

/-- It changes `max_row` only by the second store of that line. -/
theorem Config.allocStep_maxRow (hs : c.allocStep d = some d') (hpc : d.alloc.pc ≠ .setMaxRow) : d'.maxRow = d.maxRow := by
  unfold Config.allocStep at hs
  cases hq : d.alloc.pc <;> rw [hq] at hs <;> simp only [Option.some.injEq, reduceCtorEq] at hs
  case setMaxRow => exact absurd hq hpc
  case readClean => split at hs <;> cases hs <;> rfl
  case endRow =>
    subst hs
    unfold Config.endRow
    split
    · split <;> rfl
    · rfl
  all_goals subst hs; rfl

/-- It goes to the next bucket only at the end of a whole row, when `max_row` is set. -/
theorem Config.allocStep_fill (hs : c.allocStep d = some d') :
    (d'.hist.allocFill = d.hist.allocFill ∧ d'.alloc.cur = d.alloc.cur) ∨
      ((d.alloc.pc = .endRow ∧ d.alloc.supPartial = c.numRxSlots) ∧ d.maxRow ≠ 0 ∧
        d'.hist.allocFill = d.hist.allocFill + 1 ∧ d'.alloc.cur = c.nextCur d.alloc.cur) := by
  unfold Config.allocStep at hs
  cases hq : d.alloc.pc <;> rw [hq] at hs <;> simp only [Option.some.injEq, reduceCtorEq] at hs
  case readClean => split at hs <;> cases hs <;> exact Or.inl ⟨rfl, rfl⟩
  case endRow =>
    subst hs
    unfold Config.endRow
    split
    · split
      · exact Or.inl ⟨rfl, rfl⟩
      · exact Or.inr ⟨⟨rfl, ‹_›⟩, ‹_›, rfl, rfl⟩
    · exact Or.inl ⟨rfl, rfl⟩
  all_goals subst hs; exact Or.inl ⟨rfl, rfl⟩

/-- It ends when it sees the stop command, by an access that changes nothing else. -/
theorem Config.allocStep_ended (hs : c.allocStep d = some d') (he : d'.alloc.pc = .setStop ∨ d'.alloc.pc = .exited) :
    d.alloc.pc = .setStop ∨ (d.alloc.pc = .waitStop ∨ d.alloc.pc = .checkStop) ∧ d.board.userStop = true ∧
      d' = { d with alloc := { d.alloc with pc := .setStop } } := by
  unfold Config.allocStep at hs
  cases hq : d.alloc.pc <;> rw [hq] at hs <;> simp only [Option.some.injEq, reduceCtorEq] at hs
  case setStop => exact Or.inl rfl
  case waitStop | checkStop =>
    subst hs
    by_cases hu : d.board.userStop = true
    · exact Or.inr ⟨by decide, hu, by simp only [hu, if_true]⟩
    · simp [hu] at he
  case waitStart | accumulate =>
    subst hs
    dsimp only at he
    split at he <;> simp at he
  case readClean =>
    split at hs <;> cases hs
    · simp at he
    · simp only [slotPc] at he
      split at he <;> simp at he
  case setAddr =>
    subst hs
    simp only [slotPc] at he
    split at he
    · split at he <;> simp at he
    · simp at he
  case endRow =>
    subst hs
    unfold Config.endRow at he
    split at he
    · split at he <;> simp at he
    · simp at he
  all_goals subst hs; simp at he

/-- The refill thread tells the other one when it ends. -/
theorem Config.allocStep_exits (hs : c.allocStep d = some d') (he : d'.alloc.pc = .exited) :
    d'.processStop = true := by
  rcases Config.allocStep_ended hs (Or.inr he) with hpc | ⟨-, -, hd⟩
  · simp only [Config.allocStep, hpc, Option.some.injEq] at hs
    rw [← hs]
  · rw [hd] at he
    cases he

/-- It gets to its store from a slot beyond the limit. -/
theorem Config.allocStep_over (hs : c.allocStep d = some d') (hpc : d'.alloc.pc = .setCaptured) :
    d.alloc.pc = .accumulate ∧ c.byteLimit < c.grown d := by
  unfold Config.allocStep at hs
  cases hq : d.alloc.pc <;> rw [hq] at hs <;> simp only [Option.some.injEq, reduceCtorEq] at hs
  case accumulate =>
    subst hs
    refine ⟨rfl, ?_⟩
    by_contra hlim
    simp [hlim] at hpc
  case readClean =>
    split at hs <;> cases hs
    · cases hpc
    · simp only [slotPc] at hpc
      split at hpc <;> cases hpc
  case waitStart | waitStop | checkStop =>
    subst hs
    dsimp only at hpc
    split at hpc <;> cases hpc
  case setAddr =>
    subst hs
    simp only [slotPc] at hpc
    split at hpc
    · split at hpc <;> cases hpc
    · cases hpc
  case endRow =>
    subst hs
    unfold Config.endRow at hpc
    split at hpc
    · split at hpc <;> cases hpc
    · cases hpc
  all_goals subst hs; cases hpc

theorem Config.allocStep_userStart (hs : c.allocStep d = some d') : d'.board.userStart = d.board.userStart := by
  unfold Config.allocStep at hs
  cases hpc : d.alloc.pc <;> rw [hpc] at hs <;> simp only [Option.some.injEq, reduceCtorEq] at hs
  case readClean => split at hs <;> cases hs <;> rfl
  case endRow =>
    subst hs
    unfold Config.endRow
    split
    · split <;> rfl
    · rfl
  all_goals subst hs; rfl

/-! ## The recording thread -/

/-- What the recording thread leaves alone. -/
theorem Config.procStep_frame (hs : c.procStep d = some d') :
    d'.alloc = d.alloc ∧ d'.hist.sent = d.hist.sent ∧ d'.hist.armed = d.hist.armed ∧
      d'.board.userStop = d.board.userStop ∧ d'.hist.allocFill = d.hist.allocFill := by
  unfold Config.procStep at hs
  cases hpc : d.proc.pc <;> rw [hpc] at hs <;> simp only [Option.some.injEq, reduceCtorEq] at hs
  case poll =>
    split at hs <;> cases hs <;> exact ⟨rfl, rfl, rfl, rfl, rfl⟩
  all_goals cases hs; exact ⟨rfl, rfl, rfl, rfl, rfl⟩

/-- The recording thread changes the beginnings of its fills only when it goes to the next one. -/
theorem Config.procStep_procStart (hs : c.procStep d = some d') :
    d'.hist.procStart = d.hist.procStart ∨
      (d.proc.pc = .resetRow ∧ d'.hist.procStart = Function.update d.hist.procStart (d.hist.procFill + 1) d.hist.accepted) := by
  unfold Config.procStep at hs
  cases hpc : d.proc.pc <;> rw [hpc] at hs <;> simp only [Option.some.injEq, reduceCtorEq] at hs
  case poll => split at hs <;> cases hs <;> exact Or.inl rfl
  case resetRow => cases hs; exact Or.inr ⟨rfl, rfl⟩
  all_goals cases hs; exact Or.inl rfl

theorem Config.procStep_rest (hs : c.procStep d = some d') :
    d'.hist.addrs = d.hist.addrs ∧ d.hist.accepted ≤ d'.hist.accepted := by
  unfold Config.procStep at hs
  cases hpc : d.proc.pc <;> rw [hpc] at hs <;> simp only [Option.some.injEq, reduceCtorEq] at hs
  case poll => split at hs <;> cases hs <;> exact ⟨rfl, Nat.le_refl _⟩
  case store => subst hs; exact ⟨rfl, Nat.le_succ _⟩
  all_goals subst hs; exact ⟨rfl, Nat.le_refl _⟩

/-- The recording thread sets a flag only by its final store. -/
theorem Config.procStep_captured (hs : c.procStep d = some d') (hpc : d.proc.pc ≠ .setCaptured) :
    d'.board.captured = d.board.captured ∧ d'.hist.pubFill = d.hist.pubFill ∧ d'.proc.pc ≠ .setLast := by
  unfold Config.procStep at hs
  cases hq : d.proc.pc <;> rw [hq] at hs <;> simp only [Option.some.injEq, reduceCtorEq] at hs
  case setCaptured => exact absurd hq hpc
  case poll => split at hs <;> cases hs <;> exact ⟨rfl, rfl, nofun⟩
  case waitStart | waitStop | outer | store | compareRow =>
    subst hs
    exact ⟨rfl, rfl, by dsimp only; split <;> decide⟩
  case publishClean =>
    subst hs
    exact ⟨rfl, rfl, by dsimp only; split <;> nofun⟩
  all_goals subst hs; exact ⟨rfl, rfl, nofun⟩

/-- It resets `max_row` and goes to the next bucket in one access. -/
theorem Config.procStep_fill (hs : c.procStep d = some d') :
    (d'.hist.procFill = d.hist.procFill ∧ d'.proc.cur = d.proc.cur ∧ d'.maxRow = d.maxRow) ∨
      (d.proc.pc = .resetRow ∧ d'.hist.procFill = d.hist.procFill + 1 ∧ d'.proc.cur = c.nextCur d.proc.cur ∧
        d'.maxRow = 0) := by
  unfold Config.procStep at hs
  cases hq : d.proc.pc <;> rw [hq] at hs <;> simp only [Option.some.injEq, reduceCtorEq] at hs
  case poll => split at hs <;> cases hs <;> exact Or.inl ⟨rfl, rfl, rfl⟩
  case resetRow => subst hs; exact Or.inr ⟨rfl, rfl, rfl, rfl⟩
  case publishClean =>
    subst hs
    refine Or.inl ⟨rfl, ?_, rfl⟩
    dsimp only
    split <;> rfl
  all_goals subst hs; exact Or.inl ⟨rfl, rfl, rfl⟩

/-- The accesses by which the recording thread only finds its way. -/
theorem Config.procStep_quiet (hs : c.procStep d = some d')
    (hpc : d.proc.pc ≠ .store ∧ d.proc.pc ≠ .resetRow ∧ d.proc.pc ≠ .setCaptured ∧ d.proc.pc ≠ .setLast) :
    d'.board = d.board ∧ d'.maxRow = d.maxRow ∧ d'.proc.cur = d.proc.cur ∧ d'.proc.curPartial = d.proc.curPartial ∧
      d'.ring = d.ring ∧ d'.processStop = d.processStop ∧ d'.proc.pc ≠ .setLast ∧
      (d'.proc.pc = .setCaptured → d.processStop = true) ∧
      ∃ slot cleaned, d'.hist = { d.hist with slot := slot, cleaned := cleaned } := by
  unfold Config.procStep at hs
  cases hq : d.proc.pc <;> rw [hq] at hs <;> simp only [Option.some.injEq, reduceCtorEq] at hs
  case store | resetRow | setCaptured | setLast => simp [hq] at hpc
  case poll =>
    split at hs <;> cases hs <;> exact ⟨rfl, rfl, rfl, rfl, rfl, rfl, nofun, nofun, _, _, rfl⟩
  case outer =>
    subst hs
    refine ⟨rfl, rfl, rfl, rfl, rfl, rfl, ?_, ?_, _, _, rfl⟩
    · dsimp only
      split <;> decide
    · intro he
      by_contra hp
      simp [hp] at he
  case waitStart | waitStop | compareRow =>
    subst hs
    refine ⟨rfl, rfl, rfl, rfl, rfl, rfl, ?_, ?_, _, _, rfl⟩
    · dsimp only
      split <;> decide
    · dsimp only
      split <;> nofun
  case publishClean =>
    subst hs
    dsimp only
    split <;> exact ⟨rfl, rfl, rfl, rfl, rfl, rfl, nofun, nofun, _, _, rfl⟩
  case load =>
    subst hs
    exact ⟨rfl, rfl, rfl, rfl, rfl, rfl, nofun, nofun, _, _, rfl⟩

/-- Once the recording thread has set its flag it changes nothing but `last`. -/
theorem Config.procStep_ended (hs : c.procStep d = some d') (hpc : d.proc.pc = .setLast ∨ d.proc.pc = .exited) :
    d'.proc = { d.proc with pc := .exited } ∧ d'.board.captured = d.board.captured := by
  unfold Config.procStep at hs
  rcases hpc with hq | hq <;> rw [hq] at hs <;> cases hs
  exact ⟨rfl, rfl⟩

/-- The recording thread stores one length for each packet. -/
theorem Config.procStep_lens (hs : c.procStep d = some d') :
    d'.board.lens = if d.proc.pc = .store then setLen d.board.lens d.proc.cur d.proc.curPartial d.proc.len else d.board.lens := by
  unfold Config.procStep at hs
  cases hpc : d.proc.pc <;> rw [hpc] at hs <;> simp only [Option.some.injEq, reduceCtorEq] at hs
  case poll => split at hs <;> cases hs <;> rfl
  all_goals subst hs; rfl

/-- The recording thread changes nothing in the ring. -/
theorem Config.procStep_ring (hs : c.procStep d = some d') :
    d'.ring = d.ring ∧ d'.nicHead = d.nicHead ∧ d'.tail = d.tail ∧ d'.processStop = d.processStop := by
  unfold Config.procStep at hs
  cases hpc : d.proc.pc <;> rw [hpc] at hs <;> simp only [Option.some.injEq, reduceCtorEq] at hs
  case poll => split at hs <;> cases hs <;> exact ⟨rfl, rfl, rfl, rfl⟩
  all_goals subst hs; exact ⟨rfl, rfl, rfl, rfl⟩

/-- A thread that has not ended has a next step. -/
theorem Config.procStep_isSome (hpc : d.proc.pc ≠ .exited) : ∃ d', c.procStep d = some d' := by
  unfold Config.procStep
  cases hq : d.proc.pc
  case exited => exact absurd hq hpc
  case poll => dsimp only; split <;> exact ⟨_, rfl⟩
  all_goals exact ⟨_, rfl⟩

theorem Config.procStep_userStart (hs : c.procStep d = some d') : d'.board.userStart = d.board.userStart := by
  unfold Config.procStep at hs
  cases hpc : d.proc.pc <;> rw [hpc] at hs <;> simp only [Option.some.injEq, reduceCtorEq] at hs
  case poll => split at hs <;> cases hs <;> rfl
  all_goals subst hs; rfl

/-! ## The adapter -/

/-- What the adapter changes, and where it finds the address. -/
theorem Config.nicStep_frame {p : List UInt8} (hs : c.nicStep p d = some d') :
    d.nicHead ≠ d.tail ∧ ∃ ring nicHead ram slot, d' = { d with
      ring := ring
      nicHead := nicHead
      board := { d.board with ram := ram }
      hist := { d.hist with
        sent := d.hist.sent ++ [p], addrs := d.hist.addrs ++ [(d.ring d.nicHead).pktAddr], slot := slot } } := by
  unfold Config.nicStep at hs
  split at hs
  · cases hs
  · next hne =>
    cases hs
    exact ⟨hne, _, _, _, _, rfl⟩

/-! ## The programs -/

/-- A program that finds the flag of its bucket set takes the fill. -/
theorem Config.visitStep_take {k : Nat} {s : Capture} (hn : (s.visitor k).holds = none)
    (hc : s.drv.board.captured (s.visitor k).cur ≠ 0) :
    c.visitStep k s = { s with visitor := Function.update s.visitor k { s.visitor k with
      holds := some (s.drv.hist.pubFill (s.visitor k).cur)
      counted := (s.visitor k).counted ++ [s.drv.hist.pubFill (s.visitor k).cur] } } := by
  simp only [Config.visitStep, hn, hc, if_false]

/-- A program that has taken a fill resets the flag and goes on. -/
theorem Config.visitStep_reset {k n : Nat} {s : Capture} (hn : (s.visitor k).holds = some n) :
    c.visitStep k s =
      { drv := { s.drv with board := { s.drv.board with
          captured := Function.update s.drv.board.captured (s.visitor k).cur 0 } }
        visitor := Function.update s.visitor k { s.visitor k with
          holds := none
          cur := c.start1G + ((s.visitor k).cur - c.start1G + (s.visitor k).stride) % c.numBuckets }
        consumed := n :: s.consumed } := by
  simp only [Config.visitStep, hn]

/-- A program at its bucket waits, takes the fill it finds, or resets the flag of the fill it has taken and goes on. -/
theorem Config.visitStep_cases (c : Config) (k : Nat) (s : Capture) :
    c.visitStep k s = s ∨ ((s.visitor k).holds = none ∧ s.drv.board.captured (s.visitor k).cur ≠ 0) ∨
      ∃ n, (s.visitor k).holds = some n := by
  cases hh : (s.visitor k).holds with
  | none =>
    by_cases h0 : s.drv.board.captured (s.visitor k).cur = 0
    · exact Or.inl (by simp only [Config.visitStep, hh, h0, if_true])
    · exact Or.inr (Or.inl ⟨rfl, h0⟩)
  | some n => exact Or.inr (Or.inr ⟨n, rfl⟩)

/-- Of the driver a program changes only flags, and only to zero. -/
theorem Config.visitStep_drv (c : Config) (k : Nat) (s : Capture) :
    ∃ captured, (c.visitStep k s).drv = { s.drv with board := { s.drv.board with captured := captured } } ∧
      ∀ b, captured b = s.drv.board.captured b ∨ captured b = 0 := by
  rcases c.visitStep_cases k s with he | ⟨hn, hc⟩ | ⟨n, hn⟩
  · rw [he]
    exact ⟨s.drv.board.captured, rfl, fun _ => Or.inl rfl⟩
  · rw [Config.visitStep_take hn hc]
    exact ⟨s.drv.board.captured, rfl, fun _ => Or.inl rfl⟩
  · rw [Config.visitStep_reset hn]
    refine ⟨_, rfl, fun b => ?_⟩
    by_cases hb : b = (s.visitor k).cur
    · rw [hb]
      exact Or.inr (Function.update_self ..)
    · exact Or.inl (Function.update_of_ne hb ..)

end NicRecorder
