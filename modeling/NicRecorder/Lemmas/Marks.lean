import NicRecorder.Lemmas.Contents

/-!
# The words that mark the last file

`last` is stored by the recording thread with its final access, `stalled` by a process of `todisk` that finds itself late; no step resets
either of them but a clear of the header. `Marked` says what the two words are in every bucket.
-/

namespace NicRecorder

open ByteMem Runs

section Machine

variable {H : Host} {m m' : Machine}

/-- The words of the headers that name the last file: `last` is on the board as well, and no bucket is marked as stalled in a run that
is to have none. -/
structure Host.Marked (H : Host) (quiet : Prop) (m : Machine) : Prop where
  last : ∀ b, H.config.IsBucket b → wordOf lastOff m.mem b = m.cap.drv.board.last b
  stalled : quiet → ∀ b, H.config.IsBucket b → wordOf stalledOff m.mem b = 0
  unstalled : quiet → ∀ pid w, m.prog pid = some (.todisk w) → w.pc ≠ .markStalled

/-- The step is not that of a process that finds itself late. -/
def Machine.NoStall (m : Machine) (a : MachineAct) : Prop :=
  ∀ pid n time w, a = .exec pid n time → m.prog pid = some (.todisk w) → w.pc ≠ .raiseStop

theorem mark_offsets {off : Nat} (hoff : off = lastOff ∨ off = stalledOff) :
    off + 4 ≤ realSize ∧ numCapturedOff + 4 ≤ off ∧ off + 4 ≤ lenOff := by
  rcases hoff with rfl | rfl <;> decide

/-- The refill thread stores none of the two words. -/
theorem Config.allocStore_mark (c : Config) (d : Driver) (mem : Mem) {off : Nat} (hoff : off = lastOff ∨ off = stalledOff) (b : Nat) :
    wordOf off (c.allocStore d mem) b = wordOf off mem b := by
  obtain ⟨h1, h2, -⟩ := mark_offsets hoff
  have hle : numCapturedOff + 4 ≤ realSize := by decide
  unfold Config.allocStore
  split
  · exact wordOf_store_hdr mem h1 (by rw [leBytes_length]; exact hle) (Or.inr (Or.inl (by rw [leBytes_length]; exact h2)))
  · rfl

/-- The recording thread stores `last` with its final access, and no other of them. -/
theorem Config.Inv.procStore_mark {c : Config} {d : Driver} (hi : c.Inv d) (mem : Mem) {off : Nat}
    (hoff : off = lastOff ∨ off = stalledOff) (b : Nat) :
    wordOf off (d.procStore mem) b =
      if d.proc.pc = .setLast ∧ off = lastOff ∧ b = d.proc.cur then 1 else wordOf off mem b := by
  obtain ⟨h1, h2, h3⟩ := mark_offsets hoff
  unfold Driver.procStore
  cases hpc : d.proc.pc <;> simp only [reduceCtorEq, false_and, if_false, true_and]
  case store =>
    have hblock := hi.store_inBlock hpc
    have hbig : lenBlockOff + lenBlockSize ≤ 2 ^ 30 := by decide
    rw [Mem.store16, hdrAt]
    exact wordOf_store mem h1 (by rw [leBytes_length]; omega) (Or.inr (Or.inr (by omega)))
  case setCaptured =>
    have hle : numCapturedOff + 4 ≤ realSize := by decide
    exact wordOf_store_hdr mem h1 (by rw [leBytes_length]; exact hle) (Or.inr (Or.inl (by rw [leBytes_length]; exact h2)))
  case setLast =>
    rcases hoff with rfl | rfl
    · simp only [true_and]
      exact wordOf_store32 mem b _ h1 (by decide)
    · have hne : stalledOff ≠ lastOff := by decide
      have hle : lastOff + 4 ≤ stalledOff := by decide
      rw [if_neg (fun he => hne he.1)]
      exact wordOf_store_hdr mem h1 (by rw [leBytes_length]; omega) (Or.inr (Or.inl (by rw [leBytes_length]; exact hle)))

/-- A packet that the adapter stores is in no header. -/
theorem Host.Placed.nic_mark (h : H.Placed m) {p : List UInt8} (hp : Deliverable p) {off : Nat}
    (hoff : off = lastOff ∨ off = stalledOff) (b : Nat) :
    wordOf off (m.mem.store (m.cap.drv.ring m.cap.drv.nicHead).pktAddr p) b = wordOf off m.mem b := by
  have hroom := h.inside m.cap.drv.nicHead
  have hlen := hp.2
  have hbig : lenBlockOff ≤ 2 ^ 30 := by decide
  rw [← Nat.div_add_mod' (m.cap.drv.ring m.cap.drv.nicHead).pktAddr (2 ^ 30)]
  exact wordOf_store m.mem (mark_offsets hoff).1 (by omega) (Or.inr (Or.inl (by omega)))

/-- A process of `todisk` stores no word of a header behind the flag but `stalled`. -/
theorem Host.todiskStep_word {pid n time : Nat} {w : Todisk} (hs : H.todiskStep m pid w n time = some m') {off : Nat}
    (hoff : off = lastOff ∨ off = stalledOff) (b : Nat) :
    wordOf off m'.mem b = if w.pc = .markStalled ∧ off = stalledOff ∧ b = w.cur then 1 else wordOf off m.mem b := by
  obtain ⟨h1, h2, -⟩ := mark_offsets hoff
  unfold Host.todiskStep at hs
  cases hpc : w.pc <;> rw [hpc] at hs <;> simp only [Option.some.injEq, reduceCtorEq, false_and, true_and, if_false] at hs ⊢
  case markStalled =>
    subst hs
    rcases hoff with rfl | rfl
    · have hne : lastOff ≠ stalledOff := by decide
      have hle : lastOff + 4 ≤ stalledOff ∧ stalledOff + 4 ≤ realSize := by decide
      rw [if_neg (fun he => hne he.1)]
      exact wordOf_store_hdr m.mem h1 (by rw [leBytes_length]; exact hle.2) (Or.inr (Or.inr hle.1))
    · simp only [true_and]
      exact wordOf_store32 m.mem b _ h1 (by decide)
  case stamp =>
    subst hs
    have hle : userStampOff + 8 ≤ numCapturedOff := by decide
    exact wordOf_store_hdr m.mem h1 (by rw [leBytes_length]; omega) (Or.inr (Or.inl (by rw [leBytes_length]; omega)))
  case reset =>
    subst hs
    exact wordOf_store_hdr m.mem h1 (by rw [leBytes_length]; omega) (Or.inr (Or.inl (by rw [leBytes_length]; exact h2)))
  case poll | copyLens | copyData => split at hs <;> cases hs <;> rfl
  all_goals subst hs; rfl

theorem Host.discardStep_quiet {pid : Nat} {v : Discard} (hc : v.pc ≠ .clear) (hs : H.discardStep m pid v = some m') :
    m'.cap = m.cap ∧ m'.mem = m.mem ∧ m'.disk = m.disk ∧ ∃ v', m'.prog = Function.update m.prog pid (some (.discard v')) := by
  unfold Host.discardStep at hs
  cases hpc : v.pc <;> rw [hpc] at hs <;> simp only [Option.some.injEq, reduceCtorEq] at hs
  case clear => exact absurd hpc hc
  case poll => split at hs <;> cases hs <;> exact ⟨rfl, rfl, rfl, _, rfl⟩
  all_goals subst hs; exact ⟨rfl, rfl, rfl, _, rfl⟩

theorem Host.marked_init {quiet : Prop} (hi : H.machine.init m) : H.Marked quiet m := by
  obtain ⟨ram, disk, rfl⟩ := hi
  exact ⟨fun b hb => H.config.initAll_word (by decide) hb ram, fun _ b hb => H.config.initAll_word (by decide) hb ram, nofun⟩

/-- A step of the driver leaves the end mark of a bucket in the memory and on the board, or sets it in both. -/
theorem Host.Placed.drv_last (hp : H.Placed m) {cap : Capture} {a : Act} (hs : H.config.Step 0 m.cap a cap) (b : Nat) :
    wordOf lastOff (H.config.driverStore m.cap.drv m.mem a) b = cap.drv.board.last b ∨
      wordOf lastOff (H.config.driverStore m.cap.drv m.mem a) b = wordOf lastOff m.mem b ∧
        cap.drv.board.last b = m.cap.drv.board.last b := by
  cases hs with
  | alloc hs =>
    refine Or.inr ⟨Config.allocStore_mark _ _ _ (Or.inl rfl) b, ?_⟩
    dsimp only
    rw [(Config.allocStep_rest hs).1]
  | proc hs =>
    have hword := hp.inv.procStore_mark m.mem (Or.inl rfl) b
    have hboard := Config.procStep_last hs
    by_cases hpc : m.cap.drv.proc.pc = .setLast
    · by_cases hb : b = m.cap.drv.proc.cur
      · refine Or.inl (hword.trans ?_)
        dsimp only
        rw [if_pos ⟨hpc, rfl, hb⟩, hboard, if_pos hpc, hb, Function.update_self]
      · refine Or.inr ⟨hword.trans (if_neg fun he => hb he.2.2), ?_⟩
        dsimp only
        rw [hboard, if_pos hpc, Function.update_of_ne hb]
    · refine Or.inr ⟨hword.trans (if_neg fun he => hpc he.1), ?_⟩
      dsimp only
      rw [hboard, if_neg hpc]
  | nic p hdel hs =>
    obtain ⟨-, ring, head, ram, slot, rfl⟩ := Config.nicStep_frame hs
    exact Or.inr ⟨hp.nic_mark hdel (Or.inl rfl) b, rfl⟩
  | userStart | userStop => exact Or.inr ⟨rfl, rfl⟩
  | visit k hk => exact absurd hk (Nat.not_lt_zero k)

/-- No step of the driver marks a bucket as stalled. -/
theorem Host.Placed.drv_stalled (hp : H.Placed m) {cap : Capture} {a : Act} (hs : H.config.Step 0 m.cap a cap) (b : Nat) :
    wordOf stalledOff (H.config.driverStore m.cap.drv m.mem a) b = wordOf stalledOff m.mem b := by
  have hne : stalledOff ≠ lastOff := by decide
  cases hs with
  | alloc hs => exact Config.allocStore_mark _ _ _ (Or.inr rfl) b
  | proc hs => exact (hp.inv.procStore_mark m.mem (Or.inr rfl) b).trans (if_neg fun he => hne he.2.1)
  | nic p hdel hs => exact hp.nic_mark hdel (Or.inr rfl) b
  | userStart | userStop => rfl
  | visit k hk => exact absurd hk (Nat.not_lt_zero k)

theorem Host.Marked.drv {quiet : Prop} (h : H.Marked quiet m) (hp : H.Placed m) {cap : Capture} {a : Act}
    (hs : H.config.Step 0 m.cap a cap) :
    H.Marked quiet { m with cap := cap, mem := H.config.driverStore m.cap.drv m.mem a } := by
  refine ⟨fun b hb => ?_, fun hq b hb => (hp.drv_stalled hs b).trans (h.stalled hq b hb), h.unstalled⟩
  rcases hp.drv_last hs b with he | ⟨hw, he⟩
  · exact he
  · exact hw.trans ((h.last b hb).trans he.symm)

/-- A process comes to mark its bucket only behind its stop. -/
theorem Host.todiskStep_stall {pid n time : Nat} {w : Todisk} (hs : H.todiskStep m pid w n time = some m') :
    ∃ w', m'.prog = Function.update m.prog pid (some (.todisk w')) ∧ (w'.pc = .markStalled → w.pc = .raiseStop) := by
  unfold Host.todiskStep at hs
  cases hp : w.pc <;> rw [hp] at hs <;> simp only [Option.some.injEq, reduceCtorEq] at hs
  case again0 =>
    subst hs
    refine ⟨_, rfl, ?_⟩
    rcases w.again0_pc m.userStop with he | he <;> rw [he] <;> nofun
  case poll =>
    split at hs <;> cases hs
    · exact ⟨_, rfl, nofun⟩
    · refine ⟨_, rfl, ?_⟩
      dsimp only
      split <;> nofun
  case pollStop =>
    subst hs
    refine ⟨_, rfl, ?_⟩
    dsimp only
    split <;> nofun
  case copyLens | copyData =>
    split at hs <;> cases hs <;> exact ⟨_, rfl, nofun⟩
  case close =>
    subst hs
    refine ⟨_, rfl, ?_⟩
    rcases H.endBlock_pc w with he | he <;> rw [he] <;> nofun
  all_goals subst hs; exact ⟨_, rfl, by first | exact fun _ => rfl | nofun⟩

theorem Host.Marked.exec {quiet : Prop} (h : H.Marked quiet m) {pid n time : Nat} (hc : m.NoClear (.exec pid n time))
    (hns : quiet → m.NoStall (.exec pid n time)) (hs : H.execStep m pid n time = some m') : H.Marked quiet m' := by
  have hlast : m'.cap.drv.board.last = m.cap.drv.board.last := by
    obtain ⟨p, -, hm⟩ := H.execStep_moves hs
    rcases hm.cap with he | he <;> rw [he]
    rfl
  unfold Host.execStep at hs
  split at hs
  · next w hw =>
    have hne : lastOff ≠ stalledOff := by decide
    refine ⟨fun b hb => ?_, fun hq b hb => ?_, fun hq q w' hw' => ?_⟩
    · rw [hlast, H.todiskStep_word hs (Or.inl rfl), if_neg (fun he => hne he.2.1)]
      exact h.last b hb
    · rw [H.todiskStep_word hs (Or.inr rfl), if_neg (fun he => h.unstalled hq pid w hw he.1)]
      exact h.stalled hq b hb
    · obtain ⟨w₁, hprog, hstall⟩ := H.todiskStep_stall hs
      rw [hprog] at hw'
      rcases update_prog hw' with ho | ho
      · exact h.unstalled hq q w' ho
      · rw [Option.some.injEq, Program.todisk.injEq] at ho
        exact ho ▸ fun he => hns hq pid n time w rfl hw (hstall he)
  · next v hv =>
    obtain ⟨-, hmem, -, v', hprog⟩ := H.discardStep_quiet (hc pid n time v rfl hv) hs
    refine ⟨by rw [hlast, hmem]; exact h.last, by rw [hmem]; exact h.stalled, fun hq q w hw => ?_⟩
    rw [hprog] at hw
    exact h.unstalled hq q w ((update_prog hw).resolve_right (by simp))
  · cases hs

/-- Every step but a clear, and but a stall in a run without one, keeps the marks. -/
theorem Host.Marked.step {quiet : Prop} {a : MachineAct} (h : H.Marked quiet m) (hp : H.Placed m) (hc : m.NoClear a)
    (hns : quiet → m.NoStall a) (hst : H.Step m a m') : H.Marked quiet m' := by
  cases hst with
  | drv a hs => exact h.drv hp hs
  | startTodisk pid id hnone hid =>
    refine ⟨h.last, h.stalled, fun hq q w hw => ?_⟩
    rcases update_prog hw with ho | ho
    · exact h.unstalled hq q w ho
    · rw [Option.some.injEq, Program.todisk.injEq] at ho
      rw [← ho]
      nofun
  | startDiscard pid hnone | kill pid =>
    exact ⟨h.last, h.stalled, fun hq q w hw => h.unstalled hq q w ((update_prog hw).resolve_right (by simp))⟩
  | exec pid n time hs => exact h.exec hc hns hs

end Machine

end NicRecorder
