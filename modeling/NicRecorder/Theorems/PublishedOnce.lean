import NicRecorder.Theorems.Completeness

/-!
# A fill can be published twice

The store that publishes a bucket is inside the loop over slots: it is made again for every slot of the last row that is beyond
the limit. The recording thread may make another one for the same fill at the end. A program that resets the flag in between
leaves a flag behind that the driver sets again. No fill is published again after it was consumed if the programs reset a flag
only when neither thread can set it for that fill any more.
-/

namespace NicRecorder

open ByteMem Runs

variable {c : Config} {writers : Nat}

/-- The step stores a number in the flag of a bucket for a fill that a program has consumed before. -/
def Republishes (s : Capture) (a : Act) : Prop :=
  (a = .alloc ∧ s.drv.alloc.pc = .setCaptured ∧ s.drv.hist.allocFill ∈ s.consumed) ∨
    (a = .proc ∧ s.drv.proc.pc = .setCaptured ∧ s.drv.proc.curPartial ≠ 0 ∧ s.drv.hist.procFill ∈ s.consumed)

/-- In one state: no flag is left over from a fill that was consumed, and no program has counted a fill twice. -/
structure OnlyOnce (s : Capture) : Prop where
  flag : ∀ b, s.drv.board.captured b ≠ 0 → s.drv.hist.pubFill b ∉ s.consumed
  counted : ∀ k, (s.visitor k).counted.Nodup

/-- Neither thread can publish fill `n` any more: it has gone on to a later fill, or to its end. -/
def Driver.Past (d : Driver) (n : Nat) : Prop :=
  (n < d.hist.allocFill ∨ d.alloc.pc = .setStop ∨ d.alloc.pc = .exited) ∧
    (n < d.hist.procFill ∨ d.proc.pc = .setLast ∨ d.proc.pc = .exited)

/-- A program resets the flag of a fill only when both threads are past it. -/
def ResetsPast (s : Capture) (a : Act) : Prop :=
  ∀ k, a = .visit k → ∀ n, (s.visitor k).holds = some n → s.drv.Past n

/-! ## The threads go forward -/

theorem Config.allocStep_past {d d' : Driver} {n : Nat} (hs : c.allocStep d = some d') (h : d.Past n) : d'.Past n := by
  obtain ⟨hproc, -, -, -, hpf⟩ := Config.allocStep_frame hs
  refine ⟨?_, by rw [hproc, hpf]; exact h.2⟩
  rcases h.1 with h1 | h1 | h1
  · rcases Config.allocStep_fill hs with ⟨h2, -⟩ | ⟨-, -, h2, -⟩
    · exact Or.inl (by omega)
    · exact Or.inl (by omega)
  · simp only [Config.allocStep, h1, Option.some.injEq] at hs
    subst hs
    exact Or.inr (Or.inr rfl)
  · simp only [Config.allocStep, h1, reduceCtorEq] at hs

theorem Config.procStep_past {d d' : Driver} {n : Nat} (hs : c.procStep d = some d') (h : d.Past n) : d'.Past n := by
  obtain ⟨halloc, -, -, -, hfill⟩ := Config.procStep_frame hs
  refine ⟨by rw [halloc, hfill]; exact h.1, ?_⟩
  rcases h.2 with h1 | h1
  · rcases Config.procStep_fill hs with ⟨h2, -⟩ | ⟨-, h2, -⟩
    · exact Or.inl (by omega)
    · exact Or.inl (by omega)
  · rw [(Config.procStep_ended hs h1).1]
    exact Or.inr (Or.inr rfl)

/-! ## The invariant -/

/-- What holds between the flags, the fills that were consumed and the programs. -/
structure Config.OnceInv (c : Config) (s : Capture) : Prop where
  allocCur : s.drv.alloc.cur = c.bucketOf s.drv.hist.allocFill
  procCur : s.drv.proc.cur = c.bucketOf s.drv.hist.procFill
  past : ∀ n ∈ s.consumed, s.drv.Past n
  flagBucket : ∀ b, s.drv.board.captured b ≠ 0 → c.bucketOf (s.drv.hist.pubFill b) = b
  flag : ∀ b, s.drv.board.captured b ≠ 0 → s.drv.hist.pubFill b ∉ s.consumed
  holds : ∀ k n, (s.visitor k).holds = some n → c.bucketOf n = (s.visitor k).cur
  counted : ∀ k, ∀ n ∈ (s.visitor k).counted, n ∈ s.consumed ∨ (s.visitor k).holds = some n
  nodup : ∀ k, (s.visitor k).counted.Nodup

/-- A thread that is about to publish a fill is not past it. -/
theorem Config.OnceInv.not_republishes {s : Capture} (h : c.OnceInv s) (a : Act) : ¬Republishes s a := by
  rintro (⟨-, hpc, hmem⟩ | ⟨-, hpc, -, hmem⟩)
  · rcases (h.past _ hmem).1 with h1 | h1 | h1
    · exact Nat.lt_irrefl _ h1
    · rw [hpc] at h1
      cases h1
    · rw [hpc] at h1
      cases h1
  · rcases (h.past _ hmem).2 with h1 | h1 | h1
    · exact Nat.lt_irrefl _ h1
    · rw [hpc] at h1
      cases h1
    · rw [hpc] at h1
      cases h1

/-- A store of a flag for a fill that was not consumed keeps what is known about the flags. -/
theorem flag_update {captured pubFill : Nat → Nat} {consumed : List Nat} {cur m n : Nat}
    (hb : ∀ b, captured b ≠ 0 → c.bucketOf (pubFill b) = b) (hf : ∀ b, captured b ≠ 0 → pubFill b ∉ consumed)
    (hcur : cur = c.bucketOf n) (hn : m ≠ 0 → n ∉ consumed) :
    ∀ b, Function.update captured cur m b ≠ 0 →
      c.bucketOf (Function.update pubFill cur n b) = b ∧ Function.update pubFill cur n b ∉ consumed := by
  intro b hne
  by_cases he : b = cur
  · rw [he, Function.update_self] at hne
    rw [he, Function.update_self]
    exact ⟨hcur.symm, hn hne⟩
  · rw [Function.update_of_ne he] at hne ⊢
    exact ⟨hb b hne, hf b hne⟩

theorem Config.OnceInv.allocStep {s : Capture} {d : Driver} (h : c.OnceInv s) (hs : c.allocStep s.drv = some d) :
    c.OnceInv { s with drv := d } := by
  obtain ⟨hproc, -, -, -, hpf⟩ := Config.allocStep_frame hs
  have hcur : d.alloc.cur = c.bucketOf d.hist.allocFill := by
    rcases Config.allocStep_fill hs with ⟨h1, h2⟩ | ⟨-, -, h1, h2⟩
    · rw [h1, h2, h.allocCur]
    · rw [h1, h2, h.allocCur, c.nextCur_bucketOf]
  have hflag : ∀ b, d.board.captured b ≠ 0 → c.bucketOf (d.hist.pubFill b) = b ∧ d.hist.pubFill b ∉ s.consumed := by
    by_cases hpc : s.drv.alloc.pc = .setCaptured
    · have hn : s.drv.hist.allocFill ∉ s.consumed := fun hm => h.not_republishes .alloc (Or.inl ⟨rfl, hpc, hm⟩)
      simp only [Config.allocStep, hpc, Option.some.injEq] at hs
      subst hs
      exact flag_update h.flagBucket h.flag h.allocCur fun _ => hn
    · obtain ⟨hboard, hpub, -⟩ := Config.allocStep_board hs hpc
      rw [hboard, hpub]
      exact fun b hb => ⟨h.flagBucket b hb, h.flag b hb⟩
  exact ⟨hcur, by rw [hproc, hpf]; exact h.procCur, fun n hn => Config.allocStep_past hs (h.past n hn),
    fun b hb => (hflag b hb).1, fun b hb => (hflag b hb).2, h.holds, h.counted, h.nodup⟩

theorem Config.OnceInv.procStep {s : Capture} {d : Driver} (h : c.OnceInv s) (hs : c.procStep s.drv = some d) :
    c.OnceInv { s with drv := d } := by
  obtain ⟨halloc, -, -, -, hfill⟩ := Config.procStep_frame hs
  have hcur : d.proc.cur = c.bucketOf d.hist.procFill := by
    rcases Config.procStep_fill hs with ⟨h1, h2, -⟩ | ⟨-, h1, h2, -⟩
    · rw [h1, h2, h.procCur]
    · rw [h1, h2, h.procCur, c.nextCur_bucketOf]
  have hflag : ∀ b, d.board.captured b ≠ 0 → c.bucketOf (d.hist.pubFill b) = b ∧ d.hist.pubFill b ∉ s.consumed := by
    by_cases hpc : s.drv.proc.pc = .setCaptured
    · simp only [Config.procStep, hpc, Option.some.injEq] at hs
      subst hs
      exact flag_update h.flagBucket h.flag h.procCur
        fun h0 hm => h.not_republishes .proc (Or.inr ⟨rfl, hpc, h0, hm⟩)
    · obtain ⟨hcap, hpub, -⟩ := Config.procStep_captured hs hpc
      rw [hcap, hpub]
      exact fun b hb => ⟨h.flagBucket b hb, h.flag b hb⟩
  exact ⟨by rw [halloc, hfill]; exact h.allocCur, hcur, fun n hn => Config.procStep_past hs (h.past n hn),
    fun b hb => (hflag b hb).1, fun b hb => (hflag b hb).2, h.holds, h.counted, h.nodup⟩

/-- A program takes a fill that was not consumed, and consumes it when both threads are past it. -/
theorem Config.OnceInv.visit {s : Capture} (h : c.OnceInv s) (k : Nat) (hpast : ResetsPast s (.visit k)) :
    c.OnceInv (c.visitStep k s) := by
  rcases c.visitStep_cases k s with he | ⟨hnone, hset⟩ | ⟨n, hsome⟩
  · rw [he]
    exact h
  · rw [Config.visitStep_take hnone hset]
    have hnew : s.drv.hist.pubFill (s.visitor k).cur ∉ (s.visitor k).counted := by
      intro hm
      rcases h.counted k _ hm with h1 | h1
      · exact h.flag _ hset h1
      · rw [hnone] at h1
        cases h1
    refine ⟨h.allocCur, h.procCur, h.past, h.flagBucket, h.flag, fun k' n hn => ?_, fun k' n hn => ?_, fun k' => ?_⟩ <;>
      by_cases hk : k' = k <;> simp only [hk, Function.update_self, ne_eq, not_false_eq_true, Function.update_of_ne] at *
    · rw [← Option.some.inj hn]
      exact h.flagBucket _ hset
    · exact h.holds k' n hn
    · rcases List.mem_append.mp hn with h1 | h1
      · rcases h.counted k n h1 with h2 | h2
        · exact Or.inl h2
        · rw [hnone] at h2
          cases h2
      · rw [List.mem_singleton] at h1
        exact Or.inr (by rw [h1])
    · exact h.counted k' n hn
    · rw [List.nodup_append]
      refine ⟨h.nodup k, by simp, fun a ha b hb => ?_⟩
      rw [List.mem_singleton] at hb
      rintro rfl
      exact hnew (hb ▸ ha)
    · exact h.nodup k'
  · rw [Config.visitStep_reset hsome]
    have hbucket := h.holds k n hsome
    have hpn := hpast k rfl n hsome
    refine ⟨h.allocCur, h.procCur, fun m hm => ?_, fun b hb => ?_, fun b hb hmem => ?_, fun k' m hm => ?_, fun k' m hm => ?_,
      fun k' => ?_⟩
    · rcases List.mem_cons.mp hm with rfl | hm
      · exact hpn
      · exact h.past m hm
    · by_cases hb' : b = (s.visitor k).cur
      · rw [hb'] at hb
        exact absurd (Function.update_self ..) hb
      · exact h.flagBucket b fun hz => hb ((Function.update_of_ne hb' ..).trans hz)
    · by_cases hb' : b = (s.visitor k).cur
      · rw [hb'] at hb
        exact absurd (Function.update_self ..) hb
      · have hb'' : s.drv.board.captured b ≠ 0 := fun hz => hb ((Function.update_of_ne hb' ..).trans hz)
        rcases List.mem_cons.mp hmem with h1 | h1
        · have h2 := h.flagBucket b hb''
          have h3 : s.drv.hist.pubFill b = n := h1
          rw [h3, hbucket] at h2
          exact hb' h2.symm
        · exact h.flag b hb'' h1
    all_goals by_cases hk : k' = k
    all_goals simp only [hk, Function.update_self, ne_eq, not_false_eq_true, Function.update_of_ne, reduceCtorEq] at *
    · exact h.holds k' m hm
    · rcases h.counted k m hm with h1 | h1
      · exact Or.inl (List.mem_cons_of_mem _ h1)
      · rw [hsome] at h1
        exact Or.inl (by rw [Option.some.inj h1]; exact List.mem_cons_self)
    · rcases h.counted k' m hm with h1 | h1
      · exact Or.inl (List.mem_cons_of_mem _ h1)
      · exact Or.inr h1
    · exact h.nodup k
    · exact h.nodup k'

/-- Every step keeps the invariant if the programs reset only what the threads are past. -/
theorem Config.OnceInv.step {s t : Capture} {a : Act} (h : c.OnceInv s) (ha : ResetsPast s a) (hst : c.Step writers s a t) :
    c.OnceInv t := by
  cases hst with
  | alloc hs => exact h.allocStep hs
  | proc hs => exact h.procStep hs
  | nic p hp hs =>
    unfold Config.nicStep at hs
    split at hs <;> cases hs
    exact ⟨h.allocCur, h.procCur, h.past, h.flagBucket, h.flag, h.holds, h.counted, h.nodup⟩
  | userStart => exact ⟨h.allocCur, h.procCur, h.past, h.flagBucket, h.flag, h.holds, h.counted, h.nodup⟩
  | userStop => exact ⟨h.allocCur, h.procCur, h.past, h.flagBucket, h.flag, h.holds, h.counted, h.nodup⟩
  | visit k hk => exact h.visit k ha

theorem Config.onceInv_init {s : Capture} (h : (c.capture writers).init s) : c.OnceInv s := by
  obtain ⟨lens, ram, rfl⟩ := h
  refine ⟨?_, ?_, nofun, fun b hb => absurd rfl hb, fun b hb => absurd rfl hb, nofun, nofun, fun _ => List.nodup_nil⟩
  · simp [Config.startDriver, Config.bucketOf]
  · simp [Config.startDriver, Config.bucketOf]

/-! ## The result -/

/-- In every capture in which the programs reset a flag only when both threads are past its fill, no fill is published again
after it was consumed, no flag is left over, and no program counts a fill twice. -/
theorem published_once (c : Config) (writers : Nat) {s t : Capture} {tr : List (Capture × Act)}
    (hi : (c.capture writers).init s) (hr : Run (c.capture writers) s tr t) (hm : Meets ResetsPast tr) :
    (∀ x ∈ tr, ¬Republishes x.1 x.2) ∧ ∀ u ∈ visited tr t, OnlyOnce u := by
  have hinv := hr.visited_invariant (I := c.OnceInv) (fun _ _ _ h ha hst => h.step ha hst) (Config.onceInv_init hi) hm
  refine ⟨fun x hx => (hinv x.1 ?_).not_republishes x.2, fun u hu => ⟨(hinv u hu).flag, (hinv u hu).nodup⟩⟩
  exact List.mem_append_left _ (List.mem_map_of_mem hx)

/-! ## A consumer between two stores -/

/-- The state of the driver while the refill thread gets from its first store of a row to the second one: it is at the first or
the second slot of row `r` of the first bucket. -/
structure Config.BetweenStores (c : Config) (r : Nat) (d : Driver) : Prop where
  fill : d.hist.allocFill = 0
  row : d.alloc.supRow = r
  slot : (d.alloc.supPartial = 0 ∧ (d.alloc.pc = .setMaxRow ∨ d.alloc.pc = .clearHdr ∨ d.alloc.pc = .setAddr)) ∨
    (d.alloc.supPartial = 1 ∧ d.alloc.pc ≠ .setMaxRow ∧ d.alloc.pc ≠ .clearHdr ∧ d.alloc.pc ≠ .setAddr)

/-- The second slot is beyond the limit as well, so the refill thread stays there or makes the store. -/
theorem Config.BetweenStores.allocStep {p : List UInt8} {r : Nat} {d d' : Driver} (h : c.BetweenStores r d) (hl : c.Lazy d)
    (hall : ∀ q ∈ d.hist.sent, q = p) (hr : r ≠ 0) (hlim : c.byteLimit < p.length * r) (hs : c.allocStep d = some d')
    (hpc' : d.alloc.pc ≠ .setCaptured) : c.BetweenStores r d' := by
  obtain ⟨hfill, hrow, hslot⟩ := h
  have hloop := hl.loop
  have hN := c.slots_ge
  unfold Config.allocStep at hs
  cases hpc : d.alloc.pc <;> rw [hpc] at hs hloop <;> simp only [Option.some.injEq, reduceCtorEq] at hs
  all_goals simp only [hpc, reduceCtorEq, or_self, and_false, false_or, or_false, ne_eq, not_false_eq_true, and_self, and_true,
    not_true_eq_false, or_true] at hslot
  case waitStart | waitStop | setStart | setStop => cases hloop
  case setCaptured => exact absurd hpc hpc'
  case checkStop =>
    subst hs
    simp only [hl.running, Bool.false_eq_true, if_false]
    exact ⟨hfill, hrow, Or.inr ⟨hslot, by simp⟩⟩
  case readClean =>
    split at hs <;> cases hs
    · exact ⟨hfill, hrow, Or.inr ⟨hslot, by simp⟩⟩
    · refine ⟨hfill, hrow, Or.inr ⟨hslot, ?_⟩⟩
      simp [slotPc, hrow, hr]
  case accumulate =>
    have harm : d.alloc.rowArmed = d.alloc.supPartial := AllocThread.rowArmed_of_ne (by rw [hpc]; decide)
    have hover : c.byteLimit < c.grown d := by
      rw [hl.inv.grown_eq hpc, hl.inv.held_const hall (by omega) (by omega), hrow]
      exact hlim
    subst hs
    rw [if_pos hover]
    exact ⟨hfill, hrow, Or.inr ⟨hslot, by simp⟩⟩
  case setMaxRow =>
    subst hs
    exact ⟨hfill, hrow, Or.inl ⟨hslot, Or.inr (Or.inl rfl)⟩⟩
  case clearHdr =>
    subst hs
    exact ⟨hfill, hrow, Or.inl ⟨hslot, Or.inr (Or.inr rfl)⟩⟩
  case setAddr =>
    subst hs
    refine ⟨hfill, hrow, Or.inr ⟨by show d.alloc.supPartial + 1 = 1; omega, ?_⟩⟩
    dsimp only
    split
    · simp [slotPc, hrow, hr]
    · decide
  case endRow =>
    subst hs
    unfold Config.endRow
    rw [if_neg (by omega)]
    exact ⟨hfill, hrow, Or.inr ⟨hslot, by simp⟩⟩
  case writeTail =>
    subst hs
    exact ⟨hfill, hrow, Or.inr ⟨hslot, by simp⟩⟩

/-- A step of the slowest schedule while the flag of the first bucket stays reset. -/
theorem Config.BetweenStores.step {p : List UInt8} {r : Nat} {u v : Capture} {a : Act} (h : c.BetweenStores r u.drv)
    (hall : ∀ q ∈ u.drv.hist.sent, q = p) (hr : r ≠ 0) (hlim : c.byteLimit < p.length * r) (ha : c.Lazily p u a)
    (hst : c.Step writers u a v) (hv : v.drv.board.captured (c.bucketOf 0) = 0) : c.BetweenStores r v.drv := by
  cases hst with
  | alloc hs =>
    have hl : c.Lazy u.drv := ha
    refine h.allocStep hl hall hr hlim hs fun hpc => ?_
    have hcur := hl.inv.wrapped.alloc_cur
    rw [h.fill] at hcur
    have hend := hl.inv.rowEnd_eq
    simp only [Config.allocStep, hpc, Option.some.injEq] at hs
    subst hs
    simp only [← hcur, Function.update_self] at hv
    rw [hend] at hv
    exact Nat.mul_ne_zero (Nat.succ_ne_zero _) (Nat.pos_iff_ne_zero.mp c.slots_pos) hv
  | proc hs =>
    obtain ⟨halloc, -, -, -, hfill⟩ := Config.procStep_frame hs
    exact ⟨by rw [hfill]; exact h.fill, by rw [halloc]; exact h.row, by rw [halloc]; exact h.slot⟩
  | nic q hq hs =>
    unfold Config.nicStep at hs
    split at hs <;> cases hs
    exact ⟨h.fill, h.row, h.slot⟩
  | userStart | userStop | visit _ _ => exact ha.elim

/-- The refill thread publishes the first bucket for the first time, and a program finds the flag. -/
theorem Config.exists_taken (c : Config) {p : List UInt8} (hp : Deliverable p) :
    ∃ s tr d v, (c.capture 1).init s ∧ Run (c.capture 1) s tr ⟨d, v, []⟩ ∧ Meets c.NotDry tr ∧ Meets ResetsPast tr ∧ c.Lazy d ∧
      (v 0).holds = some 0 ∧ (v 0).cur = c.bucketOf 0 ∧ c.BetweenStores d.alloc.supRow d ∧ d.alloc.supRow ≠ 0 ∧
      (∀ q ∈ d.hist.sent, q = p) ∧ c.byteLimit < p.length * d.alloc.supRow := by
  obtain ⟨tr, d, hr, hquiet, hd, hpc, hfill, hsp, hall, hlim⟩ := c.exists_first_over 1 hp (fun _ _ => 0) fun _ => 0
  obtain ⟨d1, hs1, h1⟩ := hd.allocStep
  have hrow := hd.inv.agreed.rowPc (Or.inr (Or.inl hpc))
  have hcur := hd.inv.wrapped.alloc_cur
  rw [hfill] at hcur
  have hr1 := Run.snoc Act.alloc hr (Config.Step.alloc hs1)
  obtain ⟨hcap, hpub, hpc1, hrow1, hsp1, hfill1, hsent1⟩ : d1.board.captured (c.bucketOf 0) ≠ 0 ∧
      d1.hist.pubFill (c.bucketOf 0) = 0 ∧ d1.alloc.pc = .setMaxRow ∧ d1.alloc.supRow = d.alloc.supRow ∧
      d1.alloc.supPartial = 0 ∧ d1.hist.allocFill = 0 ∧ d1.hist.sent = d.hist.sent := by
    have hend := hd.inv.rowEnd_eq
    simp only [Config.allocStep, hpc, Option.some.injEq] at hs1
    subst hs1
    refine ⟨?_, ?_, rfl, rfl, hsp, hfill, rfl⟩
    · simp only [hcur, Function.update_self, hend]
      exact Nat.mul_ne_zero (Nat.succ_ne_zero _) (Nat.pos_iff_ne_zero.mp c.slots_pos)
    · simp only [hcur, Function.update_self, hfill]
  have hv0 : c.startVisitor 1 0 = ⟨c.bucketOf 0, 1, none, []⟩ := by
    simp [Config.startVisitor, Config.bucketOf]
  have hnone : (c.startVisitor 1 0).holds = none := rfl
  have hcur0 : (c.startVisitor 1 0).cur = c.bucketOf 0 := by rw [hv0]
  have hst2 : c.Step 1 ⟨d1, c.startVisitor 1, []⟩ (.visit 0) _ := Config.Step.visit 0 Nat.one_pos
  rw [Config.visitStep_take (s := ⟨d1, c.startVisitor 1, []⟩) hnone (by rw [hcur0]; exact hcap)] at hst2
  refine ⟨_, _, d1, _, ⟨_, _, rfl⟩, Run.snoc (Act.visit 0) hr1 hst2, ?_, ?_, h1, ?_, ?_, ?_, by rw [hrow1]; exact hrow,
    by rw [hsent1]; exact hall, by rw [hrow1]; exact hlim⟩
  · exact meets_snoc.mpr ⟨meets_snoc.mpr ⟨hquiet.mono fun _ _ h => h.1, Config.notDry_of_ne (by simp)⟩,
      Config.notDry_of_ne (by simp)⟩
  · refine meets_snoc.mpr ⟨meets_snoc.mpr ⟨hquiet.mono fun _ _ h k hk => absurd hk (h.2.2 k), fun k hk => ?_⟩, fun k hk n hn => ?_⟩
    · cases hk
    · obtain rfl : 0 = k := Act.visit.inj hk
      cases hn
  · simp only [Function.update_self, hcur0, hpub]
  · simp only [Function.update_self, hcur0]
  · exact ⟨hfill1, rfl, Or.inl ⟨hsp1, Or.inl hpc1⟩⟩

/-- A program that resets the flag at once leaves the driver in its schedule. -/
theorem Config.Lazy.reset {d : Driver} (h : c.Lazy d) (captured : Nat → Nat) :
    c.Lazy { d with board := { d.board with captured := captured } } :=
  ⟨h.inv.boardStep d.board.userStart d.board.userStop captured d.board.stalled, h.polls, h.caught, h.running, h.loop⟩

/-- Between the two stores the refill thread has not got beyond the second slot of the row. -/
theorem Config.BetweenStores.armed_le {r : Nat} {d : Driver} (h : c.BetweenStores r d) (hinv : c.Inv d) :
    d.hist.armed ≤ r * c.numRxSlots + 1 := by
  have harm := hinv.window.armed_eq
  have hbase : d.base = 0 := by
    rw [Driver.base, h.fill]
    exact hinv.agreed.first
  rw [hbase, h.row] at harm
  unfold AllocThread.rowArmed at harm
  rcases h.slot with ⟨h1, -⟩ | ⟨h1, -, -, h2⟩
  · split at harm <;> omega
  · rw [if_neg h2] at harm
    omega

/-- From a state between the stores, with the flag reset, the slowest schedule comes to the second store. -/
theorem Config.BetweenStores.second (writers : Nat) {p : List UInt8} (hp : Deliverable p) {s : Capture} {r : Nat}
    (h : c.BetweenStores r s.drv) (hl : c.Lazy s.drv) (hflag : s.drv.board.captured (c.bucketOf 0) = 0) (hr : r ≠ 0)
    (hall : ∀ q ∈ s.drv.hist.sent, q = p) (hlim : c.byteLimit < p.length * r) :
    ∃ d v, c.Goes writers p s { s with drv := d } ∧ c.Step writers { s with drv := d } .alloc v ∧
      d.alloc.pc = .setCaptured ∧ d.hist.allocFill = 0 := by
  obtain ⟨d, ⟨tr, hrun, hm⟩, hd, hsent⟩ := hl.advanceBy writers hp (r * c.numRxSlots + 2)
  -- as long as the flag stays reset, the refill thread stays between the stores
  have hkeep : ∀ tr u, Run (c.capture writers) s tr u → Meets (c.Lazily p) tr →
      (∀ y ∈ visited tr u, ¬y.drv.board.captured (c.bucketOf 0) ≠ 0) → c.BetweenStores r u.drv := by
    intro tr u hru hmu hno
    have hboth := hru.invariantWithin (I := fun u => c.BetweenStores r u.drv ∧ ∀ q ∈ u.drv.hist.sent, q = p)
      (Q := fun u => ¬u.drv.board.captured (c.bucketOf 0) ≠ 0)
      (fun u a v hu ha hv hst => ⟨hu.1.step hu.2 hr hlim ha hst (not_not.mp hv), (Config.Goes.single hst ha).sent hu.2⟩)
      ⟨h, hall⟩ hmu hno
    exact hboth.1
  rcases hrun.none_or_first (P := fun u => u.drv.board.captured (c.bucketOf 0) ≠ 0) (not_not.mpr hflag) with
    hno | ⟨pre, u, a, v, post, rfl, hpre, hst, hno, hv⟩
  · have h1 := (hkeep tr _ hrun hm hno).armed_le hd.inv
    have h2 := hd.inv.order
    have h3 : d.hist.sent.length = s.drv.hist.sent.length + (r * c.numRxSlots + 2) := by
      rw [hsent, List.length_append, List.length_replicate]
    have h4 : d.hist.armed ≤ r * c.numRxSlots + 1 := h1
    omega
  · obtain ⟨hmpre, hmpost⟩ := meets_append.mp hm
    have hua : c.Lazily p u a := hmpost (u, a) (by simp)
    have hgou : c.Goes writers p s u := ⟨pre, hpre, hmpre⟩
    have hprog := hgou.programs
    have hu := hno u (by simp [visited])
    have hbet := hkeep pre u hpre hmpre hno
    rw [hprog] at hgou hst
    have hst' : c.Step writers { s with drv := u.drv } a v := hst
    cases hst' with
    | alloc hs =>
      by_cases hpc : u.drv.alloc.pc = .setCaptured
      · exact ⟨u.drv, _, hgou, Config.Step.alloc hs, hpc, hbet.fill⟩
      · have hb := (Config.allocStep_board hs hpc).1
        exact absurd (by show _ ≠ 0; rw [← hb]; exact hv) hu
    | proc hs =>
      have hb := (Config.procStep_captured hs hua.2).1
      exact absurd (by show _ ≠ 0; rw [← hb]; exact hv) hu
    | nic q hq hs =>
      unfold Config.nicStep at hs
      split at hs <;> cases hs
      exact absurd hv hu
    | userStart | userStop | visit _ _ => exact hua.elim

/-- The only program resets the flag of the fill it has taken. -/
theorem Config.step_reset (c : Config) (d : Driver) {v : Nat → Visitor} (consumed : List Nat) {n : Nat}
    (h : (v 0).holds = some n) :
    ∃ v', c.Step 1 ⟨d, v, consumed⟩ (.visit 0)
      ⟨{ d with board := { d.board with captured := Function.update d.board.captured (v 0).cur 0 } }, v', n :: consumed⟩ := by
  have hst : c.Step 1 ⟨d, v, consumed⟩ (.visit 0) _ := Config.Step.visit 0 Nat.one_pos
  rw [Config.visitStep_reset (s := ⟨d, v, consumed⟩) h] at hst
  exact ⟨_, hst⟩

/-- A capture of the shipped configuration with frames of 60 bytes and `count_then_discard`: it takes the first bucket at once,
and the refill thread publishes the bucket again at its next slot. -/
theorem published_once_false :
    ∃ s tr t, (Config.shipped.capture 1).init s ∧ Run (Config.shipped.capture 1) s tr t ∧ Meets Config.shipped.NotDry tr ∧
      ∃ x ∈ tr, Republishes x.1 x.2 := by
  obtain ⟨s, tr, d, v, hi, hr, hm, -, hd, hholds, hcur, hbet, hrow, hall, hlim⟩ :=
    Config.shipped.exists_taken shortPacket_deliverable
  obtain ⟨v', hst⟩ := Config.shipped.step_reset d [] hholds
  have hbet1 : Config.shipped.BetweenStores d.alloc.supRow
      { d with board := { d.board with captured := Function.update d.board.captured (v 0).cur 0 } } :=
    ⟨hbet.fill, rfl, hbet.slot⟩
  obtain ⟨d2, u, ⟨tr2, hr2, hm2⟩, hst2, hpc, hfill⟩ := Config.BetweenStores.second 1 shortPacket_deliverable
    (s := ⟨_, v', [0]⟩) hbet1 (hd.reset _) (by rw [← hcur]; exact Function.update_self ..) hrow hall hlim
  have hrun := Run.snoc Act.alloc ((Run.snoc (Act.visit 0) hr hst).append hr2) hst2
  refine ⟨s, _, u, hi, hrun, ?_, (⟨d2, v', [0]⟩, .alloc), by simp, Or.inl ⟨rfl, hpc, ?_⟩⟩
  · rw [meets_snoc, meets_append, meets_snoc]
    exact ⟨⟨⟨hm, nofun⟩, hm2.mono fun _ _ => Config.Lazily.notDry⟩, nofun⟩
  · rw [hfill]
    exact List.mem_singleton.mpr rfl

/-- The same capture when the program takes its time: it resets the flag when both threads are in the second bucket. -/
theorem published_once_late :
    ∃ s tr t, (Config.shipped.capture 1).init s ∧ Run (Config.shipped.capture 1) s tr t ∧ Meets ResetsPast tr ∧
      t.consumed = [0] ∧ (∀ x ∈ tr, ¬Republishes x.1 x.2) ∧ ∀ u ∈ visited tr t, OnlyOnce u := by
  obtain ⟨s, tr, d, v, hi, hr, -, hm, hd, hholds, -⟩ := Config.shipped.exists_taken shortPacket_deliverable
  obtain ⟨d1, ⟨tr1, hr1, hm1⟩, h1, hfill⟩ := Config.Lazy.close 1 shortPacket_deliverable (s := ⟨d, v, []⟩) hd
  obtain ⟨v', hst⟩ := Config.shipped.step_reset d1 [] hholds
  have hrun := Run.snoc (Act.visit 0) (hr.append hr1) hst
  have hmeets : Meets ResetsPast (tr ++ tr1 ++ [(⟨d1, v, []⟩, Act.visit 0)]) := by
    rw [meets_snoc, meets_append]
    refine ⟨⟨hm, hm1.mono fun _ _ h k hk => absurd hk (h.no_visit k)⟩, fun k hk n hn => ?_⟩
    obtain rfl : 0 = k := Act.visit.inj hk
    have h0 : 0 = n := Option.some.inj (hholds.symm.trans hn)
    have hle := h1.inv.procFill_le
    subst h0
    exact ⟨Or.inl (Nat.lt_of_lt_of_le hfill hle), Or.inl hfill⟩
  obtain ⟨h2, h3⟩ := published_once Config.shipped 1 hi hrun hmeets
  exact ⟨s, _, _, hi, hrun, hmeets, rfl, h2, h3⟩

end NicRecorder
