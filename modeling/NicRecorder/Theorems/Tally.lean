import NicRecorder.Theorems.EndToEnd

/-!
# What `count_then_discard` counts

`count_then_discard` goes from bucket to bucket, adds up the flags and clears the headers. In a run in which it is the only program and its
accesses are in time it has counted, at every moment, the packets recorded in the fills that it has taken, none of them twice and none
left out; when it ends by the end mark, it has counted all packets that the driver recorded. In which fill a process is, its variables do
not say (`cur` is a bucket): it is the number of the clears before.
-/

namespace NicRecorder

open ByteMem Runs

/-! ## Runs with one process -/

/-- The step clears a header. -/
def Machine.clears (m : Machine) : MachineAct → Bool
  | .exec pid _ _ =>
    match m.prog pid with
    | some (.discard v) => decide (v.pc = .clear)
    | _ => false
  | _ => false

/-- The step starts `count_then_discard`. -/
def MachineAct.startsDiscard : MachineAct → Bool
  | .startDiscard _ => true
  | _ => false

/-- The number of headers that have been cleared. -/
def clearsIn (tr : List (Machine × MachineAct)) : Nat := tr.countP fun x => x.1.clears x.2

/-- The accesses of a process that is at a fill are in time: the flag that it takes was set for that fill, the threads have left the fill
when it adds up, and the driver has not entered the bucket again before the header is cleared. -/
structure Host.DiscardOnTime (H : Host) (k : Nat) (m : Machine) (v : Discard) : Prop where
  own : v.pc = .poll → flagOf m.mem v.cur ≠ 0 → m.cap.drv.hist.pubFill v.cur = k
  left : v.pc = .readCaptured → m.cap.drv.Left k
  kept : v.pc = .readCaptured ∨ v.pc = .readLast ∨ v.pc = .clear → m.cap.drv.hist.allocFill < k + H.config.numBuckets

/-- What is asked of a step, by the run before it. -/
structure Host.CountsOn (H : Host) (tr : List (Machine × MachineAct)) (m : Machine) (a : MachineAct) : Prop where
  written : m.AcceptsWritten a
  noWriter : a.writer = none
  single : a.startsDiscard = true → ∀ x ∈ tr, x.2.startsDiscard = false
  onTime : ∀ pid n time v, a = .exec pid n time → m.prog pid = some (.discard v) → H.DiscardOnTime (clearsIn tr) m v

theorem clearsIn_snoc (tr : List (Machine × MachineAct)) (m : Machine) (a : MachineAct) :
    clearsIn (tr ++ [(m, a)]) = clearsIn tr + if m.clears a then 1 else 0 := by
  rw [clearsIn, List.countP_append, ← clearsIn, List.countP_singleton]

/-! ## The invariant -/

/-- The process has added up the flag of the fill that it is at. -/
def DiscardPc.added : DiscardPc → Bool
  | .readLast | .clear => true
  | _ => false

/-- The process has taken the bucket. -/
def DiscardPc.taken : DiscardPc → Bool
  | .readCaptured | .readLast | .clear => true
  | _ => false

/-- The packets recorded in the fills before a fill. -/
def Driver.countTo (d : Driver) (n : Nat) : Nat := ((List.range n).flatMap d.saved).length

/-- What holds of a process that is at fill `k`. -/
structure Host.Tallied (H : Host) (k : Nat) (m : Machine) (v : Discard) : Prop where
  cur : v.cur = H.config.bucketOf k
  own : v.pc.taken = true → k ≤ m.cap.drv.hist.procFill ∧ m.cap.drv.hist.allocStart k < m.cap.drv.hist.accepted
  flag : v.pc.taken = true → m.cap.drv.hist.allocFill < k + H.config.numBuckets → flagOf m.mem v.cur ≠ 0
  left : v.pc.added = true → m.cap.drv.Left k
  total : v.totalPackets = m.cap.drv.countTo (if v.pc.added = true then k + 1 else k)
  going : v.pc ≠ .clear → v.pc ≠ .exited → v.driverStop = 0
  ending : v.driverStop ≠ 0 → m.cap.drv.proc.pc = .exited ∧
    (if v.pc = .clear then k + 1 else k) = m.cap.drv.hist.procFill + 1

/-- What holds behind a run. -/
structure Host.Tally (H : Host) (tr : List (Machine × MachineAct)) (m : Machine) : Prop where
  stored : H.Stored m
  last : ∀ b, H.config.IsBucket b → wordOf lastOff m.mem b = 0 ∨ wordOf lastOff m.mem b = m.cap.drv.board.last b
  fresh : (∀ x ∈ tr, x.2.startsDiscard = false) → clearsIn tr = 0 ∧ ∀ pid, m.prog pid = none
  before : ∀ f < clearsIn tr, m.cap.drv.Left f
  alone : ∀ pid q p p', m.prog pid = some p → m.prog q = some p' → pid = q
  tallied : ∀ pid p, m.prog pid = some p → ∃ v, p = .discard v ∧ H.Tallied (clearsIn tr) m v

section Tally

variable {H : Host} {tr : List (Machine × MachineAct)} {m m' : Machine} {v : Discard} {k : Nat}

theorem Host.tally_init (hi : H.machine.init m) : H.Tally [] m := by
  have hs := H.stored_init hi
  obtain ⟨ram, disk, rfl⟩ := hi
  exact ⟨hs, fun b hb => Or.inl (H.config.initAll_word (by decide) hb ram), fun _ => ⟨rfl, fun _ => rfl⟩, nofun, nofun, nofun⟩

/-- What has been counted of fills that have been left stays. -/
theorem Driver.Advances.countTo {d d' : Driver} (h : d.Advances d') {n : Nat} (hl : ∀ f < n, d.Left f) :
    d'.countTo n = d.countTo n := by
  unfold Driver.countTo
  congr 1
  exact List.flatMap_congr fun f hf => (h.left f (hl f (List.mem_range.mp hf))).2.1

/-- The steps of the driver leave a process to its count, as long as they leave its flag. -/
theorem Host.Tallied.frame (h : H.Tallied k m v) (ha : m.cap.drv.Advances m'.cap.drv) (hbefore : ∀ f < k, m.cap.drv.Left f)
    (hflag : v.pc.taken = true → m'.cap.drv.hist.allocFill < k + H.config.numBuckets → flagOf m'.mem v.cur ≠ 0)
    (hend : m.cap.drv.proc.pc = .exited →
      m'.cap.drv.proc.pc = .exited ∧ m'.cap.drv.hist.procFill = m.cap.drv.hist.procFill) : H.Tallied k m' v := by
  refine ⟨h.cur, fun hp => ?_, hflag, fun hp => (ha.left k (h.left hp)).1, ?_, h.going, fun hd => ?_⟩
  · obtain ⟨h1, h2⟩ := h.own hp
    have hpf := ha.procFill
    have hacc := ha.accepted
    rw [ha.starts _ h1]
    omega
  · rw [h.total, ha.countTo]
    intro f hf
    split at hf
    · next hp =>
      rcases Nat.lt_or_eq_of_le (Nat.le_of_lt_succ hf) with hlt | rfl
      · exact hbefore f hlt
      · exact h.left hp
    · exact hbefore f hf
  · obtain ⟨h1, h2⟩ := h.ending hd
    obtain ⟨h3, h4⟩ := hend h1
    exact ⟨h3, by rw [h4]; exact h2⟩

/-- A thread that has ended makes no further access. -/
theorem Config.Step.ended {c : Config} {s t : Capture} {a : Act} (hs : c.Step 0 s a t) (he : s.drv.proc.pc = .exited) :
    t.drv.proc.pc = .exited ∧ t.drv.hist.procFill = s.drv.hist.procFill := by
  cases hs with
  | alloc hs =>
    obtain ⟨hproc, -, -, -, hfill⟩ := Config.allocStep_frame hs
    exact ⟨by rw [hproc]; exact he, hfill⟩
  | proc hs => simp [Config.procStep, he] at hs
  | nic p hp hs =>
    obtain ⟨-, ring, head, ram, slot, rfl⟩ := Config.nicStep_frame hs
    exact ⟨he, rfl⟩
  | userStart | userStop => exact ⟨he, rfl⟩
  | visit k hk => exact absurd hk (Nat.not_lt_zero k)

/-- The bucket behind that of a fill is that of the next one. -/
theorem Config.next_bucketOf (c : Config) (k : Nat) :
    (if c.end1G < c.bucketOf k + 1 then c.start1G else c.bucketOf k + 1) = c.bucketOf (k + 1) := by
  have hb := c.isBucket_bucketOf k
  rw [← c.nextCur_bucketOf, Config.nextCur]
  split <;> split <;> first | rfl | omega

/-! ## The steps of a process -/

/-- What a process adds up at a fill is the number of the packets recorded in it. -/
theorem Host.Stored.flag_left (h : H.Stored m) (hl : m.cap.drv.Left k) (hr : m.cap.drv.hist.allocFill < k + H.config.numBuckets)
    (hflag : flagOf m.mem (H.config.bucketOf k) ≠ 0) : flagOf m.mem (H.config.bucketOf k) = (m.cap.drv.saved k).length := by
  rw [(h.flag _ (H.config.isBucket_bucketOf k)).resolve_left hflag, h.fills.captured_left hl hr]

theorem Driver.countTo_succ (d : Driver) (n : Nat) : d.countTo (n + 1) = d.countTo n + (d.saved n).length := by
  simp [Driver.countTo, List.range_succ]

/-- A process that has not taken the bucket of its fill is in order when its variables are. -/
theorem Host.Tallied.before {v' : Discard} (h : H.Tallied k m v) (hm : m'.cap = m.cap) (hcur : v'.cur = v.cur)
    (hold : v.pc.added = false) (hpc : v.pc ≠ .clear ∧ v.pc ≠ .exited) (hnew : v'.pc.added = false)
    (hstop : v'.driverStop = v.driverStop) (htotal : v'.totalPackets = v.totalPackets)
    (hown : v'.pc.taken = true → k ≤ m.cap.drv.hist.procFill ∧ m.cap.drv.hist.allocStart k < m.cap.drv.hist.accepted)
    (hflag : v'.pc.taken = true → m.cap.drv.hist.allocFill < k + H.config.numBuckets → flagOf m'.mem v.cur ≠ 0) :
    H.Tallied k m' v' := by
  have hzero : v'.driverStop = 0 := hstop.trans (h.going hpc.1 hpc.2)
  refine ⟨hcur.trans h.cur, by rw [hm]; exact hown, by rw [hm, hcur]; exact hflag, fun ha => ?_, ?_, fun _ _ => hzero, fun hd => ?_⟩
  · rw [hnew] at ha
    cases ha
  · rw [htotal, h.total, hold, hnew, hm]
  · exact absurd hzero hd

/-- The flag that a process takes was set in the fill that the process is at, in which something has been recorded by then. -/
theorem Host.Tallied.takes (h : H.Tallied k m v) (hs : H.Stored m) (ht : H.DiscardOnTime k m v) (hpc : v.pc = .poll)
    (hflag : flagOf m.mem v.cur ≠ 0) :
    k ≤ m.cap.drv.hist.procFill ∧ m.cap.drv.hist.allocStart k < m.cap.drv.hist.accepted := by
  have hb : H.config.IsBucket v.cur := h.cur ▸ H.config.isBucket_bucketOf k
  have hcap := (hs.flag v.cur hb).resolve_left hflag
  obtain ⟨-, h2, h3⟩ := hs.fills.posted.source v.cur (hcap ▸ hflag)
  rw [ht.own hpc hflag] at h2 h3
  exact ⟨h2, h3⟩

/-- A process that finds an end mark is at the fill in which the recording thread has ended. -/
theorem Host.Tallied.finds_last (h : H.Tallied k m v) (hs : H.Stored m)
    (hw : wordOf lastOff m.mem v.cur = 0 ∨ wordOf lastOff m.mem v.cur = m.cap.drv.board.last v.cur)
    (ht : H.DiscardOnTime k m v) (hpc : v.pc = .readLast) (hlast : wordOf lastOff m.mem v.cur ≠ 0) :
    m.cap.drv.proc.pc = .exited ∧ k = m.cap.drv.hist.procFill := by
  have hl := h.left (by rw [hpc]; rfl)
  have hmark := hs.fills.last_left hl (ht.kept (Or.inr (Or.inl hpc))) (h.own (by rw [hpc]; rfl)).2
  rw [hw.resolve_left hlast, h.cur, hmark, Driver.lastIn] at hlast
  rcases hl with hlt | ⟨he, hx⟩
  · rw [if_pos hlt] at hlast
    exact absurd rfl hlast
  · exact ⟨hx, he⟩

/-- A step of a process in time keeps its count. -/
theorem Host.Tallied.discardStep (h : H.Tallied k m v) (hs : H.Stored m)
    (hw : wordOf lastOff m.mem v.cur = 0 ∨ wordOf lastOff m.mem v.cur = m.cap.drv.board.last v.cur)
    (ht : H.DiscardOnTime k m v) {pid : Nat} (hst : H.discardStep m pid v = some m') :
    ∃ v', m'.prog = Function.update m.prog pid (some (.discard v')) ∧ m'.cap = m.cap ∧
      H.Tallied (k + if v.pc = .clear then 1 else 0) m' v' := by
  unfold Host.discardStep at hst
  cases hpc : v.pc <;> rw [hpc] at hst <;> simp only [Option.some.injEq, reduceCtorEq, if_false, if_true, Nat.add_zero] at hst ⊢
  case again0 =>
    subst hst
    refine ⟨_, rfl, rfl, ?_⟩
    unfold Discard.again0
    split <;> exact h.before rfl rfl (by rw [hpc]; rfl) (by rw [hpc]; decide) rfl rfl rfl nofun nofun
  case poll =>
    split at hst <;> cases hst
    · exact ⟨_, rfl, rfl, h.before rfl rfl (by rw [hpc]; rfl) (by rw [hpc]; decide) rfl rfl rfl nofun nofun⟩
    · next hne =>
      rw [numCaptured_bucketMem] at hne
      exact ⟨_, rfl, rfl, h.before rfl rfl (by rw [hpc]; rfl) (by rw [hpc]; decide) rfl rfl rfl
        (fun _ => h.takes hs ht hpc hne) (fun _ _ => hne)⟩
  case pollStop =>
    subst hst
    refine ⟨_, rfl, rfl, ?_⟩
    split <;> exact h.before rfl rfl (by rw [hpc]; rfl) (by rw [hpc]; decide) rfl rfl rfl nofun nofun
  case readCaptured =>
    subst hst
    have hr := ht.kept (Or.inl hpc)
    have hl := ht.left hpc
    have hflag := h.flag (by rw [hpc]; rfl) hr
    have htotal := h.total
    have hgoing := h.going (by rw [hpc]; decide) (by rw [hpc]; decide)
    rw [hpc] at htotal
    refine ⟨_, rfl, rfl, h.cur, fun _ => h.own (by rw [hpc]; rfl), fun _ => h.flag (by rw [hpc]; rfl), fun _ => hl, ?_,
      fun _ _ => hgoing, fun hd => absurd hgoing hd⟩
    show v.totalPackets + numCaptured (bucketMem m.mem v.cur) = m.cap.drv.countTo (k + 1)
    rw [h.cur] at hflag
    rw [numCaptured_bucketMem, h.cur, hs.flag_left hl hr hflag, htotal, Driver.countTo_succ]
    rfl
  case readLast =>
    subst hst
    have htotal := h.total
    rw [hpc] at htotal
    refine ⟨_, rfl, rfl, h.cur, fun _ => h.own (by rw [hpc]; rfl), fun _ => h.flag (by rw [hpc]; rfl),
      fun _ => h.left (by rw [hpc]; rfl), htotal, fun he => absurd rfl he, fun hd => ?_⟩
    have hlast : wordOf lastOff m.mem v.cur ≠ 0 := by
      rw [← wordOf_bucketMem]
      exact hd
    obtain ⟨hx, he⟩ := h.finds_last hs hw ht hpc hlast
    exact ⟨hx, congrArg (· + 1) he⟩
  case clear =>
    subst hst
    have htotal := h.total
    have hending := h.ending
    rw [hpc] at htotal hending
    refine ⟨_, rfl, rfl, ?_⟩
    have hcur : (if H.config.end1G < v.cur + 1 then H.config.start1G else v.cur + 1) = H.config.bucketOf (k + 1) := by
      rw [h.cur]
      exact H.config.next_bucketOf k
    by_cases hd : v.driverStop = 0
    · rw [if_pos hd]
      exact ⟨hcur, nofun, nofun, nofun, htotal, fun _ _ => hd, fun he => absurd hd he⟩
    · rw [if_neg hd]
      exact ⟨hcur, nofun, nofun, nofun, htotal, fun _ he => absurd rfl he, fun _ => hending hd⟩

/-! ## Every step -/

/-- The processes behind a step of one. -/
theorem alone_update {prog : Nat → Option Program} {pid : Nat} {x : Option Program}
    (h : ∀ q p, prog q = some p → q = pid) :
    ∀ q q' p p', Function.update prog pid x q = some p → Function.update prog pid x q' = some p' → q = q' := by
  have hat : ∀ q p, Function.update prog pid x q = some p → q = pid := by
    intro q p hq
    by_cases he : q = pid
    · exact he
    · rw [Function.update_of_ne he] at hq
      exact h q p hq
  intro q q' p p' hq hq'
  rw [hat q p hq, hat q' p' hq']

/-- A step that moves no process and clears no header. -/
theorem Host.Tally.keep {a : MachineAct} (h : H.Tally tr m) (hs : H.Stored m') (ha : m.cap.drv.Advances m'.cap.drv)
    (hlast : ∀ b, H.config.IsBucket b → wordOf lastOff m'.mem b = 0 ∨ wordOf lastOff m'.mem b = m'.cap.drv.board.last b)
    (hprog : ∀ q p, m'.prog q = some p → m.prog q = some p)
    (hflag : ∀ v, H.Tallied (clearsIn tr) m v → v.pc.taken = true →
      m'.cap.drv.hist.allocFill < clearsIn tr + H.config.numBuckets → flagOf m'.mem v.cur ≠ 0)
    (hend : m.cap.drv.proc.pc = .exited →
      m'.cap.drv.proc.pc = .exited ∧ m'.cap.drv.hist.procFill = m.cap.drv.hist.procFill)
    (hclear : m.clears a = false) : H.Tally (tr ++ [(m, a)]) m' := by
  have hn : clearsIn (tr ++ [(m, a)]) = clearsIn tr := by
    rw [clearsIn_snoc, hclear]
    rfl
  refine ⟨hs, hlast, fun hno => ?_, fun f hf => ?_, fun pid q p p' hp hq => ?_, fun pid p hp => ?_⟩
  · obtain ⟨h1, h2⟩ := h.fresh fun x hx => hno x (List.mem_append_left _ hx)
    refine ⟨hn.trans h1, fun pid => ?_⟩
    cases hp : m'.prog pid with
    | none => rfl
    | some p => exact absurd (hprog pid p hp) (by rw [h2 pid]; exact nofun)
  · rw [hn] at hf
    exact (ha.left f (h.before f hf)).1
  · exact h.alone pid q p p' (hprog pid p hp) (hprog q p' hq)
  · obtain ⟨v, rfl, hv⟩ := h.tallied pid p (hprog pid p hp)
    rw [hn]
    exact ⟨v, rfl, hv.frame ha h.before (hflag v hv) hend⟩

theorem Host.Tally.drv (h : H.Tally tr m) {cap : Capture} {a : Act} (hw : m.AcceptsWritten (.drv a))
    (hs : H.config.Step 0 m.cap a cap) :
    H.Tally (tr ++ [(m, .drv a)]) { m with cap := cap, mem := H.config.driverStore m.cap.drv m.mem a } := by
  have ha := h.stored.fills.advances hs
  refine h.keep (h.stored.step hw (Host.Step.drv a hs)) ha (fun b hb => ?_) (fun _ _ hp => hp) (fun v hv hp hr => ?_) hs.ended rfl
  · rcases h.stored.placed.drv_last hs b with he | ⟨h1, h2⟩
    · exact Or.inr he
    · dsimp only
      rw [h1, h2]
      exact h.last b hb
  · have hgrow := ha.allocFill
    dsimp only at hr
    have hr' : m.cap.drv.hist.allocFill < clearsIn tr + H.config.numBuckets := by omega
    have hflag := hv.flag hp hr'
    rw [hv.cur] at hflag ⊢
    exact h.stored.driver_flag hs (hv.own hp).1 (hv.own hp).2 hr' hflag

theorem Host.Tally.startDiscard (h : H.Tally tr m) {pid : Nat} (hc : H.CountsOn tr m (.startDiscard pid)) (hnone : m.prog pid = none) :
    H.Tally (tr ++ [(m, .startDiscard pid)]) (m.setProg pid (.discard H.startDiscard)) := by
  obtain ⟨h0, hno⟩ := h.fresh (hc.single rfl)
  have hn : clearsIn (tr ++ [(m, .startDiscard pid)]) = 0 := by
    rw [clearsIn_snoc, h0]
    rfl
  have hst : H.Step m (.startDiscard pid) (m.setProg pid (.discard H.startDiscard)) := Host.Step.startDiscard pid hnone
  refine ⟨h.stored.step hc.written hst, h.last, fun hall => ?_, fun f hf => ?_, ?_, fun q p hp => ?_⟩
  · cases hall _ (List.mem_append_right _ (List.mem_singleton.mpr rfl))
  · rw [hn] at hf
    exact absurd hf (Nat.not_lt_zero f)
  · exact alone_update fun q p hq => absurd hq (by rw [hno q]; exact nofun)
  · rw [hn]
    by_cases hq : q = pid
    · rw [hq, Machine.setProg_self, Option.some.injEq] at hp
      refine ⟨_, hp.symm, ?_, nofun, nofun, nofun, rfl, fun _ _ => rfl, fun hd => absurd rfl hd⟩
      rw [Config.bucketOf, Nat.zero_mod]
      rfl
    · cases (hno q).symm.trans ((Function.update_of_ne hq _ _).symm.trans hp)

theorem Host.Tally.exec (h : H.Tally tr m) {pid n time : Nat} (hc : H.CountsOn tr m (.exec pid n time))
    (hst : H.execStep m pid n time = some m') : H.Tally (tr ++ [(m, .exec pid n time)]) m' := by
  have hs := h.stored.step hc.written (Host.Step.exec pid n time hst)
  obtain ⟨p, hp, -⟩ := H.execStep_moves hst
  obtain ⟨v, rfl, hv⟩ := h.tallied pid p hp
  have hb : H.config.IsBucket v.cur := hv.cur ▸ H.config.isBucket_bucketOf _
  unfold Host.execStep at hst
  rw [hp] at hst
  obtain ⟨v', hprog, hcap, hv'⟩ := hv.discardStep h.stored (h.last _ hb) (hc.onTime pid n time v rfl hp) hst
  have hn : clearsIn (tr ++ [(m, .exec pid n time)]) = clearsIn tr + if v.pc = .clear then 1 else 0 := by
    rw [clearsIn_snoc, Machine.clears, hp]
    simp only [decide_eq_true_eq]
  refine ⟨hs, fun b hb => ?_, fun hno => ?_, fun f hf => ?_, ?_, fun q p hq => ?_⟩
  · rw [hcap, H.discardStep_word hst (by decide)]
    split
    · exact Or.inl rfl
    · exact h.last b hb
  · exact absurd ((h.fresh fun x hx => hno x (List.mem_append_left _ hx)).2 pid) (by rw [hp]; exact nofun)
  · rw [hcap]
    rw [hn] at hf
    by_cases hlt : f < clearsIn tr
    · exact h.before f hlt
    · split at hf
      · next hpc =>
        obtain rfl : f = clearsIn tr := by omega
        exact hv.left (by rw [hpc]; rfl)
      · omega
  · rw [hprog]
    exact alone_update fun q p' hq => h.alone q pid _ _ hq hp
  · rw [hn]
    rw [hprog] at hq
    by_cases he : q = pid
    · rw [he, Function.update_self, Option.some.injEq] at hq
      exact ⟨v', hq.symm, hv'⟩
    · rw [Function.update_of_ne he] at hq
      exact absurd (h.alone q pid _ _ hq hp) he

theorem Host.Tally.step {a : MachineAct} (h : H.Tally tr m) (hc : H.CountsOn tr m a) (hst : H.Step m a m') :
    H.Tally (tr ++ [(m, a)]) m' := by
  have hs := h.stored.step hc.written hst
  cases hst with
  | drv a hd => exact h.drv hc.written hd
  | startTodisk pid id hnone hid => cases hc.noWriter
  | startDiscard pid hnone => exact h.startDiscard hc hnone
  | kill pid =>
    refine h.keep hs (Driver.Advances.of_eq rfl rfl) h.last (fun q p hp => ?_) (fun v hv => hv.flag) (fun he => ⟨he, rfl⟩) rfl
    by_cases hq : q = pid
    · cases (Function.update_self pid none m.prog).symm.trans (hq ▸ hp)
    · exact (Function.update_of_ne hq _ _).symm.trans hp
  | exec pid n time hx => exact h.exec hc hx

end Tally

/-! ## The theorem -/

/-- What `count_then_discard` counts, in every run in which it is started at most once, no writer runs and its accesses are in time: its
count is the number of the packets that were recorded in the fills whose headers it has cleared, and in the one that it has just added
up; and if it has ended by the end mark, the recording thread has ended, and the count is the number of all packets that it recorded. -/
theorem discard_counts_recorded (H : Host) {s t : Machine} {tr : List (Machine × MachineAct)} (hi : H.machine.init s)
    (hr : Run H.machine s tr t) (hm : MeetsAfter H.CountsOn tr) {pid : Nat} {v : Discard} (hv : t.prog pid = some (.discard v)) :
    v.totalPackets = t.cap.drv.countTo (if v.pc.added = true then clearsIn tr + 1 else clearsIn tr) ∧
      (v.pc = .exited → v.driverStop ≠ 0 → t.cap.drv.proc.pc = .exited ∧ v.totalPackets = t.cap.drv.hist.accepted) := by
  have h := hr.invariantAfter (I := H.Tally) (fun _ _ _ _ h hc hst => h.step hc hst) (H.tally_init hi) hm
  obtain ⟨v', he, hv'⟩ := h.tallied pid _ hv
  cases he
  refine ⟨hv'.total, fun hpc hd => ?_⟩
  obtain ⟨hx, hfill⟩ := hv'.ending hd
  have htotal := hv'.total
  rw [hpc] at hfill htotal
  have hk : clearsIn tr = t.cap.drv.hist.procFill + 1 := hfill
  have ho := h.stored.fills.inv.order
  refine ⟨hx, htotal.trans ?_⟩
  show t.cap.drv.countTo (clearsIn tr) = _
  rw [hk, Driver.countTo, h.stored.fills.flatMap_saved, List.length_take]
  omega

/-! ### Three packets are counted -/

section Witness

variable {H : Host}

theorem Machine.ByDriver.countsOn (tr : List (Machine × MachineAct)) {m : Machine} {a : MachineAct} (h : m.ByDriver a) :
    H.CountsOn tr m a := by
  obtain ⟨b, rfl, ha⟩ := h
  exact ⟨ha, rfl, nofun, nofun⟩

/-- `count_then_discard` is started when only the driver has moved. -/
theorem Host.run_startDiscard {s m : Machine} {tr : List (Machine × MachineAct)} (hr : Run H.machine s tr m)
    (hd : Meets Machine.ByDriver tr) (pid : Nat) (hnone : m.prog pid = none) :
    ∃ tr', Run H.machine s tr' (m.setProg pid (.discard H.startDiscard)) ∧ MeetsAfter H.CountsOn tr' ∧ clearsIn tr' = 0 := by
  have hno : ∀ x ∈ tr, x.2.startsDiscard = false ∧ x.1.clears x.2 = false := by
    intro x hx
    obtain ⟨b, he, -⟩ := hd x hx
    rw [he]
    exact ⟨rfl, rfl⟩
  refine ⟨_, hr.snoc _ (Host.Step.startDiscard pid hnone), meetsAfter_snoc.mpr ⟨hd.after fun tr _ _ h => h.countsOn tr, trivial, rfl,
    fun _ x hx => (hno x hx).1, ?_⟩, ?_⟩
  · intro q n time v he
    cases he
  · rw [clearsIn_snoc, clearsIn, List.countP_eq_zero.mpr fun x hx => by rw [(hno x hx).2]; decide]
    rfl

/-- A step of a process at a fill that can be taken. -/
theorem Host.run_counting {s m m' : Machine} {tr : List (Machine × MachineAct)} {k : Nat} (hr : Run H.machine s tr m)
    (hm : MeetsAfter H.CountsOn tr) (hk : clearsIn tr = k) {pid : Nat} {v : Discard} (hp : m.prog pid = some (.discard v))
    (hset : H.config.Settled m.cap.drv k) (hcur : v.cur = H.config.bucketOf k) (hs : H.discardStep m pid v = some m') :
    Run H.machine s (tr ++ [(m, .exec pid 0 0)]) m' ∧ MeetsAfter H.CountsOn (tr ++ [(m, .exec pid 0 0)]) ∧
      clearsIn (tr ++ [(m, .exec pid 0 0)]) = k + if v.pc = .clear then 1 else 0 := by
  subst hk
  have hexec : H.execStep m pid 0 0 = some m' := by
    rw [Host.execStep, hp]
    exact hs
  refine ⟨hr.snoc _ (Host.Step.exec pid 0 0 hexec), meetsAfter_snoc.mpr ⟨hm, trivial, rfl, ?_, ?_⟩, ?_⟩
  · intro he
    cases he
  · intro q n time v' he hv'
    cases he
    rw [hp] at hv'
    cases hv'
    exact ⟨fun _ _ => by rw [hcur]; exact hset.posted, fun _ => hset.left, fun _ => hset.kept⟩
  · rw [clearsIn_snoc, Machine.clears, hp]
    simp only [decide_eq_true_eq]

/-- The accesses of a process at a fill that can be taken, up to the clear of the header. -/
theorem Host.run_accesses {s : Machine} {pid k : Nat} {x y : Machine × Discard}
    (h : Relation.ReflTransGen (H.DiscardAccess pid) x y) {tr : List (Machine × MachineAct)} (hr : Run H.machine s tr x.1)
    (hm : MeetsAfter H.CountsOn tr) (hk : clearsIn tr = k) (hp : x.1.prog pid = some (.discard x.2))
    (hset : H.config.Settled x.1.cap.drv k) (hcur : x.2.cur = H.config.bucketOf k) :
    ∃ tr', Run H.machine s tr' y.1 ∧ MeetsAfter H.CountsOn tr' ∧ clearsIn tr' = k ∧ y.1.prog pid = some (.discard y.2) ∧
      y.1.cap = x.1.cap ∧ y.2.cur = x.2.cur := by
  induction h with
  | refl => exact ⟨tr, hr, hm, hk, hp, rfl, rfl⟩
  | tail _ hstep ih =>
    obtain ⟨tr', hr', hm', hk', hp', hcap, hstay⟩ := ih
    obtain ⟨hs, hprog, hpc, hstay', hcap'⟩ := hstep
    obtain ⟨hr₁, hm₁, hk₁⟩ := Host.run_counting hr' hm' hk' hp' (by rw [hcap]; exact hset) (hstay.trans hcur) hs
    rw [if_neg hpc] at hk₁
    exact ⟨_, hr₁, hm₁, hk₁, hprog, hcap'.trans hcap, hstay'.trans hstay⟩

/-- The end mark is in the memory when the recording thread has ended in the first bucket. -/
theorem Host.Ledger.last_first {quiet : Prop} {tr : List (Machine × MachineAct)} {m : Machine} (h : H.Ledger quiet tr m)
    (hset : H.config.Settled m.cap.drv 0) (hfill : m.cap.drv.hist.procFill = 0) (hacc : 0 < m.cap.drv.hist.accepted) :
    wordOf lastOff m.mem (H.config.bucketOf 0) = 1 := by
  have hown : m.cap.drv.hist.allocStart 0 < m.cap.drv.hist.accepted := by
    rw [h.stored.fills.inv.agreed.first]
    exact hacc
  rw [h.marked.last _ (H.config.isBucket_bucketOf 0), h.stored.fills.last_left hset.left hset.kept hown, Driver.lastIn, hfill]
  rfl

/-- Less than a lap of packets is captured, the capture is stopped, and `count_then_discard` is started; it ends by the end mark. -/
theorem Host.exists_counted (H : Host) (ram : Mem) (disk : Disk) {ps : List (List UInt8)} (hps : ∀ p ∈ ps, Deliverable p)
    (hne : ps ≠ []) (hlen : ps.length < H.config.numRxSlots) :
    ∃ tr t v, Run H.machine (H.started ram disk) tr t ∧ MeetsAfter H.CountsOn tr ∧ t.prog 0 = some (.discard v) ∧ v.pc = .exited ∧
      v.driverStop ≠ 0 ∧ t.cap.drv.hist.accepted = ps.length := by
  obtain ⟨d, mem, ⟨tr, hr, hd⟩, hlazy, hsent, hfill, hcount⟩ := H.exists_recorded ram disk hps hlen
  have hset := hlazy.settled_finished hfill H.buckets_ge
  have hpos : 0 < ps.length := List.length_pos_iff.mpr hne
  have hacc : d.hist.accepted = ps.length := by
    rw [hlazy.caught, hsent]
  have hl := (H.ledger_of_run ⟨ram, disk, rfl⟩ hr (hd.mono fun _ _ h => h.timely) (by rw [(byDriver_idle hd).1]; exact List.nodup_nil)
    : H.Ledger True tr _)
  have hlast := hl.last_first hset hfill (show 0 < d.hist.accepted by omega)
  have hcur : H.config.bucketOf 0 = H.config.start1G := by
    rw [Config.bucketOf, Nat.zero_mod, Nat.add_zero]
  rw [hcur] at hlast
  let m : Machine := ⟨⟨d.finished, H.config.startVisitor 0, []⟩, mem, fun _ => none, disk, []⟩
  let m₀ := m.setProg 0 (.discard H.startDiscard)
  obtain ⟨tr₀, hr₀, hm₀, hk₀⟩ := Host.run_startDiscard (H := H) (m := m) hr hd 0 rfl
  -- the process goes to the clear of the header, and ends behind it
  obtain ⟨v, hvisit, hpc, hat, hend⟩ := H.visit_first m₀ 0 (show numCaptured (bucketMem mem H.config.start1G) ≠ 0 by omega)
  obtain ⟨tr₁, hr₁, hm₁, hk₁, hp₁, -⟩ := Host.run_accesses hvisit hr₀ hm₀ hk₀ (m.setProg_self _ _) hset hcur.symm
  obtain ⟨v', hlast', hstop', hpc'⟩ := H.discardStep_last m₀ 0 hpc
  obtain ⟨hr₂, hm₂, -⟩ := Host.run_counting hr₁ hm₁ hk₁ hp₁ hset (hat.trans hcur.symm) hlast'
  have hstop : v.driverStop ≠ 0 := by
    rw [hend]
    show lastWord (bucketMem mem H.config.start1G) ≠ 0
    rw [lastWord, wordOf_bucketMem, hlast]
    decide
  rw [if_neg hstop] at hpc'
  exact ⟨_, _, v', hr₂, hm₂, m₀.setProg_self 0 (.discard v'), hpc', by rw [hstop']; exact hstop, hacc⟩

end Witness

/-- Three packets are captured, and counted. -/
theorem discard_counts_recorded_three :
    ∃ tr t v, Run Host.shipped.machine (Host.shipped.started (fun _ => 0) fun _ => none) tr t ∧ t.prog 0 = some (.discard v) ∧
      v.pc = .exited ∧ v.totalPackets = 3 := by
  obtain ⟨tr, t, v, hr, hm, hv, hpc, hd, hacc⟩ :=
    Host.shipped.exists_counted (fun _ => 0) (fun _ => none) threePackets_deliverable (List.cons_ne_nil _ _) (by decide)
  have htotal := ((discard_counts_recorded Host.shipped ⟨_, _, rfl⟩ hr hm hv).2 hpc hd).2
  exact ⟨tr, t, v, hr, hv, hpc, htotal.trans hacc⟩

end NicRecorder
