import NicRecorder.Handshake
import NicRecorder.Theorems.Geometry

/-!
# The handshake over the shared page

From a page that does not hold both words of the magic, no program comes behind its wait before the commands have been cleared. So no
command is lost, and a session is a run of the host of `Machine` in which the commands are those that the programs have issued. From a
page that holds both words already a command can be lost, and every load leaves such a page behind.
-/

namespace NicRecorder

open ByteMem Runs

/-! ## Commands -/

section Commands

variable {H : Host} {m m' : Machine}

/-- A process of `todisk` issues the stop when it finds itself late, and no other command. -/
theorem Host.todiskStep_commands {pid n time : Nat} {w : Todisk} (hs : H.todiskStep m pid w n time = some m') :
    m'.cap.drv.board.userStart = m.cap.drv.board.userStart ∧ m'.userStop = (m.userStop || decide (w.pc = .raiseStop)) := by
  unfold Machine.userStop
  rw [H.todiskStep_cap hs]
  by_cases hpc : w.pc = .raiseStop
  · rw [if_pos hpc, decide_eq_true hpc, Bool.or_true]
    exact ⟨rfl, rfl⟩
  · rw [if_neg hpc, decide_eq_false hpc, Bool.or_false]
    exact ⟨rfl, rfl⟩

theorem Host.discardStep_commands {pid : Nat} {v : Discard} (hs : H.discardStep m pid v = some m') : m'.cap = m.cap := by
  unfold Host.discardStep at hs
  cases hpc : v.pc <;> rw [hpc] at hs <;> simp only [Option.some.injEq, reduceCtorEq] at hs
  case poll => split at hs <;> cases hs <;> rfl
  all_goals subst hs; rfl

/-- A step of the host that is not a command leaves the commands, but for a process that finds itself late. -/
theorem Host.Step.commands {a : MachineAct} (hst : H.Step m a m') (h1 : a ≠ .drv .userStart) (h2 : a ≠ .drv .userStop) :
    m'.cap.drv.board.userStart = m.cap.drv.board.userStart ∧ m'.userStop = (m.userStop || m.raises a) := by
  cases hst with
  | drv a hd =>
    have hr : m.raises (.drv a) = false := rfl
    rw [hr, Bool.or_false]
    cases hd with
    | alloc hs => exact ⟨Config.allocStep_userStart hs, (Config.allocStep_frame hs).2.2.2.1⟩
    | proc hs => exact ⟨Config.procStep_userStart hs, (Config.procStep_frame hs).2.2.2.1⟩
    | nic p hdel hs =>
      obtain ⟨-, ring, head, ram, slot, rfl⟩ := Config.nicStep_frame hs
      exact ⟨rfl, rfl⟩
    | userStart => exact absurd rfl h1
    | userStop => exact absurd rfl h2
    | visit k hk => exact absurd hk (Nat.not_lt_zero k)
  | startTodisk pid id hnone hid | startDiscard pid hnone | kill pid => exact ⟨rfl, (Bool.or_false _).symm⟩
  | exec pid n time he =>
    unfold Host.execStep at he
    split at he
    · next w hw =>
      rw [Machine.raises, hw]
      exact H.todiskStep_commands he
    · next v hv =>
      rw [Machine.raises, hv, Bool.or_false, Machine.userStop, H.discardStep_commands he]
      exact ⟨rfl, rfl⟩
    · cases he

theorem Machine.withCommands_of_eq {a b : Bool} (ha : m.cap.drv.board.userStart = a) (hb : m.userStop = b) :
    m.withCommands a b = m := by
  subst ha hb
  rfl

end Commands

theorem commandByte_ne_zero (b : Bool) : decide (commandByte b ≠ 0) = b := by
  cases b <;> decide

/-! ## The order of the handshake -/

theorem LoadPc.prepared_of_opened {l : LoadPc} (h : l.opened = true) : l.prepared = true := by
  cases l <;> first | rfl | cases h

/-- What holds of a session that began with a page without the magic: before the page is open nobody is behind the wait, and from then
on the bytes of the page are the commands that have been issued. -/
structure Session.Ordered (s : Session) : Prop where
  unmarked : s.load.opened = false → s.page.isMagicOk = false
  waiting : s.load.opened = false → ∀ pid k, s.poller pid = some k →
    k.pc = .magic1 ∨ k.pc = .magic2 ∧ s.page.magic1 = magic1Word
  unissued : s.load.opened = false → s.issuedStart = false ∧ s.issuedStop = false
  idle : s.load.opened = false → s.allocThread = false ∧ s.processThread = false ∧ ∀ pid, s.mach.prog pid = none
  clearedStart : s.load = .clearStop ∨ s.load = .setMagic1 → s.page.userIssueStart = 0
  clearedStop : s.load = .setMagic1 → s.page.userIssueStop = 0
  shown : s.load.opened = true →
    s.page.userIssueStart = commandByte s.issuedStart ∧ s.page.userIssueStop = commandByte s.issuedStop

section Ordered

variable {H : Host} {s t : Session}

theorem Host.ordered_init {page : GlobalShare} (hp : page.isMagicOk = false) (hi : (H.session page).init s) : s.Ordered := by
  obtain ⟨ram, disk, rfl⟩ := hi
  exact ⟨fun _ => hp, fun _ _ _ => nofun, fun _ => ⟨rfl, rfl⟩, fun _ => ⟨rfl, rfl, fun _ => rfl⟩, nofun, nofun, nofun⟩

/-- In an open page the threads and the processes read the commands that have been issued. -/
theorem Session.Ordered.view_eq (h : s.Ordered) (ho : s.load.opened = true) : s.view = s.commanded := by
  obtain ⟨h1, h2⟩ := h.shown ho
  rw [Session.view, h1, h2, commandByte_ne_zero, commandByte_ne_zero]
  rfl

/-- A step of the load that does not open the page. -/
theorem Session.Ordered.loading {l : LoadPc} {page : GlobalShare} {mach : Machine} (h : s.Ordered) (hc : s.load.opened = false)
    (hl : l.opened = false) (hp : page.magic1 = s.page.magic1) (hp' : page.magic2 = s.page.magic2) (hprog : mach.prog = s.mach.prog)
    (h1 : l = .clearStop ∨ l = .setMagic1 → page.userIssueStart = 0) (h2 : l = .setMagic1 → page.userIssueStop = 0) :
    Session.Ordered { s with load := l, page := page, mach := mach } := by
  refine ⟨fun _ => ?_, fun _ pid k hk => ?_, fun _ => h.unissued hc, fun _ => ?_, h1, h2, fun ho => ?_⟩
  · have hm := h.unmarked hc
    unfold GlobalShare.isMagicOk at hm ⊢
    rw [hp, hp']
    exact hm
  · dsimp only
    rw [hp]
    exact h.waiting hc pid k hk
  · dsimp only
    rw [hprog]
    exact h.idle hc
  · rw [hl] at ho
    cases ho

theorem Session.Ordered.of_opened (ho : s.load.opened = true) (h1 : s.page.userIssueStart = commandByte s.issuedStart)
    (h2 : s.page.userIssueStop = commandByte s.issuedStop) : s.Ordered := by
  have hno : s.load.opened ≠ false := by
    rw [ho]
    decide
  refine ⟨fun h => absurd h hno, fun h => absurd h hno, fun h => absurd h hno, fun h => absurd h hno, ?_, fun h => ?_, fun _ => ⟨h1, h2⟩⟩
  · rintro (h | h) <;> exact absurd (by rw [h]; rfl) hno
  · exact absurd (by rw [h]; rfl) hno

theorem Session.Ordered.load (h : s.Ordered) {ok : Bool} (hs : H.loadStep s ok = some t) : t.Ordered := by
  unfold Host.loadStep at hs
  cases hl : s.load <;> rw [hl] at hs <;> simp only [Option.some.injEq, reduceCtorEq] at hs
  case initBucket i =>
    have hc : s.load.opened = false := by rw [hl]; rfl
    split at hs <;> cases hs
    · refine h.loading hc ?_ rfl rfl rfl ?_ ?_ <;> split <;> first | rfl | nofun
    · exact h.loading hc rfl rfl rfl rfl nofun nofun
  case clearStart =>
    subst hs
    exact h.loading (by rw [hl]; rfl) rfl rfl rfl rfl (fun _ => rfl) nofun
  case clearStop =>
    subst hs
    exact h.loading (by rw [hl]; rfl) rfl rfl rfl rfl (fun _ => h.clearedStart (Or.inl hl)) (fun _ => rfl)
  case setMagic1 =>
    subst hs
    obtain ⟨h1, h2⟩ := h.unissued (by rw [hl]; rfl)
    refine Session.Ordered.of_opened rfl ?_ ?_
    · show s.page.userIssueStart = commandByte s.issuedStart
      rw [h1, h.clearedStart (Or.inr hl)]
      rfl
    · show s.page.userIssueStop = commandByte s.issuedStop
      rw [h2, h.clearedStop hl]
      rfl
  case setMagic2 =>
    subst hs
    obtain ⟨h1, h2⟩ := h.shown (by rw [hl]; rfl)
    exact Session.Ordered.of_opened rfl h1 h2
  case createAlloc | createProcess =>
    obtain ⟨h1, h2⟩ := h.shown (by rw [hl]; rfl)
    split at hs <;> cases hs <;> exact Session.Ordered.of_opened rfl h1 h2

/-- Nothing of the host moves before the page is open. -/
theorem Session.Ordered.mach_closed (h : s.Ordered) (ho : s.load.opened = false) {a : MachineAct} {m : Machine}
    (ha : s.allows a = true) (hst : H.Step s.view a m) : m = s.view ∧ s.view.raises a = false := by
  obtain ⟨h1, h2, h3⟩ := h.idle ho
  cases hst with
  | drv b hd =>
    cases hd with
    | alloc | nic => cases h1.symm.trans ha
    | proc => cases h2.symm.trans ha
    | userStart | userStop | visit => cases ha
  | startTodisk | startDiscard => cases ha
  | kill pid =>
    have hprog : Function.update s.view.prog pid none = s.view.prog := Function.update_eq_self_iff.mpr (h3 pid).symm
    rw [hprog]
    exact ⟨rfl, rfl⟩
  | exec pid n time he =>
    rw [Host.execStep, show s.view.prog pid = none from h3 pid] at he
    cases he

theorem Session.Ordered.mach (h : s.Ordered) {a : MachineAct} {m : Machine} (ha : s.allows a = true) (hst : H.Step s.view a m) :
    Session.Ordered { s with
      mach := m
      page := if s.view.raises a then { s.page with userIssueStop := 1 } else s.page
      issuedStop := s.issuedStop || s.view.raises a } := by
  cases ho : s.load.opened with
  | true =>
    obtain ⟨h1, h2⟩ := h.shown ho
    refine Session.Ordered.of_opened ho ?_ ?_ <;> dsimp only <;> cases s.view.raises a
    · exact h1
    · exact h1
    · rw [Bool.or_false]
      exact h2
    · rw [Bool.or_true]
      rfl
  | false =>
    obtain ⟨rfl, hr⟩ := h.mach_closed ho ha hst
    rw [hr, Bool.or_false]
    exact ⟨h.unmarked, h.waiting, h.unissued, h.idle, h.clearedStart, h.clearedStop, h.shown⟩

theorem Session.setPoller_self (s : Session) (pid : Nat) (k : Poller) : (s.setPoller pid k).poller pid = some k := by
  simp [Session.setPoller]

/-- A change of the processes that wait. -/
theorem Session.Ordered.setPoller (h : s.Ordered) {pid : Nat} {k : Poller}
    (hk : s.load.opened = false → k.pc = .magic1 ∨ k.pc = .magic2 ∧ s.page.magic1 = magic1Word) : (s.setPoller pid k).Ordered := by
  refine ⟨h.unmarked, fun ho q k' hk' => ?_, h.unissued, h.idle, h.clearedStart, h.clearedStop, h.shown⟩
  by_cases hq : q = pid
  · rw [hq, s.setPoller_self, Option.some.injEq] at hk'
    exact hk' ▸ hk ho
  · exact h.waiting ho q k' ((Function.update_of_ne hq _ _).symm.trans hk')

/-- A process that is behind the wait found the page open. -/
theorem Session.Ordered.opened_of_passed (h : s.Ordered) {pid : Nat} {k : Poller} (hk : s.poller pid = some k)
    (h1 : k.pc ≠ .magic1) (h2 : k.pc ≠ .magic2) : s.load.opened = true := by
  cases ho : s.load.opened with
  | true => rfl
  | false =>
    rcases h.waiting ho pid k hk with he | ⟨he, -⟩
    · exact absurd he h1
    · exact absurd he h2

theorem Session.Ordered.poller (h : s.Ordered) {pid : Nat} {k : Poller} (hk : s.poller pid = some k)
    (hs : s.pollerStep pid k = some t) : t.Ordered := by
  have hwait := fun ho => h.waiting ho pid k hk
  unfold Session.pollerStep at hs
  cases hpc : k.pc <;> rw [hpc] at hs hwait <;> simp only [Option.some.injEq, reduceCtorEq] at hs
  case magic1 =>
    subst hs
    refine h.setPoller fun ho => ?_
    by_cases hm : s.page.magic1 = magic1Word
    · exact Or.inr ⟨if_pos hm, hm⟩
    · exact Or.inl (if_neg hm)
  case magic2 =>
    subst hs
    refine h.setPoller fun ho => Or.inl (if_neg fun hm => ?_)
    have hone := ((hwait ho).resolve_left (by decide)).2
    have hno := h.unmarked ho
    rw [GlobalShare.isMagicOk, hone, hm] at hno
    exact absurd hno (by decide)
  case issue =>
    have ho := h.opened_of_passed hk (by rw [hpc]; decide) (by rw [hpc]; decide)
    obtain ⟨h1, h2⟩ := h.shown ho
    split at hs <;> cases hs
    · exact Session.Ordered.of_opened ho rfl h2
    · exact Session.Ordered.of_opened ho h1 rfl
    · exact Session.Ordered.of_opened ho h1 h2
  case readStop =>
    have ho := h.opened_of_passed hk (by rw [hpc]; decide) (by rw [hpc]; decide)
    obtain ⟨h1, h2⟩ := h.shown ho
    subst hs
    exact Session.Ordered.of_opened ho h1 h2

theorem Session.Ordered.step {a : SessionAct} (h : s.Ordered) (hst : H.SessionStep s a t) : t.Ordered := by
  cases hst with
  | load ok hs => exact h.load hs
  | mach a ha hs => exact h.mach ha hs
  | «begin» pid cmd hnone => exact h.setPoller fun _ => Or.inl rfl
  | poller pid hk hs => exact h.poller hk hs
  | enter pid hk hpc ha hs =>
    have ho := h.opened_of_passed hk (by rw [hpc]; decide) (by rw [hpc]; decide)
    obtain ⟨h1, h2⟩ := h.shown ho
    exact Session.Ordered.of_opened ho h1 h2

end Ordered

/-! ## The refinement -/

/-- A session and the host of `Machine`: while the buckets are being prepared the host has not moved, and then it is that of the session,
with the commands that have been issued. -/
structure Host.Follows (H : Host) (s : Session) (u : Machine) : Prop where
  ordered : s.Ordered
  preparing : s.load.prepared = false → ∃ ram disk, u = H.started ram disk ∧
    s.commanded = { H.started ram disk with mem := s.mach.mem } ∧
    ∀ i, s.load = .initBucket i → H.config.start1G ≤ i ∧ i ≤ H.config.end1G ∧
      s.mach.mem = (List.range' H.config.start1G (i - H.config.start1G)).foldl H.config.initBucket ram
  prepared : s.load.prepared = true → u = s.commanded

section Refinement

variable {H : Host} {s t : Session} {u : Machine}

theorem Host.follows_init {page : GlobalShare} (hp : page.isMagicOk = false) (hi : (H.session page).init s) :
    ∃ u, H.machine.init u ∧ H.Follows s u := by
  have h := H.ordered_init hp hi
  obtain ⟨ram, disk, rfl⟩ := hi
  refine ⟨H.started ram disk, ⟨ram, disk, rfl⟩, h, fun _ => ⟨ram, disk, rfl, rfl, fun i hl => ?_⟩, nofun⟩
  cases hl
  refine ⟨Nat.le_refl _, H.config.start_le_end, ?_⟩
  rw [Nat.sub_self]
  rfl

theorem Session.commanded_setMem (s : Session) (l : LoadPc) (mem : Mem) :
    Session.commanded { s with load := l, mach := { s.mach with mem := mem } } = { s.commanded with mem := mem } := rfl

/-- The buckets that the loop of `pbm_init_all` has been to, and the next one. -/
theorem Config.initLoop_succ (c : Config) (ram : Mem) {i : Nat} (h : c.start1G ≤ i) :
    (List.range' c.start1G (i + 1 - c.start1G)).foldl c.initBucket ram =
      c.initBucket ((List.range' c.start1G (i - c.start1G)).foldl c.initBucket ram) i := by
  rw [Nat.succ_sub h, List.range'_concat, List.foldl_append, Nat.one_mul, Nat.add_sub_of_le h]
  rfl

theorem Config.initLoop_end (c : Config) (ram : Mem) :
    (List.range' c.start1G (c.end1G + 1 - c.start1G)).foldl c.initBucket ram = c.initAll ram := by
  rw [Nat.succ_sub c.start_le_end]
  rfl

/-- The loop of `pbm_init_all` over the buckets. -/
theorem Host.Follows.initBucket (h : H.Follows s u) {i : Nat} (hl : s.load = .initBucket i) (hs : H.loadStep s true = some t) :
    H.Follows t u := by
  have hord := h.ordered.load hs
  obtain ⟨ram, disk, rfl, hm, hloop⟩ := h.preparing (by rw [hl]; rfl)
  obtain ⟨h1, h2, hmem⟩ := hloop i hl
  have hnext := H.config.initLoop_succ ram h1
  rw [← hmem] at hnext
  rw [Host.loadStep, hl] at hs
  cases hs
  refine ⟨hord, fun hp => ⟨ram, disk, rfl, ?_, fun j hj => ?_⟩, fun hp => ?_⟩
  · rw [Session.commanded_setMem, hm]
  · dsimp only at hj ⊢
    split at hj
    · cases hj
    · next hne =>
      cases hj
      exact ⟨by omega, by omega, hnext.symm⟩
  · dsimp only at hp
    split at hp
    · next he =>
      rw [Session.commanded_setMem, hm, ← hnext, he, H.config.initLoop_end]
      rfl
    · cases hp

/-- The steps of `pbm_init_all` are none of the host. -/
theorem Host.Follows.load (h : H.Follows s u) {ok : Bool} (hs : H.loadStep s ok = some t) : H.Follows t u := by
  have hord := h.ordered.load hs
  cases hl : s.load with
  | initBucket i =>
    cases ok with
    | true => exact h.initBucket hl hs
    | false =>
      obtain ⟨ram, disk, hu, hm, -⟩ := h.preparing (by rw [hl]; rfl)
      rw [Host.loadStep, hl] at hs
      cases hs
      exact ⟨hord, fun _ => ⟨ram, disk, hu, hm, nofun⟩, nofun⟩
  | clearStart | clearStop | setMagic1 | setMagic2 =>
    have hu := h.prepared (by rw [hl]; rfl)
    rw [Host.loadStep, hl] at hs
    cases hs
    exact ⟨hord, nofun, fun _ => hu⟩
  | createAlloc | createProcess =>
    have hu := h.prepared (by rw [hl]; rfl)
    rw [Host.loadStep, hl] at hs
    dsimp only at hs
    split at hs <;> cases hs <;> exact ⟨hord, nofun, fun _ => hu⟩
  | done | noThread | unmapped =>
    rw [Host.loadStep, hl] at hs
    cases hs

/-- A step that leaves the load, the host and the commands that have been issued. -/
theorem Host.Follows.stutter (h : H.Follows s u) (ho : t.Ordered) (hl : t.load = s.load) (hm : t.mach.mem = s.mach.mem)
    (hc : t.commanded = s.commanded) : H.Follows t u := by
  refine ⟨ho, fun hp => ?_, fun hp => ?_⟩
  · rw [hl] at hp
    rw [hc, hl, hm]
    exact h.preparing hp
  · rw [hl] at hp
    rw [hc]
    exact h.prepared hp

/-- A step behind the opening of the page. -/
theorem Host.Follows.of_opened (ho : t.Ordered) (hl : t.load.opened = true) (hc : u = t.commanded) : H.Follows t u := by
  refine ⟨ho, fun hp => ?_, fun _ => hc⟩
  rw [LoadPc.prepared_of_opened hl] at hp
  cases hp

/-- A step of the host of a session is one of the host with the commands that have been issued. -/
theorem Host.Follows.mach (h : H.Follows s u) {a : MachineAct} {m : Machine} (ha : s.allows a = true) (hst : H.Step s.view a m) :
    ∃ tr v, Run H.machine u tr v ∧ H.Follows { s with
      mach := m
      page := if s.view.raises a then { s.page with userIssueStop := 1 } else s.page
      issuedStop := s.issuedStop || s.view.raises a } v := by
  have hord := h.ordered.mach ha hst
  have h1 : a ≠ .drv .userStart := by
    rintro rfl
    cases ha
  have h2 : a ≠ .drv .userStop := by
    rintro rfl
    cases ha
  obtain ⟨hc1, hc2⟩ := hst.commands h1 h2
  cases ho : s.load.opened with
  | true =>
    have hview := h.ordered.view_eq ho
    rw [hview] at hst hc1 hc2
    rw [h.prepared (LoadPc.prepared_of_opened ho)]
    refine ⟨_, m, Run.single hst, Host.Follows.of_opened hord ho ?_⟩
    rw [hview]
    exact (Machine.withCommands_of_eq hc1 hc2).symm
  | false =>
    obtain ⟨rfl, hr⟩ := h.ordered.mach_closed ho ha hst
    refine ⟨_, u, Run.nil u, h.stutter hord rfl rfl ?_⟩
    rw [hr, Bool.or_false]
    rfl

/-- An access to the page is a command, or none of the host. -/
theorem Host.Follows.poller (h : H.Follows s u) {pid : Nat} {k : Poller} (hk : s.poller pid = some k)
    (hs : s.pollerStep pid k = some t) : ∃ tr v, Run H.machine u tr v ∧ H.Follows t v := by
  have hord := h.ordered.poller hk hs
  unfold Session.pollerStep at hs
  cases hpc : k.pc <;> rw [hpc] at hs <;> simp only [Option.some.injEq, reduceCtorEq] at hs
  case magic1 | magic2 | readStop =>
    subst hs
    exact ⟨_, u, Run.nil u, h.stutter hord rfl rfl rfl⟩
  case issue =>
    have ho := h.ordered.opened_of_passed hk (by rw [hpc]; decide) (by rw [hpc]; decide)
    have hu := h.prepared (LoadPc.prepared_of_opened ho)
    split at hs <;> cases hs
    · have hst : H.Step u (.drv .userStart) (u.withCommands true u.userStop) := Host.Step.drv .userStart Config.Step.userStart
      refine ⟨_, _, Run.single hst, Host.Follows.of_opened hord ho ?_⟩
      rw [hu]
      rfl
    · have hst : H.Step u (.drv .userStop) (u.withCommands u.cap.drv.board.userStart true) :=
        Host.Step.drv .userStop Config.Step.userStop
      refine ⟨_, _, Run.single hst, Host.Follows.of_opened hord ho ?_⟩
      rw [hu]
      rfl
    · exact ⟨_, u, Run.nil u, h.stutter hord rfl rfl rfl⟩

/-- A process that begins its work behind the wait is started in the host. -/
theorem Host.Follows.enter (h : H.Follows s u) {pid : Nat} {k : Poller} {a : MachineAct} {m : Machine} (hk : s.poller pid = some k)
    (hpc : k.pc = .issue) (ha : k.cmd.enters pid = some a) (hst : H.Step s.view a m) :
    ∃ tr v, Run H.machine u tr v ∧ H.Follows { s.setPoller pid { k with pc := .done } with mach := m } v := by
  have hord := h.ordered.step (Host.SessionStep.enter pid hk hpc ha hst)
  have ho := h.ordered.opened_of_passed hk (by rw [hpc]; decide) (by rw [hpc]; decide)
  rw [h.ordered.view_eq ho, ← h.prepared (LoadPc.prepared_of_opened ho)] at hst
  have hm : m.withCommands s.issuedStart s.issuedStop = m := by
    have hu := h.prepared (LoadPc.prepared_of_opened ho)
    subst hu
    unfold Command.enters at ha
    split at ha <;> cases ha <;> cases hst <;> rfl
  exact ⟨_, m, Run.single hst, Host.Follows.of_opened hord ho hm.symm⟩

/-- A session that begins with a page without the magic refines the host. -/
theorem Host.session_simulates {page : GlobalShare} (hp : page.isMagicOk = false) :
    Simulates (H.session page) (fun _ _ => True) H.machine H.Follows where
  init := fun _ hi => H.follows_init hp hi
  step := fun s a t u h _ hst => by
    cases hst with
    | load ok hs => exact ⟨_, u, Run.nil u, h.load hs⟩
    | mach a ha hs => exact h.mach ha hs
    | «begin» pid cmd hnone => exact ⟨_, u, Run.nil u, h.stutter (h.ordered.setPoller fun _ => Or.inl rfl) rfl rfl rfl⟩
    | poller pid hk hs => exact h.poller hk hs
    | enter pid hk hpc ha hs => exact h.enter hk hpc ha hs

end Refinement

/-- A session over a page that does not hold both words of the magic, in every order of the accesses of `pbm_init_all`, the threads and
the programs. Before the page is open no command has been issued and no process takes buckets; from then on the bytes of the page are 0
or 1 and say which commands have been issued; and once the buckets are prepared the host of the session, with these commands, is reached
by a run of `Machine`. -/
theorem session_refines_machine (H : Host) {page : GlobalShare} (hp : page.isMagicOk = false) {s t : Session}
    {tr : List (Session × SessionAct)} (hi : (H.session page).init s) (hr : Run (H.session page) s tr t) :
    (t.load.prepared = true → ∃ m tr', H.machine.init m ∧ Run H.machine m tr' t.commanded) ∧
      (t.load.opened = false → t.issuedStart = false ∧ t.issuedStop = false ∧ ∀ pid, t.mach.prog pid = none) ∧
      (t.load.opened = true →
        t.page.userIssueStart = commandByte t.issuedStart ∧ t.page.userIssueStop = commandByte t.issuedStop) := by
  obtain ⟨m, tr', v, hm, hrun, hf⟩ := (Host.session_simulates hp).run hi hr fun _ _ => trivial
  refine ⟨fun hl => ⟨m, tr', hm, (hf.prepared hl) ▸ hrun⟩, fun ho => ?_, hf.ordered.shown⟩
  obtain ⟨h1, h2⟩ := hf.ordered.unissued ho
  exact ⟨h1, h2, (hf.ordered.idle ho).2.2⟩

/-! ## Loads and commands that go through -/

section Runs

variable (H : Host) (page : GlobalShare)

/-- The page as `pbm_init_all` leaves it. -/
def openPage : GlobalShare := ⟨magic1Word, magic2Word, 0, 0⟩

/-- `pbm_init_all` behind the loop over the buckets. -/
theorem Host.run_opening {s : Session} (hl : s.load = .clearStart) :
    ∃ tr t, Run (H.session page) s tr t ∧ t.load = .done ∧ t.page = openPage ∧ t.poller = s.poller ∧ t.issuedStart = s.issuedStart := by
  let s1 : Session := { s with load := .clearStop, page := { s.page with userIssueStart := 0 } }
  let s2 : Session := { s1 with load := .setMagic1, page := { s1.page with userIssueStop := 0 } }
  let s3 : Session := { s2 with load := .setMagic2, page := { s2.page with magic1 := magic1Word } }
  let s4 : Session := { s3 with load := .createAlloc, page := { s3.page with magic2 := magic2Word } }
  let s5 : Session := { s4 with load := .createProcess, allocThread := true }
  let s6 : Session := { s5 with load := .done, processThread := true }
  have h1 : H.loadStep s true = some s1 := by
    rw [Host.loadStep, hl]
  have h2 : H.loadStep s1 true = some s2 := rfl
  have h3 : H.loadStep s2 true = some s3 := rfl
  have h4 : H.loadStep s3 true = some s4 := rfl
  have h5 : H.loadStep s4 true = some s5 := rfl
  have h6 : H.loadStep s5 true = some s6 := rfl
  have hstep : ∀ {a b : Session}, H.loadStep a true = some b → Run (H.session page) a [(a, .load true)] b :=
    fun h => Run.single (Host.SessionStep.load true h)
  exact ⟨_, s6, (((((hstep h1).append (hstep h2)).append (hstep h3)).append (hstep h4)).append (hstep h5)).append (hstep h6), rfl, rfl,
    rfl, rfl⟩

/-- Every load in which no call fails comes to its end. -/
theorem Host.run_load {s : Session} {i n : Nat} (hl : s.load = .initBucket i) (hn : H.config.end1G = i + n) :
    ∃ tr t, Run (H.session page) s tr t ∧ t.load = .done ∧ t.page = openPage ∧ t.poller = s.poller ∧ t.issuedStart = s.issuedStart := by
  -- the buckets that are left become fewer
  induction n generalizing s i with
  | zero =>
    have hs : H.loadStep s true = some { s with load := .clearStart, mach := { s.mach with mem := H.config.initBucket s.mach.mem i } } := by
      rw [Host.loadStep, hl]
      simp only [if_true, if_pos (show i = H.config.end1G from hn.symm)]
    obtain ⟨tr, t, hr, hrest⟩ := H.run_opening page
      (s := { s with load := .clearStart, mach := { s.mach with mem := H.config.initBucket s.mach.mem i } }) rfl
    exact ⟨_, t, (Run.single (Host.SessionStep.load true hs)).append hr, hrest⟩
  | succ n ih =>
    have hne : i ≠ H.config.end1G := by omega
    have hs : H.loadStep s true =
        some { s with load := .initBucket (i + 1), mach := { s.mach with mem := H.config.initBucket s.mach.mem i } } := by
      rw [Host.loadStep, hl]
      simp only [if_true, if_neg hne]
    obtain ⟨tr, t, hr, hrest⟩ := ih (s := { s with
      load := .initBucket (i + 1), mach := { s.mach with mem := H.config.initBucket s.mach.mem i } }) (i := i + 1) rfl (by omega)
    exact ⟨_, t, (Run.single (Host.SessionStep.load true hs)).append hr, hrest⟩

/-- `start` goes through when the page holds both words. -/
theorem Host.run_start {s : Session} (hm : s.page.isMagicOk = true) (hnone : s.poller 0 = none) :
    ∃ tr t, Run (H.session page) s tr t ∧ t.load = s.load ∧ t.page = { s.page with userIssueStart := 1 } ∧ t.issuedStart = true := by
  rw [GlobalShare.isMagicOk, Bool.and_eq_true, beq_iff_eq, beq_iff_eq] at hm
  let k : Poller := ⟨.start, .magic1, 0, 0⟩
  let s1 := s.setPoller 0 k
  let s2 := s1.setPoller 0 { k with pc := .magic2 }
  let s3 := s2.setPoller 0 { k with pc := .issue }
  let s4 : Session := { s3.setPoller 0 { k with pc := .done } with
    page := { s3.page with userIssueStart := 1 }, issuedStart := true }
  have h1 : (H.session page).step s (.begin 0 .start) s1 := Host.SessionStep.begin 0 .start hnone
  have h2 : (H.session page).step s1 (.poller 0) s2 := by
    refine Host.SessionStep.poller 0 (s.setPoller_self 0 k) ?_
    show some (s1.setPoller 0 { k with pc := if s.page.magic1 = magic1Word then .magic2 else .magic1 }) = some s2
    rw [if_pos hm.1]
  have h3 : (H.session page).step s2 (.poller 0) s3 := by
    refine Host.SessionStep.poller 0 (s1.setPoller_self 0 _) ?_
    show some (s2.setPoller 0 { k with pc := if s.page.magic2 = magic2Word then .issue else .magic1 }) = some s3
    rw [if_pos hm.2]
  have h4 : (H.session page).step s3 (.poller 0) s4 := Host.SessionStep.poller 0 (s2.setPoller_self 0 _) rfl
  exact ⟨_, s4, (((Run.single h1).append (Run.single h2)).append (Run.single h3)).append (Run.single h4), rfl, rfl, rfl⟩

end Runs

/-- A page in memory that has been cleared. -/
def blankPage : GlobalShare := ⟨0, 0, 0, 0⟩

/-- A driver is loaded and commanded to start; the host is that of `Machine` with the command. -/
theorem session_refines_machine_start :
    ∃ tr t, Run (Host.shipped.session blankPage) (Host.shipped.unloaded blankPage (fun _ => 0) fun _ => none) tr t ∧
      t.issuedStart = true ∧ t.page.userIssueStart = 1 ∧ ∃ m tr', Host.shipped.machine.init m ∧ Run Host.shipped.machine m tr' t.commanded := by
  obtain ⟨tr, t, hr, hl, hpage, hpoller, -⟩ := Host.shipped.run_load blankPage
    (s := Host.shipped.unloaded blankPage (fun _ => 0) fun _ => none) rfl (Nat.add_sub_of_le Host.shipped.config.start_le_end).symm
  obtain ⟨tr', t', hr', hl', hpage', hiss⟩ := Host.shipped.run_start blankPage (s := t) (by rw [hpage]; decide) (by rw [hpoller]; rfl)
  have hprep : t'.load.prepared = true := by
    rw [hl', hl]
    rfl
  have hrun := hr.append hr'
  obtain ⟨hm, -, -⟩ := session_refines_machine Host.shipped (by decide) ⟨_, _, rfl⟩ hrun
  refine ⟨_, t', hrun, hiss, ?_, hm hprep⟩
  rw [hpage']

/-! ## Commands that are lost -/

/-- Every command that is issued in a session which begins with a page stands in the page when the load is done. -/
def Host.KeepsCommands (H : Host) (page : GlobalShare) : Prop :=
  ∀ s tr t, (H.session page).init s → Run (H.session page) s tr t → t.load = .done →
    (t.issuedStart = true → t.page.userIssueStart = 1) ∧ (t.issuedStop = true → t.page.userIssueStop = 1)

section Kept

variable {H : Host} {page : GlobalShare}

theorem Host.keepsCommands_of_unmarked (hp : page.isMagicOk = false) : H.KeepsCommands page := by
  intro s tr t hi hr hl
  have hord := hr.invariant (I := Session.Ordered) (fun _ _ _ h hst => h.step hst) (H.ordered_init hp hi)
  obtain ⟨h1, h2⟩ := hord.shown (by rw [hl]; rfl)
  rw [h1, h2]
  constructor <;> intro he <;> rw [he] <;> rfl

/-- Over a page that holds both words, `start` goes through before `pbm_init_all` clears the command. -/
theorem Host.not_keepsCommands_of_marked (H : Host) (hp : page.isMagicOk = true) : ¬H.KeepsCommands page := by
  intro hk
  let s := H.unloaded page (fun _ => 0) fun _ => none
  obtain ⟨tr, t, hr, hl, -, hiss⟩ := H.run_start page (s := s) hp rfl
  obtain ⟨tr', t', hr', hl', hpage, -, hiss'⟩ := H.run_load page (s := t) hl (Nat.add_sub_of_le H.config.start_le_end).symm
  have hone := (hk s _ t' ⟨_, _, rfl⟩ (hr.append hr') hl').1 (hiss'.trans hiss)
  rw [hpage] at hone
  cases hone

/-- The words of the magic that `pbm_init_all` has stored stay. -/
structure Session.Stamped (s : Session) : Prop where
  first : s.load.opened = true → s.page.magic1 = magic1Word
  second : s.load.opened = true → s.load ≠ .setMagic2 → s.page.magic2 = magic2Word

theorem Session.Stamped.step {s t : Session} {a : SessionAct} (h : s.Stamped) (hst : H.SessionStep s a t) : t.Stamped := by
  cases hst with
  | load ok hs =>
    unfold Host.loadStep at hs
    cases hl : s.load <;> rw [hl] at hs <;> simp only [Option.some.injEq, reduceCtorEq] at hs
    case initBucket i =>
      split at hs <;> cases hs
      · constructor <;> dsimp only <;> split <;> nofun
      · exact ⟨nofun, nofun⟩
    case clearStart | clearStop =>
      subst hs
      exact ⟨nofun, nofun⟩
    case setMagic1 =>
      subst hs
      exact ⟨fun _ => rfl, fun _ hne => absurd rfl hne⟩
    case setMagic2 =>
      subst hs
      exact ⟨fun _ => h.first (by rw [hl]; rfl), fun _ _ => rfl⟩
    case createAlloc | createProcess =>
      have h1 := h.first (by rw [hl]; rfl)
      have h2 := h.second (by rw [hl]; rfl) (by rw [hl]; decide)
      split at hs <;> cases hs <;> exact ⟨fun _ => h1, fun _ _ => h2⟩
  | mach a ha hs =>
    constructor <;> dsimp only <;> split
    · exact h.first
    · exact h.first
    · exact h.second
    · exact h.second
  | «begin» pid cmd hnone => exact ⟨h.first, h.second⟩
  | poller pid hk hs =>
    unfold Session.pollerStep at hs
    split at hs
    case h_3 => split at hs <;> cases hs <;> exact ⟨h.first, h.second⟩
    all_goals cases hs <;> exact ⟨h.first, h.second⟩
  | enter pid hk hpc ha hs => exact ⟨h.first, h.second⟩

end Kept

/-- Commands are kept, in every order of the accesses, exactly over a page that does not hold both words of the magic when the driver is
loaded. -/
theorem commands_kept_iff (H : Host) (page : GlobalShare) : H.KeepsCommands page ↔ page.isMagicOk = false := by
  constructor
  · intro hk
    cases hm : page.isMagicOk with
    | false => rfl
    | true => exact absurd hk (H.not_keepsCommands_of_marked hm)
  · exact Host.keepsCommands_of_unmarked

/-- Every load that has come to its end leaves a page over which the next load can lose a command, whatever the programs have done;
`pbm_destroy_all`, were it called when the driver is unloaded, would prevent that. -/
theorem reload_loses_commands (H : Host) {page : GlobalShare} {s t : Session} {tr : List (Session × SessionAct)}
    (hi : (H.session page).init s) (hr : Run (H.session page) s tr t) (hl : t.load = .done) :
    ¬H.KeepsCommands t.page ∧ H.KeepsCommands t.page.pbmDestroyAll := by
  have hinit : s.Stamped := by
    obtain ⟨ram, disk, rfl⟩ := hi
    exact ⟨nofun, nofun⟩
  have h := hr.invariant (I := Session.Stamped) (fun _ _ _ h hst => h.step hst) hinit
  have hm : t.page.isMagicOk = true := by
    rw [GlobalShare.isMagicOk, h.first (by rw [hl]; rfl), h.second (by rw [hl]; rfl) (by rw [hl]; decide)]
    decide
  exact ⟨H.not_keepsCommands_of_marked hm, Host.keepsCommands_of_unmarked rfl⟩

/-- The first load over a blank page leaves such a page. -/
theorem reload_loses_commands_blank :
    Host.shipped.KeepsCommands blankPage ∧ ∃ page, ¬Host.shipped.KeepsCommands page ∧
      ∃ tr t, Run (Host.shipped.session blankPage) (Host.shipped.unloaded blankPage (fun _ => 0) fun _ => none) tr t ∧ t.page = page := by
  obtain ⟨tr, t, hr, hl, hpage, -⟩ := Host.shipped.run_load blankPage
    (s := Host.shipped.unloaded blankPage (fun _ => 0) fun _ => none) rfl (Nat.add_sub_of_le Host.shipped.config.start_le_end).symm
  exact ⟨Host.keepsCommands_of_unmarked (by decide), t.page, (reload_loses_commands Host.shipped ⟨_, _, rfl⟩ hr hl).1, tr, t, hr, rfl⟩

end NicRecorder
