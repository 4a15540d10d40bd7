import NicRecorder.Machine

/-!
# The shared page

The driver and the programs agree on when the capture can be commanded by a page at the end of the first bucket. `pbm_init_all`
prepares the buckets, clears the two commands in the page, stores two words of magic, and creates the threads. Every program (`start.c`,
`stop.c`, `status.c`, `todisk.c`, `count_then_discard.c`) polls the two words until it finds both of them, the first one first, and only
then commands, reports, or takes buckets. Nothing is locked, and a step is one access to the page.

A session is one load of the driver, over whatever the page and the memory held before. What comes behind the handshake is the host of
`Machine`, with the commands in the page: a thread or a process that reads a command reads it there. `issuedStart` and `issuedStop` are
history variables: whether a program has issued the command.
-/

namespace NicRecorder

open ByteMem Runs

/-! ## The page -/

/-- `MAGIC1`. -/
def magic1Word : UInt32 := 0xDEADBABE

/-- `MAGIC2`. -/
def magic2Word : UInt32 := 0xFF00AABB

/-- `struct global_share_struct`, with the two entries of `data` that are in use. -/
structure GlobalShare where
  magic1 : UInt32
  magic2 : UInt32
  userIssueStart : UInt8
  userIssueStop : UInt8
  deriving DecidableEq, Repr

/-- `is_magic_ok`. -/
def GlobalShare.isMagicOk (g : GlobalShare) : Bool := g.magic1 == magic1Word && g.magic2 == magic2Word

/-- What `pbm_destroy_all` does to the page. (Nothing calls it.) -/
def GlobalShare.pbmDestroyAll (g : GlobalShare) : GlobalShare := { g with magic1 := ~~~magic1Word, magic2 := ~~~magic2Word }

/-- The byte of a command that has been issued, or not. -/
def commandByte (issued : Bool) : UInt8 := if issued then 1 else 0

/-! ## The programs before the handshake -/

/-- The programs that wait for the magic. -/
inductive Command where
  | start | stop | status
  | todisk (id : Nat)
  | discard
  deriving DecidableEq, Repr

/-- The next access of such a program to the page. -/
inductive PollerPc where
  | magic1 | magic2 | issue | readStop | done
  deriving DecidableEq, Repr

/-- A process that waits for the magic, or has done what it waited for; `seenStart` and `seenStop` are what `status` prints. -/
structure Poller where
  cmd : Command
  pc : PollerPc
  seenStart : UInt8
  seenStop : UInt8

/-- The step by which a process of `todisk` or `count_then_discard` begins its work. -/
def Command.enters (pid : Nat) : Command → Option MachineAct
  | .todisk id => some (.startTodisk pid id)
  | .discard => some (.startDiscard pid)
  | .start | .stop | .status => none

/-! ## The driver -/

/-- The next access of `pbm_init_all`, or how it has ended: with both threads, without one (`kthread_create` failed), or with a bucket
that could not be mapped (`ioremap` failed). -/
inductive LoadPc where
  | initBucket (i : Nat)
  | clearStart | clearStop | setMagic1 | setMagic2
  | createAlloc | createProcess
  | done | noThread | unmapped
  deriving DecidableEq, Repr

/-- The buckets have been prepared. -/
def LoadPc.prepared : LoadPc → Bool
  | .initBucket _ | .unmapped => false
  | _ => true

/-- The commands have been cleared and the first word of the magic has been stored. -/
def LoadPc.opened : LoadPc → Bool
  | .setMagic2 | .createAlloc | .createProcess | .done | .noThread => true
  | _ => false

/-- One load of the driver. -/
structure Session where
  page : GlobalShare
  load : LoadPc
  allocThread : Bool
  processThread : Bool
  mach : Machine
  poller : Nat → Option Poller
  issuedStart : Bool
  issuedStop : Bool

/-- The host with given commands. -/
def Machine.withCommands (m : Machine) (start stop : Bool) : Machine :=
  { m with cap := { m.cap with drv := { m.cap.drv with board := { m.cap.drv.board with userStart := start, userStop := stop } } } }

/-- The host with the commands that are in the page. -/
def Session.view (s : Session) : Machine :=
  s.mach.withCommands (decide (s.page.userIssueStart ≠ 0)) (decide (s.page.userIssueStop ≠ 0))

/-- The host with the commands that have been issued. -/
def Session.commanded (s : Session) : Machine := s.mach.withCommands s.issuedStart s.issuedStop

/-- The next step of `pbm_init_all`; `ok` says whether a call in it succeeds. -/
def Host.loadStep (H : Host) (s : Session) (ok : Bool) : Option Session :=
  match s.load with
  | .initBucket i =>
    if ok then
      some { s with
        load := if i = H.config.end1G then .clearStart else .initBucket (i + 1)
        mach := { s.mach with mem := H.config.initBucket s.mach.mem i } }
    else some { s with load := .unmapped }
  | .clearStart => some { s with load := .clearStop, page := { s.page with userIssueStart := 0 } }
  | .clearStop => some { s with load := .setMagic1, page := { s.page with userIssueStop := 0 } }
  | .setMagic1 => some { s with load := .setMagic2, page := { s.page with magic1 := magic1Word } }
  | .setMagic2 => some { s with load := .createAlloc, page := { s.page with magic2 := magic2Word } }
  | .createAlloc =>
    if ok then some { s with load := .createProcess, allocThread := true } else some { s with load := .noThread }
  | .createProcess =>
    if ok then some { s with load := .done, processThread := true } else some { s with load := .noThread }
  | .done | .noThread | .unmapped => none

/-! ## The steps of the programs -/

/-- A process changes its variables. -/
def Session.setPoller (s : Session) (pid : Nat) (k : Poller) : Session :=
  { s with poller := Function.update s.poller pid (some k) }

/-- The next access of a process of `start`, `stop` or `status`, or of one that waits. -/
def Session.pollerStep (s : Session) (pid : Nat) (k : Poller) : Option Session :=
  match k.pc with
  | .magic1 => some (s.setPoller pid { k with pc := if s.page.magic1 = magic1Word then .magic2 else .magic1 })
  | .magic2 => some (s.setPoller pid { k with pc := if s.page.magic2 = magic2Word then .issue else .magic1 })
  | .issue =>
    match k.cmd with
    | .start => some { s.setPoller pid { k with pc := .done } with
        page := { s.page with userIssueStart := 1 }, issuedStart := true }
    | .stop => some { s.setPoller pid { k with pc := .done } with
        page := { s.page with userIssueStop := 1 }, issuedStop := true }
    | .status => some (s.setPoller pid { k with pc := .readStop, seenStart := s.page.userIssueStart })
    | .todisk _ | .discard => none
  | .readStop => some (s.setPoller pid { k with pc := .done, seenStop := s.page.userIssueStop })
  | .done => none

/-- The step is that of a process of `todisk` that finds itself late and issues the stop. -/
def Machine.raises (m : Machine) : MachineAct → Bool
  | .exec pid _ _ =>
    match m.prog pid with
    | some (.todisk w) => decide (w.pc = .raiseStop)
    | _ => false
  | _ => false

/-- The steps of the host that come from itself: a thread needs to have been created, the adapter has no descriptor before the refill
thread has armed one, commands and new processes come through the page. -/
def Session.allows (s : Session) : MachineAct → Bool
  | .drv .alloc | .drv (.nic _) => s.allocThread
  | .drv .proc => s.processThread
  | .drv .userStart | .drv .userStop | .drv (.visit _) | .startTodisk _ _ | .startDiscard _ => false
  | .kill _ | .exec _ _ _ => true

/-! ## The system -/

/-- A step: of `pbm_init_all`, of the host, the start of a program, an access of it to the page, or its entry into the host. -/
inductive SessionAct where
  | load (ok : Bool)
  | mach (a : MachineAct)
  | begin (pid : Nat) (cmd : Command)
  | poller (pid : Nat)
  | enter (pid : Nat)

/-- The steps of a session. -/
inductive Host.SessionStep (H : Host) : Session → SessionAct → Session → Prop where
  | load {s s' : Session} (ok : Bool) : H.loadStep s ok = some s' → H.SessionStep s (.load ok) s'
  | mach {s : Session} {m : Machine} (a : MachineAct) : s.allows a = true → H.Step s.view a m →
      H.SessionStep s (.mach a) { s with
        mach := m
        page := if s.view.raises a then { s.page with userIssueStop := 1 } else s.page
        issuedStop := s.issuedStop || s.view.raises a }
  | begin {s : Session} (pid : Nat) (cmd : Command) : s.poller pid = none →
      H.SessionStep s (.begin pid cmd) (s.setPoller pid ⟨cmd, .magic1, 0, 0⟩)
  | poller {s s' : Session} {k : Poller} (pid : Nat) : s.poller pid = some k → s.pollerStep pid k = some s' →
      H.SessionStep s (.poller pid) s'
  | enter {s : Session} {k : Poller} {a : MachineAct} {m : Machine} (pid : Nat) : s.poller pid = some k → k.pc = .issue →
      k.cmd.enters pid = some a → H.Step s.view a m →
      H.SessionStep s (.enter pid) { s.setPoller pid { k with pc := .done } with mach := m }

/-- The driver before `pbm_init_all`, over a page and any memory and disks. Its own variables are those of a module that has just been
loaded, and no thread reads its board before the buckets have been prepared. -/
def Host.unloaded (H : Host) (page : GlobalShare) (ram : Mem) (disk : Disk) : Session :=
  ⟨page, .initBucket H.config.start1G, false, false, { H.started ram disk with mem := ram }, fun _ => none, false, false⟩

/-- The sessions that begin with a page. -/
def Host.session (H : Host) (page : GlobalShare) : System Session SessionAct where
  init := fun s => ∃ ram disk, s = H.unloaded page ram disk
  step := H.SessionStep

end NicRecorder
