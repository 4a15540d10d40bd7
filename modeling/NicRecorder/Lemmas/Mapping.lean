import NicRecorder.Mapping
import NicRecorder.Lemmas.Machine

/-!
# The books of the consumers

The ranges that `todisk` and `count_then_discard` map, and that each process knows which of them it has mapped: its program counter
says so. The shared page lies behind the length block of the first bucket, and what is mapped for a visit is unmapped before the
next one.
-/

namespace NicRecorder

open ByteMem AddrSpace Runs

/-! ## The ranges -/

section Ranges

variable {c : Config} {b i : Nat}

theorem const1M_eq : const1M = 1048576 := rfl

/-! The ranges in numbers. -/

/-- The length block begins 992 megabytes into its gigabyte. -/
theorem lensRegion_start (b : Nat) : (lensRegion b).start = b * 2 ^ 30 + 1040187392 := rfl

/-- What is mapped of it ends before the last page of the gigabyte. -/
theorem lensRegion_stop (b : Nat) : (lensRegion b).stop = (b + 1) * 2 ^ 30 - 4096 := by
  have hlen : (lensRegion b).len = 33550336 := rfl
  rw [Region.stop, lensRegion_start, hlen]
  omega

/-- Data block `i` begins `i` times 32 megabytes into its gigabyte. -/
theorem dataRegion_start (b i : Nat) : (dataRegion b i).start = b * 2 ^ 30 + i * 33554432 := by
  show b * 2 ^ 30 + i * 32 * const1M = _
  rw [const1M_eq]
  omega

/-- It ends where the next one begins. -/
theorem dataRegion_stop (b i : Nat) : (dataRegion b i).stop = b * 2 ^ 30 + (i + 1) * 33554432 := by
  have hlen : (dataRegion b i).len = 33554432 := rfl
  rw [Region.stop, dataRegion_start, hlen]
  omega

/-- The shared page is the last one of the first gigabyte. -/
theorem Config.globalRegion_start (c : Config) : c.globalRegion.start = (c.start1G + 1) * 2 ^ 30 - 4096 := rfl

/-- It ends where the second gigabyte begins. -/
theorem Config.globalRegion_stop (c : Config) : c.globalRegion.stop = (c.start1G + 1) * 2 ^ 30 := by
  have hlen : c.globalRegion.len = 4096 := rfl
  rw [Region.stop, c.globalRegion_start, hlen]
  omega

/-- The memory of the driver begins with the first bucket. -/
theorem Config.window_start (c : Config) : c.window.start = c.start1G * 2 ^ 30 := rfl

/-- It ends behind the last bucket. -/
theorem Config.window_stop (c : Config) : c.window.stop = (c.end1G + 1) * 2 ^ 30 := by
  have hlen : c.window.len = c.numBuckets * 2 ^ 30 := rfl
  have hs := c.start_le_end
  rw [Region.stop, c.window_start, hlen]
  unfold Config.numBuckets
  omega

/-- The shared page begins at a page boundary and is one page. -/
theorem Config.globalRegion_aligned (c : Config) : c.globalRegion.Aligned pageSize := by
  constructor
  · rw [c.globalRegion_start, pageSize]
    omega
  · exact Nat.dvd_refl 4096

/-- A length block begins at a page boundary and is a number of pages. -/
theorem lensRegion_aligned (b : Nat) : (lensRegion b).Aligned pageSize := by
  constructor
  · rw [lensRegion_start, pageSize]
    omega
  · show 4096 ∣ lenBlockSize
    decide

/-- A data block too begins at a page boundary and is a number of pages. -/
theorem dataRegion_aligned (b i : Nat) : (dataRegion b i).Aligned pageSize := by
  constructor
  · rw [dataRegion_start, pageSize]
    omega
  · show 4096 ∣ 32 * const1M
    decide

/-- No range is empty. -/
theorem Config.globalRegion_pos (c : Config) : 0 < c.globalRegion.len := Nat.succ_pos 4095

theorem lensRegion_pos (b : Nat) : 0 < (lensRegion b).len := by
  show 0 < lenBlockSize
  decide

theorem dataRegion_pos (b i : Nat) : 0 < (dataRegion b i).len := by
  show 0 < 32 * const1M
  decide

/-- The shared page is in the memory of the driver. -/
theorem Config.globalRegion_within (c : Config) : c.globalRegion.Within c.window := by
  have hs := c.start_le_end
  constructor
  · rw [c.globalRegion_start, c.window_start]
    omega
  · rw [c.globalRegion_stop, c.window_stop]
    omega

/-- A range inside a bucket, but for its last page, lies in the private memory and apart from the shared page: this lies behind
everything that is mapped of the first bucket. -/
theorem Config.IsBucket.inside (hb : c.IsBucket b) {r : Region} (h1 : b * 2 ^ 30 ≤ r.start)
    (h2 : r.stop ≤ (b + 1) * 2 ^ 30 - 4096) : r.Within c.window ∧ r.Disjoint c.globalRegion := by
  obtain ⟨hs, he⟩ := hb
  refine ⟨⟨?_, ?_⟩, ?_⟩
  · rw [c.window_start]
    exact Nat.le_trans (Nat.mul_le_mul_right _ hs) h1
  · rw [c.window_stop]
    omega
  · unfold Region.Disjoint
    rw [c.globalRegion_start, c.globalRegion_stop]
    omega

/-- What is mapped of a length block is in the memory of the driver, apart from the shared page. -/
theorem lensRegion_inside (hb : c.IsBucket b) : (lensRegion b).Within c.window ∧ (lensRegion b).Disjoint c.globalRegion := by
  refine hb.inside ?_ (Nat.le_of_eq (lensRegion_stop b))
  rw [lensRegion_start]
  omega

/-- So is a data block. -/
theorem dataRegion_inside (hb : c.IsBucket b) (hi : i < 31) :
    (dataRegion b i).Within c.window ∧ (dataRegion b i).Disjoint c.globalRegion := by
  refine hb.inside ?_ ?_
  · rw [dataRegion_start]
    omega
  · rw [dataRegion_stop]
    omega

/-- The ranges of one visit do not meet, and cover the bucket but for its last page. -/
theorem visitRegions_tile (b : Nat) :
    (visitRegions b 31).Pairwise Region.Disjoint ∧
      ∀ a, (∃ r ∈ visitRegions b 31, r.Has a) ↔ b * 2 ^ 30 ≤ a ∧ a < (b + 1) * 2 ^ 30 - 4096 := by
  constructor
  · refine List.pairwise_cons.mpr ⟨fun r hr => Or.inr ?_, ?_⟩
    · obtain ⟨i, hi, rfl⟩ := List.mem_map.mp hr
      have hlt := List.mem_range.mp hi
      rw [dataRegion_stop, lensRegion_start]
      omega
    · rw [List.pairwise_map]
      refine List.Pairwise.imp (fun {i j} hij => Or.inl ?_) List.pairwise_lt_range
      rw [dataRegion_stop, dataRegion_start]
      omega
  · intro a
    constructor
    · rintro ⟨r, hr, h1, h2⟩
      rcases List.mem_cons.mp hr with rfl | hr
      · rw [lensRegion_start] at h1
        rw [lensRegion_stop] at h2
        omega
      · obtain ⟨i, hi, rfl⟩ := List.mem_map.mp hr
        have hlt := List.mem_range.mp hi
        rw [dataRegion_start] at h1
        rw [dataRegion_stop] at h2
        omega
    · rintro ⟨h1, h2⟩
      rcases Nat.lt_or_ge a (lensRegion b).start with hlt | hge
      · -- the block of packets that the address lies in
        rw [lensRegion_start] at hlt
        refine ⟨dataRegion b ((a - b * 2 ^ 30) / 33554432), List.mem_cons_of_mem _ (List.mem_map_of_mem (List.mem_range.mpr ?_)), ?_, ?_⟩
        · omega
        · rw [dataRegion_start]
          exact Nat.add_le_of_le_sub' h1 (Nat.div_mul_le_self _ _)
        · rw [dataRegion_stop]
          omega
      · exact ⟨lensRegion b, List.mem_cons_self, hge, by rw [lensRegion_stop]; exact h2⟩

end Ranges

/-- The phases in which the shared page is mapped. -/
def Phase.holdsGlobal : Phase → Bool
  | .mapGlobal | .returned => false
  | _ => true

/-! ## The books of `todisk` -/

/-- What a process has mapped of a bucket. -/
inductive Held where
  | nothing | lens | data
  deriving DecidableEq

/-- The accesses between the mapping of the length block and its unmapping. -/
def TodiskPc.onLens : TodiskPc → Bool
  | .poll | .pollStop | .raiseStop | .markStalled | .openFile | .stamp | .copyLens | .readLast | .reset => true
  | .again0 | .copyData | .close | .exited => false

/-- Those of them with the file open. -/
def TodiskPc.onFile : TodiskPc → Bool
  | .stamp | .copyLens | .readLast | .reset => true
  | _ => false

/-- What a process of `todisk` has mapped of its bucket. -/
def MappedTodisk.held (p : MappedTodisk) : Held :=
  match p.phase with
  | .mapGlobal | .waitMagic | .mapLens | .mapData | .unmapGlobal | .returned => .nothing
  | .unmapRetry | .unmapLens | .failed => .lens
  | .unmapData => .data
  | .access => if p.w.pc.onLens then .lens else if p.w.pc = .copyData ∧ p.i < 31 then .data else .nothing

/-- The ranges that a process has mapped. -/
def MappedTodisk.own (p : MappedTodisk) : List Region :=
  (match p.held with
    | .nothing => []
    | .lens => [⟨p.bucketInfo, lenBlockSize⟩]
    | .data => [⟨p.dataPtr, 32 * const1M⟩]) ++
  if p.phase.holdsGlobal then [⟨p.gshare, 4096⟩] else []

/-- Where in its loop a process is in each phase, and what it has mapped in this visit. -/
def MappedTodisk.Stage (p : MappedTodisk) : Prop :=
  match p.phase with
  | .mapGlobal | .waitMagic | .unmapRetry => p.w.pc = .again0
  | .mapLens => p.w.pc = .poll ∧ p.maps = []
  | .unmapLens => p.w.pc = .copyData ∧ p.w.dataDone = 0 ∧ p.maps = visitRegions p.w.cur 0
  | .mapData => p.w.pc = .copyData ∧ p.i < 31 ∧ p.w.dataDone = p.i * dataBlockSize ∧ p.maps = visitRegions p.w.cur p.i
  | .unmapData => p.w.pc = .copyData ∧ p.w.dataDone = (p.i + 1) * dataBlockSize ∧ p.maps = visitRegions p.w.cur (p.i + 1)
  | .unmapGlobal => p.w.pc = .exited
  | .returned | .failed => True
  | .access =>
    (p.w.pc.onLens = true → p.maps = visitRegions p.w.cur 0) ∧ (p.w.pc.onFile = true → p.w.dataDone = 0) ∧
      (p.w.pc = .copyData → p.i < 31 → p.maps = visitRegions p.w.cur (p.i + 1)) ∧
      (p.w.pc = .copyData → ¬p.i < 31 → p.w.dataDone = lenBlockOff ∧ p.maps = visitRegions p.w.cur 31) ∧
      (p.w.pc = .close → p.maps = visitRegions p.w.cur 31) ∧ p.w.pc ≠ .exited

/-- A process whose pointers are the addresses it has asked for. -/
structure Host.TodiskOk (H : Host) (p : MappedTodisk) : Prop where
  bucket : H.config.IsBucket p.w.cur
  lenDone : p.w.lenDone ≤ lenBlockSize
  global : p.phase.holdsGlobal = true → p.gshare = H.config.globalAddr
  lens : p.held = .lens → p.bucketInfo = (lensRegion p.w.cur).start
  data : p.held = .data → p.dataPtr = (dataRegion p.w.cur p.i).start ∧ p.i < 31 ∧ p.i * dataBlockSize ≤ p.w.dataDone ∧
    p.w.dataDone ≤ (p.i + 1) * dataBlockSize
  stage : p.Stage

section Todisk

variable {H : Host} {p : MappedTodisk}

/-- The shared page is mapped whenever something of a bucket is. -/
theorem MappedTodisk.holdsGlobal_of_held {held : Held} (h : p.held = held) (hne : held ≠ .nothing) : p.phase.holdsGlobal = true := by
  cases hp : p.phase <;> first | rfl | exact absurd (h.symm.trans (by simp [MappedTodisk.held, hp])) hne

/-- With the length block mapped a process has it and the shared page. -/
theorem MappedTodisk.own_lens (h : p.held = .lens) : p.own = [⟨p.bucketInfo, lenBlockSize⟩, ⟨p.gshare, 4096⟩] := by
  rw [MappedTodisk.own, h, if_pos (MappedTodisk.holdsGlobal_of_held h Held.noConfusion)]
  rfl

/-- With a data block mapped a process has it and the shared page. -/
theorem MappedTodisk.own_data (h : p.held = .data) : p.own = [⟨p.dataPtr, 32 * const1M⟩, ⟨p.gshare, 4096⟩] := by
  rw [MappedTodisk.own, h, if_pos (MappedTodisk.holdsGlobal_of_held h Held.noConfusion)]
  rfl

/-- With nothing mapped of a bucket, only the shared page is mapped. -/
theorem MappedTodisk.own_nothing (h : p.held = .nothing) (hg : p.phase.holdsGlobal = true) :
    p.own = [⟨p.gshare, 4096⟩] := by
  rw [MappedTodisk.own, h, if_pos hg]
  rfl

/-- A process without the shared page has nothing mapped. -/
theorem MappedTodisk.own_none (h : p.held = .nothing) (hg : p.phase.holdsGlobal = false) : p.own = [] := by
  rw [MappedTodisk.own, h, hg]
  rfl

/-- The shared page is mapped from its mapping to its unmapping. -/
theorem MappedTodisk.global_mem_own (hg : p.phase.holdsGlobal = true) :
    (⟨p.gshare, 4096⟩ : Region) ∈ p.own := by
  rw [MappedTodisk.own, if_pos hg]
  exact List.mem_append_right _ List.mem_cons_self

/-- An access is to the shared page, or to what is mapped of the bucket. -/
theorem MappedTodisk.access_allowed (hp : p.phase = .access) (ch : Choice) (window : Region) :
    (p.access ch).Allowed pageSize window p.own := by
  have hglobal : (⟨p.gshare, 4096⟩ : Region) ∈ p.own :=
    MappedTodisk.global_mem_own (by rw [hp]; rfl)
  have hlens : p.w.pc.onLens = true → (⟨p.bucketInfo, lenBlockSize⟩ : Region) ∈ p.own := fun hpc => by
    rw [MappedTodisk.own_lens (by simp [MappedTodisk.held, hp, hpc])]
    exact List.mem_cons_self
  cases hpc : p.w.pc <;> simp only [MappedTodisk.access, hpc]
  case again0 => exact ⟨_, hglobal, Region.within_add (by decide)⟩
  case pollStop => exact ⟨_, hglobal, Region.within_add (by decide)⟩
  case raiseStop => exact ⟨_, hglobal, Region.within_add (by decide)⟩
  case poll => exact ⟨_, hlens (by rw [hpc]; rfl), Region.within_add (by decide)⟩
  case markStalled => exact ⟨_, hlens (by rw [hpc]; rfl), Region.within_add (by decide)⟩
  case stamp => exact ⟨_, hlens (by rw [hpc]; rfl), Region.within_add (by rw [leBytes_length]; decide)⟩
  case copyLens =>
    split
    · exact ⟨_, hlens (by rw [hpc]; rfl), Region.within_add (by omega)⟩
    · trivial
  case readLast => exact ⟨_, hlens (by rw [hpc]; rfl), Region.within_add (by decide)⟩
  case reset => exact ⟨_, hlens (by rw [hpc]; rfl), Region.within_add (by decide)⟩
  case copyData =>
    split
    · next hblock =>
      rw [MappedTodisk.own_data (by simp [MappedTodisk.held, hp, hpc, hblock.1, TodiskPc.onLens])]
      refine ⟨_, List.mem_cons_self, Region.within_add ?_⟩
      show p.blockDone + min ch.n (dataBlockSize - p.blockDone) ≤ dataBlockSize
      omega
    · trivial
  all_goals trivial

/-- Every call and access of a process is one that it may make with what it has mapped. -/
theorem Host.TodiskOk.allowed (h : H.TodiskOk p) (ch : Choice) : (H.todiskOp p ch).Allowed pageSize H.config.window p.own := by
  have hstage := h.stage
  unfold MappedTodisk.Stage at hstage
  cases hp : p.phase <;> simp only [Host.todiskOp, hp] at hstage ⊢
  case mapGlobal =>
    refine ⟨H.config.globalRegion_aligned, H.config.globalRegion_pos, H.config.globalRegion_within, fun q hq => ?_⟩
    rw [MappedTodisk.own_none (by simp [MappedTodisk.held, hp]) (by rw [hp]; rfl)] at hq
    cases hq
  case waitMagic =>
    have hmem := MappedTodisk.global_mem_own (p := p) (by rw [hp]; rfl)
    exact ⟨_, hmem, Region.within_start (by decide)⟩
  case access => exact MappedTodisk.access_allowed hp ch _
  case mapLens =>
    obtain ⟨hin, hdis⟩ := lensRegion_inside h.bucket
    refine ⟨lensRegion_aligned _, lensRegion_pos _, hin, ?_⟩
    rw [MappedTodisk.own_nothing (by simp [MappedTodisk.held, hp]) (by rw [hp]; rfl),
      h.global (by rw [hp]; rfl)]
    exact fun q hq => List.mem_singleton.mp hq ▸ hdis
  case mapData =>
    obtain ⟨hin, hdis⟩ := dataRegion_inside h.bucket hstage.2.1
    refine ⟨dataRegion_aligned _ _, dataRegion_pos _ _, hin, ?_⟩
    rw [MappedTodisk.own_nothing (by simp [MappedTodisk.held, hp]) (by rw [hp]; rfl),
      h.global (by rw [hp]; rfl)]
    exact fun q hq => List.mem_singleton.mp hq ▸ hdis
  case unmapRetry | unmapLens =>
    rw [MappedTodisk.own_lens (by simp [MappedTodisk.held, hp])]
    exact List.mem_cons_self
  case unmapData =>
    rw [MappedTodisk.own_data (by simp [MappedTodisk.held, hp])]
    exact List.mem_cons_self
  case unmapGlobal => exact MappedTodisk.global_mem_own (by rw [hp]; rfl)
  all_goals trivial

/-- An access maps and unmaps nothing. -/
theorem MappedTodisk.access_moves (p : MappedTodisk) (ch : Choice) (own own' : List Region) :
    (p.access ch).Moves own own' ↔ own' = own := by
  unfold MappedTodisk.access
  cases p.w.pc <;> simp only
  case copyLens => split <;> exact Iff.rfl
  case copyData => split <;> exact Iff.rfl
  all_goals exact Iff.rfl

/-- What is mapped depends on the pointers and the phase only. -/
theorem MappedTodisk.own_congr {q : MappedTodisk} (hptr : q.gshare = p.gshare ∧ q.bucketInfo = p.bucketInfo ∧ q.dataPtr = p.dataPtr)
    (hheld : q.held = p.held) (hp : p.phase.holdsGlobal = true) (hq : q.phase.holdsGlobal = true) :
    q.own = p.own := by
  obtain ⟨h1, h2, h3⟩ := hptr
  unfold MappedTodisk.own
  rw [hheld, h1, h2, h3, if_pos hq, if_pos hp]

/-- A process that goes on with the same pointers, and holds the same of a bucket, is as it should be if its variables are. -/
theorem Host.TodiskOk.goes_on (h : H.TodiskOk p) (hp : p.phase = .access) {q : MappedTodisk}
    (hptr : q.gshare = p.gshare ∧ q.bucketInfo = p.bucketInfo ∧ q.dataPtr = p.dataPtr) (hi : q.i = p.i) (hheld : q.held = p.held)
    (hq : q.phase.holdsGlobal = true) (hbucket : H.config.IsBucket q.w.cur) (hlen : q.w.lenDone ≤ lenBlockSize)
    (hcur : q.held ≠ .nothing → q.w.cur = p.w.cur)
    (hdata : q.held = .data → q.i * dataBlockSize ≤ q.w.dataDone ∧ q.w.dataDone ≤ (q.i + 1) * dataBlockSize) (hstage : q.Stage) :
    H.TodiskOk q ∧ q.own = p.own := by
  have hp' : p.phase.holdsGlobal = true := by
    rw [hp]
    rfl
  refine ⟨⟨hbucket, hlen, fun _ => hptr.1.trans (h.global hp'), fun hl => ?_, fun hd => ?_, hstage⟩,
    MappedTodisk.own_congr hptr hheld hp' hq⟩
  · rw [hptr.2.1, hcur (by rw [hl]; decide)]
    exact h.lens (hheld.symm.trans hl)
  · obtain ⟨h1, h2, -⟩ := h.data (hheld.symm.trans hd)
    refine ⟨?_, by rw [hi]; exact h2, hdata hd⟩
    rw [hptr.2.2, hcur (by rw [hd]; decide), hi]
    exact h1

/-- The stages with the length block mapped. -/
theorem MappedTodisk.stage_onLens (hp : p.phase = .access) (hpc : p.w.pc.onLens = true) :
    p.Stage ↔ p.maps = visitRegions p.w.cur 0 ∧ (p.w.pc.onFile = true → p.w.dataDone = 0) := by
  have h1 : p.w.pc ≠ .copyData := fun he => by rw [he] at hpc; cases hpc
  have h2 : p.w.pc ≠ .close := fun he => by rw [he] at hpc; cases hpc
  have h3 : p.w.pc ≠ .exited := fun he => by rw [he] at hpc; cases hpc
  simp [MappedTodisk.Stage, hp, hpc, h1, h2, h3]

/-- The accesses to the length block are made with it mapped. -/
theorem MappedTodisk.held_onLens (hp : p.phase = .access) (hpc : p.w.pc.onLens = true) : p.held = .lens := by
  simp [MappedTodisk.held, hp, hpc]

/-- An access with the length block mapped that leaves it mapped, at the next access or in the next phase. -/
theorem Host.TodiskOk.onLens (h : H.TodiskOk p) (hp : p.phase = .access) (hpc : p.w.pc.onLens = true) {q : MappedTodisk}
    (hptr : q.gshare = p.gshare ∧ q.bucketInfo = p.bucketInfo ∧ q.dataPtr = p.dataPtr) (hi : q.i = p.i) (hheld : q.held = .lens)
    (hcur : q.w.cur = p.w.cur) (hlen : q.w.lenDone ≤ lenBlockSize) (hstage : q.Stage) : H.TodiskOk q ∧ q.own = p.own := by
  have hg : q.phase.holdsGlobal = true := MappedTodisk.holdsGlobal_of_held hheld Held.noConfusion
  refine h.goes_on hp hptr hi (hheld.trans (MappedTodisk.held_onLens hp hpc).symm) hg ?_ hlen (fun _ => hcur) (fun hd => ?_) hstage
  · rw [hcur]
    exact h.bucket
  · rw [hheld] at hd
    cases hd

/-- An access with the length block mapped that goes on to another one. -/
theorem Host.TodiskOk.onLens_stays (h : H.TodiskOk p) (hp : p.phase = .access) (hpc : p.w.pc.onLens = true) {w : Todisk}
    (hpc' : w.pc.onLens = true) (hcur : w.cur = p.w.cur) (hlen : w.lenDone ≤ lenBlockSize)
    (hdata : w.pc.onFile = true → w.dataDone = 0) : H.TodiskOk { p with w := w } ∧ { p with w := w }.own = p.own := by
  obtain ⟨hmaps, -⟩ := (MappedTodisk.stage_onLens hp hpc).mp h.stage
  refine h.onLens hp hpc (q := { p with w := w }) ⟨rfl, rfl, rfl⟩ rfl (MappedTodisk.held_onLens hp hpc') hcur hlen ?_
  refine (MappedTodisk.stage_onLens (p := { p with w := w }) hp hpc').mpr ⟨?_, hdata⟩
  show p.maps = visitRegions w.cur 0
  rw [hcur]
  exact hmaps

/-- The process after an access to the header or the lengths of a bucket. -/
theorem Host.TodiskOk.onLens_next (h : H.TodiskOk p) (hp : p.phase = .access) (hpc : p.w.pc.onLens = true) (ch : Choice)
    {reply : Reply} (hans : (p.access ch).Answers reply) :
    H.TodiskOk (H.todiskAccess p ch reply.bytes) ∧ (H.todiskAccess p ch reply.bytes).own = p.own := by
  obtain ⟨hmaps, hfile⟩ := (MappedTodisk.stage_onLens hp hpc).mp h.stage
  unfold Host.todiskAccess
  cases he : p.w.pc <;> rw [he] at hpc hfile <;> simp only
  case poll =>
    split
    · exact h.onLens_stays hp (by rw [he]; rfl) rfl rfl h.lenDone (fun hf => Bool.noConfusion hf)
    · split <;> exact h.onLens_stays hp (by rw [he]; rfl) rfl rfl h.lenDone (fun hf => Bool.noConfusion hf)
  case pollStop =>
    split
    · exact h.onLens hp (by rw [he]; rfl) ⟨rfl, rfl, rfl⟩ rfl rfl rfl h.lenDone rfl
    · exact h.onLens_stays hp (by rw [he]; rfl) rfl rfl h.lenDone (fun hf => Bool.noConfusion hf)
  case raiseStop => exact h.onLens_stays hp (by rw [he]; rfl) rfl rfl h.lenDone (fun hf => Bool.noConfusion hf)
  case markStalled => exact h.onLens_stays hp (by rw [he]; rfl) rfl rfl h.lenDone (fun hf => Bool.noConfusion hf)
  case openFile =>
    split
    · exact h.onLens_stays hp (by rw [he]; rfl) rfl rfl (Nat.zero_le _) (fun _ => rfl)
    · exact h.onLens hp (by rw [he]; rfl) ⟨rfl, rfl, rfl⟩ rfl rfl rfl h.lenDone trivial
  case stamp => exact h.onLens_stays hp (by rw [he]; rfl) rfl rfl h.lenDone fun _ => hfile rfl
  case copyLens =>
    split
    · next hlt =>
      refine h.onLens_stays hp (by rw [he]; rfl) (by rw [he]; rfl) rfl ?_ fun _ => hfile rfl
      -- a piece ends before the block does
      rw [MappedTodisk.access, he] at hans
      simp only [if_pos hlt] at hans
      have hpiece : reply.bytes.length = min ch.n (lenBlockSize - p.w.lenDone) := hans
      show p.w.lenDone + reply.bytes.length ≤ lenBlockSize
      omega
    · exact h.onLens_stays hp (by rw [he]; rfl) rfl rfl h.lenDone fun _ => hfile rfl
  case readLast => exact h.onLens_stays hp (by rw [he]; rfl) rfl rfl h.lenDone fun _ => hfile rfl
  case reset => exact h.onLens hp (by rw [he]; rfl) ⟨rfl, rfl, rfl⟩ rfl rfl rfl h.lenDone ⟨rfl, hfile rfl, hmaps⟩
  all_goals cases hpc

/-- The head of the loop: the process leaves the loop, or begins a visit. -/
theorem Host.TodiskOk.again0_next (h : H.TodiskOk p) (hp : p.phase = .access) (hpc : p.w.pc = .again0) (ch : Choice)
    (bytes : List UInt8) : H.TodiskOk (H.todiskAccess p ch bytes) ∧ (H.todiskAccess p ch bytes).own = p.own := by
  have hheld : p.held = .nothing := by simp [MappedTodisk.held, hp, hpc, TodiskPc.onLens]
  unfold Host.todiskAccess
  rw [hpc]
  dsimp only
  generalize hw : p.w.again0 (decide (leNat bytes ≠ 0)) = w
  have hvars := p.w.again0_vars (decide (leNat bytes ≠ 0))
  have hcases := p.w.again0_pc (decide (leNat bytes ≠ 0))
  rw [hw] at hvars hcases
  obtain ⟨hcur, -, -, hlen⟩ := hvars
  have hbucket : H.config.IsBucket w.cur := hcur ▸ h.bucket
  have hle : w.lenDone ≤ lenBlockSize := hlen ▸ h.lenDone
  rcases hcases with he | he
  · rw [if_pos he]
    exact h.goes_on hp ⟨rfl, rfl, rfl⟩ rfl hheld.symm rfl hbucket hle (fun _ => hcur) (fun hd => by cases hd) he
  · rw [if_neg (by rw [he]; decide)]
    exact h.goes_on hp ⟨rfl, rfl, rfl⟩ rfl hheld.symm rfl hbucket hle (fun _ => hcur) (fun hd => by cases hd) ⟨he, rfl⟩

/-- The end of the loop. -/
theorem Host.TodiskOk.close_next (h : H.TodiskOk p) (hp : p.phase = .access) (hpc : p.w.pc = .close) (ch : Choice)
    (bytes : List UInt8) : H.TodiskOk (H.todiskAccess p ch bytes) ∧ (H.todiskAccess p ch bytes).own = p.own := by
  have hheld : p.held = .nothing := by simp [MappedTodisk.held, hp, hpc, TodiskPc.onLens]
  unfold Host.todiskAccess
  rw [hpc]
  dsimp only
  obtain ⟨hlen, hbucket⟩ := H.endBlock_vars p.w
  have hcases := H.endBlock_pc p.w
  generalize H.endBlock p.w = w at hlen hbucket hcases
  have hle : w.lenDone ≤ lenBlockSize := hlen ▸ Nat.zero_le _
  rcases hcases with he | he
  · rw [if_pos he]
    refine h.goes_on hp ⟨rfl, rfl, rfl⟩ rfl hheld.symm rfl (hbucket h.bucket) hle (fun hn => absurd rfl hn)
      (fun hd => by cases hd) he
  · rw [if_neg (by rw [he]; decide)]
    have hnone : MappedTodisk.held { p with w := w, phase := .access } = .nothing := by simp [MappedTodisk.held, he, TodiskPc.onLens]
    refine h.goes_on hp (q := { p with w := w, phase := .access }) ⟨rfl, rfl, rfl⟩ rfl (hnone.trans hheld.symm) rfl
      (hbucket h.bucket) hle (fun hn => absurd hnone hn) (fun hd => by rw [hnone] at hd; cases hd) ?_
    simp [MappedTodisk.Stage, he, TodiskPc.onLens, TodiskPc.onFile]

/-- The copy of the packets, one block after the other. -/
theorem Host.TodiskOk.copyData_next (h : H.TodiskOk p) (hp : p.phase = .access) (hpc : p.w.pc = .copyData) (ch : Choice)
    {reply : Reply} (hans : (p.access ch).Answers reply) :
    H.TodiskOk (H.todiskAccess p ch reply.bytes) ∧ (H.todiskAccess p ch reply.bytes).own = p.own := by
  have hstage := h.stage
  simp only [MappedTodisk.Stage, hp, hpc, forall_const] at hstage
  obtain ⟨-, -, hmaps, hall, -⟩ := hstage
  unfold Host.todiskAccess
  rw [hpc]
  dsimp only
  by_cases hi : p.i < 31
  · have hheld : p.held = .data := by simp [MappedTodisk.held, hp, hpc, TodiskPc.onLens, hi]
    obtain ⟨-, -, hlo, hhi⟩ := h.data hheld
    rw [if_pos hi]
    by_cases hblock : p.blockDone < dataBlockSize
    · rw [if_pos hblock]
      rw [MappedTodisk.access, hpc] at hans
      simp only [hi, hblock, and_self, if_true] at hans
      have hpiece : reply.bytes.length = min ch.n (dataBlockSize - p.blockDone) := hans
      have hdone : p.blockDone = p.w.dataDone - p.i * dataBlockSize := rfl
      have hnext : (p.i + 1) * dataBlockSize = p.i * dataBlockSize + dataBlockSize := Nat.succ_mul _ _
      refine h.goes_on hp ⟨rfl, rfl, rfl⟩ rfl ?_ (hp ▸ rfl) h.bucket h.lenDone (fun _ => rfl) (fun _ => ?_) ?_
      · rw [hheld]
        simp [MappedTodisk.held, hp, hpc, TodiskPc.onLens, hi]
      · show p.i * dataBlockSize ≤ p.w.dataDone + reply.bytes.length ∧ p.w.dataDone + reply.bytes.length ≤ (p.i + 1) * dataBlockSize
        omega
      · simp [MappedTodisk.Stage, hp, hpc, TodiskPc.onLens, TodiskPc.onFile, hi, hmaps hi]
    · rw [if_neg hblock]
      have hdone : p.blockDone = p.w.dataDone - p.i * dataBlockSize := rfl
      have hnext : (p.i + 1) * dataBlockSize = p.i * dataBlockSize + dataBlockSize := Nat.succ_mul _ _
      refine h.goes_on hp ⟨rfl, rfl, rfl⟩ rfl hheld.symm rfl h.bucket h.lenDone (fun _ => rfl) (fun _ => ⟨hlo, hhi⟩) ?_
      exact ⟨hpc, by show p.w.dataDone = (p.i + 1) * dataBlockSize; omega, hmaps hi⟩
  · have hheld : p.held = .nothing := by simp [MappedTodisk.held, hp, hpc, TodiskPc.onLens, hi]
    rw [if_neg hi]
    refine h.goes_on hp ⟨rfl, rfl, rfl⟩ rfl ?_ (hp ▸ rfl) h.bucket h.lenDone (fun _ => rfl) (fun hd => ?_) ?_
    · rw [hheld]
      simp [MappedTodisk.held, hp, TodiskPc.onLens]
    · simp [MappedTodisk.held, hp, TodiskPc.onLens] at hd
    · simp [MappedTodisk.Stage, hp, TodiskPc.onLens, TodiskPc.onFile, (hall hi).2]

/-- The process after an access. -/
theorem Host.TodiskOk.access_next (h : H.TodiskOk p) (hp : p.phase = .access) (ch : Choice) {reply : Reply}
    (hans : (p.access ch).Answers reply) :
    H.TodiskOk (H.todiskAccess p ch reply.bytes) ∧ (H.todiskAccess p ch reply.bytes).own = p.own := by
  by_cases hpc : p.w.pc.onLens = true
  · exact h.onLens_next hp hpc ch hans
  · cases he : p.w.pc
    case again0 => exact h.again0_next hp he ch reply.bytes
    case copyData => exact h.copyData_next hp he ch hans
    case close => exact h.close_next hp he ch reply.bytes
    case exited =>
      have hstage := h.stage
      simp [MappedTodisk.Stage, hp, he] at hstage
    all_goals exact absurd (by rw [he]; rfl) hpc

/-! The calls. -/

/-- The shared page is mapped. -/
theorem Host.TodiskOk.mapGlobal_next (h : H.TodiskOk p) (hp : p.phase = .mapGlobal) {q : MappedTodisk}
    (hq : q = { p with phase := .waitMagic, gshare := H.config.globalRegion.start }) :
    H.TodiskOk q ∧ q.own = H.config.globalRegion :: p.own := by
  subst hq
  have hstage := h.stage
  simp only [MappedTodisk.Stage, hp] at hstage
  refine ⟨⟨h.bucket, h.lenDone, fun _ => rfl, (fun hl => by cases hl), (fun hd => by cases hd), hstage⟩, ?_⟩
  have hown : p.own = [] := MappedTodisk.own_none (by simp [MappedTodisk.held, hp]) (by rw [hp]; rfl)
  rw [hown]
  rfl

/-- A call that leaves a process with nothing mapped of a bucket. -/
theorem Host.TodiskOk.onNothing (h : H.TodiskOk p) (hp : p.phase.holdsGlobal = true) {q : MappedTodisk} (hw : q.w = p.w)
    (hg : q.gshare = p.gshare) (hq : q.phase.holdsGlobal = true) (hheld : q.held = .nothing) (hstage : q.Stage) :
    H.TodiskOk q ∧ q.own = [⟨p.gshare, 4096⟩] := by
  refine ⟨⟨hw ▸ h.bucket, hw ▸ h.lenDone, fun _ => hg.trans (h.global hp), fun hl => ?_, fun hd => ?_, hstage⟩, ?_⟩
  · exact absurd (hl.symm.trans hheld) Held.noConfusion
  · exact absurd (hd.symm.trans hheld) Held.noConfusion
  · rw [MappedTodisk.own_nothing hheld hq, hg]

/-- The words of the magic are there. -/
theorem Host.TodiskOk.waitMagic_next (h : H.TodiskOk p) (hp : p.phase = .waitMagic) {q : MappedTodisk}
    (hq : q = { p with phase := .access }) : H.TodiskOk q ∧ q.own = p.own := by
  have hstage := h.stage
  simp only [MappedTodisk.Stage, hp] at hstage
  rw [MappedTodisk.own_nothing (p := p) (by simp [MappedTodisk.held, hp]) (by rw [hp]; rfl)]
  subst hq
  refine h.onNothing (by rw [hp]; rfl) rfl rfl rfl ?_ ?_
  · simp [MappedTodisk.held, hstage, TodiskPc.onLens]
  · simp [MappedTodisk.Stage, hstage, TodiskPc.onLens, TodiskPc.onFile]

/-- The length block of the current bucket is mapped. -/
theorem Host.TodiskOk.mapLens_next (h : H.TodiskOk p) (hp : p.phase = .mapLens) {q : MappedTodisk}
    (hq : q = { p with
      phase := .access, bucketInfo := (lensRegion p.w.cur).start, maps := p.maps ++ [lensRegion p.w.cur] }) :
    H.TodiskOk q ∧ q.own = lensRegion p.w.cur :: p.own := by
  have hstage := h.stage
  simp only [MappedTodisk.Stage, hp] at hstage
  obtain ⟨hpc, hmaps⟩ := hstage
  have hon : q.w.pc.onLens = true := by
    rw [hq]
    exact hpc ▸ rfl
  have hheld : q.held = .lens := MappedTodisk.held_onLens (by rw [hq]) hon
  have hown : p.own = [⟨p.gshare, 4096⟩] :=
    MappedTodisk.own_nothing (by simp [MappedTodisk.held, hp]) (by rw [hp]; rfl)
  refine ⟨⟨?_, ?_, fun _ => ?_, fun _ => ?_, fun hd => ?_, (MappedTodisk.stage_onLens (by rw [hq]) hon).mpr ⟨?_, ?_⟩⟩, ?_⟩
  · exact hq ▸ h.bucket
  · exact hq ▸ h.lenDone
  · exact hq ▸ h.global (by rw [hp]; rfl)
  · rw [hq]
  · rw [hheld] at hd
    cases hd
  · rw [hq, hmaps]
    rfl
  · rw [hq]
    intro hf
    rw [show p.w.pc = .poll from hpc] at hf
    cases hf
  · rw [MappedTodisk.own_lens hheld, hown, hq]
    rfl

/-- The length block is unmapped, and looked at again later. -/
theorem Host.TodiskOk.unmapRetry_next (h : H.TodiskOk p) (hp : p.phase = .unmapRetry) {q : MappedTodisk}
    (hq : q = { p with phase := .access }) : H.TodiskOk q ∧ p.own = ⟨p.bucketInfo, lenBlockSize⟩ :: q.own := by
  have hstage := h.stage
  simp only [MappedTodisk.Stage, hp] at hstage
  rw [MappedTodisk.own_lens (p := p) (by simp [MappedTodisk.held, hp])]
  subst hq
  obtain ⟨hok, hown⟩ := h.onNothing (q := { p with phase := .access }) (by rw [hp]; rfl) rfl rfl rfl
    (by simp [MappedTodisk.held, hstage, TodiskPc.onLens])
    (by simp [MappedTodisk.Stage, hstage, TodiskPc.onLens, TodiskPc.onFile])
  exact ⟨hok, by rw [hown]⟩

/-- The length block is unmapped before the data is mapped. -/
theorem Host.TodiskOk.unmapLens_next (h : H.TodiskOk p) (hp : p.phase = .unmapLens) {q : MappedTodisk}
    (hq : q = { p with phase := .mapData, i := 0 }) : H.TodiskOk q ∧ p.own = ⟨p.bucketInfo, lenBlockSize⟩ :: q.own := by
  have hstage := h.stage
  simp only [MappedTodisk.Stage, hp] at hstage
  obtain ⟨hpc, hdone, hmaps⟩ := hstage
  rw [MappedTodisk.own_lens (p := p) (by simp [MappedTodisk.held, hp])]
  subst hq
  obtain ⟨hok, hown⟩ := h.onNothing (q := { p with phase := .mapData, i := 0 }) (by rw [hp]; rfl) rfl rfl rfl rfl
    ⟨hpc, Nat.succ_pos 30, hdone.trans (Nat.zero_mul _).symm, hmaps⟩
  exact ⟨hok, by rw [hown]⟩

/-- One more data block of a visit. -/
theorem visitRegions_succ (b k : Nat) : visitRegions b (k + 1) = visitRegions b k ++ [dataRegion b k] := by
  rw [visitRegions, List.range_succ, List.map_append]
  rfl

/-- The next data block is mapped. -/
theorem Host.TodiskOk.mapData_next (h : H.TodiskOk p) (hp : p.phase = .mapData) {q : MappedTodisk}
    (hq : q = { p with
      phase := .access, dataPtr := (dataRegion p.w.cur p.i).start, maps := p.maps ++ [dataRegion p.w.cur p.i] }) :
    H.TodiskOk q ∧ q.own = dataRegion p.w.cur p.i :: p.own := by
  have hstage := h.stage
  simp only [MappedTodisk.Stage, hp] at hstage
  obtain ⟨hpc, hi, hdone, hmaps⟩ := hstage
  have hheld : q.held = .data := by simp [hq, MappedTodisk.held, hpc, TodiskPc.onLens, hi]
  have hown : p.own = [⟨p.gshare, 4096⟩] :=
    MappedTodisk.own_nothing (by simp [MappedTodisk.held, hp]) (by rw [hp]; rfl)
  rw [hown, MappedTodisk.own_data hheld]
  subst hq
  refine ⟨⟨h.bucket, h.lenDone, fun _ => h.global (by rw [hp]; rfl), (fun hl => by rw [hheld] at hl; cases hl),
    fun _ => ⟨rfl, hi, Nat.le_of_eq hdone.symm, ?_⟩, ?_⟩, rfl⟩
  · exact Nat.le_trans (Nat.le_of_eq hdone) (Nat.mul_le_mul_right _ (Nat.le_succ p.i))
  · simp [MappedTodisk.Stage, hpc, TodiskPc.onLens, TodiskPc.onFile, hi, hmaps, visitRegions_succ]

/-- The data block is unmapped, and the next one is mapped, or the file is closed. -/
theorem Host.TodiskOk.unmapData_next (h : H.TodiskOk p) (hp : p.phase = .unmapData) {q : MappedTodisk}
    (hq : q = { p with phase := if p.i + 1 < 31 then .mapData else .access, i := p.i + 1 }) :
    H.TodiskOk q ∧ p.own = ⟨p.dataPtr, 32 * const1M⟩ :: q.own := by
  have hstage := h.stage
  simp only [MappedTodisk.Stage, hp] at hstage
  obtain ⟨hpc, hdone, hmaps⟩ := hstage
  have hheld' : p.held = .data := by simp [MappedTodisk.held, hp]
  obtain ⟨-, hi, -, -⟩ := h.data hheld'
  rw [MappedTodisk.own_data hheld']
  by_cases hlast : p.i + 1 < 31
  · rw [if_pos hlast] at hq
    subst hq
    obtain ⟨hok, hown⟩ := h.onNothing (q := { p with phase := .mapData, i := p.i + 1 }) (by rw [hp]; rfl) rfl rfl rfl rfl
      ⟨hpc, hlast, hdone, hmaps⟩
    exact ⟨hok, by rw [hown]⟩
  · -- the last block has been copied
    rw [if_neg hlast] at hq
    subst hq
    obtain hi30 : p.i = 30 := by omega
    rw [hi30] at hdone hmaps
    have hall : p.w.dataDone = lenBlockOff := hdone.trans (by decide)
    obtain ⟨hok, hown⟩ := h.onNothing (q := { p with phase := .access, i := p.i + 1 }) (by rw [hp]; rfl) rfl rfl rfl
      (by simp [MappedTodisk.held, hpc, TodiskPc.onLens, hi30])
      (by simp [MappedTodisk.Stage, hpc, TodiskPc.onLens, TodiskPc.onFile, hi30, hmaps, hall])
    exact ⟨hok, by rw [hown]⟩

/-- The shared page is unmapped, and nothing is left. -/
theorem Host.TodiskOk.unmapGlobal_next (h : H.TodiskOk p) (hp : p.phase = .unmapGlobal) {q : MappedTodisk}
    (hq : q = { p with phase := .returned }) : H.TodiskOk q ∧ p.own = [⟨p.gshare, 4096⟩] ∧ q.own = [] := by
  refine ⟨?_, MappedTodisk.own_nothing (by simp [MappedTodisk.held, hp]) (by rw [hp]; rfl), ?_⟩
  · subst hq
    exact ⟨h.bucket, h.lenDone, fun _ => h.global (by rw [hp]; rfl), (fun hl => by cases hl), (fun hd => by cases hd), trivial⟩
  · exact MappedTodisk.own_none (by simp [hq, MappedTodisk.held]) (by rw [hq]; rfl)

/-- The process after a call or an access. -/
theorem Host.TodiskOk.next (h : H.TodiskOk p) (ch : Choice) {reply : Reply} (hans : (H.todiskOp p ch).Answers reply) :
    H.TodiskOk (H.todiskNext p ch reply) ∧ (H.todiskOp p ch).Moves p.own (H.todiskNext p ch reply).own := by
  unfold Host.todiskOp at hans ⊢
  unfold Host.todiskNext
  cases hp : p.phase <;> simp only [hp] at hans ⊢
  case access =>
    obtain ⟨hok, hown⟩ := h.access_next hp ch hans
    exact ⟨hok, (p.access_moves ch _ _).mpr hown⟩
  case mapGlobal =>
    have haddr : reply.addr = H.config.globalRegion.start := hans
    exact h.mapGlobal_next hp (by rw [haddr])
  case waitMagic =>
    split
    · exact h.waitMagic_next hp rfl
    · exact ⟨h, rfl⟩
  case mapLens =>
    have haddr : reply.addr = (lensRegion p.w.cur).start := hans
    exact h.mapLens_next hp (by rw [haddr]; rfl)
  case unmapRetry =>
    obtain ⟨hok, hown⟩ := h.unmapRetry_next hp rfl
    exact ⟨hok, [], _, hown, rfl⟩
  case unmapLens =>
    obtain ⟨hok, hown⟩ := h.unmapLens_next hp rfl
    exact ⟨hok, [], _, hown, rfl⟩
  case mapData =>
    have haddr : reply.addr = (dataRegion p.w.cur p.i).start := hans
    exact h.mapData_next hp (by rw [haddr]; rfl)
  case unmapData =>
    obtain ⟨hok, hown⟩ := h.unmapData_next hp rfl
    exact ⟨hok, [], _, hown, rfl⟩
  case unmapGlobal =>
    obtain ⟨hok, hown, hown'⟩ := h.unmapGlobal_next hp rfl
    exact ⟨hok, [], [], hown, hown'⟩
  case returned => exact ⟨h, rfl⟩
  case failed => exact ⟨h, rfl⟩

/-- The process knows at any time what it has mapped. -/
theorem Host.todisk_keepsBooks (H : Host) :
    H.todiskClient.KeepsBooks pageSize H.config.window H.TodiskOk MappedTodisk.own where
  allowed := fun _ ch h => h.allowed ch
  next := fun _ ch _ h hans => h.next ch hans

/-- A pointer with an offset is the address that the access names. -/
theorem Host.TodiskOk.access_named (h : H.TodiskOk p) (hp : p.phase = .access) {ch : Choice} {a : Nat}
    (ha : (p.access ch).addr = some a) : a = H.todiskNamed p := by
  have hglobal : p.gshare = H.config.globalAddr := h.global (by rw [hp]; rfl)
  have hlens : p.w.pc.onLens = true → ∀ off, p.bucketInfo + off = hdrAt p.w.cur off := fun hpc off => by
    rw [h.lens (MappedTodisk.held_onLens hp hpc), hdrAt, ← Nat.add_assoc]
    rfl
  have hphase : p.phase ≠ .waitMagic := by
    rw [hp]
    decide
  unfold MappedTodisk.access at ha
  unfold Host.todiskNamed
  rw [if_neg hphase]
  cases hpc : p.w.pc <;> rw [hpc] at ha hlens <;> simp only at ha ⊢
  case again0 | pollStop | raiseStop => exact (Option.some.inj ha).symm.trans (congrArg (· + _) hglobal)
  case poll | reset | markStalled | stamp | readLast => exact (Option.some.inj ha).symm.trans (hlens rfl _)
  case copyLens =>
    split at ha
    · exact (Option.some.inj ha).symm.trans (hlens rfl _)
    · cases ha
  case copyData =>
    split at ha
    · next hblock =>
      have hheld : p.held = .data := by simp [MappedTodisk.held, hp, hpc, TodiskPc.onLens, hblock.1]
      obtain ⟨hptr, -, hlo, -⟩ := h.data hheld
      have hblk : p.blockDone = p.w.dataDone - p.i * 33554432 := rfl
      have hlo' : p.i * 33554432 ≤ p.w.dataDone := hlo
      rw [← Option.some.inj ha, hptr, dataRegion_start, hblk]
      omega
    · cases ha
  all_goals cases ha

/-- Every access is at the address that the program names in physical memory. -/
theorem Host.TodiskOk.named (h : H.TodiskOk p) {ch : Choice} {a : Nat} (ha : (H.todiskOp p ch).addr = some a) :
    a = H.todiskNamed p := by
  cases hp : p.phase
  case access =>
    rw [Host.todiskOp, hp] at ha
    exact h.access_named hp ha
  case waitMagic =>
    rw [Host.todiskOp, hp] at ha
    rw [Host.todiskNamed, if_pos hp, ← h.global (by rw [hp]; rfl)]
    exact (Option.some.inj ha).symm
  all_goals
    rw [Host.todiskOp, hp] at ha
    cases ha

/-- The calls and accesses of a process are safe, at the address that is named. -/
theorem Host.todisk_safe (H : Host) {w : World MappedTodisk} (h : AddrSpace.Sound mmapMem H.config.window H.TodiskOk MappedTodisk.own w)
    (ch : Choice) : (H.todiskOp w.proc ch).Safe pageSize w.space w.others (H.todiskNamed w.proc) := by
  refine H.todisk_keepsBooks.safe h ch fun a r ha _ hle => ?_
  show _ = r.start + (a - r.start)
  rw [Nat.add_sub_cancel' hle]
  exact (h.ok.named ha).symm

/-- A process starts with nothing mapped. -/
theorem Host.enterTodisk_ok (H : Host) {id : Nat} (hid : id < H.table.numWriters) :
    H.TodiskOk (H.enterTodisk id) ∧ (H.enterTodisk id).own = [] := by
  refine ⟨⟨?_, Nat.zero_le _, (fun hg => by cases hg), (fun hl => by cases hl), (fun hd => by cases hd), rfl⟩, rfl⟩
  have hle := H.writers_le
  have hs := H.config.start_le_end
  unfold Config.numBuckets at hle
  show H.config.start1G ≤ H.config.start1G + id ∧ H.config.start1G + id ≤ H.config.end1G
  omega

/-- In all runs the mappings of a process are those in its books. -/
theorem Host.todisk_sound (H : Host) {id : Nat} (hid : id < H.table.numWriters) {w : World MappedTodisk}
    (hw : Reached (H.mappedTodisk id) (fun _ _ => True) w) : AddrSpace.Sound mmapMem H.config.window H.TodiskOk MappedTodisk.own w := by
  obtain ⟨hok, hown⟩ := H.enterTodisk_ok hid
  exact H.todisk_keepsBooks.sound hok hown hw

end Todisk

/-! ## The books of `count_then_discard` -/

/-- The accesses between the mapping of the length block and its unmapping. -/
def DiscardPc.onLens : DiscardPc → Bool
  | .poll | .pollStop | .readCaptured | .readLast | .clear => true
  | .again0 | .exited => false

/-- Whether a process of `count_then_discard` has a length block mapped. -/
def MappedDiscard.holdsLens (p : MappedDiscard) : Bool :=
  match p.phase with
  | .unmapRetry | .unmapLens => true
  | .access => p.v.pc.onLens
  | _ => false

/-- The ranges that a process has mapped. -/
def MappedDiscard.own (p : MappedDiscard) : List Region :=
  (if p.holdsLens then [⟨p.bucketInfo, lenBlockSize⟩] else []) ++
  if p.phase.holdsGlobal then [⟨p.gshare, 4096⟩] else []

/-- Where in its loop a process is in each phase. -/
def MappedDiscard.Stage (p : MappedDiscard) : Prop :=
  match p.phase with
  | .mapGlobal | .waitMagic | .unmapRetry => p.v.pc = .again0
  | .mapLens => p.v.pc = .poll
  | .unmapLens => p.v.pc = .again0 ∨ p.v.pc = .exited
  | .unmapGlobal | .returned => p.v.pc = .exited
  | .access => p.v.pc ≠ .exited
  | .mapData | .unmapData | .failed => False

/-- A process whose pointers are the addresses it has asked for. -/
structure Host.DiscardOk (H : Host) (p : MappedDiscard) : Prop where
  bucket : H.config.IsBucket p.v.cur
  global : p.phase.holdsGlobal = true → p.gshare = H.config.globalAddr
  lens : p.phase = .access → p.v.pc.onLens = true → p.bucketInfo = (lensRegion p.v.cur).start
  stage : p.Stage

section Discard

variable {H : Host} {p : MappedDiscard}

/-- With the length block mapped a process has it and the shared page. -/
theorem MappedDiscard.own_lens (h : p.holdsLens = true) : p.own = [⟨p.bucketInfo, lenBlockSize⟩, ⟨p.gshare, 4096⟩] := by
  have hg : p.phase.holdsGlobal = true := by
    cases hp : p.phase <;> first | rfl | simp [MappedDiscard.holdsLens, hp] at h
  rw [MappedDiscard.own, if_pos h, if_pos hg]
  rfl

/-- With nothing mapped of a bucket, only the shared page is mapped. -/
theorem MappedDiscard.own_nothing (h : p.holdsLens = false) (hg : p.phase.holdsGlobal = true) :
    p.own = [⟨p.gshare, 4096⟩] := by
  rw [MappedDiscard.own, h, if_pos hg]
  rfl

/-- A process without the shared page has nothing mapped. -/
theorem MappedDiscard.own_none (h : p.holdsLens = false) (hg : p.phase.holdsGlobal = false) : p.own = [] := by
  rw [MappedDiscard.own, h, hg]
  rfl

/-- The shared page is mapped from its mapping to its unmapping. -/
theorem MappedDiscard.global_mem_own (hg : p.phase.holdsGlobal = true) :
    (⟨p.gshare, 4096⟩ : Region) ∈ p.own := by
  rw [MappedDiscard.own, if_pos hg]
  exact List.mem_append_right _ List.mem_cons_self

/-- The accesses of a process are to what it has mapped. -/
theorem MappedDiscard.access_allowed (hp : p.phase = .access) (window : Region) : p.access.Allowed pageSize window p.own := by
  have hglobal : (⟨p.gshare, 4096⟩ : Region) ∈ p.own :=
    MappedDiscard.global_mem_own (by rw [hp]; rfl)
  have hlens : p.v.pc.onLens = true → (⟨p.bucketInfo, lenBlockSize⟩ : Region) ∈ p.own := fun hpc => by
    rw [MappedDiscard.own_lens (by simp [MappedDiscard.holdsLens, hp, hpc])]
    exact List.mem_cons_self
  cases hpc : p.v.pc <;> simp only [MappedDiscard.access, hpc]
  case again0 | pollStop => exact ⟨_, hglobal, Region.within_add (by decide)⟩
  case poll | readCaptured | readLast => exact ⟨_, hlens (by rw [hpc]; rfl), Region.within_add (by decide)⟩
  case clear => exact ⟨_, hlens (by rw [hpc]; rfl), Region.within_start (by rw [List.length_replicate]; decide)⟩
  case exited => trivial

/-- Every call and access of a process is one that it may make with what it has mapped. -/
theorem Host.DiscardOk.allowed (h : H.DiscardOk p) : (H.discardOp p).Allowed pageSize H.config.window p.own := by
  cases hp : p.phase <;> simp only [Host.discardOp, hp]
  case mapGlobal =>
    refine ⟨H.config.globalRegion_aligned, H.config.globalRegion_pos, H.config.globalRegion_within, fun q hq => ?_⟩
    rw [MappedDiscard.own_none (by simp [MappedDiscard.holdsLens, hp]) (by rw [hp]; rfl)] at hq
    cases hq
  case waitMagic =>
    have hmem := MappedDiscard.global_mem_own (p := p) (by rw [hp]; rfl)
    exact ⟨_, hmem, Region.within_start (by decide)⟩
  case access => exact MappedDiscard.access_allowed hp _
  case mapLens =>
    obtain ⟨hin, hdis⟩ := lensRegion_inside h.bucket
    refine ⟨lensRegion_aligned _, lensRegion_pos _, hin, ?_⟩
    rw [MappedDiscard.own_nothing (by simp [MappedDiscard.holdsLens, hp]) (by rw [hp]; rfl),
      h.global (by rw [hp]; rfl)]
    exact fun q hq => List.mem_singleton.mp hq ▸ hdis
  case unmapRetry | unmapLens =>
    rw [MappedDiscard.own_lens (by simp [MappedDiscard.holdsLens, hp])]
    exact List.mem_cons_self
  case unmapGlobal => exact MappedDiscard.global_mem_own (by rw [hp]; rfl)
  all_goals trivial

/-- An access maps and unmaps nothing. -/
theorem MappedDiscard.access_moves (p : MappedDiscard) (own own' : List Region) : p.access.Moves own own' ↔ own' = own := by
  unfold MappedDiscard.access
  cases p.v.pc <;> exact Iff.rfl

/-- What is mapped depends on the pointers and the phase only. -/
theorem MappedDiscard.own_congr {q : MappedDiscard} (hptr : q.gshare = p.gshare ∧ q.bucketInfo = p.bucketInfo)
    (hheld : q.holdsLens = p.holdsLens) (hp : p.phase.holdsGlobal = true)
    (hq : q.phase.holdsGlobal = true) : q.own = p.own := by
  obtain ⟨h1, h2⟩ := hptr
  unfold MappedDiscard.own
  rw [hheld, h1, h2, if_pos hq, if_pos hp]

/-- An access with the length block mapped that goes on to another one. -/
theorem Host.DiscardOk.onLens_stays (h : H.DiscardOk p) (hp : p.phase = .access) (hpc : p.v.pc.onLens = true) {v : Discard}
    (hpc' : v.pc.onLens = true) (hcur : v.cur = p.v.cur) : H.DiscardOk { p with v := v } ∧ { p with v := v }.own = p.own := by
  have hp' : p.phase.holdsGlobal = true := by
    rw [hp]
    rfl
  refine ⟨⟨?_, fun _ => h.global hp', fun _ _ => ?_, ?_⟩, MappedDiscard.own_congr ⟨rfl, rfl⟩ ?_ hp' hp'⟩
  · show H.config.IsBucket v.cur
    rw [hcur]
    exact h.bucket
  · show p.bucketInfo = (lensRegion v.cur).start
    rw [hcur]
    exact h.lens hp hpc
  · simp only [MappedDiscard.Stage, hp]
    exact fun he => by rw [he] at hpc'; cases hpc'
  · simp [MappedDiscard.holdsLens, hp, hpc, hpc']

/-- The head of the loop leads to the poll or to the end. -/
theorem Discard.again0_pc (v : Discard) (userStop : Bool) :
    (v.again0 userStop).pc = .exited ∨ (v.again0 userStop).pc = .poll := by
  unfold Discard.again0
  split
  · exact Or.inl rfl
  · exact Or.inr rfl

/-- The head of the loop changes nothing of what is mapped. -/
theorem Host.DiscardOk.again0_next (h : H.DiscardOk p) (hp : p.phase = .access) (hpc : p.v.pc = .again0) (bytes : List UInt8) :
    H.DiscardOk (H.discardAccess p bytes) ∧ (H.discardAccess p bytes).own = p.own := by
  have hheld : p.holdsLens = false := by simp [MappedDiscard.holdsLens, hp, hpc, DiscardPc.onLens]
  have hp' : p.phase.holdsGlobal = true := by
    rw [hp]
    rfl
  unfold Host.discardAccess
  rw [hpc]
  dsimp only
  have hcur := p.v.again0_cur (decide (leNat bytes ≠ 0))
  have hcases := p.v.again0_pc (decide (leNat bytes ≠ 0))
  generalize p.v.again0 (decide (leNat bytes ≠ 0)) = v at hcur hcases
  have hbucket : H.config.IsBucket v.cur := hcur ▸ h.bucket
  rcases hcases with he | he
  · rw [if_pos he]
    exact ⟨⟨hbucket, fun _ => h.global hp', (fun ha => by cases ha), he⟩,
      MappedDiscard.own_congr ⟨rfl, rfl⟩ hheld.symm hp' rfl⟩
  · rw [if_neg (by rw [he]; decide)]
    exact ⟨⟨hbucket, fun _ => h.global hp', (fun ha => by cases ha), he⟩,
      MappedDiscard.own_congr ⟨rfl, rfl⟩ hheld.symm hp' rfl⟩

/-- The step to the next bucket. -/
theorem Config.IsBucket.wrap {c : Config} {cur : Nat} (hb : c.IsBucket cur) :
    c.IsBucket (if c.end1G < cur + 1 then c.start1G else cur + 1) := by
  have hle := c.start_le_end
  unfold Config.IsBucket at hb ⊢
  split <;> omega

/-- The process after an access. -/
theorem Host.DiscardOk.access_next (h : H.DiscardOk p) (hp : p.phase = .access) (bytes : List UInt8) :
    H.DiscardOk (H.discardAccess p bytes) ∧ (H.discardAccess p bytes).own = p.own := by
  have hp' : p.phase.holdsGlobal = true := by
    rw [hp]
    rfl
  cases hpc : p.v.pc
  case again0 => exact h.again0_next hp hpc bytes
  case poll =>
    rw [Host.discardAccess, hpc]
    simp only
    split <;> exact h.onLens_stays hp (by rw [hpc]; rfl) rfl rfl
  case pollStop =>
    rw [Host.discardAccess, hpc]
    simp only
    split
    · refine ⟨⟨h.bucket, fun _ => h.global hp', (fun ha => by cases ha), rfl⟩, ?_⟩
      refine MappedDiscard.own_congr ⟨rfl, rfl⟩ ?_ hp' rfl
      simp [MappedDiscard.holdsLens, hp, hpc, DiscardPc.onLens]
    · exact h.onLens_stays hp (by rw [hpc]; rfl) rfl rfl
  case readCaptured | readLast =>
    rw [Host.discardAccess, hpc]
    exact h.onLens_stays hp (by rw [hpc]; rfl) rfl rfl
  case clear =>
    rw [Host.discardAccess, hpc]
    simp only
    refine ⟨⟨h.bucket.wrap, fun _ => h.global hp', (fun ha => by cases ha), ?_⟩, ?_⟩
    · show (if p.v.driverStop = 0 then DiscardPc.again0 else .exited) = .again0 ∨
        (if p.v.driverStop = 0 then DiscardPc.again0 else .exited) = .exited
      split
      · exact Or.inl rfl
      · exact Or.inr rfl
    · refine MappedDiscard.own_congr ⟨rfl, rfl⟩ ?_ hp' rfl
      simp [MappedDiscard.holdsLens, hp, hpc, DiscardPc.onLens]
  case exited =>
    have hstage := h.stage
    simp only [MappedDiscard.Stage, hp] at hstage
    exact absurd hpc hstage

/-- A call that leaves a process with nothing mapped of a bucket. -/
theorem Host.DiscardOk.onNothing (h : H.DiscardOk p) (hp : p.phase.holdsGlobal = true) {q : MappedDiscard} (hv : q.v = p.v)
    (hg : q.gshare = p.gshare) (hq : q.phase.holdsGlobal = true) (hheld : q.holdsLens = false) (hstage : q.Stage) :
    H.DiscardOk q ∧ q.own = [⟨p.gshare, 4096⟩] := by
  refine ⟨⟨hv ▸ h.bucket, fun _ => hg.trans (h.global hp), fun ha hpc => ?_, hstage⟩, ?_⟩
  · rw [MappedDiscard.holdsLens, ha] at hheld
    exact absurd (hpc.symm.trans hheld) (by decide)
  · rw [MappedDiscard.own_nothing hheld hq, hg]

/-- The length block of the current bucket is mapped. -/
theorem Host.DiscardOk.mapLens_next (h : H.DiscardOk p) (hp : p.phase = .mapLens) {q : MappedDiscard}
    (hq : q = { p with phase := .access, bucketInfo := (lensRegion p.v.cur).start }) :
    H.DiscardOk q ∧ q.own = lensRegion p.v.cur :: p.own := by
  have hstage := h.stage
  simp only [MappedDiscard.Stage, hp] at hstage
  have hheld : q.holdsLens = true := by simp [hq, MappedDiscard.holdsLens, hstage, DiscardPc.onLens]
  have hown : p.own = [⟨p.gshare, 4096⟩] :=
    MappedDiscard.own_nothing (by simp [MappedDiscard.holdsLens, hp]) (by rw [hp]; rfl)
  rw [hown, MappedDiscard.own_lens hheld]
  subst hq
  refine ⟨⟨h.bucket, fun _ => h.global (by rw [hp]; rfl), fun _ _ => rfl, ?_⟩, rfl⟩
  show p.v.pc ≠ .exited
  rw [hstage]
  decide

/-- The process after a call or an access. -/
theorem Host.DiscardOk.next (h : H.DiscardOk p) {reply : Reply} (hans : (H.discardOp p).Answers reply) :
    H.DiscardOk (H.discardNext p reply) ∧ (H.discardOp p).Moves p.own (H.discardNext p reply).own := by
  have hstage := h.stage
  unfold MappedDiscard.Stage at hstage
  unfold Host.discardOp at hans ⊢
  unfold Host.discardNext
  cases hp : p.phase <;> simp only [hp] at hans hstage ⊢
  case access =>
    obtain ⟨hok, hown⟩ := h.access_next hp reply.bytes
    exact ⟨hok, (p.access_moves _ _).mpr hown⟩
  case mapGlobal =>
    have haddr : reply.addr = H.config.globalRegion.start := hans
    have hown : p.own = [] := MappedDiscard.own_none (by simp [MappedDiscard.holdsLens, hp]) (by rw [hp]; rfl)
    refine ⟨⟨h.bucket, fun _ => haddr, (fun ha => by cases ha), hstage⟩, ?_⟩
    rw [hown, haddr]
    rfl
  case waitMagic =>
    split
    · have hown : p.own = [⟨p.gshare, 4096⟩] :=
        MappedDiscard.own_nothing (by simp [MappedDiscard.holdsLens, hp]) (by rw [hp]; rfl)
      rw [hown]
      refine h.onNothing (by rw [hp]; rfl) rfl rfl rfl ?_ ?_
      · simp [MappedDiscard.holdsLens, hstage, DiscardPc.onLens]
      · simp [MappedDiscard.Stage, hstage]
    · exact ⟨h, rfl⟩
  case mapLens =>
    have haddr : reply.addr = (lensRegion p.v.cur).start := hans
    exact h.mapLens_next hp (by rw [haddr])
  case unmapRetry =>
    have hown : p.own = _ := MappedDiscard.own_lens (by simp [MappedDiscard.holdsLens, hp])
    obtain ⟨hok, hown'⟩ := h.onNothing (q := { p with phase := .access }) (by rw [hp]; rfl) rfl rfl rfl
      (by simp [MappedDiscard.holdsLens, hstage, DiscardPc.onLens]) (by simp [MappedDiscard.Stage, hstage])
    exact ⟨hok, [], _, hown, hown'⟩
  case unmapLens =>
    have hown : p.own = _ := MappedDiscard.own_lens (by simp [MappedDiscard.holdsLens, hp])
    rcases hstage with hpc | hpc
    · rw [if_neg (by rw [hpc]; decide)]
      obtain ⟨hok, hown'⟩ := h.onNothing (q := { p with phase := .access }) (by rw [hp]; rfl) rfl rfl rfl
        (by simp [MappedDiscard.holdsLens, hpc, DiscardPc.onLens]) (by simp [MappedDiscard.Stage, hpc])
      exact ⟨hok, [], _, hown, hown'⟩
    · rw [if_pos hpc]
      obtain ⟨hok, hown'⟩ := h.onNothing (q := { p with phase := .unmapGlobal }) (by rw [hp]; rfl) rfl rfl rfl rfl hpc
      exact ⟨hok, [], _, hown, hown'⟩
  case unmapGlobal =>
    have hown : p.own = [⟨p.gshare, 4096⟩] :=
      MappedDiscard.own_nothing (by simp [MappedDiscard.holdsLens, hp]) (by rw [hp]; rfl)
    exact ⟨⟨h.bucket, fun _ => h.global (by rw [hp]; rfl), (fun ha => by cases ha), hstage⟩, [], [], hown, rfl⟩
  case returned => exact ⟨h, rfl⟩

/-- The process knows at any time what it has mapped. -/
theorem Host.discard_keepsBooks (H : Host) :
    H.discardClient.KeepsBooks pageSize H.config.window H.DiscardOk MappedDiscard.own where
  allowed := fun _ _ h => h.allowed
  next := fun _ _ _ h hans => h.next hans

/-- A pointer with an offset is the address that the access names. -/
theorem Host.DiscardOk.named (h : H.DiscardOk p) {a : Nat} (ha : (H.discardOp p).addr = some a) : a = H.discardNamed p := by
  cases hp : p.phase <;> rw [Host.discardOp, hp] at ha
  case access =>
    have hglobal : p.gshare = H.config.globalAddr := h.global (by rw [hp]; rfl)
    have hlens : p.v.pc.onLens = true → ∀ off, p.bucketInfo + off = hdrAt p.v.cur off := fun hpc off => by
      rw [h.lens hp hpc, hdrAt, ← Nat.add_assoc]
      rfl
    unfold Host.discardNamed
    rw [if_neg (by rw [hp]; decide)]
    simp only [MappedDiscard.access] at ha
    cases hpc : p.v.pc <;> rw [hpc] at ha hlens <;> simp only at ha ⊢
    case again0 | pollStop => exact (Option.some.inj ha).symm.trans (congrArg (· + _) hglobal)
    case poll | readCaptured | readLast => exact (Option.some.inj ha).symm.trans (hlens rfl _)
    case clear => exact (Option.some.inj ha).symm.trans (hlens rfl 0)
    case exited => cases ha
  case waitMagic =>
    rw [Host.discardNamed, if_pos hp, ← h.global (by rw [hp]; rfl)]
    exact (Option.some.inj ha).symm
  all_goals cases ha

/-- The calls and accesses of a process are safe, at the address that is named. -/
theorem Host.discard_safe (H : Host) {w : World MappedDiscard} (h : AddrSpace.Sound mmapMem H.config.window H.DiscardOk MappedDiscard.own w) :
    (H.discardOp w.proc).Safe pageSize w.space w.others (H.discardNamed w.proc) := by
  refine H.discard_keepsBooks.safe h () fun a r ha _ hle => ?_
  show _ = r.start + (a - r.start)
  rw [Nat.add_sub_cancel' hle]
  exact (h.ok.named ha).symm

/-- A process starts with nothing mapped. -/
theorem Host.enterDiscard_ok (H : Host) : H.DiscardOk H.enterDiscard ∧ H.enterDiscard.own = [] :=
  ⟨⟨H.config.isBucket_start, (fun hg => by cases hg), (fun ha => by cases ha), rfl⟩, rfl⟩

/-- In all runs the mappings of a process are those in its books. -/
theorem Host.discard_sound (H : Host) {w : World MappedDiscard} (hw : Reached H.mappedDiscard (fun _ _ => True) w) :
    AddrSpace.Sound mmapMem H.config.window H.DiscardOk MappedDiscard.own w := by
  obtain ⟨hok, hown⟩ := H.enterDiscard_ok
  exact H.discard_keepsBooks.sound hok hown hw

end Discard

end NicRecorder
