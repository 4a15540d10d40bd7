import NicRecorder.Lemmas.Handover
import NicRecorder.Lemmas.CaptureRuns
import NicRecorder.Lemmas.Moves
import NicRecorder.Theorems.Boundaries
import NicRecorder.Theorems.Placement

/-!
# The fills of a capture

`Inv` speaks of the fills that the two threads are in. Here it is carried on to all fills whose bucket has not been entered again.

* `Parted`: where the fills begin, that a fill that has been closed fits its bucket, and that its lengths stay where they are.
* `Aimed`: a descriptor that is armed points to the place of its packet in the bucket of its fill.
* `Posted`: what the driver has last stored in `num_captured` of a bucket is the size of the fill that the threads have left.
-/

namespace NicRecorder

open ByteMem Runs

variable {c : Config} {d d' : Driver}

/-! ## The packets of a fill -/

/-- The packet behind those that have been armed in a fill. -/
def Driver.fillEnd (d : Driver) (f : Nat) : Nat :=
  if f < d.hist.allocFill then d.hist.allocStart (f + 1) else d.hist.armed

/-- The packet behind those that have been recorded in a fill. -/
def Driver.savedEnd (d : Driver) (f : Nat) : Nat :=
  if f < d.hist.procFill then d.hist.allocStart (f + 1) else d.hist.accepted

/-- The packets of a fill that the adapter has delivered. -/
def Driver.arrived (d : Driver) (f : Nat) : List (List UInt8) := (d.hist.sent.take (d.fillEnd f)).drop (d.hist.allocStart f)

/-- The packets of a fill that have been recorded. -/
def Driver.saved (d : Driver) (f : Nat) : List (List UInt8) := (d.hist.sent.take (d.savedEnd f)).drop (d.hist.allocStart f)

/-- A fill that the refill thread has left ends where the next one begins. -/
theorem Driver.fillEnd_of_lt {f : Nat} (h : f < d.hist.allocFill) : d.fillEnd f = d.hist.allocStart (f + 1) := if_pos h

/-- Its current fill ends with what it has armed. -/
theorem Driver.fillEnd_last (d : Driver) : d.fillEnd d.hist.allocFill = d.hist.armed := if_neg (Nat.lt_irrefl _)

/-- The bytes in a slot before the packet of a row, in the bucket of a fill. -/
def Config.bytesBefore (c : Config) (d : Driver) (f slot row : Nat) : Nat :=
  slotBytes c.numRxSlots (fun j => lengthOf d.hist.sent (d.hist.allocStart f + j)) slot row

/-- The place in the memory of packet `i` of the capture, as a packet of a fill. -/
def Config.placeAt (c : Config) (d : Driver) (f i : Nat) : Nat :=
  let j := i - d.hist.allocStart f
  c.bucketOf f * 2 ^ 30 +
    c.slotOffset (j % c.numRxSlots) (c.bytesBefore d f (j % c.numRxSlots) (j / c.numRxSlots))

theorem Config.held_eq_bytesBefore (c : Config) (d : Driver) (slot row : Nat) :
    c.held d slot row = c.bytesBefore d d.hist.allocFill slot row := rfl

theorem length_take_drop (pkts : List (List UInt8)) (i k : Nat) : ((pkts.take k).drop i).length = min k pkts.length - i := by
  rw [List.length_drop, List.length_take]

theorem getD_take_drop {pkts : List (List UInt8)} {i k j : Nat} (h : i + j < min k pkts.length) :
    ((pkts.take k).drop i).getD j [] = pkts.getD (i + j) [] := by
  have hk : i + j < k := by omega
  simp only [List.getD, List.getElem?_drop]
  rw [List.getElem?_take_of_lt hk]

theorem lengthOf_take_drop {pkts : List (List UInt8)} {i k j : Nat} (h : i + j < min k pkts.length) :
    lengthOf ((pkts.take k).drop i) j = lengthOf pkts (i + j) := congrArg List.length (getD_take_drop h)

/-- The bytes before a packet do not depend on what comes after the row before. -/
theorem Config.bytesBefore_congr {f slot row : Nat} (hstart : d'.hist.allocStart f = d.hist.allocStart f)
    (hsent : ∀ r < row, lengthOf d'.hist.sent (d.hist.allocStart f + (r * c.numRxSlots + slot)) =
      lengthOf d.hist.sent (d.hist.allocStart f + (r * c.numRxSlots + slot))) :
    c.bytesBefore d' f slot row = c.bytesBefore d f slot row := by
  unfold Config.bytesBefore
  rw [hstart]
  exact slotBytes_congr row hsent

/-! ## The steps that begin a fill -/

/-- The refill thread begins a fill at the end of a row, when `max_row` is set, and never else. -/
theorem Config.allocStep_starts (hs : c.allocStep d = some d') :
    (d'.hist.allocFill = d.hist.allocFill ∧ d'.hist.allocStart = d.hist.allocStart) ∨
      (d.alloc.pc = .endRow ∧ d.alloc.supPartial = c.numRxSlots ∧ d.maxRow ≠ 0 ∧ d' = c.opened d) := by
  unfold Config.allocStep at hs
  cases hpc : d.alloc.pc <;> rw [hpc] at hs <;> simp only [Option.some.injEq, reduceCtorEq] at hs
  case readClean => split at hs <;> cases hs <;> exact Or.inl ⟨rfl, rfl⟩
  case endRow =>
    subst hs
    unfold Config.endRow
    split
    · next hsp =>
      split
      · exact Or.inl ⟨rfl, rfl⟩
      · next hm => exact Or.inr ⟨rfl, hsp, hm, rfl⟩
    · exact Or.inl ⟨rfl, rfl⟩
  all_goals subst hs; exact Or.inl ⟨rfl, rfl⟩

/-- The recording thread does not move the starts of the fills. -/
theorem Config.procStep_starts (hs : c.procStep d = some d') : d'.hist.allocStart = d.hist.allocStart := by
  unfold Config.procStep at hs
  cases hpc : d.proc.pc <;> rw [hpc] at hs <;> simp only [Option.some.injEq, reduceCtorEq] at hs
  case poll => split at hs <;> cases hs <;> rfl
  all_goals subst hs; rfl

/-- Two fills within one round of the buckets are in different buckets. -/
theorem Config.bucketOf_ne {f g : Nat} (hlt : f < g) (hr : g < f + c.numBuckets) : c.bucketOf f ≠ c.bucketOf g := fun he => by
  have := Config.bucketOf_gap he hlt
  omega

theorem Config.isBucket_bucketOf (c : Config) (f : Nat) : c.start1G ≤ c.bucketOf f ∧ c.bucketOf f ≤ c.end1G := by
  have hlt := Nat.mod_lt f c.numBuckets_pos
  have hs := c.start_le_end
  unfold Config.numBuckets at hlt
  unfold Config.bucketOf Config.numBuckets
  omega

/-! ## The fills that have been closed -/

/-- What stays of the fills that have been closed. -/
structure Config.Parted (c : Config) (d : Driver) : Prop where
  starts : ∀ f < d.hist.allocFill, d.hist.allocStart f < d.hist.allocStart (f + 1)
  rows : ∀ f < d.hist.allocFill, ∀ k slot, slot < c.numRxSlots →
    d.hist.allocStart f + (k + 1) * c.numRxSlots < d.hist.allocStart (f + 1) → c.bytesBefore d f slot k ≤ c.byteLimit
  lens : ∀ f < d.hist.procFill, d.hist.procFill < f + c.numBuckets → ∀ j,
    d.hist.allocStart f + j < d.hist.allocStart (f + 1) →
      d.board.lens (c.bucketOf f) j = lengthOf d.hist.sent (d.hist.allocStart f + j)

/-- At the start there is one fill, and it is empty. -/
theorem Config.parted_start (c : Config) (lens : Nat → Nat → Nat) (ram : Mem) : c.Parted (c.startDriver lens ram) :=
  ⟨fun _ h => absurd h (Nat.not_lt_zero _), fun _ h => absurd h (Nat.not_lt_zero _), fun _ h => absurd h (Nat.not_lt_zero _)⟩

/-- The fills begin one after the other. -/
theorem Config.Parted.mono (h : c.Parted d) {f g : Nat} (hfg : f ≤ g) (hg : g ≤ d.hist.allocFill) :
    d.hist.allocStart f ≤ d.hist.allocStart g := by
  induction hfg with
  | refl => exact Nat.le_refl _
  | step _ ih => exact Nat.le_trans (ih (by omega)) (Nat.le_of_lt (h.starts _ (by omega)))

/-- The current fill begins before what is armed. -/
theorem Config.Inv.base_le (h : c.Inv d) : d.base ≤ d.hist.armed := by
  have := h.window.armed_eq
  omega

/-- A fill ends where something has been armed. -/
theorem Config.Parted.fillEnd_le (h : c.Parted d) (hi : c.Inv d) (f : Nat) : d.fillEnd f ≤ d.hist.armed := by
  unfold Driver.fillEnd
  split
  · exact Nat.le_trans (h.mono (by omega) (Nat.le_refl _)) hi.base_le
  · exact Nat.le_refl _

/-- A packet that is a row or more behind the last one that has been armed has been recorded. -/
theorem Config.Inv.recorded_before (hi : c.Inv d) {i : Nat} (h : i + c.numRxSlots ≤ d.hist.armed) : i < d.hist.accepted := by
  have hroom := hi.window.room
  have hcl := hi.window.cleaned_le
  omega

/-- The packets of a slot before a row are a row or more before that row's end. -/
theorem row_before_le {slots slot r k : Nat} (hs : slot < slots) (hr : r < k) : r * slots + slot + slots < (k + 1) * slots := by
  have h := Nat.mul_le_mul_right slots (Nat.succ_le_of_lt hr)
  rw [Nat.succ_mul] at h ⊢
  omega

/-- The rows before the last one of a fill, closed or not, have no slot beyond the limit. -/
theorem Config.Parted.row_le (h : c.Parted d) (hi : c.Inv d) {f k slot : Nat} (hf : f ≤ d.hist.allocFill)
    (hs : slot < c.numRxSlots) (hk : d.hist.allocStart f + (k + 1) * c.numRxSlots < d.fillEnd f) :
    c.bytesBefore d f slot k ≤ c.byteLimit := by
  rcases Nat.lt_or_eq_of_le hf with hlt | rfl
  · rw [Driver.fillEnd_of_lt hlt] at hk
    exact h.rows f hlt k slot hs hk
  · rw [Driver.fillEnd_last] at hk
    have harm := hi.window.armed_eq
    have hrow : d.alloc.rowArmed ≤ c.numRxSlots := by
      by_cases hpc : d.alloc.pc.refilling = true
      · have hb := hi.window.batch hpc
        unfold AllocThread.rowArmed
        split <;> omega
      · have hne : d.alloc.pc ≠ .setAddr := fun he => hpc (by rw [he]; rfl)
        rw [AllocThread.rowArmed_of_ne hne]
        by_cases he : d.alloc.pc = .endRow
        · have := hi.window.ending he
          omega
        · refine Nat.le_of_lt (hi.window.inRow ?_)
          cases hq : d.alloc.pc <;> simp_all [AllocPc.refilling, AllocPc.idle]
    refine hi.grown.rows k ?_ slot hs
    by_contra hge
    have hmul := Nat.mul_le_mul_right c.numRxSlots (show d.alloc.supRow + 1 ≤ k + 1 by omega)
    have hbase : d.hist.allocStart d.hist.allocFill = d.base := rfl
    rw [Nat.succ_mul] at hmul
    omega

theorem Driver.mem_arrived {f : Nat} {p : List UInt8} (h : p ∈ d.arrived f) : p ∈ d.hist.sent :=
  List.mem_of_mem_take (List.mem_of_mem_drop h)

/-- The packets of a fill, closed or not, fit its bucket. -/
theorem Config.Parted.receivable (h : c.Parted d) (hi : c.Inv d) {f : Nat} (hf : f ≤ d.hist.allocFill) :
    c.Receivable (d.arrived f) := by
  refine ⟨fun p hp => hi.recorded.deliverable p (Driver.mem_arrived hp), fun k slot hs hlim => ?_⟩
  by_contra hlt
  have hlen := length_take_drop d.hist.sent (d.hist.allocStart f) (d.fillEnd f)
  have hlen' : (d.arrived f).length = min (d.fillEnd f) d.hist.sent.length - d.hist.allocStart f := hlen
  have hbytes : slotBytes c.numRxSlots (lengthOf (d.arrived f)) slot k = c.bytesBefore d f slot k := by
    refine slotBytes_congr k fun r hr => lengthOf_take_drop ?_
    have := row_before_le hs hr
    omega
  have hle := h.row_le hi hf hs (k := k) (by omega)
  omega

/-! ### The steps -/

/-- A step that changes neither the packets nor the fills nor the lengths keeps them parted. -/
theorem Config.Parted.keep (h : c.Parted d) (hsent : d'.hist.sent = d.hist.sent) (hfill : d'.hist.allocFill = d.hist.allocFill)
    (hstart : d'.hist.allocStart = d.hist.allocStart) (hproc : d'.hist.procFill = d.hist.procFill)
    (hlens : d'.board.lens = d.board.lens) : c.Parted d' := by
  obtain ⟨h1, h2, h3⟩ := h
  refine ⟨?_, ?_, ?_⟩
  · rw [hfill, hstart]
    exact h1
  · unfold Config.bytesBefore at h2 ⊢
    rw [hfill, hstart, hsent]
    exact h2
  · rw [hproc, hstart, hsent, hlens]
    exact h3

/-- The fill that is closed has gone through rows that were not beyond the limit. -/
theorem Config.Parted.opened (h : c.Parted d) (hi : c.Inv d) (hpc : d.alloc.pc = .endRow)
    (hsp : d.alloc.supPartial = c.numRxSlots) : c.Parted (c.opened d) := by
  have harm := hi.armed_endRow hpc hsp
  have hN := c.slots_pos
  have hnext : (c.opened d).hist.allocStart (d.hist.allocFill + 1) = d.hist.armed := c.opened_base d
  have hpf := hi.procFill_le
  have hbytes : ∀ f ≤ d.hist.allocFill, ∀ slot k, c.bytesBefore (c.opened d) f slot k = c.bytesBefore d f slot k :=
    fun f hf slot k => Config.bytesBefore_congr (c.opened_start d hf) fun _ _ => rfl
  refine ⟨fun f hf => ?_, fun f hf k slot hs hk => ?_, fun f hf hr j hj => ?_⟩
  · have hf' : f ≤ d.hist.allocFill := Nat.le_of_lt_succ hf
    rw [c.opened_start d hf']
    rcases Nat.lt_or_eq_of_le hf' with hlt | rfl
    · rw [c.opened_start d hlt]
      exact h.starts f hlt
    · rw [hnext]
      show d.base < d.hist.armed
      omega
  · have hf' : f ≤ d.hist.allocFill := Nat.le_of_lt_succ hf
    rw [hbytes f hf' slot k]
    rw [c.opened_start d hf'] at hk
    refine h.row_le hi hf' hs ?_
    rcases Nat.lt_or_eq_of_le hf' with hlt | rfl
    · rw [c.opened_start d hlt] at hk
      rwa [Driver.fillEnd_of_lt hlt]
    · rw [hnext] at hk
      rwa [Driver.fillEnd_last]
  · have hf' : f < d.hist.procFill := hf
    rw [c.opened_start d (by omega), c.opened_start d (by omega)] at hj
    rw [c.opened_start d (by omega)]
    exact h.lens f hf hr j hj

/-- An access of the refill thread keeps the fills parted; at the end of a bucket it opens one. -/
theorem Config.Parted.allocStep (h : c.Parted d) (hi : c.Inv d) (hs : c.allocStep d = some d') : c.Parted d' := by
  rcases Config.allocStep_starts hs with ⟨hfill, hstart⟩ | ⟨hpc, hsp, -, rfl⟩
  · obtain ⟨-, hsent, -, -, hproc⟩ := Config.allocStep_frame hs
    exact h.keep hsent hfill hstart hproc (Config.allocStep_lens hs)
  · exact h.opened hi hpc hsp

/-- The fill that the recording thread leaves has all its lengths. -/
theorem Config.Parted.resetRow (h : c.Parted d) (hi : c.Inv d) (hpc : d.proc.pc = .resetRow) {f j : Nat}
    (hf : f < d.hist.procFill + 1) (hr : d.hist.procFill + 1 < f + c.numBuckets)
    (hj : d.hist.allocStart f + j < d.hist.allocStart (f + 1)) :
    d.board.lens (c.bucketOf f) j = lengthOf d.hist.sent (d.hist.allocStart f + j) := by
  rcases Nat.lt_or_eq_of_le (Nat.le_of_lt_succ hf) with hlt | rfl
  · exact h.lens f hlt (by omega) j hj
  · obtain ⟨hn, hacc⟩ := hi.agreed.resetting hpc
    have hbase : d.hist.allocStart (d.hist.procFill + 1) = d.base := by rw [Driver.base, hn.next]
    have hstart : d.hist.allocStart d.hist.procFill = d.procBase := (hi.agreed.starts _ (Nat.le_refl _)).symm
    have hcells := hi.recorded.cells j (by have := hi.window.accepted_eq; omega)
    rw [hi.wrapped.proc_cur] at hcells
    rw [hcells, hstart]

/-- An access of the recording thread keeps them parted; it stores a length or goes to the next fill. -/
theorem Config.Parted.procStep (h : c.Parted d) (hi : c.Inv d) (hs : c.procStep d = some d') : c.Parted d' := by
  obtain ⟨-, hsent, -, -, hfill⟩ := Config.procStep_frame hs
  have hstart := Config.procStep_starts hs
  have hlens := Config.procStep_lens hs
  rcases Config.procStep_fill hs with ⟨hproc, -⟩ | ⟨hpc, hproc, -⟩
  · by_cases hpc : d.proc.pc = .store
    · rw [if_pos hpc] at hlens
      obtain ⟨h1, h2, h3⟩ : c.Parted { d' with board := d.board } := h.keep hsent hfill hstart hproc rfl
      refine ⟨h1, h2, fun f hf hr j hj => ?_⟩
      rw [hlens, setLen, Function.update_of_ne]
      · exact h3 f hf hr j hj
      · rw [hi.wrapped.proc_cur]
        rw [hproc] at hf hr
        exact Config.bucketOf_ne hf hr
    · rw [if_neg hpc] at hlens
      exact h.keep hsent hfill hstart hproc hlens
  · rw [if_neg (by rw [hpc]; decide)] at hlens
    obtain ⟨h1, h2, -⟩ : c.Parted { d' with hist := { d'.hist with procFill := d.hist.procFill } } :=
      h.keep hsent hfill hstart rfl hlens
    refine ⟨h1, h2, fun f hf hr j hj => ?_⟩
    rw [hproc] at hf hr
    rw [hstart] at hj
    rw [hlens, hsent, hstart]
    exact h.resetRow hi hpc hf hr hj

/-- A packet is one more of the fill that it was armed for. -/
theorem Config.Parted.nicStep (h : c.Parted d) (hi : c.Inv d) {p : List UInt8} (hs : c.nicStep p d = some d') :
    c.Parted d' := by
  obtain ⟨-, ring, head, ram, slot, rfl⟩ := Config.nicStep_frame hs
  have ho := hi.order
  refine ⟨h.starts, fun f hf k slot hslot hk => ?_, fun f hf hr j hj => ?_⟩
  · refine Eq.trans_le (Config.bytesBefore_congr (d := d) rfl fun r hr => ?_) (h.rows f hf k slot hslot hk)
    refine lengthOf_append_left _ _ ?_
    have hlt := row_before_le hslot hr
    have hend := h.fillEnd_le hi f
    rw [Driver.fillEnd_of_lt (d := d) hf] at hend
    have hk' : d.hist.allocStart f + (k + 1) * c.numRxSlots < d.hist.allocStart (f + 1) := hk
    have := hi.recorded_before (i := d.hist.allocStart f + (r * c.numRxSlots + slot)) (by omega)
    omega
  · have hj' : d.hist.allocStart f + j < d.hist.allocStart (f + 1) := hj
    have hf' : f < d.hist.procFill := hf
    have hend : d.hist.allocStart (f + 1) ≤ d.hist.allocStart d.hist.procFill := h.mono hf hi.procFill_le
    rw [← hi.agreed.starts _ (Nat.le_refl _)] at hend
    have hbase : d.hist.procStart d.hist.procFill = d.procBase := rfl
    have hacc := hi.window.accepted_eq
    refine (h.lens f hf hr j hj).trans (lengthOf_append_left _ _ ?_).symm
    omega

/-! ## Where the descriptors point -/

/-- A descriptor between the adapter and the refill thread points to the place of its packet; the last one only after its address
has been stored. -/
def Config.Aimed (c : Config) (d : Driver) : Prop :=
  ∀ i, d.hist.sent.length ≤ i → i < d.hist.armed → (d.alloc.pc = .setAddr → i + 1 < d.hist.armed) →
    (d.ring (i % c.numRxSlots)).pktAddr = c.placeAt d (d.fillAt i) i

/-- Nothing is armed at the start. -/
theorem Config.aimed_start (c : Config) (lens : Nat → Nat → Nat) (ram : Mem) : c.Aimed (c.startDriver lens ram) :=
  fun _ _ h => absurd h (Nat.not_lt_zero _)

/-- No packet is of a fill ahead of the refill thread. -/
theorem Driver.fillAt_le (hi : c.Inv d) (i : Nat) : d.fillAt i ≤ d.hist.allocFill := by
  have := hi.procFill_le
  unfold Driver.fillAt
  split <;> omega

/-- A packet is of one of the last two fills. -/
theorem Driver.le_fillAt (hi : c.Inv d) (i : Nat) : d.hist.allocFill ≤ d.fillAt i + 1 := by
  unfold Driver.fillAt
  rcases hi.agreed.fills with hs | hn
  · rw [hs.1, ite_self]
    omega
  · have := hn.next
    split <;> omega

/-- A packet that is not recorded yet is not before the first one of its fill. -/
theorem Config.Inv.start_fillAt (hi : c.Inv d) {i : Nat} (h : d.hist.accepted ≤ i) : d.hist.allocStart (d.fillAt i) ≤ i := by
  unfold Driver.fillAt
  split
  · next hb => exact hb
  · have hacc := hi.window.accepted_eq
    have hbase : d.hist.allocStart d.hist.procFill = d.procBase := (hi.agreed.starts _ (Nat.le_refl _)).symm
    omega

/-- The place of a packet depends on packets that have been recorded when it is armed. -/
theorem Config.Inv.placeAt_congr (hi : c.Inv d) {f i : Nat} (hstart : d'.hist.allocStart f = d.hist.allocStart f)
    (hf : d.hist.allocStart f ≤ i) (ha : i < d.hist.armed)
    (hsent : ∀ k < d.hist.accepted, lengthOf d'.hist.sent k = lengthOf d.hist.sent k) : c.placeAt d' f i = c.placeAt d f i := by
  unfold Config.placeAt
  rw [hstart]
  dsimp only
  congr 2
  refine Config.bytesBefore_congr hstart fun r hr => hsent _ (hi.recorded_before ?_)
  have hdiv := Nat.div_add_mod' (i - d.hist.allocStart f) c.numRxSlots
  have hmul := Nat.mul_le_mul_right c.numRxSlots (Nat.succ_le_of_lt hr)
  rw [Nat.succ_mul] at hmul
  omega

/-- What leaves the ring and the counts alone keeps the aim. -/
theorem Config.Aimed.keep (h : c.Aimed d) (hi : c.Inv d) (hs : d'.hist.sent = d.hist.sent) (hr : d'.ring = d.ring)
    (harm : d'.hist.armed = d.hist.armed) (hpc : d.alloc.pc = .setAddr → d'.alloc.pc = .setAddr)
    (hstart : ∀ f ≤ d.hist.allocFill, d'.hist.allocStart f = d.hist.allocStart f)
    (hf : ∀ i, d.hist.sent.length ≤ i → i < d.hist.armed → d'.fillAt i = d.fillAt i) : c.Aimed d' := by
  intro i h1 h2 h3
  rw [hs] at h1
  rw [harm] at h2 h3
  have ho := hi.order
  rw [hr, hf i h1 h2, hi.placeAt_congr (hstart _ (Driver.fillAt_le hi i)) (hi.start_fillAt (by omega)) h2
    fun _ _ => by rw [hs]]
  exact h i h1 h2 fun hp => h3 (hpc hp)

/-- Lines 107 to 110 and 117: the descriptor gets the place behind the packets of its slot. -/
theorem Config.Aimed.setAddr (h : c.Aimed d) (hi : c.Inv d) (hpc : d.alloc.pc = .setAddr) {i : Nat}
    (h1 : d.hist.sent.length ≤ i) (h2 : i < d.hist.armed) :
    (Function.update d.ring d.alloc.supPartial { d.ring d.alloc.supPartial with
        pktAddr := d.alloc.cur * 2 ^ 30 ||| c.slotOffset d.alloc.supPartial (d.alloc.glength d.alloc.supPartial) }
      (i % c.numRxSlots)).pktAddr = c.placeAt d (d.fillAt i) i := by
  have hb := hi.window.batch (by rw [hpc]; rfl)
  have harm := hi.window.armed_eq
  have ho := hi.order
  rw [AllocThread.rowArmed, if_pos hpc] at harm
  obtain ⟨hdiv, hmod⟩ := c.div_mod_cell d.alloc.supRow (show d.alloc.supPartial < c.numRxSlots by omega)
  have hlast : (d.hist.armed - 1) % c.numRxSlots = d.alloc.supPartial := by
    obtain ⟨q, hq⟩ := hi.wrapped.base_dvd
    have he : d.hist.armed - 1 = d.alloc.supRow * c.numRxSlots + d.alloc.supPartial + c.numRxSlots * q := by omega
    rw [he, Nat.add_mul_mod_self_left, hmod]
  by_cases he : i = d.hist.armed - 1
  · have hfill : d.fillAt i = d.hist.allocFill := Driver.fillAt_of_le (by omega)
    have hidx : i - d.hist.allocStart d.hist.allocFill = d.alloc.supRow * c.numRxSlots + d.alloc.supPartial := by
      have : d.hist.allocStart d.hist.allocFill = d.base := rfl
      omega
    have hgrown := hi.grown.grown d.alloc.supPartial (by simp [AllocThread.rowGrown, hpc]) (by omega)
    rw [hfill, he, hlast, Function.update_self, ← he, Config.placeAt, hidx]
    dsimp only
    rw [hdiv, hmod, ← c.held_eq_bytesBefore, ← hgrown, ← hi.wrapped.alloc_cur, or_eq_add (hi.slotOffset_lt hpc)]
  · have hroom := hi.window.room
    have hne : i % c.numRxSlots ≠ d.alloc.supPartial := by
      rw [← hlast]
      exact slot_ne_of_lt (by omega) (by omega)
    rw [Function.update_of_ne hne]
    exact h i h1 h2 fun _ => by omega

theorem Config.Aimed.allocStep (h : c.Aimed d) (hi : c.Inv d) (hs : c.allocStep d = some d') : c.Aimed d' := by
  have hfill : ∀ i, d.hist.sent.length ≤ i → i < d.hist.armed → d'.fillAt i = d.fillAt i := fun i _ h2 =>
    hi.fillAt_allocStep hs h2
  unfold Config.allocStep at hs
  cases hpc : d.alloc.pc <;> rw [hpc] at hs <;> simp only [Option.some.injEq, reduceCtorEq] at hs
  case clearHdr =>
    subst hs
    intro i h1 h2 h3
    dsimp only
    rw [update_dd]
    exact h i h1 (Nat.lt_of_succ_lt_succ (h3 rfl)) (by rw [hpc]; nofun)
  case setAddr =>
    subst hs
    exact fun i h1 h2 _ => h.setAddr hi hpc h1 h2
  case readClean =>
    split at hs <;> cases hs <;> exact h.keep hi rfl rfl rfl (by rw [hpc]; nofun) (fun _ _ => rfl) hfill
  case endRow =>
    subst hs
    have hpc' : d.alloc.pc = .setAddr → (c.endRow d).alloc.pc = .setAddr := by rw [hpc]; nofun
    revert hfill hpc'
    unfold Config.endRow
    split
    · split
      · exact fun hfill hpc' => h.keep hi rfl rfl rfl hpc' (fun _ _ => rfl) hfill
      · exact fun hfill hpc' => h.keep hi rfl rfl rfl hpc' (fun _ hf => c.opened_start d hf) hfill
    · exact fun hfill hpc' => h.keep hi rfl rfl rfl hpc' (fun _ _ => rfl) hfill
  all_goals subst hs; exact h.keep hi rfl rfl rfl (by rw [hpc]; nofun) (fun _ _ => rfl) hfill

theorem Config.Aimed.procStep (h : c.Aimed d) (hi : c.Inv d) (hs : c.procStep d = some d') : c.Aimed d' := by
  have ho := hi.order
  obtain ⟨halloc, hsent, harm, -, -⟩ := Config.procStep_frame hs
  refine h.keep hi hsent (Config.procStep_ring hs).1 harm (by rw [halloc]; exact id)
    (fun _ _ => by rw [Config.procStep_starts hs]) fun i h1 _ => hi.fillAt_procStep hs (by omega)

theorem Config.Aimed.nicStep (h : c.Aimed d) (hi : c.Inv d) {p : List UInt8} (hs : c.nicStep p d = some d') :
    c.Aimed d' := by
  have ho := hi.order
  obtain ⟨-, rfl⟩ := hi.nicStep_eq hs
  intro i h1 h2 h3
  have h1' : d.hist.sent.length < i := by
    simp only [List.length_append, List.length_singleton] at h1
    omega
  dsimp only
  rw [update_dd, h i (Nat.le_of_lt h1') h2 h3]
  refine (hi.placeAt_congr (by rfl) (hi.start_fillAt (by omega)) h2 fun k hk => ?_).symm
  exact lengthOf_append_left _ _ (by omega)

/-- The adapter writes to the place of the packet. -/
theorem Config.Aimed.head (h : c.Aimed d) (hi : c.Inv d) (hne : d.nicHead ≠ d.tail) :
    (d.ring d.nicHead).pktAddr = c.placeAt d (d.fillAt d.hist.sent.length) d.hist.sent.length := by
  have hlt := hi.sent_lt hne
  have htl := hi.window.tailed_eq
  rw [hi.wrapped.head_eq]
  refine h _ (Nat.le_refl _) (by omega) fun hpc => ?_
  simp only [AllocThread.pending, hpc] at htl
  omega

/-! ## What is posted in the headers -/

/-- What the driver has stored in `num_captured`, as far as no program resets it: the size of every fill that both threads have left,
and of the one in which the recording thread has ended. -/
structure Config.Posted (c : Config) (d : Driver) : Prop where
  unrecorded : d.hist.accepted = 0 → ∀ b, d.board.captured b = 0
  waiting : d.proc.pc = .waitStart ∨ d.proc.pc = .waitStop → d.hist.accepted = 0
  left : ∀ f < d.hist.procFill, d.hist.allocFill < f + c.numBuckets →
    d.board.captured (c.bucketOf f) = d.hist.allocStart (f + 1) - d.hist.allocStart f
  marking : d.alloc.pc = .setMaxRow → d.board.captured d.alloc.cur = c.rowEnd d.alloc.supRow
  marked : d.maxRow ≠ 0 → d.proc.pc ≠ .setLast → d.proc.pc ≠ .exited →
    d.board.captured (c.bucketOf d.hist.procFill) = d.maxRow
  ended : d.proc.pc = .setLast ∨ d.proc.pc = .exited →
    d.alloc.pc = .exited ∧ d.board.captured d.proc.cur = d.proc.curPartial
  source : ∀ b, d.board.captured b ≠ 0 → c.bucketOf (d.hist.pubFill b) = b ∧ d.hist.pubFill b ≤ d.hist.procFill ∧
    d.hist.allocStart (d.hist.pubFill b) < d.hist.accepted

/-- Nothing is posted at the start. -/
theorem Config.posted_start (c : Config) (lens : Nat → Nat → Nat) (ram : Mem) : c.Posted (c.startDriver lens ram) where
  unrecorded := fun _ _ => rfl
  waiting := fun _ => rfl
  left := fun _ h => absurd h (Nat.not_lt_zero _)
  marking := nofun
  marked := fun h => absurd rfl h
  ended := by rintro (h | h) <;> cases h
  source := fun _ h => absurd rfl h

/-- When the refill thread posts the size of its fill, something has been recorded in it. -/
theorem Config.Inv.base_lt_accepted (hi : c.Inv d) (hr : d.alloc.supRow ≠ 0) : d.base < d.hist.accepted := by
  refine hi.recorded_before ?_
  have harm := hi.window.armed_eq
  have hmul := Nat.le_mul_of_pos_left c.numRxSlots (Nat.pos_of_ne_zero hr)
  omega

/-- The first store of line 104. -/
theorem Config.Posted.setCaptured (h : c.Posted d) (hi : c.Inv d) (hpc : d.alloc.pc = .setCaptured) :
    c.Posted { d with
      alloc := { d.alloc with pc := .setMaxRow }
      board := { d.board with captured := Function.update d.board.captured d.alloc.cur (c.rowEnd d.alloc.supRow) }
      hist := { d.hist with pubFill := Function.update d.hist.pubFill d.alloc.cur d.hist.allocFill } } := by
  have hrow := hi.agreed.rowPc (Or.inr (Or.inl hpc))
  have hsame := hi.sameFill hrow
  have hacc := hi.base_lt_accepted hrow
  have hcur : d.alloc.cur = c.bucketOf d.hist.procFill := by rw [hi.wrapped.alloc_cur, hsame.1]
  refine ⟨fun h0 => ?_, h.waiting, fun f hf hr => ?_, fun _ => Function.update_self .., fun hm h1 h2 => ?_, fun he => ?_,
    fun b hb => ?_⟩
  · have h0' : d.hist.accepted = 0 := h0
    omega
  · have hf' : f < d.hist.procFill := hf
    have hr' : d.hist.allocFill < f + c.numBuckets := hr
    have hne : c.bucketOf f ≠ d.alloc.cur := by
      rw [hcur]
      exact Config.bucketOf_ne hf (by rw [← hsame.1]; exact hr)
    exact (Function.update_of_ne hne ..).trans (h.left f hf hr)
  · have hm' : d.maxRow = (d.alloc.supRow + 1) * c.numRxSlots := (hsame.2.resolve_left hm).1
    show Function.update d.board.captured d.alloc.cur (c.rowEnd d.alloc.supRow) (c.bucketOf d.hist.procFill) = d.maxRow
    rw [← hcur, Function.update_self, hi.rowEnd_eq, hm']
  · have := (h.ended he).1
    rw [hpc] at this
    cases this
  · by_cases he : b = d.alloc.cur
    · subst he
      dsimp only
      rw [Function.update_self]
      exact ⟨hi.wrapped.alloc_cur.symm, Nat.le_of_eq hsame.1, hacc⟩
    · dsimp only at hb ⊢
      rw [Function.update_of_ne he] at hb ⊢
      exact h.source b hb

/-- What changes neither the counts nor the flags keeps what is posted. -/
theorem Config.Posted.keep (h : c.Posted d) (hproc : d'.proc = d.proc) (hboard : d'.board.captured = d.board.captured)
    (hmax : d'.maxRow = d.maxRow) (hpub : d'.hist.pubFill = d.hist.pubFill) (hacc : d'.hist.accepted = d.hist.accepted)
    (hpf : d'.hist.procFill = d.hist.procFill) (haf : d.hist.allocFill ≤ d'.hist.allocFill)
    (hstart : ∀ f ≤ d.hist.procFill, d'.hist.allocStart f = d.hist.allocStart f)
    (hpc : d'.alloc.pc ≠ .setMaxRow) (hex : d.alloc.pc = .exited → d'.alloc.pc = .exited) : c.Posted d' where
  unrecorded := by rw [hacc, hboard]; exact h.unrecorded
  waiting := by rw [hproc, hacc]; exact h.waiting
  left := by
    intro f hf hr
    rw [hpf] at hf
    rw [hboard, hstart f (by omega), hstart (f + 1) (by omega)]
    exact h.left f hf (by omega)
  marking := fun he => absurd he hpc
  marked := by rw [hmax, hproc, hboard, hpf]; exact h.marked
  ended := by
    rw [hproc, hboard]
    exact fun he => ⟨hex (h.ended he).1, (h.ended he).2⟩
  source := by
    intro b hb
    rw [hboard] at hb
    obtain ⟨h1, h2, h3⟩ := h.source b hb
    rw [hpub, hpf, hacc, hstart _ h2]
    exact ⟨h1, h2, h3⟩

theorem Config.Posted.allocStep (h : c.Posted d) (hi : c.Inv d) (hs : c.allocStep d = some d') : c.Posted d' := by
  by_cases hcap : d.alloc.pc = .setCaptured
  · simp only [Config.allocStep, hcap, Option.some.injEq] at hs
    exact hs ▸ h.setCaptured hi hcap
  · obtain ⟨hproc, -, hacc, -, hpf⟩ := Config.allocStep_frame hs
    obtain ⟨hboard, hpub, hpc⟩ := Config.allocStep_board hs hcap
    have hex : d.alloc.pc = .exited → d'.alloc.pc = .exited := fun he => by
      simp [Config.allocStep, he] at hs
    have hple := hi.procFill_le
    have hstart : d.hist.allocFill ≤ d'.hist.allocFill ∧ ∀ f ≤ d.hist.procFill, d'.hist.allocStart f = d.hist.allocStart f := by
      rcases Config.allocStep_starts hs with ⟨h1, h2⟩ | ⟨-, -, -, rfl⟩
      · exact ⟨Nat.le_of_eq h1.symm, fun f _ => by rw [h2]⟩
      · exact ⟨Nat.le_succ _, fun f hf => c.opened_start d (by omega)⟩
    by_cases hmax : d.alloc.pc = .setMaxRow
    · -- the second store of line 104
      have hsame := hi.sameFill (hi.agreed.rowPc (Or.inr (Or.inr hmax)))
      have hcur : d.alloc.cur = c.bucketOf d.hist.procFill := by rw [hi.wrapped.alloc_cur, hsame.1]
      simp only [Config.allocStep, hmax, Option.some.injEq] at hs
      subst hs
      have hmark := h.marking hmax
      rw [hcur] at hmark
      exact ⟨h.unrecorded, h.waiting, h.left, (fun he => by cases he), fun _ _ _ => hmark,
        fun he => absurd (h.ended he).1 (by rw [hmax]; decide), h.source⟩
    · exact h.keep hproc (by rw [hboard]) (Config.allocStep_maxRow hs hmax) hpub hacc hpf hstart.1 hstart.2 hpc hex

/-- The recording thread goes on to the next fill: the one it leaves has been posted. -/
theorem Config.Posted.resetRow (h : c.Posted d) (hi : c.Inv d) (hpc : d.proc.pc = .resetRow)
    (hs : c.procStep d = some d') : c.Posted d' := by
  obtain ⟨hn, -⟩ := hi.agreed.resetting hpc
  have hsize : d.procBase + d.maxRow = d.hist.allocStart (d.hist.procFill + 1) := by rw [hn.size, Driver.base, hn.next]
  have hbase : d.hist.allocStart d.hist.procFill = d.procBase := (hi.agreed.starts _ (Nat.le_refl _)).symm
  have hmark := h.marked hn.set (by rw [hpc]; decide) (by rw [hpc]; decide)
  simp only [Config.procStep, hpc, Option.some.injEq] at hs
  subst hs
  refine ⟨h.unrecorded, ?_, fun f hf hr => ?_, h.marking, fun hm => absurd rfl hm, ?_, fun b hb => ?_⟩
  · rintro (he | he) <;> cases he
  · rcases Nat.lt_or_eq_of_le (Nat.le_of_lt_succ hf) with hlt | rfl
    · exact h.left f hlt hr
    · dsimp only
      rw [hmark, ← hsize, hbase, Nat.add_sub_cancel_left]
  · rintro (he | he) <;> cases he
  · obtain ⟨h1, h2, h3⟩ := h.source b hb
    exact ⟨h1, Nat.le_succ_of_le h2, h3⟩

/-- The first of the last stores of the recording thread. -/
theorem Config.Posted.setLast (h : c.Posted d) (hi : c.Inv d) (hcl : d.Closing) (hpc : d.proc.pc = .setCaptured)
    (hs : c.procStep d = some d') : c.Posted d' := by
  have hex := hcl.stopped (hcl.final (Or.inl hpc))
  have hacc := hi.window.accepted_eq
  have hbase : d.hist.allocStart d.hist.procFill = d.procBase := (hi.agreed.starts _ (Nat.le_refl _)).symm
  simp only [Config.procStep, hpc, Option.some.injEq] at hs
  subst hs
  refine ⟨fun h0 b => ?_, ?_, fun f hf hr => ?_, fun he => absurd (hex.symm.trans he) (by decide), fun _ he => absurd rfl he,
    fun _ => ⟨hex, Function.update_self ..⟩, fun b hb => ?_⟩
  · have h0' : d.hist.accepted = 0 := h0
    dsimp only
    by_cases he : b = d.proc.cur
    · rw [he, Function.update_self]
      omega
    · rw [Function.update_of_ne he]
      exact h.unrecorded h0 b
  · rintro (he | he) <;> cases he
  · have hf' : f < d.hist.procFill := hf
    have hr' : d.hist.allocFill < f + c.numBuckets := hr
    have hple := hi.procFill_le
    have hne : c.bucketOf f ≠ d.proc.cur := by
      rw [hi.wrapped.proc_cur]
      exact Config.bucketOf_ne hf (by omega)
    exact (Function.update_of_ne hne ..).trans (h.left f hf hr)
  · dsimp only at hb ⊢
    by_cases he : b = d.proc.cur
    · rw [he, Function.update_self] at hb ⊢
      exact ⟨hi.wrapped.proc_cur.symm, Nat.le_refl _, by omega⟩
    · rw [Function.update_of_ne he] at hb ⊢
      exact h.source b hb

/-- The other accesses of the recording thread. -/
theorem Config.Posted.move (h : c.Posted d) (halloc : d'.alloc = d.alloc) (hboard : d'.board.captured = d.board.captured)
    (hmax : d'.maxRow = d.maxRow)
    (hhist : d'.hist.pubFill = d.hist.pubFill ∧ d'.hist.procFill = d.hist.procFill ∧ d'.hist.allocFill = d.hist.allocFill ∧
      d'.hist.allocStart = d.hist.allocStart)
    (hacc : d.hist.accepted ≤ d'.hist.accepted) (hold : d.proc.pc ≠ .setLast ∧ d.proc.pc ≠ .exited)
    (hwait : d'.proc.pc = .waitStart ∨ d'.proc.pc = .waitStop → d'.hist.accepted = 0)
    (hend : d'.proc.pc = .setLast ∨ d'.proc.pc = .exited →
      d.alloc.pc = .exited ∧ d.board.captured d'.proc.cur = d'.proc.curPartial) : c.Posted d' := by
  obtain ⟨hpub, hpf, haf, hstart⟩ := hhist
  refine ⟨fun h0 => ?_, hwait, ?_, ?_, ?_, ?_, fun b hb => ?_⟩
  · rw [hboard]
    exact h.unrecorded (by omega)
  · rw [hpf, haf, hstart, hboard]
    exact h.left
  · rw [halloc, hboard]
    exact h.marking
  · rw [hmax, hpf, hboard]
    exact fun hm _ _ => h.marked hm hold.1 hold.2
  · rw [halloc, hboard]
    exact hend
  · rw [hboard] at hb
    obtain ⟨h1, h2, h3⟩ := h.source b hb
    rw [hpub, hpf, hstart]
    exact ⟨h1, h2, Nat.lt_of_lt_of_le h3 hacc⟩

theorem Config.Posted.procStep (h : c.Posted d) (hi : c.Inv d) (hcl : d.Closing) (hs : c.procStep d = some d') :
    c.Posted d' := by
  by_cases hreset : d.proc.pc = .resetRow
  · exact h.resetRow hi hreset hs
  by_cases hcap : d.proc.pc = .setCaptured
  · exact h.setLast hi hcl hcap hs
  have hacc := hi.window.accepted_eq
  unfold Config.procStep at hs
  cases hpc : d.proc.pc <;> rw [hpc] at hs <;> simp only [Option.some.injEq, reduceCtorEq] at hs
  case resetRow => exact absurd hpc hreset
  case setCaptured => exact absurd hpc hcap
  case setLast =>
    subst hs
    have he := h.ended (Or.inl hpc)
    exact ⟨h.unrecorded, (by rintro (he | he) <;> cases he), h.left, h.marking, fun _ _ he => absurd rfl he, fun _ => he, h.source⟩
  case waitStart =>
    subst hs
    have h0 := h.waiting (Or.inl hpc)
    refine h.move rfl rfl rfl ⟨rfl, rfl, rfl, rfl⟩ (Nat.le_refl _) (by rw [hpc]; decide) (fun _ => h0) ?_
    dsimp only
    split <;> rintro (he | he) <;> cases he
  case waitStop =>
    subst hs
    have h0 := h.waiting (Or.inr hpc)
    refine h.move rfl rfl rfl ⟨rfl, rfl, rfl, rfl⟩ (Nat.le_refl _) (by rw [hpc]; decide) (fun _ => h0) ?_
    dsimp only
    by_cases hstop : d.processStop = true
    · exact fun _ => ⟨hcl.stopped hstop, by rw [h.unrecorded h0]; omega⟩
    · rw [if_neg hstop]
      rintro (he | he) <;> cases he
  case store =>
    subst hs
    refine h.move rfl rfl rfl ⟨rfl, rfl, rfl, rfl⟩ (Nat.le_succ _) (by rw [hpc]; decide) ?_ ?_ <;>
      · dsimp only
        split <;> rintro (he | he) <;> cases he
  case poll =>
    split at hs <;> cases hs <;>
      exact h.move rfl rfl rfl ⟨rfl, rfl, rfl, rfl⟩ (Nat.le_refl _) (by rw [hpc]; decide)
        (by rintro (he | he) <;> cases he) (by rintro (he | he) <;> cases he)
  case load =>
    subst hs
    exact h.move rfl rfl rfl ⟨rfl, rfl, rfl, rfl⟩ (Nat.le_refl _) (by rw [hpc]; decide)
      (by rintro (he | he) <;> cases he) (by rintro (he | he) <;> cases he)
  all_goals
    subst hs
    refine h.move rfl rfl rfl ⟨rfl, rfl, rfl, rfl⟩ (Nat.le_refl _) (by rw [hpc]; decide) ?_ ?_ <;>
      · dsimp only
        split <;> rintro (he | he) <;> cases he

/-! ## All of it -/

/-! ## The end mark -/

/-- The recording thread marks its bucket with its final access, and no other. -/
theorem Config.procStep_last (hs : c.procStep d = some d') :
    d'.board.last = if d.proc.pc = .setLast then Function.update d.board.last d.proc.cur 1 else d.board.last := by
  unfold Config.procStep at hs
  cases hpc : d.proc.pc <;> rw [hpc] at hs <;> simp only [Option.some.injEq, reduceCtorEq, if_false, if_true] at hs ⊢
  case poll => split at hs <;> cases hs <;> rfl
  all_goals subst hs; rfl

/-- How the recording thread comes to its end. -/
theorem Config.procStep_exited (hs : c.procStep d = some d') (he : d'.proc.pc = .exited) :
    d.proc.pc = .setLast ∧ d'.proc.cur = d.proc.cur ∨ d.proc.pc = .waitStop ∧ d'.hist.accepted = d.hist.accepted := by
  unfold Config.procStep at hs
  cases hpc : d.proc.pc <;> rw [hpc] at hs <;> simp only [Option.some.injEq, reduceCtorEq] at hs
  case setLast =>
    subst hs
    exact Or.inl ⟨rfl, rfl⟩
  case waitStop =>
    subst hs
    exact Or.inr ⟨rfl, rfl⟩
  case poll => split at hs <;> cases hs <;> cases he
  case waitStart | outer | store | compareRow =>
    subst hs
    dsimp only at he
    split at he <;> cases he
  case publishClean =>
    subst hs
    dsimp only at he
    split at he <;> cases he
  all_goals subst hs; cases he

/-- When the recording thread has ended, the last bucket is marked, if it holds anything, and no other. -/
def Driver.Sealed (d : Driver) : Prop :=
  d.proc.pc = .exited → (0 < d.hist.accepted → d.board.last d.proc.cur = 1) ∧ ∀ b ≠ d.proc.cur, d.board.last b = 0

theorem Config.Posted.sealed_proc (h : c.Posted d) (hc : d.Closing) (hs : c.procStep d = some d') : d'.Sealed := by
  intro he
  have hlast := Config.procStep_last hs
  have hz := hc.unmarked fun hx => by simp [Config.procStep, hx] at hs
  rcases Config.procStep_exited hs he with ⟨hpc, hcur⟩ | ⟨hpc, hacc⟩
  · rw [if_pos hpc] at hlast
    rw [hlast, hcur]
    refine ⟨fun _ => Function.update_self .., fun b hb => ?_⟩
    rw [Function.update_of_ne hb]
    exact hz b
  · rw [if_neg (by rw [hpc]; decide)] at hlast
    rw [hlast, hacc, h.waiting (Or.inr hpc)]
    exact ⟨fun h0 => absurd h0 (Nat.lt_irrefl 0), fun b _ => hz b⟩

/-- What holds of the fills whatever the programs do to the flags. -/
structure Config.Divided (c : Config) (d : Driver) : Prop where
  inv : c.Inv d
  parted : c.Parted d
  waiting : d.proc.pc = .waitStart ∨ d.proc.pc = .waitStop → d.hist.accepted = 0

/-- The invariant holds at the start. -/
theorem Config.divided_start (c : Config) (lens : Nat → Nat → Nat) (ram : Mem) : c.Divided (c.startDriver lens ram) :=
  ⟨c.inv_start lens ram, c.parted_start lens ram, fun _ => rfl⟩

/-- The recording thread never waits for the start again. -/
theorem Config.procStep_waiting (hs : c.procStep d = some d') (hpc : d'.proc.pc = .waitStart ∨ d'.proc.pc = .waitStop) :
    (d.proc.pc = .waitStart ∨ d.proc.pc = .waitStop) ∧ d'.hist.accepted = d.hist.accepted := by
  unfold Config.procStep at hs
  cases hp : d.proc.pc <;> rw [hp] at hs <;> simp only [Option.some.injEq, reduceCtorEq] at hs
  case waitStart =>
    subst hs
    exact ⟨Or.inl rfl, rfl⟩
  case waitStop =>
    subst hs
    exact ⟨Or.inr rfl, rfl⟩
  case poll => split at hs <;> cases hs <;> rcases hpc with he | he <;> cases he
  case outer | store | publishClean | compareRow =>
    subst hs
    dsimp only at hpc
    split at hpc <;> rcases hpc with he | he <;> cases he
  all_goals
    subst hs
    rcases hpc with he | he <;> cases he

/-- A change of the board that leaves the lengths is about none of it. -/
theorem Config.Divided.board (h : c.Divided d) (b b' : Bool) (captured : Nat → Nat) :
    c.Divided { d with board := { d.board with userStart := b, userStop := b', captured := captured } } :=
  ⟨h.inv.boardStep b b' captured d.board.stalled, ⟨h.parted.starts, h.parted.rows, h.parted.lens⟩, h.waiting⟩

/-- Every step keeps it, whatever the programs do. -/
theorem Config.Divided.step {writers : Nat} {s t : Capture} {a : Act} (h : c.Divided s.drv) (hw : AcceptsWritten s a)
    (hst : c.Step writers s a t) : c.Divided t.drv := by
  have hi := h.inv
  cases hst with
  | alloc hs =>
    refine ⟨hi.allocStep hs, h.parted.allocStep hi hs, ?_⟩
    obtain ⟨hproc, -, hacc, -, -⟩ := Config.allocStep_frame hs
    rw [hproc, hacc]
    exact h.waiting
  | proc hs =>
    refine ⟨hi.procStep hs (hw rfl), h.parted.procStep hi hs, fun hpc => ?_⟩
    obtain ⟨hwait, hacc⟩ := Config.procStep_waiting hs hpc
    exact hacc.trans (h.waiting hwait)
  | nic p hp hs =>
    refine ⟨hi.nicStep hp hs, h.parted.nicStep hi hs, ?_⟩
    obtain ⟨-, ring, head, ram, slot, rfl⟩ := Config.nicStep_frame hs
    exact h.waiting
  | userStart => exact h.board true s.drv.board.userStop s.drv.board.captured
  | userStop => exact h.board s.drv.board.userStart true s.drv.board.captured
  | visit k hk =>
    obtain ⟨captured, he, -⟩ := c.visitStep_drv k s
    rw [he]
    exact h.board s.drv.board.userStart s.drv.board.userStop captured

/-- The invariant of the fills. -/
structure Config.Fills (c : Config) (d : Driver) : Prop where
  inv : c.Inv d
  closing : d.Closing
  parted : c.Parted d
  aimed : c.Aimed d
  posted : c.Posted d
  ended : d.Sealed

/-- The invariant holds at the start. -/
theorem Config.fills_start (c : Config) (lens : Nat → Nat → Nat) (ram : Mem) : c.Fills (c.startDriver lens ram) :=
  ⟨c.inv_start lens ram, c.closing_start lens ram, c.parted_start lens ram, c.aimed_start lens ram, c.posted_start lens ram, nofun⟩

theorem Config.Fills.divided (h : c.Fills d) : c.Divided d := ⟨h.inv, h.parted, h.posted.waiting⟩

/-- A command of the user is about none of it. -/
theorem Config.Fills.command (h : c.Fills d) (b b' : Bool) :
    c.Fills { d with board := { d.board with userStart := b, userStop := b' } } :=
  ⟨h.inv.boardStep b b' d.board.captured d.board.stalled, ⟨h.closing.stopped, h.closing.final, h.closing.unmarked⟩,
    ⟨h.parted.starts, h.parted.rows, h.parted.lens⟩, h.aimed,
    ⟨h.posted.unrecorded, h.posted.waiting, h.posted.left, h.posted.marking, h.posted.marked, h.posted.ended, h.posted.source⟩,
    h.ended⟩

/-- Every step keeps it, when no program resets a flag on the board. -/
theorem Config.Fills.step {s t : Capture} {a : Act} (h : c.Fills s.drv) (hw : AcceptsWritten s a) (hst : c.Step 0 s a t) :
    c.Fills t.drv := by
  have hi := h.inv
  cases hst with
  | alloc hs =>
    refine ⟨hi.allocStep hs, h.closing.allocStep hs, h.parted.allocStep hi hs, h.aimed.allocStep hi hs, h.posted.allocStep hi hs, ?_⟩
    obtain ⟨hproc, -, hacc, -, -⟩ := Config.allocStep_frame hs
    unfold Driver.Sealed
    rw [hproc, hacc, (Config.allocStep_rest hs).1]
    exact h.ended
  | proc hs =>
    exact ⟨hi.procStep hs (hw rfl), h.closing.procStep hs, h.parted.procStep hi hs, h.aimed.procStep hi hs,
      h.posted.procStep hi h.closing hs, h.posted.sealed_proc h.closing hs⟩
  | nic p hp hs =>
    refine ⟨hi.nicStep hp hs, h.closing.nicStep hs, h.parted.nicStep hi hs, h.aimed.nicStep hi hs, ?_, ?_⟩ <;>
    obtain ⟨-, ring, head, ram, slot, rfl⟩ := Config.nicStep_frame hs
    · have hp := h.posted
      exact ⟨hp.unrecorded, hp.waiting, hp.left, hp.marking, hp.marked, hp.ended, hp.source⟩
    · exact h.ended
  | userStart => exact h.command true s.drv.board.userStop
  | userStop => exact h.command s.drv.board.userStart true
  | visit k hk => exact absurd hk (Nat.not_lt_zero k)

end NicRecorder
