import Mathlib.Algebra.Order.BigOperators.Group.Finset
import Mathlib.Order.Interval.Finset.Nat
import NicRecorder.Statistics
import NicRecorder.Theorems.Contents

/-!
# The statistics are exact

What the recording thread has added to the statistics of the ring, and what it still has in its own variables, make up what it has
recorded. The word of 32 bits for the bytes of a bucket does not wrap: the packets of a bucket lie apart in less memory than that.
-/

namespace NicRecorder

open ByteMem Runs

/-! ## The bytes of a bucket -/

/-- Ranges that lie apart below a bound are together no longer than the bound. -/
theorem sum_le_of_apart {n bound : Nat} {start len : Nat → Nat} (hin : ∀ j < n, start j + len j ≤ bound)
    (hapart : ∀ i j, i < j → j < n → start i + len i ≤ start j ∨ start j + len j ≤ start i) :
    ∑ j ∈ Finset.range n, len j ≤ bound := by
  have hdisj : ∀ i ∈ Finset.range n, ∀ j ∈ Finset.range n, i ≠ j →
      Disjoint (Finset.Ico (start i) (start i + len i)) (Finset.Ico (start j) (start j + len j)) := by
    intro i hi j hj hij
    have hsep : start i + len i ≤ start j ∨ start j + len j ≤ start i := by
      rcases Nat.lt_or_gt_of_ne hij with hlt | hlt
      · exact hapart i j hlt (Finset.mem_range.mp hj)
      · exact (hapart j i hlt (Finset.mem_range.mp hi)).symm
    rw [Finset.disjoint_left]
    intro x hx hx'
    rw [Finset.mem_Ico] at hx hx'
    omega
  have hsub : (Finset.range n).biUnion (fun j => Finset.Ico (start j) (start j + len j)) ⊆ Finset.range bound := by
    intro x hx
    obtain ⟨j, hj, hx⟩ := Finset.mem_biUnion.mp hx
    have hend := hin j (Finset.mem_range.mp hj)
    rw [Finset.mem_Ico] at hx
    exact Finset.mem_range.mpr (by omega)
  have hcard := Finset.card_le_card hsub
  rw [Finset.card_biUnion hdisj, Finset.card_range] at hcard
  simpa only [Nat.card_Ico, Nat.add_sub_cancel_left] using hcard

theorem sum_lengths_eq (pkts : List (List UInt8)) :
    (pkts.map List.length).sum = ∑ j ∈ Finset.range pkts.length, lengthOf pkts j := by
  have hmap : pkts.map List.length = (List.range pkts.length).map (lengthOf pkts) := by
    refine List.ext_getElem (by simp) fun i h1 h2 => ?_
    rw [List.length_map] at h1
    simp [lengthOf, h1]
  rw [hmap]
  rfl

/-- The packets of a bucket are together no longer than the part of it that is before the length block. -/
theorem Config.WellLaid.sum_lengths_le {c : Config} {pkts : List (List UInt8)} (h : c.WellLaid pkts) :
    (pkts.map List.length).sum ≤ lenBlockOff := by
  rw [sum_lengths_eq]
  exact sum_le_of_apart (fun _ hj => h.place_end hj) fun _ _ hij hj => h.disjoint hij hj

/-! ## What is recorded -/

section Recorded

variable {c : Config} {d d' : Driver}

theorem Config.Inv.recorded_length (h : c.Inv d) : d.hist.recorded.length = d.hist.accepted := by
  have ho := h.order
  rw [h.recorded.recorded, List.length_take, List.length_map]
  omega

/-- The length that is stored next is that of a packet. -/
theorem Config.Inv.stored_len_lt (h : c.Inv d) (hpc : d.proc.pc = .store) : d.proc.len < 2 ^ 16 := by
  have hle := h.lengthOf_le d.hist.accepted
  have hmax : rxBufSize < 2 ^ 16 := by decide
  rw [← h.recorded.loaded hpc] at hle
  exact Nat.lt_of_le_of_lt hle hmax

/-- The lengths recorded in the current fill are those of its packets. -/
theorem Config.Divided.recorded_drop (h : c.Divided d) :
    d.hist.recorded.drop d.procBase = (d.saved d.hist.procFill).map List.length := by
  rw [h.inv.recorded.recorded, Driver.saved, Driver.savedEnd_last, h.inv.start_procFill, List.map_drop, List.map_take]

/-- The bytes of the current fill fit the word of 32 bits. -/
theorem Config.Divided.recorded_sum_lt (h : c.Divided d) : (d.hist.recorded.drop d.procBase).sum < 2 ^ 32 := by
  rw [h.recorded_drop]
  have hle := (h.wellLaid_saved (Nat.le_refl d.hist.procFill)).sum_lengths_le
  have hoff : lenBlockOff < 2 ^ 32 := by decide
  exact Nat.lt_of_le_of_lt hle hoff

theorem Config.allocStep_recorded (hs : c.allocStep d = some d') : d'.hist.recorded = d.hist.recorded ∧ d'.procBase = d.procBase := by
  unfold Config.allocStep at hs
  cases hpc : d.alloc.pc <;> rw [hpc] at hs <;> simp only [Option.some.injEq, reduceCtorEq] at hs
  case readClean => split at hs <;> cases hs <;> exact ⟨rfl, rfl⟩
  case endRow =>
    subst hs
    unfold Config.endRow
    split
    · split <;> exact ⟨rfl, rfl⟩
    · exact ⟨rfl, rfl⟩
  all_goals subst hs; exact ⟨rfl, rfl⟩

/-- What an access of the recording thread does to what is recorded. -/
theorem Config.procStep_recorded (hs : c.procStep d = some d') :
    (d.proc.pc = .store ∧ d'.hist.recorded = d.hist.recorded ++ [d.proc.len] ∧ d'.procBase = d.procBase ∧ d'.proc.pc ≠ .exited) ∨
      (d.proc.pc = .resetRow ∧ d'.hist.recorded = d.hist.recorded ∧ d'.procBase = d.hist.accepted ∧ d'.proc.pc ≠ .exited) ∨
      (d'.hist.recorded = d.hist.recorded ∧ d'.hist.accepted = d.hist.accepted ∧ d'.procBase = d.procBase ∧
        (d.proc.pc = .setLast ∧ d'.proc.pc = .exited ∨
          d.proc.pc ≠ .store ∧ d.proc.pc ≠ .resetRow ∧ d.proc.pc ≠ .setLast ∧ (d'.proc.pc = .exited → d.proc.pc = .waitStop))) := by
  unfold Config.procStep at hs
  cases hpc : d.proc.pc <;> rw [hpc] at hs <;> simp only [Option.some.injEq, reduceCtorEq] at hs
  case store =>
    subst hs
    refine Or.inl ⟨rfl, rfl, rfl, ?_⟩
    dsimp only
    split <;> nofun
  case resetRow =>
    subst hs
    refine Or.inr (Or.inl ⟨rfl, rfl, ?_, nofun⟩)
    exact Function.update_self (d.hist.procFill + 1) d.hist.accepted d.hist.procStart
  case setLast =>
    subst hs
    exact Or.inr (Or.inr ⟨rfl, rfl, rfl, Or.inl ⟨rfl, rfl⟩⟩)
  case waitStop =>
    subst hs
    exact Or.inr (Or.inr ⟨rfl, rfl, rfl, Or.inr ⟨nofun, nofun, nofun, fun _ => rfl⟩⟩)
  case poll => split at hs <;> cases hs <;> exact Or.inr (Or.inr ⟨rfl, rfl, rfl, Or.inr ⟨nofun, nofun, nofun, nofun⟩⟩)
  case waitStart | outer | publishClean | compareRow =>
    subst hs
    refine Or.inr (Or.inr ⟨rfl, rfl, rfl, Or.inr ⟨nofun, nofun, nofun, ?_⟩⟩)
    dsimp only
    split <;> nofun
  all_goals subst hs; exact Or.inr (Or.inr ⟨rfl, rfl, rfl, Or.inr ⟨nofun, nofun, nofun, nofun⟩⟩)

end Recorded

/-! ## The invariant -/

/-- The statistics and the variables of the thread make up what is recorded. -/
structure Driver.Accounted (d : Driver) (k : Statistics) : Prop where
  running : d.proc.pc ≠ .exited → k.packets = d.procBase % 2 ^ 64 ∧ k.bytes = (d.hist.recorded.take d.procBase).sum % 2 ^ 64 ∧
    k.totalBytes = (d.hist.recorded.drop d.procBase).sum
  ended : d.proc.pc = .exited → k.packets = d.hist.accepted % 2 ^ 64 ∧ k.bytes = d.hist.recorded.sum % 2 ^ 64

section Accounted

variable {c : Config} {d d' : Driver} {k : Statistics}

theorem Driver.Accounted.keep (h : d.Accounted k) (hpc : d'.proc.pc = d.proc.pc) (hr : d'.hist.recorded = d.hist.recorded)
    (ha : d'.hist.accepted = d.hist.accepted) (hb : d'.procBase = d.procBase) : d'.Accounted k := by
  refine ⟨?_, ?_⟩
  · rw [hpc, hr, hb]
    exact h.running
  · rw [hpc, hr, ha]
    exact h.ended

theorem Driver.recorded_sum (d : Driver) :
    (d.hist.recorded.take d.procBase).sum + (d.hist.recorded.drop d.procBase).sum = d.hist.recorded.sum := by
  rw [← List.sum_append, List.take_append_drop]

/-- The thread adds what it has summed up of its bucket. -/
theorem Config.Inv.posted_sum (h : c.Inv d) (hk : d.Accounted k) (hpc : d.proc.pc ≠ .exited) :
    (k.packets + d.proc.curPartial) % 2 ^ 64 = d.hist.accepted % 2 ^ 64 ∧ (k.bytes + k.totalBytes) % 2 ^ 64 = d.hist.recorded.sum % 2 ^ 64 := by
  obtain ⟨h1, h2, h3⟩ := hk.running hpc
  rw [h1, h2, h3, Nat.mod_add_mod, Nat.mod_add_mod, d.recorded_sum, h.window.accepted_eq]
  exact ⟨rfl, rfl⟩

theorem Driver.Accounted.procStep (hk : d.Accounted k) (h : c.Divided d) (h' : c.Divided d') (hs : c.procStep d = some d') :
    d'.Accounted (d.tally k) := by
  have hrun : d.proc.pc ≠ .exited := by
    intro he
    simp [Config.procStep, he] at hs
  have hlen := h.inv.recorded_length
  have hacc := h.inv.window.accepted_eq
  rcases Config.procStep_recorded hs with ⟨hpc, hrec, hbase, hx⟩ | ⟨hpc, hrec, hbase, hx⟩ | ⟨hrec, hacc', hbase, hrest⟩
  · -- a length is recorded, and the sum stays below the width of its word
    obtain ⟨h1, h2, h3⟩ := hk.running hrun
    have hlt := h'.recorded_sum_lt
    have hsplit : (d.hist.recorded ++ [d.proc.len]).drop d.procBase = d.hist.recorded.drop d.procBase ++ [d.proc.len] :=
      List.drop_append_of_le_length (by omega)
    rw [hrec, hbase, hsplit, List.sum_append, List.sum_singleton] at hlt
    have hsmall := h.inv.stored_len_lt hpc
    refine ⟨fun _ => ?_, fun he => absurd he hx⟩
    rw [Driver.tally, hpc, hrec, hbase, hsplit, List.take_append_of_le_length (by omega), List.sum_append, List.sum_singleton]
    refine ⟨h1, h2, ?_⟩
    dsimp only
    rw [Nat.mod_eq_of_lt hsmall, h3, Nat.mod_eq_of_lt hlt]
  · obtain ⟨h1, h2⟩ := h.inv.posted_sum hk hrun
    refine ⟨fun _ => ?_, fun he => absurd he hx⟩
    rw [Driver.tally, hpc, hrec, hbase, ← hlen, List.take_length, List.drop_length, hlen]
    exact ⟨h1, h2, rfl⟩
  · rcases hrest with ⟨hpc, hx⟩ | ⟨h1, h2, h3, hx⟩
    · refine ⟨fun he => absurd hx he, fun _ => ?_⟩
      rw [Driver.tally, hpc, hrec, hacc']
      exact h.inv.posted_sum hk hrun
    · have htally : d.tally k = k := by
        unfold Driver.tally
        split
        · next he => exact absurd he h1
        · next he => exact absurd he h2
        · next he => exact absurd he h3
        · rfl
      rw [htally]
      refine ⟨fun _ => ?_, fun he => ?_⟩
      · rw [hrec, hbase]
        exact hk.running hrun
      · -- the thread ends before it has begun
        have hzero := h.waiting (Or.inr (hx he))
        obtain ⟨hp, hb, -⟩ := hk.running hrun
        have hnil : d.hist.recorded = [] := List.length_eq_zero_iff.mp (by omega)
        have hpb : d.procBase = 0 := by omega
        rw [hrec, hacc', hp, hb, hnil, hzero, hpb]
        exact ⟨rfl, rfl⟩

theorem Driver.Accounted.step {writers : Nat} {s t : Capture} {a : Act} (hk : s.drv.Accounted k) (h : c.Divided s.drv)
    (hw : AcceptsWritten s a) (hst : c.Step writers s a t) : t.drv.Accounted (s.drv.tallied k a) := by
  have h' := h.step hw hst
  cases hst with
  | alloc hs =>
    obtain ⟨hproc, -, hacc, -⟩ := Config.allocStep_frame hs
    obtain ⟨hrec, hbase⟩ := Config.allocStep_recorded hs
    exact hk.keep (by rw [hproc]) hrec hacc hbase
  | proc hs => exact hk.procStep h h' hs
  | nic p hp hs =>
    obtain ⟨-, ring, head, ram, slot, rfl⟩ := Config.nicStep_frame hs
    exact hk.keep rfl rfl rfl rfl
  | userStart | userStop => exact hk.keep rfl rfl rfl rfl
  | visit j hj =>
    obtain ⟨captured, he, -⟩ := c.visitStep_drv j s
    rw [he]
    exact hk.keep rfl rfl rfl rfl

end Accounted

/-- A state of the capture is one of the capture with its statistics. -/
theorem Config.exists_counted {c : Config} {writers : Nat} {t : Capture} (h : Reached (c.capture writers) AcceptsWritten t) :
    ∃ k, Reached (c.counted writers) (fun s a => AcceptsWritten s.1 a) (t, k) := by
  obtain ⟨s, tr, hi, hr, hm⟩ := h
  induction hr with
  | nil => exact ⟨⟨0, 0, 0⟩, (s, ⟨0, 0, 0⟩), [], ⟨hi, rfl⟩, Run.nil _, meets_nil _⟩
  | @snoc t u tr a hr hst ih =>
    obtain ⟨hm, ha⟩ := meets_snoc.mp hm
    obtain ⟨k, s', tr', hi', hr', hm'⟩ := ih hm
    have hstep : (c.counted writers).step (t, k) a (u, t.drv.tallied k a) := ⟨hst, rfl⟩
    exact ⟨_, s', _, hi', hr'.snoc a hstep, meets_snoc.mpr ⟨hm', ha⟩⟩

/-! ## The theorem -/

/-- The statistics of the ring, in every state of every capture that accepts only what was written back, whatever the programs do: the
sum of the bytes of the current bucket is exact, the statistics and it make up what is recorded, and once the thread has ended the
statistics are the number of the packets and of the bytes that it recorded, in counters of 64 bits. -/
theorem statistics_exact (c : Config) (writers : Nat) {t : Capture × Statistics}
    (h : Reached (c.counted writers) (fun s a => AcceptsWritten s.1 a) t) :
    (t.1.drv.proc.pc ≠ .exited →
      t.2.totalBytes = ((t.1.drv.saved t.1.drv.hist.procFill).map List.length).sum ∧
        (t.2.packets + t.1.drv.proc.curPartial) % 2 ^ 64 = t.1.drv.hist.accepted % 2 ^ 64 ∧
        (t.2.bytes + t.2.totalBytes) % 2 ^ 64 = ((t.1.drv.hist.sent.take t.1.drv.hist.accepted).map List.length).sum % 2 ^ 64) ∧
      (t.1.drv.proc.pc = .exited →
        t.2.packets = t.1.drv.hist.accepted % 2 ^ 64 ∧
          t.2.bytes = ((t.1.drv.hist.sent.take t.1.drv.hist.accepted).map List.length).sum % 2 ^ 64) := by
  have hinv : c.Divided t.1.drv ∧ t.1.drv.Accounted t.2 := by
    refine h.invariant (I := fun s => c.Divided s.1.drv ∧ s.1.drv.Accounted s.2) ?_ ?_
    · rintro ⟨s, k⟩ ⟨⟨lens, ram, rfl⟩, rfl⟩
      exact ⟨c.divided_start lens ram, fun _ => ⟨rfl, rfl, rfl⟩, nofun⟩
    · rintro ⟨s, k⟩ a ⟨u, k'⟩ ⟨hf, hk⟩ hw ⟨hst, hk'⟩
      dsimp only at hst hk'
      subst hk'
      exact ⟨hf.step hw hst, hk.step hf hw hst⟩
  obtain ⟨hf, hk⟩ := hinv
  have hrec : (t.1.drv.hist.sent.take t.1.drv.hist.accepted).map List.length = t.1.drv.hist.recorded := by
    rw [hf.inv.recorded.recorded, List.map_take]
  rw [hrec, ← hf.recorded_drop]
  refine ⟨fun hpc => ?_, hk.ended⟩
  exact ⟨(hk.running hpc).2.2, hf.inv.posted_sum hk hpc⟩

/-- A capture of three packets is stopped, beside a writer: its statistics are three packets and the bytes of them. -/
theorem statistics_exact_three :
    ∃ t : Capture × Statistics, Reached (Config.shipped.counted 1) (fun s a => AcceptsWritten s.1 a) t ∧
      t.1.drv.proc.pc = .exited ∧ t.2.packets = 3 ∧ t.2.bytes = 60 + 64 + 1514 := by
  let c := Config.shipped
  obtain ⟨d₀, hl₀, h₀, hsent₀⟩ := c.exists_captured 1 (fun _ _ => 0) (fun _ => 0) threePackets_deliverable
  obtain ⟨d, hl, hd, href⟩ := Config.Lazy.stop 1 (s := ⟨d₀, c.startVisitor 1, []⟩) h₀
  have hreach := (hl₀.reached ⟨_, _, rfl⟩).leads (hl.trans (c.leads_finished 1 _ d))
  obtain ⟨k, hk⟩ := Config.exists_counted (Config.reached_acceptsWritten hreach)
  obtain ⟨hpackets, hbytes⟩ := (statistics_exact c 1 hk).2 rfl
  have hsent : d.hist.sent = threePackets := href.sent.trans hsent₀
  have hthree : d.hist.accepted = 3 := by
    rw [hd.caught, hsent]
    rfl
  refine ⟨_, hk, rfl, ?_, ?_⟩
  · rw [hpackets]
    show d.hist.accepted % 2 ^ 64 = 3
    rw [hthree]
    rfl
  · rw [hbytes]
    show ((d.hist.sent.take d.hist.accepted).map List.length).sum % 2 ^ 64 = _
    rw [hthree, hsent]
    simp only [threePackets, List.take_succ_cons, List.take_zero, List.map_cons, List.map_nil, List.length_replicate]
    rfl

end NicRecorder
