import NicRecorder.Lemmas.Shape

/-!
# Flags before the stop

What can be said about the flags as long as nobody has raised the stop. A writer takes a flag only if it found the bucket empty
first; a flag it takes then belongs to its own block or to a later one. So a flag that is set for a block whose writer has not
come to it stays, unless another writer clears it in place of its own, and that needs an earlier overrun.
-/

namespace NicRecorder

open Runs

variable {S : Setup} {s t : RecState} {k : Nat}

/-- A fill before the one that overran the first block. -/
def Setup.InTime (S : Setup) (s : RecState) (m : Nat) : Prop :=
  ∀ f, s.ledger.overrun = some f → m < f + S.config.numBuckets

/-- The invariant of a recording without a stop.

* `unseen`: no writer has seen a stop, and none has raised one.
* `ahead`: a writer is at most one block ahead of the driver, and not ahead when it has taken a flag.
* `later`: a flag that a writer finds after it has found none is not one of an earlier round.
* `kept`: the flag of a block is set from its publication until its writer finds it.
* `clear`: once a writer has found no flag, no earlier block waits for its writer in the bucket.
* `first`, `started`: the driver is less than a round ahead of the writers up to the first block it overran. -/
structure Detect (S : Setup) (s : RecState) : Prop where
  unseen : ∀ k < S.writers, (s.writer k).delayStop = 0 ∧ (s.writer k).pc ≠ .markStalled
  ahead : ∀ k < S.writers, (s.writer k).fileCount ≤ s.drv.allocFill + S.writers ∧
    ((s.writer k).pc.holds = true → (s.writer k).fileCount ≤ s.drv.allocFill)
  later : ∀ k < S.writers, (s.writer k).polled = true → s.mem.captured (s.writer k).cur ≠ 0 →
    (s.writer k).fileCount ≤ s.ledger.pubFill (s.writer k).cur
  kept : ∀ m, s.ledger.publishedEver m = true → S.Untaken s m → S.InTime s m → s.mem.captured (S.config.bucketOf m) ≠ 0
  clear : ∀ k < S.writers, (s.writer k).polled = true ∨ (s.writer k).pc.holds = true → ∀ m < (s.writer k).fileCount,
    S.config.bucketOf m = (s.writer k).cur → s.ledger.publishedEver m = true → S.InTime s m → ¬S.Untaken s m
  first : ∀ n, n + S.config.numBuckets ≤ s.drv.allocFill → (∀ f, s.ledger.overrun = some f → n < f) → s.closed n = true
  started : ∀ f, s.ledger.overrun = some f → f + S.config.numBuckets ≤ s.drv.allocFill

theorem detect_start (S : Setup) : Detect S S.start := by
  refine ⟨fun k _ => ⟨rfl, nofun⟩, fun k hk => ⟨?_, nofun⟩, nofun, nofun, ?_, ?_, nofun⟩
  · show k ≤ 0 + S.writers
    omega
  · rintro k _ (h | h) <;> exact Bool.noConfusion h
  · intro n hn
    have hn : n + S.config.numBuckets ≤ 0 := hn
    have := S.config.numBuckets_pos
    omega

/-! ## The steps of a writer -/

/-- A writer that moves leaves the others as they are; so the invariant is to be shown for the writer itself, and for the
flags. -/
theorem Detect.of_moves (h : Detect S s) (hs : Shape S s) (hk : k < S.writers) (hm : Moves S s k t)
    (hunseen : (t.writer k).delayStop = 0 ∧ (t.writer k).pc ≠ .markStalled)
    (hahead : (t.writer k).fileCount ≤ s.drv.allocFill + S.writers ∧
      ((t.writer k).pc.holds = true → (t.writer k).fileCount ≤ s.drv.allocFill))
    (hlater : (t.writer k).polled = true → t.mem.captured (t.writer k).cur ≠ 0 →
      (t.writer k).fileCount ≤ s.ledger.pubFill (t.writer k).cur)
    (hkept : ∀ m, s.ledger.publishedEver m = true → S.Untaken s m → S.Untaken t m → S.InTime s m →
      t.mem.captured (S.config.bucketOf m) ≠ 0)
    (hclear : (t.writer k).polled = true ∨ (t.writer k).pc.holds = true → ∀ m < (t.writer k).fileCount,
      S.config.bucketOf m = (t.writer k).cur → s.ledger.publishedEver m = true → S.InTime s m → ¬S.Untaken s m) :
    Detect S t := by
  obtain ⟨c, hl⟩ := hm.ledger
  have hd := hm.drv
  have hintime : ∀ m, S.InTime t m → S.InTime s m := by
    intro m h f hf
    exact h f (by rw [hl]; exact hf)
  refine ⟨?_, ?_, ?_, ?_, ?_, ?_, ?_⟩ <;> (try rw [hd]) <;> (try rw [hl])
  · intro j hj
    by_cases hjk : j = k
    · exact hjk ▸ hunseen
    · rw [hm.writer_ne hjk]
      exact h.unseen j hj
  · intro j hj
    by_cases hjk : j = k
    · exact hjk ▸ hahead
    · rw [hm.writer_ne hjk]
      exact h.ahead j hj
  · intro j hj
    by_cases hjk : j = k
    · exact hjk ▸ hlater
    · rw [hm.writer_ne hjk]
      intro hp hc
      rcases hm.captured (s.writer j).cur with he | ⟨_, _, he⟩
      · exact h.later j hj hp (he ▸ hc)
      · exact absurd he hc
  · exact fun m hp hu hi => hkept m hp (hm.untaken hu) hu (hintime m hi)
  · intro j hj
    by_cases hjk : j = k
    · subst hjk
      exact fun hp m hlt hb he hi hu => hclear hp m hlt hb he (hintime m hi) (hm.untaken hu)
    · rw [hm.writer_ne hjk]
      exact fun hp m hlt hb he hi hu => h.clear j hj hp m hlt hb he (hintime m hi) (hm.untaken hu)
  · exact fun n hn hf => hm.closed_mono (hs.writers k hk) (h.first n hn hf)
  · exact h.started

/-- A step inside a phase: the flags and the block stay. -/
theorem Detect.within (h : Detect S s) (hs : Shape S s) (hk : k < S.writers) (hm : Moves S s k t)
    (hcap : t.mem.captured = s.mem.captured)
    (hw : (t.writer k).cur = (s.writer k).cur ∧ (t.writer k).fileCount = (s.writer k).fileCount ∧
      (t.writer k).delayStop = (s.writer k).delayStop)
    (hpc : (t.writer k).pc ≠ .markStalled)
    (hholds : (t.writer k).pc.holds = true → (s.writer k).pc.holds = true)
    (hpolled : (t.writer k).polled = true → (s.writer k).polled = true) : Detect S t := by
  obtain ⟨h1, h2, h3⟩ := hw
  refine h.of_moves hs hk hm ?_ ?_ ?_ ?_ ?_
  · exact ⟨h3.trans (h.unseen k hk).1, hpc⟩
  · rw [h2]
    exact ⟨(h.ahead k hk).1, fun hh => (h.ahead k hk).2 (hholds hh)⟩
  · rw [h1, h2, hcap]
    exact fun hp => h.later k hk (hpolled hp)
  · rw [hcap]
    exact fun m he hu _ hi => h.kept m he hu hi
  · rw [h1, h2]
    exact fun hp => h.clear k hk (hp.imp hpolled hholds)

/-- A writer finds no flag. No earlier block can wait in the bucket then, since its flag would be set. -/
theorem Detect.wait (h : Detect S s) (hs : Shape S s) (hk : k < S.writers)
    (hc : s.mem.captured (s.writer k).cur = 0)
    (hm : Moves S s k (s.setWriter k { s.writer k with pc := .pollStop, endCnt := (s.writer k).endCnt + 1 })) :
    Detect S (s.setWriter k { s.writer k with pc := .pollStop, endCnt := (s.writer k).endCnt + 1 }) := by
  refine h.of_moves hs hk hm ?_ ?_ ?_ ?_ ?_
  · simpa using (h.unseen k hk).1
  · simpa using ⟨(h.ahead k hk).1, nofun⟩
  · intro _ hne
    exact absurd hc (by simpa using hne)
  · exact fun m he hu _ hi => h.kept m he hu hi
  · intro _ m _ hb he hi hu
    rw [RecState.setWriter_self] at hb
    exact h.kept m he hu hi (by rw [hb]; exact hc)

/-- A writer finds a flag after it has found none, and goes on to write, or finds it at once and goes on to raise the stop. -/
theorem Detect.take (h : Detect S s) (hs : Shape S s) (hk : k < S.writers) (hpc : (s.writer k).pc = .poll)
    (hc : s.mem.captured (s.writer k).cur ≠ 0)
    (hm : Moves S s k (s.setWriter k { s.writer k with
      pc := if (s.writer k).endCnt = 0 ∧ (s.writer k).delayStop = 0 then .raiseStop else .copyCaptured
      taken := s.ledger.pubFill (s.writer k).cur })) :
    Detect S (s.setWriter k { s.writer k with
      pc := if (s.writer k).endCnt = 0 ∧ (s.writer k).delayStop = 0 then .raiseStop else .copyCaptured
      taken := s.ledger.pubFill (s.writer k).cur }) := by
  obtain ⟨hd, _⟩ := h.unseen k hk
  have hlag := hs.lag
  by_cases he : (s.writer k).endCnt = 0
  · rw [if_pos ⟨he, hd⟩] at hm ⊢
    refine h.of_moves hs hk hm (by simpa using hd) (by simpa [WriterPc.holds] using (h.ahead k hk).1)
      (by simp [Writer.polled]) (fun m he hu _ hi => h.kept m he hu hi) (by simp [Writer.polled, WriterPc.holds])
  · have hp : (s.writer k).polled = true := by simp [Writer.polled, hpc, he]
    have hle := h.later k hk hp hc
    have hpf := hs.pubFill_le (s.writer k).cur
    rw [if_neg (fun hx => he hx.1)] at hm ⊢
    refine h.of_moves hs hk hm (by simpa using hd) ?_ (by simp [Writer.polled])
      (fun m he hu _ hi => h.kept m he hu hi) ?_
    · simp only [RecState.setWriter_self]
      exact ⟨(h.ahead k hk).1, fun _ => by omega⟩
    · simp only [RecState.setWriter_self]
      exact fun _ => h.clear k hk (Or.inl hp)

/-- A writer clears a flag. It clears the flag of its own block only: an earlier block would still have been there when the
writer came, and a later one means that the writer's own block was overrun. -/
theorem Detect.reset (h : Detect S s) (hs : Shape S s) (hk : k < S.writers) (hpc : (s.writer k).pc = .reset)
    (hm : Moves S s k t) (ht : t.writer k = { s.writer k with pc := .copyData }) : Detect S t := by
  have hholds : (s.writer k).pc.holds = true := by rw [hpc]; rfl
  have hws := hs.writers k hk
  refine h.of_moves hs hk hm ?_ ?_ ?_ ?_ ?_
  · simpa [ht] using (h.unseen k hk).1
  · rw [ht]
    exact ⟨(h.ahead k hk).1, fun _ => (h.ahead k hk).2 hholds⟩
  · simp [ht, Writer.polled]
  · intro m he hu hu' hi
    rcases hm.captured (S.config.bucketOf m) with hcap | ⟨_, hb, _⟩
    · rw [hcap]
      exact h.kept m he hu hi
    · exfalso
      rcases Nat.lt_trichotomy m (s.writer k).fileCount with hlt | rfl | hgt
      · exact h.clear k hk (Or.inr hholds) m hlt hb he hi hu
      · rcases hu with hu | ⟨_, hu⟩ <;> rw [hws.number] at hu
        · exact Nat.lt_irrefl _ hu
        · rw [hpc] at hu
          exact absurd hu (by decide)
      · rw [hws.bucket] at hb
        have hgap := Config.bucketOf_gap hb.symm hgt
        have hle := hs.fresh m he
        have hlag := hs.lag.1
        have hopen := hws.unfinished (by rw [hpc]; decide)
        have hclosed := h.first (s.writer k).fileCount (by omega) fun f hf => by
          have := hi f hf
          omega
        rw [hopen] at hclosed
        exact absurd hclosed (by decide)
  · rw [ht]
    exact fun _ => h.clear k hk (Or.inr hholds)

/-- A writer closes its file, and goes to its next block or ends. -/
theorem Detect.close (h : Detect S s) (hs : Shape S s) (hk : k < S.writers) (hpc : (s.writer k).pc = .close)
    (hm : Moves S s k t) (hcap : t.mem.captured = s.mem.captured) (ht : t.writer k = S.endBlock (s.writer k)) :
    Detect S t := by
  have hle := (h.ahead k hk).2 (by rw [hpc]; rfl)
  have hpos := S.writers_pos
  have hd : (t.writer k).delayStop = (s.writer k).delayStop := by rw [ht, (S.endBlock_keeps _).2.1]
  have hend := S.endBlock_cases (s.writer k)
  rw [← ht] at hend
  have hph : (t.writer k).pc.holds = false ∧ (t.writer k).polled = false ∧ (t.writer k).pc ≠ .markStalled := by
    rcases hend with ⟨hp, _⟩ | ⟨hp, _⟩ <;> simp [Writer.polled, WriterPc.holds, hp]
  obtain ⟨hh, hp, hmark⟩ := hph
  refine h.of_moves hs hk hm ⟨hd.trans (h.unseen k hk).1, hmark⟩ ?_ (by simp [hp]) ?_ (by simp [hp, hh])
  · refine ⟨?_, by simp [hh]⟩
    rcases hend with ⟨_, he, _⟩ | ⟨_, he, _⟩ <;> omega
  · rw [hcap]
    exact fun m he hu _ hi => h.kept m he hu hi

/-- A step of a writer that ends without a stop. -/
theorem Detect.moves (h : Detect S s) (hs : Shape S s) (hk : k < S.writers) (hm : Moves S s k t)
    (ht : t.mem.userStop = false) : Detect S t := by
  have hu := hm.unstopped ht
  have hm' := hm
  cases hm with
  | look hpc =>
    have hlook : (s.writer k).again0 s.mem.userStop = { s.writer k with pc := .poll, endCnt := 0 } := by
      simp [Writer.again0, hu]
    rw [hlook] at hm' ⊢
    exact h.within hs hk hm' rfl (by simp) (by simp) (by simp [WriterPc.holds])
      (by simp [Writer.polled])
  | wait hpc hc => exact h.wait hs hk hc hm'
  | take hpc hc => exact h.take hs hk hpc hc hm'
  | check hpc =>
    have hno : ¬(s.mem.userStop = true ∧ (s.writer k).endCnt > 40) := by simp [hu]
    rw [if_neg hno] at hm' ⊢
    exact h.within hs hk hm' rfl (by simp) (by simp) (by simp [WriterPc.holds])
      (by simp [Writer.polled, hpc])
  | raise hpc => exact absurd ht (by simp)
  | mark hpc => exact absurd hpc (h.unseen k hk).2
  | create hpc | copyLast hpc | copyStalled hpc | copyLen hpc | lensDone hpc | readLast hpc | copyPiece hpc | dataDone hpc =>
    exact h.within hs hk hm' rfl (by simp) (by simp) (by simp [hpc, WriterPc.holds])
      (by simp [Writer.polled])
  | reset hpc => exact h.reset hs hk hpc hm' (by simp)
  | close hpc => exact h.close hs hk hpc hm' rfl (by simp)

/-! ## The steps of the driver -/

/-- The driver sets a flag. No writer that waits at the bucket is there for a later round. -/
theorem Detect.publish (h : Detect S s) (hs : Shape S s) {m : Nat} (hm : m ≠ 0) :
    Detect S { S.setFlag s s.drv.allocFill m with drv := { s.drv with published := true } } := by
  have hW := S.writers_le
  have hround : ∀ j < S.writers, (s.writer j).cur = S.config.bucketOf s.drv.allocFill →
      (s.writer j).fileCount ≤ s.drv.allocFill := by
    intro j hj hc
    rw [(hs.writers j hj).bucket] at hc
    by_contra hlt
    have := Config.bucketOf_gap hc.symm (by omega)
    have := (h.ahead j hj).1
    omega
  refine ⟨h.unseen, h.ahead, ?_, ?_, ?_, h.first, h.started⟩
  · intro j hj hp hc
    by_cases hb : (s.writer j).cur = S.config.bucketOf s.drv.allocFill
    · simp only [Setup.setFlag, hb, Function.update_self]
      exact hround j hj hb
    · simp only [Setup.setFlag, Function.update_of_ne hb] at hc ⊢
      exact h.later j hj hp hc
  · intro n he hu hi
    by_cases hb : S.config.bucketOf n = S.config.bucketOf s.drv.allocFill
    · simpa [Setup.setFlag, hb] using hm
    · have hne : n ≠ s.drv.allocFill := fun hx => hb (by rw [hx])
      simp only [Setup.setFlag, Function.update_of_ne hb, Function.update_of_ne hne] at he ⊢
      exact h.kept n he hu hi
  · intro j hj hp n hlt hb he hi hu
    by_cases hne : n = s.drv.allocFill
    · have := hround j hj (hb.symm.trans (by rw [hne]))
      have hlt : n < (s.writer j).fileCount := hlt
      omega
    · simp only [Setup.setFlag, Function.update_of_ne hne] at he
      exact h.clear j hj hp n hlt hb he hi hu

/-- The driver goes to its next fill, and the first overrun is noted. -/
theorem Detect.startNext (h : Detect S s) : Detect S { s with
    drv := { s.drv with allocFill := s.drv.allocFill + 1, published := false }
    ledger := { s.ledger with overrun := S.noteOverrun s (s.drv.allocFill + 1) } } := by
  have hsome : ∀ f, s.ledger.overrun = some f → S.noteOverrun s (s.drv.allocFill + 1) = some f := by
    intro f hf
    simp [Setup.noteOverrun, hf]
  have hi : ∀ m, S.InTime { s with
      drv := { s.drv with allocFill := s.drv.allocFill + 1, published := false }
      ledger := { s.ledger with overrun := S.noteOverrun s (s.drv.allocFill + 1) } } m → S.InTime s m :=
    fun m hi f hf => hi f (hsome f hf)
  refine ⟨h.unseen, ?_, h.later, fun m he hu hx => h.kept m he hu (hi m hx),
    fun j hj hp m hlt hb he hx => h.clear j hj hp m hlt hb he (hi m hx), ?_, ?_⟩
  · intro j hj
    obtain ⟨h1, h2⟩ := h.ahead j hj
    exact ⟨h1.trans (Nat.add_le_add_right (Nat.le_succ _) _), fun hp => Nat.le_succ_of_le (h2 hp)⟩
  · intro n hn hf
    have hn : n + S.config.numBuckets ≤ s.drv.allocFill + 1 := hn
    have hf : ∀ f, S.noteOverrun s (s.drv.allocFill + 1) = some f → n < f := hf
    show s.closed n = true
    cases ho : s.ledger.overrun with
    | some g =>
      have hng := hf g (hsome g ho)
      have hg := h.started g ho
      refine h.first n (by omega) fun f hfo => ?_
      cases ho.symm.trans hfo
      exact hng
    | none =>
      rcases Nat.lt_or_ge s.drv.allocFill (n + S.config.numBuckets) with hlt | hge
      · have hsub : s.drv.allocFill + 1 - S.config.numBuckets = n := by omega
        by_contra hopen
        refine Nat.lt_irrefl n (hf n ?_)
        simp only [Setup.noteOverrun, ho, hsub]
        exact if_pos ⟨by omega, by simpa using hopen⟩
      · exact h.first n hge (by simp [ho])
  · intro f hf
    have hf : S.noteOverrun s (s.drv.allocFill + 1) = some f := hf
    show f + _ ≤ s.drv.allocFill + 1
    cases ho : s.ledger.overrun with
    | some g =>
      cases (hsome g ho).symm.trans hf
      exact Nat.le_succ_of_le (h.started _ ho)
    | none =>
      simp only [Setup.noteOverrun, ho] at hf
      split at hf
      · next hx =>
        cases hf
        omega
      · exact absurd hf (by simp)

theorem Detect.fills {a : FillAct} (h : Detect S s) (hs : Shape S s) (hf : Fills S s a t)
    (ht : t.mem.userStop = false) : Detect S t := by
  have hrun := hs.running (hf.unstopped ht)
  cases hf with
  | dma | accept | procNext => exact ⟨h.unseen, h.ahead, h.later, h.kept, h.clear, h.first, h.started⟩
  | publish m ha hp hc hm => exact h.publish hs hm
  | startNext => exact h.startNext
  | allocEnd hu => exact absurd hu (by simp [show s.mem.userStop = false from ht])
  | finalCaptured ha => exact absurd ha (by simp [hrun])
  | finalLast he => exact absurd (hs.going hrun) (by simp [he])
  | userStop => exact absurd ht (by simp)

/-- The flags in a recording without a stop. -/
theorem detect_of_run {tr : List (RecState × RecAct)} (hr : Run S.system S.start tr s) :
    s.mem.userStop = false → Detect S s := by
  refine (hr.invariant (I := fun s => Shape S s ∧ (s.mem.userStop = false → Detect S s)) ?_
    ⟨shape_start S, fun _ => detect_start S⟩).2
  intro u a v h hst
  refine ⟨h.1.step hst, fun ht => ?_⟩
  rcases next_cases hst with ⟨f, _, hf⟩ | ⟨k, _, hk, hm⟩
  · exact (h.2 (hf.unstopped ht)).fills h.1 hf ht
  · exact (h.2 (hm.unstopped ht)).moves h.1 hk hm ht

end NicRecorder
