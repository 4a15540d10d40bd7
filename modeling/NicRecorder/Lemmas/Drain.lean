import NicRecorder.Lemmas.Safe

/-!
# What the writers leave behind

When every writer takes the flag of its own block, a flag is set until its writer finds it, and a writer ends with a flagged file
or at a block for which it found no flag. `Kept` is the invariant. `Passes` counts the passes of a writer after the stop: three,
each of which writes a block or finds that there is none.
-/

namespace NicRecorder

open Runs

variable {S : Setup} {s t : RecState} {k : Nat}

/-! ## Flags that are taken by their own writers -/

/-- The writer has found a flag. -/
def WriterPc.took (pc : WriterPc) : Bool := pc = .raiseStop || pc = .markStalled || pc.holds

/-- The invariant of a recording in which every writer takes the flag of its own block.

* `kept`: the flag of a block is set from its publication until its writer finds it.
* `own`, `src`: what a writer has taken, and every file, is of the block's own fill.
* `missed`: a writer that waits in vain after the stop does so for a block that is not published.
* `exits`: a writer ends with a flagged file, or when it has seen the stop four times. -/
structure Kept (S : Setup) (s : RecState) : Prop where
  kept : ∀ m, s.ledger.publishedEver m = true → S.Untaken s m → s.mem.captured (S.config.bucketOf m) ≠ 0
  own : ∀ k < S.writers, (s.writer k).pc.took = true →
    (s.writer k).taken = (s.writer k).fileCount ∧ (s.writer k).fileCount ≤ s.drv.procFill
  src : ∀ f img, s.file f = some img → img.src = f ∧ f ≤ s.drv.procFill
  missed : ∀ k < S.writers, (s.writer k).pc = .pollStop → (s.writer k).delayStop ≠ 0 →
    s.ledger.publishedEver (s.writer k).fileCount = false
  exits : ∀ k < S.writers, (s.writer k).pc = .exited →
    s.closed (s.writer k).fileCount = true ∧ s.flagged (s.writer k).fileCount = true ∨ 3 < (s.writer k).delayStop

theorem kept_start (S : Setup) : Kept S S.start := ⟨nofun, nofun, nofun, nofun, nofun⟩

/-- A step that is careful, takes only flags of the writer's own block, ends no writer by `max_blocks`, and publishes no block
whose writer has seen the stop. -/
structure Setup.Orderly (S : Setup) (s : RecState) (a : RecAct) : Prop where
  noOverrun : S.NoOverrun s a
  takesLeft : S.TakesLeft s a
  takesOwn : TakesOwn s a
  underLimit : S.UnderLimit s a
  publishesUnseen : S.PublishesUnseen s a

theorem Setup.Orderly.careful {a : RecAct} (h : S.Orderly s a) : S.Careful s a :=
  ⟨h.noOverrun, h.takesLeft, h.takesOwn.late⟩

/-! ### The steps of the driver -/

/-- The fills that the driver publishes with a step. -/
theorem Fills.published {a : FillAct} (hf : Fills S s a t) {n : Nat} (hn : t.ledger.publishedEver n = true) :
    s.ledger.publishedEver n = true ∨ n = s.drv.procFill ∧
      ((∃ m, a = .publish m) ∨ a = .finalCaptured ∧ s.drv.count ≠ 0) := by
  cases hf with
  | publish m ha hp hc hm =>
    by_cases he : n = s.drv.allocFill
    · exact Or.inr ⟨he.trans hp, Or.inl ⟨m, rfl⟩⟩
    · simp only [Setup.setFlag, Function.update_of_ne he] at hn
      exact Or.inl hn
  | finalCaptured ha he =>
    by_cases hp : n = s.drv.procFill
    · have hn : s.ledger.publishedEver n = true ∨ s.drv.count ≠ 0 := by simpa [Setup.setFlag, hp] using hn
      exact hn.imp_right fun hc => ⟨hp, Or.inr ⟨rfl, hc⟩⟩
    · simp only [Setup.setFlag, Function.update_of_ne hp] at hn
      exact Or.inl hn
  | _ => exact Or.inl hn

/-- A fill that the driver stores a flag for is not empty once it was published. -/
theorem Kept.kept_fills {a : FillAct} (h : Kept S s) (hs : Shape S s) (hsafe : Safe S s) (hf : Fills S s a t) {n : Nat}
    (hn : t.ledger.publishedEver n = true) (hu : S.Untaken s n) : t.mem.captured (S.config.bucketOf n) ≠ 0 := by
  have hlag := hs.lag
  have hopen := RecState.closed_none (hu.file_none hs.writers)
  by_cases hb : S.config.bucketOf n = S.config.bucketOf s.drv.procFill
  · have hle : n ≤ s.drv.procFill := by
      rcases hf.published hn with hold | ⟨he, _⟩
      · exact hs.fresh n hold
      · omega
    -- An earlier fill of the bucket would be complete by now.
    have hge := hsafe.alone hopen hlag.1 hb.symm
    have he : n = s.drv.procFill := by omega
    subst he
    cases hf with
    | publish m ha hp hc hm => simpa [Setup.setFlag, hp] using hm
    | finalCaptured ha he =>
      have hn : s.ledger.publishedEver s.drv.procFill = true ∨ s.drv.count ≠ 0 := by simpa [Setup.setFlag] using hn
      simpa [Setup.setFlag] using hn.elim hs.live id
    | _ => exact h.kept _ hn hu
  · have hne : n ≠ s.drv.procFill := fun he => hb (by rw [he])
    have hold := (hf.published hn).resolve_right (fun hx => hne hx.1)
    rcases hf.flag (S.config.bucketOf n) with ⟨hc, _⟩ | ⟨hb', _⟩
    · rw [hc]
      exact h.kept n hold hu
    · exact absurd hb' hb

theorem Kept.fills {a : FillAct} (h : Kept S s) (hs : Shape S s) (hsafe : Safe S s) (hf : Fills S s a t)
    (ho : S.PublishesUnseen s (.drv a)) : Kept S t := by
  have hmono := hf.fill_mono
  refine ⟨?_, ?_, ?_, ?_, ?_⟩
  · intro n hn hu
    refine h.kept_fills hs hsafe hf hn ?_
    unfold Setup.Untaken at hu ⊢
    rw [hf.writer] at hu
    exact hu
  · rw [hf.writer]
    exact fun k hk hp => ⟨(h.own k hk hp).1, (h.own k hk hp).2.trans hmono.2⟩
  · rw [hf.file]
    exact fun f img hi => ⟨(h.src f img hi).1, (h.src f img hi).2.trans hmono.2⟩
  · rw [hf.writer]
    intro k hk hp hd
    have hold := h.missed k hk hp hd
    by_contra hn
    rcases hf.published (by simpa using hn) with hx | ⟨he, hact⟩
    · rw [hold] at hx
      exact absurd hx (by decide)
    · rw [he] at hold
      have hz := ho (by simpa using hact) hold
      rw [← he, (hs.writers k hk).number] at hz
      exact hd hz
  · rw [hf.writer, hf.closed]
    unfold RecState.flagged
    rw [hf.file]
    exact h.exits

/-! ### The steps of a writer -/

theorem Kept.kept_moves (h : Kept S s) (hs : Shape S s) (hsafe : Safe S s) (hk : k < S.writers) (hm : Moves S s k t) {n : Nat}
    (hn : s.ledger.publishedEver n = true) (hu : S.Untaken t n) : t.mem.captured (S.config.bucketOf n) ≠ 0 := by
  have hus := hm.untaken hu
  rcases hm.captured (S.config.bucketOf n) with he | ⟨hreset, hb, _⟩
  · rw [he]
    exact h.kept n hn hus
  · -- The writer clears the flag of its own block, and no other block of the bucket waits.
    exfalso
    have hlag := hs.lag
    have hws := hs.writers k hk
    have hle := (h.own k hk (by rw [hreset]; rfl)).2
    have hopen := hws.unfinished (by rw [hreset]; decide)
    have hopenn := RecState.closed_none (hus.file_none hs.writers)
    rw [hws.bucket] at hb
    have h1 := hsafe.alone hopenn (hle.trans hlag.1) hb.symm
    have h2 := hsafe.alone hopen ((hs.fresh n hn).trans hlag.1) hb
    have he : n = (s.writer k).fileCount := by omega
    rcases hus with hlt | ⟨_, hw⟩
    · rw [he, hws.number] at hlt
      exact Nat.lt_irrefl _ hlt
    · rw [he, hws.number, hreset] at hw
      exact absurd hw (by decide)

/-- A writer goes on with the block whose flag it has found. -/
theorem Moves.took (hm : Moves S s k t) (hp : (t.writer k).pc.took = true) :
    (t.writer k).fileCount = (s.writer k).fileCount ∧
      ((s.writer k).pc.took = true ∧ (t.writer k).taken = (s.writer k).taken ∨
        s.Takes k (.writer k) ∧ (t.writer k).taken = s.ledger.pubFill (s.writer k).cur) := by
  cases hm with
  | look =>
    rw [RecState.setWriter_self] at hp
    rcases ((s.writer k).again0_keeps s.mem.userStop).2.2.2 with he | ⟨he, _⟩ <;> rw [he] at hp <;>
      exact absurd hp (by decide)
  | wait => exact absurd hp (by simp [WriterPc.took, WriterPc.holds])
  | take hpc hc => exact ⟨by simp, Or.inr ⟨⟨rfl, hpc, hc⟩, by simp⟩⟩
  | check =>
    rw [RecState.setWriter_self] at hp
    split at hp <;> exact absurd hp (by simp [WriterPc.took, WriterPc.holds])
  | close =>
    simp only [RecState.editFile_writer, RecState.setWriter_self] at hp
    rcases S.endBlock_cases (s.writer k) with ⟨he, _⟩ | ⟨he, _⟩ <;> rw [he] at hp <;> exact absurd hp (by decide)
  | raise hpc | mark hpc | create hpc | copyLast hpc | copyStalled hpc | copyLen hpc =>
    exact ⟨by simp, Or.inl ⟨by rw [hpc]; rfl, by simp⟩⟩
  | lensDone hpc | readLast hpc | reset hpc | copyPiece hpc | dataDone hpc =>
    exact ⟨by simp, Or.inl ⟨by rw [hpc]; rfl, by simp⟩⟩

/-- A file is of the fill that its writer has taken. -/
theorem Moves.src (hm : Moves S s k t) (img : Image) (hi : t.file (s.writer k).fileCount = some img) :
    (∃ old, s.file (s.writer k).fileCount = some old ∧ img.src = old.src) ∨
      (s.writer k).pc = .copyCaptured ∧ img.src = (s.writer k).taken := by
  cases hm with
  | create hpc =>
    simp only [Function.update_self] at hi
    cases hi
    exact Or.inr ⟨hpc, rfl⟩
  | copyLast | copyStalled | copyLen | copyPiece | close =>
    obtain ⟨old, hold, rfl⟩ := RecState.of_editFile hi
    exact Or.inl ⟨old, hold, rfl⟩
  | _ => exact Or.inl ⟨img, hi, rfl⟩

/-- A writer ends because its file is flagged, because it has seen the stop often enough, or because of `max_blocks`. -/
theorem Kept.exits_own (hs : Shape S s) (hsafe : Safe S s) (hk : k < S.writers) (hm : Moves S s k t)
    (hlim : S.UnderLimit s (.writer k)) (hp : (t.writer k).pc = .exited) :
    t.closed (t.writer k).fileCount = true ∧ t.flagged (t.writer k).fileCount = true ∨ 3 < (t.writer k).delayStop := by
  have hws := hs.writers k hk
  cases hm with
  | look hpc =>
    rw [RecState.setWriter_self] at hp ⊢
    refine Or.inr ?_
    unfold Writer.again0 at hp ⊢
    split
    · next hu =>
      rw [if_pos hu] at hp
      split
      · next hd => exact Nat.succ_lt_succ hd
      · next hd =>
        rw [if_neg hd] at hp
        exact absurd hp (by simp)
    · next hu =>
      rw [if_neg hu] at hp
      exact absurd hp (by simp)
  | take =>
    rw [RecState.setWriter_self] at hp
    split at hp <;> exact absurd hp (by simp)
  | check =>
    rw [RecState.setWriter_self] at hp
    split at hp <;> exact absurd hp (by simp)
  | close hpc =>
    refine Or.inl ?_
    simp only [RecState.editFile_writer, RecState.setWriter_self] at hp ⊢
    rcases S.endBlock_cases (s.writer k) with ⟨_, he, _, hend⟩ | ⟨he, _⟩
    · rw [he]
      obtain ⟨img, hi, _⟩ := hws.opened (by rw [hpc]; rfl)
      have hne : ∀ pc, pc ≠ .close → (s.writer k).pc ≠ pc := fun pc hx he => hx (he.symm.trans hpc)
      refine ⟨by simp [RecState.closed, hi], ?_⟩
      have hflag : img.stalled ≠ 0 ∨ img.last ≠ 0 := by
        cases hst : (s.writer k).stalled with
        | true =>
          exact Or.inl ((hsafe.marked k hk hst).file (by rw [hpc]; rfl) (hne _ (by decide)) (hne _ (by decide)) img hi)
        | false =>
          rw [hst] at hend
          have hlast := hend.resolve_right (by simpa using hlim k rfl hpc)
          have hcopy := (hsafe.holding k hk (by rw [hpc]; rfl) hst).copy (by rw [hpc]; rfl) img hi
          exact Or.inr (by rw [hcopy.lastRead (by simp [hpc])]; exact hlast)
      simpa [RecState.flagged, hi] using hflag
    · exact absurd (he.symm.trans hp) (by decide)
  | _ => exact absurd hp (by simp)

theorem Kept.moves (h : Kept S s) (hs : Shape S s) (hsafe : Safe S s) (hk : k < S.writers) (hm : Moves S s k t)
    (ho : S.Orderly s (.writer k)) : Kept S t := by
  obtain ⟨c, hl⟩ := hm.ledger
  have hd := hm.drv
  refine ⟨?_, ?_, ?_, ?_, ?_⟩ <;> (try rw [hl]) <;> (try rw [hd])
  · exact fun n hn hu => h.kept_moves hs hsafe hk hm hn hu
  · intro j hj
    by_cases hjk : j = k
    · subst hjk
      intro hp
      obtain ⟨hfc, hold | ⟨htake, htk⟩⟩ := hm.took hp
      · rw [hfc, hold.2]
        exact h.own j hj hold.1
      · rw [hfc, htk, ho.takesOwn j htake]
        exact ⟨rfl, ho.takesOwn j htake ▸ hs.pubFill_le _⟩
    · rw [hm.writer_ne hjk]
      exact h.own j hj
  · intro f img hi
    by_cases hf : f = (s.writer k).fileCount
    · subst hf
      rcases hm.src img hi with ⟨old, hold, he⟩ | ⟨hpc, he⟩
      · rw [he]
        exact h.src _ old hold
      · rw [he]
        exact h.own k hk (by rw [hpc]; rfl)
    · rw [hm.file_ne hf] at hi
      exact h.src f img hi
  · intro j hj
    by_cases hjk : j = k
    · subst hjk
      cases hm with
      | look =>
        rw [RecState.setWriter_self]
        intro hp
        rcases ((s.writer j).again0_keeps s.mem.userStop).2.2.2 with he | ⟨he, _⟩ <;>
          exact absurd (he.symm.trans hp) (by decide)
      | wait hpc hc =>
        intro _ hdel
        by_contra hn
        refine h.kept (s.writer j).fileCount (by simpa using hn) (Or.inr ?_) ?_
        · rw [(hs.writers j hj).number]
          exact ⟨rfl, by rw [hpc]; rfl⟩
        · rw [← (hs.writers j hj).bucket]
          exact hc
      | take =>
        rw [RecState.setWriter_self]
        intro hp
        split at hp <;> exact absurd hp (by simp)
      | check =>
        rw [RecState.setWriter_self]
        intro hp
        split at hp <;> exact absurd hp (by simp)
      | close =>
        simp only [RecState.editFile_writer, RecState.setWriter_self]
        intro hp
        rcases S.endBlock_cases (s.writer j) with ⟨he, _⟩ | ⟨he, _⟩ <;> exact absurd (he.symm.trans hp) (by decide)
      | _ => exact fun hp => absurd hp (by simp)
    · rw [hm.writer_ne hjk]
      exact h.missed j hj
  · intro j hj
    by_cases hjk : j = k
    · subst hjk
      exact fun hp => Kept.exits_own hs hsafe hj hm ho.underLimit hp
    · rw [hm.writer_ne hjk]
      intro hp
      have hf : t.file (s.writer j).fileCount = s.file (s.writer j).fileCount := by
        refine hm.file_ne fun he => hjk ?_
        rw [← (hs.writers j hj).number, he, (hs.writers k hk).number]
      rw [RecState.closed_congr hf]
      unfold RecState.flagged
      rw [hf]
      exact h.exits j hj hp

theorem kept_step {a : RecAct} (h1 : Shape S s) (h2 : Safe S s) (h3 : Kept S s) (ho : S.Orderly s a)
    (hst : S.next s a = some t) : Shape S t ∧ Safe S t ∧ Kept S t := by
  refine ⟨h1.step hst, h2.step h1 ho.careful hst, ?_⟩
  rcases next_cases hst with ⟨f, rfl, hf⟩ | ⟨k, rfl, hk, hm⟩
  · exact h3.fills h1 h2 hf ho.publishesUnseen
  · exact h3.moves h1 h2 hk hm ho

/-- The invariant of an orderly run. -/
theorem kept_of_run {tr : List (RecState × RecAct)} (hr : Run S.system S.start tr s) (ho : Meets S.Orderly tr) :
    Shape S s ∧ Safe S s ∧ Kept S s :=
  hr.invariantUnder (I := fun u => Shape S u ∧ Safe S u ∧ Kept S u)
    (fun _ _ _ h hu hst => kept_step h.1 h.2.1 h.2.2 hu hst) ⟨shape_start S, safe_start S, kept_start S⟩ ho

/-- An orderly step, checked. -/
def Setup.orderlyStep (S : Setup) (s : RecState) (a : RecAct) : Bool :=
  S.carefulStep s a && match a with
  | .writer k => (s.writer k).pc ≠ .close || (s.writer k).blocksWritten + 1 ≠ S.maxBlocks
  | .drv (.publish _) | .drv .finalCaptured =>
    s.ledger.publishedEver s.drv.procFill || (s.writer (s.drv.procFill % S.writers)).delayStop = 0
  | .drv _ => true

theorem orderlyStep_spec {a : RecAct} (h : S.orderlyStep s a = true) : S.Orderly s a := by
  simp only [Setup.orderlyStep, Bool.and_eq_true] at h
  obtain ⟨hc, h⟩ := h
  obtain ⟨h1, h2, h3⟩ := carefulStep_spec hc
  refine ⟨h1, h2, h3, ?_, ?_⟩
  · rintro k rfl hp
    simpa [hp] using h
  · rintro (⟨m, rfl⟩ | ⟨rfl, _⟩) hpub <;> simpa [hpub] using h

/-- The stop command, and the end of the driver with a packet in its last fill. -/
def driverEnd : List RecAct :=
  [.drv (.dma false 1), .drv (.accept [0, 1]), .drv .userStop, .drv .allocEnd, .drv .finalCaptured, .drv .finalLast]

/-- One writer has written block 0 when the stop comes, and block 1 is the last. -/
def lastBlock : List RecAct := writerSteps 0 3 ++ wholeFill ++ writerSteps 0 11 ++ driverEnd ++ writerSteps 0 12

/-! ## The passes after the stop -/

/-- The passes that a writer has left when it has seen the stop: the one it is in, if any, and the ones after it. -/
def Writer.passes (w : Writer) : Nat := if w.pc = .again0 then 3 - w.delayStop else 4 - w.delayStop

/-- Block `n` is within the passes that its writer has left, once the writer has seen the stop. -/
def Setup.Reaches (S : Setup) (n : Nat) (s : RecState) : Prop :=
  (s.writer (n % S.writers)).delayStop ≠ 0 → s.ledger.publishedEver n = true →
    n < (s.writer (n % S.writers)).fileCount + (s.writer (n % S.writers)).passes * S.writers

/-- When its writer sees the stop for the first time, at most three published blocks up to block `n` are left to it. -/
def Setup.BacklogTo (S : Setup) (n : Nat) (s : RecState) (a : RecAct) : Prop :=
  s.SeesStop (n % S.writers) a → s.ledger.publishedEver n = true →
    n < (s.writer (n % S.writers)).fileCount + 3 * S.writers

/-- A pass writes a block or finds that none is published; so the passes reach a block as long as they reached it at the first
sight of the stop. -/
theorem Setup.Reaches.moves {n : Nat} (h : S.Reaches n s) (hs : Shape S s) (hkept : Kept S s) (hk : n % S.writers < S.writers)
    (hm : Moves S s (n % S.writers) t) (hb : S.BacklogTo n s (.writer (n % S.writers))) : S.Reaches n t := by
  obtain ⟨c, hl⟩ := hm.ledger
  unfold Setup.Reaches at h ⊢
  rw [hl]
  have hsame : ∀ d, (s.writer (n % S.writers)).pc ≠ .again0 → d = (s.writer (n % S.writers)).delayStop → d ≠ 0 →
      s.ledger.publishedEver n = true → n < (s.writer (n % S.writers)).fileCount + (4 - d) * S.writers := by
    rintro d hp rfl hd hn
    have := h hd hn
    rwa [Writer.passes, if_neg hp] at this
  cases hm with
  | look hpc =>
    rw [RecState.setWriter_self, ((s.writer (n % S.writers)).again0_keeps _).1]
    intro hd hn
    have hold := h
    rw [Writer.passes, if_pos hpc] at hold
    by_cases hz : (s.writer (n % S.writers)).delayStop = 0
    · cases hu : s.mem.userStop with
      | false => simp [Writer.again0, hu, hz] at hd
      | true =>
        have := hb ⟨rfl, hpc, hu, hz⟩ hn
        simpa [Writer.again0, Writer.passes, hu, hz] using this
    · have := hold hz hn
      refine this.trans_le (Nat.add_le_add_left (Nat.mul_le_mul_right _ ?_) _)
      unfold Writer.again0 Writer.passes
      split
      · split <;> simp
      · simp only [reduceCtorEq, if_false]
        omega
  | wait hpc => simpa [Writer.passes] using hsame _ (by rw [hpc]; decide) rfl
  | take hpc =>
    have := hsame _ (by rw [hpc]; decide) rfl
    rw [RecState.setWriter_self]
    split <;> simpa [Writer.passes] using this
  | check hpc =>
    rw [RecState.setWriter_self]
    intro hd hn
    have hd : (s.writer (n % S.writers)).delayStop ≠ 0 := hd
    -- Nothing is published for the block it waits for, so nothing for a later one.
    have hlt : n < (s.writer (n % S.writers)).fileCount := by
      by_contra hge
      have hno := hkept.missed _ hk hpc hd
      rcases Nat.lt_or_ge (s.writer (n % S.writers)).fileCount n with hx | hx
      · have := hs.done _ (hx.trans_le ((hs.fresh n hn).trans hs.lag.1))
        rw [hno] at this
        exact absurd this (by decide)
      · rw [show (s.writer (n % S.writers)).fileCount = n by omega, hn] at hno
        exact absurd hno (by decide)
    exact Nat.lt_add_right _ hlt
  | close hpc =>
    simp only [RecState.editFile_writer, RecState.setWriter_self, (S.endBlock_keeps _).2.1, Writer.passes]
    intro hd hn
    have hold := hsame _ (by rw [hpc]; decide) rfl hd hn
    rcases S.endBlock_cases (s.writer (n % S.writers)) with ⟨hp, he, _⟩ | ⟨hp, he, _⟩ <;> rw [hp, he]
    · exact hold
    · -- The block written is one of those that the passes were counted for.
      have hle : (4 - (s.writer (n % S.writers)).delayStop) * S.writers ≤
          (3 - (s.writer (n % S.writers)).delayStop + 1) * S.writers := Nat.mul_le_mul_right _ (by omega)
      rw [Nat.succ_mul] at hle
      rw [if_pos rfl]
      omega
  | raise hpc | mark hpc | create hpc | copyLast hpc | copyStalled hpc | copyLen hpc =>
    simpa [Writer.passes] using hsame _ (by rw [hpc]; decide) rfl
  | lensDone hpc | readLast hpc | reset hpc | copyPiece hpc | dataDone hpc =>
    simpa [Writer.passes] using hsame _ (by rw [hpc]; decide) rfl

/-- The passes of the writers in an orderly run that meets the condition on the backlog. -/
theorem reaches_of_run {tr : List (RecState × RecAct)} (hr : Run S.system S.start tr s) (ho : Meets S.Orderly tr) {n : Nat}
    (hb : Meets (S.BacklogTo n) tr) : S.Reaches n s := by
  refine (hr.invariantUnder (φ := fun u a => S.Orderly u a ∧ S.BacklogTo n u a)
    (I := fun u => (Shape S u ∧ Safe S u ∧ Kept S u) ∧ S.Reaches n u) ?_
    ⟨⟨shape_start S, safe_start S, kept_start S⟩, fun hd => absurd rfl hd⟩ fun x hx => ⟨ho x hx, hb x hx⟩).2
  rintro u a v ⟨⟨h1, h2, h3⟩, h4⟩ ⟨hu, hbu⟩ hst
  refine ⟨kept_step h1 h2 h3 hu hst, ?_⟩
  rcases next_cases hst with ⟨f, rfl, hf⟩ | ⟨k, rfl, hk, hm⟩
  · unfold Setup.Reaches at h4 ⊢
    rw [hf.writer]
    intro hd hn
    rcases hf.published hn with hold | ⟨he, hact⟩
    · exact h4 hd hold
    · cases hpub : u.ledger.publishedEver n with
      | true => exact h4 hd hpub
      | false =>
        subst he
        exact absurd (hu.publishesUnseen (by simpa using hact) hpub) hd
  · by_cases hj : n % S.writers = k
    · subst hj
      exact h4.moves h1 h3 hk hm hbu
    · obtain ⟨c, hl⟩ := hm.ledger
      unfold Setup.Reaches
      rw [hm.writer_ne hj, hl]
      exact h4

/-- A published block that its writer reaches is written when the writer has ended, unless the writer ended before it with a
flagged file. -/
theorem Kept.written (h : Kept S s) (hs : Shape S s) {n : Nat} (hr : S.Reaches n s)
    (hn : s.ledger.publishedEver n = true) (hexit : (s.writer (n % S.writers)).pc = .exited) :
    s.closed n = true ∨ ∃ h < n, s.flagged h = true := by
  have hk : n % S.writers < S.writers := Nat.mod_lt _ S.writers_pos
  rcases Nat.lt_or_ge n (s.writer (n % S.writers)).fileCount with hlt | hge
  · exact Or.inl ((hs.writers _ hk).below n rfl hlt)
  · rcases h.exits _ hk hexit with ⟨hc, hf⟩ | hd
    · rcases Nat.lt_or_ge (s.writer (n % S.writers)).fileCount n with hlt | hle
      · exact Or.inr ⟨_, hlt, hf⟩
      · rw [Nat.le_antisymm hge hle] at hc
        exact Or.inl hc
    · -- It has seen the stop four times, and no pass is left.
      have hlt := hr (by omega) hn
      rw [Writer.passes, if_neg (by rw [hexit]; decide), show 4 - (s.writer (n % S.writers)).delayStop = 0 by omega] at hlt
      omega

end NicRecorder
