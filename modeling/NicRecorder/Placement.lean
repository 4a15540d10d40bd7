import NicRecorder.Capture
import NicRecorder.Lib.Loop

/-!
# The placing of the packets of one bucket

The refill thread alone, over one bucket: what the loop of `nlsim_alloc_thread` (lines 97 to 135) makes of a matrix of packet lengths.
It re-arms the slots of a row one after the other, each behind the bytes that it holds, and notes when a slot is beyond the limit;
at the end of the row it goes to the next row, or closes the bucket. The batches in which it does so, and the waiting for the
other thread, have no influence on the places (`Config.armSlot_steps`).
-/

namespace NicRecorder

open Runs

/-- The variables of the refill thread that decide over the places. `pktAddr` are the addresses that it has given to the packets of the
bucket, by row and slot (history). -/
structure Placing where
  supRow : Nat
  glength : Nat → Nat
  maxRow : Nat
  pktAddr : Nat → Nat → Nat

/-- The refill thread when it comes to a bucket. The lengths of the slots are those of an earlier bucket. -/
def Placing.start (glength : Nat → Nat) : Placing := ⟨0, glength, 0, fun _ _ => 0⟩

/-- One slot of the row (lines 102 to 110, and 115 to 118 in the first row). -/
def Config.armSlot (c : Config) (cur : Nat) (len : Nat → Nat → Nat) (s : Placing) (slot : Nat) : Placing :=
  let g := if s.supRow = 0 then 0 else (s.glength slot + len (s.supRow - 1) slot) % 2 ^ 32
  { s with
    glength := Function.update s.glength slot g
    maxRow := if s.supRow ≠ 0 ∧ c.byteLimit < g then c.rowEnd s.supRow else s.maxRow
    pktAddr := Function.update s.pktAddr s.supRow
      (Function.update (s.pktAddr s.supRow) slot (cur * 2 ^ 30 ||| c.slotOffset slot g)) }

/-- One row, and the test at its end (lines 123 to 135): the bucket is closed, with `max_row` packets, when that is set. -/
def Config.armRow (c : Config) (cur : Nat) (len : Nat → Nat → Nat) (s : Placing) : Placing × Option Nat :=
  let s := (List.range c.numRxSlots).foldl (c.armSlot cur len) s
  let s := { s with supRow := (s.supRow + 1) % 2 ^ 16 }
  if s.maxRow = 0 then (s, none) else (s, some s.maxRow)

/-! ## The refill thread does this -/

section Thread

variable (c : Config)

/-- An access of the refill thread. -/
def Config.AllocAccess (d d' : Driver) : Prop := c.allocStep d = some d'

/-- What the refill thread knows of the places of its bucket. -/
def Driver.placing (d : Driver) : Placing := ⟨d.alloc.supRow, d.alloc.glength, d.maxRow, fun _ _ => 0⟩

/-- The two accesses that re-arm the descriptor. -/
theorem Config.rearm_steps {d : Driver} (hpc : d.alloc.pc = .clearHdr) :
    ∃ d', Relation.ReflTransGen c.AllocAccess d d' ∧
      d'.alloc.glength = (if d.alloc.supRow = 0 then Function.update d.alloc.glength d.alloc.supPartial 0 else d.alloc.glength) ∧
      d'.maxRow = d.maxRow ∧ d'.alloc.supPartial = d.alloc.supPartial + 1 ∧
      (d'.ring d.alloc.supPartial).pktAddr =
        d.alloc.cur * 2 ^ 30 ||| c.slotOffset d.alloc.supPartial (d'.alloc.glength d.alloc.supPartial) := by
  obtain ⟨d1, h1, hpc1, hrest⟩ : ∃ d1, c.allocStep d = some d1 ∧ d1.alloc.pc = .setAddr ∧
      d1.alloc.glength = (if d.alloc.supRow = 0 then Function.update d.alloc.glength d.alloc.supPartial 0 else d.alloc.glength) ∧
      d1.maxRow = d.maxRow ∧ d1.alloc.supPartial = d.alloc.supPartial ∧ d1.alloc.cur = d.alloc.cur := by
    simp [Config.allocStep, hpc]
  obtain ⟨hg, hm, hsp, hcur⟩ := hrest
  obtain ⟨d2, h2, hg2, hm2, hsp2, haddr⟩ : ∃ d2, c.allocStep d1 = some d2 ∧ d2.alloc.glength = d1.alloc.glength ∧
      d2.maxRow = d1.maxRow ∧ d2.alloc.supPartial = d1.alloc.supPartial + 1 ∧
      (d2.ring d1.alloc.supPartial).pktAddr =
        d1.alloc.cur * 2 ^ 30 ||| c.slotOffset d1.alloc.supPartial (d1.alloc.glength d1.alloc.supPartial) := by
    simp [Config.allocStep, hpc1]
  refine ⟨d2, Relation.ReflTransGen.head h1 (Relation.ReflTransGen.single h2), hg2.trans hg, hm2.trans hm, by rw [hsp2, hsp], ?_⟩
  rw [hg2, ← hsp, haddr, hcur]

/-- The accesses of the refill thread for one slot, made without a break, are `armSlot` on the lengths that stand in its bucket. -/
theorem Config.armSlot_steps {d : Driver} (hpc : d.alloc.pc = slotPc d.alloc.supRow) :
    let p := c.armSlot d.alloc.cur (fun row slot => d.board.lens d.alloc.cur (row * c.numRxSlots + slot)) d.placing
      d.alloc.supPartial
    ∃ d', Relation.ReflTransGen c.AllocAccess d d' ∧ d'.alloc.glength = p.glength ∧ d'.maxRow = p.maxRow ∧
      (d'.ring d.alloc.supPartial).pktAddr = p.pktAddr d.alloc.supRow d.alloc.supPartial ∧
      d'.alloc.supPartial = d.alloc.supPartial + 1 := by
  intro p
  by_cases hr : d.alloc.supRow = 0
  · -- the first row: the slot is empty
    rw [slotPc, if_pos hr] at hpc
    obtain ⟨d', hrun, hg, hm, hsp, haddr⟩ := c.rearm_steps hpc
    rw [if_pos hr] at hg
    refine ⟨d', hrun, ?_, ?_, ?_, hsp⟩
    · simpa [p, Config.armSlot, Driver.placing, hr] using hg
    · simpa [p, Config.armSlot, Driver.placing, hr] using hm
    · rw [haddr, hg]
      simp [p, Config.armSlot, Driver.placing, hr]
  · rw [slotPc, if_neg hr] at hpc
    obtain ⟨d1, h1, hpc1, hg1, hm1, hsp1, hcur1, hr1⟩ : ∃ d1, c.allocStep d = some d1 ∧
        d1.alloc.pc = (if c.byteLimit < c.grown d then .setCaptured else .clearHdr) ∧
        d1.alloc.glength = Function.update d.alloc.glength d.alloc.supPartial (c.grown d) ∧ d1.maxRow = d.maxRow ∧
        d1.alloc.supPartial = d.alloc.supPartial ∧ d1.alloc.cur = d.alloc.cur ∧ d1.alloc.supRow = d.alloc.supRow := by
      simp [Config.allocStep, hpc]
    have hgrown : c.grown d = (d.alloc.glength d.alloc.supPartial +
        d.board.lens d.alloc.cur ((d.alloc.supRow - 1) * c.numRxSlots + d.alloc.supPartial)) % 2 ^ 32 := rfl
    -- a slot beyond the limit takes two more accesses
    obtain ⟨d2, h2, hpc2, hg2, hm2, hsp2, hcur2, hr2⟩ : ∃ d2, Relation.ReflTransGen c.AllocAccess d1 d2 ∧ d2.alloc.pc = .clearHdr ∧
        d2.alloc.glength = d1.alloc.glength ∧
        d2.maxRow = (if c.byteLimit < c.grown d then c.rowEnd d1.alloc.supRow else d1.maxRow) ∧
        d2.alloc.supPartial = d1.alloc.supPartial ∧ d2.alloc.cur = d1.alloc.cur ∧ d2.alloc.supRow = d1.alloc.supRow := by
      by_cases hlim : c.byteLimit < c.grown d
      · rw [if_pos hlim] at hpc1
        obtain ⟨e1, he1, hq1, e1g, e1sp, e1cur, e1r⟩ : ∃ e1, c.allocStep d1 = some e1 ∧ e1.alloc.pc = .setMaxRow ∧
            e1.alloc.glength = d1.alloc.glength ∧ e1.alloc.supPartial = d1.alloc.supPartial ∧ e1.alloc.cur = d1.alloc.cur ∧
            e1.alloc.supRow = d1.alloc.supRow := by
          simp [Config.allocStep, hpc1]
        obtain ⟨e2, he2, hq2, e2g, e2m, e2sp, e2cur, e2r⟩ : ∃ e2, c.allocStep e1 = some e2 ∧ e2.alloc.pc = .clearHdr ∧
            e2.alloc.glength = e1.alloc.glength ∧ e2.maxRow = c.rowEnd e1.alloc.supRow ∧
            e2.alloc.supPartial = e1.alloc.supPartial ∧ e2.alloc.cur = e1.alloc.cur ∧ e2.alloc.supRow = e1.alloc.supRow := by
          simp [Config.allocStep, hq1]
        refine ⟨e2, Relation.ReflTransGen.head he1 (Relation.ReflTransGen.single he2), hq2, e2g.trans e1g, ?_,
          e2sp.trans e1sp, e2cur.trans e1cur, e2r.trans e1r⟩
        rw [if_pos hlim, e2m, e1r]
      · rw [if_neg hlim] at hpc1
        exact ⟨d1, Relation.ReflTransGen.refl, hpc1, rfl, (if_neg hlim).symm, rfl, rfl, rfl⟩
    obtain ⟨d3, h3, hg3, hm3, hsp3, haddr⟩ := c.rearm_steps hpc2
    rw [hr2, hr1, if_neg hr, hg2, hg1] at hg3
    refine ⟨d3, Relation.ReflTransGen.head h1 (h2.trans h3), ?_, ?_, ?_, by rw [hsp3, hsp2, hsp1]⟩
    · rw [hg3, hgrown]
      simp [p, Config.armSlot, Driver.placing, hr]
    · rw [hm3, hm2, hm1, hr1, hgrown]
      simp [p, Config.armSlot, Driver.placing, hr]
    · rw [hsp2, hsp1, hcur2, hcur1, hg3, hgrown] at haddr
      rw [haddr]
      simp [p, Config.armSlot, Driver.placing, hr]

end Thread

end NicRecorder
