import NicRecorder.Lib.Bytes

/-!
# Files

A file is its bytes; an open file adds a position. `write` overwrites from the position on and leaves what lies behind the
bytes written as it was (a file opened without truncation keeps its old tail), `read` returns at most the bytes asked for, and
both move the position. Transfers are complete: a short read happens only at the end of the file.
-/

namespace ByteMem

/-- An open file: its content and the position of the next transfer. -/
structure OpenFile where
  content : List UInt8
  pos : Nat

/-- Open a file that holds `old` (no bytes when it is created), without truncating it. -/
def OpenFile.opened (old : List UInt8) : OpenFile := ⟨old, 0⟩

/-- Write bytes at the position. A gap behind the old end is filled with zeros. -/
def OpenFile.write (f : OpenFile) (bs : List UInt8) : OpenFile :=
  ⟨f.content.take f.pos ++ List.replicate (f.pos - f.content.length) 0 ++ bs ++ f.content.drop (f.pos + bs.length),
    f.pos + bs.length⟩

/-- Read at most `n` bytes at the position: the bytes, and the file after the read. -/
def OpenFile.read (f : OpenFile) (n : Nat) : List UInt8 × OpenFile :=
  ((f.content.drop f.pos).take n, ⟨f.content, f.pos + ((f.content.drop f.pos).take n).length⟩)

/-- Move the position to the start of the file. -/
def OpenFile.rewind (f : OpenFile) : OpenFile := ⟨f.content, 0⟩

/-- The file after bytes have been written from its start on: the bytes, and the old tail behind them. -/
def OpenFile.over (old bs : List UInt8) : OpenFile := ⟨bs ++ old.drop bs.length, bs.length⟩

theorem opened_eq_over (old : List UInt8) : OpenFile.opened old = OpenFile.over old [] := by
  simp [OpenFile.opened, OpenFile.over]

/-- Writing on after `bs` gives the file written with `bs` and the new bytes. -/
theorem over_write (old bs cs : List UInt8) : (OpenFile.over old bs).write cs = OpenFile.over old (bs ++ cs) := by
  simp only [OpenFile.over, OpenFile.write, OpenFile.mk.injEq, List.length_append, and_true]
  have h1 : (bs ++ old.drop bs.length).take bs.length = bs := by simp
  have h2 : bs.length - (bs.length + (old.drop bs.length).length) = 0 := by omega
  have h3 : (bs ++ old.drop bs.length).drop (bs.length + cs.length) = old.drop (bs.length + cs.length) := by
    rw [List.drop_append, List.drop_eq_nil_of_le (by omega), List.nil_append, Nat.add_sub_cancel_left, List.drop_drop]
  rw [h1, h2, h3]
  simp

/-- What a write puts before the bytes written ends at the position. -/
theorem write_before_length (f : OpenFile) :
    (f.content.take f.pos ++ List.replicate (f.pos - f.content.length) 0).length = f.pos := by
  rw [List.length_append, List.length_take, List.length_replicate]
  omega

/-- A byte in the range of a write is the byte written. -/
theorem write_getElem?_inside (f : OpenFile) (bs : List UInt8) {i : Nat} (h1 : f.pos ≤ i) (h2 : i < f.pos + bs.length) :
    (f.write bs).content[i]? = bs[i - f.pos]? := by
  have hlen := write_before_length f
  unfold OpenFile.write
  rw [List.getElem?_append_left (by rw [List.length_append, hlen]; exact h2), List.getElem?_append_right (by rw [hlen]; exact h1),
    hlen]

/-- A byte of the file outside the range of a write stays. -/
theorem write_getElem?_outside (f : OpenFile) (bs : List UInt8) {i : Nat} {v : UInt8} (hv : f.content[i]? = some v)
    (h : i < f.pos ∨ f.pos + bs.length ≤ i) : (f.write bs).content[i]? = some v := by
  have hlen := write_before_length f
  have hi := (List.getElem?_eq_some_iff.mp hv).1
  unfold OpenFile.write
  rcases h with h | h
  · rw [List.append_assoc, List.getElem?_append_left (by rw [hlen]; exact h),
      List.getElem?_append_left (by rw [List.length_take]; omega), List.getElem?_take_of_lt h, hv]
  · rw [List.getElem?_append_right (by rw [List.length_append, hlen]; exact h), List.length_append, hlen, List.getElem?_drop,
      Nat.add_sub_of_le h, hv]

/-- Two reads from the start of a file that begins with two pieces give the pieces. -/
theorem read_pieces (as bs cs : List UInt8) {n k : Nat} (hn : as.length = n) (hk : bs.length = k) :
    ((OpenFile.mk (as ++ bs ++ cs) 0).read n).1 = as ∧
      (((OpenFile.mk (as ++ bs ++ cs) 0).read n).2.read k).1 = bs := by
  subst hn hk
  simp [OpenFile.read, List.append_assoc]

/-- The first `n` bytes of a file are there, and each of them is as `P` says of its place. -/
def Written (P : Nat → UInt8 → Prop) (file : List UInt8) (n : Nat) : Prop := ∀ y < n, ∃ v, file[y]? = some v ∧ P y v

theorem written_zero (P : Nat → UInt8 → Prop) (file : List UInt8) : Written P file 0 := fun _ h => absurd h (Nat.not_lt_zero _)

theorem Written.length_le {P : Nat → UInt8 → Prop} {file : List UInt8} {n : Nat} (h : Written P file n) : n ≤ file.length := by
  by_contra hlt
  obtain ⟨v, hv, -⟩ := h file.length (by omega)
  rw [List.getElem?_eq_none (Nat.le_refl _)] at hv
  cases hv

/-- Writing on from there keeps it, when the bytes written are as `P` says. -/
theorem Written.write {P : Nat → UInt8 → Prop} (f : OpenFile) (bs : List UInt8) (h : Written P f.content f.pos)
    (hb : ∀ k v, bs[k]? = some v → P (f.pos + k) v) : Written P (f.write bs).content (f.pos + bs.length) := by
  intro y hy
  rcases Nat.lt_or_ge y f.pos with hlt | hge
  · obtain ⟨v, hv, hP⟩ := h y hlt
    exact ⟨v, write_getElem?_outside f bs hv (Or.inl hlt), hP⟩
  · obtain ⟨k, rfl⟩ := Nat.exists_eq_add_of_le hge
    have hk : k < bs.length := by omega
    have hv := List.getElem?_eq_getElem hk
    refine ⟨bs[k], ?_, hb k _ hv⟩
    rw [write_getElem?_inside f bs hge hy, Nat.add_sub_cancel_left, hv]

end ByteMem
