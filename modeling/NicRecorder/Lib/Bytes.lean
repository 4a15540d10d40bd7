import Mathlib.Data.List.Basic
import Mathlib.Tactic.Linarith

/-!
# Byte memory

A memory is a total function from addresses to bytes. `Mem.load` reads a run of bytes, `Mem.store` overwrites one, and a
fixed-width unsigned integer is stored as its little-endian bytes. The lemmas are the two facts every proof about a layout
uses: a load sees the store at its own range, and it does not see a store at a range disjoint from its own.
-/

namespace ByteMem

/-- A memory: a byte for every address. -/
abbrev Mem : Type := Nat → UInt8

/-- The `n` bytes from address `a` on. -/
def Mem.load (m : Mem) (a n : Nat) : List UInt8 := (List.range n).map fun k => m (a + k)

/-- The memory with the bytes `bs` written from address `a` on. -/
def Mem.store (m : Mem) (a : Nat) (bs : List UInt8) : Mem :=
  fun x => if a ≤ x ∧ x < a + bs.length then bs.getD (x - a) 0 else m x

@[simp] theorem load_length (m : Mem) (a n : Nat) : (m.load a n).length = n := by
  simp [Mem.load]

theorem load_getElem (m : Mem) (a n i : Nat) (h : i < (m.load a n).length) : (m.load a n)[i] = m (a + i) := by
  simp [Mem.load]

/-- Two memories that agree on a range give the same bytes there. -/
theorem load_congr {m m' : Mem} {a n : Nat} (h : ∀ x, a ≤ x → x < a + n → m x = m' x) : m.load a n = m'.load a n := by
  apply List.map_congr_left
  intro k hk
  exact h (a + k) (by omega) (by have := List.mem_range.mp hk; omega)

/-- Two ranges with the same bytes, at different places. -/
theorem load_congr_at {m m' : Mem} {a b n : Nat} (h : ∀ k < n, m (a + k) = m' (b + k)) : m.load a n = m'.load b n := by
  apply List.map_congr_left
  intro k hk
  exact h k (List.mem_range.mp hk)

/-- A byte outside the written range is unchanged. -/
theorem store_outside (m : Mem) (a : Nat) (bs : List UInt8) (x : Nat) (h : x < a ∨ a + bs.length ≤ x) :
    m.store a bs x = m x := by
  simp only [Mem.store]
  rw [if_neg (by omega)]

@[simp] theorem store_nil (m : Mem) (a : Nat) : m.store a [] = m := by
  funext x
  exact store_outside m a [] x (by rw [List.length_nil]; omega)

/-- A byte inside the written range is the byte written there. -/
theorem store_inside (m : Mem) (a : Nat) (bs : List UInt8) (k : Nat) (h : k < bs.length) :
    m.store a bs (a + k) = bs[k] := by
  simp only [Mem.store]
  rw [if_pos (by omega), Nat.add_sub_cancel_left]
  simp [List.getD, h]

/-- A load of the range just stored gives the bytes stored. -/
theorem load_store_same (m : Mem) (a : Nat) (bs : List UInt8) : (m.store a bs).load a bs.length = bs := by
  apply List.ext_getElem
  · simp
  · intro i h1 h2
    rw [load_getElem, store_inside m a bs i h2]

/-- A load inside the range just stored gives a part of the bytes stored. -/
theorem load_store_inside (m : Mem) (a : Nat) (bs : List UInt8) {i n : Nat} (h : i + n ≤ bs.length) :
    (m.store a bs).load (a + i) n = (bs.drop i).take n := by
  apply List.ext_getElem
  · rw [load_length, List.length_take, List.length_drop]
    omega
  · intro k h1 h2
    rw [load_length] at h1
    rw [load_getElem, Nat.add_assoc, store_inside m a bs (i + k) (by omega), List.getElem_take, List.getElem_drop]

/-- A load of a range disjoint from the one stored gives the old bytes. -/
theorem load_store_disjoint (m : Mem) (a : Nat) (bs : List UInt8) (b n : Nat) (h : b + n ≤ a ∨ a + bs.length ≤ b) :
    (m.store a bs).load b n = m.load b n := by
  apply load_congr
  intro x h1 h2
  exact store_outside m a bs x (by omega)

/-- A load that lies inside a store of the bytes of another memory sees that other memory. -/
theorem load_store_load (m m' : Mem) (a n b k : Nat) (h1 : a ≤ b) (h2 : b + k ≤ a + n) :
    (m.store a (m'.load a n)).load b k = m'.load b k := by
  apply load_congr
  intro x hx1 hx2
  obtain ⟨i, rfl⟩ := Nat.exists_eq_add_of_le (Nat.le_trans h1 hx1)
  have hi : i < (m'.load a n).length := by simp; omega
  rw [store_inside m a _ i hi, load_getElem]

/-- Two loads of adjacent ranges are one load. -/
theorem load_append (m : Mem) (a k n : Nat) : m.load a k ++ m.load (a + k) n = m.load a (k + n) := by
  simp only [Mem.load, List.range_add, List.map_append, List.map_map]
  congr 1
  apply List.map_congr_left
  intro x _
  simp [Nat.add_assoc]

/-- The first bytes of a load are a shorter load. -/
theorem load_take (m : Mem) (a : Nat) {k n : Nat} (h : n ≤ k) : (m.load a k).take n = m.load a n := by
  rw [Mem.load, ← List.map_take, List.take_range, Nat.min_eq_left h]
  rfl

/-! ## Unsigned integers, little-endian -/

/-- The `n` little-endian bytes of a number; what does not fit is cut off. -/
def leBytes : Nat → Nat → List UInt8
  | 0, _ => []
  | n + 1, v => UInt8.ofNat v :: leBytes n (v / 256)

/-- The number that little-endian bytes stand for. -/
def leNat : List UInt8 → Nat
  | [] => 0
  | b :: bs => b.toNat + 256 * leNat bs

@[simp] theorem leBytes_length (n v : Nat) : (leBytes n v).length = n := by
  induction n generalizing v with
  | zero => rfl
  | succ n ih => simp [leBytes, ih]

/-- A number that fits its width is read back from its bytes. -/
theorem leNat_leBytes (n v : Nat) (h : v < 256 ^ n) : leNat (leBytes n v) = v := by
  induction n generalizing v with
  | zero => simp only [Nat.pow_zero] at h; simp only [leBytes, leNat]; omega
  | succ n ih =>
    have hq : v / 256 < 256 ^ n := by
      rw [Nat.pow_succ] at h
      exact Nat.div_lt_of_lt_mul (by omega)
    simp only [leBytes, leNat, ih _ hq, UInt8.toNat_ofNat']
    omega

/-- Bytes are got back from the number that they stand for. -/
theorem leBytes_leNat (bs : List UInt8) : leBytes bs.length (leNat bs) = bs := by
  induction bs with
  | nil => rfl
  | cons b bs ih =>
    have hb : b.toNat < 256 := b.toNat_lt
    have hmod : UInt8.ofNat (b.toNat + 256 * leNat bs) = b := by
      apply UInt8.toNat_inj.mp
      rw [UInt8.toNat_ofNat']
      omega
    have hdiv : (b.toNat + 256 * leNat bs) / 256 = leNat bs := by omega
    rw [List.length_cons, leNat, leBytes, hmod, hdiv, ih]

/-- The 16-bit unsigned integer at an address. -/
def Mem.load16 (m : Mem) (a : Nat) : Nat := leNat (m.load a 2)

/-- The 32-bit unsigned integer at an address. -/
def Mem.load32 (m : Mem) (a : Nat) : Nat := leNat (m.load a 4)

/-- Store a 16-bit unsigned integer. -/
def Mem.store16 (m : Mem) (a v : Nat) : Mem := m.store a (leBytes 2 v)

/-- Store a 32-bit unsigned integer. -/
def Mem.store32 (m : Mem) (a v : Nat) : Mem := m.store a (leBytes 4 v)

theorem load16_store16_same (m : Mem) (a v : Nat) (h : v < 2 ^ 16) : (m.store16 a v).load16 a = v := by
  have hl : (m.store a (leBytes 2 v)).load a 2 = leBytes 2 v := by
    simpa using load_store_same m a (leBytes 2 v)
  rw [Mem.load16, Mem.store16, hl]
  exact leNat_leBytes 2 v (by omega)

theorem load32_store32_same (m : Mem) (a v : Nat) (h : v < 2 ^ 32) : (m.store32 a v).load32 a = v := by
  have hl : (m.store a (leBytes 4 v)).load a 4 = leBytes 4 v := by
    simpa using load_store_same m a (leBytes 4 v)
  rw [Mem.load32, Mem.store32, hl]
  exact leNat_leBytes 4 v (by omega)

theorem load16_store_disjoint (m : Mem) (a : Nat) (bs : List UInt8) (b : Nat) (h : b + 2 ≤ a ∨ a + bs.length ≤ b) :
    (m.store a bs).load16 b = m.load16 b := by
  rw [Mem.load16, Mem.load16, load_store_disjoint m a bs b 2 h]

theorem load32_store_disjoint (m : Mem) (a : Nat) (bs : List UInt8) (b : Nat) (h : b + 4 ≤ a ∨ a + bs.length ≤ b) :
    (m.store a bs).load32 b = m.load32 b := by
  rw [Mem.load32, Mem.load32, load_store_disjoint m a bs b 4 h]

/-- The integers of two memories that agree on a range are the same there. -/
theorem load16_congr {m m' : Mem} {a : Nat} (h : m.load a 2 = m'.load a 2) : m.load16 a = m'.load16 a := by
  rw [Mem.load16, Mem.load16, h]

theorem load32_congr {m m' : Mem} {a : Nat} (h : m.load a 4 = m'.load a 4) : m.load32 a = m'.load32 a := by
  rw [Mem.load32, Mem.load32, h]

/-- Two memories with the same bytes in a range agree there. -/
theorem eq_of_load_eq {m m' : Mem} {a n x : Nat} (h : m.load a n = m'.load a n) (h1 : a ≤ x) (h2 : x < a + n) : m x = m' x := by
  obtain ⟨k, rfl⟩ := Nat.exists_eq_add_of_le h1
  have hk : k < n := by omega
  have hm := load_getElem m a n k (by rw [load_length]; exact hk)
  have hm' := load_getElem m' a n k (by rw [load_length]; exact hk)
  rw [← hm, ← hm']
  simp only [h]

/-- Two memories with the same integer in a range agree there. -/
theorem load_eq_of_leNat_eq {m m' : Mem} {a n : Nat} (h : leNat (m.load a n) = leNat (m'.load a n)) :
    m.load a n = m'.load a n := by
  have hm := leBytes_leNat (m.load a n)
  have hm' := leBytes_leNat (m'.load a n)
  rw [load_length] at hm hm'
  rw [← hm, ← hm', h]

end ByteMem
