import Mathlib.Algebra.Group.Int.Defs
import Mathlib.Algebra.Group.Nat.Defs
import Mathlib.Data.List.TakeWhile
import Mathlib.Logic.Basic

/-!
# Reading a text file line by line

What the C library does with a text: `fgets` cuts off a line, or a piece of one that is longer than the buffer, and `sscanf` scans
the piece for numbers and words. A text is a list of bytes, and a piece ends with its first zero byte for `sscanf`. Each of the two
conversions is described by the form of what it accepts (`scanInt_iff`, `scanWord_iff`).
-/

namespace Scan

/-! ## Lines -/

/-- The bytes up to the end of the line, at most `n`, and the rest. The newline belongs to the line. -/
def takeLine : Nat → List UInt8 → List UInt8 × List UInt8
  | 0, text => ([], text)
  | _ + 1, [] => ([], [])
  | n + 1, b :: text => if b = 10 then ([b], text) else (b :: (takeLine n text).1, (takeLine n text).2)

/-- `fgets (buffer, size, file)`: what is stored in the buffer, and the rest of the file; none at the end of the file. -/
def fgets (size : Nat) (text : List UInt8) : Option (List UInt8 × List UInt8) :=
  if text = [] then none else some (takeLine (size - 1) text)

/-- What call number `i` of `fgets` stores, from the beginning of the file on. -/
def nthLine (size : Nat) : Nat → List UInt8 → Option (List UInt8)
  | 0, text => (fgets size text).map Prod.fst
  | i + 1, text => (fgets size text).bind fun r => nthLine size i r.2

/-- Line `i` of a text: `fgets` with a buffer that no line fills. -/
def textLine (i : Nat) (text : List UInt8) : Option (List UInt8) := nthLine (text.length + 2) i text

section Lines

variable {size n m i : Nat} {text line rest : List UInt8}

/-- A text without a newline that fits the buffer is one line. -/
theorem takeLine_of_no_newline (hlen : text.length ≤ n) (h : ∀ b ∈ text, b ≠ 10) : takeLine n text = (text, []) := by
  induction text generalizing n with
  | nil => cases n <;> rfl
  | cons b text ih =>
    cases n with
    | zero => exact absurd hlen (Nat.not_succ_le_zero _)
    | succ n =>
      rw [takeLine, if_neg (h b List.mem_cons_self),
        ih (Nat.le_of_succ_le_succ hlen) fun x hx => h x (List.mem_cons_of_mem b hx)]

theorem nthLine_zero (h : fgets size text = some (line, rest)) : nthLine size 0 text = some line := by
  rw [nthLine, h]
  rfl

theorem nthLine_succ (h : fgets size text = some (line, rest)) (i : Nat) : nthLine size (i + 1) text = nthLine size i rest := by
  rw [nthLine, h]
  rfl

end Lines

/-! ## Numbers and words -/

/-- `isspace`: the blank, and the bytes from the tabulator to the carriage return. -/
def isSpace (b : UInt8) : Bool := b == 32 || (9 ≤ b && b ≤ 13)

def isDigit (b : UInt8) : Bool := 48 ≤ b && b ≤ 57

/-- A buffer as a string: the bytes before the first zero. -/
def cstr (buffer : List UInt8) : List UInt8 := buffer.takeWhile (· != 0)

/-- An integer in 32 bits, with a sign. -/
def wrap32 (n : Int) : Int := Int.bmod n (2 ^ 32)

/-- A number of any length as an `int`: the library converts it to the nearest `long`, and takes the low 32 bits of that. -/
def toInt (n : Int) : Int := wrap32 (max (-2 ^ 63) (min (2 ^ 63 - 1) n))

/-- The number that decimal digits stand for. -/
def digitsVal (ds : List UInt8) : Nat := ds.foldl (fun n b => 10 * n + (b.toNat - 48)) 0

/-- The sign before a number. -/
def sign : List UInt8 → List UInt8
  | 45 :: _ => [45]
  | 43 :: _ => [43]
  | _ => []

/-- A sign and a number. -/
def signedVal (sgn : List UInt8) (n : Nat) : Int := if sgn = [45] then -n else n

/-- The conversion `%d`: blanks are skipped, then there are a sign or none, and digits. The number, and the rest of the string. -/
def scanInt (s : List UInt8) : Option (Int × List UInt8) :=
  let s := s.dropWhile isSpace
  let ds := (s.drop (sign s).length).takeWhile isDigit
  if ds = [] then none
  else some (toInt (signedVal (sign s) (digitsVal ds)), (s.drop (sign s).length).dropWhile isDigit)

/-- The conversion `%s`: blanks are skipped, then there are other bytes. The word, and the rest of the string. -/
def scanWord (s : List UInt8) : Option (List UInt8 × List UInt8) :=
  let s := s.dropWhile isSpace
  if s.takeWhile (!isSpace ·) = [] then none else some (s.takeWhile (!isSpace ·), s.dropWhile (!isSpace ·))

section Conversions

variable {p : UInt8 → Bool} {s a r w rest : List UInt8} {n : Int}

/-- A string does not begin with a byte of a kind. -/
def Stops (p : UInt8 → Bool) (s : List UInt8) : Prop := ∀ b ∈ s.head?, p b = false

/-- The longest run of bytes of a kind, by its form. -/
theorem span_iff : s.takeWhile p = a ∧ s.dropWhile p = r ↔ s = a ++ r ∧ (∀ b ∈ a, p b = true) ∧ Stops p r := by
  constructor
  · rintro ⟨rfl, rfl⟩
    refine ⟨List.takeWhile_append_dropWhile.symm, fun b hb => List.mem_takeWhile_imp hb, fun b hb => ?_⟩
    have hhead := List.head?_dropWhile_not p s
    rwa [hb] at hhead
  · rintro ⟨rfl, ha, hr⟩
    rw [List.takeWhile_append_of_pos ha, List.dropWhile_append_of_pos ha]
    cases r with
    | nil => exact ⟨List.append_nil a, rfl⟩
    | cons b r =>
      have hb := hr b rfl
      rw [List.takeWhile_cons_of_neg (by simp [hb]), List.dropWhile_cons_of_neg (by simp [hb]), List.append_nil]
      exact ⟨rfl, rfl⟩

theorem isSpace_of_isDigit {b : UInt8} (h : isDigit b = true) : isSpace b = false := by
  simp only [isDigit, isSpace, Bool.and_eq_true, decide_eq_true_eq, UInt8.le_iff_toNat_le] at h ⊢
  have h32 : (b == 32) = false := beq_false_of_ne fun hb => by rw [hb] at h; exact absurd h.1 (by decide)
  have h13 : ¬b.toNat ≤ UInt8.toNat 13 := Nat.not_le.mpr (Nat.lt_of_lt_of_le (by decide) h.1)
  rw [h32, decide_eq_false h13, Bool.and_false, Bool.or_false]

theorem sign_of_isDigit {b : UInt8} (h : isDigit b = true) (s : List UInt8) : sign (b :: s) = [] := by
  unfold sign
  split
  · next heq => cases heq; exact absurd h (by decide)
  · next heq => cases heq; exact absurd h (by decide)
  · rfl

/-- The sign is the beginning of the string. -/
theorem sign_append_drop (s : List UInt8) : sign s ++ s.drop (sign s).length = s := by
  unfold sign
  split <;> rfl

theorem sign_cases (s : List UInt8) : sign s = [] ∨ sign s = [43] ∨ sign s = [45] := by
  unfold sign
  split
  · exact Or.inr (Or.inr rfl)
  · exact Or.inr (Or.inl rfl)
  · exact Or.inl rfl

/-- A number by its form: blanks, a sign or none, and all digits that follow. -/
def IntForm (s : List UInt8) (n : Int) (rest : List UInt8) : Prop :=
  ∃ blanks sgn ds, s = blanks ++ (sgn ++ (ds ++ rest)) ∧ (∀ b ∈ blanks, isSpace b = true) ∧ (sgn = [] ∨ sgn = [43] ∨ sgn = [45]) ∧
    ds ≠ [] ∧ (∀ b ∈ ds, isDigit b = true) ∧ Stops isDigit rest ∧ n = toInt (signedVal sgn (digitsVal ds))

/-- A word by its form: blanks, and all other bytes that follow. -/
def WordForm (s w rest : List UInt8) : Prop :=
  ∃ blanks, s = blanks ++ (w ++ rest) ∧ (∀ b ∈ blanks, isSpace b = true) ∧ w ≠ [] ∧ (∀ b ∈ w, isSpace b = false) ∧
    Stops (!isSpace ·) rest

theorem scanInt_iff : scanInt s = some (n, rest) ↔ IntForm s n rest := by
  constructor
  · intro h
    unfold scanInt at h
    simp only at h
    split at h
    · cases h
    · next hds =>
      obtain ⟨hn, hrest⟩ := Prod.mk.inj (Option.some.inj h)
      obtain ⟨hs, hblank, -⟩ := (span_iff (p := isSpace) (s := s)).mp ⟨rfl, rfl⟩
      obtain ⟨hs', hdigit, hstop⟩ := (span_iff (p := isDigit)).mp ⟨rfl, hrest⟩
      refine ⟨_, sign (s.dropWhile isSpace), _, ?_, hblank, sign_cases _, hds, hdigit, hstop, hn.symm⟩
      rw [← hs', sign_append_drop]
      exact hs
  · rintro ⟨blanks, sgn, ds, rfl, hblank, hsgn, hds, hdigit, hstop, rfl⟩
    obtain ⟨d, ds, rfl⟩ := List.exists_cons_of_ne_nil hds
    have hd := hdigit d List.mem_cons_self
    have hspan : Stops isSpace (sgn ++ (d :: ds ++ rest)) := by
      rcases hsgn with rfl | rfl | rfl
      · intro b hb
        cases hb
        exact isSpace_of_isDigit hd
      · intro b hb
        cases hb
        rfl
      · intro b hb
        cases hb
        rfl
    have hsign : sign (sgn ++ (d :: ds ++ rest)) = sgn := by
      rcases hsgn with rfl | rfl | rfl
      · exact sign_of_isDigit hd _
      · rfl
      · rfl
    obtain ⟨h1, h2⟩ := (span_iff (p := isDigit)).mpr ⟨rfl, hdigit, hstop⟩
    rw [scanInt, (span_iff.mpr ⟨rfl, hblank, hspan⟩).2]
    simp only [hsign, List.drop_left]
    rw [h1, h2, if_neg hds]

theorem scanWord_iff : scanWord s = some (w, rest) ↔ WordForm s w rest := by
  constructor
  · intro h
    unfold scanWord at h
    simp only at h
    split at h
    · cases h
    · next hw =>
      obtain ⟨h1, h2⟩ := Prod.mk.inj (Option.some.inj h)
      obtain ⟨hs, hblank, -⟩ := (span_iff (p := isSpace) (s := s)).mp ⟨rfl, rfl⟩
      obtain ⟨hs', hword, hstop⟩ := (span_iff (p := (!isSpace ·))).mp ⟨h1, h2⟩
      refine ⟨_, ?_, hblank, h1 ▸ hw, fun b hb => ?_, hstop⟩
      · rw [← hs']
        exact hs
      · simpa using hword b hb
  · rintro ⟨blanks, rfl, hblank, hw, hword, hstop⟩
    obtain ⟨c, w, rfl⟩ := List.exists_cons_of_ne_nil hw
    have hspan : Stops isSpace (c :: w ++ rest) := by
      intro b hb
      cases hb
      exact hword c List.mem_cons_self
    obtain ⟨h1, h2⟩ := (span_iff (p := (!isSpace ·))).mpr ⟨rfl, fun b hb => by simp [hword b hb], hstop⟩
    rw [scanWord, (span_iff.mpr ⟨rfl, hblank, hspan⟩).2, h1, h2, if_neg hw]

end Conversions

end Scan
