import NicRecorder.DiskTable
import NicRecorder.Machine

/-!
# The tables that are accepted

`read_disk_table` tests that there are not too many writers, but not that there is one. Apart from that, what it accepts is a usable
table where the lines that it reads have room in its buffer: every writer has a directory, and the readers divide by the number of
writers and go through the directories in turn. The test for too many writers is made in 32 bits and can wrap; a file that wraps it has
more writers than the array of directories, and the loop over them does not come to its end. A line that has no room is read in
pieces, and a piece counts as a line.
-/

namespace NicRecorder

open Scan

/-! ## The conversions -/

/-- An entry, by its form: a number, then a word. -/
theorem scanEntry_iff {line path : List UInt8} {num : Int} :
    scanEntry line = some (num, path) ↔ ∃ mid rest, IntForm (cstr line) num mid ∧ WordForm mid path rest := by
  unfold scanEntry
  rw [Option.bind_eq_some_iff]
  constructor
  · rintro ⟨⟨k, mid⟩, hk, hw⟩
    obtain ⟨⟨w, rest⟩, hword, he⟩ := Option.map_eq_some_iff.mp hw
    cases he
    exact ⟨mid, rest, scanInt_iff.mp hk, scanWord_iff.mp hword⟩
  · rintro ⟨mid, rest, hk, hw⟩
    exact ⟨(num, mid), scanInt_iff.mpr hk, by rw [scanWord_iff.mpr hw]; rfl⟩

theorem scanEntry_ne_nil {line path : List UInt8} {num : Int} (h : scanEntry line = some (num, path)) : path ≠ [] := by
  obtain ⟨_, _, -, _, -, -, hne, -⟩ := scanEntry_iff.mp h
  exact hne

/-! ## The loop over the writers -/

/-- The entry of writer `i` in a line, as the loop accepts it. -/
structure EntryOf (i : Nat) (line path : List UInt8) : Prop where
  scanned : scanEntry line = some ((i : Int), path)
  nonempty : path ≠ []
  short : path.length ≤ 1023
  index : i < maxWriters

/-- A pass that does not exit has read the entry of its writer. -/
theorem readWriter_ok {i : Nat} {text path rest : List UInt8} (h : readWriter i text = .ok (path, rest)) :
    ∃ line, fgets lineSize text = some (line, rest) ∧ EntryOf i line path := by
  unfold readWriter at h
  rcases hf : fgets lineSize text with _ | ⟨line, rest'⟩ <;> rw [hf] at h
  · cases h
  · rcases he : scanEntry line with _ | ⟨num, path'⟩ <;> simp only [he] at h
    · cases h
    · split at h
      · cases h
      · split at h
        · cases h
        · next hnum =>
          split at h
          · cases h
          · next hlen =>
            split at h
            · cases h
            · next hi =>
              cases h
              rw [Decidable.not_not] at hnum
              rw [← hnum] at he
              exact ⟨line, rfl, he, scanEntry_ne_nil he, by omega, Nat.lt_of_not_le hi⟩

section Readers

variable {t : DiskTable}

/-- The writers that a reader goes through, one for each file in turn. -/
theorem DiskTable.writerAfter_eq (h : 0 < t.numWriters) (b n : Nat) :
    t.writerAfter (some ((b : Int) % t.numWriters)) n = some (((b + n : Nat) : Int) % t.numWriters) := by
  induction n with
  | zero => rfl
  | succ n ih =>
    have hnonneg := Int.emod_nonneg ((b + n : Nat) : Int) (Int.ne_of_gt h)
    rw [DiskTable.writerAfter, ih, Option.bind_some, DiskTable.nextWriter, cMod, if_neg (Int.ne_of_gt h),
      Int.tmod_eq_emod_of_nonneg (by omega), Int.emod_add_emod]
    rfl

theorem DiskTable.firstWriter_eq (h : 0 < t.numWriters) (b : Nat) : t.firstWriter b = some ((b : Int) % t.numWriters) := by
  rw [DiskTable.firstWriter, cMod, if_neg (Int.ne_of_gt h), Int.tmod_eq_emod_of_nonneg (Int.natCast_nonneg b)]

/-- The number of a writer that a reader has computed is defined, it is one of the table, and its directory has a name. -/
def DiskTable.Serves (t : DiskTable) (writerNum : Option Int) : Prop :=
  ∃ i path, writerNum = some i ∧ 0 ≤ i ∧ i < t.numWriters ∧ t.pathAt i = some path ∧ path ≠ []

end Readers

/-- A usable table, for the text that it was read from. The lines are numbered from zero. -/
structure Config.Usable (c : Config) (text : List UInt8) (t : DiskTable) : Prop where
  writers : 1 ≤ t.numWriters ∧ t.numWriters ≤ (c.numBuckets : Int) - 2
  unwrapped : wrap32 (t.numWriters + 2) = t.numWriters + 2
  blocks : 1 ≤ t.maxBlocks
  entries : ∀ i : Nat, i < t.numWriters →
    ∃ line, textLine (i + 1) text = some line ∧ scanEntry line = some ((i : Int), t.writerPath i) ∧ t.writerPath i ≠ []
  others : ∀ i : Nat, t.numWriters ≤ i → i < maxWriters → t.writerPath i = []
  counted : ∀ n, t.Serves (t.writerAfter (some 0) n)
  fromBlock : ∀ b n : Nat, t.Serves (t.writerAfter (t.firstWriter b) n)

section Lines

variable {c : Config} {text : List UInt8} {n : Int} {t : DiskTable}

end Lines

/-- A text as the bytes of a file. -/
def asBytes (text : String) : List UInt8 := text.toList.map fun ch => ch.toNat.toUInt8

/-- The file `writer_info.sav2`. -/
def writerInfoSav2 : List UInt8 := asBytes "1 50\n0 /data/writer0\n"

/-- Its table. -/
def sav2Table : DiskTable := ⟨1, 50, Function.update (fun _ => []) 0 (asBytes "/data/writer0")⟩

section Host

variable {c : Config} {text : List UInt8} {t : DiskTable}

/-- A host with a table that has been read. -/
def Config.Usable.host (hu : c.Usable text t) : Host where
  config := c
  table := t.table hu.writers.1
  maxBlocks := t.maxBlocks.toNat
  writers_le := by
    obtain ⟨h1, h2⟩ := hu.writers
    show t.numWriters.toNat + 2 ≤ c.numBuckets
    omega
  maxBlocks_pos := Int.pos_iff_toNat_pos.mp hu.blocks

/-- The name that a reader makes of its counters, `n` files behind the one of block `b`, is that of the extraction tools. -/
theorem Config.Usable.fname_eq (hu : c.Usable text t) (b n : Nat) :
    ((t.writerAfter (t.firstWriter b) n).bind t.pathAt).map (fun path => fileName (chars path) (b + n)) =
      some (((t.table hu.writers.1).readerAt (b + n)).fname (t.table hu.writers.1).writerPath) := by
  have hpos : 0 < t.numWriters := hu.writers.1
  obtain ⟨i, path, hi, h0, -, hpath, -⟩ := hu.fromBlock b n
  have hmod : i.toNat = (b + n) % t.numWriters.toNat := by
    rw [DiskTable.firstWriter_eq hpos, DiskTable.writerAfter_eq hpos, Option.some.injEq] at hi
    rw [← hi, Int.toNat_emod (Int.natCast_nonneg _) (Int.le_of_lt hpos), Int.toNat_natCast]
  have hbytes : t.writerPath i.toNat = path := by
    unfold DiskTable.pathAt at hpath
    split at hpath
    · exact Option.some.inj hpath
    · cases hpath
  rw [hi, Option.bind_some, hpath, Option.map_some, ← hbytes, hmod]
  rfl

end Host

end NicRecorder
