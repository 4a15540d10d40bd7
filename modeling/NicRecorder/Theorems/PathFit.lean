import NicRecorder.Theorems.DiskTable

/-!
# The sizes of the path buffers

Three sizes meet in a directory of `writer_info.cfg`. A line can have 1198 bytes, the array that `sscanf` stores a word of it in has
1024, and the array in which a program makes the name of a file has 1024 in `todisk` and 256 elsewhere. The length of the word is
tested only when it has been stored, and the length of the name is not tested.
-/

namespace NicRecorder

open Scan

/-- The words that `sscanf` stores have room in `path`, for every line that `fgets` returns. -/
def TokensFit (text : List UInt8) : Prop :=
  ∀ i line num path, nthLine lineSize i text = some line → scanEntry line = some (num, path) → path.length ≤ 1023

/-- The names of files with a directory of the table have room in `fname`, with the zero byte, for every block number. -/
def FileProgram.NamesFit (p : FileProgram) (t : DiskTable) : Prop :=
  ∀ i : Nat, i < t.numWriters → ∀ b < 2 ^ 31, (fileName (chars (t.writerPath i)) b).length + 1 ≤ p.fnameSize

/-- A line that begins with a number and goes on, behind blanks or none, with 1024 bytes that are no blanks. -/
def LongEntry (line : List UInt8) : Prop :=
  ∃ blanks sgn ds gap word rest, cstr line = blanks ++ (sgn ++ (ds ++ (gap ++ (word ++ rest)))) ∧
    (∀ b ∈ blanks, isSpace b = true) ∧ (sgn = [] ∨ sgn = [43] ∨ sgn = [45]) ∧ ds ≠ [] ∧ (∀ b ∈ ds, isDigit b = true) ∧
    Stops isDigit (gap ++ word) ∧ (∀ b ∈ gap, isSpace b = true) ∧ word.length = 1024 ∧ ∀ b ∈ word, isSpace b = false

/-- The loop over the writers is entered, for `n` of them, with `rest` of the file to read. -/
def Config.EntersLoop (c : Config) (text : List UInt8) (n : Int) (rest : List UInt8) : Prop :=
  ∃ first m, fgets lineSize text = some (first, rest) ∧ scanCounts first = some (n, m) ∧ wrap32 (n + 2) ≤ c.numBuckets ∧ 0 < m

/-- Pass `i` of the loop is reached, and reads the line. -/
def Config.ReadsEntry (c : Config) (text : List UInt8) (i : Nat) (line : List UInt8) : Prop :=
  ∃ n rest paths, c.EntersLoop text n rest ∧ i < n.toNat ∧ readWriters i 0 rest (fun _ => []) = .ok paths ∧
    nthLine lineSize i rest = some line

/-! ## The word -/

theorem stops_append {p : UInt8 → Bool} {s s' : List UInt8} (hs : s ≠ []) : Stops p (s ++ s') ↔ Stops p s := by
  unfold Stops
  rw [List.head?_append_of_ne_nil s hs]

/-- The word of an entry does not fit if and only if the line is of that form. -/
theorem longEntry_iff (line : List UInt8) : LongEntry line ↔ ∃ num path, scanEntry line = some (num, path) ∧ 1023 < path.length := by
  constructor
  · rintro ⟨blanks, sgn, ds, gap, word, rest, hline, hblank, hsgn, hds, hdigit, hstop, hgap, hlen, hword⟩
    have hne : word ≠ [] := List.ne_nil_of_length_pos (by omega)
    obtain ⟨hrest, htake, hdrop⟩ := (span_iff (p := (!isSpace ·)) (s := rest)).mp ⟨rfl, rfl⟩
    -- the word goes on to the next blank
    refine ⟨_, word ++ rest.takeWhile (!isSpace ·), scanEntry_iff.mpr ⟨gap ++ (word ++ rest), rest.dropWhile (!isSpace ·),
      ⟨blanks, sgn, ds, hline, hblank, hsgn, hds, hdigit, ?_, rfl⟩, ⟨gap, ?_, hgap, ?_, fun b hb => ?_, hdrop⟩⟩, ?_⟩
    · rw [← List.append_assoc]
      exact (stops_append (List.append_ne_nil_of_right_ne_nil gap hne)).mpr hstop
    · rw [List.append_assoc, ← hrest]
    · exact List.append_ne_nil_of_left_ne_nil hne _
    · rcases List.mem_append.mp hb with hb | hb
      · exact hword b hb
      · simpa using htake b hb
    · rw [List.length_append]
      omega
  · rintro ⟨num, path, hscan, hlen⟩
    obtain ⟨mid, rest, ⟨blanks, sgn, ds, hline, hblank, hsgn, hds, hdigit, hstop, -⟩, gap, rfl, hgap, -, hpath, -⟩ :=
      scanEntry_iff.mp hscan
    have hsplit := List.take_append_drop 1024 path
    have htake : (path.take 1024).length = 1024 := List.length_take_of_le hlen
    have hne : path.take 1024 ≠ [] := List.ne_nil_of_length_pos (by omega)
    refine ⟨blanks, sgn, ds, gap, path.take 1024, path.drop 1024 ++ rest, ?_, hblank, hsgn, hds, hdigit, ?_, hgap, htake,
      fun b hb => hpath b (List.mem_of_mem_take hb)⟩
    · rw [hline, ← List.append_assoc (path.take 1024), hsplit]
    · rw [← hsplit, List.append_assoc, ← List.append_assoc gap] at hstop
      exact (stops_append (List.append_ne_nil_of_right_ne_nil gap hne)).mp hstop

theorem tokensFit_iff (text : List UInt8) :
    TokensFit text ↔ ∀ i line, nthLine lineSize i text = some line → ¬LongEntry line := by
  constructor
  · intro hfit i line hline hlong
    obtain ⟨num, path, hscan, hlen⟩ := (longEntry_iff line).mp hlong
    exact Nat.not_lt.mpr (hfit i line num path hline hscan) hlen
  · intro hshort i line num path hline hscan
    by_contra hlen
    exact hshort i line hline ((longEntry_iff line).mpr ⟨num, path, hscan, Nat.lt_of_not_le hlen⟩)

/-- A pass stores outside of `path` if and only if its line is of that form. -/
theorem readWriter_strays_iff (i : Nat) (text : List UInt8) :
    readWriter i text = .error .pathStrays ↔ ∃ line, nthLine lineSize 0 text = some line ∧ LongEntry line := by
  unfold readWriter nthLine
  rcases hf : fgets lineSize text with _ | ⟨line, rest⟩
  · simp
  · simp only [Option.map_some, Option.some.injEq, exists_eq_left', longEntry_iff]
    rcases hs : scanEntry line with _ | ⟨num, path⟩
    · simp
    · simp only [Option.some.injEq, Prod.mk.injEq]
      constructor
      · intro h
        split at h
        · next hlong => exact ⟨num, path, ⟨rfl, rfl⟩, Nat.lt_of_succ_lt_succ hlong⟩
        · split at h
          · cases h
          · split at h
            · cases h
            · split at h <;> cases h
      · rintro ⟨_, _, ⟨rfl, rfl⟩, hlong⟩
        exact if_pos (Nat.succ_lt_succ hlong)

/-- The loop stores outside of `path` if and only if one of the lines that it comes to is of that form. -/
theorem readWriters_strays_iff {k i : Nat} {text : List UInt8} {paths : Nat → List UInt8} :
    readWriters k i text paths = .error .pathStrays ↔
      ∃ j < k, ∃ line paths', readWriters j i text paths = .ok paths' ∧ nthLine lineSize j text = some line ∧ LongEntry line := by
  induction k generalizing i text paths with
  | zero => simp [readWriters]
  | succ k ih =>
    have hpass := readWriter_strays_iff i text
    rw [readWriters]
    rcases hr : readWriter i text with e | ⟨path, rest⟩ <;> rw [hr] at hpass
    · -- the first pass is the last one
      simp only [Except.error.injEq] at hpass ⊢
      rw [hpass]
      constructor
      · rintro ⟨line, hline, hlong⟩
        exact ⟨0, Nat.succ_pos k, line, paths, rfl, hline, hlong⟩
      · rintro ⟨j, -, line, paths', hj, hline, hlong⟩
        cases j with
        | zero => exact ⟨line, hline, hlong⟩
        | succ j =>
          rw [readWriters, hr] at hj
          cases hj
    · obtain ⟨first, hf, -⟩ := readWriter_ok hr
      simp only
      rw [ih]
      constructor
      · rintro ⟨j, hj, line, paths', hok, hline, hlong⟩
        refine ⟨j + 1, Nat.succ_lt_succ hj, line, paths', ?_, (nthLine_succ hf j).trans hline, hlong⟩
        rw [readWriters, hr]
        exact hok
      · rintro ⟨j, hj, line, paths', hok, hline, hlong⟩
        cases j with
        | zero => cases hpass.mpr ⟨line, hline, hlong⟩
        | succ j =>
          rw [readWriters, hr] at hok
          rw [nthLine_succ hf] at hline
          exact ⟨j, Nat.lt_of_succ_lt_succ hj, line, paths', hok, hline, hlong⟩

/-- `read_disk_table` stores outside of `path` if and only if one of the lines that it reads as an entry is of that form. -/
theorem Config.readDiskTable_strays_iff (c : Config) (text : List UInt8) :
    c.readDiskTable (some text) = .error .pathStrays ↔ ∃ i line, c.ReadsEntry text i line ∧ LongEntry line := by
  have hloop : c.readDiskTable (some text) = .error .pathStrays ↔
      ∃ n rest, c.EntersLoop text n rest ∧ readWriters n.toNat 0 rest (fun _ => []) = .error .pathStrays := by
    rw [Config.readDiskTable]
    rcases hf : fgets lineSize text with _ | ⟨first, rest⟩
    · simp [Config.EntersLoop, hf]
    · rcases hs : scanCounts first with _ | ⟨n, m⟩
      · simp [Config.EntersLoop, hf, hs]
      · simp only [Config.EntersLoop, hf, hs, Option.some.injEq, Prod.mk.injEq]
        constructor
        · intro h
          split at h
          · cases h
          · next hwriters =>
            split at h
            · cases h
            · next hblocks =>
              refine ⟨n, rest, ⟨first, m, ⟨rfl, rfl⟩, hs, Int.not_lt.mp hwriters, Int.not_le.mp hblocks⟩, ?_⟩
              rcases hr : readWriters n.toNat 0 rest fun _ => [] with e | paths <;> rw [hr] at h
              · cases h
                rfl
              · cases h
        · rintro ⟨n', rest', ⟨_, m', ⟨rfl, rfl⟩, hs', hwriters, hblocks⟩, hr⟩
          rw [hs] at hs'
          cases hs'
          rw [if_neg (Int.not_lt.mpr hwriters), if_neg (Int.not_le.mpr hblocks), hr]
  rw [hloop]
  constructor
  · rintro ⟨n, rest, henters, hr⟩
    obtain ⟨i, hi, line, paths, hok, hline, hlong⟩ := readWriters_strays_iff.mp hr
    exact ⟨i, line, ⟨n, rest, paths, henters, hi, hok, hline⟩, hlong⟩
  · rintro ⟨i, line, ⟨n, rest, paths, henters, hi, hok, hline⟩, hlong⟩
    exact ⟨n, rest, henters, readWriters_strays_iff.mpr ⟨i, hi, line, paths, hok, hline, hlong⟩⟩

/-! ## The name -/

/-- A block number has at most ten digits. -/
theorem padded_length_le {b : Nat} (hb : b < 2 ^ 31) : (Decimal.padded 5 b).length ≤ 10 := by
  have hdigits : (Nat.toDigits 10 b).length ≤ 10 := by
    rw [Nat.length_toDigits_le_iff (by decide) (by decide)]
    exact Nat.lt_trans hb (by decide)
  rw [Decimal.padded, List.length_append, List.length_replicate]
  omega

theorem fileName_length (path : List UInt8) (b : Nat) :
    (fileName (chars path) b).length = path.length + 5 + (Decimal.padded 5 b).length := by
  rw [fileName, List.length_append, List.length_append, chars, List.length_map]
  rfl

/-- The names of a program fit if and only if every directory leaves room for a slash, four letters, ten digits and a zero byte. -/
theorem FileProgram.namesFit_iff (p : FileProgram) (t : DiskTable) :
    p.NamesFit t ↔ ∀ i : Nat, i < t.numWriters → (t.writerPath i).length + 16 ≤ p.fnameSize := by
  constructor
  · intro hfit i hi
    -- the largest block number has ten digits
    have hlast := hfit i hi (2 ^ 31 - 1) (by decide)
    rw [fileName_length, show (Decimal.padded 5 (2 ^ 31 - 1)).length = 10 by decide] at hlast
    omega
  · intro hshort i hi b hb
    have hlen := hshort i hi
    have hdigits := padded_length_le hb
    rw [fileName_length]
    omega

/-- The buffers have room for a file `writer_info.cfg` as follows. The words of all lines that `fgets` returns do if and only if no line
begins with a number and goes on with 1024 bytes that are no blanks, and `read_disk_table` stores a word outside of `path` if and only if
one of the lines that it reads for a writer is of that form. The names of a program do, for a table that is accepted, if and only if no
directory is longer than the array less sixteen bytes: 1008 bytes in `todisk`, 240 in the other programs. -/
theorem paths_fit_iff (c : Config) (text : List UInt8) :
    (TokensFit text ↔ ∀ i line, nthLine lineSize i text = some line → ¬LongEntry line) ∧
      (c.readDiskTable (some text) = .error .pathStrays ↔ ∃ i line, c.ReadsEntry text i line ∧ LongEntry line) ∧
      ∀ t, c.readDiskTable (some text) = .ok t → ∀ p : FileProgram,
        (p.NamesFit t ↔ ∀ i : Nat, i < t.numWriters → (t.writerPath i).length + 16 ≤ p.fnameSize) :=
  ⟨tokensFit_iff text, c.readDiskTable_strays_iff text, fun t _ p => p.namesFit_iff t⟩

theorem paths_fit_sav2 :
    Config.shipped.readDiskTable (some writerInfoSav2) = .ok sav2Table ∧ ∀ p : FileProgram, p.NamesFit sav2Table := by
  refine ⟨rfl, fun p => ((paths_fit_iff Config.shipped writerInfoSav2).2.2 sav2Table rfl p).mpr fun i hi => ?_⟩
  obtain rfl : i = 0 := Nat.lt_one_iff.mp (Int.ofNat_lt.mp hi)
  cases p <;> decide

/-! ## Long directories -/

/-- A file with one writer, whose directory has `k` letters. -/
def longPath (k : Nat) : List UInt8 := asBytes "1 5\n0 " ++ List.replicate k 97

/-- The line of the writer. -/
def longPathLine (k : Nat) : List UInt8 := 48 :: 32 :: List.replicate k 97

theorem mem_longPathLine {k : Nat} {b : UInt8} (h : b ∈ longPathLine k) : b = 48 ∨ b = 32 ∨ b = 97 := by
  rcases List.mem_cons.mp h with h | h
  · exact Or.inl h
  · exact Or.inr ((List.mem_cons.mp h).imp_right List.eq_of_mem_replicate)

theorem fgets_longPath (k : Nat) : fgets lineSize (longPath k) = some (asBytes "1 5\n", longPathLine k) := rfl

theorem fgets_longPathLine {k : Nat} (hk : k ≤ 1196) : fgets lineSize (longPathLine k) = some (longPathLine k, []) := by
  have hlen : (longPathLine k).length ≤ lineSize - 1 := by
    rw [longPathLine, List.length_cons, List.length_cons, List.length_replicate]
    exact Nat.add_le_add_right hk 2
  rw [fgets, if_neg (show longPathLine k ≠ [] from List.cons_ne_nil _ _), takeLine_of_no_newline hlen]
  intro b hb
  rcases mem_longPathLine hb with rfl | rfl | rfl <;> decide

theorem scanEntry_longPathLine {k : Nat} (hk : 0 < k) : scanEntry (longPathLine k) = some (0, List.replicate k 97) := by
  have hcstr : cstr (longPathLine k) = longPathLine k := by
    refine List.takeWhile_eq_self_iff.mpr fun b hb => ?_
    rcases mem_longPathLine hb with rfl | rfl | rfl <;> decide
  have hnum : IntForm (longPathLine k) 0 (32 :: List.replicate k 97) := by
    refine ⟨[], [], [48], rfl, by simp, Or.inl rfl, by simp, List.forall_mem_singleton.mpr rfl, fun b hb => ?_, rfl⟩
    cases hb
    rfl
  have hword : WordForm (32 :: List.replicate k 97) (List.replicate k 97) [] := by
    refine ⟨[32], by simp, List.forall_mem_singleton.mpr rfl, ?_, fun b hb => ?_, by simp [Stops]⟩
    · exact List.ne_nil_of_length_pos (by rwa [List.length_replicate])
    · rw [List.eq_of_mem_replicate hb]
      rfl
  rw [← hcstr] at hnum
  exact scanEntry_iff.mpr ⟨_, _, hnum, hword⟩

/-- The line of the writer is read as a whole, and its word is the directory; it is stored outside of the array if it is too long. -/
theorem readDiskTable_longPath {k : Nat} (hk : 0 < k) (hk' : k ≤ 1196) : Config.shipped.readDiskTable (some (longPath k)) =
    if 1023 < k then .error .pathStrays else .ok ⟨1, 5, Function.update (fun _ => []) 0 (List.replicate k 97)⟩ := by
  have hcounts : scanCounts (asBytes "1 5\n") = some (1, 5) := rfl
  have hpass : readWriter 0 (longPathLine k) = if 1023 < k then .error .pathStrays else .ok (List.replicate k 97, []) := by
    rw [readWriter, fgets_longPathLine hk']
    simp only [scanEntry_longPathLine hk, List.length_replicate]
    have hsize : pathSize < k + 1 ↔ 1023 < k := Nat.succ_lt_succ_iff
    by_cases hlong : 1023 < k
    · rw [if_pos hlong, if_pos (hsize.mpr hlong)]
    · rw [if_neg hlong, if_neg (mt hsize.mp hlong), if_neg (by simp), if_neg (by omega), if_neg (by decide)]
  have hloop : readWriters (Int.toNat 1) 0 (longPathLine k) (fun _ => []) =
      if 1023 < k then .error .pathStrays else .ok (Function.update (fun _ => []) 0 (List.replicate k 97)) := by
    rw [show Int.toNat 1 = 0 + 1 from rfl, readWriters, hpass]
    by_cases hlong : 1023 < k
    · simp only [if_pos hlong]
    · simp only [if_neg hlong, readWriters]
  rw [Config.readDiskTable, fgets_longPath]
  simp only [hcounts, hloop]
  rw [if_neg (by decide), if_neg (by decide)]
  by_cases hlong : 1023 < k
  · simp only [if_pos hlong]
  · simp only [if_neg hlong]

/-- A word of 1100 letters is stored outside of `path`. A directory of 1020 letters is accepted, and the name of block 0 has no room in
`fname` of any program. -/
theorem paths_do_not_fit :
    (nthLine lineSize 1 (longPath 1100) = some (longPathLine 1100) ∧
        scanEntry (longPathLine 1100) = some (0, List.replicate 1100 97) ∧
        Config.shipped.readDiskTable (some (longPath 1100)) = .error .pathStrays) ∧
      ∃ t, Config.shipped.readDiskTable (some (longPath 1020)) = .ok t ∧ 0 < t.numWriters ∧
        ∀ p : FileProgram, p.fnameSize < (fileName (chars (t.writerPath 0)) 0).length + 1 := by
  refine ⟨⟨?_, scanEntry_longPathLine (by decide), readDiskTable_longPath (by decide) (by decide)⟩,
    ⟨1, 5, Function.update (fun _ => []) 0 (List.replicate 1020 97)⟩, readDiskTable_longPath (by decide) (by decide), by decide, ?_⟩
  · rw [nthLine_succ (fgets_longPath 1100), nthLine_zero (fgets_longPathLine (by decide))]
  · intro p
    rw [fileName_length]
    simp only [Function.update_self, List.length_replicate]
    cases p <;> decide

end NicRecorder
