import NicRecorder.Lemmas.Files

/-!
# The main loop of the extraction tools

What one pass does with one file, and what follows for a walk over many. A pass skips the file, ends the loop in it, or runs over its
end; the three cases depend on the header of the file only. Every pass opens the file of the next block (`mainLoop_reader`), so
that the files a tool opens are those before the block it has come to. What `dump_one_packet` does has no influence on the loop
(`mainLoop_map`), so that it is enough to collect the packets handed on.
-/

namespace NicRecorder

open ByteMem

/-! ## Files by number -/

theorem Table.nextFile_readerAt (T : Table) (f : Nat) : T.nextFile (T.readerAt f) = T.readerAt (f + 1) := by
  rw [Table.nextFile, Table.readerAt, Table.readerAt, Nat.mod_add_mod]

theorem Table.readerAt_zero (T : Table) : T.readerAt 0 = Reader.first := by
  simp [Table.readerAt, Reader.first]

/-- The number of packets that the header of a file names; none where there is no file. -/
def Table.captured (T : Table) (disk : Disk) (f : Nat) : Nat := ((T.fileAt disk f).map fun file => numCaptured (imageOf file)).getD 0

/-- The number of packets in `k` files from file `b` on. -/
def Table.total (T : Table) (disk : Disk) (b k : Nat) : Nat := ((List.range' b k).map (T.captured disk)).sum

section Totals

variable {T : Table} {disk : Disk}

theorem Table.captured_eq {f : Nat} {file : List UInt8} (h : T.fileAt disk f = some file) :
    T.captured disk f = numCaptured (imageOf file) := by
  rw [Table.captured, h]
  rfl

@[simp] theorem Table.total_zero (T : Table) (disk : Disk) (b : Nat) : T.total disk b 0 = 0 := rfl

theorem Table.total_cons (T : Table) (disk : Disk) (b k : Nat) :
    T.total disk b (k + 1) = T.captured disk b + T.total disk (b + 1) k := by
  rw [Table.total, List.range'_succ, List.map_cons, List.sum_cons]
  rfl

theorem Table.total_snoc (T : Table) (disk : Disk) (b k : Nat) :
    T.total disk b (k + 1) = T.total disk b k + T.captured disk (b + k) := by
  rw [Table.total, List.range'_1_concat, List.map_append, List.sum_append]
  simp [Table.total]

theorem Table.total_mono (T : Table) (disk : Disk) (b : Nat) {k k' : Nat} (h : k ≤ k') :
    T.total disk b k ≤ T.total disk b k' := by
  induction h with
  | refl => exact Nat.le_refl _
  | step _ ih => rw [T.total_snoc]; exact Nat.le_trans ih (Nat.le_add_right _ _)

end Totals

/-! ## One pass -/

/-- How the loop ends behind a file whose packets have all been handed on. -/
def endOf (file : List UInt8) : Option Exit :=
  if stalledWord (imageOf file) ≠ 0 then some .stalled
  else if lastWord (imageOf file) ≠ 0 then some .normal
  else none

theorem endOf_eq_none {file : List UInt8} : endOf file = none ↔ ¬Flagged file := by
  unfold endOf Flagged
  by_cases h1 : stalledWord (imageOf file) = 0 <;> by_cases h2 : lastWord (imageOf file) = 0 <;> simp [h1, h2]

/-- A flagged file ends the loop as a stalled or as a normal one. -/
theorem endOf_of_flagged {file : List UInt8} (h : Flagged file) : endOf file = some .stalled ∨ endOf file = some .normal := by
  unfold endOf
  rcases h with h | h
  · exact Or.inl (if_pos h)
  · by_cases h1 : stalledWord (imageOf file) = 0
    · exact Or.inr (by simp [h1, h])
    · exact Or.inl (if_pos h1)

/-- A tool that has opened file `f` and read its header. -/
def Tool.atFile {σ : Type} (s : Tool σ) (T : Table) (f : Nat) (mapping : Mem) : Tool σ :=
  { s with reader := T.readerAt (f + 1), mapping := mapping, opened := s.opened ++ [f] }

section Pass

variable {σ : Type} {c : Config} {T : Table} {disk : Disk} {put : σ → Handed → σ} {s : Tool σ} {f : Nat} {file : List UInt8}

theorem Config.pass_missing (c : Config) (put : σ → Handed → σ) (hr : s.reader = T.readerAt f) (hf : T.fileAt disk f = none) :
    c.pass T disk put s = (s, some .cannotOpen) := by
  have hd : disk (s.reader.fname T.writerPath) = none := by
    rw [hr]
    exact hf
  rw [Config.pass, hd]

/-- A pass over a file that is there: it is skipped, or extracted. -/
theorem Config.pass_file (c : Config) (put : σ → Handed → σ) (hr : s.reader = T.readerAt f) (hf : T.fileAt disk f = some file)
    (hh : HasHeader file) :
    c.pass T disk put s =
      if numCaptured (imageOf file) ≤ s.start then
        ({ s.atFile T f (readHeader s.mapping file) with
          offs := s.offs + numCaptured (imageOf file)
          start := s.start - numCaptured (imageOf file)
          held := f :: s.held }, none)
      else c.extractFile put (readBlock s.mapping file) (headerSlots (imageOf file))
        { s.atFile T f (readHeader s.mapping file) with held := f :: s.held } := by
  have hd : disk (s.reader.fname T.writerPath) = some file := by
    rw [hr]
    exact hf
  obtain ⟨hcap, hslots⟩ := hh.first_read s.mapping
  rw [Config.pass, hd]
  simp only [hr, hcap, hslots, T.nextFile_readerAt]
  rfl

/-- A file that lies before the packet asked for is skipped. -/
theorem Config.pass_skip (c : Config) (put : σ → Handed → σ) (hr : s.reader = T.readerAt f) (hf : T.fileAt disk f = some file)
    (hh : HasHeader file) (hle : numCaptured (imageOf file) ≤ s.start) :
    c.pass T disk put s =
      ({ s.atFile T f (readHeader s.mapping file) with
        offs := s.offs + numCaptured (imageOf file)
        start := s.start - numCaptured (imageOf file)
        held := f :: s.held }, none) := by
  rw [c.pass_file put hr hf hh, if_pos hle]

/-- A file whose header names no slots kills the tool. -/
theorem Config.pass_killed (c : Config) (put : σ → Handed → σ) (hr : s.reader = T.readerAt f) (hf : T.fileAt disk f = some file)
    (hh : HasHeader file) (hlt : s.start < numCaptured (imageOf file)) (hslots : headerSlots (imageOf file) = 0) :
    c.pass T disk put s = (s.atFile T f (readBlock s.mapping file), some .killed) := by
  rw [c.pass_file put hr hf hh, if_neg (Nat.not_le.mpr hlt), Config.extractFile, Config.dumpPacket, if_pos hslots]
  rfl

/-- The packets that a pass hands on, of a file with the packet asked for. -/
def Config.handedOn (c : Config) (img : Mem) (slots offs start k : Nat) : List Handed :=
  (List.range' start k).map fun j => ⟨offs, slots, c.packetAt img slots j⟩

theorem foldl_handedOn (c : Config) (put : σ → Handed → σ) (img : Mem) (slots offs start k : Nat) (sink : σ) :
    ((List.range' start k).map (c.packetAt img slots)).foldl (fun out e => put out ⟨offs, slots, e⟩) sink =
      (c.handedOn img slots offs start k).foldl put sink := by
  rw [Config.handedOn, List.foldl_map, List.foldl_map]

/-- The count is used up inside the file. -/
theorem Config.pass_done (c : Config) (put : σ → Handed → σ) (hr : s.reader = T.readerAt f) (hf : T.fileAt disk f = some file)
    (hh : HasHeader file) (hslots : headerSlots (imageOf file) ≠ 0) (hpos : 0 < s.count)
    (hle : s.start + s.count ≤ numCaptured (imageOf file)) :
    c.pass T disk put s =
      ({ s.atFile T f (readBlock s.mapping file) with
        sink := (c.handedOn (readBlock s.mapping file) (headerSlots (imageOf file)) s.offs s.start s.count).foldl put s.sink },
        some .done) := by
  obtain ⟨hcap, -, -⟩ := hh.all_reads s.mapping
  have hmin : min s.count (numCaptured (imageOf file) - s.start) = s.count := by omega
  rw [c.pass_file put hr hf hh, if_neg (by omega), Config.extractFile]
  simp only [Tool.atFile]
  rw [c.dumpPacket_eq _ (Nat.pos_of_ne_zero hslots) _ (by omega), hcap, hmin]
  simp only [if_neg (Nat.ne_of_gt hpos), if_true, foldl_handedOn, List.tail_cons]

/-- The file ends before the count is used up. -/
theorem Config.pass_over (c : Config) (put : σ → Handed → σ) (hr : s.reader = T.readerAt f) (hf : T.fileAt disk f = some file)
    (hh : HasHeader file) (hslots : headerSlots (imageOf file) ≠ 0) (hlt : s.start < numCaptured (imageOf file))
    (hover : numCaptured (imageOf file) < s.start + s.count) :
    c.pass T disk put s =
      ({ s.atFile T f (readBlock s.mapping file) with
        offs := s.offs + numCaptured (imageOf file)
        start := 0
        count := s.count - (numCaptured (imageOf file) - s.start)
        sink := (c.handedOn (readBlock s.mapping file) (headerSlots (imageOf file)) s.offs s.start
          (numCaptured (imageOf file) - s.start)).foldl put s.sink }, endOf file) := by
  obtain ⟨hcap, hstalled, hlast⟩ := hh.all_reads s.mapping
  have hmin : min s.count (numCaptured (imageOf file) - s.start) = numCaptured (imageOf file) - s.start := by omega
  have hstart : s.start + (numCaptured (imageOf file) - s.start) - numCaptured (imageOf file) = 0 := by omega
  rw [c.pass_file put hr hf hh, if_neg (by omega), Config.extractFile]
  simp only [Tool.atFile]
  rw [c.dumpPacket_eq _ (Nat.pos_of_ne_zero hslots) _ (by omega), hcap, hmin]
  have h0 : numCaptured (imageOf file) - s.start ≠ 0 := by omega
  have h1 : s.count ≠ numCaptured (imageOf file) - s.start := by omega
  simp only [if_neg h0, if_neg h1, foldl_handedOn, List.tail_cons, hstart, hstalled, hlast]
  unfold endOf
  split
  · rfl
  · split <;> rfl

/-- Extracting a file opens none. -/
theorem Config.extractFile_frame (c : Config) (put : σ → Handed → σ) (img : Mem) (slots : Nat) (s : Tool σ) :
    (c.extractFile put img slots s).1.reader = s.reader ∧ (c.extractFile put img slots s).1.opened = s.opened := by
  unfold Config.extractFile
  dsimp only
  rcases c.dumpPacket img slots s.start s.count with _ | ⟨packets, processed⟩
  · exact ⟨rfl, rfl⟩
  · dsimp only
    split_ifs <;> exact ⟨rfl, rfl⟩

/-- Whatever becomes of it, a pass that opens file `f` moves on to the next one. -/
theorem Config.pass_opened (c : Config) (put : σ → Handed → σ) (hr : s.reader = T.readerAt f) (hf : T.fileAt disk f = some file) :
    (c.pass T disk put s).1.reader = T.readerAt (f + 1) ∧ (c.pass T disk put s).1.opened = s.opened ++ [f] := by
  have hd : disk (s.reader.fname T.writerPath) = some file := by
    rw [hr]
    exact hf
  rw [Config.pass, hd]
  simp only [hr, T.nextFile_readerAt]
  split
  · exact ⟨rfl, rfl⟩
  · exact c.extractFile_frame put _ _ _

/-- When a pass does not end the loop: the file was skipped, or its last packet was handed on with some of the count left and it was
not flagged. -/
theorem Config.pass_goes_iff (c : Config) (put : σ → Handed → σ) (hr : s.reader = T.readerAt f) (hf : T.fileAt disk f = some file)
    (hh : HasHeader file) :
    (c.pass T disk put s).2 = none ↔ numCaptured (imageOf file) ≤ s.start ∨
      headerSlots (imageOf file) ≠ 0 ∧ numCaptured (imageOf file) < s.start + s.count ∧ ¬Flagged file := by
  rcases Nat.lt_or_ge s.start (numCaptured (imageOf file)) with hlt | hge
  · by_cases hslots : headerSlots (imageOf file) = 0
    · rw [c.pass_killed put hr hf hh hlt hslots]
      simp only [reduceCtorEq, false_iff]
      omega
    · rcases Nat.lt_or_ge (numCaptured (imageOf file)) (s.start + s.count) with hover | hle
      · rw [c.pass_over put hr hf hh hslots hlt hover, endOf_eq_none]
        exact ⟨fun h => Or.inr ⟨hslots, hover, h⟩, fun h => h.elim (fun h' => absurd h' (Nat.not_le.mpr hlt)) fun h' => h'.2.2⟩
      · by_cases hpos : s.count = 0
        · rw [c.pass_file put hr hf hh, if_neg (Nat.not_le.mpr hlt), Config.extractFile]
          simp only [Tool.atFile, hpos]
          rw [c.dumpPacket_eq _ (Nat.pos_of_ne_zero hslots) _ (by rw [(hh.all_reads _).1]; omega), Nat.zero_min]
          simp only [if_true, reduceCtorEq, false_iff]
          omega
        · rw [c.pass_done put hr hf hh hslots (Nat.pos_of_ne_zero hpos) hle]
          simp only [reduceCtorEq, false_iff]
          omega
  · rw [c.pass_skip put hr hf hh hge]
    exact ⟨fun _ => Or.inl hge, fun _ => rfl⟩

/-- What is left of the start and of the count when a pass does not end the loop. -/
theorem Config.pass_goes (c : Config) (put : σ → Handed → σ) (hr : s.reader = T.readerAt f) (hf : T.fileAt disk f = some file)
    (hh : HasHeader file) (hgo : (c.pass T disk put s).2 = none) :
    (c.pass T disk put s).1.start = s.start - numCaptured (imageOf file) ∧
      (c.pass T disk put s).1.count = s.count - (numCaptured (imageOf file) - s.start) := by
  rcases (c.pass_goes_iff put hr hf hh).mp hgo with hle | ⟨hslots, hover, -⟩
  · rw [c.pass_skip put hr hf hh hle]
    refine ⟨rfl, ?_⟩
    rw [Nat.sub_eq_zero_of_le hle]
    rfl
  · rcases Nat.lt_or_ge s.start (numCaptured (imageOf file)) with hlt | hge
    · rw [c.pass_over put hr hf hh hslots hlt hover]
      exact ⟨(Nat.sub_eq_zero_of_le (Nat.le_of_lt hlt)).symm, rfl⟩
    · rw [c.pass_skip put hr hf hh hge]
      refine ⟨rfl, ?_⟩
      rw [Nat.sub_eq_zero_of_le hge]
      rfl

end Pass

/-! ## Which files are opened -/

section Walk

variable {σ : Type} {c : Config} {T : Table} {disk : Disk} {put : σ → Handed → σ} {s : Tool σ} {b : Nat}

/-- One more pass. -/
theorem Config.mainLoop_succ {n : Nat} (h : (c.mainLoop T disk put n s).2 = none) :
    c.mainLoop T disk put (n + 1) s = c.pass T disk put (c.mainLoop T disk put n s).1 := Loop.run_snoc h

theorem Config.mainLoop_none_of_le {n k : Nat} (h : (c.mainLoop T disk put n s).2 = none) (hk : k ≤ n) :
    (c.mainLoop T disk put k s).2 = none := Loop.run_none_of_le h hk

/-- A tool that begins with block `b` opens the files from there on, one in every pass; the loop was still going on before each of
them. -/
theorem Config.mainLoop_opened (c : Config) (disk : Disk) (put : σ → Handed → σ) (hb : s.reader = T.readerAt b) (n : Nat) :
    ∃ k, (c.mainLoop T disk put n s).1.opened = s.opened ++ List.range' b k ∧
      (∀ j < k, (c.mainLoop T disk put j s).2 = none ∧ T.fileAt disk (b + j) ≠ none) ∧
      ((c.mainLoop T disk put n s).2 = none → k = n ∧ (c.mainLoop T disk put n s).1.reader = T.readerAt (b + n)) := by
  induction n with
  | zero => exact ⟨0, by simp [Config.mainLoop, Loop.run], fun j hj => absurd hj (Nat.not_lt_zero j), fun _ => ⟨rfl, hb⟩⟩
  | succ n ih =>
    obtain ⟨k, hopened, hgone, hat⟩ := ih
    rcases he : (c.mainLoop T disk put n s).2 with _ | e
    · obtain ⟨rfl, hreader⟩ := hat he
      rw [Config.mainLoop_succ he]
      rcases hf : T.fileAt disk (b + k) with _ | file
      · rw [c.pass_missing put hreader hf]
        exact ⟨k, hopened, hgone, fun h => absurd h (Option.some_ne_none _)⟩
      · obtain ⟨h1, h2⟩ := c.pass_opened put hreader hf
        refine ⟨k + 1, ?_, ?_, fun _ => ⟨rfl, h1⟩⟩
        · rw [h2, hopened, List.range'_1_concat, List.append_assoc]
        · intro j hj
          rcases Nat.lt_or_ge j k with hlt | hge
          · exact hgone j hlt
          · obtain rfl : j = k := by omega
            exact ⟨he, by rw [hf]; exact Option.some_ne_none _⟩
    · rw [show c.mainLoop T disk put (n + 1) s = c.mainLoop T disk put n s from Loop.run_stays he]
      exact ⟨k, hopened, hgone, fun h => by rw [he] at h; cases h⟩

theorem Config.mainLoop_reader (hb : s.reader = T.readerAt b) {n : Nat} (h : (c.mainLoop T disk put n s).2 = none) :
    (c.mainLoop T disk put n s).1.reader = T.readerAt (b + n) := by
  obtain ⟨k, -, -, hat⟩ := c.mainLoop_opened disk put hb n
  exact (hat h).2

theorem Config.mainLoop_file (hb : s.reader = T.readerAt b) {n : Nat} (h : (c.mainLoop T disk put (n + 1) s).2 = none) :
    T.fileAt disk (b + n) ≠ none := by
  obtain ⟨k, -, hgone, hat⟩ := c.mainLoop_opened disk put hb (n + 1)
  obtain ⟨rfl, -⟩ := hat h
  exact (hgone n (Nat.lt_succ_self n)).2

/-- All files on the disks have a header. -/
def Table.Headed (T : Table) (disk : Disk) : Prop := ∀ f file, T.fileAt disk f = some file → HasHeader file

/-- What is left of the start and of the count behind `n` files. -/
theorem Config.mainLoop_goes (hh : T.Headed disk) (hb : s.reader = T.readerAt b) {n : Nat}
    (h : (c.mainLoop T disk put n s).2 = none) :
    (c.mainLoop T disk put n s).1.start = s.start - T.total disk b n ∧
      (c.mainLoop T disk put n s).1.count = s.count - (T.total disk b n - s.start) := by
  induction n with
  | zero => exact ⟨rfl, by simp [Config.mainLoop, Loop.run]⟩
  | succ n ih =>
    have hn := Config.mainLoop_none_of_le h (Nat.le_succ n)
    obtain ⟨h1, h2⟩ := ih hn
    have hreader := Config.mainLoop_reader hb hn
    obtain ⟨file, hf⟩ := Option.ne_none_iff_exists'.mp (Config.mainLoop_file hb h)
    rw [Config.mainLoop_succ hn] at h ⊢
    obtain ⟨h3, h4⟩ := c.pass_goes put hreader hf (hh _ _ hf) h
    rw [h3, h4, h1, h2, T.total_snoc, Table.captured_eq hf]
    constructor <;> omega

/-- File `f` does not end a loop that begins with block `b`: it is empty, or lies before the packet asked for, or its last packet is
handed on with some of the count left and it is not flagged. -/
def Table.Passed (T : Table) (disk : Disk) (b start count f : Nat) : Prop :=
  ∃ file, T.fileAt disk f = some file ∧ (T.captured disk f = 0 ∨ T.total disk b (f + 1 - b) ≤ start ∨
    headerSlots (imageOf file) ≠ 0 ∧ T.total disk b (f + 1 - b) < start + count ∧ ¬Flagged file)

/-- The loop goes on behind `n` files if and only if each of them lets it. -/
theorem Config.mainLoop_none_iff (hh : T.Headed disk) (hb : s.reader = T.readerAt b) (n : Nat) :
    (c.mainLoop T disk put n s).2 = none ↔ ∀ f, b ≤ f → f < b + n → T.Passed disk b s.start s.count f := by
  induction n with
  | zero => exact ⟨fun _ f h1 h2 => by omega, fun _ => rfl⟩
  | succ n ih =>
    have hlast : (c.mainLoop T disk put n s).2 = none →
        ((c.mainLoop T disk put (n + 1) s).2 = none ↔ T.Passed disk b s.start s.count (b + n)) := by
      intro hn
      have hreader := Config.mainLoop_reader hb hn
      obtain ⟨h1, h2⟩ := Config.mainLoop_goes hh hb hn
      have hsub : b + n + 1 - b = n + 1 := by omega
      rw [Config.mainLoop_succ hn, Table.Passed, hsub, T.total_snoc]
      rcases hf : T.fileAt disk (b + n) with _ | file
      · rw [c.pass_missing put hreader hf]
        exact ⟨nofun, nofun⟩
      · rw [c.pass_goes_iff put hreader hf (hh _ _ hf), h1, h2, Table.captured_eq hf]
        constructor
        · rintro (h' | ⟨hs, h', hfl⟩)
          · exact ⟨file, rfl, by omega⟩
          · exact ⟨file, rfl, Or.inr (Or.inr ⟨hs, by omega, hfl⟩)⟩
        · rintro ⟨_, he, h' | h' | ⟨hs, h', hfl⟩⟩
          · exact Or.inl (by omega)
          · exact Or.inl (by omega)
          · cases he
            exact Or.inr ⟨hs, by omega, hfl⟩
    constructor
    · intro h f h1 h2
      have hn := Config.mainLoop_none_of_le h (Nat.le_succ n)
      rcases Nat.lt_or_ge f (b + n) with hlt | hge
      · exact ih.mp hn f h1 hlt
      · obtain rfl : f = b + n := by omega
        exact (hlast hn).mp h
    · intro h
      have hn := ih.mpr fun f h1 h2 => h f h1 (by omega)
      exact (hlast hn).mpr (h (b + n) (by omega) (by omega))

end Walk

end NicRecorder
