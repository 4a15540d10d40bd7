import NicRecorder.Lemmas.Tools

/-!
# A walk over a recording

What a tool hands on from a recording, as one list. The loop takes no notice of what `dump_one_packet` does (`mainLoop_map`), so the
tool that only collects the packets stands for all three (`mainLoop_sink`). On a recording it hands on the packets of all its
files, in order, from the one asked for, and ends with the count or with the flagged file (`walk_recording`).
-/

namespace NicRecorder

open ByteMem

/-! ## What becomes of the packets -/

/-- A tool with its output seen through a function. -/
def Tool.mapSink {σ τ : Type} (f : σ → τ) (s : Tool σ) : Tool τ :=
  ⟨s.reader, s.mapping, s.offs, s.start, s.count, f s.sink, s.held, s.opened⟩

section Sinks

variable {σ τ : Type} {c : Config} {T : Table} {disk : Disk} {put : σ → Handed → σ} {put' : τ → Handed → τ} {f : σ → τ}

theorem foldl_put (hf : ∀ k h, f (put k h) = put' (f k) h) (g : Emitted → Handed) (es : List Emitted) (k : σ) :
    f (es.foldl (fun out e => put out (g e)) k) = es.foldl (fun out e => put' out (g e)) (f k) := by
  induction es generalizing k with
  | nil => rfl
  | cons e es ih => rw [List.foldl_cons, List.foldl_cons, ih, hf]

theorem Config.extractFile_map (c : Config) (hf : ∀ k h, f (put k h) = put' (f k) h) (img : Mem) (slots : Nat) (s : Tool σ) :
    c.extractFile put' img slots (s.mapSink f) =
      ((c.extractFile put img slots s).1.mapSink f, (c.extractFile put img slots s).2) := by
  unfold Config.extractFile Tool.mapSink
  dsimp only
  rcases c.dumpPacket img slots s.start s.count with _ | ⟨packets, processed⟩
  · rfl
  · dsimp only
    rw [← foldl_put hf]
    split_ifs <;> rfl

/-- A pass does not look at the output. -/
theorem Config.pass_map (c : Config) (hf : ∀ k h, f (put k h) = put' (f k) h) (s : Tool σ) :
    c.pass T disk put' (s.mapSink f) = ((c.pass T disk put s).1.mapSink f, (c.pass T disk put s).2) := by
  have hreader : (s.mapSink f).reader = s.reader := rfl
  unfold Config.pass
  rw [hreader]
  rcases disk (s.reader.fname T.writerPath) with _ | file
  · rfl
  · dsimp only [Tool.mapSink]
    split_ifs
    · rfl
    · exact c.extractFile_map hf _ _ { s with
        reader := T.nextFile s.reader
        mapping := readHeader s.mapping file
        held := s.reader.fileCount :: s.held
        opened := s.opened ++ [s.reader.fileCount] }

/-- Neither does the loop. -/
theorem Config.mainLoop_map (c : Config) (hf : ∀ k h, f (put k h) = put' (f k) h) (n : Nat) (s : Tool σ) :
    c.mainLoop T disk put' n (s.mapSink f) = ((c.mainLoop T disk put n s).1.mapSink f, (c.mainLoop T disk put n s).2) := by
  have hstep : ∀ (u : Tool σ) (v : Tool τ), v = u.mapSink f →
      (c.pass T disk put' v).1 = (c.pass T disk put u).1.mapSink f ∧ (c.pass T disk put u).2 = (c.pass T disk put' v).2 := by
    rintro u _ rfl
    rw [c.pass_map hf]
    exact ⟨rfl, rfl⟩
  obtain ⟨h1, h2⟩ := Loop.run_rel (R := fun (u : Tool σ) (v : Tool τ) => v = u.mapSink f) hstep n rfl
  exact Prod.ext h1 h2.symm

end Sinks

/-- Collecting the packets. -/
def collect (out : List Handed) (h : Handed) : List Handed := out ++ [h]

theorem foldl_collect (hs out : List Handed) : hs.foldl collect out = out ++ hs := by
  induction hs generalizing out with
  | nil => simp
  | cons h hs ih => rw [List.foldl_cons, ih, collect, List.append_assoc, List.singleton_append]

section Collected

variable {c : Config} {T : Table} {disk : Disk}

/-- The packets that a tool hands on, collected. -/
def Config.collected (c : Config) (T : Table) (disk : Disk) (r : Reader) (mapping : Mem) (start count passes : Nat) :
    Tool (List Handed) × Option Exit := c.mainLoop T disk collect passes (Tool.entered r mapping start count [])

/-- The output of a tool is made of the packets it hands on, one after the other. -/
theorem Config.mainLoop_sink {σ : Type} (c : Config) (T : Table) (disk : Disk) (put : σ → Handed → σ) (r : Reader) (mapping : Mem)
    (start count passes : Nat) (sink : σ) :
    c.mainLoop T disk put passes (Tool.entered r mapping start count sink) =
      ((c.collected T disk r mapping start count passes).1.mapSink fun out => out.foldl put sink,
        (c.collected T disk r mapping start count passes).2) := by
  have hf : ∀ (out : List Handed) (h : Handed), (collect out h).foldl put sink = put (out.foldl put sink) h := by
    intro out h
    rw [collect, List.foldl_append]
    rfl
  exact c.mainLoop_map (f := fun out => out.foldl put sink) hf passes (Tool.entered r mapping start count [])

end Collected

/-! ## A recording -/

/-- The files `0` to `n - 1` of a recording: each is whole and holds packets, its header names the slots of a row, and the last one,
and no other, is flagged. -/
structure Table.Recording (T : Table) (disk : Disk) (n : Nat) : Prop where
  file : ∀ f < n, ∃ file, T.fileAt disk f = some file ∧ WholeFile file ∧ 0 < numCaptured (imageOf file) ∧
    headerSlots (imageOf file) ≠ 0 ∧ (Flagged file ↔ f + 1 = n)

/-- The packets of a file, read to a mapping, behind `base` packets of earlier files. -/
def Config.filePackets (c : Config) (mapping : Mem) (file : List UInt8) (base : Nat) : List Handed :=
  c.handedOn (readBlock mapping file) (headerSlots (imageOf file)) base 0 (numCaptured (imageOf file))

/-- The packets of `k` files from file `b` on. -/
def Config.packetsFrom (c : Config) (T : Table) (disk : Disk) (mapping : Mem) : Nat → Nat → Nat → List Handed
  | _, 0, _ => []
  | b, k + 1, base => ((T.fileAt disk b).elim [] fun file => c.filePackets mapping file base) ++
      c.packetsFrom T disk mapping (b + 1) k (base + T.captured disk b)

theorem Table.Recording.total_pos {T : Table} {disk : Disk} {n b : Nat} (h : T.Recording disk n) (hb : b < n) (k : Nat) :
    0 < T.total disk b (k + 1) := by
  obtain ⟨file, hf, -, hcap, -⟩ := h.file b hb
  rw [T.total_cons, Table.captured_eq hf]
  exact Nat.add_pos_left hcap _

section Packets

variable {c : Config} {T : Table} {disk : Disk} {mapping : Mem}

@[simp] theorem Config.handedOn_length (c : Config) (img : Mem) (slots offs start k : Nat) :
    (c.handedOn img slots offs start k).length = k := by
  simp [Config.handedOn]

@[simp] theorem Config.filePackets_length (c : Config) (mapping : Mem) (file : List UInt8) (base : Nat) :
    (c.filePackets mapping file base).length = numCaptured (imageOf file) := by
  simp [Config.filePackets]

/-- A part of a list that is given by position. -/
theorem map_range'_eq {α : Type} (g : Nat → α) {start k n : Nat} (h : start + k ≤ n) :
    (List.range' start k).map g = (((List.range' 0 n).map g).drop start).take k := by
  apply List.ext_getElem
  · simp only [List.length_map, List.length_range', List.length_take, List.length_drop]
    omega
  · intro i h1 h2
    simp

/-- A part of what can be handed on from a file. -/
theorem Config.handedOn_file (c : Config) (mapping : Mem) (file : List UInt8) (base : Nat) {start k : Nat}
    (h : start + k ≤ numCaptured (imageOf file)) :
    c.handedOn (readBlock mapping file) (headerSlots (imageOf file)) base start k =
      ((c.filePackets mapping file base).drop start).take k := map_range'_eq _ h

/-- The rest of what can be handed on from a file. -/
theorem Config.handedOn_rest (c : Config) (mapping : Mem) (file : List UInt8) (base : Nat) {start : Nat}
    (h : start ≤ numCaptured (imageOf file)) :
    c.handedOn (readBlock mapping file) (headerSlots (imageOf file)) base start (numCaptured (imageOf file) - start) =
      (c.filePackets mapping file base).drop start := by
  rw [c.handedOn_file mapping file base (by omega), List.take_of_length_le]
  rw [List.length_drop, c.filePackets_length]

theorem Config.packetsFrom_succ {b : Nat} {file : List UInt8} (h : T.fileAt disk b = some file) (k base : Nat) :
    c.packetsFrom T disk mapping b (k + 1) base = c.filePackets mapping file base ++
      c.packetsFrom T disk mapping (b + 1) k (base + numCaptured (imageOf file)) := by
  rw [Config.packetsFrom, h, Option.elim_some, Table.captured_eq h]

end Packets

section Walk

variable {c : Config} {T : Table} {disk : Disk} {mapping : Mem} {n : Nat}

/-- The pieces of a walk that goes on to the next file, put together. -/
theorem take_drop_append {α : Type} {xs ys : List α} {start count : Nat} (hs : start ≤ xs.length)
    (hc : xs.length ≤ start + count) :
    ((xs ++ ys).drop start).take count = xs.drop start ++ ys.take (count - (xs.length - start)) := by
  rw [List.drop_append_of_le_length hs, List.take_append, List.length_drop, List.take_of_length_le]
  rw [List.length_drop]
  omega

/-- The collecting tool behind a file that it skips. -/
theorem Config.collect_skip (c : Config) {s : Tool (List Handed)} {f : Nat} {file : List UInt8} (hr : s.reader = T.readerAt f)
    (hf : T.fileAt disk f = some file) (hw : WholeFile file) (hm : AgreeBeyond s.mapping mapping)
    (hle : numCaptured (imageOf file) ≤ s.start) :
    ∃ u, c.pass T disk collect s = (u, none) ∧ u.reader = T.readerAt (f + 1) ∧ AgreeBeyond u.mapping mapping ∧
      u.offs = s.offs + numCaptured (imageOf file) ∧ u.start = s.start - numCaptured (imageOf file) ∧ u.count = s.count ∧
      u.sink = s.sink :=
  ⟨_, c.pass_skip collect hr hf hw.hasHeader hle, rfl, fun y hy => (readHeader_beyond _ file hy).trans (hm y hy), rfl, rfl, rfl, rfl⟩

/-- The collecting tool in a file in which the count is used up. -/
theorem Config.collect_done (c : Config) {s : Tool (List Handed)} {f : Nat} {file : List UInt8} (hr : s.reader = T.readerAt f)
    (hf : T.fileAt disk f = some file) (hw : WholeFile file) (hm : AgreeBeyond s.mapping mapping)
    (hslots : headerSlots (imageOf file) ≠ 0) (hpos : 0 < s.count) (hle : s.start + s.count ≤ numCaptured (imageOf file)) :
    ∃ u, c.pass T disk collect s = (u, some .done) ∧
      u.sink = s.sink ++ ((c.filePackets mapping file s.offs).drop s.start).take s.count := by
  refine ⟨_, c.pass_done collect hr hf hw.hasHeader hslots hpos hle, ?_⟩
  simp only [foldl_collect, hw.readBlock_eq hm, c.handedOn_file mapping file s.offs hle]

/-- The collecting tool behind a file that ends before the count is used up. -/
theorem Config.collect_over (c : Config) {s : Tool (List Handed)} {f : Nat} {file : List UInt8} (hr : s.reader = T.readerAt f)
    (hf : T.fileAt disk f = some file) (hw : WholeFile file) (hm : AgreeBeyond s.mapping mapping)
    (hslots : headerSlots (imageOf file) ≠ 0) (hlt : s.start < numCaptured (imageOf file))
    (hover : numCaptured (imageOf file) < s.start + s.count) :
    ∃ u, c.pass T disk collect s = (u, endOf file) ∧ u.reader = T.readerAt (f + 1) ∧ AgreeBeyond u.mapping mapping ∧
      u.offs = s.offs + numCaptured (imageOf file) ∧ u.start = 0 ∧
      u.count = s.count - (numCaptured (imageOf file) - s.start) ∧
      u.sink = s.sink ++ (c.filePackets mapping file s.offs).drop s.start := by
  refine ⟨_, c.pass_over collect hr hf hw.hasHeader hslots hlt hover, rfl, fun y hy => ?_, rfl, rfl, rfl, ?_⟩
  · exact (readBlock_beyond _ file hy).trans (hm y hy)
  · simp only [foldl_collect, hw.readBlock_eq hm, c.handedOn_rest mapping file s.offs (Nat.le_of_lt hlt)]

/-- The tool that collects the packets, over a recording of which it has not come to the end: it hands on what is asked for, as far as
there is, and ends with the count or with the flagged file. -/
theorem Config.walk_recording (c : Config) (hrec : T.Recording disk n) (k : Nat) :
    ∀ (b : Nat) (s : Tool (List Handed)), b + k + 1 = n → s.reader = T.readerAt b → AgreeBeyond s.mapping mapping →
      s.start < T.total disk b (k + 1) → 0 < s.count →
      ∃ t x, c.mainLoop T disk collect (k + 1) s = (t, some x) ∧
        t.sink = s.sink ++ ((c.packetsFrom T disk mapping b (k + 1) s.offs).drop s.start).take s.count ∧
        (s.start + s.count ≤ T.total disk b (k + 1) → x = .done) ∧
        (T.total disk b (k + 1) < s.start + s.count → (T.fileAt disk (n - 1)).bind endOf = some x) := by
  induction k with
  | zero =>
    intro b s hb hr hm hs hc
    obtain ⟨file, hf, hw, hcap, hslots, hflag⟩ := hrec.file b (by omega)
    have htotal : T.total disk b (0 + 1) = numCaptured (imageOf file) := by
      rw [T.total_cons, T.total_zero, Table.captured_eq hf, Nat.add_zero]
    have hlist : c.packetsFrom T disk mapping b (0 + 1) s.offs = c.filePackets mapping file s.offs := by
      rw [Config.packetsFrom_succ hf, Config.packetsFrom, List.append_nil]
    rw [htotal] at hs ⊢
    rw [hlist]
    rcases Nat.lt_or_ge (numCaptured (imageOf file)) (s.start + s.count) with hover | hle
    · obtain ⟨u, hp, -, -, -, -, -, hsink⟩ := c.collect_over hr hf hw hm hslots hs hover
      -- the only file is the flagged one
      obtain ⟨x, hx⟩ := Option.ne_none_iff_exists'.mp (fun h => endOf_eq_none.mp h (hflag.mpr hb))
      rw [hx] at hp
      refine ⟨u, x, Loop.run_ends hp 0, ?_, fun h => absurd h (Nat.not_le.mpr hover), fun _ => ?_⟩
      · rw [hsink, List.take_of_length_le]
        rw [List.length_drop, c.filePackets_length]
        omega
      · rw [show n - 1 = b by omega, hf, Option.bind_some, hx]
    · obtain ⟨u, hp, hsink⟩ := c.collect_done hr hf hw hm hslots hc hle
      exact ⟨u, .done, Loop.run_ends hp 0, hsink, fun _ => rfl, fun h => absurd h (Nat.not_lt.mpr hle)⟩
  | succ k ih =>
    intro b s hb hr hm hs hc
    obtain ⟨file, hf, hw, hcap, hslots, hflag⟩ := hrec.file b (by omega)
    have hnot : ¬Flagged file := fun h => by have := hflag.mp h; omega
    have hlen := c.filePackets_length mapping file s.offs
    rw [T.total_cons, Table.captured_eq hf] at hs ⊢
    rw [Config.packetsFrom_succ hf]
    rcases Nat.lt_or_ge s.start (numCaptured (imageOf file)) with hlt | hge
    · rcases Nat.lt_or_ge (numCaptured (imageOf file)) (s.start + s.count) with hover | hle
      · obtain ⟨u, hp, hr', hm', hoffs, hstart, hcount, hsink⟩ := c.collect_over hr hf hw hm hslots hlt hover
        rw [endOf_eq_none.mpr hnot] at hp
        have hpos := hrec.total_pos (b := b + 1) (by omega) k
        obtain ⟨t, x, hrun, ht, h1, h2⟩ := ih (b + 1) u (by omega) hr' hm' (by omega) (by omega)
        refine ⟨t, x, (Loop.run_goes hp _).trans hrun, ?_, fun h => h1 (by omega), fun h => h2 (by omega)⟩
        rw [ht, hsink, hoffs, hstart, hcount, List.drop_zero, take_drop_append (by omega) (by omega), hlen, List.append_assoc]
      · obtain ⟨u, hp, hsink⟩ := c.collect_done hr hf hw hm hslots hc hle
        refine ⟨u, .done, Loop.run_ends hp _, ?_, fun _ => rfl, fun h => by omega⟩
        rw [hsink, List.drop_append_of_le_length (by omega), List.take_append_of_le_length]
        rw [List.length_drop]
        omega
    · obtain ⟨u, hp, hr', hm', hoffs, hstart, hcount, hsink⟩ := c.collect_skip hr hf hw hm hge
      obtain ⟨t, x, hrun, ht, h1, h2⟩ := ih (b + 1) u (by omega) hr' hm' (by omega) (by omega)
      refine ⟨t, x, (Loop.run_goes hp _).trans hrun, ?_, fun h => h1 (by omega), fun h => h2 (by omega)⟩
      rw [ht, hsink, hoffs, hstart, hcount, List.drop_append,
        List.drop_eq_nil_of_le (show (c.filePackets mapping file s.offs).length ≤ s.start by omega), List.nil_append, hlen]

end Walk

/-! ## The tools on a recording -/

section Tools

variable {c : Config} {T : Table} {disk : Disk} {n : Nat}

/-- Any tool on a recording, from block `b` on. What the mapping held at first makes no difference but for its last page. -/
theorem Config.tool_recording {σ : Type} (c : Config) (put : σ → Handed → σ) (hrec : T.Recording disk n) {b : Nat} (hb : b < n)
    {mapping mapping' : Mem} (hm : AgreeBeyond mapping mapping') {start count : Nat} (hs : start < T.total disk b (n - b))
    (hc : 0 < count) (sink : σ) :
    ∃ t x, c.mainLoop T disk put (n - b) (Tool.entered (T.readerAt b) mapping start count sink) = (t, some x) ∧
      t.sink = (((c.packetsFrom T disk mapping' b (n - b) 0).drop start).take count).foldl put sink ∧
      (start + count ≤ T.total disk b (n - b) → x = .done) ∧
      (T.total disk b (n - b) < start + count → (T.fileAt disk (n - 1)).bind endOf = some x) := by
  obtain ⟨k, hk⟩ : ∃ k, n - b = k + 1 := ⟨n - b - 1, by omega⟩
  rw [hk] at hs ⊢
  obtain ⟨t, x, hrun, hsink, h1, h2⟩ := c.walk_recording hrec k b (Tool.entered (T.readerAt b) mapping start count [])
    (by omega) rfl hm hs hc
  have hcol : c.collected T disk (T.readerAt b) mapping start count (k + 1) = (t, some x) := hrun
  refine ⟨t.mapSink fun out => out.foldl put sink, x, ?_, ?_, h1, h2⟩
  · rw [c.mainLoop_sink T disk put, hcol]
  · exact congrArg (fun out => List.foldl put sink out) hsink

/-- The exit of a tool on a recording: the count is reached, or the recording ends. -/
theorem Table.Recording.exit_cases (hrec : T.Recording disk n) {b : Nat} (hb : b < n) {start count : Nat} {x : Exit}
    (h1 : start + count ≤ T.total disk b (n - b) → x = .done)
    (h2 : T.total disk b (n - b) < start + count → (T.fileAt disk (n - 1)).bind endOf = some x) :
    x = .done ∨ x = .stalled ∨ x = .normal := by
  rcases Nat.lt_or_ge (T.total disk b (n - b)) (start + count) with hlt | hge
  · obtain ⟨file, hf, -, -, -, hflag⟩ := hrec.file (n - 1) (by omega)
    have hx := h2 hlt
    rw [hf, Option.bind_some] at hx
    rcases endOf_of_flagged (hflag.mpr (by omega)) with h | h
    · rw [h] at hx
      exact Or.inr (Or.inl (Option.some.inj hx).symm)
    · rw [h] at hx
      exact Or.inr (Or.inr (Option.some.inj hx).symm)
  · exact Or.inl (h1 hge)

/-! ### Length, parts and labels of what can be handed on -/

variable {mapping : Mem}

theorem Config.packetsFrom_length (c : Config) (T : Table) (disk : Disk) (mapping : Mem) (k : Nat) :
    ∀ b base, (c.packetsFrom T disk mapping b k base).length = T.total disk b k := by
  induction k with
  | zero => intro _ _; rfl
  | succ k ih =>
    intro b base
    rw [Config.packetsFrom, List.length_append, ih, T.total_cons]
    rcases hf : T.fileAt disk b with _ | file
    · simp [Table.captured, hf]
    · rw [Option.elim_some, c.filePackets_length, Table.captured_eq hf]

/-- The files of a recording in two parts. -/
theorem Config.packetsFrom_add (c : Config) (T : Table) (disk : Disk) (mapping : Mem) (k' k : Nat) :
    ∀ b base, c.packetsFrom T disk mapping b (k + k') base =
      c.packetsFrom T disk mapping b k base ++ c.packetsFrom T disk mapping (b + k) k' (base + T.total disk b k) := by
  induction k with
  | zero => intro b base; simp [Config.packetsFrom]
  | succ k ih =>
    intro b base
    rw [Nat.succ_add, Config.packetsFrom, Config.packetsFrom, ih, List.append_assoc, T.total_cons, Nat.add_assoc base,
      Nat.add_right_comm b 1 k]
    rfl

/-- A packet of a file is the same wherever the file stands in a recording. -/
theorem Config.filePackets_packet (c : Config) (mapping : Mem) (file : List UInt8) (base base' : Nat) :
    (c.filePackets mapping file base).map Handed.packet = (c.filePackets mapping file base').map Handed.packet := by
  simp [Config.filePackets, Config.handedOn]

theorem Config.packetsFrom_packet (c : Config) (T : Table) (disk : Disk) (mapping : Mem) (k : Nat) :
    ∀ b base base', (c.packetsFrom T disk mapping b k base).map Handed.packet =
      (c.packetsFrom T disk mapping b k base').map Handed.packet := by
  induction k with
  | zero => intro _ _ _; rfl
  | succ k ih =>
    intro b base base'
    rw [Config.packetsFrom, Config.packetsFrom, List.map_append, List.map_append,
      ih (b + 1) (base + T.captured disk b) (base' + T.captured disk b)]
    rcases T.fileAt disk b with _ | file
    · rw [Option.elim_none, Option.elim_none]
    · rw [Option.elim_some, Option.elim_some, c.filePackets_packet mapping file base base']

/-- The label that `dump_packet.c` gives to a packet. -/
def Handed.label (h : Handed) : Nat := h.base + (h.packet.curRow * h.numRxSlots + h.packet.curPartial)

/-- The labels of the packets of a file, behind `base` packets. -/
theorem Config.filePackets_label (c : Config) (mapping : Mem) (file : List UInt8) (base : Nat) :
    (c.filePackets mapping file base).map Handed.label = List.range' base (numCaptured (imageOf file)) := by
  rw [Config.filePackets, Config.handedOn, List.map_map, List.range'_eq_map_range, List.range'_eq_map_range, List.map_map]
  refine List.map_congr_left fun j _ => ?_
  simp only [Function.comp_apply, Handed.label, Config.packetAt, Nat.zero_add, Nat.div_add_mod']

/-- The labels are consecutive across the files of a recording. -/
theorem Config.packetsFrom_label (c : Config) (T : Table) (disk : Disk) (mapping : Mem) (k : Nat) :
    ∀ b base, (c.packetsFrom T disk mapping b k base).map Handed.label = List.range' base (T.total disk b k) := by
  induction k with
  | zero => intro _ _; rfl
  | succ k ih =>
    intro b base
    rw [Config.packetsFrom, List.map_append, ih, T.total_cons, ← List.range'_append_1]
    rcases hf : T.fileAt disk b with _ | file
    · simp [Table.captured, hf]
    · rw [Option.elim_some, c.filePackets_label, Table.captured_eq hf]

end Tools

end NicRecorder
