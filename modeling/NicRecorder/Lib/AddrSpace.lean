import NicRecorder.Lib.Bytes
import NicRecorder.Lib.Runs

/-!
# Processes that map memory

An address space is a list of mappings of ranges of addresses to physical memory. A process, a `Client`, calls the kernel to map and
unmap ranges, and loads and stores bytes by address. The kernel takes the address that a request names as a hint: it grants it if
the range is free, and chooses another one if not. The device that is mapped determines which physical memory a mapping shows.
Everything else goes on meanwhile: the memory is written by others, and the other mappings of the process change, outside of a
window of addresses.

A client that keeps books, `Client.KeepsBooks`, knows the ranges it has mapped, names only free ones, unmaps what it has mapped and
touches nothing else. `KeepsBooks.sound` is the rule: the books of such a client are right in all its runs, and its calls and
accesses are safe.
-/

namespace AddrSpace

open ByteMem Runs

/-! ## Ranges of addresses -/

structure Region where
  start : Nat
  len : Nat
  deriving DecidableEq, Repr

def Region.stop (r : Region) : Nat := r.start + r.len

def Region.Has (r : Region) (a : Nat) : Prop := r.start ≤ a ∧ a < r.stop

instance (r : Region) (a : Nat) : Decidable (r.Has a) := inferInstanceAs (Decidable (_ ∧ _))

def Region.Disjoint (r q : Region) : Prop := r.stop ≤ q.start ∨ q.stop ≤ r.start

def Region.Within (r q : Region) : Prop := q.start ≤ r.start ∧ r.stop ≤ q.stop

/-- A range of whole pages. -/
def Region.Aligned (page : Nat) (r : Region) : Prop := page ∣ r.start ∧ page ∣ r.len

section Regions

variable {r q w : Region}

theorem Region.Disjoint.symm (h : r.Disjoint q) : q.Disjoint r := Or.symm h

theorem Region.Disjoint.of_within (h : q.Disjoint w) (hr : r.Within w) : r.Disjoint q := by
  obtain ⟨h1, h2⟩ := hr
  rcases h with h | h
  · exact Or.inr (Nat.le_trans h h1)
  · exact Or.inl (Nat.le_trans h2 h)

/-- A part of a range, by its place in it. -/
theorem Region.within_add {base off n len : Nat} (h : off + n ≤ len) : Region.Within ⟨base + off, n⟩ ⟨base, len⟩ := by
  refine ⟨Nat.le_add_right _ _, ?_⟩
  rw [Region.stop, Region.stop, Nat.add_assoc]
  exact Nat.add_le_add_left h base

theorem Region.within_start {base n len : Nat} (h : n ≤ len) : Region.Within ⟨base, n⟩ ⟨base, len⟩ :=
  ⟨Nat.le_refl base, Nat.add_le_add_left h base⟩

theorem Region.Disjoint.not_has {a : Nat} (h : r.Disjoint q) (ha : r.Has a) : ¬q.Has a := by
  rintro ⟨h1, h2⟩
  obtain ⟨h3, h4⟩ := ha
  rcases h with h | h <;> omega

end Regions

/-! ## Mappings -/

/-- A mapping: addresses, and the physical address of the first one. -/
structure Mapping where
  region : Region
  phys : Nat
  deriving DecidableEq, Repr

/-- The physical address of an address in a mapping. -/
def Mapping.translate (m : Mapping) (a : Nat) : Option Nat :=
  if m.region.Has a then some (m.phys + (a - m.region.start)) else none

/-- What is left of a mapping when a range is unmapped: the part before it, and the part behind it. -/
def Mapping.minus (m : Mapping) (r : Region) : List Mapping :=
  (if m.region.start < min m.region.stop r.start then
    [⟨⟨m.region.start, min m.region.stop r.start - m.region.start⟩, m.phys⟩] else []) ++
  (if max m.region.start r.stop < m.region.stop then
    [⟨⟨max m.region.start r.stop, m.region.stop - max m.region.start r.stop⟩,
      m.phys + (max m.region.start r.stop - m.region.start)⟩] else [])

/-- The physical address of an address; none if it is not mapped. -/
def translate (space : List Mapping) (a : Nat) : Option Nat := space.findSome? fun m => m.translate a

/-- `munmap` of a range. -/
def unmap (space : List Mapping) (r : Region) : List Mapping := space.flatMap fun m => m.minus r

/-- The bytes at addresses; none if one of them is not mapped. -/
def loadVia (space : List Mapping) (mem : Mem) : Nat → Nat → Option (List UInt8)
  | _, 0 => some []
  | a, n + 1 => (translate space a).bind fun p => (loadVia space mem (a + 1) n).map fun bs => mem p :: bs

/-- The memory after bytes have been stored at addresses; none if one of them is not mapped. -/
def storeVia (space : List Mapping) : Mem → Nat → List UInt8 → Option Mem
  | mem, _, [] => some mem
  | mem, a, b :: bs => (translate space a).bind fun p => storeVia space (Function.update mem p b) (a + 1) bs

section Mappings

variable {m : Mapping} {r : Region} {space : List Mapping} {mem : Mem} {a p n : Nat}

theorem Mapping.minus_self (m : Mapping) : m.minus m.region = [] := by
  rw [Mapping.minus, if_neg (Nat.not_lt.mpr (Nat.min_le_right _ _)), if_neg (Nat.not_lt.mpr (Nat.le_max_right _ _))]
  rfl

theorem Mapping.minus_disjoint (hm : 0 < m.region.len) (h : m.region.Disjoint r) : m.minus r = [m] := by
  have hlt : m.region.start < m.region.stop := Nat.lt_add_of_pos_right hm
  have hlen : m.region.stop - m.region.start = m.region.len := Nat.add_sub_cancel_left _ _
  rcases h with h | h
  · rw [Mapping.minus, Nat.min_eq_left h, if_pos hlt, hlen]
    have hle : m.region.stop ≤ max m.region.start r.stop :=
      Nat.le_trans h (Nat.le_trans (Nat.le_add_right _ _) (Nat.le_max_right _ _))
    rw [if_neg (Nat.not_lt.mpr hle)]
    rfl
  · have hle : min m.region.stop r.start ≤ m.region.start :=
      Nat.le_trans (Nat.min_le_right _ _) (Nat.le_trans (Nat.le_add_right _ _) h)
    rw [Mapping.minus, if_neg (Nat.not_lt.mpr hle), Nat.max_eq_left h, if_pos hlt, hlen, Nat.sub_self]
    rfl

/-- A range that no mapping meets can be unmapped without effect. -/
theorem unmap_disjoint (hpos : ∀ m ∈ space, 0 < m.region.len) (h : ∀ m ∈ space, m.region.Disjoint r) : unmap space r = space := by
  induction space with
  | nil => rfl
  | cons m space ih =>
    have htail := ih (fun x hx => hpos x (List.mem_cons_of_mem m hx)) fun x hx => h x (List.mem_cons_of_mem m hx)
    rw [unmap, List.flatMap_cons, Mapping.minus_disjoint (hpos m List.mem_cons_self) (h m List.mem_cons_self)]
    exact congrArg (m :: ·) htail

theorem translate_cons_of_has (h : m.region.Has a) : translate (m :: space) a = some (m.phys + (a - m.region.start)) := by
  rw [translate, List.findSome?_cons, Mapping.translate, if_pos h]

theorem translate_cons_of_not_has (h : ¬m.region.Has a) : translate (m :: space) a = translate space a := by
  rw [translate, List.findSome?_cons, Mapping.translate, if_neg h]
  rfl

/-- An address in one of several mappings that do not meet. -/
theorem translate_of_mem (hd : space.Pairwise fun m q => m.region.Disjoint q.region) (hm : m ∈ space) (ha : m.region.Has a) :
    translate space a = some (m.phys + (a - m.region.start)) := by
  induction space with
  | nil => cases hm
  | cons q space ih =>
    obtain ⟨hq, hd⟩ := List.pairwise_cons.mp hd
    rcases List.mem_cons.mp hm with rfl | hm
    · exact translate_cons_of_has ha
    · rw [translate_cons_of_not_has ((hq m hm).symm.not_has ha), ih hd hm]

/-- Loads through mappings that show one range of the physical memory are loads of that range. -/
theorem loadVia_eq (mem : Mem) (h : ∀ k < n, translate space (a + k) = some (p + k)) : loadVia space mem a n = some (mem.load p n) := by
  induction n generalizing a p with
  | zero => rfl
  | succ n ih =>
    have hrest : loadVia space mem (a + 1) n = some (mem.load (p + 1) n) := ih fun k hk => by
      rw [Nat.add_assoc, Nat.add_assoc, Nat.add_comm 1 k]
      exact h (k + 1) (Nat.succ_lt_succ hk)
    have hload := load_append mem p 1 n
    rw [Nat.add_comm 1 n] at hload
    rw [loadVia, show translate space a = some p from h 0 (Nat.succ_pos n), Option.bind_some, hrest, Option.map_some, ← hload]
    rfl

theorem store_cons (mem : Mem) (p : Nat) (b : UInt8) (bs : List UInt8) :
    mem.store p (b :: bs) = Mem.store (Function.update mem p b) (p + 1) bs := by
  funext x
  unfold Mem.store
  rw [List.length_cons]
  by_cases hx : x = p
  · subst hx
    rw [if_pos (by omega), if_neg (by omega), Function.update_self, Nat.sub_self]
    rfl
  · rw [Function.update_of_ne hx]
    by_cases h : p + 1 ≤ x ∧ x < p + 1 + bs.length
    · obtain ⟨k, rfl⟩ := Nat.exists_eq_add_of_le h.1
      rw [if_pos h, if_pos (by omega), Nat.add_sub_cancel_left, show p + 1 + k - p = k + 1 by omega, List.getD_cons_succ]
    · rw [if_neg h, if_neg (by omega)]

theorem storeVia_eq {bs : List UInt8} (h : ∀ k < bs.length, translate space (a + k) = some (p + k)) :
    storeVia space mem a bs = some (mem.store p bs) := by
  induction bs generalizing mem a p with
  | nil =>
    rw [storeVia]
    congr 1
    funext x
    exact (store_outside mem p [] x (by rw [List.length_nil]; omega)).symm
  | cons b bs ih =>
    have hrest : storeVia space (Function.update mem p b) (a + 1) bs = some (Mem.store (Function.update mem p b) (p + 1) bs) :=
      ih fun k hk => by
        rw [Nat.add_assoc, Nat.add_assoc, Nat.add_comm 1 k]
        exact h (k + 1) (Nat.succ_lt_succ hk)
    rw [storeVia, show translate space a = some p from h 0 (Nat.succ_pos _), Option.bind_some, hrest, store_cons]

end Mappings

/-! ## Clients -/

/-- The next call or access of a process. -/
inductive Op where
  | mmap (r : Region)
  | munmap (r : Region)
  | load (addr len : Nat)
  | store (addr : Nat) (bytes : List UInt8)
  | other

/-- The first address of an access. -/
def Op.addr : Op → Option Nat
  | .load a _ => some a
  | .store a _ => some a
  | _ => none

/-- What a call or an access gives back: the address of a mapping, or the bytes of a load. -/
structure Reply where
  addr : Nat
  bytes : List UInt8

/-- A process, with states `σ`; `ι` are the choices of its surroundings. -/
structure Client (σ ι : Type) where
  op : σ → ι → Op
  next : σ → ι → Reply → σ

/-- A process in its address space; `others` are the ranges of all other mappings. -/
structure World (σ : Type) where
  proc : σ
  space : List Mapping
  others : List Region
  mem : Mem

/-- A range of whole pages in which nothing is mapped. -/
structure Free (page : Nat) (space : List Mapping) (others : List Region) (r : Region) : Prop where
  aligned : r.Aligned page
  space : ∀ m ∈ space, r.Disjoint m.region
  others : ∀ q ∈ others, r.Disjoint q

/-- The address that the kernel gives to a request: the one that is named if and only if the range is free. -/
structure Grants (page : Nat) (space : List Mapping) (others : List Region) (r : Region) (addr : Nat) : Prop where
  hint : addr = r.start ↔ Free page space others r
  free : Free page space others ⟨addr, r.len⟩

/-- A step is a call or an access of the process, or one of the surroundings. -/
inductive Act (ι : Type) where
  | call (i : ι)
  | env

section Clients

variable {σ ι : Type}

/-- The steps of a process. A load or store outside of all mappings has none. `dev` is the physical address that the device shows at
the first address of a mapping; the surroundings map nothing in the window. -/
inductive Step (C : Client σ ι) (dev : Nat → Nat) (page : Nat) (window : Region) : World σ → Act ι → World σ → Prop where
  | mmap {w : World σ} {i : ι} {r : Region} {addr : Nat} : C.op w.proc i = .mmap r → Grants page w.space w.others r addr →
      Step C dev page window w (.call i)
        { w with proc := C.next w.proc i ⟨addr, []⟩, space := ⟨⟨addr, r.len⟩, dev addr⟩ :: w.space }
  | munmap {w : World σ} {i : ι} {r : Region} : C.op w.proc i = .munmap r →
      Step C dev page window w (.call i) { w with proc := C.next w.proc i ⟨0, []⟩, space := unmap w.space r }
  | load {w : World σ} {i : ι} {a n : Nat} {bs : List UInt8} : C.op w.proc i = .load a n → loadVia w.space w.mem a n = some bs →
      Step C dev page window w (.call i) { w with proc := C.next w.proc i ⟨0, bs⟩ }
  | store {w : World σ} {i : ι} {a : Nat} {bs : List UInt8} {mem : Mem} : C.op w.proc i = .store a bs →
      storeVia w.space w.mem a bs = some mem →
      Step C dev page window w (.call i) { w with proc := C.next w.proc i ⟨0, []⟩, mem := mem }
  | other {w : World σ} {i : ι} : C.op w.proc i = .other →
      Step C dev page window w (.call i) { w with proc := C.next w.proc i ⟨0, []⟩ }
  | env {w : World σ} {others : List Region} {mem : Mem} : (∀ q ∈ others, q.Disjoint window) →
      Step C dev page window w .env { w with others := others, mem := mem }

/-- The runs of a process that begins in state `s` with nothing mapped. -/
def Client.system (C : Client σ ι) (dev : Nat → Nat) (page : Nat) (window : Region) (s : σ) : System (World σ) (Act ι) where
  init w := w.proc = s ∧ w.space = [] ∧ ∀ q ∈ w.others, q.Disjoint window
  step := Step C dev page window

/-! ## Books -/

/-- What a process with the ranges `own` may do: map a free range of whole pages in the window, unmap one of its ranges, and access
one of them. -/
def Op.Allowed (page : Nat) (window : Region) (own : List Region) : Op → Prop
  | .mmap r => r.Aligned page ∧ 0 < r.len ∧ r.Within window ∧ ∀ q ∈ own, r.Disjoint q
  | .munmap r => r ∈ own
  | .load a n => ∃ r ∈ own, Region.Within ⟨a, n⟩ r
  | .store a bs => ∃ r ∈ own, Region.Within ⟨a, bs.length⟩ r
  | .other => True

/-- The replies that a process counts on. -/
def Op.Answers : Op → Reply → Prop
  | .mmap r, reply => reply.addr = r.start
  | .load _ n, reply => reply.bytes.length = n
  | _, _ => True

/-- The ranges after a call or an access. -/
def Op.Moves (own own' : List Region) : Op → Prop
  | .mmap r => own' = r :: own
  | .munmap r => ∃ before behind, own = before ++ r :: behind ∧ own' = before ++ behind
  | _ => own' = own

/-- `own` are the ranges that the process has mapped, in states with `Ok`: it does what it may do, and goes on in such a state. -/
structure Client.KeepsBooks (C : Client σ ι) (page : Nat) (window : Region) (Ok : σ → Prop) (own : σ → List Region) : Prop where
  allowed : ∀ s i, Ok s → (C.op s i).Allowed page window (own s)
  next : ∀ s i reply, Ok s → (C.op s i).Answers reply →
    Ok (C.next s i reply) ∧ (C.op s i).Moves (own s) (own (C.next s i reply))

/-- The mapping of a range by a device. -/
def mapped (dev : Nat → Nat) (r : Region) : Mapping := ⟨r, dev r.start⟩

/-- The books are right: they are the mappings of the process, which do not meet and lie in the window, apart from all others. -/
structure Sound (dev : Nat → Nat) (window : Region) (Ok : σ → Prop) (own : σ → List Region) (w : World σ) : Prop where
  ok : Ok w.proc
  space : w.space = (own w.proc).map (mapped dev)
  apart : (own w.proc).Pairwise Region.Disjoint
  inside : ∀ r ∈ own w.proc, 0 < r.len ∧ r.Within window
  others : ∀ q ∈ w.others, q.Disjoint window

section Rule

variable {C : Client σ ι} {dev : Nat → Nat} {page : Nat} {window : Region} {Ok : σ → Prop} {own : σ → List Region} {w : World σ}

/-- A range that the process may map is free. -/
theorem Sound.free (h : Sound dev window Ok own w) {r : Region} (hr : (Op.mmap r).Allowed page window (own w.proc)) :
    Free page w.space w.others r := by
  obtain ⟨haligned, -, hin, hdis⟩ := hr
  refine ⟨haligned, fun m hm => ?_, fun q hq => (h.others q hq).of_within hin⟩
  rw [h.space] at hm
  obtain ⟨q, hq, rfl⟩ := List.mem_map.mp hm
  exact hdis q hq

/-- Unmapping one of the ranges leaves the others as they are. -/
theorem Sound.unmap_own (h : Sound dev window Ok own w) {r : Region} {before behind : List Region}
    (hown : own w.proc = before ++ r :: behind) : unmap w.space r = (before ++ behind).map (mapped dev) := by
  have hapart := h.apart
  have hpos : ∀ q ∈ own w.proc, 0 < q.len := fun q hq => (h.inside q hq).1
  rw [hown] at hapart hpos
  obtain ⟨-, hbehind, hbefore⟩ := List.pairwise_append.mp hapart
  have hrest : ∀ l : List Region, (∀ q ∈ l, 0 < q.len ∧ q.Disjoint r) → unmap (l.map (mapped dev)) r = l.map (mapped dev) := by
    intro l hl
    refine unmap_disjoint (fun m hm => ?_) fun m hm => ?_
    · obtain ⟨q, hq, rfl⟩ := List.mem_map.mp hm
      exact (hl q hq).1
    · obtain ⟨q, hq, rfl⟩ := List.mem_map.mp hm
      exact (hl q hq).2
  have h1 := hrest before fun q hq =>
    ⟨hpos q (List.mem_append_left _ hq), hbefore q hq r List.mem_cons_self⟩
  have h2 := hrest behind fun q hq =>
    ⟨hpos q (List.mem_append_right _ (List.mem_cons_of_mem r hq)), ((List.pairwise_cons.mp hbehind).1 q hq).symm⟩
  rw [h.space, hown, List.map_append, List.map_cons, unmap, List.flatMap_append, List.flatMap_cons, List.map_append]
  exact congrArg₂ (· ++ ·) h1 ((congrArg (· ++ _) (Mapping.minus_self (mapped dev r))).trans h2)

/-- The physical addresses of a range that the process may access. -/
theorem Sound.translate_eq (h : Sound dev window Ok own w) {a n : Nat} {r : Region} (hr : r ∈ own w.proc)
    (hin : Region.Within ⟨a, n⟩ r) : ∀ k < n, translate w.space (a + k) = some (dev r.start + (a - r.start) + k) := by
  intro k hk
  obtain ⟨h1, h2⟩ := hin
  simp only [Region.stop] at h1 h2
  have hd : w.space.Pairwise fun m q => m.region.Disjoint q.region := by
    rw [h.space, List.pairwise_map]
    exact h.apart
  have hm : mapped dev r ∈ w.space := by
    rw [h.space]
    exact List.mem_map_of_mem hr
  have hhas : (mapped dev r).region.Has (a + k) := ⟨Nat.le_add_right_of_le h1, Nat.lt_of_lt_of_le (Nat.add_lt_add_left hk a) h2⟩
  rw [translate_of_mem hd hm hhas]
  congr 1
  show dev r.start + (a + k - r.start) = _
  omega

/-- Books that do not change stay right when the mappings do not change. -/
theorem Sound.keep (h : Sound dev window Ok own w) {s : σ} (hok : Ok s) (hown : own s = own w.proc) (mem : Mem) :
    Sound dev window Ok own { w with proc := s, mem := mem } := by
  refine ⟨hok, ?_, ?_, ?_, h.others⟩ <;> rw [hown]
  · exact h.space
  · exact h.apart
  · exact h.inside

/-- Every step of a process that keeps books keeps them right. -/
theorem Client.KeepsBooks.sound_step (hC : C.KeepsBooks page window Ok own) {w' : World σ} {act : Act ι}
    (h : Sound dev window Ok own w) (hstep : Step C dev page window w act w') : Sound dev window Ok own w' := by
  cases hstep with
  | @mmap i r addr hop hgrant =>
    have hallowed := hC.allowed w.proc i h.ok
    rw [hop] at hallowed
    obtain rfl : addr = r.start := hgrant.hint.mpr (h.free hallowed)
    obtain ⟨-, hpos, hin, hdis⟩ := hallowed
    obtain ⟨hok, hown⟩ := hC.next w.proc i ⟨r.start, []⟩ h.ok (by rw [hop]; rfl)
    rw [hop] at hown
    have hown : own (C.next w.proc i ⟨r.start, []⟩) = r :: own w.proc := hown
    refine ⟨hok, ?_, ?_, ?_, h.others⟩
    · rw [hown, List.map_cons, ← h.space]
      rfl
    · rw [hown]
      exact List.pairwise_cons.mpr ⟨hdis, h.apart⟩
    · rw [hown]
      exact List.forall_mem_cons.mpr ⟨⟨hpos, hin⟩, h.inside⟩
  | @munmap i r hop =>
    obtain ⟨hok, hmoves⟩ := hC.next w.proc i ⟨0, []⟩ h.ok (by rw [hop]; trivial)
    rw [hop] at hmoves
    obtain ⟨before, behind, hown, hown'⟩ := hmoves
    have hsub : (before ++ behind).Sublist (before ++ r :: behind) := (List.sublist_cons_self r behind).append_left before
    refine ⟨hok, ?_, ?_, ?_, h.others⟩
    · rw [hown']
      exact h.unmap_own hown
    · rw [hown']
      have hapart := h.apart
      rw [hown] at hapart
      exact hapart.sublist hsub
    · rw [hown']
      intro q hq
      refine h.inside q ?_
      rw [hown]
      exact hsub.subset hq
  | @load i a n bs hop hload =>
    have hallowed := hC.allowed w.proc i h.ok
    rw [hop] at hallowed
    obtain ⟨r, hr, hin⟩ := hallowed
    rw [loadVia_eq w.mem (h.translate_eq hr hin)] at hload
    obtain ⟨hok, hown⟩ := hC.next w.proc i ⟨0, bs⟩ h.ok (by
      rw [hop, ← Option.some.inj hload]
      exact load_length _ _ _)
    rw [hop] at hown
    exact h.keep hok hown w.mem
  | @store i a bs mem hop hstore =>
    obtain ⟨hok, hown⟩ := hC.next w.proc i ⟨0, []⟩ h.ok (by rw [hop]; trivial)
    rw [hop] at hown
    exact h.keep hok hown mem
  | @other i hop =>
    obtain ⟨hok, hown⟩ := hC.next w.proc i ⟨0, []⟩ h.ok (by rw [hop]; trivial)
    rw [hop] at hown
    exact h.keep hok hown w.mem
  | env hothers => exact ⟨h.ok, h.space, h.apart, h.inside, hothers⟩

/-- In all runs of a process that keeps books they are right. -/
theorem Client.KeepsBooks.sound (hC : C.KeepsBooks page window Ok own) {s : σ} (hs : Ok s) (hnone : own s = [])
    (h : Reached (C.system dev page window s) (fun _ _ => True) w) : Sound dev window Ok own w := by
  refine h.invariant (I := Sound dev window Ok own) (fun w hw => ?_) fun w act w' hw _ hstep => hC.sound_step hw hstep
  obtain ⟨rfl, hspace, hothers⟩ := hw
  refine ⟨hs, ?_, ?_, ?_, hothers⟩
  · rw [hspace, hnone]
    rfl
  · rw [hnone]
    exact List.Pairwise.nil
  · rw [hnone]
    exact fun r hr => absurd hr List.not_mem_nil

end Rule

/-! ## Safe calls and accesses -/

/-- A call or an access does what is meant: what it maps is free, so that the kernel grants the address; what it unmaps is one of the
mappings with its own size, which goes while the others stay; and the bytes that it loads or stores are those of the physical memory
from `named` on. -/
def Op.Safe (page : Nat) (space : List Mapping) (others : List Region) (named : Nat) : Op → Prop
  | .mmap r => Free page space others r
  | .munmap r => ∃ before m behind, space = before ++ m :: behind ∧ m.region = r ∧ unmap space r = before ++ behind
  | .load a n => ∀ k < n, translate space (a + k) = some (named + k)
  | .store a bs => ∀ k < bs.length, translate space (a + k) = some (named + k)
  | .other => True

/-- What an access does to the physical memory, with the bytes that it gives back. -/
def Op.Physical (named : Nat) (mem mem' : Mem) (bytes : List UInt8) : Op → Prop
  | .load _ n => bytes = mem.load named n ∧ mem' = mem
  | .store _ bs => mem' = mem.store named bs
  | _ => mem' = mem

section Safe

variable {C : Client σ ι} {dev : Nat → Nat} {page : Nat} {window : Region} {w : World σ} {i : ι} {named : Nat}

/-- A safe step loads and stores the physical memory that is named, and goes on with the replies that the process counts on. -/
theorem Op.Safe.physical (hsafe : (C.op w.proc i).Safe page w.space w.others named) {w' : World σ}
    (hstep : Step C dev page window w (.call i) w') :
    ∃ reply, w'.proc = C.next w.proc i reply ∧ (C.op w.proc i).Answers reply ∧
      (C.op w.proc i).Physical named w.mem w'.mem reply.bytes := by
  cases hstep with
  | @mmap _ r addr hop hgrant =>
    rw [hop] at hsafe ⊢
    exact ⟨⟨addr, []⟩, rfl, hgrant.hint.mpr hsafe, rfl⟩
  | munmap hop =>
    rw [hop]
    exact ⟨⟨0, []⟩, rfl, trivial, rfl⟩
  | @load _ a n bs hop hload =>
    rw [hop] at hsafe ⊢
    rw [loadVia_eq w.mem hsafe] at hload
    have hbs := (Option.some.inj hload).symm
    exact ⟨⟨0, bs⟩, rfl, (congrArg List.length hbs).trans (load_length _ _ _), hbs, rfl⟩
  | @store _ a bs mem hop hstore =>
    rw [hop] at hsafe ⊢
    rw [storeVia_eq hsafe] at hstore
    exact ⟨⟨0, []⟩, rfl, trivial, (Option.some.inj hstore).symm⟩
  | other hop =>
    rw [hop]
    exact ⟨⟨0, []⟩, rfl, trivial, rfl⟩

/-- A safe call or access can be made: no access is outside of all mappings. -/
theorem Op.Safe.enabled (hsafe : (C.op w.proc i).Safe page w.space w.others named) :
    ∃ w', Step C dev page window w (.call i) w' := by
  rcases hop : C.op w.proc i with r | r | ⟨a, n⟩ | ⟨a, bs⟩ | _ <;> rw [hop] at hsafe
  · exact ⟨_, Step.mmap hop ⟨⟨fun _ => hsafe, fun _ => rfl⟩, hsafe⟩⟩
  · exact ⟨_, Step.munmap hop⟩
  · exact ⟨_, Step.load hop (loadVia_eq w.mem hsafe)⟩
  · exact ⟨_, Step.store hop (storeVia_eq hsafe)⟩
  · exact ⟨_, Step.other hop⟩

end Safe

/-- The calls and accesses of a process that keeps books are safe, where it names the physical memory that its ranges show. -/
theorem Client.KeepsBooks.safe {C : Client σ ι} {dev : Nat → Nat} {page : Nat} {window : Region} {Ok : σ → Prop}
    {own : σ → List Region} (hC : C.KeepsBooks page window Ok own) {w : World σ} (h : Sound dev window Ok own w) (i : ι) {named : Nat}
    (hnamed : ∀ a r, (C.op w.proc i).addr = some a → r ∈ own w.proc → r.start ≤ a → named = dev r.start + (a - r.start)) :
    (C.op w.proc i).Safe page w.space w.others named := by
  have hallowed := hC.allowed w.proc i h.ok
  rcases hop : C.op w.proc i with r | r | ⟨a, n⟩ | ⟨a, bs⟩ | _ <;> rw [hop] at hallowed
  · exact h.free hallowed
  · obtain ⟨before, behind, hown⟩ := List.append_of_mem hallowed
    refine ⟨before.map (mapped dev), mapped dev r, behind.map (mapped dev), ?_, rfl, ?_⟩
    · rw [h.space, hown, List.map_append, List.map_cons]
    · rw [h.unmap_own hown, List.map_append]
  · obtain ⟨r, hr, hin⟩ := hallowed
    rw [hnamed a r (by rw [hop]; rfl) hr hin.1]
    exact h.translate_eq hr hin
  · obtain ⟨r, hr, hin⟩ := hallowed
    rw [hnamed a r (by rw [hop]; rfl) hr hin.1]
    exact h.translate_eq hr hin
  · trivial

end Clients

end AddrSpace
