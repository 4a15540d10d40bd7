import NicRecorder.Lib.Bytes

/-!
# The pcap format

A capture file is a header and a list of records, all numbers little-endian. A record is its own header, which ends with the
number of bytes that follow and the length that the packet had on the wire, and those bytes. There is no mark between records: a
reader finds the next one by the length of the last. `decode` is such a reader, and `decode_encode` says that it gives back what
was written.
-/

namespace Pcap

open ByteMem

/-- The header of a file. -/
structure Header where
  magicNumber : Nat
  versionMajor : Nat
  versionMinor : Nat
  thiszone : Nat
  sigfigs : Nat
  snaplen : Nat
  network : Nat
  deriving DecidableEq, Repr

/-- A record: the fields of its header, and the bytes of the packet. -/
structure Record where
  tsSec : Nat
  tsUsec : Nat
  inclLen : Nat
  origLen : Nat
  data : List UInt8
  deriving DecidableEq, Repr

/-- The bytes of the header of a file. -/
def Header.bytes (h : Header) : List UInt8 :=
  leBytes 4 h.magicNumber ++ (leBytes 2 h.versionMajor ++ (leBytes 2 h.versionMinor ++ (leBytes 4 h.thiszone ++
    (leBytes 4 h.sigfigs ++ (leBytes 4 h.snaplen ++ leBytes 4 h.network)))))

/-- The bytes of the header of a record. -/
def Record.hdrBytes (r : Record) : List UInt8 :=
  leBytes 4 r.tsSec ++ (leBytes 4 r.tsUsec ++ (leBytes 4 r.inclLen ++ leBytes 4 r.origLen))

/-- The bytes of a record. -/
def Record.bytes (r : Record) : List UInt8 := r.hdrBytes ++ r.data

/-- The bytes of a file. -/
def encode (h : Header) (rs : List Record) : List UInt8 := h.bytes ++ rs.flatMap Record.bytes

/-! ## Reading -/

/-- Read a number of `w` bytes: the number, and the bytes behind it. -/
def takeNat (w : Nat) (bs : List UInt8) : Option (Nat × List UInt8) :=
  if w ≤ bs.length then some (leNat (bs.take w), bs.drop w) else none

/-- Read the header of a file. -/
def decodeHeader (bs : List UInt8) : Option (Header × List UInt8) := do
  let (magicNumber, bs) ← takeNat 4 bs
  let (versionMajor, bs) ← takeNat 2 bs
  let (versionMinor, bs) ← takeNat 2 bs
  let (thiszone, bs) ← takeNat 4 bs
  let (sigfigs, bs) ← takeNat 4 bs
  let (snaplen, bs) ← takeNat 4 bs
  let (network, bs) ← takeNat 4 bs
  return (⟨magicNumber, versionMajor, versionMinor, thiszone, sigfigs, snaplen, network⟩, bs)

/-- Read one record: its header, and as many bytes as the header says. -/
def decodeRecord (bs : List UInt8) : Option (Record × List UInt8) := do
  let (tsSec, bs) ← takeNat 4 bs
  let (tsUsec, bs) ← takeNat 4 bs
  let (inclLen, bs) ← takeNat 4 bs
  let (origLen, bs) ← takeNat 4 bs
  if inclLen ≤ bs.length then
    return (⟨tsSec, tsUsec, inclLen, origLen, bs.take inclLen⟩, bs.drop inclLen)
  else none

/-- Read records to the end of the bytes, at most `n` of them. -/
def decodeRecords : Nat → List UInt8 → Option (List Record)
  | _, [] => some []
  | 0, _ :: _ => none
  | n + 1, b :: bs => do
    let (r, rest) ← decodeRecord (b :: bs)
    let rs ← decodeRecords n rest
    return r :: rs

/-- Read a file. It has no more records than bytes. -/
def decode (bs : List UInt8) : Option (Header × List Record) := do
  let (h, rest) ← decodeHeader bs
  let rs ← decodeRecords rest.length rest
  return (h, rs)

/-! ## What was written is read back -/

/-- The fields of a header fit their widths. -/
structure Header.Fits (h : Header) : Prop where
  magicNumber : h.magicNumber < 256 ^ 4
  versionMajor : h.versionMajor < 256 ^ 2
  versionMinor : h.versionMinor < 256 ^ 2
  thiszone : h.thiszone < 256 ^ 4
  sigfigs : h.sigfigs < 256 ^ 4
  snaplen : h.snaplen < 256 ^ 4
  network : h.network < 256 ^ 4

/-- The fields of a record fit their widths, and it has as many bytes as it says. -/
structure Record.Fits (r : Record) : Prop where
  tsSec : r.tsSec < 256 ^ 4
  tsUsec : r.tsUsec < 256 ^ 4
  inclLen : r.inclLen < 256 ^ 4
  origLen : r.origLen < 256 ^ 4
  data : r.data.length = r.inclLen

@[simp] theorem header_length (h : Header) : h.bytes.length = 24 := by
  simp [Header.bytes]

@[simp] theorem hdrBytes_length (r : Record) : r.hdrBytes.length = 16 := by
  simp [Record.hdrBytes]

theorem record_length (r : Record) : r.bytes.length = 16 + r.data.length := by
  rw [Record.bytes, List.length_append, hdrBytes_length]

/-- The length of a file that was written. -/
theorem encode_length (h : Header) (rs : List Record) :
    (encode h rs).length = 24 + (rs.map fun r => 16 + r.data.length).sum := by
  rw [encode, List.length_append, header_length, List.length_flatMap]
  simp only [record_length]

theorem takeNat_leBytes {w v : Nat} (h : v < 256 ^ w) (rest : List UInt8) :
    takeNat w (leBytes w v ++ rest) = some (v, rest) := by
  unfold takeNat
  rw [if_pos (by simp), List.take_left' (leBytes_length w v), List.drop_left' (leBytes_length w v), leNat_leBytes w v h]

theorem decodeHeader_bytes {h : Header} (hf : h.Fits) (rest : List UInt8) :
    decodeHeader (h.bytes ++ rest) = some (h, rest) := by
  simp only [decodeHeader, Header.bytes, List.append_assoc, Option.bind_eq_bind, takeNat_leBytes hf.magicNumber,
    takeNat_leBytes hf.versionMajor, takeNat_leBytes hf.versionMinor, takeNat_leBytes hf.thiszone,
    takeNat_leBytes hf.sigfigs, takeNat_leBytes hf.snaplen, takeNat_leBytes hf.network, Option.bind_some]
  rfl

theorem decodeRecord_bytes {r : Record} (hf : r.Fits) (rest : List UInt8) :
    decodeRecord (r.bytes ++ rest) = some (r, rest) := by
  have hle : r.inclLen ≤ (r.data ++ rest).length := by
    rw [List.length_append, hf.data]
    exact Nat.le_add_right _ _
  simp only [decodeRecord, Record.bytes, Record.hdrBytes, List.append_assoc, Option.bind_eq_bind, takeNat_leBytes hf.tsSec,
    takeNat_leBytes hf.tsUsec, takeNat_leBytes hf.inclLen, takeNat_leBytes hf.origLen, Option.bind_some, if_pos hle,
    List.take_left' hf.data, List.drop_left' hf.data]
  rfl

/-- Records that were written one behind the other are read back. -/
theorem decodeRecords_bytes (rs : List Record) (hf : ∀ r ∈ rs, r.Fits) :
    ∀ n, rs.length ≤ n → decodeRecords n (rs.flatMap Record.bytes) = some rs := by
  induction rs with
  | nil =>
    intro n _
    cases n <;> rfl
  | cons r rs ih =>
    intro n hn
    have hr := decodeRecord_bytes (hf r List.mem_cons_self) (rs.flatMap Record.bytes)
    have hrs := ih fun r' h' => hf r' (List.mem_cons_of_mem _ h')
    cases n with
    | zero => cases hn
    | succ n =>
      rw [List.flatMap_cons]
      cases hb : r.bytes ++ rs.flatMap Record.bytes with
      | nil =>
        have := congrArg List.length hb
        rw [List.length_append, record_length, List.length_nil] at this
        omega
      | cons b bs =>
        rw [hb] at hr
        simp only [decodeRecords, hr, hrs n (Nat.le_of_succ_le_succ hn), Option.bind_eq_bind, Option.bind_some]
        rfl

theorem length_le_flatMap (rs : List Record) : rs.length ≤ (rs.flatMap Record.bytes).length := by
  induction rs with
  | nil => exact Nat.le_refl _
  | cons r rs ih =>
    rw [List.flatMap_cons, List.length_append, record_length, List.length_cons]
    omega

/-- A file that was written is read back. -/
theorem decode_encode {h : Header} {rs : List Record} (hh : h.Fits) (hr : ∀ r ∈ rs, r.Fits) :
    decode (encode h rs) = some (h, rs) := by
  simp only [decode, encode, decodeHeader_bytes hh, decodeRecords_bytes rs hr _ (length_le_flatMap rs), Option.bind_eq_bind,
    Option.bind_some]
  rfl

end Pcap
