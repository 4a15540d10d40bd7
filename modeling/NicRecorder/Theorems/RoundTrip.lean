import NicRecorder.Lemmas.Extract

/-!
# The bucket format, there and back

The driver, the writers and the extraction tools each recompute the places of the packets of a bucket on their own. Here they are
put together: the driver fills a bucket, `todisk` writes it to a file, and `dump_packet` in one of the tools hands on the
packets.
-/

namespace NicRecorder

open ByteMem

/-- What the tools hand on from packet `start` on, as a list of packets. -/
theorem map_emittedAt (c : Config) (pkts : List (List UInt8)) (start k : Nat) (h : start + k ≤ pkts.length) :
    ((List.range' start k).map (c.emittedAt pkts)).map Emitted.data = (pkts.drop start).take k := by
  apply List.ext_getElem
  · simp
    omega
  · intro i h1 h2
    have hi : start + i < pkts.length := by
      simp only [List.length_map, List.length_range'] at h1
      omega
    simp [Config.emittedAt, List.getD, hi]

/-- The round trip of a bucket. The driver fills a bucket, over any memory, with packets of lengths that the adapter delivers
and that fit one bucket under its closing rule; `todisk` makes a file of the bucket at any time and over any old file; a tool
reads the file into any mapping. Then `dump_packet` from any packet on and for any count hands on exactly the packets from there
on, in order and byte for byte, and says how many they are. The configuration is any with the shipped number of slots. -/
theorem bucket_round_trip (c : Config) (hbits : c.rxSlotBits = 12) (f : Filling) (pkts : List (List UInt8))
    (hsize : ∀ p ∈ pkts, minPacket ≤ p.length ∧ p.length ≤ rxBufSize) (hfit : c.Fits pkts)
    (old : List UInt8) (time : Nat) (mapping : Mem) (start count : Nat) (hstart : start < pkts.length) :
    let file := todiskFile old time (c.driverImage f pkts)
    ∃ emitted processed,
      c.dumpPacket (readBlock mapping file) (headerSlots (readHeader mapping file)) start count = some (emitted, processed) ∧
        emitted.map Emitted.data = (pkts.drop start).take (min (start + count) pkts.length - start) ∧
        processed = min count (pkts.length - start) := by
  intro file
  have h : c.WellLaid pkts := Config.Receivable.wellLaid ⟨hsize, hfit⟩
  have hstride : c.bytesPerSlot = 240 * 1024 := by
    simp only [Config.bytesPerSlot, hbits]
  obtain ⟨hm, hslots⟩ := c.driverImage_holds h f
  have hback := hm.readBlock h mapping old time
  refine ⟨(List.range' start (min count (pkts.length - start))).map (c.emittedAt pkts), min count (pkts.length - start),
    ?_, ?_, rfl⟩
  · rw [readHeader_slots, hslots]
    exact hback.dumpPacket h hstride start count (Nat.le_of_lt hstart)
  · rw [map_emittedAt c pkts start _ (by omega)]
    congr 1
    omega

/-- A whole row of packets, and three more in the second row. -/
def twoRows : List (List UInt8) :=
  List.replicate 4096 (List.replicate 60 7) ++ [List.replicate 61 8, List.replicate 62 9, List.replicate 63 10]

theorem twoRows_deliverable : ∀ p ∈ twoRows, minPacket ≤ p.length ∧ p.length ≤ rxBufSize := by
  intro p hp
  rcases List.mem_append.mp hp with hp | hp
  · rw [List.eq_of_mem_replicate hp]
    exact ⟨by decide, by decide⟩
  · simp only [List.mem_cons, List.not_mem_nil, or_false] at hp
    rcases hp with rfl | rfl | rfl <;> decide

/-- The round trip of the two rows, in the shipped configuration: from packet 4097 on the last two of the second row are left, each
behind a packet of the first row in its slot. -/
theorem bucket_round_trip_rows :
    let file := todiskFile [] 0 (Config.shipped.driverImage ⟨fun _ => 0, fun _ => 0⟩ twoRows)
    ∃ emitted,
      Config.shipped.dumpPacket (readBlock (fun _ => 0) file) (headerSlots (readHeader (fun _ => 0) file)) 4097 5 = some (emitted, 2) ∧
        emitted.map Emitted.data = [List.replicate 62 9, List.replicate 63 10] := by
  have hlen : twoRows.length = 4099 := by
    rw [twoRows, List.length_append, List.length_replicate]
    rfl
  have hlast : twoRows.drop 4097 = [List.replicate 62 9, List.replicate 63 10] := by
    rw [twoRows, List.drop_append, List.drop_replicate, List.length_replicate]
    rfl
  have hfit : Config.shipped.Fits twoRows :=
    Config.shipped.fits_of_rows 1 (fun p hp => (twoRows_deliverable p hp).2) (by rw [hlen]; decide) (by decide)
  obtain ⟨emitted, processed, hdump, hdata, hproc⟩ := bucket_round_trip Config.shipped rfl ⟨fun _ => 0, fun _ => 0⟩ twoRows
    twoRows_deliverable hfit [] 0 (fun _ => 0) 4097 5 (by rw [hlen]; decide)
  rw [hlen] at hdata hproc
  rw [hlast] at hdata
  have htwo : processed = 2 := hproc
  rw [htwo] at hdump
  exact ⟨emitted, hdump, hdata⟩

end NicRecorder
