/- GID: KVStash/Nvme/Seal
   digest: The seal of a segment file: entry table, trailer chunk, and the check that reads them
     back. -/

import KVStash.Nvme.Layout

set_option autoImplicit false

namespace KVStash.Nvme

open Foundation.Bytes Option

/-- The trailer of a seal, with the checksum over the table and the trailer's first 60 bytes. -/
def sealTrailer (dg : Digests) (segID dataEnd : UInt32) (entries : List FooterEntry) : Trailer :=
  let t : Trailer := ⟨UInt32.ofNat entries.length, dataEnd, dataEnd, segID, 0⟩
  { t with crc := dg.sealCRC (encodeEntries entries) ((encodeTrailer t).take 60) }

/-- The final chunk of a sealed file: zeros, and the trailer at its end. -/
def trailerChunk (t : Trailer) : List UInt8 :=
  List.replicate (recordAlign - trailerSize) 0 ++ encodeTrailer t

def writeTable (f : File) (dataEnd : UInt32) (entries : List FooterEntry) : File :=
  if 0 < (encodeEntries entries).length then f.writeAt dataEnd.toNat (encodeEntries entries) else f

def writeTrailer (f : File) (segBytes : ℕ) (t : Trailer) : File :=
  f.writeAt (segBytes - recordAlign) (trailerChunk t)

def writeSeal (dg : Digests) (f : File) (segBytes : ℕ) (segID dataEnd : UInt32)
    (entries : List FooterEntry) : File :=
  writeTrailer (writeTable f dataEnd entries) segBytes (sealTrailer dg segID dataEnd entries)

/-- The check each entry passes even under a valid checksum. -/
def FooterEntry.within (maxBlob : UInt32) (bound : ℕ) (e : FooterEntry) : Bool :=
  decide (e.len ≤ maxBlob) && decide (e.off.toNat % recordAlign = 0) &&
    decide (e.off.toNat + recordSpan e.len ≤ bound)

/-- The last chunk of a file. Its offset in a shorter one is negative, and nothing is read there. -/
def readLast (f : File) (segBytes : ℕ) : Option (List UInt8) :=
  if segBytes < recordAlign then none else f.readAt (segBytes - recordAlign) recordAlign

/-- The trailer in the last chunk of a file, with the 60 bytes that its checksum covers. -/
def readTrailer (f : File) (segBytes : ℕ) (segID : UInt32) : Option (Trailer × List UInt8) :=
  match readLast f segBytes with
  | none => none
  | some tail =>
    match decodeTrailer (tail.drop (recordAlign - trailerSize)) segID with
    | .error _ => none
    | .ok tr => some (tr, slice tail (recordAlign - trailerSize) 60)

def Trailer.tableLen (tr : Trailer) : ℕ := roundUpAlign (tr.entryCount.toNat * footerEntrySz)

/-- The table a trailer points to, when its place is sound. -/
def readTable (f : File) (segBytes : ℕ) (tr : Trailer) : Option (List UInt8) :=
  if tr.footerOff ≠ tr.dataEnd ∨ segBytes < tr.footerOff.toNat + tr.tableLen + recordAlign then none
  else if 0 < tr.tableLen then f.readAt tr.footerOff.toNat tr.tableLen else some []

/-- A seal as it lies in the file: the trailer and all its entries, under a valid checksum. -/
def readFooter (dg : Digests) (f : File) (segBytes : ℕ) (segID : UInt32) :
    Option (Trailer × List FooterEntry) := do
  let (tr, pre) ← readTrailer f segBytes segID
  let table ← readTable f segBytes tr
  if dg.sealCRC table pre ≠ tr.crc then none
  else
    let entries ← decodeEntries table tr.entryCount
    some (tr, entries)

/-- The seal of a file, with the entries out of bounds left out; `none` is an unsealed file. -/
def readSeal (dg : Digests) (f : File) (segBytes : ℕ) (segID maxBlob : UInt32) :
    Option (Trailer × List FooterEntry) :=
  (readFooter dg f segBytes segID).map fun s =>
    (s.1, s.2.filter (·.within maxBlob s.1.dataEnd.toNat))

/-! ## What a seal writes, a seal check reads -/

section RoundTrip

variable {f : File} {segID dataEnd : UInt32} {entries : List FooterEntry}

/-- The room a seal needs behind the records: its table and the trailer chunk. -/
def SealFits (segBytes : ℕ) (dataEnd : ℕ) (count : ℕ) : Prop :=
  dataEnd + roundUpAlign (count * footerEntrySz) + recordAlign ≤ segBytes

instance (segBytes dataEnd count : ℕ) : Decidable (SealFits segBytes dataEnd count) :=
  inferInstanceAs (Decidable (_ ≤ _))

theorem length_trailerChunk (t : Trailer) : (trailerChunk t).length = recordAlign := by
  rw [trailerChunk, List.length_append, List.length_replicate, length_encodeTrailer]
  decide

theorem size_writeTable (h : SealFits f.size dataEnd.toNat entries.length) :
    (writeTable f dataEnd entries).size = f.size := by
  unfold writeTable
  split
  · refine File.size_writeAt ?_
    rw [length_encodeEntries]
    unfold SealFits at h
    omega
  · rfl

theorem size_writeTrailer (t : Trailer) {g : File} (halign : recordAlign ≤ f.size)
    (hsize : g.size = f.size) : (writeTrailer g f.size t).size = f.size := by
  rw [writeTrailer, File.size_writeAt, hsize]
  rw [length_trailerChunk, hsize]
  omega

theorem size_writeSeal (dg : Digests) (h : SealFits f.size dataEnd.toNat entries.length) :
    (writeSeal dg f f.size segID dataEnd entries).size = f.size := by
  refine size_writeTrailer _ ?_ (size_writeTable h)
  unfold SealFits at h
  omega

theorem window_writeSeal (dg : Digests) (h : SealFits f.size dataEnd.toNat entries.length) {a n : ℕ}
    (hn : a + n ≤ dataEnd.toNat) :
    window (writeSeal dg f f.size segID dataEnd entries).byte a n = window f.byte a n := by
  have hsize := size_writeTable h
  unfold SealFits at h
  rw [writeSeal, writeTrailer, window_writeAt_of_disjoint (by omega) (by omega)]
  unfold writeTable
  split
  · exact window_writeAt_of_disjoint (by omega) (by omega)
  · rfl

private theorem sealTrailer_tableLen (dg : Digests) (hcount : entries.length < 2 ^ 32) :
    (sealTrailer dg segID dataEnd entries).tableLen = roundUpAlign
    (entries.length * footerEntrySz) := by
  have hn : (UInt32.ofNat entries.length).toNat = entries.length := UInt32.toNat_ofNat_of_lt' hcount
  rw [Trailer.tableLen, sealTrailer, hn]

private theorem readTrailer_writeSeal (dg : Digests) (halign : recordAlign ≤ f.size)
    (htable : (writeTable f dataEnd entries).size = f.size) :
    readTrailer (writeSeal dg f f.size segID dataEnd entries) f.size segID =
      some (sealTrailer dg segID dataEnd entries, (sealTrailer dg segID dataEnd entries).pre) := by
  have hread : readLast (writeSeal dg f f.size segID dataEnd entries) f.size =
      some (trailerChunk (sealTrailer dg segID dataEnd entries)) := by
    have hw := window_writeAt (writeTable f dataEnd entries) (f.size - recordAlign)
      (trailerChunk (sealTrailer dg segID dataEnd entries))
    have hsize : (writeSeal dg f f.size segID dataEnd entries).size = f.size :=
      size_writeTrailer _ halign htable
    rw [length_trailerChunk] at hw
    rw [readLast, if_neg (Nat.not_lt.mpr halign), File.readAt_eq_some (by omega)]
    exact congrArg some hw
  have hdrop :
      (trailerChunk (sealTrailer dg segID dataEnd entries)).drop (recordAlign - trailerSize) =
      encodeTrailer (sealTrailer dg segID dataEnd entries) := List.drop_left' List.length_replicate
  have hdec : decodeTrailer (encodeTrailer (sealTrailer dg segID dataEnd entries)) segID =
      .ok (sealTrailer dg segID dataEnd entries) := decodeTrailer_encodeTrailer _
  rw [readTrailer, hread]
  dsimp only
  rw [slice, hdrop, hdec, Trailer.pre_take]

private theorem readTable_writeSeal (dg : Digests)
    (h : SealFits f.size dataEnd.toNat entries.length) (hcount : entries.length < 2 ^ 32) :
    readTable (writeSeal dg f f.size segID dataEnd entries) f.size
      (sealTrailer dg segID dataEnd entries) =
      some (encodeEntries entries) := by
  have hlen := length_encodeEntries entries
  have hsize : (writeSeal dg f f.size segID dataEnd entries).size = f.size := size_writeSeal dg h
  have htab := size_writeTable h
  have hoff : (sealTrailer dg segID dataEnd entries).footerOff = dataEnd := rfl
  have hend : (sealTrailer dg segID dataEnd entries).dataEnd = dataEnd := rfl
  unfold SealFits at h
  rw [readTable, sealTrailer_tableLen dg hcount, hoff, hend,
    if_neg (by simp only [ne_eq, not_true_eq_false, false_or]; omega)]
  by_cases hpos : 0 < roundUpAlign (entries.length * footerEntrySz)
  · rw [if_pos hpos, File.readAt_eq_some (by omega), writeSeal, writeTrailer,
      window_writeAt_of_disjoint (by omega) (by omega), writeTable, if_pos (by omega), ← hlen,
      window_writeAt]
  · rw [if_neg hpos, List.eq_nil_of_length_eq_zero (by omega : (encodeEntries entries).length = 0)]

theorem readFooter_writeSeal (dg : Digests) (h : SealFits f.size dataEnd.toNat entries.length)
    (hcount : entries.length < 2 ^ 32) :
    readFooter dg (writeSeal dg f f.size segID dataEnd entries) f.size segID =
      some (sealTrailer dg segID dataEnd entries, entries) := by
  have hcrc : dg.sealCRC (encodeEntries entries) (sealTrailer dg segID dataEnd entries).pre =
      (sealTrailer dg segID dataEnd entries).crc := by
    rw [sealTrailer, Trailer.pre_take]
    rfl
  have hrows :
      decodeEntries (encodeEntries entries) (sealTrailer dg segID dataEnd entries).entryCount =
      some entries := decodeEntries_encodeEntries hcount
  have halign : recordAlign ≤ f.size := by
    unfold SealFits at h
    omega
  simp only [readFooter, readTrailer_writeSeal dg halign (size_writeTable h),
    readTable_writeSeal dg h hcount, hcrc, hrows,
    bind_eq_bind, bind_some, ne_eq, not_true_eq_false, if_false]

theorem readSeal_writeSeal (dg : Digests) (h : SealFits f.size dataEnd.toNat entries.length)
    (hcount : entries.length < 2 ^ 32) {maxBlob : UInt32}
    (hwithin : ∀ e ∈ entries, e.within maxBlob dataEnd.toNat = true) :
    readSeal dg (writeSeal dg f f.size segID dataEnd entries) f.size segID maxBlob =
      some (sealTrailer dg segID dataEnd entries, entries) := by
  have hfilter :
      entries.filter (·.within maxBlob (sealTrailer dg segID dataEnd entries).dataEnd.toNat) =
      entries := List.filter_eq_self.mpr hwithin
  rw [readSeal, readFooter_writeSeal dg h hcount, map_some, hfilter]

end RoundTrip

section Sound

variable {dg : Digests} {f : File} {segBytes : ℕ} {segID : UInt32} {tr : Trailer}
  {es : List FooterEntry}

/-- A footer has as many entries as its trailer says, and they have their room before the last
chunk. -/
theorem readFooter_room (h : readFooter dg f segBytes segID = some (tr, es)) :
    es.length = tr.entryCount.toNat ∧ SealFits segBytes tr.dataEnd.toNat es.length := by
  simp only [readFooter, bind_eq_bind, bind_eq_some_iff] at h
  obtain ⟨⟨t, pre⟩, -, table, htable, hrest⟩ := h
  dsimp only at hrest
  split at hrest
  · cases hrest
  obtain ⟨rows, hrows, heq⟩ := bind_eq_some_iff.mp hrest
  obtain ⟨rfl, rfl⟩ := Prod.mk.inj (some.inj heq)
  have hlen : rows.length = t.entryCount.toNat := by
    unfold decodeEntries at hrows
    split at hrows
    · cases hrows
    · rw [← some.inj hrows, length_rows]
  unfold readTable at htable
  split at htable
  · cases htable
  rename_i hroom
  rw [not_or, not_not, Nat.not_lt] at hroom
  refine ⟨hlen, ?_⟩
  rw [SealFits, hlen, ← hroom.1]
  exact hroom.2

/-- The same for the entries that a seal check returns; these are in bounds, too. -/
theorem readSeal_room {maxBlob : UInt32}
    (h : readSeal dg f segBytes segID maxBlob = some (tr, es)) :
    es.length < 2 ^ 32 ∧ SealFits segBytes tr.dataEnd.toNat es.length ∧
      ∀ e ∈ es, e.within maxBlob tr.dataEnd.toNat = true := by
  obtain ⟨⟨tr', rows⟩, hfooter, hs⟩ := map_eq_some_iff.mp h
  obtain ⟨rfl, rfl⟩ := Prod.mk.inj hs
  obtain ⟨hlen, hroom⟩ := readFooter_room hfooter
  have hle := List.length_filter_le (·.within maxBlob tr'.dataEnd.toNat) rows
  refine ⟨hle.trans_lt (hlen ▸ UInt32.toNat_lt _), ?_, fun e he => (List.mem_filter.mp he).2⟩
  have hmono := roundUpAlign_mono (Nat.mul_le_mul_right footerEntrySz hle)
  unfold SealFits at hroom ⊢
  dsimp only at hroom ⊢
  omega

end Sound

end KVStash.Nvme
