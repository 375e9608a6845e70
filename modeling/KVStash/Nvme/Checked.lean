/- GID: KVStash/Nvme/Checked
   digest: The seal and the checkpoint read back what was written, and from any file only what lies
     inside. -/

import KVStash.Foundation.Layout
import KVStash.Nvme.Checkpoint
import KVStash.Nvme.Seal

set_option autoImplicit false

namespace KVStash.Nvme

open Foundation.Bytes List Option

/-! ### The readers with every slice checked; `none` is one that leaves its buffer -/

namespace Checked

/-- The first rows of a table. -/
def rowsAt {α : Type} (decode : List UInt8 → α) (size : ℕ) (b : List UInt8) : ℕ → Option (List α)
  | 0 => some []
  | n + 1 => do
    let row ← sliceAt b 0 size
    let rest ← rowsAt decode size (b.drop size) n
    some (decode row :: rest)

def decodeEntries (b : List UInt8) (count : UInt32) : Option (Option (List FooterEntry)) :=
  if b.length < count.toNat * footerEntrySz then some none
  else (rowsAt FooterEntry.decode footerEntrySz b count.toNat).map some

def readTrailer (f : File) (segBytes : ℕ) (segID : UInt32) :
    Option (Option (Trailer × List UInt8)) :=
  match readLast f segBytes with
  | none => some none
  | some tail => do
    let b ← sliceAt tail (recordAlign - trailerSize) trailerSize
    let pre ← sliceAt tail (recordAlign - trailerSize) 60
    some ((decodeTrailer b segID).toOption.map (·, pre))

/-- The range that is asked for the last chunk; a negative offset is refused before anything is
read. -/
def lastRange (segBytes : ℕ) : List (ℕ × ℕ) :=
  if segBytes < recordAlign then [] else [(segBytes - recordAlign, recordAlign)]

/-- The range of the file that is asked for a table. -/
def tableRange (segBytes : ℕ) (tr : Trailer) : List (ℕ × ℕ) :=
  if tr.footerOff ≠ tr.dataEnd ∨ segBytes < tr.footerOff.toNat + tr.tableLen + recordAlign ∨
    tr.tableLen = 0 then []
  else [(tr.footerOff.toNat, tr.tableLen)]

/-- A seal check, with the ranges of the file that it asks for. -/
def readSeal (dg : Digests) (f : File) (segBytes : ℕ) (segID maxBlob : UInt32) :
    Option (List (ℕ × ℕ) × Option (Trailer × List FooterEntry)) := do
  match ← readTrailer f segBytes segID with
  | none => some (lastRange segBytes, none)
  | some (tr, pre) =>
    let asked := lastRange segBytes ++ tableRange segBytes tr
    match readTable f segBytes tr with
    | none => some (asked, none)
    | some table =>
      if dg.sealCRC table pre ≠ tr.crc then some (asked, none)
      else
        let entries ← decodeEntries table tr.entryCount
        some (asked, entries.map fun es => (tr, es.filter (·.within maxBlob tr.dataEnd.toNat)))

def readCkptFile (dg : Digests) (buf : List UInt8) :
    Option (Except CkptError (List CkptEntry × UInt32)) :=
  if ckptMaxBytes < buf.length then some (.error (.tooLarge buf.length))
  else if buf.length < ckptHdrSize + 4 then some (.error (.short buf.length))
  else do
    let body ← sliceAt buf 0 (buf.length - 4)
    if (dg.crcUpdate 0 body).toNat ≠ (← fieldAt buf (buf.length - 4) 4) then return .error .crc
    let magic ← fieldAt body 0 4
    if magic ≠ ckptMagic then return .error (.magic magic)
    let version ← fieldAt body 4 4
    if version ≠ ckptVersion then return .error (.version version)
    let maxSealed ← fieldAt body 16 4
    let count ← fieldAt body 20 4
    if body.length ≠ ckptHdrSize + count * ckptEntrySize
      then return .error (.size body.length count)
    let rest ← tailAt body ckptHdrSize
    let entries ← rowsAt CkptEntry.decode ckptEntrySize rest count
    return .ok (entries, UInt32.ofNat maxSealed)

end Checked

theorem rowsAt_eq {α : Type} {decode : List UInt8 → α} {size : ℕ}
    (hlocal : ∀ b : List UInt8, decode (b.take size) = decode b) {n : ℕ} {b : List UInt8}
    (h : n * size ≤ b.length) : Checked.rowsAt decode size b n = some (rows decode size b n) := by
  induction n generalizing b with
  | zero => rfl
  | succ n ih =>
    rw [Nat.succ_mul] at h
    have hrest := ih (b := b.drop size) (by rw [length_drop]; omega)
    rw [Checked.rowsAt, sliceAt_eq (by omega), hrest, slice, drop_zero]
    exact congrArg (fun r => some (r :: _)) (hlocal b)

theorem FooterEntry.decode_take (b : List UInt8) : decode (b.take footerEntrySz) = decode b := by
  simp only [decode, footerEntrySz, leAt_take, Nat.reduceAdd, Nat.reduceLeDiff]

theorem CkptEntry.decode_take (b : List UInt8) : decode (b.take ckptEntrySize) = decode b := by
  simp only [decode, ckptEntrySize, leAt_take, Nat.reduceAdd, Nat.reduceLeDiff]

theorem decodeEntries_inside (b : List UInt8) (count : UInt32) :
    Checked.decodeEntries b count = some (decodeEntries b count) := by
  unfold Checked.decodeEntries decodeEntries
  split
  · rfl
  next h => rw [rowsAt_eq FooterEntry.decode_take (Nat.not_lt.mp h), map_some]

theorem readTrailer_inside (f : File) (segBytes : ℕ) (segID : UInt32) :
    Checked.readTrailer f segBytes segID = some (readTrailer f segBytes segID) := by
  rw [Checked.readTrailer, readTrailer]
  cases htail : readLast f segBytes with
  | none => rfl
  | some tail =>
    have hlen : tail.length = recordAlign := by
      unfold readLast at htail
      split at htail
      · cases htail
      · rw [(File.readAt_isSome htail).2, length_window]
    have hin : ∀ {n}, n ≤ trailerSize → recordAlign - trailerSize + n ≤ tail.length := by
      intro n hn
      unfold recordAlign trailerSize at *
      omega
    have hdrop : slice tail (recordAlign - trailerSize) trailerSize =
        tail.drop (recordAlign - trailerSize) := by
      refine take_of_length_le ?_
      rw [length_drop, hlen, Nat.sub_sub_self (by decide)]
    dsimp only
    rw [sliceAt_eq (hin (le_refl _)), hdrop, sliceAt_eq (hin (by decide))]
    simp only [bind_eq_bind, bind_some]
    cases decodeTrailer (tail.drop (recordAlign - trailerSize)) segID with
    | error e => rfl
    | ok tr => rfl

theorem lastRange_inside {segBytes : ℕ} {r : ℕ × ℕ} (hr : r ∈ Checked.lastRange segBytes) :
    r.1 + r.2 ≤ segBytes := by
  unfold Checked.lastRange at hr
  split at hr
  · cases hr
  next h =>
    rw [mem_singleton.mp hr]
    omega

theorem tableRange_inside {segBytes : ℕ} {tr : Trailer} {r : ℕ × ℕ}
    (hr : r ∈ Checked.tableRange segBytes tr) : r.1 + r.2 ≤ segBytes := by
  unfold Checked.tableRange at hr
  split at hr
  · cases hr
  next h =>
    rw [mem_singleton.mp hr]
    omega

/-- The checked seal check answers as the plain one does, and asks for nothing outside the file. -/
theorem readSeal_inside (dg : Digests) (f : File) (segBytes : ℕ) (segID maxBlob : UInt32) :
    ∃ asked, Checked.readSeal dg f segBytes segID maxBlob =
      some (asked, readSeal dg f segBytes segID maxBlob) ∧
      ∀ r ∈ asked, r.1 + r.2 ≤ segBytes := by
  rw [Checked.readSeal, readTrailer_inside, readSeal, readFooter]
  cases readTrailer f segBytes segID with
  | none => exact ⟨Checked.lastRange segBytes, rfl, fun r hr => lastRange_inside hr⟩
  | some t =>
    obtain ⟨tr, pre⟩ := t
    refine ⟨Checked.lastRange segBytes ++ Checked.tableRange segBytes tr, ?_, fun r hr =>
      (mem_append.mp hr).elim lastRange_inside tableRange_inside⟩
    simp only [bind_eq_bind, bind_some]
    cases readTable f segBytes tr with
    | none => rfl
    | some table =>
      simp only [bind_some, decodeEntries_inside]
      split
      · rfl
      · cases decodeEntries table tr.entryCount <;> rfl

theorem readCkptFile_inside (dg : Digests) (buf : List UInt8) :
    Checked.readCkptFile dg buf = some (readCkptFile dg buf) ∧
      ∀ es maxSealed, readCkptFile dg buf = .ok (es, maxSealed) →
        buf.length = ckptHdrSize + es.length * ckptEntrySize + 4 := by
  unfold Checked.readCkptFile readCkptFile
  split_ifs with hbig hshort
  · exact ⟨rfl, fun _ _ h => nomatch h⟩
  · exact ⟨rfl, fun _ _ h => nomatch h⟩
  have hlen : (buf.take (buf.length - 4)).length = buf.length - 4 :=
    length_take_of_le (Nat.sub_le _ _)
  have hbody : sliceAt buf 0 (buf.length - 4) = some (buf.take (buf.length - 4)) :=
    sliceAt_eq (by omega)
  have hread : ∀ {i}, i + 4 ≤ ckptHdrSize → fieldAt (buf.take (buf.length - 4)) i 4 =
      some (leAt (buf.take (buf.length - 4)) i 4) := fun hi => fieldAt_eq (by omega)
  rw [hbody]
  generalize buf.take (buf.length - 4) = body at *
  simp only [bind_eq_bind, bind_some, fieldAt_eq (by omega : buf.length - 4 + 4 ≤ buf.length),
    hread (by decide : 0 + 4 ≤ _), hread (by decide : 4 + 4 ≤ _), hread (by decide : 16 + 4 ≤ _),
    hread (by decide : 20 + 4 ≤ _)]
  split_ifs with hcrc hmagic hversion hsize
  · exact ⟨rfl, fun _ _ h => nomatch h⟩
  · exact ⟨rfl, fun _ _ h => nomatch h⟩
  · exact ⟨rfl, fun _ _ h => nomatch h⟩
  · exact ⟨rfl, fun _ _ h => nomatch h⟩
  rw [not_not] at hsize
  have hrows := rowsAt_eq CkptEntry.decode_take (n := leAt body 20 4) (b := body.drop ckptHdrSize)
    (by rw [length_drop]; omega)
  rw [tailAt_eq (by omega), bind_some, hrows]
  refine ⟨rfl, fun es maxSealed h => ?_⟩
  obtain ⟨rfl, -⟩ := Prod.mk.inj (Except.ok.inj h)
  rw [length_rows]
  omega

/-- What the writers write, the readers read; and whatever a file holds, the readers stay inside of
it. -/
theorem index_files (dg : Digests) :
    (∀ (f : File) (segID dataEnd maxBlob : UInt32) (entries : List FooterEntry),
      entries.length < 2 ^ 32 → SealFits f.size dataEnd.toNat entries.length →
        (∀ e ∈ entries, e.within maxBlob dataEnd.toNat) →
      readSeal dg (writeSeal dg f f.size segID dataEnd entries) f.size segID maxBlob =
        some (sealTrailer dg segID dataEnd entries, entries)) ∧
    (∀ (nowNanos : UInt64) (maxSealed : UInt32) (entries : List CkptEntry),
      entries.length ≤ (ckptMaxBytes - (ckptHdrSize + 4)) / ckptEntrySize →
      readCkptFile dg (encodeCkpt dg nowNanos maxSealed entries) = .ok (entries, maxSealed)) ∧
    (∀ (f : File) (segID maxBlob : UInt32), ∃ asked,
      Checked.readSeal dg f f.size segID maxBlob =
        some (asked, readSeal dg f f.size segID maxBlob) ∧
      (∀ r ∈ asked, r.1 + r.2 ≤ f.size) ∧
      ∀ tr es, readSeal dg f f.size segID maxBlob = some (tr, es) → ∀ e ∈ es, e.len ≤ maxBlob ∧
        e.off.toNat % recordAlign = 0 ∧ e.off.toNat + recordSpan e.len ≤ tr.dataEnd.toNat) ∧
    ∀ buf : List UInt8, Checked.readCkptFile dg buf = some (readCkptFile dg buf) ∧
      ∀ es maxSealed, readCkptFile dg buf = .ok (es, maxSealed) →
        buf.length = ckptHdrSize + es.length * ckptEntrySize + 4 := by
  refine ⟨fun f segID dataEnd maxBlob entries hcount h hwithin =>
    readSeal_writeSeal dg h hcount hwithin,
    fun nowNanos maxSealed entries hn => ?_, fun f segID maxBlob => ?_, readCkptFile_inside dg⟩
  · refine readCkptFile_encodeCkpt dg nowNanos maxSealed ?_
    have hbytes := (Nat.le_div_iff_mul_le (by decide)).mp hn
    rw [encodeCkpt, length_append, length_ckptBody, length_leBytes]
    unfold ckptMaxBytes ckptHdrSize at *
    omega
  · obtain ⟨asked, hread, hin⟩ := readSeal_inside dg f f.size segID maxBlob
    refine ⟨asked, hread, hin, fun tr es h e he => ?_⟩
    simpa [FooterEntry.within, and_assoc] using (readSeal_room h).2.2 e he

def longEntry : FooterEntry := ⟨0, 0, 0, 100, 0⟩

/-- An entry longer than the reader's limit is left out, and 2³² entries are not read back from a
file that has room for them. -/
theorem readSeal_drops_long :
    (SealFits 12288 4096 1 ∧ longEntry.off.toNat % recordAlign = 0 ∧
      longEntry.off.toNat + recordSpan longEntry.len ≤ 4096 ∧
      (readSeal .zero (writeSeal .zero (.zeros 12288) 12288 1 4096 [longEntry]) 12288 1 99).map
        Prod.snd = some []) ∧
    ∃ size, SealFits size 4096 (2 ^ 32) ∧ longEntry.within 100 4096 ∧
      (readSeal .zero (writeSeal .zero (.zeros size) size 1 4096 (replicate (2 ^ 32) longEntry))
        size 1 100).map Prod.snd ≠ some (replicate (2 ^ 32) longEntry) := by
  have hfits : SealFits (File.zeros 12288).size 4096 [longEntry].length := by decide
  have hread :
      readFooter .zero (writeSeal .zero (.zeros 12288) 12288 1 4096 [longEntry]) 12288 1 = _ :=
    readFooter_writeSeal (f := .zeros 12288) .zero hfits (by decide)
  refine ⟨⟨by decide, rfl, by decide, ?_⟩, 2 ^ 38, by decide, by decide, fun h => ?_⟩
  · rw [readSeal, hread]
    rfl
  · obtain ⟨⟨tr, es⟩, hs, rfl⟩ := map_eq_some_iff.mp h
    have := (readSeal_room hs).1
    rw [length_replicate] at this
    omega

end KVStash.Nvme
