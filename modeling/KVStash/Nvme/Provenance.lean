/- GID: KVStash/Nvme/Provenance
   digest: Every entry of a segment file, sealed or scanned, is the record of an append. -/

import KVStash.Nvme.Lifetime

set_option autoImplicit false

namespace KVStash.Nvme

open Foundation Foundation.Bytes Foundation.Storage List

/-- The cap that every payload with a 32-bit length meets. -/
def anyLen : UInt32 := 0xFFFFFFFF

theorem le_anyLen (n : UInt32) : n ≤ anyLen := by
  have h := n.toNat_lt
  have htop : anyLen.toNat = 2 ^ 32 - 1 := rfl
  rw [UInt32.le_iff_toNat_le]
  omega

/-- What the store hands to a volume: a payload with a 32-bit length and its own digest, in a
namespace whose id does not spell the magic of a record. -/
structure AppendReq.Admitted (dg : Digests) (r : AppendReq) : Prop where
  fits : r.Fits anyLen
  digest : dg.xxh3 r.data = r.xxh3
  plain : r.ns.toNat ≠ recordMagic

/-- The file holds the record of a request where the entry says. -/
structure Backed (f : File) (e : FooterEntry) (r : AppendReq) : Prop where
  entry : e = r.entry e.off
  bytes : window f.byte e.off.toNat (recordSpan r.len) = appendRecord [] r.header r.data
  room : e.off.toNat + recordSpan r.len ≤ f.size

variable {f : File} {r : AppendReq}

theorem Backed.readRecord {dg : Digests} {e : FooterEntry} (h : Backed f e r)
    (hr : r.Admitted dg) {maxBlob : UInt32} (hlen : e.len ≤ maxBlob) (id : UInt32) :
    readRecord dg maxBlob f ⟨id, e.off, e.len⟩ e.ns e.key e.xxh3 = some r.data := by
  have hns : e.ns = r.ns := congrArg FooterEntry.ns h.entry
  have hkey : e.key = r.key := congrArg FooterEntry.key h.entry
  have helen : e.len = r.len := congrArg FooterEntry.len h.entry
  have hsum : e.xxh3 = r.xxh3 := congrArg FooterEntry.xxh3 h.entry
  have hbytes := h.bytes
  rw [appendRecord_nil] at hbytes
  have hparse : parseRecordHeader (r.header.encode ++ (r.data ++
      replicate (recordSpan r.header.len - (r.header.encode ++ r.data).length) 0)) maxBlob =
      .ok r.header := by
    have hlong : ¬(r.header.encode ++ (r.data ++
        replicate (recordSpan r.header.len - (r.header.encode ++ r.data).length) 0)).length <
        recordHdrSize := by
      rw [length_append, RecordHeader.length_encode]
      omega
    have hcap : ¬maxBlob < r.len := UInt32.not_lt.mpr (helen ▸ hlen)
    rw [parseRecordHeader, if_neg hlong, RecordHeader.magic_encode, if_neg (not_not.mpr rfl),
      RecordHeader.decode_encode]
    exact if_neg hcap
  have hdata : slice (r.header.encode ++ (r.data ++
      replicate (recordSpan r.header.len - (r.header.encode ++ r.data).length) 0))
      recordHdrSize r.len.toNat = r.data :=
    slice_append r.header.length_encode hr.fits.toNat_len.symm
  unfold Nvme.readRecord
  dsimp only
  rw [helen, File.readAt_eq_some h.room, hbytes]
  dsimp only
  rw [hparse]
  dsimp only
  rw [hns, hkey, hsum]
  have hpayload : slice (r.header.encode ++ (r.data ++
      replicate (recordSpan r.header.len - (r.header.encode ++ r.data).length) 0))
      recordHdrSize r.header.len.toNat = r.data := hdata
  rw [hpayload]
  exact if_pos ⟨rfl, rfl, rfl, rfl, hr.digest⟩

variable {off limit e n i size : ℕ} {rs ss : List AppendReq}

theorem backed_of_framed (hfits : ∀ r ∈ rs, r.Fits anyLen)
    (hbytes : window f.byte off (extent rs) = framed rs) (hroom : off + extent rs ≤ f.size)
    (hsize : f.size < 2 ^ 32) : ∀ e ∈ placed off rs, ∃ r ∈ rs, Backed f e r := by
  induction rs generalizing off with
  | nil => simp [placed]
  | cons r rs ih =>
    have hr : r.Fits anyLen := hfits r mem_cons_self
    have hlen : (appendRecord [] r.header r.data).length = recordSpan r.len := by
      rw [length_appendRecord [] r.header hr.toNat_len.symm, length_nil, Nat.zero_add]
      rfl
    rw [extent_cons, framed_cons, window_add] at hbytes
    rw [extent_cons] at hroom
    obtain ⟨hhead, hrest⟩ := append_inj hbytes (by rw [length_window, hlen])
    intro e he
    rcases mem_cons.mp he with rfl | he
    · have hoff : (UInt32.ofNat off).toNat = off :=
        UInt32.toNat_ofNat_of_lt' (show off < 2 ^ 32 by omega)
      refine ⟨r, mem_cons_self, rfl, ?_, ?_⟩
      · show window f.byte (UInt32.ofNat off).toNat _ = _
        rw [hoff]
        exact hhead
      · show (UInt32.ofNat off).toNat + _ ≤ _
        rw [hoff]
        omega
    · obtain ⟨r', hr', hb⟩ :=
        ih (fun x hx => hfits x (mem_cons_of_mem _ hx)) hrest (by omega) e he
      exact ⟨r', mem_cons_of_mem _ hr', hb⟩

theorem placed_within (halign : off % recordAlign = 0) (hend : off + extent rs < 2 ^ 32) :
    ∀ e ∈ placed off rs, e.within anyLen (off + extent rs) = true := by
  induction rs generalizing off with
  | nil => simp [placed]
  | cons r rs ih =>
    rw [extent_cons] at hend ⊢
    have hoff : (UInt32.ofNat off).toNat = off :=
      UInt32.toNat_ofNat_of_lt' (show off < 2 ^ 32 by omega)
    have hmod := recordSpan_mod r.len
    intro e he
    rcases mem_cons.mp he with rfl | he
    · simp only [FooterEntry.within, AppendReq.entry, hoff, Bool.and_eq_true, decide_eq_true_eq]
      exact ⟨⟨decide_eq_true (le_anyLen _), halign⟩, by omega⟩
    · rw [← Nat.add_assoc] at hend ⊢
      exact ih (by rw [Nat.add_mod, halign, hmod]; rfl) hend e he

theorem Backed.header {e : FooterEntry} (h : Backed f e r) :
    RecordHeader.decode (window f.byte e.off.toNat recordHdrSize) = r.header := by
  have hle : recordHdrSize ≤ recordSpan r.len :=
    (Nat.le_add_right _ _).trans (hdr_add_len_le_span r.len)
  rw [← take_window f.byte hle, RecordHeader.decode_take _ le_rfl, h.bytes, appendRecord_nil,
    RecordHeader.decode_encode]

/-- In one place of a file there is one entry. -/
theorem Backed.unique {a b : FooterEntry} {q : AppendReq} (ha : Backed f a r) (hb : Backed f b q)
    (hoff : a.off = b.off) : a = b := by
  have hheader : r.header = q.header := by rw [← ha.header, hoff, hb.header]
  rw [ha.entry, hb.entry, hoff]
  exact congrArg (fun h : RecordHeader => (⟨h.ns, h.key, b.off, h.len, h.xxh3⟩ : FooterEntry))
    hheader

/-! ### The files of a directory -/

section Files

variable (own : AppendReq → Prop) (dg : Digests)

/-- An entry that is the record of one of our appends. -/
def Backs (f : File) (e : FooterEntry) : Prop := ∃ r, own r ∧ Backed f e r

/-- A sealed file, all of whose entries are records of our appends and lie in its data. -/
def SealedFile (id : UInt32) (f : File) : Prop :=
  ∃ tr es, readFooter dg f f.size id = some (tr, es) ∧
    ∀ e ∈ es, Backs own f e ∧ e.within anyLen tr.dataEnd.toNat = true

/-- The file of an active segment: the given records with room for their seal, then zeros. -/
structure Growing (f : File) (rs : List AppendReq) : Prop where
  own : ∀ r ∈ rs, own r
  holds : Tail.Holds anyLen ⟨f, UInt32.ofNat (extent rs), placed 0 rs⟩ rs
  room : SealFits f.size (extent rs) rs.length
  size : f.size < 2 ^ 32
  zeros : ∀ i, extent rs ≤ i → f.byte i = 0

/-- A file without a trailer: the given records, behind which no further record starts. -/
structure Unsealed (f : File) (rs : List AppendReq) : Prop where
  own : ∀ r ∈ rs, own r
  fits : ∀ r ∈ rs, r.Fits anyLen
  bytes : window f.byte 0 (extent rs) = framed rs
  room : rs ≠ [] → SealFits f.size (extent rs) rs.length
  size : f.size < 2 ^ 32
  ended : leAt (window f.byte (extent rs) recordHdrSize) 0 4 ≠ recordMagic
  blank : ∀ i, f.size - recordAlign ≤ i → f.byte i = 0

variable {own} {dg}

section Mono

variable {own' : AppendReq → Prop} (hle : ∀ r, own r → own' r)
include hle

theorem Backs.mono {e : FooterEntry} (h : Backs own f e) : Backs own' f e := by
  obtain ⟨r, hr, hb⟩ := h
  exact ⟨r, hle r hr, hb⟩

theorem SealedFile.mono {id : UInt32} (h : SealedFile own dg id f) : SealedFile own' dg id f := by
  obtain ⟨tr, es, hfoot, hback⟩ := h
  exact ⟨tr, es, hfoot, fun e he => ⟨(hback e he).1.mono hle, (hback e he).2⟩⟩

theorem Growing.mono (h : Growing own f rs) : Growing own' f rs :=
  { h with own := fun r hr => hle r (h.own r hr) }

theorem Unsealed.mono (h : Unsealed own f rs) : Unsealed own' f rs :=
  { h with own := fun r hr => hle r (h.own r hr) }

end Mono

private theorem leAt_blank {f : ℕ → UInt8} (hn : 4 ≤ n) (h : ∀ i, off ≤ i → f i = 0) :
    leAt (window f off n) 0 4 = 0 := by
  rw [leAt, slice_window f (by omega), window_congr fun i hi _ => h i (by omega)]
  rfl

variable {f : File} {rs : List AppendReq}

theorem unsealed_of_blank (hblank : ∀ i, f.byte i = 0) (hsize : f.size < 2 ^ 32) :
    Unsealed own f [] where
  own := by simp
  fits := by simp
  bytes := rfl
  room h := absurd rfl h
  size := hsize
  ended := by
    rw [leAt_blank (by decide) fun i _ => hblank i]
    decide
  blank i _ := hblank i

theorem Growing.extent_le (h : Growing own f rs) :
    extent rs + roundUpAlign (rs.length * footerEntrySz) + recordAlign ≤ f.size := h.room

private theorem byte_writeTable {dataEnd : UInt32} {es : List FooterEntry}
    (h : i < dataEnd.toNat ∨ dataEnd.toNat + roundUpAlign (es.length * footerEntrySz) ≤ i)
    (hi : i < f.size ∨ f.byte i = 0) : (writeTable f dataEnd es).byte i = f.byte i := by
  unfold writeTable
  split
  · have hlen := length_encodeEntries es
    refine (if_neg (by omega)).trans ?_
    split
    · rfl
    rename_i hge
    rcases hi with hi | hi
    · exact absurd hi hge
    · exact hi.symm
  · rfl

theorem Growing.unsealed (h : Growing own f rs) : Unsealed own f rs where
  own := h.own
  fits := h.holds.fits
  bytes := h.holds.bytes
  room _ := h.room
  size := h.size
  ended := by
    rw [leAt_blank (by decide) h.zeros]
    decide
  blank i hi := h.zeros i (by have := h.extent_le; omega)

private theorem leAt_table (hr : r.ns.toNat ≠ recordMagic) :
    leAt (encodeEntries (placed 0 (r :: rs))) 0 4 ≠ recordMagic := by
  have hns := leAt_fields [] (uint32_lt r.ns)
    [(32, r.key.toNat), (4, (UInt32.ofNat 0).toNat), (4, r.len.toNat), (8, r.xxh3.toNat)]
    (encodeRows (placed (0 + recordSpan r.len) rs) ++ replicate
      (roundUpAlign ((placed 0 (r :: rs)).length * footerEntrySz) -
        (placed 0 (r :: rs)).length * footerEntrySz) 0)
  rw [← append_assoc] at hns
  intro he
  exact hr (hns.symm.trans he)

theorem Growing.tabled (h : Growing own f rs) (hown : ∀ r, own r → r.Admitted dg) :
    Unsealed own (writeTable f (UInt32.ofNat (extent rs)) (placed 0 rs)) rs := by
  have hend : (UInt32.ofNat (extent rs)).toNat = extent rs := h.holds.dataEnd
  have hroom := h.extent_le
  have hfit : SealFits f.size (UInt32.ofNat (extent rs)).toNat (placed 0 rs).length := by
    rw [hend, length_placed]
    exact h.room
  have hsize : (writeTable f (UInt32.ofNat (extent rs)) (placed 0 rs)).size = f.size :=
    size_writeTable hfit
  have hlow : ∀ i, i < extent rs →
      (writeTable f (UInt32.ofNat (extent rs)) (placed 0 rs)).byte i = f.byte i := by
    intro i hi
    exact byte_writeTable (.inl (by rw [hend]; exact hi)) (.inl (by omega))
  refine ⟨h.own, h.holds.fits, ?_, fun _ => hsize ▸ h.room, hsize ▸ h.size, ?_, ?_⟩
  · rw [window_congr fun i _ hi => hlow i (by omega)]
    exact h.holds.bytes
  · cases rs with
    | nil =>
      rw [leAt_blank (by decide)]
      · decide
      · intro i hi
        exact (byte_writeTable (.inr (Nat.zero_le i)) (.inr (h.zeros i (Nat.zero_le i)))).trans
          (h.zeros i (Nat.zero_le i))
    | cons r rs =>
      have hlen := length_encodeEntries (placed 0 (r :: rs))
      have hpos : recordHdrSize ≤ (encodeEntries (placed 0 (r :: rs))).length := by
        have hup := le_roundUpAlign ((placed 0 (r :: rs)).length * footerEntrySz)
        have hmod := roundUpAlign_mod ((placed 0 (r :: rs)).length * footerEntrySz)
        rw [length_placed, length_cons] at hup hmod hlen
        unfold recordHdrSize footerEntrySz recordAlign at *
        omega
      have hwin := window_writeAt f (extent (r :: rs)) (encodeEntries (placed 0 (r :: rs)))
      have hhead := congrArg (fun b => leAt b 0 4) (congrArg (take recordHdrSize) hwin)
      rw [take_window _ hpos, leAt_take (by decide)] at hhead
      have hfile : writeTable f (UInt32.ofNat (extent (r :: rs))) (placed 0 (r :: rs)) =
          f.writeAt (extent (r :: rs)) (encodeEntries (placed 0 (r :: rs))) := by
        rw [writeTable, if_pos (by unfold recordHdrSize at hpos; omega), hend]
      rw [hfile, hhead]
      exact leAt_table (hown r (h.own r mem_cons_self)).plain
  · intro i hi
    rw [hsize] at hi
    have hz := h.zeros i (by omega)
    refine (byte_writeTable (.inr ?_) (.inr hz)).trans hz
    rw [hend, length_placed]
    omega

private theorem leAt_lastChunk {f : ℕ → UInt8} (h : ∀ i, off ≤ i → f i = 0) :
    leAt ((window f off recordAlign).drop (recordAlign - trailerSize)) 0 4 ≠ trailerMagic := by
  have hsplit := window_add f off (recordAlign - trailerSize) trailerSize
  rw [Nat.sub_add_cancel (by decide)] at hsplit
  rw [hsplit, drop_left' (length_window _ _ _), leAt_blank (by decide)]
  · decide
  · intro i hi
    exact h i (by omega)

private theorem decodeTrailer_of_magic {b : List UInt8} {id : UInt32}
    (h : leAt b 0 4 ≠ trailerMagic) : ∃ e, decodeTrailer b id = .error e := by
  unfold decodeTrailer
  rw [if_pos h]
  split
  · exact ⟨_, rfl⟩
  · exact ⟨_, rfl⟩

theorem Unsealed.readFooter_eq_none (h : Unsealed own f rs) (id : UInt32) :
    readFooter dg f f.size id = none := by
  have htrailer : readTrailer f f.size id = none := by
    cases hread : readLast f f.size with
    | none => rw [readTrailer, hread]
    | some tail =>
      have htail : tail = window f.byte (f.size - recordAlign) recordAlign := by
        unfold readLast at hread
        split at hread
        · cases hread
        · exact (File.readAt_isSome hread).2
      have hmagic := leAt_lastChunk h.blank
      rw [← htail] at hmagic
      obtain ⟨e, hdec⟩ := @decodeTrailer_of_magic _ id hmagic
      rw [readTrailer, hread]
      dsimp only
      rw [hdec]
  simp only [readFooter, htrailer, Option.bind_eq_bind, Option.bind_none]

private theorem Chain.lift {maxBlob : UInt32} {hs : List RecordHeader}
    (h : Chain dg maxBlob f limit off hs e) : Chain dg anyLen f limit off hs e := by
  induction h with
  | nil off => exact .nil off
  | cons head _ ih =>
    exact .cons ⟨head.magic, head.header, le_anyLen _, head.room, head.digest⟩ ih

private theorem Chain.end_eq {maxBlob : UInt32}
    (h : Chain dg maxBlob f limit off (rs.map AppendReq.header) e) : e = off + extent rs := by
  induction rs generalizing off with
  | nil =>
    cases h
    rfl
  | cons r rs ih =>
    cases h with
    | cons _ rest =>
      rw [extent_cons, ← Nat.add_assoc]
      exact ih rest

theorem Unsealed.scan (h : Unsealed own f rs)
    (hown : ∀ r, own r → r.Admitted dg) (p : Params) (hlo : recordAlign ≤ f.size) :
    ∃ n, (scanTail dg p.maxBlobLen f).1 = placed 0 (rs.take n) ∧
      (scanTail dg p.maxBlobLen f).2.1 = UInt32.ofNat (extent (rs.take n)) := by
  obtain ⟨hs, e, hchain, -, hrec, hend⟩ := scanTail_chain dg p hlo
  have hlimit : 0 + extent rs ≤ f.size - recordAlign := by
    by_cases hrs : rs = []
    · subst hrs
      simp
    · have hroom := h.room hrs
      unfold SealFits at hroom
      omega
  have hall := chain_of_framed h.fits (fun r hr => (hown r (h.own r hr)).digest) h.bytes hlimit
  rw [Nat.zero_add] at hall
  have hstop : ∀ k, ¬Intact dg anyLen f (f.size - recordAlign) (extent rs) k :=
    fun k hk => h.ended hk.magic
  obtain ⟨rest, hpre⟩ := hall.prefix_of_stopped hstop hchain.lift
  have hhs : hs = (rs.take hs.length).map AppendReq.header := by
    rw [map_take, ← hpre, take_left]
  rw [hhs] at hchain hrec
  refine ⟨hs.length, ?_, ?_⟩
  · rw [hrec, entriesFrom_headers]
  · rw [hend, hchain.end_eq, Nat.zero_add]

private theorem sealFits_take (h : SealFits size (extent rs) rs.length)
    (n : ℕ) : SealFits size (extent (rs.take n)) (rs.take n).length := by
  have hsplit := extent_append (rs.take n) (rs.drop n)
  rw [take_append_drop] at hsplit
  have hlen : (rs.take n).length * footerEntrySz ≤ rs.length * footerEntrySz :=
    Nat.mul_le_mul_right _ (length_take_le' n rs)
  have hmono := roundUpAlign_mono hlen
  unfold SealFits at *
  omega

theorem sealedFile_of_framed (dg : Digests) (hown : ∀ r ∈ rs, own r)
    (hfits : ∀ r ∈ rs, r.Fits anyLen) (hbytes : window f.byte 0 (extent rs) = framed rs)
    (hroom : SealFits f.size (extent rs) rs.length) (hsize : f.size < 2 ^ 32) (id : UInt32) :
    (writeSeal dg f f.size id (UInt32.ofNat (extent rs)) (placed 0 rs)).size = f.size ∧
      SealedFile own dg id (writeSeal dg f f.size id (UInt32.ofNat (extent rs)) (placed 0 rs)) ∧
      ∀ e ∈ placed 0 rs,
        Backs own (writeSeal dg f f.size id (UInt32.ofNat (extent rs)) (placed 0 rs)) e := by
  have hroom' := hroom
  unfold SealFits at hroom'
  have hend : (UInt32.ofNat (extent rs)).toNat = extent rs :=
    UInt32.toNat_ofNat_of_lt' (show extent rs < 2 ^ 32 by omega)
  have hcount : (placed 0 rs).length < 2 ^ 32 := by
    have hup := le_roundUpAlign (rs.length * footerEntrySz)
    rw [length_placed]
    unfold footerEntrySz at *
    omega
  have hfit : SealFits f.size (UInt32.ofNat (extent rs)).toNat (placed 0 rs).length := by
    rw [hend, length_placed]
    exact hroom
  have hsame : (writeSeal dg f f.size id (UInt32.ofNat (extent rs)) (placed 0 rs)).size = f.size :=
    size_writeSeal dg hfit
  have hback : ∀ e ∈ placed 0 rs,
      Backs own (writeSeal dg f f.size id (UInt32.ofNat (extent rs)) (placed 0 rs)) e := by
    have hlow : window (writeSeal dg f f.size id (UInt32.ofNat (extent rs)) (placed 0 rs)).byte 0
        (extent rs) = framed rs := by
      rw [window_writeSeal dg hfit (by rw [hend, Nat.zero_add])]
      exact hbytes
    intro e he
    obtain ⟨r, hr, hb⟩ := backed_of_framed hfits hlow (by rw [hsame]; omega)
      (by rw [hsame]; exact hsize) e he
    exact ⟨r, hown r hr, hb⟩
  have hwithin : ∀ e ∈ placed 0 rs, e.within anyLen (0 + extent rs) = true :=
    placed_within rfl (by omega)
  rw [Nat.zero_add, ← hend] at hwithin
  refine ⟨hsame, ⟨sealTrailer dg id (UInt32.ofNat (extent rs)) (placed 0 rs), placed 0 rs, ?_,
    fun e he => ⟨hback e he, hwithin e he⟩⟩, hback⟩
  rw [hsame]
  exact readFooter_writeSeal dg hfit hcount

theorem Unsealed.sealedTail (h : Unsealed own f rs)
    (hown : ∀ r, own r → r.Admitted dg) {p : Params} (hlo : recordAlign ≤ f.size) {sealOk : Bool}
    {id : UInt32} {k : Kept} (hk : (recoverTail dg p sealOk id f).kept = some k) :
    k.size = k.file.size ∧ SealedFile own dg id k.file ∧ ∀ e ∈ k.entries, Backs own k.file e := by
  obtain ⟨hne, -, rfl⟩ := recoverTail_kept hk
  obtain ⟨n, hes, hend⟩ := h.scan hown p hlo
  dsimp only
  rw [hes] at hne ⊢
  rw [hend]
  have hrs : rs ≠ [] := by
    rintro rfl
    rw [take_nil] at hne
    exact hne rfl
  have hfits : ∀ r ∈ rs.take n, r.Fits anyLen := fun r hr => h.fits r (mem_of_mem_take hr)
  have hbytes : window f.byte 0 (extent (rs.take n)) = framed (rs.take n) := by
    have hsplit := extent_append (rs.take n) (rs.drop n)
    have hall := h.bytes
    rw [take_append_drop] at hsplit
    rw [hsplit, window_add, ← take_append_drop n rs, framed_append, take_append_drop] at hall
    refine (append_inj hall ?_).1
    rw [length_window, length_framed hfits]
  obtain ⟨hsize, hsealed, hback⟩ := sealedFile_of_framed dg
    (fun r hr => h.own r (mem_of_mem_take hr)) hfits hbytes (sealFits_take (h.room hrs) n) h.size id
  exact ⟨hsize.symm, hsealed, hback⟩

/-! ### The file of the active segment -/

theorem AppendReq.Fits.any {maxBlob : UInt32} (h : r.Fits maxBlob) : r.Fits anyLen :=
  le_trans h (UInt32.le_iff_toNat_le.mp (le_anyLen maxBlob))

theorem growing_of_blank (hblank : ∀ i, f.byte i = 0) (hsize : f.size < 2 ^ 32)
    (hroom : recordAlign ≤ f.size) : Growing own f [] where
  own := by simp
  holds := Tail.holds_empty anyLen f
  room := by
    show 0 + roundUpAlign (0 * footerEntrySz) + recordAlign ≤ f.size
    rw [show roundUpAlign (0 * footerEntrySz) = 0 by decide]
    omega
  size := hsize
  zeros i _ := hblank i

theorem Growing.append (h : Growing own f rs) (hown : ∀ r ∈ ss, own r)
    (hfits : ∀ r ∈ ss, r.Fits anyLen)
    (hroom : SealFits f.size (extent rs + extent ss) (rs.length + ss.length)) :
    let t := Tail.append ⟨f, UInt32.ofNat (extent rs), placed 0 rs⟩ ss
    t.dataEnd = UInt32.ofNat (extent (rs ++ ss)) ∧ t.entries = placed 0 (rs ++ ss) ∧
      t.file.size = f.size ∧ Growing own t.file (rs ++ ss) := by
  intro t
  have hroom' := hroom
  unfold SealFits at hroom'
  have hlen : extent rs + extent ss ≤ f.size := by omega
  have hheld : t.Holds anyLen (rs ++ ss) := h.holds.append hfits hlen h.size
  have hsize : t.file.size = f.size := Tail.size_append h.holds hfits hlen
  have hend : t.dataEnd = UInt32.ofNat (extent (rs ++ ss)) := by
    rw [← hheld.dataEnd, UInt32.ofNat_toNat]
  refine ⟨hend, hheld.entries, hsize, ?_, ?_, ?_, ?_, ?_⟩
  · intro r hr
    rcases mem_append.mp hr with hr | hr
    · exact h.own r hr
    · exact hown r hr
  · rw [← hend, ← hheld.entries]
    exact hheld
  · rw [hsize, extent_append, length_append]
    exact hroom
  · rw [hsize]
    exact h.size
  intro i hi
  rw [extent_append] at hi
  have hstaged :
      (ss.foldl (Batch.stage (UInt32.ofNat (extent rs))) Batch.empty).staging = framed ss :=
    (foldl_stage _ hfits Batch.empty).1
  have hdata : (UInt32.ofNat (extent rs)).toNat = extent rs := h.holds.dataEnd
  show (f.writeAt (UInt32.ofNat (extent rs)).toNat _).byte i = 0
  rw [hstaged, hdata]
  refine (if_neg (by rw [length_framed hfits]; omega)).trans ?_
  split
  · exact h.zeros i (by omega)
  · rfl

theorem Growing.sealed (h : Growing own f rs) (dg : Digests) (id : UInt32) :
    let g := writeTrailer (writeTable f (UInt32.ofNat (extent rs)) (placed 0 rs)) f.size
      (sealTrailer dg id (UInt32.ofNat (extent rs)) (placed 0 rs))
    g.size = f.size ∧ SealedFile own dg id g ∧ ∀ e ∈ placed 0 rs, Backs own g e :=
  sealedFile_of_framed dg h.own h.holds.fits h.holds.bytes h.room h.size id

end Files

end KVStash.Nvme
