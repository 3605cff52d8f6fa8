import AirHuim.Storage.FileChunkStore

/-!
# Pages with one changed byte

A read checks magic number, page id and the checksum of as many bytes as the
length field says, but the checksum covers neither the length nor the flags. A
changed byte goes unnoticed in exactly two places: the flags, and a length that
shrinks to a prefix of the same checksum.
-/

namespace AirHuim

open Library

theorem PageFlags.bits_of_fromBits {b : UInt8} {flags : PageFlags} (h : fromBits b = some flags) :
    flags.bits = b := by
  unfold fromBits at h
  split at h
  · rename_i hlt
    have hnat : b.toNat < 8 := by simpa [UInt8.lt_iff_toNat_lt] using hlt
    have hb : b = UInt8.ofNat b.toNat := by simp
    generalize b.toNat = n at hnat hb
    subst hb
    cases h
    interval_cases n <;> decide
  · cases h

namespace FileChunkStore

variable {c : Codec} {crc : Bytes → UInt32}

/-- The store after byte `i` of a page's file became `b`. -/
def corrupt (s : FileChunkStore) (id : UInt64) (i : ℕ) (b : UInt8) : FileChunkStore :=
  { s with
    files := Function.update s.files (pagePath id) ((s.files (pagePath id)).map (·.set i b)) }

/-- Buffers that differ in exactly one byte have different checksums. -/
def DetectsOneByte (crc : Bytes → UInt32) : Prop :=
  ∀ (data : Bytes) (i : ℕ) (b : UInt8), crc (data.set i b) = crc data → data.set i b = data

/-- A read of the changed page fails, or gives what was written and its flags. -/
def ChangeNoticed (c : Codec) (crc : Bytes → UInt32) (s : FileChunkStore) (id : UInt64)
    (written : Bytes × PageFlags) (i : ℕ) (b : UInt8) : Prop :=
  ∀ result, ((s.writePage c crc id written.1 written.2).corrupt id i b).readPage c crc id =
    .ok result → result = readBack c s.compress written

/-- What a payload that passed the checks is read as. -/
def decode (c : Codec) (flags : PageFlags) (stored : Bytes) : Option Bytes :=
  if flags.compressed then c.decompress stored else some stored

theorem readPayload_eq_ok_iff {id : UInt64} {header : PageHeader} {rest : Bytes}
    {result : Bytes × PageFlags} :
    readPayload c crc id header rest = .ok result ↔
      header.magic = pageMagic ∧ header.pageId = id ∧ header.payloadLen.toNat ≤ rest.length ∧
        crc (rest.take header.payloadLen.toNat) = header.payloadCrc32 ∧
        decode c header.flags (rest.take header.payloadLen.toNat) = some result.1 ∧
        header.flags = result.2 := by
  obtain ⟨data, flags⟩ := result
  have hshort : (rest.take header.payloadLen.toNat).length < header.payloadLen.toNat ↔
      ¬ header.payloadLen.toNat ≤ rest.length := by
    rw [List.length_take]
    omega
  simp only [readPayload, hshort]
  by_cases hmagic : header.magic = pageMagic
  · by_cases hid : header.pageId = id
    · by_cases hlen : header.payloadLen.toNat ≤ rest.length
      · by_cases hcrc : crc (rest.take header.payloadLen.toNat) = header.payloadCrc32
        · cases hcompressed : header.flags.compressed with
          | false => simp [hmagic, hid, hlen, hcrc, hcompressed, decode]
          | true =>
            cases hdata : c.decompress (rest.take header.payloadLen.toNat) <;>
              simp [hmagic, hid, hlen, hcrc, hcompressed, decode, hdata]
        · simp [hmagic, hid, hlen, hcrc]
      · simp [hmagic, hid, hlen]
    · simp [hmagic, hid]
  · simp [hmagic]

/-! ## The fields after the change -/

section Fields

variable (i : ℕ) (b : UInt8) (stored : Bytes)

def lengthAfter : ℕ := ofLeBytes (patch 12 (leBytes 4 (UInt32.ofNat stored.length).toNat) i b)

def checksumAfter (sum : UInt32) : UInt32 :=
  UInt32.ofNat (ofLeBytes (patch 16 (leBytes 4 sum.toNat) i b))

def flagsAfter (flags : PageFlags) : Option PageFlags :=
  PageFlags.fromBits (if i = 20 then b else flags.bits)

/-- The bytes the length field covers. -/
def coveredAfter : Bytes := (patch 24 stored i b).take (lengthAfter i b stored)

end Fields

theorem ofLeBytes_patch_lt (o w n i : ℕ) (b : UInt8) :
    ofLeBytes (patch o (leBytes w n) i b) < 256 ^ w := by
  have hlt := ofLeBytes_lt (patch o (leBytes w n) i b)
  rwa [length_patch, length_leBytes] at hlt

/-- A changed field is another number. -/
theorem patch_eq_of_ofLeBytes_eq {o w n i : ℕ} {b : UInt8}
    (h : ofLeBytes (patch o (leBytes w n) i b) = n) : patch o (leBytes w n) i b = leBytes w n := by
  have hbytes := leBytes_ofLeBytes (patch o (leBytes w n) i b)
  rw [h, length_patch, length_leBytes] at hbytes
  exact hbytes.symm

/-- The file of a page after the change, field by field. -/
theorem set_fileOf (compress : Bool) (id : UInt64) (written : Bytes × PageFlags) (i : ℕ)
    (b : UInt8) :
    (fileOf c crc compress id written).set i b =
      let final := finalForm c compress written.1 written.2
      (patch 0 (leBytes 4 pageMagic.toNat) i b ++ patch 4 (leBytes 8 id.toNat) i b ++
        patch 12 (leBytes 4 (UInt32.ofNat final.1.length).toNat) i b ++
        patch 16 (leBytes 4 (crc final.1).toNat) i b ++
        (if i = 20 then b else final.2.bits) :: patch 21 [0, 0, 0] i b) ++
        patch 24 final.1 i b := by
  have hreserved : ∀ f : UInt8, [f, 0, 0, 0] = [f] ++ [0, 0, 0] := fun _ => rfl
  rw [← patch_zero]
  simp only [fileOf, headerOf, PageHeader.toBytes, hreserved, patch_append, patch_singleton,
    length_leBytes, List.length_append, List.length_cons, List.length_nil]
  simp

/-- What a read of the changed page checks, and what it returns. -/
theorem readPage_corrupt_eq_ok_iff {s : FileChunkStore} {id : UInt64}
    {written : Bytes × PageFlags} {i : ℕ} {b : UInt8} {result : Bytes × PageFlags} :
    ((s.writePage c crc id written.1 written.2).corrupt id i b).readPage c crc id = .ok result ↔
      let final := finalForm c s.compress written.1 written.2
      UInt32.ofNat (ofLeBytes (patch 0 (leBytes 4 pageMagic.toNat) i b)) = pageMagic ∧
        UInt64.ofNat (ofLeBytes (patch 4 (leBytes 8 id.toNat) i b)) = id ∧
        flagsAfter i b final.2 = some result.2 ∧ lengthAfter i b final.1 ≤ final.1.length ∧
        crc (coveredAfter i b final.1) = checksumAfter i b (crc final.1) ∧
        decode c result.2 (coveredAfter i b final.1) = some result.1 := by
  set final := finalForm c s.compress written.1 written.2 with hfinal
  have hfile : ((s.writePage c crc id written.1 written.2).corrupt id i b).files (pagePath id) =
      some ((fileOf c crc s.compress id written).set i b) := by
    simp [corrupt, writePage, fileOf]
  set header := patch 0 (leBytes 4 pageMagic.toNat) i b ++ patch 4 (leBytes 8 id.toNat) i b ++
    patch 12 (leBytes 4 (UInt32.ofNat final.1.length).toNat) i b ++
    patch 16 (leBytes 4 (crc final.1).toNat) i b ++
    (if i = 20 then b else final.2.bits) :: patch 21 [0, 0, 0] i b with hdef
  have hheader : PageHeader.fromBytes header = (flagsAfter i b final.2).map fun flags =>
      { magic := UInt32.ofNat (ofLeBytes (patch 0 (leBytes 4 pageMagic.toNat) i b))
        pageId := UInt64.ofNat (ofLeBytes (patch 4 (leBytes 8 id.toNat) i b))
        payloadLen := UInt32.ofNat (lengthAfter i b final.1)
        payloadCrc32 := checksumAfter i b (crc final.1)
        flags } :=
    PageHeader.fromBytes_append _ (by simp) (by simp) (by simp) (by simp)
  have hsize : header.length = pageHeaderSize := by simp [hdef, pageHeaderSize]
  have hset : (fileOf c crc s.compress id written).set i b = header ++ patch 24 final.1 i b :=
    set_fileOf s.compress id written i b
  have hlong : ¬ (header ++ patch 24 final.1 i b).length < pageHeaderSize := by
    rw [List.length_append, hsize]
    omega
  have hlen : (UInt32.ofNat (lengthAfter i b final.1)).toNat = lengthAfter i b final.1 :=
    UInt32.toNat_ofNat_of_lt' (ofLeBytes_patch_lt 12 4 _ i b)
  simp only [readPage, hfile, hset, if_neg hlong, List.take_left' hsize, List.drop_left' hsize,
    hheader]
  cases flagsAfter i b final.2 with
  | none => simp
  | some flags =>
    simp only [Option.map_some, readPayload_eq_ok_iff, hlen, length_patch, Option.some.injEq]
    constructor
    · rintro ⟨hmagic, hid, hshort, hcrc, hdata, rfl⟩
      exact ⟨hmagic, hid, rfl, hshort, hcrc, hdata⟩
    · rintro ⟨hmagic, hid, rfl, hshort, hcrc, hdata⟩
      exact ⟨hmagic, hid, hshort, hcrc, hdata, rfl⟩

/-- Where the changed byte lies, and what differs there. -/
theorem change_cases {compress : Bool} {id : UInt64} {written : Bytes × PageFlags} {i : ℕ}
    {b : UInt8}
    (h : (fileOf c crc compress id written).set i b ≠ fileOf c crc compress id written) :
    let final := finalForm c compress written.1 written.2
    (i < 4 ∧ patch 0 (leBytes 4 pageMagic.toNat) i b ≠ leBytes 4 pageMagic.toNat) ∨
      (4 ≤ i ∧ i < 12 ∧ patch 4 (leBytes 8 id.toNat) i b ≠ leBytes 8 id.toNat) ∨
      (12 ≤ i ∧ i < 16 ∧ patch 12 (leBytes 4 (UInt32.ofNat final.1.length).toNat) i b ≠
        leBytes 4 (UInt32.ofNat final.1.length).toNat) ∨
      (16 ≤ i ∧ i < 20 ∧ patch 16 (leBytes 4 (crc final.1).toNat) i b ≠
        leBytes 4 (crc final.1).toNat) ∨
      (i = 20 ∧ b ≠ final.2.bits) ∨ (21 ≤ i ∧ i < 24) ∨
      (24 ≤ i ∧ patch 24 final.1 i b ≠ final.1) := by
  have hfile : fileOf c crc compress id written =
      let final := finalForm c compress written.1 written.2
      (leBytes 4 pageMagic.toNat ++ leBytes 8 id.toNat ++
        leBytes 4 (UInt32.ofNat final.1.length).toNat ++ leBytes 4 (crc final.1).toNat ++
        final.2.bits :: [0, 0, 0]) ++ final.1 := rfl
  rw [set_fileOf, hfile] at h
  dsimp only at h ⊢
  by_contra hsame
  push Not at hsame
  obtain ⟨hmagic, hid, hlen, hcrc, hflags, hreserved, hstored⟩ := hsame
  apply h
  have h0 : patch 0 (leBytes 4 pageMagic.toNat) i b = leBytes 4 pageMagic.toNat :=
    patch_eq_of fun _ hi => hmagic (by simpa using hi)
  have h4 : patch 4 (leBytes 8 id.toNat) i b = leBytes 8 id.toNat :=
    patch_eq_of fun hlo hi => hid hlo (by simpa using hi)
  have h12 : patch 12 (leBytes 4 _) i b = leBytes 4 _ :=
    patch_eq_of fun hlo hi => hlen hlo (by simpa using hi)
  have h16 : patch 16 (leBytes 4 _) i b = leBytes 4 _ :=
    patch_eq_of fun hlo hi => hcrc hlo (by simpa using hi)
  have h20 : (if i = 20 then b else (finalForm c compress written.1 written.2).2.bits) =
      (finalForm c compress written.1 written.2).2.bits := by
    split
    · rename_i hi
      exact hflags hi
    · rfl
  have h21 : patch 21 [0, 0, 0] i b = [0, 0, 0] :=
    patch_eq_of fun hlo hi => absurd (by simpa using hi) (not_lt.mpr (hreserved hlo))
  have h24 : patch 24 (finalForm c compress written.1 written.2).1 i b =
      (finalForm c compress written.1 written.2).1 := patch_eq_of fun hlo _ => hstored hlo
  rw [h0, h4, h12, h16, h20, h21, h24]

/-- A changed field is another number. -/
theorem uint32_patch_ne {o i : ℕ} {n : UInt32} {b : UInt8}
    (h : patch o (leBytes 4 n.toNat) i b ≠ leBytes 4 n.toNat) :
    UInt32.ofNat (ofLeBytes (patch o (leBytes 4 n.toNat) i b)) ≠ n := by
  intro heq
  apply h
  apply patch_eq_of_ofLeBytes_eq
  rw [← UInt32.toNat_ofNat_of_lt' (ofLeBytes_patch_lt o 4 n.toNat i b), heq]

theorem uint64_patch_ne {o i : ℕ} {n : UInt64} {b : UInt8}
    (h : patch o (leBytes 8 n.toNat) i b ≠ leBytes 8 n.toNat) :
    UInt64.ofNat (ofLeBytes (patch o (leBytes 8 n.toNat) i b)) ≠ n := by
  intro heq
  apply h
  apply patch_eq_of_ofLeBytes_eq
  rw [← UInt64.toNat_ofNat_of_lt' (ofLeBytes_patch_lt o 8 n.toNat i b), heq]

/-! ## What goes unnoticed -/

/-- The changed page passes every check and is read as something else. -/
def Slips (c : Codec) (crc : Bytes → UInt32) (compress : Bool) (written : Bytes × PageFlags)
    (i : ℕ) (b : UInt8) : Prop :=
  let final := finalForm c compress written.1 written.2
  12 ≤ i ∧ lengthAfter i b final.1 ≤ final.1.length ∧
    crc (coveredAfter i b final.1) = checksumAfter i b (crc final.1) ∧
    ∃ result : Bytes × PageFlags, flagsAfter i b final.2 = some result.2 ∧
      decode c result.2 (coveredAfter i b final.1) = some result.1 ∧
      result ≠ readBack c compress written

theorem changeNoticed_iff_not_slips {s : FileChunkStore} {id : UInt64}
    {written : Bytes × PageFlags} {i : ℕ} {b : UInt8}
    (h : (fileOf c crc s.compress id written).set i b ≠ fileOf c crc s.compress id written) :
    ChangeNoticed c crc s id written i b ↔ ¬ Slips c crc s.compress written i b := by
  have hchecked : 12 ≤ i ↔
      UInt32.ofNat (ofLeBytes (patch 0 (leBytes 4 pageMagic.toNat) i b)) = pageMagic ∧
        UInt64.ofNat (ofLeBytes (patch 4 (leBytes 8 id.toNat) i b)) = id := by
    constructor
    · intro hi
      have hmagic : patch 0 (leBytes 4 pageMagic.toNat) i b = leBytes 4 pageMagic.toNat :=
        patch_of_le (by simp; omega) b
      have hid : patch 4 (leBytes 8 id.toNat) i b = leBytes 8 id.toNat :=
        patch_of_le (by simp; omega) b
      rw [hmagic, hid, PageHeader.ofLeBytes_uint32, PageHeader.ofLeBytes_uint64]
      exact ⟨UInt32.ofNat_toNat, UInt64.ofNat_toNat⟩
    · rintro ⟨hmagic, hid⟩
      rcases change_cases h with ⟨-, hne⟩ | ⟨-, -, hne⟩ | ⟨hi, -⟩ | ⟨hi, -⟩ | ⟨hi, -⟩ | ⟨hi, -⟩ |
          ⟨hi, -⟩
      · exact absurd hmagic (uint32_patch_ne hne)
      · exact absurd hid (uint64_patch_ne hne)
      all_goals omega
  simp only [ChangeNoticed, readPage_corrupt_eq_ok_iff, Slips, hchecked]
  push Not
  constructor
  · intro hall hpasses hlen hcrc result hflags hdata
    exact hall result ⟨hpasses.1, hpasses.2, hflags, hlen, hcrc, hdata⟩
  · rintro hall result ⟨hmagic, hid, hflags, hlen, hcrc, hdata⟩
    exact hall ⟨hmagic, hid⟩ hlen hcrc result hflags hdata

/-- The flags become others that still decode, or the length that of a shorter
prefix with the checksum of the whole. -/
def FlagsOrLengthSlip (c : Codec) (crc : Bytes → UInt32) (compress : Bool)
    (written : Bytes × PageFlags) (i : ℕ) (b : UInt8) : Prop :=
  let final := finalForm c compress written.1 written.2
  let shorter := final.1.take (lengthAfter i b final.1)
  (i = 20 ∧ ∃ flags, PageFlags.fromBits b = some flags ∧ decode c flags final.1 ≠ none) ∨
    (12 ≤ i ∧ i < 16 ∧ lengthAfter i b final.1 < final.1.length ∧ crc shorter = crc final.1 ∧
      ∃ data, decode c final.2 shorter = some data ∧ data ≠ written.1)

/-- A length field no change reached. -/
theorem lengthAfter_of_le {stored : Bytes} (hlen : stored.length < 2 ^ 32) {i : ℕ} (hi : 16 ≤ i)
    (b : UInt8) : lengthAfter i b stored = stored.length := by
  rw [lengthAfter, patch_of_le (by simp; omega), PageHeader.ofLeBytes_uint32,
    UInt32.toNat_ofNat_of_lt' hlen]

theorem checksumAfter_of_not_mem {i : ℕ} (hi : i < 16 ∨ 20 ≤ i) (b : UInt8) (sum : UInt32) :
    checksumAfter i b sum = sum := by
  have hpatch : patch 16 (leBytes 4 sum.toNat) i b = leBytes 4 sum.toNat :=
    patch_eq_of fun hlo hhi => by simp at hhi; omega
  rw [checksumAfter, hpatch, PageHeader.ofLeBytes_uint32, UInt32.ofNat_toNat]

theorem flagsAfter_of_ne {i : ℕ} (hi : i ≠ 20) (b : UInt8) (flags : PageFlags) :
    flagsAfter i b flags = some flags := by
  rw [flagsAfter, if_neg hi, PageFlags.fromBits_bits]

/-- The whole stored form, if neither it nor its length changed. -/
theorem coveredAfter_of_mem {stored : Bytes} (hlen : stored.length < 2 ^ 32) {i : ℕ}
    (hlo : 16 ≤ i) (hhi : i < 24) (b : UInt8) : coveredAfter i b stored = stored := by
  rw [coveredAfter, patch_of_lt hhi, lengthAfter_of_le hlen hlo, List.take_length]

theorem decode_finalForm (hc : c.Inverts) (compress : Bool) {written : Bytes × PageFlags}
    (hlen : written.1.length < 2 ^ 32) (hflags : written.2.compressed = false) :
    decode c (finalForm c compress written.1 written.2).2
        (finalForm c compress written.1 written.2).1 = some written.1 ∧
      (finalForm c compress written.1 written.2).2 = (readBack c compress written).2 := by
  obtain ⟨payload, compressed, ulBody, txChunk⟩ := written
  cases hflags
  rw [finalForm_eq]
  cases hstores : storesCompressed c compress payload with
  | true => simp [decode, readBack, hstores, hc payload hlen]
  | false => simp [decode, readBack, hstores]

section Regions

variable {compress : Bool} {written : Bytes × PageFlags} {i : ℕ} {b : UInt8}

theorem slips_length (hc : c.Inverts) (hlen : written.1.length < 2 ^ 32)
    (hflags : written.2.compressed = false) (hlo : 12 ≤ i) (hhi : i < 16)
    (hne : lengthAfter i b (finalForm c compress written.1 written.2).1 ≠
      (finalForm c compress written.1 written.2).1.length) :
    Slips c crc compress written i b ↔ FlagsOrLengthSlip c crc compress written i b := by
  have hback := (decode_finalForm hc compress hlen hflags).2
  have hfirst : (readBack c compress written).1 = written.1 := rfl
  simp only [Slips, FlagsOrLengthSlip, coveredAfter, patch_of_lt (show i < 24 by omega),
    checksumAfter_of_not_mem (Or.inl hhi), flagsAfter_of_ne (show i ≠ 20 by omega),
    Option.some.injEq]
  constructor
  · rintro ⟨-, hle, hcrc, ⟨data, flags⟩, heq, hdata, hother⟩
    dsimp only at heq hdata
    subst heq
    refine Or.inr ⟨hlo, hhi, by omega, hcrc, data, hdata, fun hsame => hother ?_⟩
    rw [Prod.ext_iff]
    exact ⟨hsame.trans hfirst.symm, hback⟩
  · rintro (⟨hi, -⟩ | ⟨-, -, hlt, hcrc, data, hdata, hother⟩)
    · omega
    · refine ⟨hlo, hlt.le, hcrc, (data, _), rfl, hdata, fun hsame => hother ?_⟩
      exact (Prod.ext_iff.mp hsame).1

theorem slips_flags (hc : c.Inverts) (hlen : written.1.length < 2 ^ 32)
    (hflags : written.2.compressed = false)
    (hne : b ≠ (finalForm c compress written.1 written.2).2.bits) :
    Slips c crc compress written 20 b ↔ FlagsOrLengthSlip c crc compress written 20 b := by
  have hback := (decode_finalForm hc compress hlen hflags).2
  have hstored : (finalForm c compress written.1 written.2).1.length < 2 ^ 32 :=
    length_finalForm hlen written.2
  simp only [Slips, FlagsOrLengthSlip, coveredAfter_of_mem hstored (show 16 ≤ 20 by omega)
    (show 20 < 24 by omega), lengthAfter_of_le hstored (show 16 ≤ 20 by omega),
    checksumAfter_of_not_mem (Or.inr (le_refl 20)), flagsAfter, if_true]
  constructor
  · rintro ⟨-, -, -, result, hbits, hdata, -⟩
    exact Or.inl ⟨trivial, result.2, hbits, by simp [hdata]⟩
  · rintro (⟨-, flags, hbits, hdata⟩ | ⟨-, habs, -⟩)
    · obtain ⟨data, hdata⟩ := Option.ne_none_iff_exists'.mp hdata
      refine ⟨by omega, le_rfl, trivial, (data, flags), hbits, hdata, fun hsame => hne ?_⟩
      rw [hback, ← hsame]
      exact (PageFlags.bits_of_fromBits hbits).symm
    · omega

theorem not_slips_checksum (hlen : written.1.length < 2 ^ 32) (hlo : 16 ≤ i) (hhi : i < 20)
    (hne : checksumAfter i b (crc (finalForm c compress written.1 written.2).1) ≠
      crc (finalForm c compress written.1 written.2).1) :
    ¬ Slips c crc compress written i b := by
  rintro ⟨-, -, hcrc, -⟩
  rw [coveredAfter_of_mem (length_finalForm hlen written.2) hlo (by omega)] at hcrc
  exact hne hcrc.symm

theorem not_slips_reserved (hc : c.Inverts) (hlen : written.1.length < 2 ^ 32)
    (hflags : written.2.compressed = false) (hlo : 21 ≤ i) (hhi : i < 24) :
    ¬ Slips c crc compress written i b := by
  obtain ⟨hdecode, hback⟩ := decode_finalForm hc compress hlen hflags
  rintro ⟨-, -, -, ⟨data, flags⟩, hsame, hdata, hother⟩
  rw [coveredAfter_of_mem (length_finalForm hlen written.2) (by omega) hhi] at hdata
  rw [flagsAfter_of_ne (by omega), Option.some.injEq] at hsame
  dsimp only at hsame hdata
  subst hsame
  rw [hdecode, Option.some.injEq] at hdata
  apply hother
  rw [Prod.ext_iff]
  exact ⟨hdata.symm, hback⟩

theorem not_slips_payload (hcrc : DetectsOneByte crc) (hlen : written.1.length < 2 ^ 32)
    (hi : 24 ≤ i) (hne : patch 24 (finalForm c compress written.1 written.2).1 i b ≠
      (finalForm c compress written.1 written.2).1) :
    ¬ Slips c crc compress written i b := by
  have hstored : (finalForm c compress written.1 written.2).1.length < 2 ^ 32 :=
    length_finalForm hlen written.2
  rintro ⟨-, -, hsum, -⟩
  have hcovered : coveredAfter i b (finalForm c compress written.1 written.2).1 =
      patch 24 (finalForm c compress written.1 written.2).1 i b := by
    rw [coveredAfter, lengthAfter_of_le hstored (by omega), ← length_patch 24 _ i b,
      List.take_length]
  rw [hcovered, checksumAfter_of_not_mem (Or.inr (by omega))] at hsum
  unfold patch at hsum hne
  rw [if_pos hi] at hsum hne
  exact hne (hcrc _ _ _ hsum)

theorem slips_iff_of_lt (hc : c.Inverts) (hcrc : DetectsOneByte crc) {id : UInt64}
    (hflags : written.2.compressed = false) (hlen : written.1.length < 2 ^ 32)
    (h : (fileOf c crc compress id written).set i b ≠ fileOf c crc compress id written) :
    Slips c crc compress written i b ↔ FlagsOrLengthSlip c crc compress written i b := by
  have hfields : FlagsOrLengthSlip c crc compress written i b → i = 20 ∨ (12 ≤ i ∧ i < 16) := by
    rintro (⟨hi, -⟩ | ⟨hlo, hhi, -⟩)
    · exact Or.inl hi
    · exact Or.inr ⟨hlo, hhi⟩
  have hneither (hslips : ¬ Slips c crc compress written i b)
      (hi : ¬ (i = 20 ∨ (12 ≤ i ∧ i < 16))) :
      Slips c crc compress written i b ↔ FlagsOrLengthSlip c crc compress written i b :=
    ⟨fun hs => (hslips hs).elim, fun hs => (hi (hfields hs)).elim⟩
  rcases change_cases h with ⟨hi, -⟩ | ⟨-, hi, -⟩ | ⟨hlo, hhi, hne⟩ | ⟨hlo, hhi, hne⟩ |
      ⟨rfl, hne⟩ | ⟨hlo, hhi⟩ | ⟨hi, hne⟩
  · exact hneither (fun hs => by have := hs.1; omega) (by omega)
  · exact hneither (fun hs => by have := hs.1; omega) (by omega)
  · apply slips_length hc hlen hflags hlo hhi
    intro hsame
    apply hne
    apply patch_eq_of_ofLeBytes_eq
    rw [UInt32.toNat_ofNat_of_lt' (length_finalForm hlen written.2)]
    rw [lengthAfter, UInt32.toNat_ofNat_of_lt' (length_finalForm hlen written.2)] at hsame
    exact hsame
  · exact hneither (not_slips_checksum hlen hlo hhi (uint32_patch_ne hne)) (by omega)
  · exact slips_flags hc hlen hflags hne
  · exact hneither (not_slips_reserved hc hlen hflags hlo hhi) (by omega)
  · exact hneither (not_slips_payload hcrc hlen hi hne) (by omega)

end Regions

/-- A changed byte goes unnoticed in the flags, in a length that shrinks, and in
pages whose payload was too long for the length field. -/
theorem changeNoticed_iff (hc : c.Inverts) (hcrc : DetectsOneByte crc) {s : FileChunkStore}
    {id : UInt64} {written : Bytes × PageFlags} (hflags : written.2.compressed = false) {i : ℕ}
    {b : UInt8}
    (h : (fileOf c crc s.compress id written).set i b ≠ fileOf c crc s.compress id written) :
    ChangeNoticed c crc s id written i b ↔
      ¬ ((written.1.length < 2 ^ 32 ∧ FlagsOrLengthSlip c crc s.compress written i b) ∨
        (2 ^ 32 ≤ written.1.length ∧ Slips c crc s.compress written i b)) := by
  rw [changeNoticed_iff_not_slips h, not_iff_not]
  by_cases hlen : written.1.length < 2 ^ 32
  · rw [slips_iff_of_lt hc hcrc hflags hlen h]
    simp only [hlen, not_le.mpr hlen, true_and, false_and, or_false]
  · simp only [hlen, not_lt.mp hlen, true_and, false_and, false_or]

/-! ## The checksum in use -/

theorem toNat_shiftRight_one (r : UInt32) : (r >>> 1).toNat = r.toNat / 2 := by
  simp [UInt32.toNat_shiftRight, Nat.shiftRight_one]

/-- The polynomial's top bit tells whether the register was odd. -/
theorem shiftRight_ne_xor (r r' : UInt32) : r >>> 1 ≠ r' >>> 1 ^^^ 0xEDB88320 := by
  intro heq
  have hxor : r >>> 1 ^^^ r' >>> 1 = 0xEDB88320 := by
    rw [heq, UInt32.xor_comm, ← UInt32.xor_assoc, UInt32.xor_self, UInt32.zero_xor]
  have hlt : (r >>> 1 ^^^ r' >>> 1).toNat < 2 ^ 31 := by
    rw [UInt32.toNat_xor]
    apply Nat.xor_lt_two_pow
    · rw [toNat_shiftRight_one]
      have := r.toNat_lt
      omega
    · rw [toNat_shiftRight_one]
      have := r'.toNat_lt
      omega
  rw [hxor] at hlt
  exact absurd hlt (by decide)

theorem crcBit_injective : Function.Injective crcBit := by
  intro r r' h
  have hshift : r >>> 1 = r' >>> 1 ∧ (r % 2 = 1 ↔ r' % 2 = 1) := by
    unfold crcBit at h
    split_ifs at h with hr hr' hr'
    · exact ⟨(UInt32.xor_left_inj _).mp h, by simp [hr, hr']⟩
    · exact (shiftRight_ne_xor r' r h.symm).elim
    · exact (shiftRight_ne_xor r r' h).elim
    · exact ⟨h, by simp [hr, hr']⟩
  have hhalf : r.toNat / 2 = r'.toNat / 2 := by
    rw [← toNat_shiftRight_one, ← toNat_shiftRight_one, hshift.1]
  have hodd : ∀ x : UInt32, x % 2 = 1 ↔ x.toNat % 2 = 1 := by
    intro x
    rw [← UInt32.toNat_inj]
    simp
  have hparity := hshift.2
  rw [hodd, hodd] at hparity
  apply UInt32.toNat_inj.mp
  omega

/-- The register after one more byte. -/
def crcByte (r : UInt32) (b : UInt8) : UInt32 := crcBit^[8] (r ^^^ b.toUInt32)

theorem crcByte_left_injective (b : UInt8) : Function.Injective fun r => crcByte r b := by
  intro r r' h
  exact (UInt32.xor_left_inj _).mp (crcBit_injective.iterate 8 h)

theorem crcByte_right_injective (r : UInt32) : Function.Injective (crcByte r) := by
  intro b b' h
  have hbyte := (UInt32.xor_right_inj _).mp (crcBit_injective.iterate 8 h)
  apply UInt8.toNat_inj.mp
  rw [← UInt8.toNat_toUInt32 b, hbyte, UInt8.toNat_toUInt32]

theorem foldl_crcByte_injective (data : Bytes) :
    Function.Injective fun r => data.foldl crcByte r := by
  induction data with
  | nil => exact fun _ _ h => h
  | cons b data ih => exact ih.comp (crcByte_left_injective b)

theorem foldl_crcByte_set {data : Bytes} {r : UInt32} {i : ℕ} {b : UInt8}
    (h : (data.set i b).foldl crcByte r = data.foldl crcByte r) : data.set i b = data := by
  induction data generalizing r i with
  | nil => rfl
  | cons a data ih =>
    cases i with
    | zero =>
      have hregister : crcByte r b = crcByte r a := foldl_crcByte_injective data h
      rw [List.set_cons_zero, crcByte_right_injective r hregister]
    | succ i => rw [List.set_cons_succ, ih h]

theorem detectsOneByte_crc32 : DetectsOneByte crc32 := by
  intro data i b h
  have hregister : (data.set i b).foldl crcByte 0xFFFFFFFF = data.foldl crcByte 0xFFFFFFFF :=
    (UInt32.xor_left_inj _).mp h
  exact foldl_crcByte_set hregister

/-- A changed payload byte, with the checksum in use. -/
theorem changeNoticed_iff_payload :
    ChangeNoticed Codec.identity crc32 (new false) 7 ([1, 2, 3], PageFlags.empty) 25 9 := by
  apply (changeNoticed_iff (fun _ _ => rfl) detectsOneByte_crc32 rfl (by decide +kernel)).mpr
  rintro (⟨-, ⟨hi, -⟩ | ⟨-, hi, -⟩⟩ | ⟨hlong, -⟩)
  · exact absurd hi (by decide)
  · exact absurd hi (by decide)
  · exact absurd hlong (by decide)

/-- A page of a transaction chunk whose flag byte changes reads as an item's list. -/
theorem not_changeNoticed_flags :
    (fileOf Codec.identity crc32 false 7 ([1, 2, 3], ⟨false, false, true⟩)).set 20 2 ≠
        fileOf Codec.identity crc32 false 7 ([1, 2, 3], ⟨false, false, true⟩) ∧
      ¬ ChangeNoticed Codec.identity crc32 (new false) 7
        ([1, 2, 3], ⟨false, false, true⟩) 20 2 := by
  constructor
  · decide +kernel
  · intro hnoticed
    have hread := hnoticed ([1, 2, 3], ⟨false, true, false⟩)
      (readPage_corrupt_eq_ok_iff.mpr (by decide +kernel))
    exact absurd hread (by decide)

end FileChunkStore

end AirHuim
