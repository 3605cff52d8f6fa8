import AirHuim.Library.Bytes

/-!
# The page header

A page file starts with 24 bytes: magic number, page id, length and checksum of
the stored payload, flags, and three zero bytes. Every header is read back from
its bytes.
-/

namespace AirHuim

open Library

/-- The flags of a page; other bits of the flag byte are never set. -/
structure PageFlags where
  compressed : Bool
  ulBody : Bool
  txChunk : Bool
  deriving DecidableEq, Repr

namespace PageFlags

def empty : PageFlags := ⟨false, false, false⟩

def bits (f : PageFlags) : UInt8 :=
  (if f.compressed then 1 else 0) + (if f.ulBody then 2 else 0) + (if f.txChunk then 4 else 0)

/-- `from_bits`: no unknown bit is accepted. -/
def fromBits (b : UInt8) : Option PageFlags :=
  if b < 8 then some ⟨b % 2 == 1, b / 2 % 2 == 1, b / 4 % 2 == 1⟩ else none

theorem fromBits_bits (f : PageFlags) : fromBits f.bits = some f := by
  obtain ⟨compressed, ulBody, txChunk⟩ := f
  cases compressed <;> cases ulBody <;> cases txChunk <;> decide

end PageFlags

def pageMagic : UInt32 := 0xA188114D

def pageHeaderSize : ℕ := 24

structure PageHeader where
  magic : UInt32
  pageId : UInt64
  payloadLen : UInt32
  payloadCrc32 : UInt32
  flags : PageFlags
  deriving DecidableEq, Repr

namespace PageHeader

def toBytes (h : PageHeader) : Bytes :=
  leBytes 4 h.magic.toNat ++ leBytes 8 h.pageId.toNat ++ leBytes 4 h.payloadLen.toNat ++
    leBytes 4 h.payloadCrc32.toNat ++ [h.flags.bits, 0, 0, 0]

/-- The header in 24 bytes; `none` is the error "invalid page flags". -/
def fromBytes (buf : Bytes) : Option PageHeader :=
  (PageFlags.fromBits (buf.getD 20 0)).map fun flags =>
    { magic := UInt32.ofNat (ofLeBytes (buf.take 4))
      pageId := UInt64.ofNat (ofLeBytes ((buf.drop 4).take 8))
      payloadLen := UInt32.ofNat (ofLeBytes ((buf.drop 12).take 4))
      payloadCrc32 := UInt32.ofNat (ofLeBytes ((buf.drop 16).take 4))
      flags }

@[simp] theorem length_toBytes (h : PageHeader) : h.toBytes.length = pageHeaderSize := by
  simp [toBytes, pageHeaderSize]

theorem ofLeBytes_uint32 (n : UInt32) : ofLeBytes (leBytes 4 n.toNat) = n.toNat :=
  ofLeBytes_leBytes_of_lt n.toNat_lt

theorem ofLeBytes_uint64 (n : UInt64) : ofLeBytes (leBytes 8 n.toNat) = n.toNat :=
  ofLeBytes_leBytes_of_lt n.toNat_lt

/-- The fields of a header, each at its offset. -/
theorem fromBytes_append {magic pageId payloadLen payloadCrc32 reserved : Bytes} (flags : UInt8)
    (hmagic : magic.length = 4) (hpageId : pageId.length = 8) (hlen : payloadLen.length = 4)
    (hcrc : payloadCrc32.length = 4) :
    fromBytes (magic ++ pageId ++ payloadLen ++ payloadCrc32 ++ flags :: reserved) =
      (PageFlags.fromBits flags).map fun flags =>
        { magic := UInt32.ofNat (ofLeBytes magic)
          pageId := UInt64.ofNat (ofLeBytes pageId)
          payloadLen := UInt32.ofNat (ofLeBytes payloadLen)
          payloadCrc32 := UInt32.ofNat (ofLeBytes payloadCrc32)
          flags } := by
  have h12 : (magic ++ pageId).length = 12 := by simp [hmagic, hpageId]
  have h16 : (magic ++ (pageId ++ payloadLen)).length = 16 := by simp [hmagic, hpageId, hlen]
  have h20 : (magic ++ pageId ++ payloadLen ++ payloadCrc32).length = 20 := by
    simp [hmagic, hpageId, hlen, hcrc]
  have hflags : (magic ++ pageId ++ payloadLen ++ payloadCrc32 ++ flags :: reserved).getD 20 0 =
      flags := by
    rw [List.getD_eq_getElem?_getD, List.getElem?_append_right h20.le, h20]
    rfl
  have hmagicField : (magic ++ (pageId ++ (payloadLen ++ (payloadCrc32 ++
      flags :: reserved)))).take 4 = magic := List.take_left' hmagic
  have hpageIdField := slice_field hmagic hpageId (payloadLen ++ (payloadCrc32 ++
    flags :: reserved))
  have hlenField := slice_field h12 hlen (payloadCrc32 ++ flags :: reserved)
  have hcrcField := slice_field h16 hcrc (flags :: reserved)
  simp only [List.append_assoc] at hlenField hcrcField
  rw [fromBytes, hflags]
  simp only [List.append_assoc, hmagicField, hpageIdField, hlenField, hcrcField]

theorem fromBytes_toBytes (h : PageHeader) : fromBytes h.toBytes = some h := by
  have hlength : ∀ w n, (leBytes w n).length = w := length_leBytes
  rw [toBytes, fromBytes_append _ (hlength _ _) (hlength _ _) (hlength _ _) (hlength _ _),
    PageFlags.fromBits_bits]
  simp only [ofLeBytes_uint32, ofLeBytes_uint64, Option.map_some, UInt32.ofNat_toNat,
    UInt64.ofNat_toNat]

end PageHeader

end AirHuim
