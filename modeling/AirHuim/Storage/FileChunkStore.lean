import AirHuim.Storage.PageLayout
import AirHuim.Library.Trace

/-!
# The file-per-page store

Every page is a file, found by its id below a directory for the id's shard, and
holds a header and the payload, compressed or not. The file system is a map from
paths to bytes; checksum and compression are parameters.
-/

namespace AirHuim

open Library

/-- The compression functions; `decompress` may fail. -/
structure Codec where
  compress : Bytes → Bytes
  decompress : Bytes → Option Bytes

/-- Decompression inverts compression, for payloads whose size fits its prefix. -/
def Codec.Inverts (c : Codec) : Prop :=
  ∀ data : Bytes, data.length < 2 ^ 32 → c.decompress (c.compress data) = some data

/-- The functions of a build without the `compress` feature. -/
def Codec.identity : Codec := ⟨fun data => data, fun data => some data⟩

inductive ReadError
  | notFound
  | unexpectedEof
  /-- "invalid page flags" -/
  | invalidFlags
  /-- "bad page magic" -/
  | badMagic
  /-- "page_id mismatch" -/
  | pageIdMismatch
  /-- "CRC mismatch" -/
  | crcMismatch
  | decompress
  deriving DecidableEq, Repr

/-- The components of a path below the store's root. -/
abbrev StorePath := List String

structure FileChunkStore where
  compress : Bool
  files : StorePath → Option Bytes

namespace FileChunkStore

variable (c : Codec) (crc : Bytes → UInt32)

def new (compress : Bool) : FileChunkStore := ⟨compress, fun _ => none⟩

def pagePath (id : UInt64) : StorePath :=
  [toString (id >>> 16).toNat, toString id.toNat ++ ".chunk"]

/-- Whether a payload is stored in its compressed form: with compression on, if
that is shorter than 85 percent. -/
def storesCompressed (compress : Bool) (payload : Bytes) : Bool :=
  compress && decide ((c.compress payload).length < payload.length * 85 / 100)

/-- The stored form of a payload and the flags it is stored with. -/
def finalForm (compress : Bool) (payload : Bytes) (flags : PageFlags) : Bytes × PageFlags :=
  if compress then
    let compressed := c.compress payload
    if compressed.length < payload.length * 85 / 100 then
      (compressed, { flags with compressed := true })
    else (payload, flags)
  else (payload, flags)

def headerOf (id : UInt64) (final : Bytes × PageFlags) : PageHeader where
  magic := pageMagic
  pageId := id
  payloadLen := UInt32.ofNat final.1.length
  payloadCrc32 := crc final.1
  flags := final.2

def writePage (s : FileChunkStore) (id : UInt64) (payload : Bytes) (flags : PageFlags) :
    FileChunkStore :=
  let final := finalForm c s.compress payload flags
  { s with
    files := Function.update s.files (pagePath id)
      (some ((headerOf crc id final).toBytes ++ final.1)) }

/-- The checks after the header, on the bytes that follow it. -/
def readPayload (id : UInt64) (header : PageHeader) (rest : Bytes) :
    Except ReadError (Bytes × PageFlags) :=
  let payload := rest.take header.payloadLen.toNat
  if header.magic ≠ pageMagic then .error .badMagic
  else if header.pageId ≠ id then .error .pageIdMismatch
  else if payload.length < header.payloadLen.toNat then .error .unexpectedEof
  else if crc payload ≠ header.payloadCrc32 then .error .crcMismatch
  else if header.flags.compressed then
    match c.decompress payload with
    | some data => .ok (data, header.flags)
    | none => .error .decompress
  else .ok (payload, header.flags)

def readPage (s : FileChunkStore) (id : UInt64) : Except ReadError (Bytes × PageFlags) :=
  match s.files (pagePath id) with
  | none => .error .notFound
  | some file =>
    if file.length < pageHeaderSize then .error .unexpectedEof
    else
      match PageHeader.fromBytes (file.take pageHeaderSize) with
      | none => .error .invalidFlags
      | some header => readPayload c crc id header (file.drop pageHeaderSize)

def deletePage (s : FileChunkStore) (id : UInt64) : FileChunkStore :=
  if (s.files (pagePath id)).isSome then
    { s with files := Function.update s.files (pagePath id) none }
  else s

inductive StoreOp
  | write (id : UInt64) (payload : Bytes) (flags : PageFlags)
  | delete (id : UInt64)
  | read (id : UInt64)

/-- Payloads shorter than 2^32 bytes, and flags that do not say "compressed". -/
def StoreOp.Legal : StoreOp → Prop
  | .write _ payload flags => payload.length < 2 ^ 32 ∧ flags.compressed = false
  | _ => True

def step (s : FileChunkStore) : StoreOp → FileChunkStore
  | .write id payload flags => s.writePage c crc id payload flags
  | .delete id => s.deletePage id
  | .read _ => s

/-- The effect of one call on the last write to a page. -/
def lastStep (id : UInt64) (last : Option (Bytes × PageFlags)) : StoreOp →
    Option (Bytes × PageFlags)
  | .write id' payload flags => if id' = id then some (payload, flags) else last
  | .delete id' => if id' = id then none else last
  | .read _ => last

/-- The last write to a page that no delete of it follows. -/
def lastWrite (id : UInt64) (ops : List StoreOp) : Option (Bytes × PageFlags) :=
  ops.foldl (lastStep id) none

theorem pagePath_injective {id id' : UInt64} (h : pagePath id = pagePath id') : id = id' := by
  simp only [pagePath, List.cons.injEq, and_true] at h
  have hname : toString id.toNat = toString id'.toNat := String.append_left_inj _ |>.mp h.2
  have hdigits : Nat.toDigits 10 id.toNat = Nat.toDigits 10 id'.toNat := by
    rw [← Nat.toList_repr, ← Nat.toList_repr]
    exact congrArg String.toList hname
  apply UInt64.toNat_inj.mp
  rw [← Nat.ofDigitChars_ten_toDigits (n := id.toNat), hdigits, Nat.ofDigitChars_ten_toDigits]

variable {c crc} {s : FileChunkStore} {id : UInt64}

/-- The stored form is the payload, or the compressed payload under a flag. -/
theorem finalForm_eq (compress : Bool) (payload : Bytes) (flags : PageFlags) :
    finalForm c compress payload flags =
      if storesCompressed c compress payload then
        (c.compress payload, { flags with compressed := true })
      else (payload, flags) := by
  cases compress with
  | false => simp [finalForm, storesCompressed]
  | true => simp [finalForm, storesCompressed]

theorem length_finalForm {compress : Bool} {payload : Bytes} (h : payload.length < 2 ^ 32)
    (flags : PageFlags) : (finalForm c compress payload flags).1.length < 2 ^ 32 := by
  rw [finalForm_eq]
  split
  · rename_i hstores
    have hshorter : (c.compress payload).length < payload.length * 85 / 100 := by
      simp only [storesCompressed, Bool.and_eq_true, decide_eq_true_eq] at hstores
      exact hstores.2
    dsimp only
    omega
  · exact h

/-- The file of a page that was written with this payload and these flags. -/
def fileOf (c : Codec) (crc : Bytes → UInt32) (compress : Bool) (id : UInt64)
    (written : Bytes × PageFlags) : Bytes :=
  let final := finalForm c compress written.1 written.2
  (headerOf crc id final).toBytes ++ final.1

/-- What a reader of such a page gets. -/
def readBack (c : Codec) (compress : Bool) (written : Bytes × PageFlags) : Bytes × PageFlags :=
  (written.1, { written.2 with compressed := storesCompressed c compress written.1 })

/-- The stored payload decodes to what was written, under the flags of the header. -/
theorem readPayload_finalForm (hc : c.Inverts) {compress : Bool} {payload : Bytes}
    {flags : PageFlags} (hlen : payload.length < 2 ^ 32) (hflags : flags.compressed = false) :
    readPayload c crc id (headerOf crc id (finalForm c compress payload flags))
        (finalForm c compress payload flags).1 = .ok (readBack c compress (payload, flags)) := by
  have hpayloadLen : (headerOf crc id (finalForm c compress payload flags)).payloadLen.toNat =
      (finalForm c compress payload flags).1.length :=
    UInt32.toNat_ofNat_of_lt' (length_finalForm hlen flags)
  unfold readPayload
  rw [hpayloadLen, List.take_length]
  have hchecks : (headerOf crc id (finalForm c compress payload flags)).magic = pageMagic ∧
      (headerOf crc id (finalForm c compress payload flags)).pageId = id ∧
      (headerOf crc id (finalForm c compress payload flags)).payloadCrc32 =
        crc (finalForm c compress payload flags).1 := ⟨rfl, rfl, rfl⟩
  have hheader : (headerOf crc id (finalForm c compress payload flags)).flags =
      (finalForm c compress payload flags).2 := rfl
  simp only [hchecks, hheader, ne_eq, not_true_eq_false, if_false, lt_irrefl]
  rw [finalForm_eq]
  cases hstores : storesCompressed c compress payload with
  | true => simp [hc payload hlen, readBack, hstores]
  | false =>
    obtain ⟨compressed, ulBody, txChunk⟩ := flags
    cases hflags
    simp [readBack, hstores]

theorem readPage_of_file (hc : c.Inverts) {written : Bytes × PageFlags}
    (hlen : written.1.length < 2 ^ 32) (hflags : written.2.compressed = false)
    (hfile : s.files (pagePath id) = some (fileOf c crc s.compress id written)) :
    s.readPage c crc id = .ok (readBack c s.compress written) := by
  obtain ⟨payload, flags⟩ := written
  have hsize : ¬ (fileOf c crc s.compress id (payload, flags)).length < pageHeaderSize := by
    simp [fileOf]
  have hheader : (fileOf c crc s.compress id (payload, flags)).take pageHeaderSize =
      (headerOf crc id (finalForm c s.compress payload flags)).toBytes :=
    List.take_left' (PageHeader.length_toBytes _)
  have hrest : (fileOf c crc s.compress id (payload, flags)).drop pageHeaderSize =
      (finalForm c s.compress payload flags).1 := List.drop_left' (PageHeader.length_toBytes _)
  simp only [readPage, hfile, if_neg hsize, hheader, hrest, PageHeader.fromBytes_toBytes]
  exact readPayload_finalForm hc hlen hflags

/-! ## Runs -/

/-- The files are those of the last writes. -/
def Holds (c : Codec) (crc : Bytes → UInt32) (s : FileChunkStore)
    (last : UInt64 → Option (Bytes × PageFlags)) : Prop :=
  ∀ id, s.files (pagePath id) = (last id).map (fileOf c crc s.compress id)

theorem Holds.step {last : UInt64 → Option (Bytes × PageFlags)} (h : Holds c crc s last)
    (op : StoreOp) : Holds c crc (s.step c crc op) fun id => lastStep id (last id) op := by
  intro id
  cases op with
  | read id' => exact h id
  | write id' payload flags =>
    by_cases hid : id' = id
    · subst hid
      simp [FileChunkStore.step, writePage, lastStep, fileOf]
    · have hpath : pagePath id ≠ pagePath id' := fun heq => hid (pagePath_injective heq).symm
      simp only [FileChunkStore.step, writePage, lastStep, if_neg hid,
        Function.update_of_ne hpath]
      exact h id
  | delete id' =>
    by_cases hid : id' = id
    · subst hid
      cases hfile : s.files (pagePath id') <;>
        simp [FileChunkStore.step, deletePage, lastStep, hfile]
    · have hpath : pagePath id ≠ pagePath id' := fun heq => hid (pagePath_injective heq).symm
      simp only [FileChunkStore.step, deletePage, lastStep, if_neg hid]
      split
      · simp only [Function.update_of_ne hpath]
        exact h id
      · exact h id

@[simp] theorem compress_step (s : FileChunkStore) (op : StoreOp) :
    (s.step c crc op).compress = s.compress := by
  cases op with
  | write id payload flags => rfl
  | read id => rfl
  | delete id =>
    simp only [FileChunkStore.step, deletePage]
    split <;> rfl

theorem Holds.run {last : UInt64 → Option (Bytes × PageFlags)} (h : Holds c crc s last)
    (ops : List StoreOp) :
    Holds c crc (Library.run (FileChunkStore.step c crc) s ops)
        (fun id => ops.foldl (lastStep id) (last id)) ∧
      (Library.run (FileChunkStore.step c crc) s ops).compress = s.compress := by
  induction ops generalizing s last with
  | nil => exact ⟨h, rfl⟩
  | cons op ops ih =>
    obtain ⟨hholds, hcompress⟩ := ih (h.step op)
    exact ⟨hholds, hcompress.trans (compress_step s op)⟩

/-- What was last written was written by one of the calls. -/
theorem legal_lastWrite {ops : List StoreOp} (hlegal : ∀ op ∈ ops, op.Legal)
    (last : Option (Bytes × PageFlags))
    (hlast : ∀ written, last = some written →
      written.1.length < 2 ^ 32 ∧ written.2.compressed = false) :
    ∀ written, ops.foldl (lastStep id) last = some written →
      written.1.length < 2 ^ 32 ∧ written.2.compressed = false := by
  induction ops generalizing last with
  | nil => exact hlast
  | cons op ops ih =>
    apply ih fun op' hop' => hlegal op' (List.mem_cons_of_mem op hop')
    intro written hwritten
    have hop := hlegal op List.mem_cons_self
    cases op with
    | read id' => exact hlast written hwritten
    | write id' payload flags =>
      simp only [lastStep] at hwritten
      split at hwritten
      · cases hwritten
        exact hop
      · exact hlast written hwritten
    | delete id' =>
      simp only [lastStep] at hwritten
      split at hwritten
      · cases hwritten
      · exact hlast written hwritten

/-- After any calls, a page reads as it was last written, and not at all if it
was never written or deleted since. -/
theorem readPage_run (hc : c.Inverts) (crc : Bytes → UInt32) (compress : Bool)
    (ops : List StoreOp) (hlegal : ∀ op ∈ ops, op.Legal) (id : UInt64) :
    (run (step c crc) (new compress) ops).readPage c crc id =
      match lastWrite id ops with
      | some written => .ok (readBack c compress written)
      | none => .error .notFound := by
  have hnew : Holds c crc (new compress) fun _ => none := fun _ => rfl
  obtain ⟨hholds, hcompress⟩ := Holds.run hnew ops
  have hfile : _ = (lastWrite id ops).map _ := hholds id
  cases hlast : lastWrite id ops with
  | none =>
    rw [hlast] at hfile
    simp only [readPage, hfile, Option.map_none]
  | some written =>
    have hwritten := legal_lastWrite hlegal none (fun _ h => by cases h) written hlast
    rw [hlast, Option.map_some] at hfile
    rw [readPage_of_file hc hwritten.1 hwritten.2 hfile, hcompress]
    rfl

/-- One step of the bitwise CRC-32 with the reflected polynomial. -/
def crcBit (r : UInt32) : UInt32 := if r % 2 = 1 then (r >>> 1) ^^^ 0xEDB88320 else r >>> 1

/-- CRC-32 as the store's checksum library computes it. -/
def crc32 (data : Bytes) : UInt32 :=
  data.foldl (fun r b => crcBit^[8] (r ^^^ b.toUInt32)) 0xFFFFFFFF ^^^ 0xFFFFFFFF

example : crc32 [49, 50, 51, 52, 53, 54, 55, 56, 57] = 0xCBF43926 := by decide +kernel

/-- Two pages, one rewritten, the other deleted. -/
theorem readPage_run_identity :
    (run (step Codec.identity crc32) (new true)
        [.write 1 [7, 8, 9] PageFlags.empty, .write 65537 [1] ⟨false, true, false⟩, .read 1,
          .write 1 [] ⟨false, false, true⟩, .delete 65537]).readPage Codec.identity crc32 1 =
      .ok (readBack Codec.identity true ([], ⟨false, false, true⟩)) :=
  readPage_run (fun _ _ => rfl) crc32 true _ (by simp [StoreOp.Legal, PageFlags.empty]) 1

end FileChunkStore

end AirHuim
