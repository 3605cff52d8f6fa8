import AirHuim.BufferPool.Session
import AirHuim.BufferPool.StoredPool
import AirHuim.Storage.FileChunkStore

/-!
# The pool over the file store

The file-per-page store acts as a map of pages, whatever files its directory held
at the start. So a session over the pool over the file store takes the course of
one over the map, and a pin shows the bytes last written to its page also when the
page has been compressed, written to its file and read back meanwhile.
-/

namespace AirHuim

open Library

/-- A decompressed payload fits the four bytes in front of it that hold its size. -/
def Codec.Sized (c : Codec) : Prop :=
  ∀ stored data : Bytes, stored.length < 2 ^ 32 → c.decompress stored = some data →
    data.length < 2 ^ 32

theorem Codec.sized_identity : Codec.identity.Sized := by
  intro stored data hstored hdata
  cases hdata
  exact hstored

namespace FileChunkStore

variable (c : Codec) (crc : Bytes → UInt32)

/-- The store behind the trait. Ids are `u64`: there is no page under a larger number. -/
def asTrait : StoreTrait FileChunkStore where
  readPage s id :=
    if id < 2 ^ 64 then
      match s.readPage c crc (UInt64.ofNat id) with
      | .ok (data, _) => (.ok data, s)
      | .error _ => (.error .store, s)
    else (.error .store, s)
  writePage s id data := (.ok (), s.writePage c crc (UInt64.ofNat id) data PageFlags.empty)

/-- The pages that can be read. -/
def shownPages (s : FileChunkStore) (id : PageId) : Option Bytes :=
  if id < 2 ^ 64 then
    match s.readPage c crc (UInt64.ofNat id) with
    | .ok (data, _) => some data
    | .error _ => none
  else none

/-- Ids and payloads that the store can hold. -/
def Fits (id : PageId) (data : Bytes) : Prop := id < 2 ^ 64 ∧ data.length < 2 ^ 32

variable {c crc} {s : FileChunkStore}

theorem uint64_ofNat_inj {m n : ℕ} (hm : m < 2 ^ 64) (hn : n < 2 ^ 64)
    (h : UInt64.ofNat m = UInt64.ofNat n) : m = n := by
  rw [← UInt64.toNat_ofNat_of_lt' hm, ← UInt64.toNat_ofNat_of_lt' hn, h]

theorem length_of_readPayload (hsized : c.Sized) {id : UInt64} {header : PageHeader} {rest : Bytes}
    {page : Bytes × PageFlags} (h : readPayload c crc id header rest = .ok page) :
    page.1.length < 2 ^ 32 := by
  have htake : (rest.take header.payloadLen.toNat).length < 2 ^ 32 :=
    (List.length_take_le _ _).trans_lt header.payloadLen.toNat_lt
  unfold readPayload at h
  dsimp only at h
  split_ifs at h
  · split at h
    · rename_i data hdata
      cases h
      exact hsized _ data htake hdata
    · cases h
  · cases h
    exact htake

theorem length_of_readPage (hsized : c.Sized) {id : UInt64} {page : Bytes × PageFlags}
    (h : s.readPage c crc id = .ok page) : page.1.length < 2 ^ 32 := by
  unfold readPage at h
  split at h
  · cases h
  · split_ifs at h
    split at h
    · cases h
    · exact length_of_readPayload hsized h

/-- The page just written. -/
theorem readPage_writePage (hc : c.Inverts) (id : UInt64) {data : Bytes}
    (hdata : data.length < 2 ^ 32) :
    (s.writePage c crc id data PageFlags.empty).readPage c crc id =
      .ok (readBack c s.compress (data, PageFlags.empty)) := by
  have hfile : (s.writePage c crc id data PageFlags.empty).files (pagePath id) =
      some (fileOf c crc s.compress id (data, PageFlags.empty)) := by
    simp [writePage, fileOf]
  exact readPage_of_file (s := s.writePage c crc id data PageFlags.empty) hc hdata rfl hfile

/-- Any other page. -/
theorem readPage_writePage_of_ne {id id' : UInt64} (h : id' ≠ id) (data : Bytes) :
    (s.writePage c crc id data PageFlags.empty).readPage c crc id' = s.readPage c crc id' := by
  have hpath : pagePath id' ≠ pagePath id := fun heq => h (pagePath_injective heq)
  simp [readPage, writePage, Function.update_of_ne hpath]

theorem shownPages_writePage (hc : c.Inverts) {id : PageId} {data : Bytes} (h : Fits id data) :
    shownPages c crc (s.writePage c crc (UInt64.ofNat id) data PageFlags.empty) =
      Function.update (shownPages c crc s) id (some data) := by
  funext k
  by_cases hk : k = id
  · subst hk
    rw [Function.update_self, shownPages, if_pos h.1, readPage_writePage hc _ h.2]
    rfl
  · rw [Function.update_of_ne hk, shownPages, shownPages]
    by_cases hlt : k < 2 ^ 64
    · rw [if_pos hlt, if_pos hlt,
        readPage_writePage_of_ne fun heq => hk (uint64_ofNat_inj hlt h.1 heq)]
    · rw [if_neg hlt, if_neg hlt]

/-- The store acts as the map of the pages that can be read. -/
theorem actsAsMap (hc : c.Inverts) (hsized : c.Sized) (crc : Bytes → UInt32) :
    (asTrait c crc).ActsAsMap (fun s pages => pages = shownPages c crc s) Fits where
  read s pages id h := by
    subst h
    unfold asTrait shownPages
    dsimp only
    by_cases hid : id < 2 ^ 64
    · rw [if_pos hid, if_pos hid]
      cases s.readPage c crc (UInt64.ofNat id) <;> exact ⟨rfl, rfl⟩
    · rw [if_neg hid, if_neg hid]
      exact ⟨rfl, rfl⟩
  write s pages id data h hfits := by
    subst h
    exact ⟨rfl, (shownPages_writePage hc hfits).symm⟩
  fits s pages id data h hpage := by
    subst h
    unfold shownPages at hpage
    split at hpage
    · rename_i hid
      split at hpage
      · rename_i page flags hread
        cases hpage
        exact ⟨hid, length_of_readPage hsized hread⟩
      · cases hpage
    · cases hpage

end FileChunkStore

end AirHuim
