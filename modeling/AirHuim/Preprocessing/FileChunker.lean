import AirHuim.BufferPool.FilePool
import AirHuim.Preprocessing.Chunker
import AirHuim.Preprocessing.TwuBound

/-!
# The chunker over the file store

The chunker writes its pages to the file-per-page store, compressed or not and
under a checksum. It takes the course of the chunker over a map of pages, whatever
files are there at the start. So a dataset text that is read, filtered and chunked
is on the disk as a table: the directory and the files give, for every tid, the
filtered transaction of that tid, and nothing for a tid that has none.
-/

namespace AirHuim

open Library

/-- A chunker and the directory of files that it writes to. The store among its
`fields` hands out ids and has no pages. -/
structure FileChunker where
  files : FileChunkStore
  fields : Chunker

namespace FileChunker

variable (codec : Codec) (crc : Bytes → UInt32)

def start (files : FileChunkStore) (counter : PageId) (pageSizeBytes : ℕ) : FileChunker :=
  ⟨files, .start ⟨counter, fun _ => none⟩ pageSizeBytes⟩

def new (files : FileChunkStore) (counter : PageId) (pageSizeBytes : ℕ) :
    Except Fault FileChunker :=
  (Chunker.new ⟨counter, fun _ => none⟩ pageSizeBytes).map fun fields => ⟨files, fields⟩

theorem new_eq (files : FileChunkStore) (counter : PageId) {pageSizeBytes : ℕ}
    (h : pageSizeBytes < 2 ^ 63) :
    new files counter pageSizeBytes = .ok (start files counter pageSizeBytes) := by
  rw [new, Chunker.new, if_pos h]
  rfl

def flushPage (c : FileChunker) : FileChunker :=
  if c.fields.txCountInPage = 0 then c
  else
    let buf := leBytes 4 c.fields.txCountInPage ++ c.fields.currentPageBuf.drop 4
    { files := c.files.writePage codec crc (UInt64.ofNat c.fields.currentPageId) buf txChunk
      fields :=
        { c.fields with
          store := { c.fields.store with counter := c.fields.store.counter + 1 }
          directory := c.fields.directory.add
            ⟨c.fields.currentPageStartTid, c.fields.currentPageEndTid, c.fields.currentPageId, 0⟩
          currentPageId := c.fields.store.counter
          currentPageBuf := leBytes 4 0
          txCountInPage := 0 } }

def addTransaction (tx : FilteredTransaction) (c : FileChunker) :
    Except Fault Unit × FileChunker :=
  let c :=
    if 0 < c.fields.txCountInPage ∧
        c.fields.pageSizeBytes < c.fields.currentPageBuf.length + (serializeTx tx).length then
      c.flushPage codec crc
    else c
  ((c.fields.append tx).1, { c with fields := (c.fields.append tx).2 })

def addAll : List FilteredTransaction → FileChunker → Except Fault Unit × FileChunker
  | [], c => (.ok (), c)
  | tx :: txs, c =>
    match c.addTransaction codec crc tx with
    | (.ok (), c) => addAll txs c
    | other => other

def finalize (c : FileChunker) : FileChunker := c.flushPage codec crc

end FileChunker

/-- A dataset text is read, filtered by the threshold and chunked, in a build with
overflow checks. -/
def ingest (codec : Codec) (crc : Bytes → UInt32) (text : Text) (minUtility : Utility)
    (pageSizeBytes : ℕ) (files : FileChunkStore) (counter : PageId) : Except Fault FileChunker := do
  let txs := okOnly (← (DbReader.new text).collect)
  let filter ← TwuFilter.computeChecked minUtility txs
  let c ← FileChunker.new files counter pageSizeBytes
  match c.addAll codec crc (filteredDb filter txs) with
  | (.ok (), c) => .ok (c.finalize codec crc)
  | (.error e, _) => .error e

/-- The transaction of this tid on the page that the directory names. -/
def lookupTx (codec : Codec) (crc : Bytes → UInt32) (files : FileChunkStore)
    (directory : PageDirectory) (tid : ℕ) : Option FilteredTransaction := do
  let entry ← directory.findPage tid
  match files.readPage codec crc (UInt64.ofNat entry.pageId) with
  | .ok (bytes, _) => (← readTxPage bytes).find? fun tx => tx.tid = tid
  | .error _ => none

/-! ## The files and the map of pages -/

namespace FileChunker

variable {codec : Codec} {crc : Bytes → UInt32} {before : FileChunkStore} {f : FileChunker}
  {c : Chunker}

/-- The files of some pages, over those that were there before. -/
def filesOver (codec : Codec) (crc : Bytes → UInt32) (before : FileChunkStore)
    (pages : PageId → Option StoredPage) (id : PageId) : Option Bytes :=
  ((pages id).map (FileChunkStore.fileOf codec crc before.compress (UInt64.ofNat id))).or
    (before.files (FileChunkStore.pagePath (UInt64.ofNat id)))

/-- The same fields, and the pages of the map in the files. -/
structure Mirrors (codec : Codec) (crc : Bytes → UInt32) (before : FileChunkStore)
    (f : FileChunker) (c : Chunker) : Prop where
  fields : f.fields = { c with store := ⟨c.store.counter, fun _ => none⟩ }
  compress : f.files.compress = before.compress
  files : ∀ id < 2 ^ 64, f.files.files (FileChunkStore.pagePath (UInt64.ofNat id)) =
    filesOver codec crc before c.store.pages id
  ahead : c.currentPageId < c.store.counter

theorem mirrors_start (codec : Codec) (crc : Bytes → UInt32) (before : FileChunkStore)
    (counter : PageId) (size : ℕ) :
    Mirrors codec crc before (start before counter size)
      (.start ⟨counter, fun _ => none⟩ size) where
  fields := rfl
  compress := rfl
  files _ _ := rfl
  ahead := Nat.lt_succ_self _

/-- A page is written to the files and to the map. -/
theorem Mirrors.flushPage (h : Mirrors codec crc before f c) (hid : c.currentPageId < 2 ^ 64) :
    ∃ c', c.flushPage .done = (.ok (), c') ∧
      Mirrors codec crc before (f.flushPage codec crc) c' ∧
        c'.store.counter ≤ c.store.counter + 1 := by
  have hfields := h.fields
  by_cases hzero : c.txCountInPage = 0
  · have hzero' : f.fields.txCountInPage = 0 := by rw [hfields, hzero]
    refine ⟨c, by rw [Chunker.flushPage, if_pos hzero], ?_, Nat.le_succ _⟩
    rwa [FileChunker.flushPage, if_pos hzero']
  · have hzero' : f.fields.txCountInPage ≠ 0 := by rwa [hfields]
    refine ⟨_, by rw [Chunker.flushPage, if_neg hzero], ?_, le_rfl⟩
    rw [FileChunker.flushPage, if_neg hzero']
    constructor
    case fields => rw [hfields]
    case compress => exact h.compress
    case ahead => exact Nat.lt_succ_self _
    case files =>
      intro id hlt
      rw [filesOver, hfields]
      simp only [FileChunkStore.writePage, h.compress]
      by_cases heq : id = c.currentPageId
      · subst heq
        rw [Function.update_self, Function.update_self]
        rfl
      · have hpath : FileChunkStore.pagePath (UInt64.ofNat id) ≠
            FileChunkStore.pagePath (UInt64.ofNat c.currentPageId) := fun hsame =>
          heq (FileChunkStore.uint64_ofNat_inj hlt hid (FileChunkStore.pagePath_injective hsame))
        rw [Function.update_of_ne hpath, Function.update_of_ne heq]
        exact h.files id hlt

theorem Mirrors.append (h : Mirrors codec crc before f c) (tx : FilteredTransaction) :
    (f.fields.append tx).1 = (c.append tx).1 ∧
      Mirrors codec crc before { f with fields := (f.fields.append tx).2 } (c.append tx).2 ∧
        (c.append tx).2.store = c.store := by
  have hfields := h.fields
  unfold Chunker.append
  rw [hfields]
  dsimp only
  split
  · exact ⟨rfl, ⟨rfl, h.compress, h.files, h.ahead⟩, rfl⟩
  · exact ⟨rfl, ⟨rfl, h.compress, h.files, h.ahead⟩, rfl⟩

theorem Mirrors.addTransaction (h : Mirrors codec crc before f c)
    (hid : c.currentPageId < 2 ^ 64) (tx : FilteredTransaction) :
    (f.addTransaction codec crc tx).1 = (c.addTransaction .done tx).1 ∧
      Mirrors codec crc before (f.addTransaction codec crc tx).2 (c.addTransaction .done tx).2 ∧
        (c.addTransaction .done tx).2.store.counter ≤ c.store.counter + 1 := by
  have hfields := h.fields
  have hcond : (0 < f.fields.txCountInPage ∧ f.fields.pageSizeBytes <
      f.fields.currentPageBuf.length + (serializeTx tx).length) ↔
      (0 < c.txCountInPage ∧ c.pageSizeBytes < c.currentPageBuf.length +
        (serializeTx tx).length) := by
    rw [hfields]
  unfold FileChunker.addTransaction Chunker.addTransaction
  by_cases hfull : 0 < c.txCountInPage ∧
      c.pageSizeBytes < c.currentPageBuf.length + (serializeTx tx).length
  · obtain ⟨c', hflush, hmirrors, hcounter⟩ := h.flushPage hid
    rw [if_pos (hcond.mpr hfull), if_pos hfull, hflush]
    obtain ⟨hanswer, hafter, hstore⟩ := hmirrors.append tx
    exact ⟨hanswer, hafter, hstore ▸ hcounter⟩
  · rw [if_neg (hcond.not.mpr hfull), if_neg hfull]
    obtain ⟨hanswer, hafter, hstore⟩ := h.append tx
    exact ⟨hanswer, hafter, hstore ▸ Nat.le_succ _⟩

theorem Mirrors.addAll {txs : List FilteredTransaction} (h : Mirrors codec crc before f c)
    (hroom : c.store.counter + txs.length ≤ 2 ^ 64) {c' : Chunker}
    (hrun : c.addAll (txs.map fun tx => (tx, [])) = (.ok (), c')) :
    ∃ f', f.addAll codec crc txs = (.ok (), f') ∧ Mirrors codec crc before f' c' ∧
      c'.store.counter ≤ c.store.counter + txs.length := by
  induction txs generalizing f c with
  | nil =>
    cases hrun
    exact ⟨f, rfl, h, le_rfl⟩
  | cons tx txs ih =>
    rw [List.length_cons] at hroom
    have hid : c.currentPageId < 2 ^ 64 := h.ahead.trans_le ((Nat.le_add_right _ _).trans hroom)
    obtain ⟨hanswer, hmirrors, hcounter⟩ := h.addTransaction hid tx
    rw [List.map_cons, Chunker.addAll, Chunker.addRetrying] at hrun
    rcases hstep : c.addTransaction .done tx with ⟨answer, d⟩
    rw [hstep] at hrun hanswer hmirrors hcounter
    cases answer with
    | error e => cases hrun
    | ok =>
      have hd : f.addTransaction codec crc tx = (.ok (), (f.addTransaction codec crc tx).2) :=
        Prod.ext hanswer rfl
      have hnext : d.store.counter + txs.length ≤ c.store.counter + (txs.length + 1) := by
        rw [Nat.add_comm txs.length, ← Nat.add_assoc]
        exact Nat.add_le_add_right hcounter _
      obtain ⟨f', hf', hfinal, hle⟩ := ih hmirrors (hnext.trans hroom) hrun
      refine ⟨f', ?_, hfinal, hle.trans hnext⟩
      rw [FileChunker.addAll, hd]
      exact hf'

end FileChunker

/-! ## The table on the disk -/

/-- The filtered transaction of this tid, if there is one. -/
def filteredTx (text : Text) (minUtility : Utility) (tid : ℕ) : Option FilteredTransaction :=
  let txs := numbered 0 (acceptedRows (sourceOf text))
  txs[tid]?.bind (TwuFilter.compute minUtility txs).apply

theorem filteredTx_eq_some {text : Text} {minUtility : Utility} {tid : ℕ}
    {tx : FilteredTransaction} :
    filteredTx text minUtility tid = some tx ↔
      tx ∈ filteredDb (TwuFilter.compute minUtility (numbered 0 (acceptedRows (sourceOf text))))
        (numbered 0 (acceptedRows (sourceOf text))) ∧ tx.tid = tid := by
  have htid : ∀ i (raw : RawTransaction),
    (numbered 0 (acceptedRows (sourceOf text)))[i]? = some raw →
      raw.tid = i := by
    intro i raw hraw
    rw [numbered_getElem?] at hraw
    obtain ⟨row, -, rfl⟩ := Option.map_eq_some_iff.mp hraw
    exact Nat.zero_add i
  constructor
  · intro h
    obtain ⟨raw, hraw, happly⟩ := Option.bind_eq_some_iff.mp h
    refine ⟨List.mem_filterMap.mpr ⟨raw, List.mem_of_getElem? hraw, happly⟩, ?_⟩
    rw [apply_tid happly, htid tid raw hraw]
  · rintro ⟨hmem, rfl⟩
    obtain ⟨raw, hraw, happly⟩ := List.mem_filterMap.mp hmem
    obtain ⟨i, hi⟩ := List.getElem?_of_mem hraw
    refine Option.bind_eq_some_iff.mpr ⟨raw, ?_, happly⟩
    rw [apply_tid happly, htid i raw hi]
    exact hi

/-- Of transactions with increasing tids, the search for a tid finds the one. -/
theorem find?_tid {txs : List FilteredTransaction}
    (h : txs.Pairwise fun tx tx' => tx.tid < tx'.tid) {tid : ℕ} {tx : FilteredTransaction} :
    (txs.find? fun tx => tx.tid = tid) = some tx ↔ tx ∈ txs ∧ tx.tid = tid := by
  constructor
  · intro hfind
    exact ⟨List.mem_of_find?_eq_some hfind, by simpa using List.find?_some hfind⟩
  · rintro ⟨hmem, rfl⟩
    induction txs with
    | nil => exact (List.not_mem_nil hmem).elim
    | cons first txs ih =>
      obtain ⟨hfirst, hrest⟩ := List.pairwise_cons.mp h
      rcases List.mem_cons.mp hmem with rfl | hmem
      · exact List.find?_cons_of_pos (by simp)
      · rw [List.find?_cons_of_neg (by simpa using (hfirst tx hmem).ne)]
        exact ih hrest hmem

/-- The directory and the files give the transactions that were chunked, by their tids. -/
theorem FileChunker.Mirrors.lookupTx_eq_some {codec : Codec} {crc : Bytes → UInt32}
    {before : FileChunkStore} {f : FileChunker} {c : Chunker} {store : ChunkerStore} {size : ℕ}
    {pages : List WrittenPage} (hc : codec.Inverts) (h : Mirrors codec crc before f c)
    (hholds : c.Holds store size pages []) (hid : c.currentPageId ≤ 2 ^ 64)
    (hread : ∀ p ∈ pages, readTxPage (txPage p.txs) = some p.txs)
    (hshort : ∀ p ∈ pages, (txPage p.txs).length < 2 ^ 32) {tid : ℕ} {tx : FilteredTransaction} :
    lookupTx codec crc f.files f.fields.directory tid = some tx ↔
      tx ∈ pages.flatMap WrittenPage.txs ∧ tx.tid = tid := by
  have hdirectory : f.fields.directory = c.directory := by rw [h.fields]
  have hpage : ∀ p ∈ pages, ∃ flags,
      f.files.readPage codec crc (UInt64.ofNat p.id) = .ok (txPage p.txs, flags) := by
    intro p hp
    have hfile := h.files p.id ((hholds.below p hp).trans_le hid)
    rw [FileChunker.filesOver, (hholds.stored p hp).1, Option.map_some, Option.some_or,
      ← h.compress] at hfile
    exact ⟨_, FileChunkStore.readPage_of_file hc (hshort p hp) rfl hfile⟩
  have hincreasing : ∀ p ∈ pages, p.txs.Pairwise fun tx tx' => tx.tid < tx'.tid :=
    (List.pairwise_flatMap.mp (List.pairwise_append.mp hholds.increasing).1).1
  rw [lookupTx, hdirectory]
  constructor
  · intro hlookup
    obtain ⟨entry, hentry, hfind⟩ := Option.bind_eq_some_iff.mp hlookup
    obtain ⟨start, -, hstart, -⟩ := PageDirectory.exists_of_findPage hentry
    obtain ⟨p, hp, -, rfl⟩ := (hholds.directory start entry).mp hstart
    obtain ⟨flags, hbytes⟩ := hpage p hp
    have hid : p.entry.pageId = p.id := rfl
    simp only [hid, hbytes, hread p hp, Option.bind_eq_bind, Option.bind_some] at hfind
    obtain ⟨hmem, htid⟩ := (find?_tid (hincreasing p hp)).mp hfind
    exact ⟨List.mem_flatMap.mpr ⟨p, hp, hmem⟩, htid⟩
  · rintro ⟨hmem, rfl⟩
    obtain ⟨p, hp, htx⟩ := List.mem_flatMap.mp hmem
    obtain ⟨flags, hbytes⟩ := hpage p hp
    have hid : p.entry.pageId = p.id := rfl
    simp only [hholds.findPage hp htx, hid, hbytes, hread p hp, Option.bind_eq_bind,
      Option.bind_some]
    exact (find?_tid (hincreasing p hp)).mpr ⟨htx, rfl⟩

/-- A text with fewer transactions than there are tids and ids, whose weights are values
of `i64` at every moment, and pages whose size fits its field. -/
structure Ingestible (text : Text) (pageSizeBytes : ℕ) (counter : PageId) : Prop where
  rows : (acceptedRows (sourceOf text)).length < 2 ^ 32
  sums : TwuFilter.SumsFit (numbered 0 (acceptedRows (sourceOf text)))
  items : ∀ row ∈ acceptedRows (sourceOf text), 20 + 16 * row.items.length < 2 ^ 32
  pageSize : pageSizeBytes < 2 ^ 32
  ids : counter + (acceptedRows (sourceOf text)).length < 2 ^ 64

/-- Every tid is answered with its filtered transaction, and the files that the
directory does not name are as they were. -/
structure Ingested (codec : Codec) (crc : Bytes → UInt32) (text : Text) (minUtility : Utility)
    (before : FileChunkStore) (after : FileChunkStore) (directory : PageDirectory) : Prop where
  lookup : ∀ tid, lookupTx codec crc after directory tid = filteredTx text minUtility tid
  others : ∀ id < 2 ^ 64, (∀ start e, directory.entries.lookup start = some e → e.pageId ≠ id) →
    after.files (FileChunkStore.pagePath (UInt64.ofNat id)) =
      before.files (FileChunkStore.pagePath (UInt64.ofNat id))

/-- A page of the chunker is not longer than the page size or one transaction. -/
theorem length_txPage_lt {txs : List FilteredTransaction} {size : ℕ}
    (hpage : (txPage txs).length ≤ size ∨ txs.length = 1) (hsize : size < 2 ^ 32)
    (hitems : ∀ tx ∈ txs, 20 + 16 * tx.items.length < 2 ^ 32) : (txPage txs).length < 2 ^ 32 := by
  rcases hpage with hle | hone
  · exact hle.trans_lt hsize
  · obtain ⟨tx, rfl⟩ := List.length_eq_one_iff.mp hone
    have htx := hitems tx (List.mem_singleton_self tx)
    simp only [txPage, List.flatMap_cons, List.flatMap_nil, List.append_nil, List.length_append,
      length_leBytes, length_serializeTx]
    omega

theorem fits_filteredDb {rows : List SpmfRow} (hrows : rows.length < 2 ^ 32)
    (hfits : ∀ row ∈ rows, ∀ e ∈ row.items, e.Fits) {r : TwuFilterResult}
    {tx : FilteredTransaction} (h : tx ∈ filteredDb r (numbered 0 rows)) :
    tx.Fits ∧ ∃ row ∈ rows, tx.items.length ≤ row.items.length := by
  obtain ⟨raw, hraw, happly⟩ := List.mem_filterMap.mp h
  obtain ⟨-, htid, row, hrow, hitems, htotal⟩ := mem_numbered hraw
  obtain ⟨htu, hmem, hlength⟩ := apply_items happly
  rw [hitems] at hmem hlength
  refine ⟨⟨?_, ?_, fun e he => hfits row hrow e (hmem e he)⟩, row, hrow, hlength⟩
  · rw [apply_tid happly]
    omega
  · rw [htu, htotal]
    exact row.fits

/-- The chunker over the files writes what the chunker over a map of pages does. -/
theorem FileChunker.exists_pages (codec : Codec) (crc : Bytes → UInt32) (before : FileChunkStore)
    (counter : PageId) (size : ℕ) {txs : List FilteredTransaction}
    (htids : txs.Pairwise fun tx tx' => tx.tid < tx'.tid) (hcount : txs.length < 2 ^ 32)
    (hids : counter + 1 + txs.length ≤ 2 ^ 64) :
    ∃ f c pages, (start before counter size).addAll codec crc txs = (.ok (), f) ∧
      Mirrors codec crc before (f.finalize codec crc) c ∧
      c.Holds ⟨counter, fun _ => none⟩ size pages [] ∧ pages.flatMap WrittenPage.txs = txs ∧
      c.currentPageId ≤ 2 ^ 64 := by
  have hcalls : (txs.map fun tx => (tx, ([] : List (Option StoredPage)))).map Prod.fst = txs := by
    rw [List.map_map]
    exact List.map_id' txs
  obtain ⟨c, pages, current, hadded, hholds, hall⟩ :=
    (Chunker.holds_start ⟨counter, fun _ => none⟩ size).addAll (txs.map fun tx => (tx, []))
      (by simpa [hcalls] using htids) (by simpa using hcount)
  obtain ⟨f, hf, hmirrors, hle⟩ := (mirrors_start codec crc before counter size).addAll hids hadded
  obtain ⟨c', hflush, hmirrors', hlast⟩ := hmirrors.flushPage
    (hmirrors.ahead.trans_le (hle.trans hids))
  obtain ⟨c'', pages', hfinal, hholds', hcontent⟩ := hholds.finalize
  obtain rfl : c' = c'' := by
    rw [Chunker.finalize, hflush] at hfinal
    exact (Prod.mk.inj hfinal).2
  refine ⟨f, c', pages', hf, hmirrors', hholds', ?_, ?_⟩
  · rw [hcontent, hall, hcalls]
    rfl
  · have hnext := hmirrors'.ahead.trans_le (hlast.trans (Nat.succ_le_succ (hle.trans hids)))
    exact Nat.le_of_lt_succ hnext

/-- A file whose id the directory does not name. -/
theorem FileChunker.Mirrors.files_of_notMem {codec : Codec} {crc : Bytes → UInt32}
    {before : FileChunkStore} {f : FileChunker} {c : Chunker} {counter : PageId} {size : ℕ}
    {pages : List WrittenPage} (h : Mirrors codec crc before f c)
    (hholds : c.Holds ⟨counter, fun _ => none⟩ size pages []) {id : PageId} (hid : id < 2 ^ 64)
    (hother : ∀ start e, f.fields.directory.entries.lookup start = some e → e.pageId ≠ id) :
    f.files.files (FileChunkStore.pagePath (UInt64.ofNat id)) =
      before.files (FileChunkStore.pagePath (UInt64.ofNat id)) := by
  have hdirectory : f.fields.directory = c.directory := by rw [h.fields]
  rw [hdirectory] at hother
  have hnone : c.store.pages id = none := by
    refine hholds.others id ?_ fun _ => rfl
    rintro hmem
    obtain ⟨p, hp, rfl⟩ := List.mem_map.mp hmem
    exact hother p.startTid p.entry ((hholds.directory _ _).mpr ⟨p, hp, rfl, rfl⟩) rfl
  rw [h.files id hid, filesOver, hnone]
  rfl

/-- A dataset text that is ingested is on the disk as the table of its filtered
transactions, whatever files were there before. -/
theorem ingest_table {codec : Codec} (hc : codec.Inverts) (crc : Bytes → UInt32) {text : Text}
    (minUtility : Utility) {pageSizeBytes : ℕ} (before : FileChunkStore) {counter : PageId}
    (h : Ingestible text pageSizeBytes counter) :
    ∃ c, ingest codec crc text minUtility pageSizeBytes before counter = .ok c ∧
      Ingested codec crc text minUtility before c.files c.fields.directory := by
  have hread : (DbReader.new text).collect = .ok (dbReader 0 (sourceOf text)) := by
    rw [collect_new, readDb_eq, if_pos h.rows]
  set rows := acceptedRows (sourceOf text) with hrows
  set filter := TwuFilter.compute minUtility (numbered 0 rows)
  set txs := filteredDb filter (numbered 0 rows) with htxs
  have hfits : ∀ tx ∈ txs, tx.Fits ∧ ∃ row ∈ rows, tx.items.length ≤ row.items.length :=
    fun tx htx => fits_filteredDb h.rows (fun row hrow => fits_of_mem_acceptedRows hrow) htx
  have hitems : ∀ tx ∈ txs, 20 + 16 * tx.items.length < 2 ^ 32 := by
    intro tx htx
    obtain ⟨row, hrow, hle⟩ := (hfits tx htx).2
    have hlt := h.items row hrow
    omega
  have hlength : txs.length ≤ rows.length :=
    (List.length_filterMap_le _ _).trans (length_numbered 0 rows).le
  have htids : txs.Pairwise fun tx tx' => tx.tid < tx'.tid := by
    refine (pairwise_numbered 0 rows).filterMap filter.apply ?_
    intro raw raw' hlt tx happly tx' happly'
    rwa [apply_tid happly, apply_tid happly']
  have hids : counter + 1 + txs.length ≤ 2 ^ 64 := by
    rw [Nat.add_right_comm]
    exact (Nat.add_le_add_left hlength counter).trans_lt h.ids
  obtain ⟨f, c, pages, hadded, hmirrors, hholds, hpages, hid⟩ :=
    FileChunker.exists_pages codec crc before counter pageSizeBytes htids
      (hlength.trans_lt h.rows) hids
  have hmem : ∀ p ∈ pages, ∀ tx ∈ p.txs, tx ∈ txs := fun p hp tx htx =>
    hpages ▸ List.mem_flatMap.mpr ⟨p, hp, htx⟩
  have hshort : ∀ p ∈ pages, (txPage p.txs).length < 2 ^ 32 := fun p hp =>
    length_txPage_lt (hholds.stored p hp).2 h.pageSize fun tx htx => hitems tx (hmem p hp tx htx)
  have hback : ∀ p ∈ pages, readTxPage (txPage p.txs) = some p.txs := by
    intro p hp
    refine readTxPage_txPage (fun tx htx => (hfits tx (hmem p hp tx htx)).1) (fun tx htx => ?_) ?_
    · have hlt := hitems tx (hmem p hp tx htx)
      omega
    · have hsublist : p.txs.length ≤ txs.length := by
        rw [← hpages, List.length_flatMap]
        exact List.single_le_sum (fun _ _ => Nat.zero_le _) _ (List.mem_map_of_mem hp)
      exact hsublist.trans_lt (hlength.trans_lt h.rows)
  refine ⟨f.finalize codec crc, ?_, fun tid => ?_, fun id hlt hother => ?_⟩
  · rw [ingest, hread]
    have hcompute : TwuFilter.computeChecked minUtility (numbered 0 rows) = .ok filter := by
      rw [TwuFilter.computeChecked_eq, if_pos h.sums]
    have hsize : pageSizeBytes < 2 ^ 63 := h.pageSize.trans (by decide)
    simp only [bind, Except.bind, okOnly_dbReader, ← hrows, hcompute, hadded,
      FileChunker.new_eq before counter hsize, ← htxs]
  · refine Option.ext fun tx => ?_
    rw [hmirrors.lookupTx_eq_some hc hholds hid hback hshort, filteredTx_eq_some, hpages]
  · exact hmirrors.files_of_notMem hholds hlt hother

/-- Two transactions and a rejected line, with a page for each transaction. -/
theorem ingest_table_mock :
    ∃ c, ingest .identity FileChunkStore.crc32
        "1 2:40:20 20\n# none\n1:7\n1 3:60:30 30\n".toList 50 32 (.new true) 1 = .ok c ∧
      Ingested .identity FileChunkStore.crc32
        "1 2:40:20 20\n# none\n1:7\n1 3:60:30 30\n".toList 50 (.new true) c.files
        c.fields.directory :=
  ingest_table (fun _ _ => rfl) FileChunkStore.crc32 50 (.new true)
    ⟨by decide, by decide, by decide, by decide, by decide⟩

end AirHuim
