import AirHuim.Preprocessing.TxPage
import AirHuim.Storage.PageLayout
import AirHuim.Library.Table

/-!
# The chunker

Filtered transactions are collected into pages of a given size. A full page is
written under an id of its own, with an entry in the directory of its first and
last tid. A write that fails leaves whatever it leaves under the current id and
the chunker as it was, so that the call can be repeated.
-/

namespace AirHuim

open Library

structure PageDirectoryEntry where
  startTid : ℕ
  endTid : ℕ
  pageId : PageId
  byteOffset : ℕ
  deriving DecidableEq, Repr

/-- The entries under their first tid. -/
structure PageDirectory where
  entries : Table ℕ PageDirectoryEntry

namespace PageDirectory

def empty : PageDirectory := ⟨∅⟩

def add (d : PageDirectory) (entry : PageDirectoryEntry) : PageDirectory :=
  ⟨d.entries.insert entry.startTid entry⟩

/-- The entry with the largest first tid up to `tid`, if its range reaches `tid`. -/
def findPage (d : PageDirectory) (tid : ℕ) : Option PageDirectoryEntry :=
  ((d.entries.keys.filter (· ≤ tid)).max?.bind d.entries.lookup).filter fun e => tid ≤ e.endTid

theorem findPage_eq_some {d : PageDirectory} {tid : ℕ} {e : PageDirectoryEntry}
    (hentry : d.entries.lookup e.startTid = some e) (hlo : e.startTid ≤ tid) (hhi : tid ≤ e.endTid)
    (hlargest : ∀ start, (d.entries.lookup start).isSome → start ≤ tid → start ≤ e.startTid) :
    d.findPage tid = some e := by
  have hkey : ∀ start, start ∈ d.entries.keys ↔ (d.entries.lookup start).isSome :=
    fun start => AList.lookup_isSome.symm
  have hmax : (d.entries.keys.filter (· ≤ tid)).max? = some e.startTid := by
    rw [List.max?_eq_some_iff]
    constructor
    · simp [hkey, hentry, hlo]
    · intro start hstart
      simp only [List.mem_filter, hkey, decide_eq_true_eq] at hstart
      exact hlargest start hstart.1 hstart.2
  simp [findPage, hmax, hentry, hhi]

theorem exists_of_findPage {d : PageDirectory} {tid : ℕ} {e : PageDirectoryEntry}
    (h : d.findPage tid = some e) :
    ∃ start ≤ tid, d.entries.lookup start = some e ∧ tid ≤ e.endTid := by
  obtain ⟨hbind, hhi⟩ := Option.filter_eq_some_iff.mp h
  obtain ⟨start, hmax, hentry⟩ := Option.bind_eq_some_iff.mp hbind
  have hmem := List.max?_mem hmax
  simp only [List.mem_filter, decide_eq_true_eq] at hmem
  exact ⟨start, hmem.2, hentry, by simpa using hhi⟩

end PageDirectory

/-- What a store holds under an id. -/
abbrev StoredPage := Bytes × PageFlags

/-- The store as the chunker uses it: its pages and the next id it hands out. -/
structure ChunkerStore where
  counter : PageId
  pages : PageId → Option StoredPage

/-- How a write ends: a failure leaves anything, or nothing, under the id. -/
inductive WriteOutcome
  | done
  | failed (left : Option StoredPage)

def txChunk : PageFlags := ⟨false, false, true⟩

structure Chunker where
  store : ChunkerStore
  pageSizeBytes : ℕ
  currentPageBuf : Bytes
  currentPageId : PageId
  currentPageStartTid : ℕ
  currentPageEndTid : ℕ
  txCountInPage : ℕ
  directory : PageDirectory

namespace Chunker

/-- A chunker that has taken an id for its first page. -/
def start (store : ChunkerStore) (pageSizeBytes : ℕ) : Chunker where
  store := { store with counter := store.counter + 1 }
  pageSizeBytes := pageSizeBytes
  currentPageBuf := leBytes 4 0
  currentPageId := store.counter
  currentPageStartTid := 0
  currentPageEndTid := 0
  txCountInPage := 0
  directory := PageDirectory.empty

/-- The buffer is allocated for a whole page, and the capacity of a `Vec` is below `2 ^ 63`. -/
def new (store : ChunkerStore) (pageSizeBytes : ℕ) : Except Fault Chunker :=
  if pageSizeBytes < 2 ^ 63 then .ok (start store pageSizeBytes) else .error .panic

def flushPage (outcome : WriteOutcome) (c : Chunker) : Except Fault Unit × Chunker :=
  if c.txCountInPage = 0 then (.ok (), c)
  else
    let buf := leBytes 4 c.txCountInPage ++ c.currentPageBuf.drop 4
    match outcome with
    | .failed left =>
      (.error .io,
        { c with
          currentPageBuf := buf
          store := { c.store with pages := Function.update c.store.pages c.currentPageId left } })
    | .done =>
      (.ok (),
        { c with
          store :=
            { counter := c.store.counter + 1
              pages := Function.update c.store.pages c.currentPageId (some (buf, txChunk)) }
          directory := c.directory.add
            ⟨c.currentPageStartTid, c.currentPageEndTid, c.currentPageId, 0⟩
          currentPageId := c.store.counter
          currentPageBuf := leBytes 4 0
          txCountInPage := 0 })

/-- A transaction goes on the current page; the count of a page is a `u32`. -/
def append (tx : FilteredTransaction) (c : Chunker) : Except Fault Unit × Chunker :=
  let c := { c with
    currentPageStartTid := if c.txCountInPage = 0 then tx.tid else c.currentPageStartTid
    currentPageEndTid := tx.tid }
  if c.txCountInPage + 1 < 2 ^ 32 then
    (.ok (),
      { c with
        txCountInPage := c.txCountInPage + 1
        currentPageBuf := c.currentPageBuf ++ serializeTx tx })
  else (.error .overflow, c)

def addTransaction (outcome : WriteOutcome) (tx : FilteredTransaction) (c : Chunker) :
    Except Fault Unit × Chunker :=
  if 0 < c.txCountInPage ∧ c.pageSizeBytes < c.currentPageBuf.length + (serializeTx tx).length then
    match c.flushPage outcome with
    | (.ok (), c) => c.append tx
    | (.error e, c) => (.error e, c)
  else c.append tx

/-- The call is repeated while its write fails, here as often as the list says. -/
def addRetrying : List (Option StoredPage) → FilteredTransaction → Chunker →
    Except Fault Unit × Chunker
  | [], tx, c => c.addTransaction .done tx
  | left :: failures, tx, c =>
    match c.addTransaction (.failed left) tx with
    | (.error .io, c) => addRetrying failures tx c
    | other => other

/-- Every transaction with the failures of its writes. -/
def addAll : List (FilteredTransaction × List (Option StoredPage)) → Chunker →
    Except Fault Unit × Chunker
  | [], c => (.ok (), c)
  | (tx, failures) :: rest, c =>
    match c.addRetrying failures tx with
    | (.ok (), c) => addAll rest c
    | other => other

/-- `finalize`: the last page is written and the directory returned. -/
def finalize (c : Chunker) : Except Fault Unit × Chunker := c.flushPage .done

/-- What is left of the chunker after a call that went well. -/
def settled : Except Fault Unit × Chunker → Except Fault Chunker
  | (.ok (), c) => .ok c
  | (.error e, _) => .error e

/-- A chunker's whole use. -/
def chunk (store : ChunkerStore) (pageSizeBytes : ℕ)
    (calls : List (FilteredTransaction × List (Option StoredPage))) : Except Fault Chunker := do
  let c ← new store pageSizeBytes
  let c ← settled (c.addAll calls)
  settled c.finalize

theorem chunk_eq {store : ChunkerStore} {pageSizeBytes : ℕ} (h : pageSizeBytes < 2 ^ 63)
    {calls : List (FilteredTransaction × List (Option StoredPage))} :
    chunk store pageSizeBytes calls =
      settled ((start store pageSizeBytes).addAll calls) >>= fun c => settled c.finalize := by
  rw [chunk, new, if_pos h]
  rfl

end Chunker

/-! ## What is to be written -/

/-- A page that was written, by what it holds. -/
structure WrittenPage where
  id : PageId
  txs : List FilteredTransaction
  nonempty : txs ≠ []

namespace WrittenPage

def startTid (p : WrittenPage) : ℕ := (p.txs.head p.nonempty).tid

def endTid (p : WrittenPage) : ℕ := (p.txs.getLast p.nonempty).tid

def entry (p : WrittenPage) : PageDirectoryEntry := ⟨p.startTid, p.endTid, p.id, 0⟩

end WrittenPage

/-- These pages, in the order of their ids, hold these transactions, each once:
the pages are in the store as the layout says, nothing else in the store changed,
and the directory finds them. -/
structure Chunked (before : ChunkerStore) (size : ℕ) (txs : List FilteredTransaction)
    (after : ChunkerStore) (directory : PageDirectory) (pages : List WrittenPage) : Prop where
  order : pages.Pairwise fun p p' => p.id < p'.id
  content : pages.flatMap WrittenPage.txs = txs
  stored : ∀ p ∈ pages, ∃ bytes, after.pages p.id = some (bytes, txChunk) ∧
    readTxPage bytes = some p.txs ∧ (bytes.length ≤ size ∨ p.txs.length = 1)
  others : ∀ id, id ∉ pages.map WrittenPage.id → after.pages id = before.pages id
  found : ∀ p ∈ pages, ∀ tx ∈ p.txs, directory.findPage tx.tid = some p.entry
  outside : ∀ tid, (∀ p ∈ pages, ¬ (p.startTid ≤ tid ∧ tid ≤ p.endTid)) →
    directory.findPage tid = none

/-- The chunker ends without an error, and with all transactions in place. -/
def ChunksAll (store : ChunkerStore) (size : ℕ)
    (calls : List (FilteredTransaction × List (Option StoredPage))) : Prop :=
  ∃ c, Chunker.chunk store size calls = .ok c ∧
    ∃ pages, Chunked store size (calls.map Prod.fst) c.store c.directory pages

/-! ## Step by step -/

/-- The pages a chunker has written and the transactions on its current page. -/
structure Chunker.Holds (before : ChunkerStore) (size : ℕ) (c : Chunker)
    (pages : List WrittenPage) (current : List FilteredTransaction) : Prop where
  pageSize : c.pageSizeBytes = size
  increasing : (pages.flatMap WrittenPage.txs ++ current).Pairwise fun tx tx' => tx.tid < tx'.tid
  order : pages.Pairwise fun p p' => p.id < p'.id
  below : ∀ p ∈ pages, p.id < c.currentPageId
  counter : c.currentPageId < c.store.counter
  stored : ∀ p ∈ pages, c.store.pages p.id = some (txPage p.txs, txChunk) ∧
    ((txPage p.txs).length ≤ size ∨ p.txs.length = 1)
  others : ∀ id, id ∉ pages.map WrittenPage.id → (id = c.currentPageId → current = []) →
    c.store.pages id = before.pages id
  directory : ∀ start e, c.directory.entries.lookup start = some e ↔
    ∃ p ∈ pages, p.startTid = start ∧ p.entry = e
  count : c.txCountInPage = current.length
  header : 4 ≤ c.currentPageBuf.length
  body : c.currentPageBuf.drop 4 = current.flatMap serializeTx
  first : ∀ tx ∈ current.head?, c.currentPageStartTid = tx.tid
  last : ∀ tx ∈ current.getLast?, c.currentPageEndTid = tx.tid
  fits : c.currentPageBuf.length ≤ size ∨ current.length ≤ 1

namespace Chunker

variable {before : ChunkerStore} {size : ℕ} {c : Chunker} {pages : List WrittenPage}
  {current : List FilteredTransaction}

theorem holds_start (store : ChunkerStore) (size : ℕ) :
    Holds store size (start store size) [] [] where
  pageSize := rfl
  increasing := List.Pairwise.nil
  order := List.Pairwise.nil
  below _ hp := (List.not_mem_nil hp).elim
  counter := Nat.lt_succ_self _
  stored _ hp := (List.not_mem_nil hp).elim
  others _ _ _ := rfl
  directory first e := by simp [start, PageDirectory.empty]
  count := rfl
  header := by simp [start]
  body := rfl
  first _ h := by simp at h
  last _ h := by simp at h
  fits := Or.inr (by simp)

theorem Holds.count_ne_zero (h : Holds before size c pages current) (hcurrent : current ≠ []) :
    c.txCountInPage ≠ 0 := by
  rw [h.count]
  exact fun hzero => hcurrent (List.length_eq_zero_iff.mp hzero)

/-- The buffer with the count in its first four bytes is the page. -/
theorem Holds.page_eq (h : Holds before size c pages current) :
    leBytes 4 c.txCountInPage ++ c.currentPageBuf.drop 4 = txPage current := by
  rw [h.count, h.body, txPage]

theorem Holds.length_page (h : Holds before size c pages current) :
    (txPage current).length = c.currentPageBuf.length := by
  have hheader := h.header
  rw [← h.page_eq, List.length_append, length_leBytes, List.length_drop]
  omega

/-- A failed write leaves the chunker with the same transactions. -/
theorem Holds.flush_failed (h : Holds before size c pages current) (hcurrent : current ≠ [])
    (left : Option StoredPage) :
    ∃ c', c.flushPage (.failed left) = (.error .io, c') ∧ Holds before size c' pages current := by
  refine ⟨_, by rw [flushPage, if_neg (h.count_ne_zero hcurrent)], ?_⟩
  have hlength := h.length_page
  have hpage := h.page_eq
  refine { h with stored := ?_, others := ?_, header := ?_, body := ?_, fits := ?_ }
  · intro p hp
    have hne : p.id ≠ c.currentPageId := (h.below p hp).ne
    simpa only [Function.update_of_ne hne] using h.stored p hp
  · intro id hid hother
    have hne : id ≠ c.currentPageId := fun heq => hcurrent (hother heq)
    simpa only [Function.update_of_ne hne] using h.others id hid hother
  · rw [hpage, hlength]
    exact h.header
  · dsimp only
    rw [List.drop_left' (length_leBytes 4 _), h.body]
  · rw [hpage, hlength]
    exact h.fits

/-- The directory of some pages, with the entry of one more that starts elsewhere. -/
theorem lookup_add_entry {d : PageDirectory} {p : WrittenPage}
    (h : ∀ start e, d.entries.lookup start = some e ↔ ∃ q ∈ pages, q.startTid = start ∧ q.entry = e)
    (hfresh : ∀ q ∈ pages, q.startTid ≠ p.startTid) (start : ℕ) (e : PageDirectoryEntry) :
    (d.add p.entry).entries.lookup start = some e ↔
      ∃ q ∈ pages ++ [p], q.startTid = start ∧ q.entry = e := by
  have hstart : p.entry.startTid = p.startTid := rfl
  simp only [PageDirectory.add, hstart, List.mem_append, List.mem_singleton, or_and_right,
    exists_or, exists_eq_left, ← h]
  by_cases hs : start = p.startTid
  · subst hs
    have hnone : d.entries.lookup p.startTid ≠ some e := by
      intro hsome
      obtain ⟨q, hq, hsame, -⟩ := (h _ _).mp hsome
      exact hfresh q hq hsame
    simp [AList.lookup_insert, hnone]
  · simp [AList.lookup_insert_ne hs, Ne.symm hs]

/-- A write that succeeds makes the current transactions a page. -/
theorem Holds.flush_done (h : Holds before size c pages current) (hcurrent : current ≠ []) :
    ∃ c', c.flushPage .done = (.ok (), c') ∧
      Holds before size c' (pages ++ [⟨c.currentPageId, current, hcurrent⟩]) [] := by
  refine ⟨_, by rw [flushPage, if_neg (h.count_ne_zero hcurrent)], ?_⟩
  have hstart : c.currentPageStartTid = (current.head hcurrent).tid :=
    h.first _ (List.head_mem_head? hcurrent)
  have hend : c.currentPageEndTid = (current.getLast hcurrent).tid :=
    h.last _ (List.getLast_mem_getLast? hcurrent)
  have hfresh : ∀ p ∈ pages, p.startTid ≠ (current.head hcurrent).tid := by
    intro p hp heq
    have hbefore := (List.pairwise_append.mp h.increasing).2.2 (p.txs.head p.nonempty)
      (List.mem_flatMap.mpr ⟨p, hp, List.head_mem _⟩) (current.head hcurrent) (List.head_mem _)
    exact absurd heq hbefore.ne
  constructor
  case pageSize => exact h.pageSize
  case increasing => simpa using h.increasing
  case order =>
    rw [List.pairwise_append]
    refine ⟨h.order, List.pairwise_singleton _ _, fun p hp p' hp' => ?_⟩
    obtain rfl := List.mem_singleton.mp hp'
    exact h.below p hp
  case below =>
    intro p hp
    rcases List.mem_append.mp hp with hp | hp
    · exact (h.below p hp).trans h.counter
    · obtain rfl := List.mem_singleton.mp hp
      exact h.counter
  case counter => exact Nat.lt_succ_self _
  case stored =>
    intro p hp
    rcases List.mem_append.mp hp with hp | hp
    · have hne : p.id ≠ c.currentPageId := (h.below p hp).ne
      simpa only [Function.update_of_ne hne] using h.stored p hp
    · obtain rfl := List.mem_singleton.mp hp
      refine ⟨by simp only [Function.update_self, h.page_eq], ?_⟩
      rw [h.length_page]
      refine h.fits.imp_right fun hle => ?_
      have hpos := List.length_pos_iff.mpr hcurrent
      dsimp only
      omega
  case others =>
    intro id hid _
    simp only [List.map_append, List.map_cons, List.map_nil, List.mem_append, List.mem_singleton,
      not_or] at hid
    simp only [Function.update_of_ne hid.2]
    exact h.others id hid.1 fun heq => (hid.2 heq).elim
  case directory =>
    have hentry : WrittenPage.entry ⟨c.currentPageId, current, hcurrent⟩ =
        ⟨c.currentPageStartTid, c.currentPageEndTid, c.currentPageId, 0⟩ := by
      rw [WrittenPage.entry, hstart, hend]
      rfl
    dsimp only
    rw [← hentry]
    exact lookup_add_entry h.directory hfresh
  case count => rfl
  case header => simp
  case body => rfl
  case first => simp
  case last => simp
  case fits => exact Or.inr (by simp)

/-- A transaction with a larger tid, for which the page has room. -/
theorem Holds.append (h : Holds before size c pages current) (tx : FilteredTransaction)
    (htid : ∀ tx' ∈ pages.flatMap WrittenPage.txs ++ current, tx'.tid < tx.tid)
    (hroom : current = [] ∨ c.currentPageBuf.length + (serializeTx tx).length ≤ size)
    (hcount : current.length + 1 < 2 ^ 32) :
    ∃ c', c.append tx = (.ok (), c') ∧ Holds before size c' pages (current ++ [tx]) := by
  refine ⟨_, by rw [Chunker.append, if_pos (by rw [h.count]; exact hcount)], ?_⟩
  constructor
  case pageSize => exact h.pageSize
  case increasing =>
    rw [← List.append_assoc, List.pairwise_append]
    refine ⟨h.increasing, List.pairwise_singleton _ _, fun tx' htx' last hlast => ?_⟩
    obtain rfl := List.mem_singleton.mp hlast
    exact htid tx' htx'
  case order => exact h.order
  case below => exact h.below
  case counter => exact h.counter
  case stored => exact h.stored
  case others =>
    intro id hid hother
    exact h.others id hid fun heq => (List.append_ne_nil_of_right_ne_nil _ (by simp)
      (hother heq)).elim
  case directory => exact h.directory
  case count => simp [h.count]
  case header =>
    rw [List.length_append]
    exact h.header.trans (Nat.le_add_right _ _)
  case body => simp [List.drop_append_of_le_length h.header, h.body]
  case first =>
    intro first hfirst
    cases current with
    | nil =>
      have hzero : c.txCountInPage = 0 := h.count
      obtain rfl : tx = first := by simpa using hfirst
      simp [hzero]
    | cons head rest =>
      obtain rfl : head = first := by simpa using hfirst
      have hpos := h.count_ne_zero (List.cons_ne_nil head rest)
      simpa [hpos] using h.first head (by simp)
  case last =>
    intro last hlast
    obtain rfl : tx = last := by simpa using hlast
    rfl
  case fits =>
    refine hroom.symm.imp (fun hle => ?_) fun hnil => ?_
    · rw [List.length_append]
      exact hle
    · rw [hnil]
      rfl

/-- One call: either its write fails, and nothing is added, or it adds the
transaction. -/
theorem Holds.addTransaction (h : Holds before size c pages current) {tx : FilteredTransaction}
    (htid : ∀ tx' ∈ pages.flatMap WrittenPage.txs ++ current, tx'.tid < tx.tid)
    (hcount : current.length + 1 < 2 ^ 32) (outcome : WriteOutcome) :
    (∃ c', c.addTransaction outcome tx = (.error .io, c') ∧ outcome ≠ .done ∧
        Holds before size c' pages current) ∨
      ∃ c' pages' current', c.addTransaction outcome tx = (.ok (), c') ∧
        Holds before size c' pages' current' ∧
        pages'.flatMap WrittenPage.txs ++ current' =
          pages.flatMap WrittenPage.txs ++ current ++ [tx] := by
  unfold Chunker.addTransaction
  split
  · rename_i hfull
    have hcurrent : current ≠ [] := by
      intro hnil
      have hzero := h.count
      rw [hnil] at hzero
      exact absurd hzero hfull.1.ne'
    cases outcome with
    | failed left =>
      obtain ⟨c', hflush, hholds⟩ := h.flush_failed hcurrent left
      rw [hflush]
      exact Or.inl ⟨c', rfl, by simp, hholds⟩
    | done =>
      obtain ⟨c', hflush, hholds⟩ := h.flush_done hcurrent
      obtain ⟨c'', happend, hholds'⟩ := hholds.append tx (by simpa using htid)
        (Or.inl rfl) (by simp)
      rw [hflush]
      exact Or.inr ⟨c'', _, _, happend, hholds', by simp⟩
  · rename_i hroom
    have hfits : current = [] ∨ c.currentPageBuf.length + (serializeTx tx).length ≤ size := by
      by_cases hnil : current = []
      · exact Or.inl hnil
      · refine Or.inr ?_
        have hpos := Nat.pos_of_ne_zero (h.count_ne_zero hnil)
        have hpageSize := h.pageSize
        by_contra hover
        exact hroom ⟨hpos, by omega⟩
    obtain ⟨c', happend, hholds⟩ := h.append tx htid hfits hcount
    exact Or.inr ⟨c', pages, _, happend, hholds, by simp⟩

theorem Holds.addRetrying (h : Holds before size c pages current) {tx : FilteredTransaction}
    (htid : ∀ tx' ∈ pages.flatMap WrittenPage.txs ++ current, tx'.tid < tx.tid)
    (hcount : current.length + 1 < 2 ^ 32) (failures : List (Option StoredPage)) :
    ∃ c' pages' current', c.addRetrying failures tx = (.ok (), c') ∧
      Holds before size c' pages' current' ∧
      pages'.flatMap WrittenPage.txs ++ current' =
        pages.flatMap WrittenPage.txs ++ current ++ [tx] := by
  induction failures generalizing c with
  | nil =>
    rcases h.addTransaction htid hcount .done with ⟨c', -, hdone, -⟩ | hadded
    · exact absurd rfl hdone
    · exact hadded
  | cons left failures ih =>
    unfold Chunker.addRetrying
    rcases h.addTransaction htid hcount (.failed left) with
      ⟨c', hfailed, -, hholds⟩ | ⟨c', pages', current', hadded, hholds, hall⟩
    · rw [hfailed]
      exact ih hholds
    · rw [hadded]
      exact ⟨c', pages', current', rfl, hholds, hall⟩

theorem Holds.addAll (h : Holds before size c pages current)
    (calls : List (FilteredTransaction × List (Option StoredPage)))
    (htids : (pages.flatMap WrittenPage.txs ++ current ++ calls.map Prod.fst).Pairwise
      fun tx tx' => tx.tid < tx'.tid)
    (hcount : (pages.flatMap WrittenPage.txs ++ current).length + calls.length < 2 ^ 32) :
    ∃ c' pages' current', c.addAll calls = (.ok (), c') ∧ Holds before size c' pages' current' ∧
      pages'.flatMap WrittenPage.txs ++ current' =
        pages.flatMap WrittenPage.txs ++ current ++ calls.map Prod.fst := by
  induction calls generalizing c pages current with
  | nil => exact ⟨c, pages, current, rfl, h, by simp⟩
  | cons call calls ih =>
    obtain ⟨tx, failures⟩ := call
    rw [List.map_cons] at htids ⊢
    have htid : ∀ tx' ∈ pages.flatMap WrittenPage.txs ++ current, tx'.tid < tx.tid :=
      fun tx' htx' => (List.pairwise_append.mp htids).2.2 tx' htx' tx List.mem_cons_self
    rw [List.length_append, List.length_cons] at hcount
    obtain ⟨c', pages', current', hadded, hholds, hall⟩ :=
      h.addRetrying htid (by omega) failures
    have hrest : pages.flatMap WrittenPage.txs ++ current ++ tx :: calls.map Prod.fst =
        pages'.flatMap WrittenPage.txs ++ current' ++ calls.map Prod.fst := by
      rw [hall]
      simp
    have hlength := congrArg List.length hall
    simp only [List.length_append, List.length_singleton] at hlength
    obtain ⟨c'', pages'', current'', hlater, hholds', hall'⟩ := ih hholds (hrest ▸ htids) (by
      rw [List.length_append]
      omega)
    refine ⟨c'', pages'', current'', ?_, hholds', hall'.trans hrest.symm⟩
    rw [Chunker.addAll, hadded]
    exact hlater

theorem Holds.finalize (h : Holds before size c pages current) :
    ∃ c' pages', c.finalize = (.ok (), c') ∧ Holds before size c' pages' [] ∧
      pages'.flatMap WrittenPage.txs = pages.flatMap WrittenPage.txs ++ current := by
  by_cases hcurrent : current = []
  · subst hcurrent
    have hzero : c.txCountInPage = 0 := h.count
    exact ⟨c, pages, by rw [Chunker.finalize, flushPage, if_pos hzero], h, by simp⟩
  · obtain ⟨c', hflush, hholds⟩ := h.flush_done hcurrent
    exact ⟨c', _, hflush, hholds, by simp⟩

/-! ## The directory -/

/-- Of two pages, one ends before the other starts. -/
theorem Holds.disjoint (h : Holds before size c pages current) {p p' : WrittenPage} (hp : p ∈ pages)
    (hp' : p' ∈ pages) : p = p' ∨ p.endTid < p'.startTid ∨ p'.endTid < p.startTid := by
  have hpairs := (List.pairwise_flatMap.mp (List.pairwise_append.mp h.increasing).1).2
  have hends : pages.Pairwise fun p p' => p.endTid < p'.startTid :=
    hpairs.imp fun hlt => hlt _ (List.getLast_mem _) _ (List.head_mem _)
  by_contra hnot
  push Not at hnot
  obtain ⟨hne, hlater, hearlier⟩ := hnot
  obtain ⟨i, hi, rfl⟩ := List.getElem_of_mem hp
  obtain ⟨j, hj, rfl⟩ := List.getElem_of_mem hp'
  rw [List.pairwise_iff_getElem] at hends
  rcases lt_trichotomy i j with hij | rfl | hji
  · exact absurd (hends i j hi hj hij) (not_lt.mpr hlater)
  · exact hne rfl
  · exact absurd (hends j i hj hi hji) (not_lt.mpr hearlier)

/-- The tids of a page lie between its first and its last. -/
theorem Holds.tid_mem (h : Holds before size c pages current) {p : WrittenPage} (hp : p ∈ pages)
    {tx : FilteredTransaction} (htx : tx ∈ p.txs) : p.startTid ≤ tx.tid ∧ tx.tid ≤ p.endTid := by
  have hpage := (List.pairwise_flatMap.mp (List.pairwise_append.mp h.increasing).1).1 p hp
  have hle : p.txs.Pairwise fun tx tx' => tx.tid ≤ tx'.tid := hpage.imp le_of_lt
  obtain ⟨i, hi, rfl⟩ := List.getElem_of_mem htx
  rw [List.pairwise_iff_getElem] at hle
  have hpos := List.length_pos_iff.mpr p.nonempty
  constructor
  · rw [WrittenPage.startTid, List.head_eq_getElem]
    by_cases hzero : i = 0
    · subst hzero
      exact le_rfl
    · exact hle 0 i hpos hi (by omega)
  · rw [WrittenPage.endTid, List.getLast_eq_getElem]
    by_cases hlast : i = p.txs.length - 1
    · subst hlast
      exact le_rfl
    · exact hle i (p.txs.length - 1) hi (by omega) (by omega)

theorem Holds.findPage (h : Holds before size c pages current) {p : WrittenPage} (hp : p ∈ pages)
    {tx : FilteredTransaction} (htx : tx ∈ p.txs) :
    c.directory.findPage tx.tid = some p.entry := by
  obtain ⟨hlo, hhi⟩ := h.tid_mem hp htx
  apply PageDirectory.findPage_eq_some ((h.directory _ _).mpr ⟨p, hp, rfl, rfl⟩) hlo hhi
  intro start hstart hle
  obtain ⟨e, he⟩ := Option.isSome_iff_exists.mp hstart
  obtain ⟨p', hp', rfl, -⟩ := (h.directory _ _).mp he
  have hrange := (h.tid_mem hp' (List.head_mem p'.nonempty)).2
  rcases h.disjoint hp hp' with rfl | hlater | hearlier
  · exact le_rfl
  · exact absurd (hhi.trans_lt hlater) (not_lt.mpr hle)
  · exact (hrange.trans_lt hearlier).le

theorem Holds.findPage_none (h : Holds before size c pages current) {tid : ℕ}
    (houtside : ∀ p ∈ pages, ¬ (p.startTid ≤ tid ∧ tid ≤ p.endTid)) :
    c.directory.findPage tid = none := by
  rw [Option.eq_none_iff_forall_ne_some]
  intro e he
  obtain ⟨start, hlo, hentry, hhi⟩ := PageDirectory.exists_of_findPage he
  obtain ⟨p, hp, rfl, rfl⟩ := (h.directory _ _).mp hentry
  exact houtside p hp ⟨hlo, hhi⟩

theorem Holds.chunked (h : Holds before size c pages [])
    (hfits : ∀ tx ∈ pages.flatMap WrittenPage.txs, tx.Fits ∧ tx.items.length < 2 ^ 32)
    (hcount : (pages.flatMap WrittenPage.txs).length < 2 ^ 32) :
    Chunked before size (pages.flatMap WrittenPage.txs) c.store c.directory pages where
  order := h.order
  content := rfl
  stored p hp := by
    obtain ⟨hstored, hsize⟩ := h.stored p hp
    have hmem : ∀ tx ∈ p.txs, tx ∈ pages.flatMap WrittenPage.txs :=
      fun tx htx => List.mem_flatMap.mpr ⟨p, hp, htx⟩
    have hshort : p.txs.length ≤ (pages.flatMap WrittenPage.txs).length := by
      rw [List.length_flatMap]
      exact List.single_le_sum (fun _ _ => Nat.zero_le _) _ (List.mem_map_of_mem hp)
    refine ⟨txPage p.txs, hstored, ?_, hsize⟩
    exact readTxPage_txPage (fun tx htx => (hfits tx (hmem tx htx)).1)
      (fun tx htx => (hfits tx (hmem tx htx)).2) (hshort.trans_lt hcount)
  others id hid := h.others id hid fun _ => rfl
  found p hp tx htx := h.findPage hp htx
  outside tid houtside := h.findPage_none houtside

end Chunker

/-- Transactions with increasing tids, fewer than 2^32 and with fewer than 2^32
entries each, are all on the pages, whatever writes failed on the way and whatever size
below 2^63 the pages have. -/
theorem chunksAll_of_lt (store : ChunkerStore) {size : ℕ} (hsize : size < 2 ^ 63)
    {calls : List (FilteredTransaction × List (Option StoredPage))}
    (hfits : ∀ call ∈ calls, call.1.Fits)
    (htids : (calls.map Prod.fst).Pairwise fun tx tx' => tx.tid < tx'.tid)
    (hitems : ∀ call ∈ calls, call.1.items.length < 2 ^ 32) (hcount : calls.length < 2 ^ 32) :
    ChunksAll store size calls := by
  obtain ⟨c, pages, current, hadded, hholds, hall⟩ :=
    (Chunker.holds_start store size).addAll calls (by simpa using htids) (by simpa using hcount)
  obtain ⟨c', pages', hfinal, hholds', hcontent⟩ := hholds.finalize
  have htxs : pages'.flatMap WrittenPage.txs = calls.map Prod.fst := by
    rw [hcontent, hall]
    rfl
  refine ⟨c', ?_, pages', ?_⟩
  · rw [Chunker.chunk_eq hsize, hadded, Chunker.settled]
    exact congrArg Chunker.settled hfinal
  · rw [← htxs]
    apply hholds'.chunked
    · rw [htxs]
      intro tx htx
      obtain ⟨call, hcall, rfl⟩ := List.mem_map.mp htx
      exact ⟨hfits call hcall, hitems call hcall⟩
    · rw [htxs, List.length_map]
      exact hcount

/-- Small pages, and a write that fails twice, the second time with a torn file. -/
theorem chunksAll_of_lt_retried :
    ChunksAll ⟨1, fun _ => none⟩ 64
      [(⟨0, 100, [⟨1, 100⟩]⟩, []), (⟨3, -5, [⟨2, -5⟩]⟩, [none, some ([1, 0], txChunk)]),
        (⟨4, 7, [⟨1, 3⟩, ⟨2, 4⟩]⟩, [])] :=
  chunksAll_of_lt _ (by decide) (by decide) (by decide) (by decide) (by decide)

/-! ## More than the counts can say -/

/-- Pages that are read back hold no transaction with 2^32 entries. -/
theorem not_chunksAll_of_le_items {store : ChunkerStore} {size : ℕ}
    {calls : List (FilteredTransaction × List (Option StoredPage))}
    {call : FilteredTransaction × List (Option StoredPage)} (hcall : call ∈ calls)
    (hitems : 2 ^ 32 ≤ call.1.items.length) : ¬ ChunksAll store size calls := by
  rintro ⟨c, -, pages, hchunked⟩
  have hmem : call.1 ∈ pages.flatMap WrittenPage.txs := by
    rw [hchunked.content]
    exact List.mem_map_of_mem hcall
  obtain ⟨p, hp, htx⟩ := List.mem_flatMap.mp hmem
  obtain ⟨bytes, -, hread, -⟩ := hchunked.stored p hp
  unfold readTxPage at hread
  split at hread
  · cases hread
  · have hlt := length_items_of_readTxs hread call.1 htx
    omega

/-- While everything fits on one page, its count grows until it overflows. -/
theorem Chunker.addAll_overflow {c : Chunker} {txs : List FilteredTransaction}
    (hlength : ∀ tx ∈ txs, (serializeTx tx).length = 32)
    (hroom : c.currentPageBuf.length + 32 * txs.length ≤ c.pageSizeBytes)
    (hcount : 2 ^ 32 ≤ c.txCountInPage + txs.length) (hlt : c.txCountInPage < 2 ^ 32) :
    ∃ c', c.addAll (txs.map fun tx => (tx, [])) = (.error .overflow, c') := by
  induction txs generalizing c with
  | nil => simp at hcount; omega
  | cons tx txs ih =>
    have hfirst := hlength tx List.mem_cons_self
    rw [List.length_cons] at hroom hcount
    have hadd : c.addTransaction .done tx = c.append tx := by
      rw [Chunker.addTransaction, if_neg]
      omega
    by_cases hnext : c.txCountInPage + 1 < 2 ^ 32
    · simp only [List.map_cons, Chunker.addAll, Chunker.addRetrying, hadd, Chunker.append,
        if_pos hnext]
      apply ih fun t ht => hlength t (List.mem_cons_of_mem tx ht)
      · simp only [List.length_append, hfirst]
        omega
      · dsimp only
        omega
      · exact hnext
    · simp only [List.map_cons, Chunker.addAll, Chunker.addRetrying, hadd, Chunker.append,
        if_neg hnext]
      exact ⟨_, rfl⟩

/-- A transaction with every item there is. -/
def widestTx : FilteredTransaction := ⟨0, 0, (List.range (2 ^ 32)).map fun item => ⟨item, 0⟩⟩

/-- A transaction for every tid there is. -/
def allTids : List FilteredTransaction :=
  (List.range (2 ^ 32)).map fun tid => ⟨tid, 0, [⟨0, 0⟩]⟩

/-- The count of entries of one transaction, and that of a page that has room for
everything, are cut or overflow; and a page of 2^63 bytes cannot be allocated. -/
theorem not_chunksAll_counts :
    ¬ ChunksAll ⟨1, fun _ => none⟩ 4096 [(widestTx, [])] ∧
      ¬ ChunksAll ⟨1, fun _ => none⟩ (2 ^ 40) (allTids.map fun tx => (tx, [])) ∧
      ¬ ChunksAll ⟨1, fun _ => none⟩ (2 ^ 63) [] := by
  refine ⟨?_, ?_, ?_⟩
  · apply not_chunksAll_of_le_items List.mem_cons_self
    simp [widestTx]
  · have hlength : allTids.length = 2 ^ 32 := by simp [allTids]
    have hwidth : ∀ tx ∈ allTids, (serializeTx tx).length = 32 := by
      intro tx htx
      obtain ⟨tid, -, rfl⟩ := List.mem_map.mp htx
      simp
    obtain ⟨c', hoverflow⟩ := Chunker.addAll_overflow
      (c := Chunker.start ⟨1, fun _ => none⟩ (2 ^ 40)) hwidth
      (by rw [hlength]; simp [Chunker.start]) (by rw [hlength]; simp [Chunker.start])
      (by simp [Chunker.start])
    rintro ⟨c, hchunk, -⟩
    have hsize : 2 ^ 40 < 2 ^ 63 := Nat.pow_lt_pow_right (by decide) (by decide)
    rw [Chunker.chunk_eq hsize, hoverflow] at hchunk
    cases hchunk
  · rintro ⟨c, hchunk, -⟩
    rw [Chunker.chunk, Chunker.new, if_neg (lt_irrefl _)] at hchunk
    cases hchunk

end AirHuim
