import AirHuim.Preprocessing.DbReader
import AirHuim.Preprocessing.TwuFilter

/-!
# Pages of transactions

A page of transactions is a count and the transactions, each with its tid, its
utility, the number of its entries and the entries in 16 bytes. The counts are
four bytes wide; below 2^32 a page is read back as it was written.
-/

namespace AirHuim

open Library

def ItemEntry.toBytes (e : ItemEntry) : Bytes :=
  leBytes 4 e.item ++ [0, 0, 0, 0] ++ i64ToLe e.utility

def serializeTx (tx : FilteredTransaction) : Bytes :=
  leBytes 4 tx.tid ++ i64ToLe tx.transactionUtility ++ leBytes 4 tx.items.length ++
    tx.items.flatMap ItemEntry.toBytes

/-- The page that holds these transactions. -/
def txPage (txs : List FilteredTransaction) : Bytes :=
  leBytes 4 txs.length ++ txs.flatMap serializeTx

/-! ## The documented layout -/

def readEntry (bytes : Bytes) : ItemEntry := ⟨ofLeBytes (bytes.take 4), i64OfLe (bytes.drop 8)⟩

/-- The first transaction of a buffer, and the bytes after it. -/
def readTx (bytes : Bytes) : Option (FilteredTransaction × Bytes) :=
  let body := bytes.drop 16
  let size := 16 * ofLeBytes ((bytes.drop 12).take 4)
  if bytes.length < 16 then none
  else if body.length < size then none
  else
    some (⟨ofLeBytes (bytes.take 4), i64OfLe ((bytes.drop 4).take 8),
      (chunksExact 16 (body.take size)).map readEntry⟩, body.drop size)

/-- So many transactions, and nothing after them. -/
def readTxs : ℕ → Bytes → Option (List FilteredTransaction)
  | 0, bytes => if bytes.isEmpty then some [] else none
  | count + 1, bytes =>
    match readTx bytes with
    | none => none
    | some (tx, rest) => (readTxs count rest).map (tx :: ·)

def readTxPage (bytes : Bytes) : Option (List FilteredTransaction) :=
  if bytes.length < 4 then none else readTxs (ofLeBytes (bytes.take 4)) (bytes.drop 4)

/-! ## Round trips -/

/-- The fields of the transaction are in the ranges of their types. -/
structure FilteredTransaction.Fits (tx : FilteredTransaction) : Prop where
  tid : tx.tid < 2 ^ 32
  transactionUtility : FitsI64 tx.transactionUtility
  items : ∀ e ∈ tx.items, e.Fits

instance (tx : FilteredTransaction) : Decidable tx.Fits :=
  decidable_of_iff (tx.tid < 2 ^ 32 ∧ FitsI64 tx.transactionUtility ∧ ∀ e ∈ tx.items, e.Fits)
    ⟨fun h => ⟨h.1, h.2.1, h.2.2⟩, fun h => ⟨h.tid, h.transactionUtility, h.items⟩⟩

@[simp] theorem ItemEntry.length_toBytes (e : ItemEntry) : e.toBytes.length = 16 := by
  simp [toBytes]

theorem readEntry_toBytes {e : ItemEntry} (h : e.Fits) : readEntry e.toBytes = e := by
  have hitem : e.toBytes.take 4 = leBytes 4 e.item := by
    rw [ItemEntry.toBytes, List.append_assoc]
    exact List.take_left' (length_leBytes 4 _)
  have hutility : e.toBytes.drop 8 = i64ToLe e.utility := List.drop_left' (by simp)
  rw [readEntry, hitem, hutility, ofLeBytes_leBytes_of_lt h.item, i64OfLe_i64ToLe h.utility]

theorem length_entries (items : List ItemEntry) :
    (items.flatMap ItemEntry.toBytes).length = 16 * items.length := by
  induction items with
  | nil => rfl
  | cons e items ih =>
    rw [List.flatMap_cons, List.length_append, ih, ItemEntry.length_toBytes, List.length_cons]
    omega

@[simp] theorem length_serializeTx (tx : FilteredTransaction) :
    (serializeTx tx).length = 16 + 16 * tx.items.length := by
  simp only [serializeTx, List.length_append, length_leBytes, length_i64ToLe, length_entries]

theorem readTx_serializeTx {tx : FilteredTransaction} (h : tx.Fits)
    (hitems : tx.items.length < 2 ^ 32) (rest : Bytes) :
    readTx (serializeTx tx ++ rest) = some (tx, rest) := by
  have htid : (leBytes 4 tx.tid).length = 4 := length_leBytes 4 _
  have hutility : (i64ToLe tx.transactionUtility).length = 8 := length_i64ToLe _
  have hcount : (leBytes 4 tx.items.length).length = 4 := length_leBytes 4 _
  have hbody : (serializeTx tx ++ rest).drop 16 = tx.items.flatMap ItemEntry.toBytes ++ rest := by
    rw [serializeTx, List.append_assoc]
    exact List.drop_left' (by simp)
  have htidField : (serializeTx tx ++ rest).take 4 = leBytes 4 tx.tid := by
    simp only [serializeTx, List.append_assoc]
    exact List.take_left' htid
  have hutilityField : ((serializeTx tx ++ rest).drop 4).take 8 =
    i64ToLe tx.transactionUtility := by
    simp only [serializeTx, List.append_assoc]
    exact slice_field htid hutility _
  have hcountField : ((serializeTx tx ++ rest).drop 12).take 4 = leBytes 4 tx.items.length := by
    simp only [serializeTx, List.append_assoc]
    rw [← List.append_assoc]
    exact slice_field (by simp) hcount _
  have hsize := length_entries tx.items
  have hentries : (chunksExact 16 (tx.items.flatMap ItemEntry.toBytes)).map readEntry = tx.items :=
    map_chunksExact_flatMap (by norm_num) _ ItemEntry.length_toBytes _
      fun e he => readEntry_toBytes (h.items e he)
  have htidValue : ofLeBytes (leBytes 4 tx.tid) = tx.tid := ofLeBytes_leBytes_of_lt h.tid
  have hcountValue : ofLeBytes (leBytes 4 tx.items.length) = tx.items.length :=
    ofLeBytes_leBytes_of_lt hitems
  unfold readTx
  simp only [hbody, htidField, hutilityField, hcountField, hcountValue, htidValue,
    i64OfLe_i64ToLe h.transactionUtility, List.take_left' hsize, List.drop_left' hsize, hentries]
  rw [if_neg (by simp; omega), if_neg (by simp [hsize])]

theorem readTxs_flatMap {txs : List FilteredTransaction} (h : ∀ tx ∈ txs, tx.Fits)
    (hitems : ∀ tx ∈ txs, tx.items.length < 2 ^ 32) :
    readTxs txs.length (txs.flatMap serializeTx) = some txs := by
  induction txs with
  | nil => rfl
  | cons tx txs ih =>
    have hfirst := readTx_serializeTx (h tx List.mem_cons_self) (hitems tx List.mem_cons_self)
      (txs.flatMap serializeTx)
    have hrest := ih (fun t ht => h t (List.mem_cons_of_mem tx ht))
      (fun t ht => hitems t (List.mem_cons_of_mem tx ht))
    rw [List.length_cons, List.flatMap_cons, readTxs, hfirst]
    simp only [hrest, Option.map_some]

theorem readTxPage_txPage {txs : List FilteredTransaction} (h : ∀ tx ∈ txs, tx.Fits)
    (hitems : ∀ tx ∈ txs, tx.items.length < 2 ^ 32) (hcount : txs.length < 2 ^ 32) :
    readTxPage (txPage txs) = some txs := by
  obtain ⟨htake, hdrop⟩ := take_field (length_leBytes 4 txs.length) (txs.flatMap serializeTx)
  have hlong : ¬ (txPage txs).length < 4 := by simp [txPage]
  rw [readTxPage, if_neg hlong, txPage, htake, hdrop, ofLeBytes_leBytes_of_lt hcount]
  exact readTxs_flatMap h hitems

/-- What is read never has more entries than a count field can say. -/
theorem length_items_of_readTxs {count : ℕ} {bytes : Bytes} {txs : List FilteredTransaction}
    (h : readTxs count bytes = some txs) : ∀ tx ∈ txs, tx.items.length < 2 ^ 32 := by
  induction count generalizing bytes txs with
  | zero =>
    simp only [readTxs] at h
    split at h
    · cases h
      exact fun _ htx => (List.not_mem_nil htx).elim
    · cases h
  | succ count ih =>
    simp only [readTxs] at h
    split at h
    · cases h
    · rename_i first rest hfirst
      obtain ⟨later, hlater, rfl⟩ := Option.map_eq_some_iff.mp h
      rw [List.forall_mem_cons]
      refine ⟨?_, ih hlater⟩
      unfold readTx at hfirst
      dsimp only at hfirst
      split_ifs at hfirst
      cases hfirst
      rw [List.length_map, chunksExact, List.length_map, List.length_range, List.length_take]
      have hfield := ofLeBytes_lt ((bytes.drop 12).take 4)
      have hwidth : ((bytes.drop 12).take 4).length ≤ 4 := List.length_take_le 4 _
      have hpow : 256 ^ ((bytes.drop 12).take 4).length ≤ 256 ^ 4 :=
        Nat.pow_le_pow_right (by norm_num) hwidth
      omega

end AirHuim
