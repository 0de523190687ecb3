import EngineCore.Eoa.Changes
import Mathlib.Data.List.Find

/-!
# What a cleanup does with each transaction

`CleanSubmittedTransactions` decides about an id at its first row and about every row by itself.
Here both decisions are read off the evidence, and what becomes of each row and of each id is said
in terms of the submitted set and the receipts.

* **`partition_iff`**: a cleanup partitions the ids exactly where the rows are legible.
-/

namespace EngineCore.Eoa

open Redis Twmq
open Except (bind_ok pure_ok)

/-! ## Decisions -/

/-- The rows at which a cleanup decides: the first one of each id, below a count. -/
def Evidence.firsts (e : Evidence) : List String → List (Row × ℕ) → List (Row × ℕ)
  | _, [] => []
  | processed, entry :: rows =>
    if e.Reaches entry.2 ∧ entry.1.transactionId ∉ processed then
      entry :: e.firsts (sadd processed entry.1.transactionId) rows
    else e.firsts processed rows

/-- The outcome that is written at the first row of an id. -/
def Evidence.completion (e : Evidence) (entry : Row × ℕ) : Option (String × Status) :=
  if entry.1.transactionId = noOpTransactionId then none
  else (e.ofId entry.1.transactionId).map fun c =>
    (entry.1.transactionId, if c.receipt.status then .confirmed else .failed)

/-- The id that goes back to pending at its first row. -/
def Evidence.replacement (e : Evidence) (entry : Row × ℕ) : Option (String × ℕ) :=
  if entry.1.transactionId ≠ noOpTransactionId ∧ (e.ofId entry.1.transactionId).isNone ∧
      e.Replaces entry.2 then
    some (entry.1.transactionId, entry.1.queuedAt)
  else none

def complete (records : String → Option Record) (x : String × Status) : String → Option Record :=
  Function.update records x.1
    (some { (records x.1).getD {} with status := some x.2, expiring := true })

section Decisions

variable {e : Evidence} {entry : Row × ℕ} {rows : List (Row × ℕ)} {processed : List String}

theorem firsts_cons (e : Evidence) (processed : List String) (entry : Row × ℕ)
    (rows : List (Row × ℕ)) : e.firsts processed (entry :: rows)
      = if e.Reaches entry.2 ∧ entry.1.transactionId ∉ processed then
          entry :: e.firsts (sadd processed entry.1.transactionId) rows
        else e.firsts processed rows := rfl

theorem mem_firsts (h : entry ∈ e.firsts processed rows) :
    entry ∈ rows ∧ e.Reaches entry.2 ∧ entry.1.transactionId ∉ processed := by
  induction rows generalizing processed with
  | nil => cases h
  | cons x rows ih =>
    rw [firsts_cons] at h
    split_ifs at h with hx
    · rcases List.mem_cons.mp h with rfl | h
      · exact ⟨List.mem_cons_self, hx⟩
      · obtain ⟨hmem, hreach, hnew⟩ := ih h
        exact ⟨List.mem_cons_of_mem _ hmem, hreach, fun hin => hnew (mem_sadd.mpr (.inr hin))⟩
    · obtain ⟨hmem, hrest⟩ := ih h
      exact ⟨List.mem_cons_of_mem _ hmem, hrest⟩

theorem exists_firsts (h : entry ∈ rows) (hreach : e.Reaches entry.2)
    (hnew : entry.1.transactionId ∉ processed) :
    ∃ first ∈ e.firsts processed rows, first.1.transactionId = entry.1.transactionId := by
  induction rows generalizing processed with
  | nil => cases h
  | cons x rows ih =>
    rw [firsts_cons]
    split_ifs with hx
    · by_cases hsame : x.1.transactionId = entry.1.transactionId
      · exact ⟨x, List.mem_cons_self, hsame⟩
      · have hmem : entry ∈ rows := (List.mem_cons.mp h).resolve_left fun heq => hsame (heq ▸ rfl)
        obtain ⟨first, hfirst, hid⟩ := ih hmem fun hin =>
          (mem_sadd.mp hin).elim (fun heq => hsame heq.symm) hnew
        exact ⟨first, List.mem_cons_of_mem _ hfirst, hid⟩
    · have hmem : entry ∈ rows := (List.mem_cons.mp h).resolve_left fun heq =>
        hx (heq ▸ ⟨hreach, hnew⟩)
      exact ih hmem hnew

theorem nodup_firsts (e : Evidence) (processed : List String) (rows : List (Row × ℕ)) :
    ((e.firsts processed rows).map (·.1.transactionId)).Nodup := by
  induction rows generalizing processed with
  | nil => exact List.nodup_nil
  | cons x rows ih =>
    rw [firsts_cons]
    split_ifs with hx
    · rw [List.map_cons, List.nodup_cons]
      refine ⟨fun hin => ?_, ih _⟩
      obtain ⟨y, hy, hid⟩ := List.mem_map.mp hin
      exact (mem_firsts hy).2.2 (mem_sadd.mpr (.inl hid))
    · exact ih _

theorem row_eq (e : Evidence) (a : Cleanup) (entry : Row × ℕ) :
    (Cleanup.row e a entry).processed
      = (if e.Reaches entry.2 then sadd a.processed entry.1.transactionId else a.processed) ∧
    (Cleanup.row e a entry).replaced = a.replaced ++
      (if e.Reaches entry.2 ∧ entry.1.transactionId ∉ a.processed then
        (e.replacement entry).toList else []) ∧
    (Cleanup.row e a entry).wallet.records
      = (if e.Reaches entry.2 ∧ entry.1.transactionId ∉ a.processed then
        (e.completion entry).toList else []).foldl complete a.wallet.records ∧
    (Cleanup.row e a entry).wallet.submitted
      = (if e.Reaches entry.2 ∧ e.Removes entry.1 entry.2 then
        hdel a.wallet.submitted entry.1.hydrated else a.wallet.submitted) := by
  unfold Cleanup.row
  by_cases hreach : e.Reaches entry.2
  · have hreach' : entry.2 < e.counts.preconfirmed ∨ entry.2 < e.counts.latest := hreach
    simp only [hreach, hreach', if_true, true_and]
    by_cases hin : entry.1.transactionId ∈ a.processed
    · by_cases hrem : e.Removes entry.1 entry.2 <;> simp [hin, hrem]
    · have hout : (a.outcome e entry.1 entry.2).replaced
            = a.replaced ++ (e.replacement entry).toList ∧
          (a.outcome e entry.1 entry.2).wallet.records
            = (e.completion entry).toList.foldl complete a.wallet.records ∧
          (a.outcome e entry.1 entry.2).wallet.submitted = a.wallet.submitted := by
        unfold Cleanup.outcome Evidence.replacement Evidence.completion
        by_cases hid : entry.1.transactionId = noOpTransactionId
        · simp [hid]
        · cases hc : e.ofId entry.1.transactionId with
          | some c => simp [hid, hc, Wallet.setRecord, complete]
          | none => by_cases hr : e.Replaces entry.2 <;> simp [hid, hc, hr]
      by_cases hrem : e.Removes entry.1 entry.2 <;> simp [hin, hrem, hout]
  · have hreach' : ¬(entry.2 < e.counts.preconfirmed ∨ entry.2 < e.counts.latest) := hreach
    simp [hreach, hreach']

theorem foldl_row (e : Evidence) (rows : List (Row × ℕ)) (a : Cleanup) :
    (rows.foldl (Cleanup.row e) a).replaced
      = a.replaced ++ (e.firsts a.processed rows).filterMap e.replacement ∧
    (rows.foldl (Cleanup.row e) a).wallet.records
      = ((e.firsts a.processed rows).filterMap e.completion).foldl complete a.wallet.records := by
  induction rows generalizing a with
  | nil => simp [Evidence.firsts]
  | cons entry rows ih =>
    obtain ⟨hprocessed, hreplaced, hrecords, -⟩ := row_eq e a entry
    obtain ⟨ihreplaced, ihrecords⟩ := ih (Cleanup.row e a entry)
    rw [List.foldl_cons, ihreplaced, ihrecords, hreplaced, hrecords, hprocessed, firsts_cons]
    by_cases hreach : e.Reaches entry.2
    · by_cases hin : entry.1.transactionId ∈ a.processed
      · simp [hreach, hin, sadd]
      · simp only [hreach, hin, if_true, not_false_eq_true, and_self]
        rw [List.filterMap_cons, List.filterMap_cons]
        cases e.replacement entry <;> cases e.completion entry <;> simp
    · simp [hreach]

end Decisions

/-! ## Receipts -/

/-- The receipt is one of the row: of its hash, its id and its nonce. -/
def ConfirmedTransaction.Fits (c : ConfirmedTransaction) (entry : Row × ℕ) : Prop :=
  entry.1.hash = c.transactionHash ∧ entry.1.transactionId = c.transactionId ∧ entry.2 = c.nonce

instance (c : ConfirmedTransaction) (entry : Row × ℕ) : Decidable (c.Fits entry) := by
  unfold ConfirmedTransaction.Fits
  infer_instance

namespace Wallet

variable (w : Wallet) (confirmed : List ConfirmedTransaction) (counts : TransactionCounts)

/-- A row of the transaction is retained at the nonce. -/
def Owns (id : String) (n : ℕ) : Prop := ∃ row, (row, n) ∈ w.submitted ∧ row.owner = some id

def HasReceipt (entry : Row × ℕ) : Prop := entry ∈ w.submitted ∧ ∃ c ∈ confirmed, c.Fits entry

/-- The nonce of a retained row has a receipt. -/
def SettledAt (n : ℕ) : Prop := ∃ entry, w.HasReceipt confirmed entry ∧ entry.2 = n

/-- The receipt of a transaction: of several, the last one. -/
def ownReceipt (id : String) : Option ConfirmedTransaction :=
  confirmed.reverse.find? fun c => c.transactionId = id ∧ ∃ entry ∈ w.submitted, c.Fits entry

def settling : List (Row × ℕ) := readable (w.receiptRows confirmed counts)

def evidence : Evidence := .ofRows counts confirmed (w.settling confirmed counts)

/-- The outcomes a cleanup writes, in order. -/
def completions : List (String × Status) :=
  ((w.evidence confirmed counts).firsts [] (w.settling confirmed counts)).filterMap
    (w.evidence confirmed counts).completion

/-- The ids a cleanup moves back to pending, in order. -/
def replacements : List String :=
  (((w.evidence confirmed counts).firsts [] (w.settling confirmed counts)).filterMap
    (w.evidence confirmed counts).replacement).map Prod.fst

/-- A submitted set: distinct members, each id at one nonce, and each hash too, since it is the hash
of one signed transaction. -/
structure Regular : Prop where
  distinct : (keys w.submitted).Nodup
  nonce : ∀ id n n', w.Owns id n → w.Owns id n' → n = n'
  hash : ∀ x ∈ w.submitted, ∀ y ∈ w.submitted, x.1.hash = y.1.hash → x.2 = y.2

/-- Every id is completed, moved back to pending or still submitted, by what its own receipt and
those of its nonce say. -/
structure Partition (w' : Wallet) : Prop where
  completed : ∀ entry id, w.HasReceipt confirmed entry → entry.1.owner = some id →
    entry.2 < max counts.preconfirmed counts.latest →
    ∃ c, w.ownReceipt confirmed id = some c ∧
      (id, if c.receipt.status then .confirmed else .failed) ∈ w.completions confirmed counts ∧
      ((w.completions confirmed counts).map Prod.fst).count id = 1 ∧
      (w'.records id).bind (·.status)
        = some (if c.receipt.status then .confirmed else .failed) ∧
      ¬w'.Owns id entry.2 ∧ id ∉ w.replacements confirmed counts
  replaced : ∀ id n, w.Owns id n →
    (∀ entry, w.HasReceipt confirmed entry → entry.1.owner ≠ some id) →
    ((w.replacements confirmed counts).count id = 1 ∧ ¬w'.Owns id n ↔
      n < counts.latest ∧ w.SettledAt confirmed n)
  noops : ∀ hash n, (.noop hash, n) ∈ w.submitted →
    ((.noop hash, n) ∉ w'.submitted ↔
      n < max counts.preconfirmed counts.latest ∧ w.SettledAt confirmed n)
  others : ∀ entry ∈ w.submitted, ∀ id, entry.1.owner = some id →
    ¬(∃ own, w.HasReceipt confirmed own ∧ own.1.owner = some id ∧
      own.2 < max counts.preconfirmed counts.latest) →
    ¬((∀ own, w.HasReceipt confirmed own → own.1.owner ≠ some id) ∧ entry.2 < counts.latest ∧
      w.SettledAt confirmed entry.2) → entry ∈ w'.submitted
  kept : ∀ entry ∈ w'.submitted, entry ∈ w.submitted
  one : ∀ id n, w.Owns id n →
    id ∈ (w.completions confirmed counts).map Prod.fst ∧ id ∉ w.replacements confirmed counts ∧
      ¬w'.Owns id n ∨
    id ∉ (w.completions confirmed counts).map Prod.fst ∧ id ∈ w.replacements confirmed counts ∧
      ¬w'.Owns id n ∨
    id ∉ (w.completions confirmed counts).map Prod.fst ∧ id ∉ w.replacements confirmed counts ∧
      w'.Owns id n
  pending : ∀ id, id ∈ keys w'.pending ↔ id ∈ keys w.pending ∨ id ∈ w.replacements confirmed counts
  again : w'.cleanSubmitted confirmed counts = .ok w'

/-- No row that is dropped or taken for a noop has a receipt below the counts, or one of another
transaction at its nonce below the latest count. -/
def Legible : Prop :=
  ∀ entry ∈ w.submitted, ∀ id, entry.1.owner = some id →
    ':' ∈ id.toList ∨ id = noOpTransactionId →
    (w.HasReceipt confirmed entry → max counts.preconfirmed counts.latest ≤ entry.2) ∧
    (w.SettledAt confirmed entry.2 → counts.latest ≤ entry.2)

end Wallet

/-! ## Evidence -/

namespace Wallet

variable {w w' : Wallet} {confirmed : List ConfirmedTransaction} {counts : TransactionCounts}
  {entry : Row × ℕ} {id : String} {n : ℕ}

theorem transactionId_of_owner {row : Row} (h : row.owner = some id) : row.transactionId = id := by
  cases row with
  | real hash i queuedAt submittedAt => exact Option.some.inj h
  | noop hash => cases h

theorem mem_settling : entry ∈ w.settling confirmed counts ↔ entry ∈ w.submitted ∧
    entry.1.Readable ∧ entry.2 < max counts.preconfirmed counts.latest ∧
    entry.2 ∈ confirmed.map (·.nonce) :=
  mem_readable_receiptRows

theorem reaches_iff : (w.evidence confirmed counts).Reaches n ↔
    n < max counts.preconfirmed counts.latest := by
  unfold Evidence.Reaches evidence Evidence.ofRows
  dsimp only
  omega

theorem mem_noncesWithReceipts (hw : w.Regular) :
    n ∈ (w.evidence confirmed counts).noncesWithReceipts ↔
      ∃ entry ∈ w.settling confirmed counts, entry.2 = n ∧ ∃ c ∈ confirmed, c.Fits entry := by
  unfold evidence Evidence.ofRows
  simp only [List.mem_map, List.mem_filter, decide_eq_true_eq]
  constructor
  · rintro ⟨x, ⟨hx, c, ⟨hc, y, hy, hfits⟩, hhash⟩, rfl⟩
    have hsame := hw.hash y (mem_settling.mp hy).1 x (mem_settling.mp hx).1 (hfits.1.trans hhash)
    exact ⟨y, hy, hsame, c, hc, hfits⟩
  · rintro ⟨x, hx, rfl, c, hc, hfits⟩
    exact ⟨x, ⟨hx, c, ⟨hc, x, hx, hfits⟩, hfits.1.symm⟩, rfl⟩

theorem ofId_isSome (hid : id ≠ noOpTransactionId) :
    ((w.evidence confirmed counts).ofId id).isSome ↔
      ∃ entry ∈ w.settling confirmed counts, entry.1.owner = some id ∧
        ∃ c ∈ confirmed, c.Fits entry := by
  unfold Evidence.ofId evidence Evidence.ofRows
  rw [List.find?_isSome]
  simp only [List.mem_reverse, List.mem_filter, decide_eq_true_eq]
  constructor
  · rintro ⟨c, ⟨hc, y, hy, hfits⟩, hcid, -⟩
    refine ⟨y, hy, ?_, c, hc, hfits⟩
    have hyid : y.1.transactionId = id := hfits.2.1.trans hcid
    rw [owner_eq (hyid ▸ hid), hyid]
  · rintro ⟨y, hy, howner, c, hc, hfits⟩
    have hyid := transactionId_of_owner howner
    exact ⟨c, ⟨hc, y, hy, hfits⟩, hfits.2.1.symm.trans hyid, hid⟩

theorem ofId_eq_ownReceipt (hid : id ≠ noOpTransactionId) (hrows : ∀ entry ∈ w.submitted,
      entry.1.owner = some id → entry.2 ∈ confirmed.map (·.nonce) →
      entry ∈ w.settling confirmed counts) :
    (w.evidence confirmed counts).ofId id = w.ownReceipt confirmed id := by
  unfold Evidence.ofId evidence Evidence.ofRows ownReceipt
  rw [← List.filter_reverse, List.find?_filter]
  refine List.find?_congr fun c hc => ?_
  rw [Bool.eq_iff_iff]
  simp only [decide_eq_true_eq]
  constructor
  · rintro ⟨⟨y, hy, hfits⟩, hcid, -⟩
    exact ⟨hcid, y, (mem_settling.mp hy).1, hfits⟩
  · rintro ⟨hcid, y, hy, hfits⟩
    have hyid : y.1.transactionId = id := hfits.2.1.trans hcid
    have howner : y.1.owner = some id := by rw [owner_eq (hyid ▸ hid), hyid]
    have hnonce : y.2 ∈ confirmed.map (·.nonce) :=
      List.mem_map.mpr ⟨c, List.mem_reverse.mp hc, hfits.2.2.symm⟩
    exact ⟨⟨y, hrows y hy howner hnonce, hfits⟩, hcid, hid⟩

/-! ## Rows that go and rows that stay -/

/-- The parser gives the id back, and it is not reserved. -/
def Plain (id : String) : Prop := ':' ∉ id.toList ∧ id ≠ noOpTransactionId

theorem not_plain : ¬Plain id ↔ ':' ∈ id.toList ∨ id = noOpTransactionId := by
  unfold Plain
  tauto

theorem mem_settling_of_plain (hid : Plain id) (hentry : entry ∈ w.submitted)
    (howner : entry.1.owner = some id) (hlt : entry.2 < max counts.preconfirmed counts.latest)
    (hnonce : entry.2 ∈ confirmed.map (·.nonce)) : entry ∈ w.settling confirmed counts := by
  refine mem_settling.mpr ⟨hentry, ?_, hlt, hnonce⟩
  unfold Row.Readable
  rw [transactionId_of_owner howner]
  exact hid.1

theorem mem_removed {e : Evidence} {rows : List (Row × ℕ)} {row : Row} :
    row ∈ e.removed rows ↔ ∃ y ∈ rows, e.Reaches y.2 ∧ e.Removes y.1 y.2 ∧ y.1.hydrated = row := by
  unfold Evidence.removed
  simp only [List.mem_map, List.mem_filter, decide_eq_true_eq]
  tauto

theorem mem_removed_of_owner (hw : w.Regular) (hentry : entry ∈ w.submitted)
    (howner : entry.1.owner = some id) :
    entry.1 ∈ (w.evidence confirmed counts).removed (w.settling confirmed counts) ↔
      Plain id ∧ entry ∈ w.settling confirmed counts ∧
        (w.evidence confirmed counts).Removes entry.1 entry.2 := by
  have hid := transactionId_of_owner howner
  rw [mem_removed]
  constructor
  · rintro ⟨y, hy, -, hrem, hrow⟩
    have hnoop : y.1.transactionId ≠ noOpTransactionId := by
      intro hnoop
      rw [Row.hydrated, if_pos hnoop] at hrow
      rw [← hrow] at howner
      cases howner
    rw [hydrated_eq hnoop] at hrow
    have hy' := mem_settling.mp hy
    obtain rfl : y = entry := by
      refine Prod.ext hrow (value_unique hw.distinct (k := entry.1) ?_ hentry)
      rw [← hrow]
      exact hy'.1
    refine ⟨⟨?_, hid ▸ hnoop⟩, hy, hrem⟩
    have hread := hy'.2.1
    unfold Row.Readable at hread
    rwa [hid] at hread
  · rintro ⟨hplain, hin, hrem⟩
    exact ⟨entry, hin, reaches_iff.mpr (mem_settling.mp hin).2.2.1, hrem,
      hydrated_eq (hid ▸ hplain.2)⟩

theorem ofId_noop : (w.evidence confirmed counts).ofId noOpTransactionId = none := by
  unfold Evidence.ofId
  rw [List.find?_eq_none]
  simp

theorem removes_noop {row : Row} (h : row.transactionId = noOpTransactionId) :
    (w.evidence confirmed counts).Removes row n ↔
      n ∈ (w.evidence confirmed counts).noncesWithReceipts := by
  unfold Evidence.Removes
  rw [h, ofId_noop, if_pos rfl]
  simp

theorem mem_removed_noop (hw : w.Regular) {hash : String} (hentry : (.noop hash, n) ∈ w.submitted) :
    .noop hash ∈ (w.evidence confirmed counts).removed (w.settling confirmed counts) ↔
      n ∈ (w.evidence confirmed counts).noncesWithReceipts := by
  rw [mem_removed]
  constructor
  · rintro ⟨y, hy, -, hrem, hrow⟩
    have hnoop : y.1.transactionId = noOpTransactionId := by
      by_contra hnoop
      rw [hydrated_eq hnoop] at hrow
      exact hnoop (hrow ▸ rfl)
    rw [Row.hydrated, if_pos hnoop] at hrow
    have hsame : y.2 = n := hw.hash y (mem_settling.mp hy).1 _ hentry (Row.noop.inj hrow)
    rw [← hsame]
    exact (removes_noop hnoop).mp hrem
  · intro hn
    obtain ⟨y, hy, hyn, -⟩ := (mem_noncesWithReceipts hw).mp hn
    obtain ⟨-, -, hlt, hnonce⟩ := mem_settling.mp hy
    rw [hyn] at hlt hnonce
    have hread : ':' ∉ noOpTransactionId.toList := by decide
    exact ⟨(.noop hash, n), mem_settling.mpr ⟨hentry, hread, hlt, hnonce⟩, reaches_iff.mpr hlt,
      (removes_noop rfl).mpr hn, rfl⟩

/-! ## Completions and replacements -/

theorem mem_completions {status : Status} :
    (id, status) ∈ w.completions confirmed counts ↔ id ≠ noOpTransactionId ∧
      ∃ c, (w.evidence confirmed counts).ofId id = some c ∧
        status = if c.receipt.status then .confirmed else .failed := by
  unfold completions
  rw [List.mem_filterMap]
  constructor
  · rintro ⟨y, hy, hdone⟩
    unfold Evidence.completion at hdone
    split_ifs at hdone with hnoop
    obtain ⟨c, hc, heq⟩ := Option.map_eq_some_iff.mp hdone
    obtain ⟨rfl, rfl⟩ := Prod.mk.inj heq
    exact ⟨hnoop, c, hc, rfl⟩
  · rintro ⟨hid, c, hc, rfl⟩
    obtain ⟨y, hy, howner, -⟩ := (ofId_isSome hid).mp (Option.isSome_of_eq_some hc)
    obtain ⟨first, hfirst, hsame⟩ := exists_firsts hy
      (reaches_iff.mpr (mem_settling.mp hy).2.2.1) (List.not_mem_nil (a := y.1.transactionId))
    rw [transactionId_of_owner howner] at hsame
    refine ⟨first, hfirst, ?_⟩
    rw [Evidence.completion, hsame, if_neg hid, hc]
    rfl

theorem mem_replacements (hw : w.Regular) : id ∈ w.replacements confirmed counts ↔
    id ≠ noOpTransactionId ∧ (w.evidence confirmed counts).ofId id = none ∧
      ∃ y ∈ w.settling confirmed counts, y.1.owner = some id ∧
        (w.evidence confirmed counts).Replaces y.2 := by
  unfold replacements
  simp only [List.mem_map, List.mem_filterMap]
  constructor
  · rintro ⟨x, ⟨y, hy, hmoved⟩, rfl⟩
    unfold Evidence.replacement at hmoved
    split_ifs at hmoved with hcond
    obtain rfl := Option.some.inj hmoved
    obtain ⟨hid, hnone, hrep⟩ := hcond
    exact ⟨hid, Option.isNone_iff_eq_none.mp hnone, y, (mem_firsts hy).1, owner_eq hid, hrep⟩
  · rintro ⟨hid, hnone, y, hy, howner, hrep⟩
    obtain ⟨first, hfirst, hsame⟩ := exists_firsts hy
      (reaches_iff.mpr (mem_settling.mp hy).2.2.1) (List.not_mem_nil (a := y.1.transactionId))
    rw [transactionId_of_owner howner] at hsame
    have hin := (mem_settling.mp (mem_firsts hfirst).1).1
    have hfirstowner : first.1.owner = some id := by rw [owner_eq (hsame ▸ hid), hsame]
    have hn : first.2 = y.2 := hw.nonce id _ _ ⟨first.1, hin, hfirstowner⟩
      ⟨y.1, (mem_settling.mp hy).1, howner⟩
    refine ⟨(id, first.1.queuedAt), ⟨first, hfirst, ?_⟩, rfl⟩
    rw [Evidence.replacement, hsame, hn, if_pos ⟨hid, Option.isNone_iff_eq_none.mpr hnone, hrep⟩]

theorem filterMap_fst_sublist {α β γ : Type} {f : α → Option (β × γ)} {g : α → β}
    (h : ∀ x y, f x = some y → y.1 = g x) (l : List α) :
    ((l.filterMap f).map Prod.fst).Sublist (l.map g) := by
  induction l with
  | nil => exact List.Sublist.slnil
  | cons x l ih =>
    rw [List.filterMap_cons, List.map_cons]
    cases hx : f x with
    | none => exact ih.cons _
    | some y =>
      rw [List.map_cons, h x y hx]
      exact ih.cons_cons _

theorem nodup_completions : ((w.completions confirmed counts).map Prod.fst).Nodup := by
  refine (nodup_firsts _ [] _).sublist (filterMap_fst_sublist (fun x y hxy => ?_) _)
  unfold Evidence.completion at hxy
  split_ifs at hxy
  obtain ⟨c, -, rfl⟩ := Option.map_eq_some_iff.mp hxy
  rfl

theorem nodup_replacements : (w.replacements confirmed counts).Nodup := by
  refine (nodup_firsts _ [] _).sublist (filterMap_fst_sublist (fun x y hxy => ?_) _)
  unfold Evidence.replacement at hxy
  split_ifs at hxy
  obtain rfl := Option.some.inj hxy
  rfl

/-! ## The wallet after a cleanup -/

theorem foldl_complete_ne {cs : List (String × Status)} (h : id ∉ cs.map Prod.fst)
    (records : String → Option Record) : cs.foldl complete records id = records id := by
  induction cs generalizing records with
  | nil => rfl
  | cons c cs ih =>
    rw [List.map_cons, List.mem_cons, not_or] at h
    rw [List.foldl_cons, ih h.2, complete, Function.update_of_ne h.1]

theorem foldl_complete_status {cs : List (String × Status)} (hnodup : (cs.map Prod.fst).Nodup)
    {status : Status} (h : (id, status) ∈ cs) (records : String → Option Record) :
    (cs.foldl complete records id).bind (·.status) = some status := by
  induction cs generalizing records with
  | nil => cases h
  | cons c cs ih =>
    rw [List.map_cons, List.nodup_cons] at hnodup
    rw [List.foldl_cons]
    rcases List.mem_cons.mp h with rfl | h
    · rw [foldl_complete_ne hnodup.1, complete, Function.update_self]
      rfl
    · exact ih hnodup.2 h _

theorem foldl_complete_userRequest (cs : List (String × Status))
    (records : String → Option Record) :
    (cs.foldl complete records id).bind (·.userRequest) = (records id).bind (·.userRequest) := by
  induction cs generalizing records with
  | nil => rfl
  | cons c cs ih =>
    rw [List.foldl_cons, ih]
    unfold complete
    by_cases h : id = c.1
    · rw [h, Function.update_self]
      cases records c.1 <;> rfl
    · rw [Function.update_of_ne h]

theorem foldl_row_sublist (e : Evidence) (rows : List (Row × ℕ)) (a : Cleanup) :
    (rows.foldl (Cleanup.row e) a).wallet.submitted.Sublist a.wallet.submitted := by
  induction rows generalizing a with
  | nil => exact List.Sublist.refl _
  | cons entry rows ih =>
    rw [List.foldl_cons]
    refine (ih _).trans ?_
    rw [(row_eq e a entry).2.2.2]
    split_ifs
    · exact List.filter_sublist
    · exact List.Sublist.refl _

theorem cleanSubmitted_eq (h : w.cleanSubmitted confirmed counts = .ok w') :
    (∀ c ∈ confirmed, c.Matches) ∧
    (w.receiptRows confirmed counts).length ≤ cleanupGroupBudget ∧
    (∀ entry ∈ w.settling confirmed counts, entry.1.transactionId ≠ noOpTransactionId →
      ((w.records entry.1.transactionId).bind (·.userRequest)).isSome) ∧
    w' = w.cleaned (w.evidence confirmed counts) (w.settling confirmed counts) := by
  unfold cleanSubmitted at h
  simp only [bind_ok, pure_ok] at h
  obtain ⟨_, hmatch, _, hbudget, _, hrequest, rfl⟩ := h
  exact ⟨demand_ok.mp hmatch, demand_ok.mp hbudget, demand_ok.mp hrequest, rfl⟩

theorem cleaned_records (e : Evidence) (rows : List (Row × ℕ)) : (w.cleaned e rows).records
    = ((e.firsts [] rows).filterMap e.completion).foldl complete w.records :=
  (foldl_row e rows { wallet := w }).2

theorem mem_keys_zaddAll_iff {es : List (String × ℕ)} {z : List (String × ℕ)} :
    id ∈ keys (es.foldl (fun z e => zadd z e.1 e.2) z) ↔ id ∈ keys z ∨ id ∈ es.map Prod.fst := by
  induction es generalizing z with
  | nil => simp
  | cons x es ih =>
    rw [List.foldl_cons, ih, mem_keys_zadd, List.map_cons, List.mem_cons]
    tauto

theorem mem_keys_cleaned_pending :
    id ∈ keys (w.cleaned (w.evidence confirmed counts) (w.settling confirmed counts)).pending ↔
      id ∈ keys w.pending ∨ id ∈ w.replacements confirmed counts := by
  have hpending := (Cleaning.rows (w := w) (w.evidence confirmed counts)
    (w.settling confirmed counts)).pending
  have hreplaced := (foldl_row (w.evidence confirmed counts) (w.settling confirmed counts)
    { wallet := w }).1
  unfold cleaned replacements
  dsimp only
  rw [mem_keys_zaddAll_iff, hpending, hreplaced]
  rfl

theorem cleaned_idle {e : Evidence} (hconfirmed : e.confirmed = [])
    (hnonces : e.noncesWithReceipts = []) (rows : List (Row × ℕ)) : w.cleaned e rows = w := by
  have hof : ∀ id, e.ofId id = none := by
    intro id
    unfold Evidence.ofId
    rw [hconfirmed]
    rfl
  have hrep : ∀ n, ¬e.Replaces n := by
    intro n h
    have hn := h.2
    rw [hnonces] at hn
    cases hn
  have hrow : ∀ a entry, (Cleanup.row e a entry).wallet = a.wallet ∧
      (Cleanup.row e a entry).replaced = a.replaced := by
    intro a entry
    have hrem : ¬e.Removes entry.1 entry.2 := by
      unfold Evidence.Removes
      rw [hof, hnonces]
      simp [hrep]
    have hout : a.outcome e entry.1 entry.2 = a := by
      unfold Cleanup.outcome
      simp [hof, hrep]
    unfold Cleanup.row
    rw [hout]
    split_ifs <;> exact ⟨rfl, rfl⟩
  have hfold : ∀ a, (rows.foldl (Cleanup.row e) a).wallet = a.wallet ∧
      (rows.foldl (Cleanup.row e) a).replaced = a.replaced := by
    induction rows with
    | nil => exact fun a => ⟨rfl, rfl⟩
    | cons entry rows ih =>
      intro a
      rw [List.foldl_cons, (ih _).1, (ih _).2]
      exact hrow a entry
  unfold cleaned
  dsimp only
  rw [(hfold _).1, (hfold _).2]
  rfl

/-! ## Partition -/

theorem HasReceipt.nonce (h : w.HasReceipt confirmed entry) :
    entry.2 ∈ confirmed.map (·.nonce) := by
  obtain ⟨-, c, hc, hfits⟩ := h
  exact List.mem_map.mpr ⟨c, hc, hfits.2.2.symm⟩

theorem plain_of_settling (h : entry ∈ w.settling confirmed counts)
    (howner : entry.1.owner = some id) (hid : id ≠ noOpTransactionId) : Plain id := by
  have hread := (mem_settling.mp h).2.1
  unfold Row.Readable at hread
  rw [transactionId_of_owner howner] at hread
  exact ⟨hread, hid⟩

theorem plain_of_completions (h : id ∈ (w.completions confirmed counts).map Prod.fst) :
    Plain id := by
  obtain ⟨⟨i, status⟩, hmem, rfl⟩ := List.mem_map.mp h
  obtain ⟨hid, c, hc, -⟩ := mem_completions.mp hmem
  obtain ⟨y, hy, howner, -⟩ := (ofId_isSome hid).mp (Option.isSome_of_eq_some hc)
  exact plain_of_settling hy howner hid

theorem plain_of_replacements (hw : w.Regular) (h : id ∈ w.replacements confirmed counts) :
    Plain id := by
  obtain ⟨hid, -, y, hy, howner, -⟩ := (mem_replacements hw).mp h
  exact plain_of_settling hy howner hid

theorem Legible.settling (hl : w.Legible confirmed counts) (h : w.HasReceipt confirmed entry)
    (hlt : entry.2 < max counts.preconfirmed counts.latest) :
    entry ∈ w.settling confirmed counts := by
  cases howner : entry.1.owner with
  | none =>
    refine mem_settling.mpr ⟨h.1, ?_, hlt, h.nonce⟩
    obtain ⟨row, n⟩ := entry
    cases row with
    | real => cases howner
    | noop hash => exact (by decide : ':' ∉ noOpTransactionId.toList)
  | some id =>
    have hplain : Plain id := by
      by_contra hnot
      exact absurd ((hl entry h.1 id howner (not_plain.mp hnot)).1 h) (Nat.not_le.mpr hlt)
    exact mem_settling_of_plain hplain h.1 howner hlt h.nonce

theorem Legible.settledAt (hl : w.Legible confirmed counts) (hw : w.Regular) :
    n ∈ (w.evidence confirmed counts).noncesWithReceipts ↔
      n < max counts.preconfirmed counts.latest ∧ w.SettledAt confirmed n := by
  rw [mem_noncesWithReceipts hw]
  constructor
  · rintro ⟨y, hy, rfl, hfits⟩
    obtain ⟨hin, -, hlt, -⟩ := mem_settling.mp hy
    exact ⟨hlt, y, ⟨hin, hfits⟩, rfl⟩
  · rintro ⟨hlt, y, hy, rfl⟩
    exact ⟨y, hl.settling hy hlt, rfl, hy.2⟩

theorem removes_plain (hid : id ≠ noOpTransactionId) (howner : entry.1.owner = some id) :
    (w.evidence confirmed counts).Removes entry.1 entry.2 ↔
      ((w.evidence confirmed counts).ofId id).isSome ∨
        (w.evidence confirmed counts).Replaces entry.2 := by
  unfold Evidence.Removes
  rw [transactionId_of_owner howner, if_neg hid]

section Cleared

variable (hw : w.Regular)
  (hc : w.Cleared (w.evidence confirmed counts) (w.settling confirmed counts) w')

include hw hc

theorem mem_submitted_of_owner (hentry : entry ∈ w.submitted) (howner : entry.1.owner = some id) :
    entry ∈ w'.submitted ↔ ¬(Plain id ∧ entry ∈ w.settling confirmed counts ∧
      (((w.evidence confirmed counts).ofId id).isSome ∨
        (w.evidence confirmed counts).Replaces entry.2)) := by
  rw [hc.submitted, mem_removed_of_owner hw hentry howner]
  constructor
  · rintro ⟨-, hnot⟩ ⟨hplain, hin, hrem⟩
    exact hnot ⟨hplain, hin, (removes_plain hplain.2 howner).mpr hrem⟩
  · intro hnot
    refine ⟨hentry, ?_⟩
    rintro ⟨hplain, hin, hrem⟩
    exact hnot ⟨hplain, hin, (removes_plain hplain.2 howner).mp hrem⟩

theorem not_owns (hplain : Plain id) (hin : entry ∈ w.settling confirmed counts)
    (howner : entry.1.owner = some id)
    (hrem : ((w.evidence confirmed counts).ofId id).isSome ∨
      (w.evidence confirmed counts).Replaces entry.2) (n : ℕ) : ¬w'.Owns id n := by
  rintro ⟨row, hrow, hrowner⟩
  have hold := ((hc.submitted _).mp hrow).1
  obtain ⟨hentry, -, hlt, hnonce⟩ := mem_settling.mp hin
  obtain rfl : n = entry.2 := hw.nonce id _ _ ⟨row, hold, hrowner⟩ ⟨entry.1, hentry, howner⟩
  refine (mem_submitted_of_owner hw hc hold hrowner).mp hrow ⟨hplain, ?_, hrem⟩
  exact mem_settling_of_plain hplain hold hrowner hlt hnonce

theorem partition_one (hid : w.Owns id n) :
    id ∈ (w.completions confirmed counts).map Prod.fst ∧ id ∉ w.replacements confirmed counts ∧
      ¬w'.Owns id n ∨
    id ∉ (w.completions confirmed counts).map Prod.fst ∧ id ∈ w.replacements confirmed counts ∧
      ¬w'.Owns id n ∨
    id ∉ (w.completions confirmed counts).map Prod.fst ∧ id ∉ w.replacements confirmed counts ∧
      w'.Owns id n := by
  obtain ⟨row, hrow, howner⟩ := hid
  have hstays := mem_submitted_of_owner hw hc hrow howner
  by_cases hplain : Plain id
  · cases hof : (w.evidence confirmed counts).ofId id with
    | some c =>
      obtain ⟨y, hy, hyowner, -⟩ := (ofId_isSome hplain.2).mp (Option.isSome_of_eq_some hof)
      refine .inl ⟨List.mem_map.mpr ⟨_, mem_completions.mpr ⟨hplain.2, c, hof, rfl⟩, rfl⟩,
        fun hmoved => ?_, not_owns hw hc hplain hy hyowner (.inl (by rw [hof]; rfl)) n⟩
      have hnone := ((mem_replacements hw).mp hmoved).2.1
      rw [hof] at hnone
      cases hnone
    | none =>
      have hdone : id ∉ (w.completions confirmed counts).map Prod.fst := by
        intro hin
        obtain ⟨⟨i, status⟩, hmem, rfl⟩ := List.mem_map.mp hin
        obtain ⟨-, c, hsome, -⟩ := mem_completions.mp hmem
        exact absurd (hof.symm.trans hsome) (Option.some_ne_none c).symm
      by_cases hmoved : id ∈ w.replacements confirmed counts
      · obtain ⟨-, -, y, hy, hyowner, hrep⟩ := (mem_replacements hw).mp hmoved
        exact .inr (.inl ⟨hdone, hmoved, not_owns hw hc hplain hy hyowner (.inr hrep) n⟩)
      · refine .inr (.inr ⟨hdone, hmoved, row, hstays.mpr ?_, howner⟩)
        rintro ⟨-, hin, hrem⟩
        rw [hof] at hrem
        have hrep := hrem.resolve_left Bool.false_ne_true
        exact hmoved ((mem_replacements hw).mpr ⟨hplain.2, hof, (row, n), hin, howner, hrep⟩)
  · exact .inr (.inr ⟨fun hin => hplain (plain_of_completions hin),
      fun hin => hplain (plain_of_replacements hw hin), row,
      hstays.mpr fun hrem => hplain hrem.1, howner⟩)

theorem Legible.completed (hl : w.Legible confirmed counts) (h : w.HasReceipt confirmed entry)
    (howner : entry.1.owner = some id) (hlt : entry.2 < max counts.preconfirmed counts.latest) :
    Plain id ∧ ∃ c, w.ownReceipt confirmed id = some c ∧
      (w.evidence confirmed counts).ofId id = some c ∧ ¬w'.Owns id entry.2 := by
  have hin := hl.settling h hlt
  have hplain : Plain id := by
    by_contra hnot
    exact absurd ((hl entry h.1 id howner (not_plain.mp hnot)).1 h) (Nat.not_le.mpr hlt)
  obtain ⟨c, hof⟩ := Option.isSome_iff_exists.mp
    ((ofId_isSome hplain.2).mpr ⟨entry, hin, howner, h.2⟩)
  have hown : (w.evidence confirmed counts).ofId id = w.ownReceipt confirmed id := by
    refine ofId_eq_ownReceipt hplain.2 fun y hy hyowner hnonce => ?_
    have hsame : y.2 = entry.2 := hw.nonce id _ _ ⟨y.1, hy, hyowner⟩ ⟨entry.1, h.1, howner⟩
    exact mem_settling_of_plain hplain hy hyowner (hsame ▸ hlt) hnonce
  exact ⟨hplain, c, hown ▸ hof, hof,
    not_owns hw hc hplain hin howner (.inl (Option.isSome_of_eq_some hof)) entry.2⟩

theorem Legible.replaced (hl : w.Legible confirmed counts) (hid : w.Owns id n)
    (hnone : ∀ entry, w.HasReceipt confirmed entry → entry.1.owner ≠ some id) :
    (w.replacements confirmed counts).count id = 1 ∧ ¬w'.Owns id n ↔
      n < counts.latest ∧ w.SettledAt confirmed n := by
  obtain ⟨row, hrow, howner⟩ := hid
  constructor
  · rintro ⟨hcount, -⟩
    have hmoved : id ∈ w.replacements confirmed counts :=
      List.count_pos_iff.mp (by rw [hcount]; exact Nat.one_pos)
    obtain ⟨-, -, y, hy, hyowner, hrep⟩ := (mem_replacements hw).mp hmoved
    obtain rfl : y.2 = n := hw.nonce id _ _ ⟨y.1, (mem_settling.mp hy).1, hyowner⟩
      ⟨row, hrow, howner⟩
    exact ⟨hrep.1, ((hl.settledAt hw).mp hrep.2).2⟩
  · rintro ⟨hlt, hsettled⟩
    have hplain : Plain id := by
      by_contra hnot
      exact absurd ((hl (row, n) hrow id howner (not_plain.mp hnot)).2 hsettled)
        (Nat.not_le.mpr hlt)
    have hof : (w.evidence confirmed counts).ofId id = none := by
      rw [← Option.not_isSome_iff_eq_none, ofId_isSome hplain.2]
      rintro ⟨y, hy, hyowner, hfits⟩
      exact hnone y ⟨(mem_settling.mp hy).1, hfits⟩ hyowner
    have hmax : n < max counts.preconfirmed counts.latest := by omega
    have hin : (row, n) ∈ w.settling confirmed counts := by
      obtain ⟨y, hy, rfl⟩ := hsettled
      exact mem_settling_of_plain hplain hrow howner hmax hy.nonce
    have hrep : (w.evidence confirmed counts).Replaces n :=
      ⟨hlt, (hl.settledAt hw).mpr ⟨hmax, hsettled⟩⟩
    have hmoved := (mem_replacements hw).mpr ⟨hplain.2, hof, (row, n), hin, howner, hrep⟩
    exact ⟨List.count_eq_one_of_mem nodup_replacements hmoved,
      not_owns hw hc hplain hin howner (.inr hrep) n⟩

theorem Legible.unsettled (hl : w.Legible confirmed counts) (h : w'.HasReceipt confirmed entry) :
    max counts.preconfirmed counts.latest ≤ entry.2 := by
  obtain ⟨hold, hnot⟩ := (hc.submitted _).mp h.1
  by_contra hlt
  rw [Nat.not_le] at hlt
  have hreceipt : w.HasReceipt confirmed entry := ⟨hold, h.2⟩
  cases howner : entry.1.owner with
  | some id =>
    obtain ⟨-, -, -, -, hgone⟩ := hl.completed hw hc hreceipt howner hlt
    exact hgone ⟨entry.1, h.1, howner⟩
  | none =>
    obtain ⟨row, n⟩ := entry
    cases row with
    | real => cases howner
    | noop hash =>
      exact hnot ((mem_removed_noop hw hold).mpr
        ((hl.settledAt hw).mpr ⟨hlt, _, hreceipt, rfl⟩))

end Cleared

theorem Legible.again (hw : w.Regular) (hl : w.Legible confirmed counts)
    (hok : w.cleanSubmitted confirmed counts = .ok w') :
    w'.cleanSubmitted confirmed counts = .ok w' := by
  have hc : w.Cleared (w.evidence confirmed counts) (w.settling confirmed counts) w' :=
    cleanSubmitted_ok hok
  obtain ⟨hmatch, hbudget, hrequest, heq⟩ := cleanSubmitted_eq hok
  have hsub : w'.submitted.Sublist w.submitted := by
    rw [heq]
    exact foldl_row_sublist _ _ { wallet := w }
  have hnone : (w'.evidence confirmed counts).confirmed = [] := by
    refine List.filter_eq_nil_iff.mpr fun c hcin hfound => ?_
    obtain ⟨y, hy, hfits⟩ := of_decide_eq_true hfound
    obtain ⟨hin, -, hlt, -⟩ := mem_settling.mp hy
    exact absurd (hl.unsettled hw hc ⟨hin, c, hcin, hfits⟩) (Nat.not_le.mpr hlt)
  have hnonces : (w'.evidence confirmed counts).noncesWithReceipts = [] := by
    have hret := hnone
    unfold evidence Evidence.ofRows at hret ⊢
    dsimp only at hret ⊢
    rw [hret]
    simp
  have hbudget' : (w'.receiptRows confirmed counts).length ≤ cleanupGroupBudget := by
    refine Nat.le_trans ?_ hbudget
    unfold receiptRows
    rw [List.length_insertionSort, List.length_insertionSort]
    exact (hsub.filter _).length_le
  have hrequest' : ∀ entry ∈ w'.settling confirmed counts,
      entry.1.transactionId ≠ noOpTransactionId →
      ((w'.records entry.1.transactionId).bind (·.userRequest)).isSome := by
    intro y hy hid
    obtain ⟨hin, hrest⟩ := mem_settling.mp hy
    have hrecord := hrequest y (mem_settling.mpr ⟨hsub.subset hin, hrest⟩) hid
    rw [heq, cleaned_records, foldl_complete_userRequest]
    exact hrecord
  unfold cleanSubmitted
  simp only [bind_ok, pure_ok]
  exact ⟨(), demand_ok.mpr hmatch, (), demand_ok.mpr hbudget', (), demand_ok.mpr hrequest',
    cleaned_idle hnone hnonces _⟩

/-- **Partition of a cleanup.** A cleanup completes the ids with a receipt, moves the replaced ones
back, leaves the rest and is done at once, exactly if the rows it has to settle are legible. -/
theorem partition_iff (hw : w.Regular) (hok : w.cleanSubmitted confirmed counts = .ok w') :
    w.Partition confirmed counts w' ↔ w.Legible confirmed counts := by
  have hc : w.Cleared (w.evidence confirmed counts) (w.settling confirmed counts) w' :=
    cleanSubmitted_ok hok
  have heq := (cleanSubmitted_eq hok).2.2.2
  constructor
  · intro h entry hentry id howner hodd
    have hnot : ¬Plain id := not_plain.mpr hodd
    have hreceipt : ∀ own, w.HasReceipt confirmed own → own.1.owner = some id →
        max counts.preconfirmed counts.latest ≤ own.2 := by
      intro own hown howner'
      by_contra hlt
      obtain ⟨c, -, hdone, -⟩ := h.completed own id hown howner' (Nat.not_le.mp hlt)
      exact hnot (plain_of_completions (List.mem_map.mpr ⟨_, hdone, rfl⟩))
    refine ⟨fun hown => hreceipt entry hown howner, fun hsettled => ?_⟩
    by_contra hlt
    rw [Nat.not_le] at hlt
    have hnone : ∀ own, w.HasReceipt confirmed own → own.1.owner ≠ some id := by
      intro own hown howner'
      have hsame : own.2 = entry.2 := hw.nonce id _ _ ⟨own.1, hown.1, howner'⟩
        ⟨entry.1, hentry, howner⟩
      have := hreceipt own hown howner'
      omega
    obtain ⟨hcount, -⟩ := (h.replaced id entry.2 ⟨entry.1, hentry, howner⟩ hnone).mpr
      ⟨hlt, hsettled⟩
    exact hnot (plain_of_replacements hw
      (List.count_pos_iff.mp (by rw [hcount]; exact Nat.one_pos)))
  · intro hl
    refine ⟨fun entry id hown howner hlt => ?_, fun id n hid hnone => hl.replaced hw hc hid hnone,
      fun hash n hentry => ?_, fun entry hentry id howner hreceipt hreplaced => ?_,
      fun entry hentry => ((hc.submitted _).mp hentry).1, fun id n hid => partition_one hw hc hid,
      fun id => heq ▸ mem_keys_cleaned_pending, hl.again hw hok⟩
    · obtain ⟨hplain, c, hown, hof, hgone⟩ := hl.completed hw hc hown howner hlt
      have hdone := mem_completions.mpr ⟨hplain.2, c, hof, rfl⟩
      refine ⟨c, hown, hdone, List.count_eq_one_of_mem nodup_completions
        (List.mem_map.mpr ⟨_, hdone, rfl⟩), ?_, hgone, fun hmoved => ?_⟩
      · rw [heq, cleaned_records]
        exact foldl_complete_status nodup_completions hdone _
      · have hnone := ((mem_replacements hw).mp hmoved).2.1
        exact absurd (hof.symm.trans hnone) (Option.some_ne_none c)
    · rw [hc.submitted, ← hl.settledAt hw, ← mem_removed_noop hw hentry]
      tauto
    · refine (mem_submitted_of_owner hw hc hentry howner).mpr ?_
      rintro ⟨hplain, hin, hof | hrep⟩
      · obtain ⟨y, hy, hyowner, hfits⟩ := (ofId_isSome hplain.2).mp hof
        obtain ⟨hyin, -, hlt, -⟩ := mem_settling.mp hy
        exact hreceipt ⟨y, ⟨hyin, hfits⟩, hyowner, hlt⟩
      · refine hreplaced ⟨fun own hown howner' => hreceipt ⟨own, hown, howner', ?_⟩, hrep.1,
          ((hl.settledAt hw).mp hrep.2).2⟩
        have hsame : own.2 = entry.2 := hw.nonce id _ _ ⟨own.1, hown.1, howner'⟩
          ⟨entry.1, hentry, howner⟩
        rw [hsame]
        exact (mem_settling.mp hin).2.2.1

theorem eq_ok_of_toOption {x : Except StoreError Wallet} (h : x.toOption = some w) : x = .ok w := by
  cases x with
  | error e => cases h
  | ok w' => exact congrArg Except.ok (Option.some.inj h)

theorem regular_of_nonce (h : (keys w.submitted).Nodup) (hn : ∀ entry ∈ w.submitted, entry.2 = n) :
    w.Regular := by
  refine ⟨h, ?_, fun x hx y hy _ => (hn x hx).trans (hn y hy).symm⟩
  rintro id m m' ⟨row, hrow, -⟩ ⟨row', hrow', -⟩
  exact (hn _ hrow).trans (hn _ hrow').symm

end Wallet

namespace Cleanup.Sample

def record : Record := ⟨some "request", some .submitted, false⟩

def receiptOf (id : String) : ConfirmedTransaction :=
  ⟨5, "0xa", id, ⟨"0xa", some 9, some "0xb", true⟩, ⟨9, "0xb", 9⟩⟩

/-- Two transactions and a noop at nonce 5. -/
def contested : Wallet where
  submitted := [(.real "0xa" "x" 1 2, 5), (.real "0xc" "y" 3 4, 5), (.noop "0xd", 5)]
  records := fun _ => some record

def colon : Wallet where
  submitted := [(.real "0xa" "a:b" 1 2, 5)]
  records := fun _ => some record

theorem contested_ok : ((contested.cleanSubmitted [receiptOf "x"] ⟨6, 6⟩).toOption.map
    fun w => (w.submitted, keys w.pending)) = some ([], ["y"]) := by decide +kernel

theorem colon_ok : ((colon.cleanSubmitted [receiptOf "a:b"] ⟨6, 6⟩).toOption.map
    fun w => w.submitted) = some [(.real "0xa" "a:b" 1 2, 5)] := by decide +kernel

theorem contested_legible : contested.Legible [receiptOf "x"] ⟨6, 6⟩ := by
  intro entry hentry id howner hodd
  have hids : ∀ entry ∈ contested.submitted, ':' ∉ entry.1.transactionId.toList ∧
      (entry.1.owner.isSome → entry.1.transactionId ≠ noOpTransactionId) := by decide
  obtain ⟨hcolon, hnoop⟩ := hids entry hentry
  rw [Wallet.transactionId_of_owner howner] at hcolon hnoop
  exact absurd hodd (not_or.mpr ⟨hcolon, hnoop (by rw [howner]; rfl)⟩)

end Cleanup.Sample

namespace Wallet

open Cleanup.Sample

theorem partition_iff_contested : ∃ w', contested.cleanSubmitted [receiptOf "x"] ⟨6, 6⟩ = .ok w' ∧
    contested.Partition [receiptOf "x"] ⟨6, 6⟩ w' ∧ w'.submitted = [] ∧ keys w'.pending = ["y"] := by
  obtain ⟨w', hok, hend⟩ := Option.map_eq_some_iff.mp contested_ok
  have hok := eq_ok_of_toOption hok
  have hw : contested.Regular := regular_of_nonce (n := 5) (by decide) (by decide)
  obtain ⟨hsubmitted, hpending⟩ := Prod.mk.inj hend
  exact ⟨w', hok, (partition_iff hw hok).mpr contested_legible, hsubmitted, hpending⟩

/-- A transaction with a receipt below the counts that is neither completed nor removed. -/
theorem colon_unsettled : ∃ w', colon.cleanSubmitted [receiptOf "a:b"] ⟨6, 6⟩ = .ok w' ∧
    colon.Regular ∧ colon.HasReceipt [receiptOf "a:b"] (.real "0xa" "a:b" 1 2, 5) ∧
    colon.completions [receiptOf "a:b"] ⟨6, 6⟩ = [] ∧ w'.Owns "a:b" 5 ∧
    ¬colon.Partition [receiptOf "a:b"] ⟨6, 6⟩ w' := by
  obtain ⟨w', hok, hend⟩ := Option.map_eq_some_iff.mp colon_ok
  have hok := eq_ok_of_toOption hok
  have hw : colon.Regular := regular_of_nonce (n := 5) (by decide) (by decide)
  have hreceipt : colon.HasReceipt [receiptOf "a:b"] (.real "0xa" "a:b" 1 2, 5) :=
    ⟨by decide, _, List.mem_singleton_self _, by decide⟩
  have howns : w'.Owns "a:b" 5 := ⟨.real "0xa" "a:b" 1 2, by rw [hend]; decide, rfl⟩
  refine ⟨w', hok, hw, hreceipt, by decide +kernel, howns, fun h => ?_⟩
  obtain ⟨-, -, -, -, -, hgone, -⟩ := h.completed _ "a:b" hreceipt rfl (by decide)
  exact hgone howns

end Wallet

end EngineCore.Eoa
