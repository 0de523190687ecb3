import EngineCore.Eoa.Store
import EngineCore.Lib.Hex
import EngineCore.Lib.Ranks
import EngineCore.Recovery.Keys

/-!
# Rows of the submitted set

How a submitted transaction is written into the sorted set of its wallet and read back, and the page
of rows that a confirm cycle looks at.

* `Submitted.toRedisString`, `fromRedisStrings`: the text of a row and its parser;
* `hydrateAllSubmitted`: the parsed rows with their requests, where the reserved id is a noop;
* **`row_lossless_iff`**: of the ids that admission accepts, those without a colon that are not the
  reserved one are read back as they were written;
* `getSubmittedTransactionPage`: a page of ranks that wraps around, and the next offset;
* **`page_fair`**: a page has as many distinct rows as it may, and one turn of pages has them all.
-/

namespace EngineCore.Eoa

open Redis Twmq Recovery

/-! ## Texts -/

def Submitted.toRedisString (s : Submitted) : String × ℕ := (s.row.text, s.nonce)

/-- One entry of `from_redis_strings`. Three fields are of an older format. -/
def fromRedisString (entry : String × ℕ) : Option Submitted :=
  match fields entry.1 with
  | [hash, id, queuedAt] => (parseU64 queuedAt).map fun queuedAt => ⟨entry.2, hash, id, 0, queuedAt⟩
  | [hash, id, queuedAt, submittedAt] =>
    (parseU64 queuedAt).bind fun queuedAt => (parseU64 submittedAt).map fun submittedAt =>
      ⟨entry.2, hash, id, submittedAt, queuedAt⟩
  | _ => none

def fromRedisStrings (entries : List (String × ℕ)) : List Submitted :=
  entries.filterMap fromRedisString

/-- `SubmittedTransactionHydrated`. -/
inductive Hydrated
  | noop (nonce : ℕ) (transactionHash : String)
  | real (data : Submitted) (userRequest : String)
  deriving DecidableEq, Repr

def Submitted.hydrate (w : Wallet) (s : Submitted) : Except StoreError Hydrated :=
  if s.transactionId = noOpTransactionId then .ok (.noop s.nonce s.transactionHash)
  else
    match (w.records s.transactionId).bind (·.userRequest) with
    | some request => .ok (.real s request)
    | none => .error (.redisError "Response was of incompatible type")

def hydrateAllSubmitted (w : Wallet) (rows : List Submitted) : Except StoreError (List Hydrated) :=
  rows.mapM (Submitted.hydrate w)

/-! ## Round trip -/

theorem colon_notMem_hex (bytes : List UInt8) : ':' ∉ (Hex.text bytes).toList := by
  have hdigit : ∀ n < 16, Nat.digitChar n ≠ ':' := by decide
  have hbyte : ∀ b : UInt8, b.toNat / 16 < 16 := fun b => by
    have := b.toNat_lt
    omega
  intro h
  simp only [Hex.text, Hex.encode, String.toList_append, List.mem_append, String.toList_ofList,
    List.mem_flatMap, List.mem_cons, List.not_mem_nil, or_false] at h
  rcases h with h | ⟨b, -, h | h⟩
  · exact absurd h (by decide)
  · exact hdigit _ (hbyte b) h.symm
  · exact hdigit _ (Nat.mod_lt _ (by decide)) h.symm

theorem toList_text (hash id : String) (queuedAt submittedAt : ℕ) :
    (Row.real hash id queuedAt submittedAt).text.toList
      = hash.toList ++ ':' :: (id.toList ++ ':' ::
        ((toString queuedAt).toList ++ ':' :: (toString submittedAt).toList)) := by
  have hself : ∀ s : String, toString s = s := fun _ => rfl
  have hcolon : ":".toList = [':'] := rfl
  simp only [Row.text, hself, String.toList_append, hcolon, List.append_assoc, List.cons_append,
    List.nil_append]

theorem length_splitColon (cs : List Char) : (splitColon cs).length = cs.count ':' + 1 := by
  induction cs with
  | nil => rfl
  | cons c cs ih =>
    unfold splitColon
    by_cases hc : c = ':'
    · rw [if_pos hc, List.length_cons, ih, hc, List.count_cons_self]
    · rw [if_neg hc, List.count_cons_of_ne hc]
      cases hcs : splitColon cs with
      | nil =>
        rw [hcs, List.length_nil] at ih
        omega
      | cons f fs =>
        rw [hcs] at ih
        exact ih

theorem fromRedisString_real {hash id : String} {queuedAt submittedAt : ℕ} (nonce : ℕ)
    (hhash : ':' ∉ hash.toList) (hid : ':' ∉ id.toList) (hq : queuedAt < 2 ^ 64)
    (hs : submittedAt < 2 ^ 64) :
    fromRedisString ((Row.real hash id queuedAt submittedAt).text, nonce)
      = some ⟨nonce, hash, id, submittedAt, queuedAt⟩ := by
  have hfields : fields (Row.real hash id queuedAt submittedAt).text
      = [hash, id, toString queuedAt, toString submittedAt] := by
    unfold fields
    rw [toList_text, splitColon_append _ hhash, splitColon_append _ hid,
      splitColon_append _ (colon_notMem_toString _), splitColon_of_notMem (colon_notMem_toString _)]
    simp only [List.map_cons, List.map_nil, String.ofList_toList]
  unfold fromRedisString
  rw [hfields]
  simp only [parseU64_toString hq, parseU64_toString hs, Option.bind_some, Option.map_some]

theorem fromRedisString_colon {hash id : String} {queuedAt submittedAt nonce : ℕ}
    (hid : ':' ∈ id.toList) :
    fromRedisString ((Row.real hash id queuedAt submittedAt).text, nonce) = none := by
  have hcount : 0 < id.toList.count ':' := List.count_pos_iff.mpr hid
  have hlen : 4 < (fields (Row.real hash id queuedAt submittedAt).text).length := by
    unfold fields
    rw [List.length_map, length_splitColon, toList_text]
    simp only [List.count_append, List.count_cons_self]
    omega
  unfold fromRedisString
  dsimp only
  split
  · next hfields => rw [hfields] at hlen; simp at hlen
  · next hfields => rw [hfields] at hlen; simp at hlen
  · rfl

theorem readable_iff_fromRedisString {row : Row} {nonce : ℕ} (hhash : ':' ∉ row.hash.toList)
    (hq : row.queuedAt < 2 ^ 64) (hs : ∀ hash id queuedAt submittedAt,
      row = .real hash id queuedAt submittedAt → submittedAt < 2 ^ 64) :
    row.Readable ↔ (fromRedisString (row.text, nonce)).isSome := by
  cases row with
  | noop hash =>
    have hread : ':' ∉ noOpTransactionId.toList := by decide
    have htext : (Row.noop hash).text = (Row.real hash noOpTransactionId 0 0).text := by
      have hself : ∀ s : String, toString s = s := fun _ => rfl
      simp [Row.text, hself, ← String.toList_inj]
    change ':' ∉ hash.toList at hhash
    rw [htext, fromRedisString_real nonce hhash hread (Nat.two_pow_pos 64) (Nat.two_pow_pos 64)]
    simp [Row.Readable, Row.transactionId, hread]
  | real hash id queuedAt submittedAt =>
    by_cases hid : ':' ∈ id.toList
    · rw [fromRedisString_colon hid]
      simp [Row.Readable, Row.transactionId, hid]
    · simp only [Row.hash, Row.queuedAt] at hhash hq
      rw [fromRedisString_real nonce hhash hid hq (hs _ _ _ _ rfl)]
      simp [Row.Readable, Row.transactionId, hid]

theorem readable_plain :
    (Row.real "0xa" "x" 1 3).Readable ↔ (fromRedisString ((Row.real "0xa" "x" 1 3).text, 7)).isSome :=
  readable_iff_fromRedisString (by decide) (by decide) (by rintro _ _ _ _ ⟨⟩; decide)

theorem append_colon_inj {a a' b b' : List Char} (ha : ':' ∉ a) (ha' : ':' ∉ a')
    (h : a ++ ':' :: b = a' ++ ':' :: b') : a = a' ∧ b = b' := by
  have hsplit := congrArg splitColon h
  rw [splitColon_append _ ha, splitColon_append _ ha'] at hsplit
  obtain rfl := (List.cons.inj hsplit).1
  rw [List.append_cancel_left_eq, List.cons.injEq] at h
  exact ⟨rfl, h.2⟩

theorem append_colon_inj_right {a a' b b' : List Char} (hb : ':' ∉ b) (hb' : ':' ∉ b')
    (h : a ++ ':' :: b = a' ++ ':' :: b') : a = a' ∧ b = b' := by
  have hback := congrArg List.reverse h
  simp only [List.reverse_append, List.reverse_cons, List.append_assoc, List.cons_append,
    List.nil_append] at hback
  have hsame := append_colon_inj (fun hm => hb (List.mem_reverse.mp hm))
    (fun hm => hb' (List.mem_reverse.mp hm)) hback
  exact ⟨List.reverse_injective hsame.2, List.reverse_injective hsame.1⟩

theorem text_injective_id {hash hash' id id' : String} {q q' s s' : ℕ}
    (hhash : ':' ∉ hash.toList) (hhash' : ':' ∉ hash'.toList)
    (h : (Row.real hash id q s).text = (Row.real hash' id' q' s').text) : id = id' := by
  have h := congrArg String.toList h
  rw [toList_text, toList_text] at h
  have hrest := (append_colon_inj hhash hhash' h).2
  -- the times are what follows the last two colons
  have hsplit : ∀ (cs : List Char) (q s : ℕ),
      cs ++ ':' :: ((toString q).toList ++ ':' :: (toString s).toList)
        = (cs ++ ':' :: (toString q).toList) ++ ':' :: (toString s).toList := by
    intro cs q s
    rw [List.append_assoc, List.cons_append]
  rw [hsplit, hsplit] at hrest
  have hleft := (append_colon_inj_right (colon_notMem_toString s) (colon_notMem_toString s')
    hrest).1
  have hid := (append_colon_inj_right (colon_notMem_toString q) (colon_notMem_toString q')
    hleft).1
  exact String.toList_inj.mp hid

/-- What the store relies on: the row is read back as it was written and with every set of rows it
is in, no other transaction has its text, and it is not taken for a noop. -/
structure Lossless (s : Submitted) : Prop where
  decodes : fromRedisString s.toRedisString = some s
  kept : ∀ entries, s.toRedisString ∈ entries → s ∈ fromRedisStrings entries
  apart : ∀ (s' : Submitted) (hash : List UInt8), s'.transactionHash = Hex.text hash →
    s'.transactionId ≠ s.transactionId → s'.toRedisString.1 ≠ s.toRedisString.1
  user : ∀ w hydrated, hydrateAllSubmitted w [s] = .ok hydrated → ∀ n hash, .noop n hash ∉ hydrated

/-- **The codec of a row.** A row is lossless exactly if its id has no colon and is not reserved. -/
theorem row_lossless_iff (id : String) (hash : List UInt8) (nonce : ℕ) {queuedAt submittedAt : ℕ}
    (hq : queuedAt < 2 ^ 64) (hs : submittedAt < 2 ^ 64) :
    Lossless ⟨nonce, Hex.text hash, id, submittedAt, queuedAt⟩ ↔
      ':' ∉ id.toList ∧ id ≠ noOpTransactionId := by
  have hhash := colon_notMem_hex hash
  constructor
  · intro h
    refine ⟨fun hcolon => ?_, fun hnoop => ?_⟩
    · have hnone : (none : Option Submitted) = some _ :=
        (fromRedisString_colon hcolon).symm.trans h.decodes
      cases hnone
    · refine h.user {} [.noop nonce (Hex.text hash)] ?_ nonce (Hex.text hash) (by simp)
      simp [hydrateAllSubmitted, Submitted.hydrate, hnoop, pure, Except.pure, bind, Except.bind]
  · rintro ⟨hcolon, hnoop⟩
    have hdecodes := fromRedisString_real nonce hhash hcolon hq hs
    refine ⟨hdecodes, fun entries hmem => ?_, fun s' hash' hhash' hne heq => ?_,
      fun w hydrated hok n h hmem => ?_⟩
    · exact List.mem_filterMap.mpr ⟨_, hmem, hdecodes⟩
    · exact hne (text_injective_id (hhash' ▸ colon_notMem_hex hash') hhash heq)
    · cases hrequest : (w.records id).bind (·.userRequest) with
      | none =>
        simp [hydrateAllSubmitted, Submitted.hydrate, hnoop, hrequest, bind, Except.bind] at hok
      | some request =>
        simp only [hydrateAllSubmitted, Submitted.hydrate, hnoop, hrequest, List.mapM_cons,
          List.mapM_nil, if_false, bind, Except.bind, pure, Except.pure, Except.ok.injEq] at hok
        rw [← hok] at hmem
        simp at hmem

theorem row_lossless_plain : Lossless ⟨7, Hex.text [1, 2], "tx-1", 4, 3⟩ :=
  (row_lossless_iff "tx-1" [1, 2] 7 (by decide) (by decide)).mpr (by decide)

/-- Two ids that admission accepts: a row that is dropped, and a row that becomes a noop. -/
theorem row_lost : identity "eoa" "a:b" = .ok .eoa ∧
    fromRedisStrings [(⟨7, Hex.text [1, 2], "a:b", 4, 3⟩ : Submitted).toRedisString] = [] ∧
    identity "eoa" "noop" = .ok .eoa ∧
    hydrateAllSubmitted {} (fromRedisStrings
      [(⟨7, Hex.text [1, 2], "noop", 4, 3⟩ : Submitted).toRedisString])
        = .ok [.noop 7 (Hex.text [1, 2])] := by
  decide +kernel

/-! ## Pages -/

/-- The script of a page, with the offset and the limit it is called with. -/
def pageScript (z : ZSet String) (count offset limit : ℕ) : List (String × ℕ) × ℕ :=
  let eligible := z.count count
  if eligible = 0 then ([], 0)
  else
    let first := offset % eligible
    let take := min limit eligible
    let head := min take (eligible - first)
    let rows := z.range first (first + head - 1)
    (if head < take then rows ++ z.range 0 (take - head - 1) else rows, (first + take) % eligible)

/-- An offset that a script cannot read as an integer starts again. -/
def scanOffset (offset : ℕ) : ℕ := if offset ≤ 2 ^ 53 - 1 then offset else 0

def getSubmittedTransactionPage (z : ZSet String) (count offset limit : ℕ) : List Submitted × ℕ :=
  if count = 0 ∨ limit = 0 then ([], 0)
  else
    let page := pageScript z count (scanOffset offset) (min limit 4096)
    (fromRedisStrings page.1, page.2)

/-- So many calls, each with the offset that the one before returned. -/
def pages (z : ZSet String) (count limit : ℕ) : ℕ → ℕ → List Submitted
  | 0, _ => []
  | calls + 1, offset =>
    let page := getSubmittedTransactionPage z count offset limit
    page.1 ++ pages z count limit calls page.2

section Pages

variable {z : ZSet String} {count offset limit : ℕ}

theorem pageScript_eq (h : z.count count ≠ 0) (hlimit : 0 < limit) :
    pageScript z count offset limit = (window (z.below count) offset limit,
      (offset % z.count count + min limit (z.count count)) % z.count count) := by
  have hfirst : offset % z.count count < z.count count := Nat.mod_lt _ (Nat.pos_of_ne_zero h)
  have hlen : (z.below count).length = z.count count := rfl
  rw [← window_min, ← window_mod, hlen, window_eq_append hfirst (by omega), hlen]
  unfold pageScript
  rw [if_neg h]
  dsimp only
  generalize offset % z.count count = first at hfirst
  generalize htake : min limit (z.count count) = take
  have htake : 0 < take ∧ take ≤ z.count count := by omega
  rw [z.range_eq count first _ (by omega) (by omega)]
  split_ifs with hwrap
  · have htail := z.range_eq count 0 (take - min take (z.count count - first)) (by omega)
      (by omega)
    rw [Nat.zero_add, List.drop_zero] at htail
    rw [htail]
  · have hnone : take - min take (z.count count - first) = 0 := by omega
    rw [hnone, List.take_zero, List.append_nil]

theorem getSubmittedTransactionPage_eq (hcount : z.count count ≠ 0) (hlimit : 0 < limit) :
    getSubmittedTransactionPage z count offset limit
      = (fromRedisStrings (window (z.below count) (scanOffset offset) (min limit 4096)),
        (scanOffset offset % z.count count + min (min limit 4096) (z.count count))
          % z.count count) := by
  have hpos : count ≠ 0 := by
    rintro rfl
    exact hcount (by simp [ZSet.count, ZSet.below])
  unfold getSubmittedTransactionPage
  rw [if_neg (by omega), pageScript_eq hcount (by omega)]

theorem getSubmittedTransactionPage_none (h : z.count count = 0 ∨ limit = 0) :
    getSubmittedTransactionPage z count offset limit = ([], 0) := by
  unfold getSubmittedTransactionPage
  split_ifs with hnone
  · rfl
  · have hzero : z.count count = 0 := h.resolve_right fun hlimit => hnone (.inr hlimit)
    unfold pageScript
    rw [if_pos hzero]
    rfl

theorem mem_pages (hcount : z.count count ≠ 0) (hlimit : 0 < limit) {calls i : ℕ} (hi : i < calls)
    {offset : ℕ} {s : Submitted} (hs : s ∈ fromRedisStrings (window (z.below count)
      (scanOffset offset + i * min (min limit 4096) (z.count count)) (min limit 4096))) :
    s ∈ pages z count limit calls offset := by
  induction calls generalizing offset i with
  | zero => exact absurd hi (Nat.not_lt_zero i)
  | succ calls ih =>
    unfold pages
    dsimp only
    rw [getSubmittedTransactionPage_eq hcount hlimit, List.mem_append]
    generalize hsize : min (min limit 4096) (z.count count) = size at hs ih
    cases i with
    | zero =>
      rw [Nat.zero_mul, Nat.add_zero] at hs
      exact .inl hs
    | succ i =>
      refine .inr (ih (Nat.lt_of_succ_lt_succ hi) ?_)
      have hnext : (scanOffset offset % z.count count + size) % z.count count < z.count count :=
        Nat.mod_lt _ (Nat.pos_of_ne_zero hcount)
      have hsmall := z.count_lt count
      rw [scanOffset, if_pos (by omega)]
      have hsame : ((scanOffset offset % z.count count + size) % z.count count + i * size)
          % z.count count = (scanOffset offset + (i + 1) * size) % z.count count := by
        rw [Nat.mod_add_mod, Nat.add_assoc, Nat.mod_add_mod, Nat.add_mul, Nat.one_mul,
          Nat.add_comm size]
      rw [window_congr (l := z.below count) hsame]
      exact hs

theorem map_some_fromRedisStrings {entries : List (String × ℕ)}
    (h : ∀ entry ∈ entries, (fromRedisString entry).isSome) :
    (fromRedisStrings entries).map some = entries.map fromRedisString := by
  induction entries with
  | nil => rfl
  | cons entry entries ih =>
    obtain ⟨s, hs⟩ := Option.isSome_iff_exists.mp (h entry List.mem_cons_self)
    have hrest := ih fun e he => h e (List.mem_cons_of_mem _ he)
    unfold fromRedisStrings at hrest ⊢
    rw [List.filterMap_cons_some hs, List.map_cons, hrest, List.map_cons, hs]

theorem nonce_fromRedisString {entry : String × ℕ} {s : Submitted}
    (h : fromRedisString entry = some s) : s.nonce = entry.2 := by
  unfold fromRedisString at h
  split at h
  · obtain ⟨_, -, rfl⟩ := Option.map_eq_some_iff.mp h
    rfl
  · obtain ⟨_, -, h⟩ := Option.bind_eq_some_iff.mp h
    obtain ⟨_, -, rfl⟩ := Option.map_eq_some_iff.mp h
    rfl
  · cases h

theorem exists_members (z : ZSet String) (count offset limit : ℕ) :
    ∃ members, (getSubmittedTransactionPage z count offset limit).1 = fromRedisStrings members ∧
      members.Nodup ∧ members ⊆ z.below count ∧
      members.length = min (min limit 4096) (z.count count) := by
  by_cases h : z.count count = 0 ∨ limit = 0
  · refine ⟨[], ?_, List.nodup_nil, List.nil_subset _, ?_⟩
    · rw [getSubmittedTransactionPage_none h]
      rfl
    · rw [List.length_nil]
      omega
  · rw [not_or] at h
    rw [getSubmittedTransactionPage_eq h.1 (Nat.pos_of_ne_zero h.2)]
    exact ⟨_, rfl, nodup_window (z.nodup_below count), window_subset, length_window _ _ _⟩

theorem le_turns {rows size : ℕ} (hrows : 0 < rows) (hsize : 0 < size) :
    rows ≤ (rows + size - 1) / size * min size rows := by
  have hsplit := Nat.div_add_mod' (rows + size - 1) size
  have hrest := Nat.mod_lt (rows + size - 1) hsize
  rcases Nat.le_total size rows with hle | hle
  · rw [Nat.min_eq_left hle]
    omega
  · rw [Nat.min_eq_right hle]
    exact Nat.le_mul_of_pos_left rows (Nat.div_pos (by omega) hsize)

/-- **Pages are fair.** A page shows distinct members with nonces under the count, as many as it
may, and the next offset is in range; one turn of pages, from any offset, shows every row. -/
theorem page_fair (z : ZSet String) (hwell : ∀ entry ∈ z.entries, (fromRedisString entry).isSome)
    (count offset limit : ℕ) :
    (∃ members : List (String × ℕ), members.Nodup ∧ members ⊆ z.entries ∧
      (getSubmittedTransactionPage z count offset limit).1.map some
        = members.map fromRedisString) ∧
    ((∀ a ∈ z.entries, ∀ b ∈ z.entries, fromRedisString a = fromRedisString b → a = b) →
      (getSubmittedTransactionPage z count offset limit).1.Nodup) ∧
    (getSubmittedTransactionPage z count offset limit).1.length
      = min (min limit 4096) (z.count count) ∧
    (∀ s ∈ (getSubmittedTransactionPage z count offset limit).1, s.nonce < count) ∧
    ((getSubmittedTransactionPage z count offset limit).2 < z.count count ∨
      (getSubmittedTransactionPage z count offset limit).2 = 0) ∧
    (0 < limit → ∀ entry ∈ z.entries, entry.2 < count → ∀ s, fromRedisString entry = some s →
      s ∈ pages z count limit ((z.count count + min limit 4096 - 1) / min limit 4096) offset) := by
  obtain ⟨members, hrows, hnodup, hsub, hlen⟩ := exists_members z count offset limit
  have hin : members ⊆ z.entries := fun e he => (List.mem_filter.mp (hsub he)).1
  have hmap := map_some_fromRedisStrings fun entry he => hwell entry (hin he)
  rw [hrows]
  refine ⟨⟨members, hnodup, hin, hmap⟩, fun hinj => ?_, ?_, fun s hs => ?_, ?_,
    fun hlimit entry hentry hlt s hs => ?_⟩
  · refine List.Nodup.of_map some ?_
    rw [hmap]
    exact hnodup.map_on fun a ha b hb heq => hinj a (hin ha) b (hin hb) heq
  · rw [← hlen, ← List.length_map (f := some), hmap, List.length_map]
  · obtain ⟨entry, hentry, hparse⟩ := List.mem_filterMap.mp hs
    rw [nonce_fromRedisString hparse]
    simpa [ZSet.below] using (List.mem_filter.mp (hsub hentry)).2
  · by_cases h : z.count count = 0 ∨ limit = 0
    · rw [getSubmittedTransactionPage_none h]
      exact .inr rfl
    · rw [not_or] at h
      rw [getSubmittedTransactionPage_eq h.1 (Nat.pos_of_ne_zero h.2)]
      exact .inl (Nat.mod_lt _ (Nat.pos_of_ne_zero h.1))
  · have hmem : entry ∈ z.below count := List.mem_filter.mpr ⟨hentry, by simpa using hlt⟩
    have hcount : 0 < z.count count := List.length_pos_of_mem hmem
    have hsize : 0 < min (min limit 4096) (z.count count) := by omega
    obtain ⟨i, hi, hwindow⟩ := exists_mem_window hmem (scanOffset offset) hsize
      (le_turns hcount (by omega))
    refine mem_pages (Nat.ne_of_gt hcount) hlimit hi (List.mem_filterMap.mpr ⟨entry, ?_, hs⟩)
    have hmin := window_min (z.below count)
      (scanOffset offset + i * min (min limit 4096) (z.count count)) (min limit 4096)
    exact hmin ▸ hwindow

/-- Three rows, two of them under nonce 7. -/
def threeRows : ZSet String where
  entries := [("0x01:a:1:2", 5), ("0x02:b:1:2", 6), ("0x03:c:1:2", 7)]
  distinct := by decide
  ordered := by
    unfold Before
    decide
  bounded := by decide

theorem page_fair_turn : threeRows.count 7 = 2 ∧ ⟨5, "0x01", "a", 2, 1⟩ ∈
    pages threeRows 7 1 ((threeRows.count 7 + min 1 4096 - 1) / min 1 4096) 9 :=
  ⟨by decide, (page_fair threeRows (by decide +kernel) 7 9 1).2.2.2.2.2 (by decide)
    ("0x01:a:1:2", 5) (by decide) (by decide) _ (by decide +kernel)⟩

end Pages

end EngineCore.Eoa
