import EngineCore.Recovery.Json
import EngineCore.Twmq.Queue

/-!
# Bounded error records

A failed attempt leaves an error record for inspection. It is serialized into a writer that takes
a write as a whole or refuses it; a record that is refused leaves a marker in its place.

* **`encodeRecord_bounded`**: the complete record or the marker, however the writes are split.
-/

namespace EngineCore.Twmq

def maxJobErrorRecordBytes : ℕ := 16 * 1024

/-! ## Records -/

/-- `JobErrorType`: the delay of a retry is in nanoseconds. -/
inductive JobErrorType
  | nack (delay : Option ℕ) (position : Position)
  | fail

structure JobErrorRecord (ε : Type) where
  error : ε
  attempt : ℕ
  details : JobErrorType
  createdAt : ℕ

def Position.text : Position → String
  | .first => "first"
  | .last => "last"

def JobErrorType.toJson : JobErrorType → Json
  | .nack delay position =>
    .obj [("nack", .obj [("delay", delay.elim .null fun d =>
      .obj [("secs", .num (.nat (d / 10 ^ 9))), ("nanos", .num (.nat (d % 10 ^ 9)))]),
      ("position", .str position.text)])]
  | .fail => .str "fail"

def utf8 (s : String) : List UInt8 := s.toByteArray.data.toList

section Records

variable {ε : Type}

/-- The whole serialization, given that of the handler's error. -/
def JobErrorRecord.serialize (encode : ε → List UInt8) (r : JobErrorRecord ε) : List UInt8 :=
  utf8 "\x7b\"error\":" ++ encode r.error ++
    utf8 (",\"attempt\":" ++ toString r.attempt ++ ",\"details\":" ++ r.details.toJson.render ++
      ",\"created_at\":" ++ toString r.createdAt ++ "\x7d")

/-- What is stored for a record over the limit. The keys of a value are sorted. -/
def JobErrorRecord.omitted (r : JobErrorRecord ε) : Json :=
  .obj [("attempt", .num (.nat r.attempt)), ("created_at", .num (.nat r.createdAt)),
    ("details", r.details.toJson.sort),
    ("diagnosticOmitted", .obj [("maxSerializedBytes", .num (.nat maxJobErrorRecordBytes)),
      ("reason", .str "serialized_record_exceeds_limit")])]

/-! ## The writer -/

structure LimitedWriter where
  bytes : List UInt8 := []
  exceeded : Bool := false

/-- The bytes are all taken, or none of them. -/
def LimitedWriter.write (w : LimitedWriter) (bytes : List UInt8) :
    Except String ℕ × LimitedWriter :=
  if maxJobErrorRecordBytes - w.bytes.length < bytes.length then
    (.error "job diagnostic size limit exceeded", { w with exceeded := true })
  else (.ok bytes.length, { w with bytes := w.bytes ++ bytes })

/-- A serializer's successive writes; it stops at the first refused one, and may end with an error
of its own. -/
def toWriter (finish : Except String Unit) :
    List (List UInt8) → LimitedWriter → Except String Unit × LimitedWriter
  | [], w => (finish, w)
  | chunk :: chunks, w =>
    if (w.write chunk).1.isOk then toWriter finish chunks (w.write chunk).2
    else ((w.write chunk).1.map fun _ => (), (w.write chunk).2)

def encodeRecord (chunks : List (List UInt8)) (finish : Except String Unit)
    (r : JobErrorRecord ε) : Except String (List UInt8) :=
  let out := toWriter finish chunks {}
  if ¬out.1.isOk ∧ out.2.exceeded then .ok (utf8 r.omitted.render)
  else out.1.map fun _ => out.2.bytes

/-! ## Writes -/

variable {w : LimitedWriter} {chunk : List UInt8} {finish : Except String Unit}

theorem write_fits (h : w.bytes.length + chunk.length ≤ maxJobErrorRecordBytes) :
    w.write chunk = (.ok chunk.length, { w with bytes := w.bytes ++ chunk }) :=
  if_neg (by omega)

theorem write_exceeds (hw : w.bytes.length ≤ maxJobErrorRecordBytes)
    (h : maxJobErrorRecordBytes < w.bytes.length + chunk.length) :
    w.write chunk = (.error "job diagnostic size limit exceeded", { w with exceeded := true }) :=
  if_pos (by omega)

theorem length_write (hw : w.bytes.length ≤ maxJobErrorRecordBytes) (chunk : List UInt8) :
    (w.write chunk).2.bytes.length ≤ maxJobErrorRecordBytes := by
  by_cases hfit : w.bytes.length + chunk.length ≤ maxJobErrorRecordBytes
  · rw [write_fits hfit, List.length_append]
    exact hfit
  · rw [write_exceeds hw (by omega)]
    exact hw

/-- **The writer never holds more than the limit.** -/
theorem length_toWriter (h : w.bytes.length ≤ maxJobErrorRecordBytes)
    (chunks : List (List UInt8)) :
    (toWriter finish chunks w).2.bytes.length ≤ maxJobErrorRecordBytes := by
  induction chunks generalizing w with
  | nil => exact h
  | cons chunk chunks ih =>
    rw [toWriter]
    split_ifs
    · exact ih (length_write h chunk)
    · exact length_write h chunk

theorem toWriter_fits {chunks : List (List UInt8)}
    (h : w.bytes.length + chunks.flatten.length ≤ maxJobErrorRecordBytes) :
    toWriter finish chunks w = (finish, { w with bytes := w.bytes ++ chunks.flatten }) := by
  induction chunks generalizing w with
  | nil => simp [toWriter]
  | cons chunk chunks ih =>
    rw [List.flatten_cons, List.length_append] at h
    have hrest : ({ w with bytes := w.bytes ++ chunk } : LimitedWriter).bytes.length
        + chunks.flatten.length ≤ maxJobErrorRecordBytes := by
      simp only [List.length_append]
      omega
    have hstep : toWriter finish (chunk :: chunks) w
        = toWriter finish chunks { w with bytes := w.bytes ++ chunk } := by
      rw [toWriter, write_fits (by omega)]
      rfl
    rw [hstep, ih hrest, List.flatten_cons, List.append_assoc]

/-- The write that passes the limit is refused, whichever it is. -/
theorem toWriter_exceeds {chunks : List (List UInt8)}
    (hw : w.bytes.length ≤ maxJobErrorRecordBytes)
    (h : maxJobErrorRecordBytes < w.bytes.length + chunks.flatten.length) :
    (toWriter finish chunks w).1.isOk = false ∧ (toWriter finish chunks w).2.exceeded = true := by
  induction chunks generalizing w with
  | nil =>
    simp only [List.flatten_nil, List.length_nil] at h
    omega
  | cons chunk chunks ih =>
    rw [List.flatten_cons, List.length_append] at h
    by_cases hfit : w.bytes.length + chunk.length ≤ maxJobErrorRecordBytes
    · rw [toWriter, write_fits hfit]
      refine ih ?_ ?_ <;> simp only [List.length_append] <;> omega
    · rw [toWriter, write_exceeds hw (by omega)]
      exact ⟨rfl, rfl⟩

/-! ## Encoded records -/

theorem encodeRecord_eq (chunks : List (List UInt8)) (finish : Except String Unit)
    (r : JobErrorRecord ε) :
    encodeRecord chunks finish r =
      if chunks.flatten.length ≤ maxJobErrorRecordBytes then finish.map fun _ => chunks.flatten
      else .ok (utf8 r.omitted.render) := by
  unfold encodeRecord
  split_ifs with hfit
  · rw [toWriter_fits (w := {}) (by simpa using hfit)]
    simp
  · obtain ⟨hfail, hmark⟩ := @toWriter_exceeds {} finish chunks (by simp) (by simpa using hfit)
    simp [hfail, hmark]

theorem utf8_append (a b : String) : utf8 (a ++ b) = utf8 a ++ utf8 b := by
  simp [utf8]

/-- The serialization starts with the error, the marker with the attempt. -/
theorem omitted_not_prefix (encode : ε → List UInt8) (r : JobErrorRecord ε) :
    ¬utf8 r.omitted.render <+: r.serialize encode := by
  obtain ⟨rest, hrest⟩ : ∃ rest, r.omitted.render = "\x7b\"attempt\":" ++ rest := by
    simp only [JobErrorRecord.omitted, Json.render, Json.renderFields,
      String.intercalate_cons_cons, String.append_assoc]
    rw [← String.append_assoc, ← String.append_assoc,
      show "\x7b" ++ Json.renderStr "attempt" ++ ":" = "\x7b\"attempt\":" by decide]
    exact ⟨_, rfl⟩
  rw [hrest, utf8_append, JobErrorRecord.serialize, List.append_assoc,
    show utf8 "\x7b\"attempt\":" = [123, 34, 97, 116, 116, 101, 109, 112, 116, 34, 58] by decide,
    show utf8 "\x7b\"error\":" = [123, 34, 101, 114, 114, 111, 114, 34, 58] by decide]
  simp

/-- **A record is stored whole or not at all.** However the serialization is split into writes, the
stored text is the serialization where it is within the limit, and otherwise the marker, which is
no part of it; and after every write the writer is within the limit. -/
theorem encodeRecord_bounded (encode : ε → List UInt8) (r : JobErrorRecord ε)
    (chunks : List (List UInt8)) (hchunks : chunks.flatten = r.serialize encode) :
    (encodeRecord chunks (.ok ()) r = .ok (if (r.serialize encode).length ≤ maxJobErrorRecordBytes
      then r.serialize encode else utf8 r.omitted.render)) ∧
    ¬utf8 r.omitted.render <+: r.serialize encode ∧
    ∀ n, (toWriter (.ok ()) (chunks.take n) {}).2.bytes.length ≤ maxJobErrorRecordBytes := by
  refine ⟨?_, omitted_not_prefix encode r, fun n => length_toWriter (by simp) _⟩
  rw [encodeRecord_eq, hchunks]
  split_ifs <;> rfl

theorem encodeRecord_bounded_short :
    encodeRecord [utf8 "\x7b\"error\":null,", utf8 "\"attempt\":1,\"details\":\"fail\",",
      utf8 "\"created_at\":5\x7d"] (.ok ()) ⟨(), 1, .fail, 5⟩
      = .ok (utf8 "\x7b\"error\":null,\"attempt\":1,\"details\":\"fail\",\"created_at\":5\x7d") :=
  (encodeRecord_bounded (fun _ => utf8 "null") ⟨(), 1, .fail, 5⟩ _ (by decide +kernel)).1.trans
    (by decide +kernel)

end Records

end EngineCore.Twmq
