import SquealDb.Codec.LogRecord
import SquealDb.Codec.ValueBytes

/-!
# Scanning the log

`frame_record`, `frame_is_complete_and_valid` and `scan_log` of `logger.rs`: each record
stands behind its length and a checksum, and a scan stops at what a torn write leaves but
refuses a damaged record that a complete one follows.

A slice out of bounds and a subtraction below zero panic, here the outcome `none`; so does
a scan that runs out of rounds.
-/

namespace SquealDb.Codec

open Lib

/-! ## The frames -/

def fnv1a32 (bytes : List UInt8) : UInt32 :=
  bytes.foldl (fun h b => (h ^^^ b.toUInt32) * 0x01000193) 0x811c9dc5

def frameHeaderLen : Nat := 8

/-- A frame with a given length and checksum in its header. -/
def frameWith (len checksum : Nat) (payload : List UInt8) : List UInt8 :=
  leBytes 4 len ++ (leBytes 4 checksum ++ payload)

def frameRecord (payload : List UInt8) : List UInt8 :=
  frameWith payload.length (fnv1a32 payload).toNat payload

/-- Subtraction, which panics below zero. -/
def lessBy (a b : Nat) : Option Nat := if b ≤ a then some (a - b) else none

def frameIsCompleteAndValid (buf : List UInt8) : Option Bool :=
  if buf.length < frameHeaderLen then some false else do
    let len ← word 4 buf 0
    let checksum ← word 4 buf 4
    let room ← lessBy buf.length frameHeaderLen
    if room < len then some false else do
      let payload ← getRange buf frameHeaderLen (frameHeaderLen + len)
      some (decide ((fnv1a32 payload).toNat = checksum))

/-! ## The scan -/

/-- The errors of a scan: `LogCorruption`, `LogHeaderMismatch`, and the store's others. -/
inductive LogError where
  | logCorruption (text : String)
  | logHeaderMismatch (text : String)
  | store (e : StoreError)
  deriving DecidableEq, Repr

def currentLogVersion : UInt16 := 2

def unreadableV1Wal : LogError :=
  .logHeaderMismatch ("WAL format version 1 predates the framing rewrite and has no decoder " ++
    "in this build; recreate the database (an old database is not migrated)")

def unsupportedVersion (typeName : String) (version : UInt16) : LogError :=
  .store (.corruption ("unsupported " ++ typeName ++ " version " ++ toString version.toNat ++
    " — this file may have been written by a newer, deprecated, or unrecognized build"))

/-- `decode_log_record`; bytes behind the record are not looked at. -/
def decodeLogRecord (version : UInt16) (payload : List UInt8) : Except LogError LogRecord :=
  if version = 1 then .error unreadableV1Wal
  else if version = 2 then
    match Postcard.takeLogRecord payload 0 with
    | some (r, _) => .ok r
    | none => .error (.store .serializationError)
  else .error (unsupportedVersion "WAL record" version)

/-- A number as `:#x` prints it. -/
def hex (n : Nat) : String := "0x" ++ String.ofList (Nat.toDigits 16 n)

/-- The text of `LogCorruption`. -/
def checksumMismatch (pos stored computed : Nat) : LogError :=
  .logCorruption ("checksum mismatch at byte offset " ++ toString pos ++ " (stored " ++
    hex stored ++ ", computed " ++ hex computed ++ ") — a complete, valid record follows it, " ++
    "so this is not a torn tail from an in-progress write; the log is corrupted")

/-- What the loop of `scan_log` finds at a position. -/
inductive ScanStep where
  | stop
  | corrupt (e : LogError)
  | payload (bytes : List UInt8) (next : Nat)
  deriving DecidableEq, Repr

/-- One round of the loop of `scan_log`, up to the record's decoding. -/
def scanAt (buf : List UInt8) (pos : Nat) : Option ScanStep := do
  let room ← lessBy buf.length pos
  if room < frameHeaderLen then some .stop else do
    let len ← word 4 buf pos
    let checksum ← word 4 buf (pos + 4)
    let payloadStart := pos + frameHeaderLen
    let room ← lessBy buf.length payloadStart
    if room < len then some .stop else do
      let payload ← getRange buf payloadStart (payloadStart + len)
      let actual := (fnv1a32 payload).toNat
      if actual = checksum then some (.payload payload (payloadStart + len)) else do
        let behind ← getRange buf (payloadStart + len) buf.length
        let valid ← frameIsCompleteAndValid behind
        some (if valid then .corrupt (checksumMismatch pos checksum actual) else .stop)

/-- The loop of `scan_log`, with the rounds it may still make. -/
def scanLoop (version : UInt16) (buf : List UInt8) :
    Nat → List LogRecord → Nat → Option (Except LogError (List LogRecord))
  | 0, _, _ => none
  | fuel + 1, records, pos =>
    (scanAt buf pos).bind fun
      | .stop => some (.ok records)
      | .corrupt e => some (.error e)
      | .payload payload next =>
        match decodeLogRecord version payload with
        | .ok r => scanLoop version buf fuel (records ++ [r]) next
        | .error e => some (.error e)

def scanLog (version : UInt16) (buf : List UInt8) : Option (Except LogError (List LogRecord)) :=
  scanLoop version buf (buf.length + 1) [] 0

/-! ## A scan ends -/

theorem lessBy_eq {a b : Nat} (h : b ≤ a) : lessBy a b = some (a - b) := if_pos h

theorem exists_getRange {bytes : List UInt8} {start stop : Nat} (h : start ≤ stop)
    (hstop : stop ≤ bytes.length) : ∃ content, getRange bytes start stop = some content :=
  ⟨_, if_pos ⟨h, hstop⟩⟩

theorem exists_word (n : Nat) {bytes : List UInt8} {index : Nat} (h : index + n ≤ bytes.length) :
    ∃ w, word n bytes index = some w := by
  obtain ⟨content, hcontent⟩ := exists_getRange (Nat.le_add_right index n) h
  exact ⟨ofLe content, by rw [word, hcontent]; rfl⟩

theorem frameIsCompleteAndValid_total (buf : List UInt8) :
    ∃ valid, frameIsCompleteAndValid buf = some valid := by
  unfold frameIsCompleteAndValid
  split
  · exact ⟨false, rfl⟩
  · rename_i hroom
    have hheader : 8 ≤ buf.length := Nat.not_lt.mp hroom
    obtain ⟨len, hlen⟩ := exists_word 4 (show 0 + 4 ≤ buf.length by omega)
    obtain ⟨checksum, hchecksum⟩ := exists_word 4 (show 4 + 4 ≤ buf.length by omega)
    simp only [hlen, hchecksum, lessBy_eq hheader, frameHeaderLen, Option.bind_eq_bind,
      Option.bind_some]
    split
    · exact ⟨false, rfl⟩
    · obtain ⟨payload, hpayload⟩ := exists_getRange (Nat.le_add_right 8 len)
        (show 8 + len ≤ buf.length by omega)
      rw [hpayload]
      exact ⟨_, rfl⟩

variable {buf payload : List UInt8} {n : Nat} {r : LogRecord} {rs behind before : List LogRecord}

/-- A round ends without panicking, and moves on within the bytes. -/
theorem scanAt_total {pos : Nat} (h : pos ≤ buf.length) :
    ∃ step, scanAt buf pos = some step ∧
      ∀ payload next, step = .payload payload next → pos < next ∧ next ≤ buf.length := by
  rw [scanAt, lessBy_eq h]
  simp only [Option.bind_eq_bind, Option.bind_some]
  split
  · exact ⟨.stop, rfl, nofun⟩
  · rename_i hroom
    rw [frameHeaderLen] at hroom
    have hstart : pos + 8 ≤ buf.length := by omega
    obtain ⟨len, hlen⟩ := exists_word 4 (show pos + 4 ≤ buf.length by omega)
    obtain ⟨checksum, hchecksum⟩ := exists_word 4 (show pos + 4 + 4 ≤ buf.length by omega)
    simp only [hlen, hchecksum, lessBy_eq hstart, frameHeaderLen, Option.bind_some]
    split
    · exact ⟨.stop, rfl, nofun⟩
    · have hend : pos + 8 + len ≤ buf.length := by omega
      obtain ⟨payload, hpayload⟩ := exists_getRange (Nat.le_add_right (pos + 8) len) hend
      simp only [hpayload, Option.bind_some]
      split
      · refine ⟨_, rfl, ?_⟩
        rintro _ _ ⟨⟩
        omega
      · obtain ⟨behind, hbehind⟩ := exists_getRange hend (Nat.le_refl buf.length)
        obtain ⟨valid, hvalid⟩ := frameIsCompleteAndValid_total behind
        rw [hbehind, Option.bind_some, hvalid, Option.bind_some]
        refine ⟨_, rfl, ?_⟩
        cases valid <;> nofun

theorem scanLoop_total (version : UInt16) {fuel pos : Nat} {records : List LogRecord}
    (hpos : pos ≤ buf.length) (hfuel : buf.length < pos + fuel) :
    ∃ out, scanLoop version buf fuel records pos = some out := by
  induction fuel generalizing records pos with
  | zero => omega
  | succ fuel ih =>
    obtain ⟨step, hstep, hmoves⟩ := scanAt_total hpos
    rw [scanLoop, hstep, Option.bind_some]
    cases step with
    | stop => exact ⟨_, rfl⟩
    | corrupt e => exact ⟨_, rfl⟩
    | payload payload next =>
      obtain ⟨hlt, hle⟩ := hmoves payload next rfl
      dsimp only
      split
      · exact ih hle (by omega)
      · exact ⟨_, rfl⟩

/-- A scan of any bytes ends without panicking. -/
theorem scanLog_total (version : UInt16) (buf : List UInt8) :
    ∃ out, scanLog version buf = some out :=
  scanLoop_total version (Nat.zero_le _) (by omega)

/-! ## What a round finds -/

theorem length_frameWith (len checksum : Nat) (body : List UInt8) :
    (frameWith len checksum body).length = 8 + body.length := by
  rw [frameWith, List.length_append, List.length_append, length_leBytes, length_leBytes]
  omega

theorem word_frame_len (before : List UInt8) (len checksum : Nat) (body : List UInt8) :
    word 4 (before ++ frameWith len checksum body) before.length = some (len % 2 ^ 32) :=
  word_append before (leBytes 4 checksum ++ body) 4 len

theorem word_frame_checksum (before : List UInt8) (len checksum : Nat) (body : List UInt8) :
    word 4 (before ++ frameWith len checksum body) (before.length + 4) =
      some (checksum % 2 ^ 32) := by
  have hword := word_append (before ++ leBytes 4 len) body 4 checksum
  rwa [List.append_assoc, List.length_append, length_leBytes] at hword

/-- What stands in a frame behind its header. -/
theorem getRange_frame (before : List UInt8) (len checksum n : Nat) {body : List UInt8}
    (h : n ≤ body.length) :
    getRange (before ++ frameWith len checksum body) (before.length + 8)
      (before.length + 8 + n) = some (body.take n) := by
  have hrange := getRange_append (before ++ (leBytes 4 len ++ leBytes 4 checksum))
    (body.take n) (body.drop n)
  rw [List.take_append_drop, List.length_take, Nat.min_eq_left h, List.length_append,
    List.length_append, length_leBytes, length_leBytes] at hrange
  rw [frameWith]
  simpa only [List.append_assoc] using hrange

theorem getRange_behind (before : List UInt8) (len checksum n : Nat) {body : List UInt8}
    (h : n ≤ body.length) :
    getRange (before ++ frameWith len checksum body) (before.length + 8 + n)
      (before ++ frameWith len checksum body).length = some (body.drop n) := by
  have hrange := getRange_append (before ++ (leBytes 4 len ++ (leBytes 4 checksum ++
    body.take n))) (body.drop n) []
  have hbuf : before ++ (leBytes 4 len ++ (leBytes 4 checksum ++ body.take n)) ++
      (body.drop n ++ []) = before ++ frameWith len checksum body := by
    rw [frameWith, List.append_nil]
    simp only [List.append_assoc, List.take_append_drop]
  have hstart : (before ++ (leBytes 4 len ++ (leBytes 4 checksum ++ body.take n))).length =
      before.length + 8 + n := by
    simp only [List.length_append, length_leBytes, List.length_take, Nat.min_eq_left h]
    omega
  have hstop : before.length + 8 + n + (body.drop n).length =
      (before ++ frameWith len checksum body).length := by
    rw [List.length_append, length_frameWith, List.length_drop]
    omega
  rwa [hbuf, hstart, hstop] at hrange

theorem frameIsCompleteAndValid_short (h : buf.length < 8) :
    frameIsCompleteAndValid buf = some false := if_pos h

/-- Whether a frame is complete and valid, by its header and what follows it. -/
theorem frameIsCompleteAndValid_frame (len checksum : Nat) (body : List UInt8) :
    frameIsCompleteAndValid (frameWith len checksum body) =
      some (decide (len % 2 ^ 32 ≤ body.length ∧
        (fnv1a32 (body.take (len % 2 ^ 32))).toNat = checksum % 2 ^ 32)) := by
  have hlength := length_frameWith len checksum body
  have hlen := word_frame_len [] len checksum body
  have hchecksum := word_frame_checksum [] len checksum body
  rw [List.nil_append, List.length_nil] at hlen hchecksum
  have hroom : ¬(frameWith len checksum body).length < frameHeaderLen := by
    rw [frameHeaderLen]
    omega
  rw [frameIsCompleteAndValid, if_neg hroom, lessBy_eq (Nat.not_lt.mp hroom), hlen, hchecksum]
  simp only [Option.bind_eq_bind, Option.bind_some, frameHeaderLen, hlength,
    Nat.add_sub_cancel_left]
  by_cases hfits : len % 2 ^ 32 ≤ body.length
  · have hpayload := getRange_frame [] len checksum (len % 2 ^ 32) hfits
    rw [List.nil_append, List.length_nil, Nat.zero_add] at hpayload
    rw [if_neg (by omega), hpayload, Option.bind_some, Option.some_inj, decide_eq_decide]
    exact ⟨fun hsum => ⟨hfits, hsum⟩, fun h => h.2⟩
  · rw [if_pos (by omega), decide_eq_false fun h => hfits h.1]

/-- A round with less than a header left stops. -/
theorem scanAt_short (before : List UInt8) {rest : List UInt8} (h : rest.length < 8) :
    scanAt (before ++ rest) before.length = some .stop := by
  rw [scanAt, lessBy_eq (by simp), List.length_append, Nat.add_sub_cancel_left]
  exact if_pos h

/-- A round at a frame, by its header and what follows it. -/
theorem scanAt_frame (before : List UInt8) (len checksum : Nat) (body : List UInt8) :
    scanAt (before ++ frameWith len checksum body) before.length =
      if body.length < len % 2 ^ 32 then some .stop
      else if (fnv1a32 (body.take (len % 2 ^ 32))).toNat = checksum % 2 ^ 32 then
        some (.payload (body.take (len % 2 ^ 32)) (before.length + 8 + len % 2 ^ 32))
      else (frameIsCompleteAndValid (body.drop (len % 2 ^ 32))).map fun valid =>
        if valid then .corrupt (checksumMismatch before.length (checksum % 2 ^ 32)
          (fnv1a32 (body.take (len % 2 ^ 32))).toNat) else .stop := by
  have hlength : (before ++ frameWith len checksum body).length =
      before.length + (8 + body.length) := by
    rw [List.length_append, length_frameWith]
  have hpos : before.length ≤ (before ++ frameWith len checksum body).length := by omega
  have hstart : before.length + 8 ≤ (before ++ frameWith len checksum body).length := by omega
  rw [scanAt, lessBy_eq hpos, word_frame_len, word_frame_checksum]
  simp only [Option.bind_eq_bind, Option.bind_some, frameHeaderLen, lessBy_eq hstart]
  rw [if_neg (by omega)]
  by_cases hfits : body.length < len % 2 ^ 32
  · rw [if_pos hfits, if_pos (by omega)]
  · have hle : len % 2 ^ 32 ≤ body.length := Nat.not_lt.mp hfits
    rw [if_neg hfits, if_neg (by omega), getRange_frame before len checksum _ hle, Option.bind_some,
      getRange_behind before len checksum _ hle, Option.bind_some, Option.map_eq_bind]
    rfl

/-! ## Frames that were written -/

theorem fnv1a32_mod (bytes : List UInt8) : (fnv1a32 bytes).toNat % 2 ^ 32 = (fnv1a32 bytes).toNat :=
  Nat.mod_eq_of_lt (fnv1a32 bytes).toNat_lt

theorem frameWith_append (len checksum : Nat) (payload rest : List UInt8) :
    frameWith len checksum payload ++ rest = frameWith len checksum (payload ++ rest) := by
  simp only [frameWith, List.append_assoc]

/-- A frame's bytes cut short: less than its header, or its header and a part of its payload. -/
theorem take_frameWith (len checksum n : Nat) (payload : List UInt8) :
    ((frameWith len checksum payload).take n).length < 8 ∨
      8 ≤ n ∧ (frameWith len checksum payload).take n =
        frameWith len checksum (payload.take (n - 8)) := by
  by_cases h : n < 8
  · left
    rw [List.length_take]
    omega
  · refine .inr ⟨Nat.not_lt.mp h, ?_⟩
    rw [frameWith, frameWith, List.take_append, List.take_append, length_leBytes, length_leBytes,
      List.take_of_length_le (by rw [length_leBytes]; omega),
      List.take_of_length_le (by rw [length_leBytes]; omega), Nat.sub_sub]

/-- A scan stops at a frame cut short. -/
theorem scanAt_torn (before : List UInt8) (checksum : Nat) (hpayload : payload.length < 2 ^ 32)
    (hn : n < 8 + payload.length) :
    scanAt (before ++ (frameWith payload.length checksum payload).take n) before.length =
      some .stop := by
  rcases take_frameWith payload.length checksum n payload with
    hshort | ⟨hheader, htake⟩
  · exact scanAt_short before hshort
  · have hlost : (payload.take (n - 8)).length < payload.length % 2 ^ 32 := by
      rw [List.length_take, Nat.mod_eq_of_lt hpayload]
      omega
    rw [htake, scanAt_frame, if_pos hlost]

/-- No complete frame stands at a frame cut short. -/
theorem frameIsCompleteAndValid_torn {checksum : Nat} (hpayload : payload.length < 2 ^ 32)
    (hn : n < 8 + payload.length) :
    frameIsCompleteAndValid ((frameWith payload.length checksum payload).take n) =
      some false := by
  rcases take_frameWith payload.length checksum n payload with
    hshort | ⟨hheader, htake⟩
  · exact frameIsCompleteAndValid_short hshort
  · have hlost : ¬(payload.length % 2 ^ 32 ≤ (payload.take (n - 8)).length ∧
        (fnv1a32 ((payload.take (n - 8)).take (payload.length % 2 ^ 32))).toNat =
          checksum % 2 ^ 32) := by
      rw [List.length_take, Nat.mod_eq_of_lt hpayload]
      omega
    rw [htake, frameIsCompleteAndValid_frame, decide_eq_false hlost]

/-- A whole frame is complete and valid, whatever follows it. -/
theorem frameIsCompleteAndValid_whole (hpayload : payload.length < 2 ^ 32) (rest : List UInt8) :
    frameIsCompleteAndValid (frameRecord payload ++ rest) = some true := by
  have hfits : payload.length % 2 ^ 32 = payload.length := Nat.mod_eq_of_lt hpayload
  rw [frameRecord, frameWith_append, frameIsCompleteAndValid_frame, hfits, List.take_left,
    fnv1a32_mod, List.length_append]
  simp

/-- A round at a whole frame finds its payload. -/
theorem scanAt_whole (before : List UInt8) (hpayload : payload.length < 2 ^ 32)
    (rest : List UInt8) :
    scanAt (before ++ (frameRecord payload ++ rest)) before.length =
      some (.payload payload (before ++ frameRecord payload).length) := by
  have hfits : payload.length % 2 ^ 32 = payload.length := Nat.mod_eq_of_lt hpayload
  rw [frameRecord, frameWith_append, scanAt_frame, hfits, List.take_left, fnv1a32_mod,
    if_neg (by simp), if_pos rfl, List.length_append, length_frameWith, Nat.add_assoc]

/-- A round at a frame whose payload was changed looks for a complete frame behind it. -/
theorem scanAt_changed (before : List UInt8) {changed : List UInt8}
    (hpayload : payload.length < 2 ^ 32) (hlen : changed.length = payload.length)
    (hsum : fnv1a32 changed ≠ fnv1a32 payload) (rest : List UInt8) :
    scanAt (before ++ (frameWith payload.length (fnv1a32 payload).toNat changed ++ rest))
      before.length = (frameIsCompleteAndValid rest).map fun valid =>
        if valid then .corrupt (checksumMismatch before.length (fnv1a32 payload).toNat
          (fnv1a32 changed).toNat) else .stop := by
  have hfits : payload.length % 2 ^ 32 = changed.length := by
    rw [hlen, Nat.mod_eq_of_lt hpayload]
  have hsum' : (fnv1a32 changed).toNat ≠ (fnv1a32 payload).toNat := fun h =>
    hsum (UInt32.toNat_inj.mp h)
  rw [frameWith_append, scanAt_frame, hfits, List.take_left, List.drop_left, fnv1a32_mod,
    if_neg (by simp), if_neg hsum']

/-! ## Logs of given records -/

/-- The bytes a log of the records holds behind its header. -/
def framedLog (rs : List LogRecord) : List UInt8 :=
  rs.flatMap fun r => frameRecord (Postcard.logRecord r)

/-- The records whose frames lie wholly in the first `n` bytes. -/
def wholeFrames : List LogRecord → Nat → List LogRecord
  | [], _ => []
  | r :: rs, n =>
    if (frameRecord (Postcard.logRecord r)).length ≤ n then
      r :: wholeFrames rs (n - (frameRecord (Postcard.logRecord r)).length)
    else []

/-- A record whose length its frame's header can say. -/
def LogRecord.Framable (r : LogRecord) : Prop := (Postcard.logRecord r).length < 2 ^ 32

theorem length_frameRecord (payload : List UInt8) :
    (frameRecord payload).length = 8 + payload.length :=
  length_frameWith _ _ payload

theorem framedLog_cons (r : LogRecord) (rs : List LogRecord) :
    framedLog (r :: rs) = frameRecord (Postcard.logRecord r) ++ framedLog rs := rfl

theorem framedLog_append (rs ss : List LogRecord) :
    framedLog (rs ++ ss) = framedLog rs ++ framedLog ss := List.flatMap_append

theorem length_le_framedLog (rs : List LogRecord) : rs.length ≤ (framedLog rs).length := by
  induction rs with
  | nil => exact Nat.le_refl 0
  | cons r rs ih =>
    rw [framedLog_cons, List.length_append, length_frameRecord, List.length_cons]
    omega

/-- The log cut short is its whole frames and a part of the next. -/
theorem take_framedLog (rs : List LogRecord) (n : Nat) :
    wholeFrames rs n = rs ∧ (framedLog rs).take n = framedLog rs ∨
      ∃ r rest m, rs = wholeFrames rs n ++ r :: rest ∧
        m < (frameRecord (Postcard.logRecord r)).length ∧
        (framedLog rs).take n =
          framedLog (wholeFrames rs n) ++ (frameRecord (Postcard.logRecord r)).take m := by
  induction rs generalizing n with
  | nil => exact .inl ⟨rfl, List.take_nil⟩
  | cons r rs ih =>
    rw [wholeFrames, framedLog_cons, List.take_append]
    by_cases hwhole : (frameRecord (Postcard.logRecord r)).length ≤ n
    · rw [if_pos hwhole, List.take_of_length_le hwhole]
      rcases ih (n - (frameRecord (Postcard.logRecord r)).length) with
        ⟨hall, htake⟩ | ⟨r', rest, m, hrs, hm, htake⟩
      · exact .inl ⟨by rw [hall], by rw [htake]⟩
      · refine .inr ⟨r', rest, m, ?_, hm, ?_⟩
        · rw [List.cons_append, ← hrs]
        · rw [htake, framedLog_cons, List.append_assoc]
    · have hlost : n - (frameRecord (Postcard.logRecord r)).length = 0 := by omega
      rw [if_neg hwhole, hlost, List.take_zero, List.append_nil]
      exact .inr ⟨r, rs, n, rfl, Nat.not_le.mp hwhole, rfl⟩

theorem decodeLogRecord_current (payload : List UInt8) :
    decodeLogRecord currentLogVersion payload =
      match Postcard.takeLogRecord payload 0 with
      | some (r, _) => .ok r
      | none => .error (.store .serializationError) := by
  have hone : ¬currentLogVersion = 1 := by decide
  have htwo : currentLogVersion = 2 := rfl
  rw [decodeLogRecord, if_neg hone, if_pos htwo]

theorem decodeLogRecord_written (h : (Postcard.logRecord r).length < 2 ^ 64) :
    decodeLogRecord currentLogVersion (Postcard.logRecord r) = .ok r.owned := by
  have hread := Postcard.reads_logRecord h [] []
  rw [List.nil_append, List.append_nil, List.length_nil] at hread
  rw [decodeLogRecord_current, hread]

/-- The scan's rounds over whole frames. -/
theorem scanLoop_whole (before : List UInt8) (hrs : ∀ r ∈ rs, r.Framable) (rest : List UInt8)
    (fuel : Nat) (records : List LogRecord) :
    scanLoop currentLogVersion (before ++ (framedLog rs ++ rest)) (rs.length + fuel) records
        before.length =
      scanLoop currentLogVersion (before ++ (framedLog rs ++ rest)) fuel
        (records ++ rs.map LogRecord.owned) (before ++ framedLog rs).length := by
  induction rs generalizing before records with
  | nil => simp [framedLog]
  | cons r rs ih =>
    have hr : (Postcard.logRecord r).length < 2 ^ 32 := hrs r List.mem_cons_self
    have hbuf : before ++ (framedLog (r :: rs) ++ rest) =
        before ++ frameRecord (Postcard.logRecord r) ++ (framedLog rs ++ rest) := by
      rw [framedLog_cons, List.append_assoc, List.append_assoc]
    have hround : scanAt (before ++ (framedLog (r :: rs) ++ rest)) before.length =
        some (.payload (Postcard.logRecord r)
          (before ++ frameRecord (Postcard.logRecord r)).length) := by
      rw [framedLog_cons, List.append_assoc]
      exact scanAt_whole before hr (framedLog rs ++ rest)
    have hrest := ih (before ++ frameRecord (Postcard.logRecord r))
      (fun r' hr' => hrs r' (List.mem_cons_of_mem r hr')) (records ++ [r.owned])
    have hfuel : (r :: rs).length + fuel = rs.length + fuel + 1 := by
      rw [List.length_cons]
      omega
    rw [hfuel, scanLoop, hround, Option.bind_some]
    dsimp only
    rw [decodeLogRecord_written (by omega)]
    dsimp only
    rw [hbuf, hrest, framedLog_cons, List.map_cons]
    simp only [List.append_assoc, List.cons_append, List.nil_append]

/-- A scan reaches what follows the whole frames with the records of these. -/
theorem scanLog_whole (hrs : ∀ r ∈ rs, r.Framable) (rest : List UInt8) :
    ∃ fuel, scanLog currentLogVersion (framedLog rs ++ rest) =
      scanLoop currentLogVersion (framedLog rs ++ rest) (fuel + 1) (rs.map LogRecord.owned)
        (framedLog rs).length := by
  have hcount := length_le_framedLog rs
  refine ⟨(framedLog rs ++ rest).length - rs.length, ?_⟩
  have hfuel : (framedLog rs ++ rest).length + 1 =
      rs.length + ((framedLog rs ++ rest).length - rs.length + 1) := by
    rw [List.length_append]
    omega
  have hrun := scanLoop_whole [] hrs rest ((framedLog rs ++ rest).length - rs.length + 1) []
  rw [List.nil_append, List.length_nil, List.nil_append, List.nil_append] at hrun
  rw [scanLog, hfuel, hrun]

/-- A log of short records cut short anywhere gives the records whose frames it holds whole. -/
theorem scanLog_torn (hrs : ∀ r ∈ rs, r.Framable) (n : Nat) :
    scanLog currentLogVersion ((framedLog rs).take n) =
      some (.ok ((wholeFrames rs n).map LogRecord.owned)) := by
  rcases take_framedLog rs n with ⟨hall, htake⟩ | ⟨r, rest, m, hsplit, hm, htake⟩
  · obtain ⟨fuel, hscan⟩ := scanLog_whole hrs []
    have hround : scanAt (framedLog rs ++ []) (framedLog rs).length = some .stop :=
      scanAt_short (framedLog rs) (by simp)
    rw [List.append_nil] at hscan hround
    rw [htake, hall, hscan, scanLoop, hround, Option.bind_some]
  · have hr : r.Framable := hrs r (hsplit ▸ by simp)
    have hwhole : ∀ r ∈ wholeFrames rs n, r.Framable := fun r hr =>
      hrs r (hsplit ▸ List.mem_append_left _ hr)
    obtain ⟨fuel, hscan⟩ := scanLog_whole hwhole ((frameRecord (Postcard.logRecord r)).take m)
    rw [length_frameRecord] at hm
    have hround := scanAt_torn (framedLog (wholeFrames rs n))
      (fnv1a32 (Postcard.logRecord r)).toNat hr hm
    rw [htake, hscan, scanLoop, frameRecord, hround, Option.bind_some]

/-- The log in which the payload of `r` was changed to one as long. -/
def changedLog (before : List LogRecord) (r : LogRecord) (changed : List UInt8)
    (behind : List LogRecord) : List UInt8 :=
  framedLog before ++ (frameWith (Postcard.logRecord r).length
    (fnv1a32 (Postcard.logRecord r)).toNat changed ++ framedLog behind)

/-- The first `n` bytes hold the frame of `r` and the one behind it whole. -/
def FollowedWhole (before : List LogRecord) (r : LogRecord) (behind : List LogRecord) (n : Nat) :
    Prop :=
  ∃ next rest, behind = next :: rest ∧ (framedLog (before ++ [r, next])).length ≤ n

/-- What a scan of the log of `rs` owes: cut short it gives the records whose frames are
whole; with one payload changed it is corrupted where a complete frame follows, and
otherwise gives the records before. -/
structure ScansAsFramed (rs : List LogRecord) : Prop where
  torn : ∀ n, scanLog currentLogVersion ((framedLog rs).take n) =
    some (.ok ((wholeFrames rs n).map LogRecord.owned))
  changed : ∀ before r behind payload, rs = before ++ r :: behind →
    payload.length = (Postcard.logRecord r).length →
    fnv1a32 payload ≠ fnv1a32 (Postcard.logRecord r) → ∀ n,
      (FollowedWhole before r behind n →
        scanLog currentLogVersion ((changedLog before r payload behind).take n) =
          some (.error (checksumMismatch (framedLog before).length
            (fnv1a32 (Postcard.logRecord r)).toNat (fnv1a32 payload).toNat))) ∧
      (¬FollowedWhole before r behind n →
        scanLog currentLogVersion ((changedLog before r payload behind).take n) =
          some (.ok ((wholeFrames before n).map LogRecord.owned)))

theorem wholeFrames_of_le (h : (framedLog rs).length ≤ n) :
    wholeFrames rs n = rs := by
  induction rs generalizing n with
  | nil => rfl
  | cons r rs ih =>
    rw [framedLog_cons, List.length_append] at h
    rw [wholeFrames, if_pos (by omega), ih (by omega)]

/-- The first frame of a log lies wholly in its first `k` bytes. -/
def firstWhole : List LogRecord → Nat → Bool
  | [], _ => false
  | next :: _, k => decide ((frameRecord (Postcard.logRecord next)).length ≤ k)

/-- Whether a complete frame stands at the start of a log cut short. -/
theorem frameIsCompleteAndValid_take (hbehind : ∀ r ∈ behind, r.Framable) (k : Nat) :
    frameIsCompleteAndValid ((framedLog behind).take k) =
      some (firstWhole behind k) := by
  cases behind with
  | nil =>
    rw [framedLog, List.flatMap_nil, List.take_nil]
    exact frameIsCompleteAndValid_short (by decide)
  | cons next rest =>
    have hnext : next.Framable := hbehind next List.mem_cons_self
    rw [framedLog_cons, List.take_append]
    by_cases hwhole : (frameRecord (Postcard.logRecord next)).length ≤ k
    · rw [List.take_of_length_le hwhole, frameIsCompleteAndValid_whole hnext, firstWhole,
        decide_eq_true hwhole]
    · have hlost : k - (frameRecord (Postcard.logRecord next)).length = 0 := by omega
      have htorn : k < 8 + (Postcard.logRecord next).length := by
        rw [length_frameRecord] at hwhole
        omega
      rw [hlost, List.take_zero, List.append_nil, firstWhole, decide_eq_false hwhole]
      exact frameIsCompleteAndValid_torn hnext htorn

/-- A frame behind the changed one is whole if the bytes behind the changed frame hold it. -/
theorem followedWhole_iff (before behind : List LogRecord) (r : LogRecord) {k : Nat}
    (hk : n = (framedLog before).length + (frameRecord (Postcard.logRecord r)).length + k) :
    FollowedWhole before r behind n ↔
      firstWhole behind k = true := by
  have hlength : ∀ next, (framedLog (before ++ [r, next])).length =
      (framedLog before).length + (frameRecord (Postcard.logRecord r)).length +
        (frameRecord (Postcard.logRecord next)).length := by
    intro next
    rw [framedLog_append, framedLog_cons, framedLog_cons, List.length_append, List.length_append,
      List.length_append, Nat.add_assoc]
    rfl
  cases behind with
  | nil =>
    constructor
    · rintro ⟨next, rest, hnil, -⟩
      cases hnil
    · intro h
      cases h
  | cons next rest =>
    rw [firstWhole, decide_eq_true_iff]
    constructor
    · rintro ⟨next', rest', hcons, hle⟩
      obtain ⟨rfl, rfl⟩ := List.cons.inj hcons
      rw [hlength] at hle
      omega
    · intro hle
      refine ⟨next, rest, rfl, ?_⟩
      rw [hlength]
      omega

/-- Short of the changed frame's end no frame behind it is whole. -/
theorem not_followedWhole
    (h : n < (framedLog before).length + (frameRecord (Postcard.logRecord r)).length) :
    ¬FollowedWhole before r behind n := by
  rintro ⟨next, rest, -, hle⟩
  rw [framedLog_append, framedLog_cons, List.length_append, List.length_append] at hle
  omega

/-- A log with a changed payload, cut short or not. -/
theorem scanLog_changed (hbefore : ∀ r ∈ before, r.Framable) (hr : r.Framable)
    (hbehind : ∀ r ∈ behind, r.Framable) (hlen : payload.length = (Postcard.logRecord r).length)
    (hsum : fnv1a32 payload ≠ fnv1a32 (Postcard.logRecord r)) (n : Nat) :
    (FollowedWhole before r behind n →
      scanLog currentLogVersion ((changedLog before r payload behind).take n) =
        some (.error (checksumMismatch (framedLog before).length
          (fnv1a32 (Postcard.logRecord r)).toNat (fnv1a32 payload).toNat))) ∧
    (¬FollowedWhole before r behind n →
      scanLog currentLogVersion ((changedLog before r payload behind).take n) =
        some (.ok ((wholeFrames before n).map LogRecord.owned))) := by
  have hframe : (frameRecord (Postcard.logRecord r)).length = 8 + payload.length := by
    rw [length_frameRecord, hlen]
  by_cases hn : n ≤ (framedLog before).length
  · have htake : (changedLog before r payload behind).take n = (framedLog before).take n := by
      rw [changedLog, List.take_append_of_le_length hn]
    have hnot : ¬FollowedWhole before r behind n := not_followedWhole (by omega)
    rw [htake]
    exact ⟨fun h => absurd h hnot, fun _ => scanLog_torn hbefore n⟩
  · have hall : wholeFrames before n = before := wholeFrames_of_le (by omega)
    have htake : (changedLog before r payload behind).take n = framedLog before ++
        (frameWith (Postcard.logRecord r).length (fnv1a32 (Postcard.logRecord r)).toNat payload ++
          framedLog behind).take (n - (framedLog before).length) := by
      rw [changedLog, List.take_append, List.take_of_length_le (by omega)]
    obtain ⟨fuel, hscan⟩ := scanLog_whole hbefore
      ((frameWith (Postcard.logRecord r).length (fnv1a32 (Postcard.logRecord r)).toNat payload ++
        framedLog behind).take (n - (framedLog before).length))
    rw [htake, hall, hscan, scanLoop]
    by_cases hwhole : (framedLog before).length + (8 + payload.length) ≤ n
    · have hsplit : (frameWith (Postcard.logRecord r).length (fnv1a32 (Postcard.logRecord r)).toNat
          payload ++ framedLog behind).take (n - (framedLog before).length) =
          frameWith (Postcard.logRecord r).length (fnv1a32 (Postcard.logRecord r)).toNat payload ++
            (framedLog behind).take (n - (framedLog before).length - (8 + payload.length)) := by
        rw [List.take_append, length_frameWith, List.take_of_length_le]
        rw [length_frameWith]
        omega
      have hiff : FollowedWhole before r behind n ↔
          firstWhole behind (n - (framedLog before).length - (8 + payload.length)) = true :=
        followedWhole_iff before behind r (by omega)
      rw [hsplit, scanAt_changed (framedLog before) hr hlen hsum,
        frameIsCompleteAndValid_take hbehind, hiff, Option.map_some, Option.bind_some]
      constructor
      · intro hfirst
        rw [hfirst]
        rfl
      · intro hfirst
        rw [Bool.not_eq_true] at hfirst
        rw [hfirst]
        rfl
    · have hnot : ¬FollowedWhole before r behind n := not_followedWhole (by omega)
      have hsplit : (frameWith (Postcard.logRecord r).length (fnv1a32 (Postcard.logRecord r)).toNat
          payload ++ framedLog behind).take (n - (framedLog before).length) =
          (frameWith payload.length (fnv1a32 (Postcard.logRecord r)).toNat payload).take
            (n - (framedLog before).length) := by
        rw [hlen, List.take_append_of_le_length]
        rw [length_frameWith]
        omega
      have hround : scanAt (framedLog before ++ (frameWith payload.length
          (fnv1a32 (Postcard.logRecord r)).toNat payload).take (n - (framedLog before).length))
            (framedLog before).length = some .stop :=
        scanAt_torn (framedLog before) _ (hlen ▸ hr) (by omega)
      rw [hsplit, hround, Option.bind_some]
      exact ⟨fun h => absurd h hnot, fun _ => rfl⟩

/-! ## Records too long to frame -/

/-- The scan of a log does not get past the first record whose length its header cannot say:
it stops there, or refuses. -/
theorem scanLog_long (behind : List LogRecord) (hbefore : ∀ r ∈ before, r.Framable)
    (hlong : ¬r.Framable) (hr : (Postcard.logRecord r).length < 2 ^ 64) :
    scanLog currentLogVersion (framedLog (before ++ r :: behind)) =
        some (.ok (before.map LogRecord.owned)) ∨
      ∃ e, scanLog currentLogVersion (framedLog (before ++ r :: behind)) = some (.error e) := by
  let payload := Postcard.logRecord r
  have hlt : payload.length % 2 ^ 32 < payload.length := by
    have hle : 2 ^ 32 ≤ payload.length := Nat.not_lt.mp hlong
    omega
  have htake : (payload ++ framedLog behind).take (payload.length % 2 ^ 32) =
      payload.take (payload.length % 2 ^ 32) := List.take_append_of_le_length hlt.le
  -- What is left of the record when its length is taken modulo 2^32 is not a record.
  have hcut : Postcard.takeLogRecord (payload.take (payload.length % 2 ^ 32)) 0 = none := by
    apply Postcard.steady_logRecord.cut (Postcard.reads_logRecord hr)
      (List.take_append_drop (payload.length % 2 ^ 32) payload)
    intro hnil
    have hlength := congrArg List.length hnil
    rw [List.length_drop, List.length_nil] at hlength
    omega
  obtain ⟨fuel, hscan⟩ := scanLog_whole hbefore (framedLog (r :: behind))
  have hround := scanAt_frame (framedLog before) payload.length (fnv1a32 payload).toNat
    (payload ++ framedLog behind)
  rw [← frameWith_append, htake, if_neg (by rw [List.length_append]; omega)] at hround
  rw [framedLog_append, hscan, scanLoop, framedLog_cons, frameRecord, hround]
  by_cases hsum : (fnv1a32 (payload.take (payload.length % 2 ^ 32))).toNat =
      (fnv1a32 payload).toNat % 2 ^ 32
  · rw [if_pos hsum, Option.bind_some]
    dsimp only
    rw [decodeLogRecord_current, hcut]
    exact .inr ⟨_, rfl⟩
  · obtain ⟨valid, hvalid⟩ := frameIsCompleteAndValid_total
      ((payload ++ framedLog behind).drop (payload.length % 2 ^ 32))
    rw [if_neg hsum, hvalid, Option.map_some, Option.bind_some]
    cases valid with
    | true => exact .inr ⟨_, rfl⟩
    | false => exact .inl rfl

theorem exists_first_long (h : ¬∀ r ∈ rs, r.Framable) :
    ∃ before r behind, rs = before ++ r :: behind ∧ (∀ r ∈ before, r.Framable) ∧
      ¬r.Framable := by
  induction rs with
  | nil => exact absurd (fun r hr => absurd hr List.not_mem_nil) h
  | cons r rs ih =>
    by_cases hr : r.Framable
    · have hrs : ¬∀ r ∈ rs, r.Framable := by
        intro hrs
        exact h (List.forall_mem_cons.mpr ⟨hr, hrs⟩)
      obtain ⟨before, r', behind, hsplit, hbefore, hlong⟩ := ih hrs
      exact ⟨r :: before, r', behind, by rw [hsplit, List.cons_append],
        List.forall_mem_cons.mpr ⟨hr, hbefore⟩, hlong⟩
    · exact ⟨[], r, rs, rfl, nofun, hr⟩

/-- A log with a record too long to frame does not scan as framed. -/
theorem framable_of_scansAsFramed (hlen : ∀ r ∈ rs, (Postcard.logRecord r).length < 2 ^ 64)
    (h : ScansAsFramed rs) :
    ∀ r ∈ rs, r.Framable := by
  by_contra hnot
  obtain ⟨before, r, behind, hsplit, hbefore, hlong⟩ := exists_first_long hnot
  have hr : (Postcard.logRecord r).length < 2 ^ 64 := hlen r (hsplit ▸ by simp)
  have hall := h.torn (framedLog rs).length
  rw [List.take_length, wholeFrames_of_le (Nat.le_refl _), hsplit] at hall
  rcases scanLog_long behind hbefore hlong hr with hstop | ⟨e, herror⟩
  · rw [hstop] at hall
    have hlength := congrArg List.length (Except.ok.inj (Option.some.inj hall))
    rw [List.length_map, List.length_map, List.length_append, List.length_cons] at hlength
    omega
  · rw [herror] at hall
    cases hall

/-- A log of records reads back as framed, cut short or with a payload changed, exactly when
each record's length fits its frame's header; and any bytes whatever are scanned to an end. -/
theorem scan_log_iff {rs : List LogRecord}
    (hlen : ∀ r ∈ rs, (Postcard.logRecord r).length < 2 ^ 64) (r : LogRecord) (version : UInt16)
    (buf : List UInt8) :
    (ScansAsFramed rs ↔ ∀ r ∈ rs, (Postcard.logRecord r).length < 2 ^ 32) ∧
    r.owned.Same r ∧ ∃ out, scanLog version buf = some out := by
  refine ⟨⟨framable_of_scansAsFramed hlen, fun hrs => ?_⟩, LogRecord.owned_same r,
    scanLog_total version buf⟩
  constructor
  · exact scanLog_torn hrs
  · rintro before r behind payload rfl hpayload hsum n
    rw [List.forall_mem_append, List.forall_mem_cons] at hrs
    exact scanLog_changed hrs.1 hrs.2.1 hrs.2.2 hpayload hsum n

/-- A log of a commit and a rollback reads back when its last byte is torn off. -/
theorem scan_log_iff_torn : ScansAsFramed [⟨1, .commit 7⟩, ⟨2, .rollback 8⟩] := by
  have hlen : ∀ r ∈ [(⟨1, .commit 7⟩ : LogRecord), ⟨2, .rollback 8⟩],
      (Postcard.logRecord r).length < 4 := by decide +kernel
  have hiff := scan_log_iff (fun r hr => (hlen r hr).trans (by decide)) ⟨1, .commit 7⟩ 0 []
  exact hiff.1.mpr fun r hr => (hlen r hr).trans (by decide)

/-- The record of a row added with given data. -/
def rowRecord (data : List UInt8) : LogRecord :=
  ⟨1, .add 1 ⟨0, ⟨.int 1, none, none, data, 0⟩, none⟩⟩

theorem length_rowRecord {data : List UInt8} (h : data.length = 2 ^ 32) :
    (Postcard.logRecord (rowRecord data)).length = 2 ^ 32 + 15 := by
  have hcount : (Postcard.len (2 ^ 32)).length = 5 := by decide +kernel
  have hfields : (Postcard.unsigned 1).length = 1 ∧ (Postcard.unsigned 0).length = 1 := by
    decide +kernel
  simp only [rowRecord, Postcard.logRecord, Postcard.operation, Postcard.record, Postcard.tuple,
    Postcard.id, Postcard.option, Postcard.bytes, List.length_append, List.length_cons,
    List.length_nil, h, hcount, hfields]
  omega

theorem not_scansAsFramed {data : List UInt8} (h : data.length = 2 ^ 32) :
    ¬ScansAsFramed [rowRecord data] := by
  intro hscans
  have hlen := length_rowRecord h
  have hbound : ∀ r ∈ [rowRecord data], (Postcard.logRecord r).length < 2 ^ 64 := by
    intro r hr
    rw [List.mem_singleton.mp hr, hlen]
    decide
  have hfits := framable_of_scansAsFramed hbound hscans _ (List.mem_singleton_self _)
  rw [LogRecord.Framable, hlen] at hfits
  omega

/-- The log of a record of a row of 2^32 bytes does not read back. -/
theorem long_record_lost : ¬ScansAsFramed [rowRecord (List.replicate (2 ^ 32) 0)] :=
  not_scansAsFramed List.length_replicate

end SquealDb.Codec
