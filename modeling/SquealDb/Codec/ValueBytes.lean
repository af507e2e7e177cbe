import SquealDb.Codec.KeyOrder
import SquealDb.Codec.Wire

/-!
# A row's values as tagged bytes

`ValueRef::write_to`, `decode` and `width`, `IndexKey::to_bytes`, `from_bytes` and `refs`
of `valueitem.rs`: each value behind its tag, one after another behind their count.

A string's or blob's content is followed by zeros up to its reserved capacity, which a
reader steps over with it.
-/

namespace SquealDb.Codec

open Lib

/-- The errors reading values gives: `StoreError::TruncatedValueItem`, and the others. -/
inductive ValueError where
  | truncatedValueItem (what : String)
  | store (e : StoreError)
  deriving DecidableEq, Repr

/-- `sized` of `write_to`: what it appends. -/
def writeSized (cap : UInt32) (content : List UInt8) : List UInt8 :=
  leBytes 4 cap.toNat ++ (leBytes 4 content.length ++
    (content ++ List.replicate (cap.toNat - content.length) 0))

def truncated (bytes : List UInt8) : ValueError :=
  .truncatedValueItem ("a value doesn't fit the " ++ toString bytes.length ++
    " byte(s) left of its buffer")

/-- `word`: the little-endian number in the `n` bytes at `index`. -/
def word (n : Nat) (bytes : List UInt8) (index : Nat) : Option Nat :=
  (getRange bytes index (index + n)).map ofLe

/-- `sized`: a string's or blob's capacity, its content, and where the value ends. -/
def sized (bytes : List UInt8) : Option (UInt32 × List UInt8 × Nat) := do
  let cap ← word 4 bytes 1
  let len ← word 4 bytes 5
  let content ← getRange bytes 9 (9 + len)
  return (UInt32.ofNat cap, content, 9 + max len cap)

namespace ValueItem

/-- `ValueRef::write_to`: what it appends. -/
def write : ValueItem → List UInt8
  | null => [0]
  | integer i => 5 :: leBytes 8 i.toUInt64.toNat
  | double bits => 10 :: leBytes 8 bits.toNat
  | datetime t => 15 :: leBytes 8 t.toNat
  | str s cap => 20 :: writeSized cap (asBytes s)
  | blob b cap => 25 :: writeSized cap b
  | boolean b => [30, if b then 1 else 0]

def tryDecode (bytes : List UInt8) : Option (ValueItem × Nat) := do
  match ← bytes.head? with
  | 0 => return (null, 1)
  | 5 => return (integer (UInt64.ofNat (← word 8 bytes 1)).toInt64, 9)
  | 10 => return (double (UInt64.ofNat (← word 8 bytes 1)), 9)
  | 15 => return (datetime (UInt64.ofNat (← word 8 bytes 1)), 9)
  | 20 => do
    let (cap, content, stop) ← sized bytes
    return (str ((fromUtf8 content).getD "") cap, stop)
  | 25 => do
    let (cap, content, stop) ← sized bytes
    return (blob content cap, stop)
  | 30 => return (boolean ((← bytes[1]?) != 0), 2)
  | _ => return (null, 1)

def decode (bytes : List UInt8) : Except ValueError (ValueItem × Nat) :=
  match tryDecode bytes with
  | some read => .ok read
  | none => .error (truncated bytes)

def tryWidth (bytes : List UInt8) : Option Nat := do
  match ← bytes.head? with
  | 5 | 10 | 15 => (getRange bytes 1 9).map fun _ => 9
  | 20 | 25 => return (← sized bytes).2.2
  | 30 => bytes[1]?.map fun _ => 2
  | _ => return 1

def width (bytes : List UInt8) : Except ValueError Nat :=
  match tryWidth bytes with
  | some n => .ok n
  | none => .error (truncated bytes)

/-- A string's or blob's content is shorter than what its length field can say. -/
def Short : ValueItem → Prop
  | str s _ => (asBytes s).length < 2 ^ 32
  | blob b _ => b.length < 2 ^ 32
  | _ => True

end ValueItem

namespace IndexKey

def toBytes (k : IndexKey) : List UInt8 := leBytes 8 k.length ++ k.flatMap ValueItem.write

end IndexKey

structure ValueRefs where
  bytes : List UInt8
  index : Nat
  left : Nat
  deriving DecidableEq, Repr

namespace ValueRefs

/-- `step`: the next value as `read` reads it, if there is one, and the state behind it. -/
def step {α : Type} (read : List UInt8 → Except ValueError (α × Nat)) (r : ValueRefs) :
    Option (Except ValueError α) × ValueRefs :=
  match r.left with
  | 0 => (none, r)
  | left + 1 =>
    let got := if r.index ≤ r.bytes.length then read (r.bytes.drop r.index) else
      .error (.truncatedValueItem ("offset " ++ toString r.index ++ " past end of buffer (" ++
        toString r.bytes.length ++ " byte(s))"))
    match got with
    | .ok (v, used) => (some (.ok v), { r with index := r.index + used, left })
    | .error e => (some (.error e), { r with left := 0 })

def next (r : ValueRefs) : Option (Except ValueError ValueItem) × ValueRefs :=
  r.step ValueItem.decode

def skipValue (r : ValueRefs) : Option (Except ValueError Unit) × ValueRefs :=
  r.step fun bytes => (ValueItem.width bytes).map fun n => ((), n)

/-- The values that are left, up to `n` of them. -/
def collect : Nat → ValueRefs → Except ValueError (List ValueItem)
  | 0, _ => .ok []
  | n + 1, r =>
    match r.next with
    | (none, _) => .ok []
    | (some (.error e), _) => .error e
    | (some (.ok v), r) => (collect n r).map (v :: ·)

end ValueRefs

namespace IndexKey

def refs (bytes : List UInt8) : Except ValueError ValueRefs :=
  match word 8 bytes 0 with
  | some left => .ok ⟨bytes, 8, left⟩
  | none =>
    .error (.truncatedValueItem ("need 8 byte(s) for the field-count prefix, buffer is " ++
      toString bytes.length ++ " byte(s)"))

def fromBytes (bytes : List UInt8) : Except ValueError IndexKey := do
  let refs ← refs bytes
  let data ← refs.collect refs.left
  match newFromOwned data with
  | .ok k => return k
  | .error _ => return [.null]

end IndexKey

/-! ## Reading what was written -/

/-- A number stands where it was written. -/
theorem word_append (before after : List UInt8) (n v : Nat) :
    word n (before ++ (leBytes n v ++ after)) before.length = some (v % 256 ^ n) := by
  have hrange := getRange_append before (leBytes n v) after
  rw [length_leBytes] at hrange
  rw [word, hrange, Option.map_some, ofLe_leBytes]

theorem length_writeSized (cap : UInt32) (content : List UInt8) :
    (writeSized cap content).length = 8 + max content.length cap.toNat := by
  simp only [writeSized, List.length_append, length_leBytes, List.length_replicate]
  omega

theorem sized_write (tag : UInt8) (cap : UInt32) {content : List UInt8}
    (h : content.length < 2 ^ 32) (rest : List UInt8) :
    sized (tag :: (writeSized cap content ++ rest)) =
      some (cap, content, 9 + max content.length cap.toNat) := by
  let padding := List.replicate (cap.toNat - content.length) (0 : UInt8)
  have hbytes : tag :: (writeSized cap content ++ rest) =
      [tag] ++ (leBytes 4 cap.toNat ++
        (leBytes 4 content.length ++ (content ++ (padding ++ rest)))) := by
    simp [writeSized, padding, List.append_assoc]
  have hcap : word 4 (tag :: (writeSized cap content ++ rest)) 1 = some cap.toNat := by
    have hlt := cap.toNat_lt
    have hword := word_append [tag] (leBytes 4 content.length ++ (content ++ (padding ++ rest)))
      4 cap.toNat
    rw [← hbytes, Nat.mod_eq_of_lt (by omega)] at hword
    exact hword
  have hlen : word 4 (tag :: (writeSized cap content ++ rest)) 5 = some content.length := by
    have hword := word_append ([tag] ++ leBytes 4 cap.toNat) (content ++ (padding ++ rest))
      4 content.length
    rw [List.append_assoc, ← hbytes, List.length_append, length_leBytes,
      Nat.mod_eq_of_lt (by omega)] at hword
    exact hword
  have hcontent : getRange (tag :: (writeSized cap content ++ rest)) 9 (9 + content.length) =
      some content := by
    have hrange := getRange_append
      ([tag] ++ (leBytes 4 cap.toNat ++ leBytes 4 content.length)) content (padding ++ rest)
    rw [List.append_assoc, List.append_assoc, ← hbytes, List.length_append, List.length_append,
      length_leBytes, length_leBytes] at hrange
    exact hrange
  simp only [sized, hcap, hlen, hcontent, Option.bind_eq_bind, Option.bind_some,
    Option.pure_def, UInt32.ofNat_toNat]

namespace ValueItem

theorem tryDecode_write {v : ValueItem} (h : v.Short) (rest : List UInt8) :
    tryDecode (v.write ++ rest) = some (v, v.write.length) := by
  have hword : ∀ (tag : UInt8) (n : Nat), word 8 (tag :: (leBytes 8 n ++ rest)) 1 =
      some (n % 256 ^ 8) := fun tag n => word_append [tag] rest 8 n
  cases v with
  | null => rfl
  | integer i =>
    have hlt := i.toUInt64.toNat_lt
    simp only [write, tryDecode, List.cons_append, List.head?_cons, Option.bind_eq_bind,
      Option.bind_some, hword, Option.pure_def, List.length_cons, length_leBytes]
    rw [Nat.mod_eq_of_lt (by omega), UInt64.ofNat_toNat]
    rfl
  | double bits =>
    have hlt := bits.toNat_lt
    simp only [write, tryDecode, List.cons_append, List.head?_cons, Option.bind_eq_bind,
      Option.bind_some, hword, Option.pure_def, List.length_cons, length_leBytes]
    rw [Nat.mod_eq_of_lt (by omega), UInt64.ofNat_toNat]
  | datetime t =>
    have hlt := t.toNat_lt
    simp only [write, tryDecode, List.cons_append, List.head?_cons, Option.bind_eq_bind,
      Option.bind_some, hword, Option.pure_def, List.length_cons, length_leBytes]
    rw [Nat.mod_eq_of_lt (by omega), UInt64.ofNat_toNat]
  | str s cap =>
    have hsized := sized_write 20 cap h rest
    simp only [write, tryDecode, List.cons_append, List.head?_cons, Option.bind_eq_bind,
      Option.bind_some, hsized, Option.pure_def, List.length_cons, length_writeSized,
      fromUtf8_asBytes, Option.getD_some]
    congr 2
    omega
  | blob b cap =>
    have hsized := sized_write 25 cap h rest
    simp only [write, tryDecode, List.cons_append, List.head?_cons, Option.bind_eq_bind,
      Option.bind_some, hsized, Option.pure_def, List.length_cons, length_writeSized]
    congr 2
    omega
  | boolean b => cases b <;> rfl

/-- A written value reads back, whatever follows it. -/
theorem decode_write {v : ValueItem} (h : v.Short) (rest : List UInt8) :
    decode (v.write ++ rest) = .ok (v, v.write.length) := by
  rw [decode, tryDecode_write h rest]

/-- A written value is stepped over whole. -/
theorem width_write {v : ValueItem} (h : v.Short) (rest : List UInt8) :
    width (v.write ++ rest) = .ok v.write.length := by
  have hrange : ∀ (tag : UInt8) (n : Nat),
      getRange (tag :: (leBytes 8 n ++ rest)) 1 9 = some (leBytes 8 n) := by
    intro tag n
    have happend := getRange_append [tag] (leBytes 8 n) rest
    rwa [length_leBytes] at happend
  have htry : tryWidth (v.write ++ rest) = some v.write.length := by
    cases v with
    | null => rfl
    | integer i => simp [write, tryWidth, hrange, length_leBytes]
    | double bits => simp [write, tryWidth, hrange, length_leBytes]
    | datetime t => simp [write, tryWidth, hrange, length_leBytes]
    | str s cap =>
      have hsized := sized_write 20 cap h rest
      simp only [write, tryWidth, List.cons_append, List.head?_cons, Option.bind_eq_bind,
        Option.bind_some, hsized, Option.pure_def, List.length_cons, length_writeSized]
      congr 1
      omega
    | blob b cap =>
      have hsized := sized_write 25 cap h rest
      simp only [write, tryWidth, List.cons_append, List.head?_cons, Option.bind_eq_bind,
        Option.bind_some, hsized, Option.pure_def, List.length_cons, length_writeSized]
      congr 1
      omega
    | boolean b => cases b <;> rfl
  rw [width, htry]

/-- A number's, a string's or a blob's width does not depend on what is made of it. -/
theorem map_snd_bind {α : Type} (read : Option α) (make : α → ValueItem) (stop : α → Nat) :
    ((read.bind fun found => some (make found, stop found)).map Prod.snd) = read.map stop := by
  cases read <;> rfl

theorem tryWidth_eq (bytes : List UInt8) : tryWidth bytes = (tryDecode bytes).map Prod.snd := by
  have hnumber : ∀ make : Nat → ValueItem,
      ((word 8 bytes 1).bind fun m => some (make m, 9)).map Prod.snd =
        (getRange bytes 1 9).map fun _ => 9 := by
    intro make
    rw [map_snd_bind _ make fun _ => 9, word, Option.map_map]
    rfl
  have hsized : ∀ make : UInt32 × List UInt8 × Nat → ValueItem,
      ((sized bytes).bind fun found => some (make found, found.2.2)).map Prod.snd =
        (sized bytes).bind fun found => some found.2.2 := by
    intro make
    rw [map_snd_bind _ make fun found => found.2.2]
    cases sized bytes <;> rfl
  unfold tryDecode tryWidth
  cases bytes.head? with
  | none => rfl
  | some tag =>
    simp only [Option.bind_eq_bind, Option.bind_some, Option.pure_def]
    symm
    split
    · rfl
    · exact hnumber _
    · exact hnumber _
    · exact hnumber _
    · exact hsized _
    · exact hsized _
    · cases bytes[1]? <;> rfl
    · split
      all_goals first | contradiction | rfl

/-- A value is stepped over exactly as it is decoded: as many bytes, and an error where
decoding gives one. -/
theorem width_eq (bytes : List UInt8) : width bytes = (decode bytes).map Prod.snd := by
  rw [width, decode, tryWidth_eq]
  cases tryDecode bytes <;> rfl

/-- What is decoded is stepped over by as many bytes. -/
theorem width_of_decode {bytes : List UInt8} {v : ValueItem} {n : Nat}
    (h : decode bytes = .ok (v, n)) : width bytes = .ok n := by
  rw [width_eq, h]
  rfl

end ValueItem

/-- The reader stands before the values `vs`, which are the last. -/
structure ValueRefs.Before (r : ValueRefs) (vs : List ValueItem) : Prop where
  index_le : r.index ≤ r.bytes.length
  drop_eq : r.bytes.drop r.index = vs.flatMap ValueItem.write
  left_eq : r.left = vs.length

namespace ValueRefs

variable {r : ValueRefs} {v : ValueItem} {vs : List ValueItem}

/-- A step over a value that `read` takes whole. -/
theorem step_before {α : Type} {read : List UInt8 → Except ValueError (α × Nat)} {a : α}
    (h : r.Before (v :: vs))
    (hread : ∀ rest, read (v.write ++ rest) = .ok (a, v.write.length)) :
    ∃ r', r.step read = (some (.ok a), r') ∧ r'.Before vs := by
  have hdrop : r.bytes.drop r.index = v.write ++ vs.flatMap ValueItem.write := by
    rw [h.drop_eq, List.flatMap_cons]
  have hleft : r.left = vs.length + 1 := h.left_eq
  refine ⟨{ r with index := r.index + v.write.length, left := vs.length }, ?_, ?_⟩
  · simp only [step, hleft, h.index_le, if_pos, hdrop, hread]
  · constructor
    · have hlen := congrArg List.length hdrop
      have hle := h.index_le
      rw [List.length_drop, List.length_append] at hlen
      show r.index + v.write.length ≤ r.bytes.length
      omega
    · show r.bytes.drop (r.index + v.write.length) = _
      rw [← List.drop_drop, hdrop, List.drop_left]
    · rfl

theorem next_before (h : r.Before (v :: vs)) (hv : v.Short) :
    ∃ r', r.next = (some (.ok v), r') ∧ r'.Before vs :=
  step_before h fun rest => ValueItem.decode_write hv rest

theorem skipValue_before (h : r.Before (v :: vs)) (hv : v.Short) :
    ∃ r', r.skipValue = (some (.ok ()), r') ∧ r'.Before vs :=
  step_before h fun rest => by rw [ValueItem.width_write hv rest]; rfl

/-- The values left are read one after another. -/
theorem collect_before (h : r.Before vs) (hvs : ∀ v ∈ vs, v.Short) :
    r.collect vs.length = .ok vs := by
  induction vs generalizing r with
  | nil => rfl
  | cons v vs ih =>
    obtain ⟨r', hnext, hbefore⟩ := next_before h (hvs v List.mem_cons_self)
    have hrest := ih hbefore fun w hw => hvs w (List.mem_cons_of_mem v hw)
    simp only [List.length_cons, collect, hnext, hrest]
    rfl

end ValueRefs

namespace IndexKey

variable {k : IndexKey}

theorem word_toBytes (hlen : k.length < 2 ^ 64) : word 8 (toBytes k) 0 = some k.length := by
  have hword := word_append [] (k.flatMap ValueItem.write) 8 k.length
  rw [Nat.mod_eq_of_lt (by omega)] at hword
  exact hword

/-- The reader of a row's bytes stands before its values. -/
theorem refs_toBytes (hlen : k.length < 2 ^ 64) :
    ∃ r, refs (toBytes k) = .ok r ∧ r.Before k := by
  refine ⟨⟨toBytes k, 8, k.length⟩, ?_, ?_⟩
  · rw [refs, word_toBytes hlen]
  · constructor
    · show 8 ≤ (toBytes k).length
      rw [toBytes, List.length_append, length_leBytes]
      omega
    · show (toBytes k).drop 8 = _
      exact List.drop_left' (length_leBytes 8 k.length)
    · rfl

/-- A row is built of values that each pass their check. -/
theorem newFromOwned_iff {data : List ValueItem} :
    newFromOwned data = .ok data ↔ ∀ v ∈ data, v.validate = .ok () := by
  have hall : data.forM ValueItem.validate = .ok () ↔ ∀ v ∈ data, v.validate = .ok () := by
    induction data with
    | nil => exact ⟨fun _ v hv => absurd hv List.not_mem_nil, fun _ => rfl⟩
    | cons v data ih =>
      rw [List.forM_eq_forM, List.forM_cons, List.forall_mem_cons]
      cases hv : v.validate with
      | error e => exact ⟨fun h => (nomatch h), fun h => (nomatch h.1)⟩
      | ok u => exact ⟨fun h => ⟨rfl, ih.mp h⟩, fun h => ih.mpr h.2⟩
  rw [← hall, newFromOwned]
  cases data.forM ValueItem.validate with
  | error e => exact ⟨fun h => (nomatch h), fun h => (nomatch h)⟩
  | ok u => exact ⟨fun _ => rfl, fun _ => rfl⟩

/-- A row's values read back. -/
theorem fromBytes_toBytes (hlen : k.length < 2 ^ 64) (hshort : ∀ v ∈ k, v.Short)
    (hvalid : newFromOwned k = .ok k) : fromBytes (toBytes k) = .ok k := by
  obtain ⟨r, hrefs, hbefore⟩ := refs_toBytes hlen
  have hcollect : r.collect r.left = .ok k := by
    rw [hbefore.left_eq]
    exact ValueRefs.collect_before hbefore hshort
  rw [fromBytes, hrefs]
  show (r.collect r.left >>= fun data => _) = _
  rw [hcollect]
  show (match newFromOwned k with | .ok k => _ | .error _ => _) = _
  rw [hvalid]
  rfl

end IndexKey

end SquealDb.Codec
