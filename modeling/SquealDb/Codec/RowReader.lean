import SquealDb.Codec.ValueBytes

/-!
# Reading some fields of a row

A projected read takes a row's bytes one field at a time and either decodes the field
(`ValueRefs::next`) or steps over it (`ValueRefs::skip_value`). This module has a row read
by any such choices, over any bytes: written by the store or not.
-/

namespace SquealDb.Codec

open Lib

/-- What a reader does with a field. -/
inductive FieldRead where
  | next
  | skip
  deriving DecidableEq, Repr

/-- What is left of a field's value. -/
def FieldRead.keeps : FieldRead → ValueItem → Option ValueItem
  | next, v => some v
  | skip, _ => none

/-- What a field's reading gives: nothing when no field is left, an error, or what the
reader keeps of the value. -/
abbrev FieldOutcome := Option (Except ValueError (Option ValueItem))

namespace ValueRefs

/-- A field is read as `c` says. -/
def read (c : FieldRead) (r : ValueRefs) : FieldOutcome × ValueRefs :=
  match c with
  | .next => (r.next.1.map (Except.map some), r.next.2)
  | .skip => (r.skipValue.1.map (Except.map fun _ => none), r.skipValue.2)

/-- Fields are read as `cs` says, one after another. -/
def readAll : List FieldRead → ValueRefs → List FieldOutcome × ValueRefs
  | [], r => ([], r)
  | c :: cs, r =>
    let (out, r) := r.read c
    let (outs, r) := readAll cs r
    (out :: outs, r)

/-- What decoding the next `n` fields gives. -/
def decoded : Nat → ValueRefs → List (Option (Except ValueError ValueItem))
  | 0, _ => []
  | n + 1, r => r.next.1 :: decoded n r.next.2

/-- Where decoding the next `n` fields leaves the reader. -/
def after : Nat → ValueRefs → ValueRefs
  | 0, r => r
  | n + 1, r => after n r.next.2

/-! ## Skipping and decoding -/

/-- Stepping over a field leaves the reader where decoding it does, and fails as it does. -/
theorem skipValue_eq (r : ValueRefs) :
    r.skipValue = (r.next.1.map (Except.map fun _ => ()), r.next.2) := by
  simp only [skipValue, next, step, ValueItem.width_eq]
  cases r.left with
  | zero => rfl
  | succ left =>
    by_cases hle : r.index ≤ r.bytes.length
    · simp only [hle, if_true]
      cases ValueItem.decode (r.bytes.drop r.index) <;> rfl
    · simp only [hle, if_false]
      rfl

theorem read_eq (c : FieldRead) (r : ValueRefs) :
    r.read c = (r.next.1.map (Except.map c.keeps), r.next.2) := by
  cases c with
  | next => rfl
  | skip =>
    simp only [read, skipValue_eq, Option.map_map]
    congr 2
    funext out
    cases out <;> rfl

/-- Whatever is skipped, the reader stands where decoding every field leaves it, and each
field gives what is kept of what decoding gives there. -/
theorem readAll_eq (cs : List FieldRead) (r : ValueRefs) :
    readAll cs r = (List.zipWith (fun c out => out.map (Except.map c.keeps)) cs
      (decoded cs.length r), after cs.length r) := by
  induction cs generalizing r with
  | nil => rfl
  | cons c cs ih => simp only [readAll, read_eq, ih, List.length_cons, decoded, after,
      List.zipWith_cons_cons]

/-- The outcome of a field that some choice decodes or skips. -/
theorem readAll_getElem? (cs : List FieldRead) (r : ValueRefs) (i : Nat) :
    (readAll cs r).1[i]? =
      cs[i]?.bind fun c => (decoded cs.length r)[i]?.map (Option.map (Except.map c.keeps)) := by
  rw [readAll_eq, List.getElem?_zipWith]
  cases cs[i]? with
  | none => rfl
  | some c => cases (decoded cs.length r)[i]? <;> rfl

/-- An error shows whether its field is decoded or skipped. -/
theorem error_mem_readAll {cs : List FieldRead} {r : ValueRefs} {e : ValueError} :
    some (.error e) ∈ (readAll cs r).1 ↔ some (.error e) ∈ decoded cs.length r := by
  induction cs generalizing r with
  | nil => simp [readAll, decoded]
  | cons c cs ih =>
    have hhead : some (.error e) = r.next.1.map (Except.map c.keeps) ↔
        some (.error e) = r.next.1 := by
      cases r.next.1 with
      | none => simp
      | some out => cases out <;> simp [Except.map]
    simp only [readAll, read_eq, List.length_cons, decoded, List.mem_cons, hhead, ih]

/-! ## Rows the store wrote -/

theorem decoded_before {r : ValueRefs} {vs : List ValueItem} (h : r.Before vs)
    (hvs : ∀ v ∈ vs, v.Short) : decoded vs.length r = vs.map fun v => some (.ok v) := by
  induction vs generalizing r with
  | nil => rfl
  | cons v vs ih =>
    obtain ⟨r', hnext, hbefore⟩ := next_before h (hvs v List.mem_cons_self)
    have hrest := ih hbefore fun w hw => hvs w (List.mem_cons_of_mem v hw)
    simp only [List.length_cons, decoded, hnext, hrest, List.map_cons]

/-- Over a row's own bytes the fields that are decoded are its values, in order. -/
theorem readAll_written {k : IndexKey} (hlen : k.length < 2 ^ 64) (hshort : ∀ v ∈ k, v.Short) :
    ∃ r, IndexKey.refs k.toBytes = .ok r ∧ ∀ cs : List FieldRead, cs.length = k.length →
      (readAll cs r).1 = List.zipWith (fun c v => some (.ok (c.keeps v))) cs k := by
  obtain ⟨r, hrefs, hbefore⟩ := IndexKey.refs_toBytes hlen
  refine ⟨r, hrefs, fun cs hcs => ?_⟩
  rw [readAll_eq, hcs, decoded_before hbefore hshort, List.zipWith_map_right]
  rfl

end ValueRefs

/-! ## Bytes cut short -/

variable {bytes : List UInt8}

theorem getRange_take {m start stop : Nat} :
    getRange (bytes.take m) start stop =
      if stop ≤ m then getRange bytes start stop else none := by
  by_cases hm : stop ≤ m
  · have hmin : stop ≤ (bytes.take m).length ↔ stop ≤ bytes.length := by
      rw [List.length_take]
      omega
    have hcontent : ((bytes.take m).drop start).take (stop - start) =
        (bytes.drop start).take (stop - start) := by
      rw [List.drop_take, List.take_take, Nat.min_eq_left (by omega)]
    simp only [if_pos hm, getRange, hmin, hcontent]
  · have hshort : ¬(start ≤ stop ∧ stop ≤ (bytes.take m).length) := by
      rw [List.length_take]
      omega
    rw [if_neg hm, getRange, if_neg hshort]

theorem length_getRange {content : List UInt8} {start stop : Nat}
    (h : getRange bytes start stop = some content) : content.length = stop - start := by
  unfold getRange at h
  split at h
  · rw [← Option.some.inj h, List.length_take, List.length_drop]
    omega
  · cases h

theorem word_take {m n index : Nat} :
    word n (bytes.take m) index = if index + n ≤ m then word n bytes index else none := by
  rw [word, getRange_take]
  split <;> rfl

/-- The length a string's or blob's header gives its content. -/
def contentLength (bytes : List UInt8) : Nat := (word 4 bytes 5).getD 0

/-- A string or blob cut short reads as it did if its content is left whole. -/
theorem sized_take {m : Nat} :
    sized (bytes.take m) = if 9 + contentLength bytes ≤ m then sized bytes else none := by
  simp only [sized, word_take, getRange_take, contentLength, Option.bind_eq_bind,
    Option.pure_def]
  rcases Option.eq_none_or_eq_some (word 4 bytes 5) with hlen | ⟨len, hlen⟩
  · simp only [hlen, ite_self, Option.bind_none, Option.bind_fun_none]
  · simp only [hlen, Option.getD_some, Option.bind_some]
    by_cases hm : 9 + len ≤ m
    · have hfirst : 1 + 4 ≤ m := by omega
      have hsecond : 5 + 4 ≤ m := by omega
      simp only [if_pos hm, if_pos hfirst, if_pos hsecond, Option.bind_some]
    · by_cases hsecond : 5 + 4 ≤ m
      · simp only [if_neg hm, if_pos hsecond, Option.bind_some, Option.bind_none,
          Option.bind_fun_none]
      · simp only [if_neg hm, if_neg hsecond, Option.bind_none, Option.bind_fun_none]

namespace ValueItem

/-- How many of a field's bytes must be there for it to be read: all but its padding. -/
def extent (bytes : List UInt8) : Nat :=
  match bytes.head? with
  | some 5 | some 10 | some 15 => 9
  | some 20 | some 25 => 9 + contentLength bytes
  | some 30 => 2
  | _ => 1

theorem tryDecode_take (bytes : List UInt8) (m : Nat) :
    tryDecode (bytes.take m) = if extent bytes ≤ m then tryDecode bytes else none := by
  have hnumber : ∀ make : Nat → ValueItem,
      ((word 8 (bytes.take m) 1).bind fun w => some (make w, 9)) =
        if 9 ≤ m then (word 8 bytes 1).bind fun w => some (make w, 9) else none := by
    intro make
    rw [word_take]
    split <;> rfl
  have hsized : ∀ make : UInt32 × List UInt8 × Nat → ValueItem,
      ((sized (bytes.take m)).bind fun found => some (make found, found.2.2)) =
        if 9 + contentLength bytes ≤ m then
          (sized bytes).bind fun found => some (make found, found.2.2) else none := by
    intro make
    rw [sized_take]
    split <;> rfl
  cases m with
  | zero =>
    have hextent : ¬extent bytes ≤ 0 := by
      unfold extent
      split <;> omega
    rw [if_neg hextent]
    rfl
  | succ m =>
    have hhead : (bytes.take (m + 1)).head? = bytes.head? := by
      rw [List.head?_take, if_neg (by omega)]
    unfold tryDecode extent
    rw [hhead]
    cases bytes.head? with
    | none => simp
    | some tag =>
      simp only [Option.bind_eq_bind, Option.bind_some, Option.pure_def]
      split
      · simp
      · exact hnumber _
      · exact hnumber _
      · exact hnumber _
      · exact hsized _
      · exact hsized _
      · simp only [List.getElem?_take]
        split <;> split
        all_goals first | omega | rfl
      · rw [if_pos]
        split
        all_goals first | omega | simp_all

variable {bytes : List UInt8} {v : ValueItem} {n : Nat}

theorem decode_ok_iff :
    decode bytes = .ok (v, n) ↔ tryDecode bytes = some (v, n) := by
  rw [decode]
  cases tryDecode bytes with
  | none => simp
  | some read => simp

/-- What a string's or blob's bounds are. -/
theorem sized_bounds {found : UInt32 × List UInt8 × Nat} (h : sized bytes = some found) :
    9 + contentLength bytes ≤ found.2.2 ∧ found.2.2 < 9 + 2 ^ 32 ∧
      found.2.1.length < 2 ^ 32 := by
  have hword : ∀ {index w : Nat}, word 4 bytes index = some w → w < 2 ^ 32 := by
    intro index w hw
    obtain ⟨content, hcontent, hw⟩ := Option.map_eq_some_iff.mp hw
    have hlt := ofLe_lt content
    rw [length_getRange hcontent, hw] at hlt
    have hfour : index + 4 - index = 4 := by omega
    rw [hfour] at hlt
    omega
  simp only [sized, Option.bind_eq_bind, Option.pure_def, Option.bind_eq_some_iff,
    Option.some.injEq] at h
  obtain ⟨cap, hcap, len, hlen, content, hcontent, rfl⟩ := h
  have hc := hword hcap
  have hl := hword hlen
  have hlength := length_getRange hcontent
  rw [contentLength, hlen, Option.getD_some]
  show 9 + len ≤ 9 + max len cap ∧ 9 + max len cap < 9 + 2 ^ 32 ∧ content.length < 2 ^ 32
  omega

/-- A field takes at least the bytes that must be there, and fewer than an index can pass. -/
theorem width_bounds (h : tryWidth bytes = some n) :
    extent bytes ≤ n ∧ 0 < n ∧ n < 9 + 2 ^ 32 ∧ bytes ≠ [] := by
  unfold tryWidth at h
  unfold extent
  cases hhead : bytes.head? with
  | none => simp [hhead] at h
  | some tag =>
    have hne : bytes ≠ [] := by
      rintro rfl
      cases hhead
    simp only [hhead, Option.bind_eq_bind, Option.bind_some, Option.pure_def] at h
    split at h
    case h_1 | h_2 | h_3 =>
      obtain ⟨content, -, rfl⟩ := Option.map_eq_some_iff.mp h
      exact ⟨Nat.le_refl 9, by omega, by omega, hne⟩
    case h_4 | h_5 =>
      obtain ⟨found, hfound, hn⟩ := Option.bind_eq_some_iff.mp h
      have hbounds := sized_bounds hfound
      rw [← Option.some.inj hn]
      exact ⟨hbounds.1, by omega, hbounds.2.1, hne⟩
    case h_6 =>
      obtain ⟨b, -, rfl⟩ := Option.map_eq_some_iff.mp h
      exact ⟨Nat.le_refl 2, by omega, by omega, hne⟩
    case h_7 =>
      rw [← Option.some.inj h]
      refine ⟨?_, by omega, by omega, hne⟩
      split
      all_goals first | omega | simp_all

theorem tryWidth_of_decode (h : decode bytes = .ok (v, n)) : tryWidth bytes = some n := by
  rw [tryWidth_eq, decode_ok_iff.mp h]
  rfl

/-- A field is read from the bytes it takes, and no others. -/
theorem decode_take (h : decode bytes = .ok (v, n)) : decode (bytes.take n) = .ok (v, n) := by
  have hbounds := width_bounds (tryWidth_of_decode h)
  rw [decode_ok_iff, tryDecode_take, if_pos hbounds.1]
  exact decode_ok_iff.mp h

/-- The zeros behind a string's or blob's content. -/
def padding : ValueItem → Nat
  | str s cap => cap.toNat - (asBytes s).length
  | blob b cap => cap.toNat - b.length
  | _ => 0

/-- All of a written value but its padding must be there. -/
theorem extent_write (h : v.Short) (rest : List UInt8) :
    extent (v.write ++ rest) + v.padding = v.write.length := by
  have hsized : ∀ (tag : UInt8) (cap : UInt32) {content : List UInt8},
      content.length < 2 ^ 32 → 9 + contentLength (tag :: (writeSized cap content ++ rest)) +
        (cap.toNat - content.length) = 1 + (writeSized cap content).length := by
    intro tag cap content hcontent
    have hword := word_append ([tag] ++ leBytes 4 cap.toNat)
      ((content ++ List.replicate (cap.toNat - content.length) 0) ++ rest) 4 content.length
    have hbytes : [tag] ++ leBytes 4 cap.toNat ++ (leBytes 4 content.length ++
        (content ++ List.replicate (cap.toNat - content.length) 0 ++ rest)) =
          tag :: (writeSized cap content ++ rest) := by
      simp [writeSized, List.append_assoc]
    rw [hbytes, List.length_append, length_leBytes, Nat.mod_eq_of_lt (by omega)] at hword
    have hlen : contentLength (tag :: (writeSized cap content ++ rest)) = content.length := by
      rw [contentLength]
      exact congrArg (Option.getD · 0) hword
    rw [hlen, length_writeSized]
    omega
  cases v with
  | null => rfl
  | integer i => simp [write, extent, padding]
  | double bits => simp [write, extent, padding]
  | datetime t => simp [write, extent, padding]
  | str s cap =>
    have hstr := hsized 20 cap h
    simp only [write, extent, padding, List.cons_append, List.head?_cons, List.length_cons]
    omega
  | blob b cap =>
    have hblob := hsized 25 cap h
    simp only [write, extent, padding, List.cons_append, List.head?_cons, List.length_cons]
    omega
  | boolean b => rfl

end ValueItem

namespace ValueRefs

/-! ## Reading to the end of the bytes -/

/-- The outcomes end in an error: the fields before it are read, and none after it. -/
def EndsInErr (outs : List FieldOutcome) : Prop :=
  ∃ (kept : List (Option ValueItem)) (e : ValueError) (m : Nat),
    outs = kept.map (fun v => some (.ok v)) ++ some (.error e) :: List.replicate m none

variable {r : ValueRefs} {cs : List FieldRead}

/-- With no field left there is nothing to read. -/
theorem readAll_done (h : r.left = 0) (cs : List FieldRead) :
    readAll cs r = (List.replicate cs.length none, r) := by
  have hnext : r.next = (none, r) := by
    rw [next, step, h]
  induction cs with
  | nil => rfl
  | cons c cs ih =>
    simp only [readAll, read_eq, hnext, ih, List.length_cons, List.replicate_succ]
    rfl

/-- What the next field gives, and where it leaves the reader. -/
theorem next_cases (r : ValueRefs) :
    r.left = 0 ∧ r.next = (none, r) ∨
    (∃ e, r.next = (some (.error e), { r with left := 0 })) ∨
    ∃ v n, 0 < r.left ∧ r.index ≤ r.bytes.length ∧
      ValueItem.decode (r.bytes.drop r.index) = .ok (v, n) ∧
      r.next = (some (.ok v), { r with index := r.index + n, left := r.left - 1 }) := by
  cases hleft : r.left with
  | zero => exact .inl ⟨rfl, by rw [next, step, hleft]⟩
  | succ left =>
    by_cases hle : r.index ≤ r.bytes.length
    · cases hread : ValueItem.decode (r.bytes.drop r.index) with
      | error e => exact .inr (.inl ⟨e, by simp only [next, step, hleft, if_pos hle, hread]⟩)
      | ok read =>
        refine .inr (.inr ⟨read.1, read.2, Nat.succ_pos left, hle, rfl, ?_⟩)
        simp only [next, step, hleft, if_pos hle, hread, Nat.add_sub_cancel]
    · right
      left
      simp only [next, step, hleft, if_neg hle]
      exact ⟨_, rfl⟩

theorem readAll_cons (c : FieldRead) (cs : List FieldRead) (r : ValueRefs) :
    readAll (c :: cs) r =
      (r.next.1.map (Except.map c.keeps) :: (readAll cs r.next.2).1,
        (readAll cs r.next.2).2) := by
  simp only [readAll, read_eq]

/-- An error is the last thing a row's reading gives. -/
theorem endsInErr_of_error {c : FieldRead} {r' : ValueRefs} {e : ValueError}
    (h : r.next = (some (.error e), r')) (hleft : r'.left = 0) :
    EndsInErr (readAll (c :: cs) r).1 := by
  refine ⟨[], e, cs.length, ?_⟩
  rw [readAll_cons, h, readAll_done hleft]
  rfl

/-- A field that is read leaves the end to the fields behind it. -/
theorem endsInErr_of_ok {c : FieldRead} {r' : ValueRefs} {v : ValueItem}
    (h : r.next = (some (.ok v), r')) (hends : EndsInErr (readAll cs r').1) :
    EndsInErr (readAll (c :: cs) r).1 := by
  obtain ⟨kept, e, m, hrest⟩ := hends
  refine ⟨c.keeps v :: kept, e, m, ?_⟩
  rw [readAll_cons, h, hrest]
  rfl

/-- Bytes that count more fields than there are bytes behind the count end in an error. -/
theorem error_of_many (hcs : cs.length ≤ r.left) (hne : cs ≠ [])
    (hmany : r.bytes.length < r.index + cs.length) :
    EndsInErr (readAll cs r).1 := by
  induction cs generalizing r with
  | nil => exact absurd rfl hne
  | cons c cs ih =>
    rw [List.length_cons] at hcs hmany
    rcases next_cases r with ⟨hdone, -⟩ | ⟨e, herror⟩ | ⟨v, n, hleft, hle, hread, hnext⟩
    · omega
    · exact endsInErr_of_error herror rfl
    · have hbounds := ValueItem.width_bounds (ValueItem.tryWidth_of_decode hread)
      have hthere : r.index < r.bytes.length := by
        have hdrop := hbounds.2.2.2
        rw [Ne, List.drop_eq_nil_iff] at hdrop
        omega
      apply endsInErr_of_ok hnext
      apply ih
      · show cs.length ≤ r.left - 1
        omega
      · rintro rfl
        rw [List.length_nil] at hmany
        omega
      · show r.bytes.length < r.index + n + cs.length
        omega

/-- However far a row is read, its reader's index is no farther than one field's width
behind the bytes. -/
theorem index_le (cs : List FieldRead) (h : r.index ≤ r.bytes.length + (9 + 2 ^ 32)) :
    (readAll cs r).2.index ≤ r.bytes.length + (9 + 2 ^ 32) := by
  induction cs generalizing r with
  | nil => exact h
  | cons c cs ih =>
    rw [readAll_cons]
    rcases next_cases r with ⟨-, hnext⟩ | ⟨e, hnext⟩ | ⟨v, n, -, hle, hread, hnext⟩
    · rw [hnext]
      exact ih h
    · rw [hnext]
      exact ih (r := { r with left := 0 }) h
    · have hbounds := ValueItem.width_bounds (ValueItem.tryWidth_of_decode hread)
      rw [hnext]
      apply ih (r := { r with index := r.index + n, left := r.left - 1 })
      show r.index + n ≤ r.bytes.length + (9 + 2 ^ 32)
      omega

end ValueRefs

namespace IndexKey

/-- The zeros at the end of a row's bytes: those behind its last value. -/
def lastPadding : IndexKey → Nat
  | [] => 0
  | [v] => v.padding
  | _ :: w :: k => lastPadding (w :: k)

end IndexKey

namespace ValueRefs

/-- Fewer bytes are left than the values `vs` need, the padding of the last aside. -/
def CutShort (r : ValueRefs) (vs : List ValueItem) : Prop :=
  r.left = vs.length ∧
    (r.bytes.length < r.index ∧ vs ≠ [] ∨
      ∃ m, r.bytes.drop r.index = (vs.flatMap ValueItem.write).take m ∧
        m + IndexKey.lastPadding vs < (vs.flatMap ValueItem.write).length)

variable {r : ValueRefs} {vs : List ValueItem}

/-- Behind a value that is read whole, the rest is cut short if the row was. -/
theorem cutShort_behind {v : ValueItem} {m extent : Nat}
    (hdrop : r.bytes.drop r.index = (v.write ++ vs.flatMap ValueItem.write).take m)
    (hm : m + IndexKey.lastPadding (v :: vs) < (v.write ++ vs.flatMap ValueItem.write).length)
    (hfits : extent ≤ m) (hextent : extent + v.padding = v.write.length)
    (hle : r.index ≤ r.bytes.length) :
    r.bytes.length < r.index + v.write.length ∧ vs ≠ [] ∨
      ∃ m, r.bytes.drop (r.index + v.write.length) = (vs.flatMap ValueItem.write).take m ∧
        m + IndexKey.lastPadding vs < (vs.flatMap ValueItem.write).length := by
  cases vs with
  | nil =>
    rw [List.flatMap_nil, List.append_nil] at hm
    have hlast : IndexKey.lastPadding [v] = v.padding := rfl
    omega
  | cons w vs =>
    have hlast : IndexKey.lastPadding (v :: w :: vs) = IndexKey.lastPadding (w :: vs) := rfl
    rw [List.length_append, hlast] at hm
    by_cases hpast : r.bytes.length < r.index + v.write.length
    · exact .inl ⟨hpast, List.cons_ne_nil w vs⟩
    · have hlength := congrArg List.length hdrop
      rw [List.length_drop, List.length_take] at hlength
      refine .inr ⟨m - v.write.length, ?_, by omega⟩
      rw [← List.drop_drop, hdrop, List.drop_take, List.drop_left]

/-- A row cut short gives an error, or its next value with the rest cut short. -/
theorem next_cut {v : ValueItem} (hv : v.Short) (h : r.CutShort (v :: vs)) :
    (∃ e r', r.next = (some (.error e), r') ∧ r'.left = 0) ∨
      ∃ r', r.next = (some (.ok v), r') ∧ r'.CutShort vs := by
  obtain ⟨hleft, hcase⟩ := h
  by_cases hle : r.index ≤ r.bytes.length
  · obtain ⟨hpast, -⟩ | ⟨m, hdrop, hm⟩ := hcase
    · omega
    · have hextent := ValueItem.extent_write hv (vs.flatMap ValueItem.write)
      rw [List.flatMap_cons] at hdrop hm
      have hread : ValueItem.tryDecode (r.bytes.drop r.index) =
          if ValueItem.extent (v.write ++ vs.flatMap ValueItem.write) ≤ m then
            some (v, v.write.length) else none := by
        rw [hdrop, ValueItem.tryDecode_take, ValueItem.tryDecode_write hv]
      by_cases hfits : ValueItem.extent (v.write ++ vs.flatMap ValueItem.write) ≤ m
      · rw [if_pos hfits] at hread
        refine .inr ⟨{ r with index := r.index + v.write.length, left := vs.length }, ?_, rfl, ?_⟩
        · simp only [next, step, hleft, List.length_cons, if_pos hle,
            ValueItem.decode_ok_iff.mpr hread]
        · exact cutShort_behind hdrop hm hfits hextent hle
      · rw [if_neg hfits] at hread
        refine .inl ⟨truncated (r.bytes.drop r.index), { r with left := 0 }, ?_, rfl⟩
        simp only [next, step, hleft, List.length_cons, if_pos hle, ValueItem.decode, hread]
  · left
    simp only [next, step, hleft, List.length_cons, if_neg hle]
    exact ⟨_, _, rfl, rfl⟩

/-- A row's bytes cut short before the padding of its last value end in an error, whatever
is skipped. -/
theorem endsInErr_of_cut {cs : List FieldRead} (hvs : ∀ v ∈ vs, v.Short) (h : r.CutShort vs)
    (hcs : cs.length = vs.length) :
    EndsInErr (readAll cs r).1 := by
  induction vs generalizing cs r with
  | nil =>
    obtain ⟨-, ⟨-, hne⟩ | ⟨m, -, hm⟩⟩ := h
    · exact absurd rfl hne
    · exact absurd hm (Nat.not_lt_zero _)
  | cons v vs ih =>
    cases cs with
    | nil => cases hcs
    | cons c cs =>
      rcases next_cut (hvs v List.mem_cons_self) h with
        ⟨e, r', hnext, hleft⟩ | ⟨r', hnext, hcut⟩
      · exact endsInErr_of_error hnext hleft
      · apply endsInErr_of_ok hnext
        exact ih (fun w hw => hvs w (List.mem_cons_of_mem v hw)) hcut
          (Nat.succ.inj hcs)

/-- The reader of a row's bytes cut short has fewer bytes than its values need. -/
theorem refs_take {k : IndexKey} (hlen : k.length < 2 ^ 64) {n : Nat}
    (hn : n + k.lastPadding < k.toBytes.length) (h : IndexKey.refs (k.toBytes.take n) = .ok r) :
    r.CutShort k := by
  have hword : word 8 (k.toBytes.take n) 0 = if 0 + 8 ≤ n then word 8 k.toBytes 0 else none :=
    word_take
  by_cases height : 0 + 8 ≤ n
  · rw [if_pos height, IndexKey.word_toBytes hlen] at hword
    rw [IndexKey.refs, hword] at h
    rw [← Except.ok.inj h]
    refine ⟨rfl, .inr ⟨n - 8, ?_, ?_⟩⟩
    · show (k.toBytes.take n).drop 8 = _
      rw [List.drop_take]
      exact congrArg (List.take (n - 8)) (List.drop_left' (length_leBytes 8 k.length))
    · rw [IndexKey.toBytes, List.length_append, length_leBytes] at hn
      omega
  · rw [if_neg height] at hword
    rw [IndexKey.refs, hword] at h
    cases h

/-- Where reading ends in an error, the row's values are not collected. -/
theorem collect_of_endsInErr {n : Nat} (h : EndsInErr (readAll (List.replicate n .next) r).1) :
    ∃ e, r.collect n = .error e := by
  induction n generalizing r with
  | zero =>
    obtain ⟨kept, e, m, hnil⟩ := h
    simp [readAll] at hnil
  | succ n ih =>
    rw [List.replicate_succ, readAll_cons] at h
    obtain ⟨kept, e, m, hall⟩ := h
    rw [collect]
    cases kept with
    | nil =>
      have hhead := (List.cons.inj hall).1
      rcases next_cases r with ⟨-, hnext⟩ | ⟨e', hnext⟩ | ⟨v, used, -, -, -, hnext⟩
      · rw [hnext] at hhead
        cases hhead
      · rw [hnext]
        exact ⟨e', rfl⟩
      · rw [hnext] at hhead
        cases hhead
    | cons v kept =>
      have htail := (List.cons.inj hall).2
      rcases next_cases r with ⟨-, hnext⟩ | ⟨e', hnext⟩ | ⟨v, used, -, -, -, hnext⟩
      · rw [hnext] at hall
        cases (List.cons.inj hall).1
      · rw [hnext]
        exact ⟨e', rfl⟩
      · obtain ⟨e', he'⟩ := ih ⟨kept, e, m, htail⟩
        rw [hnext] at he' ⊢
        exact ⟨e', congrArg (Except.map (v :: ·)) he'⟩

end ValueRefs

/-! ## The codec -/

namespace IndexKey

theorem refs_ok {bytes : List UInt8} {r : ValueRefs} (h : refs bytes = .ok r) :
    r.bytes = bytes ∧ r.index = 8 ∧ 8 ≤ bytes.length := by
  unfold refs at h
  split at h
  · rename_i left hleft
    obtain ⟨content, hcontent, -⟩ := Option.map_eq_some_iff.mp hleft
    unfold getRange at hcontent
    split at hcontent
    · rename_i hrange
      rw [← Except.ok.inj h]
      exact ⟨rfl, rfl, by omega⟩
    · cases hcontent
  · cases h

/-- `from_bytes` fails where a reader of every field does. -/
theorem fromBytes_error {bytes : List UInt8}
    (h : ∀ r, refs bytes = .ok r →
      ValueRefs.EndsInErr (ValueRefs.readAll (List.replicate r.left .next) r).1) :
    ∃ e, fromBytes bytes = .error e := by
  rw [fromBytes]
  cases hrefs : refs bytes with
  | error e => exact ⟨e, rfl⟩
  | ok r =>
    obtain ⟨e, hcollect⟩ := ValueRefs.collect_of_endsInErr (h r hrefs)
    refine ⟨e, ?_⟩
    show (r.collect r.left >>= fun data => _) = _
    rw [hcollect]
    rfl

end IndexKey

/-- What a reader is owed by the codec: a row's own bytes read back whatever is skipped, and
end in an error if they are cut short; over any bytes skipping changes neither where the
reader stands nor what the other fields give; a count the bytes cannot hold is an error;
nothing outside a field's bytes is read. A tag that is not known reads as null, and a string
that is not UTF-8 as the empty one. -/
theorem row_values_codec :
    (∀ k : IndexKey, k.length < 2 ^ 64 → IndexKey.newFromOwned k = .ok k → (∀ v ∈ k, v.Short) →
      IndexKey.fromBytes k.toBytes = .ok k ∧
      (∃ r, IndexKey.refs k.toBytes = .ok r ∧ ∀ cs : List FieldRead, cs.length = k.length →
        (ValueRefs.readAll cs r).1 = List.zipWith (fun c v => some (.ok (c.keeps v))) cs k) ∧
      ∀ n, n + k.lastPadding < k.toBytes.length →
        (∃ e, IndexKey.fromBytes (k.toBytes.take n) = .error e) ∧
        ∀ r, IndexKey.refs (k.toBytes.take n) = .ok r → ∀ cs : List FieldRead,
          cs.length = r.left → ValueRefs.EndsInErr (ValueRefs.readAll cs r).1) ∧
    (∀ (r : ValueRefs) (cs ds : List FieldRead), cs.length = ds.length →
      (ValueRefs.readAll cs r).2 = (ValueRefs.readAll ds r).2 ∧
      (∀ (i : Nat) (c : FieldRead), cs[i]? = some c → ds[i]? = some c →
        (ValueRefs.readAll cs r).1[i]? = (ValueRefs.readAll ds r).1[i]?) ∧
      ∀ e, some (.error e) ∈ (ValueRefs.readAll cs r).1 ↔
        some (.error e) ∈ (ValueRefs.readAll ds r).1) ∧
    (∀ (bytes : List UInt8) (r : ValueRefs), IndexKey.refs bytes = .ok r →
      ∀ cs : List FieldRead,
        (ValueRefs.readAll cs r).2.index ≤ bytes.length + (9 + 2 ^ 32) ∧
        (cs.length = r.left → bytes.length < 8 + r.left →
          ValueRefs.EndsInErr (ValueRefs.readAll cs r).1)) ∧
    (∀ (bytes : List UInt8) (v : ValueItem) (n : Nat), ValueItem.decode bytes = .ok (v, n) →
      ValueItem.decode (bytes.take n) = .ok (v, n)) ∧
    (∀ (tag : UInt8) (rest : List UInt8), tag ∉ [0, 5, 10, 15, 20, 25, 30] →
      ValueItem.decode (tag :: rest) = .ok (.null, 1)) ∧
    ∀ (cap : UInt32) (content rest : List UInt8), content.length < 2 ^ 32 →
      fromUtf8 content = none → ValueItem.decode (20 :: (writeSized cap content ++ rest)) =
        .ok (.str "" cap, 1 + (writeSized cap content).length) := by
  refine ⟨?_, ?_, ?_, fun bytes v n h => ValueItem.decode_take h, ?_, ?_⟩
  · intro k hlen hvalid hshort
    refine ⟨IndexKey.fromBytes_toBytes hlen hshort hvalid,
      ValueRefs.readAll_written hlen hshort, fun n hn => ?_⟩
    have hends : ∀ r, IndexKey.refs (k.toBytes.take n) = .ok r → ∀ cs : List FieldRead,
        cs.length = r.left → ValueRefs.EndsInErr (ValueRefs.readAll cs r).1 := by
      intro r hrefs cs hcs
      have hcut := ValueRefs.refs_take hlen hn hrefs
      exact ValueRefs.endsInErr_of_cut hshort hcut (hcs.trans hcut.1)
    exact ⟨IndexKey.fromBytes_error fun r hrefs => hends r hrefs _ (by simp), hends⟩
  · intro r cs ds hlen
    refine ⟨?_, fun i c hcs hds => ?_, fun e => ?_⟩
    · rw [ValueRefs.readAll_eq, ValueRefs.readAll_eq, hlen]
    · rw [ValueRefs.readAll_getElem?, ValueRefs.readAll_getElem?, hcs, hds, hlen]
    · rw [ValueRefs.error_mem_readAll, ValueRefs.error_mem_readAll, hlen]
  · intro bytes r hrefs cs
    obtain ⟨hbytes, hindex, hcount⟩ := IndexKey.refs_ok hrefs
    constructor
    · rw [← hbytes]
      apply ValueRefs.index_le
      omega
    · intro hcs hmany
      apply ValueRefs.error_of_many
      · omega
      · rintro rfl
        rw [List.length_nil] at hcs
        omega
      · rw [hbytes, hindex, hcs]
        exact hmany
  · intro tag rest htag
    simp only [List.mem_cons, List.not_mem_nil, or_false, not_or] at htag
    rw [ValueItem.decode_ok_iff]
    simp [ValueItem.tryDecode, htag]
  · intro cap content rest hcontent hutf
    have hsized := sized_write 20 cap hcontent rest
    rw [ValueItem.decode_ok_iff]
    simp only [ValueItem.tryDecode, List.head?_cons, Option.bind_eq_bind, Option.bind_some,
      hsized, hutf, Option.getD_none, Option.pure_def, length_writeSized]
    congr 2
    omega

/-- A row of a padded string, a null and a number with a sign reads back. -/
theorem row_values_codec_padded :
    IndexKey.fromBytes (IndexKey.toBytes [.str "ab" 5, .null, .integer (-3)]) =
      .ok [.str "ab" 5, .null, .integer (-3)] := by
  have hshort : ∀ v ∈ [ValueItem.str "ab" 5, .null, .integer (-3)], v.Short := by
    intro v hv
    simp only [List.mem_cons, List.not_mem_nil, or_false] at hv
    rcases hv with rfl | rfl | rfl
    · show (asBytes "ab").length < 2 ^ 32
      decide +kernel
    · trivial
    · trivial
  exact (row_values_codec.1 [.str "ab" 5, .null, .integer (-3)] (by decide) (by decide +kernel)
    hshort).1

/-- Bytes that no row is written as may read as a null. -/
theorem malformed_row_reads :
    ¬∀ bytes : List UInt8, (∀ k : IndexKey, k.toBytes ≠ bytes) →
      ∃ e, IndexKey.fromBytes bytes = .error e := by
  intro h
  have hcount : ∀ k : IndexKey, k.toBytes = leBytes 8 1 ++ [65] → False := by
    intro k hk
    have hbytes : k.flatMap ValueItem.write = [65] :=
      (List.append_inj hk (by rw [length_leBytes, length_leBytes])).2
    cases k with
    | nil => cases hbytes
    | cons v k => cases v <;> simp [ValueItem.write] at hbytes
  obtain ⟨e, he⟩ := h (leBytes 8 1 ++ [65]) fun k hk => hcount k hk
  have hread : IndexKey.fromBytes (leBytes 8 1 ++ [65]) = .ok [.null] := by decide +kernel
  rw [hread] at he
  cases he

end SquealDb.Codec
