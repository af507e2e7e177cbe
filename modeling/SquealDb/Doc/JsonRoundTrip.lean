import SquealDb.Doc.ExtendedJson

/-!
# Extended JSON is read back

A value's text is that of a JSON tree, in which an ObjectId, a date and a double that is no
number are objects of one field.  Read back, these are what they were, as long as no document
of one field has one of their names; `from_json` returns none that has.
-/

namespace SquealDb.Doc

open Lib

/-! ## Parts of a value -/

/-- A value, or a value in its items and fields. -/
inductive Value.Part : Value → Value → Prop
  | self (v : Value) : Part v v
  | item {w v : Value} {items : List Value} (hv : v ∈ items) (hw : Part w v) :
      Part w (.array items)
  | field {w v : Value} {k : String} {fields : Document} (hv : (k, v) ∈ fields) (hw : Part w v) :
      Part w (.document fields)

/-- Every part of a value meets `p`. -/
def Value.Every (p : Value → Prop) (v : Value) : Prop := ∀ w, Value.Part w v → p w

namespace Value

variable {p q : Value → Prop} {v : Value} {items : List Value} {fields : Document}

theorem Every.here (h : Every p v) : p v := h v (.self v)

theorem Every.ofItems (h : Every p (.array items)) : ∀ v ∈ items, Every p v :=
  fun _ hv w hw => h w (.item hv hw)

theorem Every.ofFields (h : Every p (.document fields)) : ∀ f ∈ fields, Every p f.2 :=
  fun _ hf w hw => h w (.field hf hw)

theorem Every.array (hp : p (.array items)) (h : ∀ v ∈ items, Every p v) :
    Every p (.array items) := by
  intro w hw
  cases hw with
  | self => exact hp
  | item hmem hpart => exact h _ hmem w hpart

theorem Every.document (hp : p (.document fields)) (h : ∀ f ∈ fields, Every p f.2) :
    Every p (.document fields) := by
  intro w hw
  cases hw with
  | self => exact hp
  | field hmem hpart => exact h _ hmem w hpart

theorem Every.imp (h : Every p v) (himp : ∀ w, p w → q w) : Every q v :=
  fun w hw => himp w (h w hw)

theorem Every.and (hp : Every p v) (hq : Every q v) : Every (fun w => p w ∧ q w) v :=
  fun w hw => ⟨hp w hw, hq w hw⟩

/-- Names are pairwise distinct, and none begins with `$`. -/
def PlainNames : Value → Prop
  | document fields =>
    (fields.map (·.1)).Nodup ∧ ∀ f ∈ fields, f.1.toList.head? ≠ some '$'
  | _ => True

/-- Names are pairwise distinct, and a document of one field is not read as another value. -/
def WellNamed : Value → Prop
  | document fields =>
    (fields.map (·.1)).Nodup ∧ ∀ k v, fields = [(k, v)] → k ∉ wrapperKeys
  | _ => True

/-- A date is what its own text reads as. -/
def DateReadsBack : Value → Prop
  | date ms => parseIsoDate (formatIsoDate ms) = .ok ms
  | _ => True

theorem PlainNames.wellNamed (h : PlainNames v) : WellNamed v := by
  cases v with
  | document fields =>
    refine ⟨h.1, fun k v hfields hk => ?_⟩
    have hplain := h.2 (k, v) (by rw [hfields]; exact List.mem_singleton_self _)
    have hdollar : ∀ key ∈ wrapperKeys, key.toList.head? = some '$' := by decide
    exact hplain (hdollar k hk)
  | _ => trivial

mutual

/-- The value as it is read back: any NaN is read as the one that `NaN` names. -/
def asRead : Value → Value
  | double d => double (if Binary64.isNan d then nan else d)
  | array items => array (itemsAsRead items)
  | document fields => document (fieldsAsRead fields)
  | v => v

def itemsAsRead : List Value → List Value
  | [] => []
  | v :: vs => asRead v :: itemsAsRead vs

def fieldsAsRead : List (String × Value) → List (String × Value)
  | [] => []
  | (k, v) :: fields => (k, asRead v) :: fieldsAsRead fields

end

end Value

/-! ## The text is a JSON tree's -/

/-- A character that a JSON string holds as it is. -/
def PlainChar (c : Char) : Prop := 0x20 ≤ c.toNat ∧ c.toNat < 0x7F ∧ c ≠ '"' ∧ c ≠ '\\'

instance (c : Char) : Decidable (PlainChar c) := inferInstanceAs (Decidable (_ ∧ _))

/-- What is relied on of serde_json: it reads the compact text of every tree, with strings and
finite doubles as it writes them itself, and writes plain characters as they are. -/
structure SerdeJson.Faithful (serde : SerdeJson) : Prop where
  reads : ∀ j : Json UInt64, j.Printable (Binary64.isFinite · = true) →
    serde.fromStr (String.ofList (j.compact serde.tokens)) = some j
  plain : ∀ s : String, (∀ c ∈ s.toList, PlainChar c) →
    serde.tokens.string s = '"' :: s.toList ++ ['"']

/-- A double that is no number, as `$numberDouble` has it. -/
def doubleName (d : UInt64) : String :=
  if Binary64.isNan d then "NaN"
  else if Binary64.partialCmp d 0 = some .gt then "Infinity" else "-Infinity"

mutual

/-- The tree that a value is written as. -/
def Value.toTree : Value → Json UInt64
  | .null => .null
  | .bool b => .bool b
  | .int i => .int i.toInt
  | .double d =>
    if Binary64.isFinite d then .double d
    else .object [("$numberDouble", .string (doubleName d))]
  | .string s => .string s
  | .objectId id => .object [("$oid", .string (String.ofList id.toHex))]
  | .date ms => .object [("$date", .string (String.ofList (formatIsoDate ms)))]
  | .array items => .array (itemsTree items)
  | .document fields => .object (fieldsTree fields)

def itemsTree : List Value → List (Json UInt64)
  | [] => []
  | v :: vs => v.toTree :: itemsTree vs

def fieldsTree : List (String × Value) → List (String × Json UInt64)
  | [] => []
  | (k, v) :: fields => (k, v.toTree) :: fieldsTree fields

end

variable {c : Char} {text : List Char}

theorem PlainChar.of_isDigit (h : c.isDigit = true) : PlainChar c := by
  rw [Char.isDigit_iff_toNat] at h
  have hlow : '0'.toNat = 48 := rfl
  have hhigh : '9'.toNat = 57 := rfl
  refine ⟨by omega, by omega, ?_, ?_⟩
  · intro hquote
    subst hquote
    exact absurd h (by decide)
  · intro hslash
    subst hslash
    exact absurd h (by decide)

theorem padded_plain {width : Nat} {i : Int64} (h : c ∈ padded width i) :
    PlainChar c := by
  unfold padded at h
  rcases List.mem_append.mp h with h | hdigit
  · rcases List.mem_append.mp h with hsign | hzero
    · split at hsign
      · rw [List.mem_singleton.mp hsign]
        decide
      · cases hsign
    · rw [List.eq_of_mem_replicate hzero]
      decide
  · exact .of_isDigit (Json.isNumberChar_digit hdigit).1

/-- Plain text, by testing each character. -/
theorem plain_of_all (h : (text.all fun c => decide (PlainChar c)) = true) :
    ∀ c ∈ text, PlainChar c :=
  fun c hc => of_decide_eq_true (List.all_eq_true.mp h c hc)

theorem cons_plain (hc : PlainChar c) (htext : ∀ d ∈ text, PlainChar d) :
    ∀ d ∈ c :: text, PlainChar d :=
  List.forall_mem_cons.mpr ⟨hc, htext⟩

theorem append_plain {more : List Char} (htext : ∀ d ∈ text, PlainChar d)
    (hmore : ∀ d ∈ more, PlainChar d) : ∀ d ∈ text ++ more, PlainChar d :=
  List.forall_mem_append.mpr ⟨htext, hmore⟩

theorem formatIsoDate_plain (ms : Int64) : ∀ c ∈ formatIsoDate ms, PlainChar c := by
  -- each part is behind its mark
  have hpart : ∀ (mark : Char) (width : Nat) (i : Int64), PlainChar mark →
      ∀ c ∈ mark :: padded width i, PlainChar c :=
    fun mark width i hmark => cons_plain hmark fun _ hc => padded_plain hc
  have hend : ∀ c ∈ ['Z'], PlainChar c := plain_of_all (by decide)
  unfold formatIsoDate
  dsimp only
  apply append_plain _ hend
  apply append_plain _ (hpart '.' 3 _ (by decide))
  apply append_plain _ (hpart ':' 2 _ (by decide))
  apply append_plain _ (hpart ':' 2 _ (by decide))
  apply append_plain _ (hpart 'T' 2 _ (by decide))
  apply append_plain _ (hpart '-' 2 _ (by decide))
  exact append_plain (fun _ hc => padded_plain hc) (hpart '-' 2 _ (by decide))

theorem digitChar_plain : ∀ n < 16, PlainChar (Nat.digitChar n) := by decide

theorem toHex_plain (id : ObjectId) : ∀ c ∈ id.toHex, PlainChar c := by
  intro c hc
  obtain ⟨b, -, hc⟩ := List.mem_flatMap.mp hc
  have hlt := b.toNat_lt
  have hbyte : ∀ d ∈ hexByte b, PlainChar d :=
    cons_plain (digitChar_plain _ (by omega)) (cons_plain (digitChar_plain _ (by omega)) nofun)
  exact hbyte c hc

theorem doubleName_plain {d : UInt64} (h : c ∈ (doubleName d).toList) : PlainChar c := by
  unfold doubleName at h
  revert c
  split
  · exact plain_of_all (by decide) _
  · split
    · exact plain_of_all (by decide) _
    · exact plain_of_all (by decide) _

section Text

variable {serde : SerdeJson}

theorem compact_wrapper (hserde : serde.Faithful) {key : String} {text : List Char}
    (hkey : ∀ c ∈ key.toList, PlainChar c)
    (htext : ∀ c ∈ text, PlainChar c) :
    (Json.object [(key, .string (String.ofList text))]).compact serde.tokens =
      wrapper key text := by
  have hstring := hserde.plain (String.ofList text) (by rw [String.toList_ofList]; exact htext)
  rw [String.toList_ofList] at hstring
  simp only [Json.compact, Json.compactFields, hserde.plain key hkey, hstring, wrapper]
  simp

mutual

theorem writeJson_eq (hserde : serde.Faithful) (v : Value) :
    writeJson serde v = v.toTree.compact serde.tokens := by
  cases v with
  | null => rfl
  | bool b => rfl
  | int i => rfl
  | double d =>
    rw [writeJson, Value.toTree]
    split
    · rfl
    · rw [← String.ofList_toList (s := doubleName d),
        compact_wrapper hserde (plain_of_all (by decide)) fun c hc => doubleName_plain hc]
      rfl
  | string s => rfl
  | objectId id =>
    rw [Value.toTree, compact_wrapper hserde (plain_of_all (by decide)) (toHex_plain id)]
    rfl
  | date ms =>
    rw [Value.toTree, compact_wrapper hserde (plain_of_all (by decide)) (formatIsoDate_plain ms)]
    rfl
  | array items =>
    rw [writeJson, Value.toTree, Json.compact, writeItems_eq hserde true items]
  | document fields =>
    rw [writeJson, Value.toTree, Json.compact, writeFields_eq hserde true fields]

theorem writeItems_eq (hserde : serde.Faithful) (first : Bool) (items : List Value) :
    writeItems serde first items = Json.compactItems serde.tokens first (itemsTree items) := by
  cases items with
  | nil => rfl
  | cons v vs =>
    rw [writeItems, itemsTree, Json.compactItems, writeJson_eq hserde v, writeItems_eq hserde
      false vs]

theorem writeFields_eq (hserde : serde.Faithful) (first : Bool)
    (fields : List (String × Value)) :
    writeFields serde first fields =
      Json.compactFields serde.tokens first (fieldsTree fields) := by
  cases fields with
  | nil => rfl
  | cons field fields =>
    rw [writeFields, fieldsTree, Json.compactFields, writeJson_eq hserde field.2,
      writeFields_eq hserde false fields]

end

end Text

mutual

theorem printable_toTree (v : Value) : v.toTree.Printable (Binary64.isFinite · = true) := by
  cases v with
  | int i =>
    have hlow := i.le_toInt
    have hhigh := i.toInt_lt
    exact ⟨by omega, by omega⟩
  | double d =>
    rw [Value.toTree]
    split
    · next hfinite => exact hfinite
    · exact ⟨trivial, trivial⟩
  | array items => exact printable_itemsTree items
  | document fields => exact printable_fieldsTree fields
  | null => trivial
  | bool b => trivial
  | string s => trivial
  | objectId id => exact ⟨trivial, trivial⟩
  | date ms => exact ⟨trivial, trivial⟩

theorem printable_itemsTree (items : List Value) :
    Json.PrintableItems (Binary64.isFinite · = true) (itemsTree items) := by
  cases items with
  | nil => trivial
  | cons v vs => exact ⟨printable_toTree v, printable_itemsTree vs⟩

theorem printable_fieldsTree (fields : List (String × Value)) :
    Json.PrintableFields (Binary64.isFinite · = true) (fieldsTree fields) := by
  cases fields with
  | nil => trivial
  | cons field fields => exact ⟨printable_toTree field.2, printable_fieldsTree fields⟩

end

/-! ## ObjectIds are read back -/

theorem hexValue_digitChar : ∀ n < 16, hexValue (Nat.digitChar n) = some n := by decide

private theorem digitChar_size : ∀ n < 16, (Nat.digitChar n).utf8Size = 1 := by decide

private theorem digitChar_ne_plus : ∀ n < 16, Nat.digitChar n ≠ '+' := by decide

theorem hexPair_hexByte (b : UInt8) : hexPair (hexByte b) = some b := by
  have hlt := b.toNat_lt
  have hhigh := hexValue_digitChar (b.toNat / 16) (by omega)
  have hlow := hexValue_digitChar (b.toNat % 16) (by omega)
  have hplus := digitChar_ne_plus (b.toNat / 16) (by omega)
  unfold hexPair hexByte
  split
  · next heq => exact absurd (List.cons.inj heq).1 hplus
  · next h l _ heq =>
      cases heq
      rw [hhigh, hlow]
      show some (UInt8.ofNat (16 * (b.toNat / 16) + b.toNat % 16)) = some b
      rw [Nat.div_add_mod, UInt8.ofNat_toNat]
  · next _ hne => exact (hne _ _ rfl).elim

theorem takePair_hexByte (b : UInt8) (rest : List Char) :
    takePair (hexByte b ++ rest) = .ok (hexByte b, rest) := by
  have hlt := b.toNat_lt
  have hhigh := digitChar_size (b.toNat / 16) (by omega)
  have hlow := digitChar_size (b.toNat % 16) (by omega)
  simp [takePair, hexByte, hhigh, hlow]

theorem parsePairs_toHex (hex : List Char) (bytes : List UInt8) :
    parsePairs hex bytes.length (bytes.flatMap hexByte) = .ok bytes := by
  induction bytes with
  | nil => rfl
  | cons b bytes ih =>
    rw [List.length_cons, List.flatMap_cons, parsePairs, takePair_hexByte]
    simp only [bind, Except.bind, hexPair_hexByte, ih]
    rfl

theorem byteLen_toHex (bytes : List UInt8) :
    byteLen (bytes.flatMap hexByte) = 2 * bytes.length := by
  induction bytes with
  | nil => rfl
  | cons b bytes ih =>
    have hlt := b.toNat_lt
    have hhigh := digitChar_size (b.toNat / 16) (by omega)
    have hlow := digitChar_size (b.toNat % 16) (by omega)
    rw [byteLen] at ih ⊢
    rw [List.flatMap_cons, List.map_append, List.sum_append, ih]
    simp only [hexByte, List.map_cons, List.map_nil, List.sum_cons, List.sum_nil, hhigh, hlow,
      List.length_cons]
    omega

theorem ObjectId.parse_toHex (id : ObjectId) : ObjectId.parse id.toHex = .ok id := by
  have hbytes : parsePairs id.toHex 12 id.toHex = .ok id.bytes := by
    have hall := parsePairs_toHex id.toHex id.bytes
    rw [id.length_eq] at hall
    exact hall
  have hlen : byteLen id.toHex = 24 := by
    rw [ObjectId.toHex, byteLen_toHex, id.length_eq]
  unfold ObjectId.parse
  rw [if_neg (not_not.mpr hlen)]
  split
  · next bytes h =>
      rw [hbytes] at h
      cases h
      rfl
  · next e h =>
      rw [hbytes] at h
      cases h

/-! ## Values are read back -/

/-- What is no number is read back from its name. -/
theorem doubleName_cases {d : UInt64} (h : Binary64.isFinite d = false) :
    (Binary64.isNan d = true ∧ doubleName d = "NaN") ∨
      (d = infinity ∧ doubleName d = "Infinity") ∨
      (d = negInfinity ∧ doubleName d = "-Infinity") := by
  by_cases hnan : Binary64.isNan d = true
  · exact Or.inl ⟨hnan, by rw [doubleName, if_pos hnan]⟩
  · right
    have hbits : d = infinity ∨ d = negInfinity := by
      have hlow : ¬ d.toNat % 2 ^ 63 < 2047 * 2 ^ 52 := of_decide_eq_false h
      have hhigh : ¬ 2047 * 2 ^ 52 < d.toNat % 2 ^ 63 := fun hlt => hnan (decide_eq_true hlt)
      have hlt := d.toNat_lt
      have hpos : infinity.toNat = 2047 * 2 ^ 52 := by decide
      have hneg : negInfinity.toNat = 2047 * 2 ^ 52 + 2 ^ 63 := by decide
      rw [← UInt64.toNat_inj, ← UInt64.toNat_inj, hpos, hneg]
      omega
    rcases hbits with hpos | hneg
    · exact Or.inl ⟨hpos, by rw [hpos]; decide +kernel⟩
    · exact Or.inr ⟨hneg, by rw [hneg]; decide +kernel⟩

section ReadBack

variable (parseF64 : String → Option UInt64)

variable {key : String} {v : Value} {fields : List (String × Raw)}

theorem intoValue_wrapper {r : Raw} (hkey : key.toList.head? = some '$')
    (h : extended parseF64 key r = .ok (some v)) :
    (Raw.object [(key, r)]).intoValue parseF64 = .ok v := by
  rw [Raw.intoValue, wrapped, if_pos hkey, h]
  rfl

theorem extended_of_not_mem (h : key ∉ wrapperKeys) (r : Raw) :
    extended parseF64 key r = .ok none := by
  simp only [wrapperKeys, List.mem_cons, List.not_mem_nil, or_false, not_or] at h
  obtain ⟨hoid, hdate, hlong, hint, hdouble⟩ := h
  unfold extended
  rw [if_neg hoid, if_neg hdate, if_neg (not_or.mpr ⟨hlong, hint⟩), if_neg hdouble]

theorem wrapped_none (h : ∀ k r, fields = [(k, r)] → k ∉ wrapperKeys) :
    wrapped parseF64 fields = .ok none := by
  unfold wrapped
  split
  · next key r =>
      split
      · exact extended_of_not_mem parseF64 (h key r rfl) r
      · rfl
  · rfl

theorem intoValue_document {out : Document} (hkeys : ∀ k r, fields = [(k, r)] → k ∉ wrapperKeys)
    (h : Raw.intoFields parseF64 fields = .ok out) :
    (Raw.object fields).intoValue parseF64 = .ok (.document out) := by
  rw [Raw.intoValue, wrapped_none parseF64 hkeys]
  show (Raw.intoFields parseF64 fields >>= _) = _
  rw [h]
  rfl

/-- A value that is named well, and whose dates are read back. -/
def Rereadable (v : Value) : Prop := v.Every fun w => w.WellNamed ∧ w.DateReadsBack

/-- A tree that reads as a value. -/
def ReadsAs (j : Json UInt64) (v : Value) : Prop :=
  ∃ raw, Raw.ofJson j = .ok raw ∧ raw.intoValue parseF64 = .ok v

theorem readsAs_wrapper {text : String} (hkey : key.toList.head? = some '$')
    (h : extended parseF64 key (.string text) = .ok (some v)) :
    ReadsAs parseF64 (.object [(key, .string text)]) v :=
  ⟨.object [(key, .string text)], rfl, intoValue_wrapper parseF64 hkey h⟩

theorem readsAs_double (d : UInt64) :
    ReadsAs parseF64 (Value.toTree (.double d)) (Value.asRead (.double d)) := by
  rw [Value.toTree, Value.asRead]
  split
  · next hfinite =>
      have hnan : Binary64.isNan d ≠ true := by
        have hlow : d.toNat % 2 ^ 63 < 2047 * 2 ^ 52 := of_decide_eq_true hfinite
        intro hnan
        have hhigh : 2047 * 2 ^ 52 < d.toNat % 2 ^ 63 := of_decide_eq_true hnan
        omega
      rw [if_neg hnan]
      exact ⟨.double d, rfl, rfl⟩
  · next hfinite =>
      apply readsAs_wrapper parseF64 rfl
      rcases doubleName_cases (Bool.eq_false_iff.mpr hfinite) with
        ⟨hnan, hname⟩ | ⟨hbits, hname⟩ | ⟨hbits, hname⟩
      · rw [hname, if_pos hnan]
        rfl
      · rw [hname, hbits]
        rfl
      · rw [hname, hbits]
        rfl

theorem readsAs_int (i : Int64) : ReadsAs parseF64 (.int i.toInt) (.int i) := by
  have hlt := i.toInt_lt
  refine ⟨.int i, ?_, rfl⟩
  rw [Raw.ofJson, Raw.ofInt, if_pos (by omega), Int64.ofInt_toInt]

mutual

/-- A value's tree reads as the value. -/
theorem readsAs_toTree (v : Value) (h : Rereadable v) : ReadsAs parseF64 v.toTree v.asRead := by
  cases v with
  | null => exact ⟨.null, rfl, rfl⟩
  | bool b => exact ⟨.bool b, rfl, rfl⟩
  | int i => exact readsAs_int parseF64 i
  | double d => exact readsAs_double parseF64 d
  | string s => exact ⟨.string s, rfl, rfl⟩
  | objectId id =>
    apply readsAs_wrapper parseF64 rfl
    show (do
      let id ← ObjectId.parse (String.ofList id.toHex).toList
      return some (Value.objectId id)) = _
    rw [String.toList_ofList, ObjectId.parse_toHex]
    rfl
  | date ms =>
    apply readsAs_wrapper parseF64 rfl
    show (do
      let ms ← parseIsoDate (String.ofList (formatIsoDate ms)).toList
      return some (Value.date ms)) = _
    rw [String.toList_ofList, show parseIsoDate (formatIsoDate ms) = .ok ms from h.here.2]
    rfl
  | array items =>
    obtain ⟨rs, hrs, hvs⟩ := readsAs_itemsTree items h.ofItems
    refine ⟨.array rs, ?_, ?_⟩
    · rw [Value.toTree, Raw.ofJson, hrs]
      rfl
    · rw [Raw.intoValue, hvs]
      rfl
  | document fields =>
    obtain ⟨hnodup, hsingle⟩ := h.here.1
    obtain ⟨rs, hrs, hnames, hvs⟩ :=
      readsAs_fieldsTree fields h.ofFields [] hnodup (fun _ _ => List.not_mem_nil)
    refine ⟨.object rs, ?_, ?_⟩
    · rw [Value.toTree, Raw.ofJson, hrs]
      rfl
    · refine intoValue_document parseF64 (fun k r hr => ?_) hvs
      rw [hr] at hnames
      cases fields with
      | nil => cases hnames
      | cons field fields =>
        have hone := List.cons.inj hnames
        have hnil : fields = [] := List.map_eq_nil_iff.mp hone.2.symm
        have hkey : k = field.1 := hone.1
        rw [hkey]
        exact hsingle field.1 field.2 (by rw [hnil])

theorem readsAs_itemsTree (items : List Value) (h : ∀ v ∈ items, Rereadable v) :
    ∃ rs, Raw.ofItems (itemsTree items) = .ok rs ∧
      Raw.intoItems parseF64 rs = .ok (Value.itemsAsRead items) := by
  cases items with
  | nil => exact ⟨[], rfl, rfl⟩
  | cons v vs =>
    obtain ⟨r, hr, hv⟩ := readsAs_toTree v (h v List.mem_cons_self)
    obtain ⟨rs, hrs, hvs⟩ :=
      readsAs_itemsTree vs fun w hw => h w (List.mem_cons_of_mem v hw)
    refine ⟨r :: rs, ?_, ?_⟩
    · rw [itemsTree, Raw.ofItems, hr, hrs]
      rfl
    · rw [Raw.intoItems, hv, hvs]
      rfl

theorem readsAs_fieldsTree (fields : List (String × Value))
    (h : ∀ f ∈ fields, Rereadable f.2) (seen : List String)
    (hnodup : (fields.map (·.1)).Nodup) (hseen : ∀ k ∈ fields.map (·.1), k ∉ seen) :
    ∃ rs, Raw.ofFields seen (fieldsTree fields) = .ok rs ∧
      rs.map (·.1) = fields.map (·.1) ∧
      Raw.intoFields parseF64 rs = .ok (Value.fieldsAsRead fields) := by
  cases fields with
  | nil => exact ⟨[], rfl, rfl, rfl⟩
  | cons field fields =>
    obtain ⟨r, hr, hv⟩ := readsAs_toTree field.2 (h field List.mem_cons_self)
    have hnew : field.1 ∉ seen := hseen field.1 List.mem_cons_self
    have hothers := List.nodup_cons.mp hnodup
    obtain ⟨rs, hrs, hnames, hvs⟩ := readsAs_fieldsTree fields
      (fun f hf => h f (List.mem_cons_of_mem field hf)) (field.1 :: seen) hothers.2 (by
        intro k hk hmem
        rcases List.mem_cons.mp hmem with heq | hmem
        · subst heq
          exact hothers.1 hk
        · exact hseen k (List.mem_cons_of_mem _ hk) hmem)
    refine ⟨(field.1, r) :: rs, ?_, ?_, ?_⟩
    · rw [fieldsTree, Raw.ofFields, hr]
      show (do
        if field.1 ∈ seen then throw (.duplicateField field.1)
        let rest ← Raw.ofFields (field.1 :: seen) (fieldsTree fields)
        return (field.1, r) :: rest : Except JsonError _) = _
      rw [if_neg hnew, hrs]
      rfl
    · rw [List.map_cons, List.map_cons, hnames]
    · rw [Raw.intoFields, hv, hvs]
      rfl

end

/-! ## What is read is named well -/

/-- A value without parts. -/
def Value.Leaf (v : Value) : Prop := (∀ items, v ≠ .array items) ∧ ∀ fields, v ≠ .document fields

theorem Value.Leaf.every {p : Value → Prop} (h : v.Leaf) (hp : p v) : v.Every p := by
  intro w hw
  cases hw with
  | self => exact hp
  | item => exact absurd rfl (h.1 _)
  | field => exact absurd rfl (h.2 _)

theorem Value.Leaf.wellNamed (h : v.Leaf) : v.WellNamed := by
  cases v with
  | document fields => exact absurd rfl (h.2 fields)
  | _ => trivial

/-- What a wrapper gives: nothing for a name it does not know, or a value without parts. -/
def Wraps (key : String) (out : Option Value) : Prop :=
  (out = none → key ∉ wrapperKeys) ∧ ∀ v, out = some v → v.Leaf

theorem wraps_some (h : v.Leaf) : Wraps key (some v) := by
  refine ⟨nofun, fun w hw => ?_⟩
  cases hw
  exact h

theorem extended_wraps {r : Raw} {out : Option Value} (h : extended parseF64 key r = .ok out) :
    Wraps key out := by
  unfold extended at h
  dsimp only at h
  by_cases hoid : key = "$oid"
  · rw [if_pos hoid] at h
    obtain ⟨hex, -, h⟩ := bind_ok_iff.mp h
    obtain ⟨id, -, h⟩ := bind_ok_iff.mp h
    cases h
    exact wraps_some ⟨nofun, nofun⟩
  rw [if_neg hoid] at h
  by_cases hdate : key = "$date"
  · rw [if_pos hdate] at h
    obtain ⟨ms, -, h⟩ := bind_ok_iff.mp h
    cases h
    exact wraps_some ⟨nofun, nofun⟩
  rw [if_neg hdate] at h
  by_cases hint : key = "$numberLong" ∨ key = "$numberInt"
  · rw [if_pos hint] at h
    obtain ⟨i, -, h⟩ := bind_ok_iff.mp h
    cases h
    exact wraps_some ⟨nofun, nofun⟩
  rw [if_neg hint] at h
  by_cases hdouble : key = "$numberDouble"
  · rw [if_pos hdouble] at h
    obtain ⟨s, -, h⟩ := bind_ok_iff.mp h
    have hleaf : ∀ d, Wraps key (some (.double d)) := fun d => wraps_some ⟨nofun, nofun⟩
    split at h
    · cases h
      exact hleaf _
    · split at h
      · cases h
        exact hleaf _
      · split at h
        · cases h
          exact hleaf _
        · obtain ⟨d, -, h⟩ := bind_ok_iff.mp h
          cases h
          exact hleaf _
  · rw [if_neg hdouble] at h
    cases h
    refine ⟨fun _ hk => ?_, nofun⟩
    simp only [wrapperKeys, List.mem_cons, List.not_mem_nil, or_false] at hk
    rcases hk with hk | hk | hk | hk | hk
    · exact hoid hk
    · exact hdate hk
    · exact hint (Or.inl hk)
    · exact hint (Or.inr hk)
    · exact hdouble hk

/-- An object that stands for nothing else has no wrapper's name; what it stands for has no
parts. -/
theorem wrapped_wraps {out : Option Value} (h : wrapped parseF64 fields = .ok out) :
    (out = none → ∀ k r, fields = [(k, r)] → k ∉ wrapperKeys) ∧ ∀ v, out = some v → v.Leaf := by
  have hdollar : ∀ key ∈ wrapperKeys, key.toList.head? = some '$' := by decide
  unfold wrapped at h
  split at h
  · next key r =>
      by_cases hkey : key.toList.head? = some '$'
      · rw [if_pos hkey] at h
        obtain ⟨hnone, hsome⟩ := extended_wraps parseF64 h
        refine ⟨fun hout k r' hfields => ?_, hsome⟩
        cases hfields
        exact hnone hout
      · rw [if_neg hkey] at h
        cases h
        refine ⟨fun _ k r' hfields hk => ?_, nofun⟩
        cases hfields
        exact hkey (hdollar _ hk)
  · next hmany =>
      cases h
      exact ⟨fun _ k r hfields => absurd hfields (hmany k r), nofun⟩

mutual

/-- What is read from a tree is named well, throughout. -/
theorem wellNamed_of_read (j : Json UInt64) {raw : Raw} {v : Value} (hraw : Raw.ofJson j = .ok raw)
    (hv : raw.intoValue parseF64 = .ok v) : v.Every Value.WellNamed := by
  cases j with
  | null =>
    cases hraw
    cases hv
    exact Value.Leaf.every ⟨nofun, nofun⟩ trivial
  | bool b =>
    cases hraw
    cases hv
    exact Value.Leaf.every ⟨nofun, nofun⟩ trivial
  | int i =>
    cases hraw
    rw [Raw.ofInt] at hv
    split at hv
    · cases hv
      exact Value.Leaf.every ⟨nofun, nofun⟩ trivial
    · cases hv
      exact Value.Leaf.every ⟨nofun, nofun⟩ trivial
  | double d =>
    cases hraw
    cases hv
    exact Value.Leaf.every ⟨nofun, nofun⟩ trivial
  | string s =>
    cases hraw
    cases hv
    exact Value.Leaf.every ⟨nofun, nofun⟩ trivial
  | array items =>
    rw [Raw.ofJson] at hraw
    obtain ⟨rs, hrs, hraw⟩ := bind_ok_iff.mp hraw
    cases hraw
    rw [Raw.intoValue] at hv
    obtain ⟨vs, hvs, hv⟩ := bind_ok_iff.mp hv
    cases hv
    exact .array trivial (wellNamed_of_items items hrs hvs)
  | object fields =>
    rw [Raw.ofJson] at hraw
    obtain ⟨rs, hrs, hraw⟩ := bind_ok_iff.mp hraw
    cases hraw
    rw [Raw.intoValue] at hv
    obtain ⟨out, hout, hv⟩ := bind_ok_iff.mp hv
    obtain ⟨hnone, hleaf⟩ := wrapped_wraps parseF64 hout
    cases out with
    | some u =>
      cases hv
      have hnoparts := hleaf v rfl
      exact hnoparts.every hnoparts.wellNamed
    | none =>
      dsimp only at hv
      obtain ⟨vs, hvs, hv⟩ := bind_ok_iff.mp hv
      cases hv
      obtain ⟨hnames, hnodup, -, hfields⟩ := wellNamed_of_fields fields hrs hvs
      refine .document ⟨hnodup, fun k v hone => ?_⟩ hfields
      rw [hone] at hnames
      cases rs with
      | nil => cases hnames
      | cons r rs =>
        have hcons := List.cons.inj hnames
        have hnil : rs = [] := List.map_eq_nil_iff.mp hcons.2
        have hkey : r.1 = k := hcons.1
        rw [← hkey]
        exact hnone rfl r.1 r.2 (by rw [hnil])

theorem wellNamed_of_items (items : List (Json UInt64)) {rs : List Raw} {vs : List Value}
    (hrs : Raw.ofItems items = .ok rs) (hvs : Raw.intoItems parseF64 rs = .ok vs) :
    ∀ v ∈ vs, v.Every Value.WellNamed := by
  cases items with
  | nil =>
    cases hrs
    cases hvs
    exact nofun
  | cons j js =>
    rw [Raw.ofItems] at hrs
    obtain ⟨r, hr, hrs⟩ := bind_ok_iff.mp hrs
    obtain ⟨rs', hrs', hrs⟩ := bind_ok_iff.mp hrs
    cases hrs
    rw [Raw.intoItems] at hvs
    obtain ⟨v, hv, hvs⟩ := bind_ok_iff.mp hvs
    obtain ⟨vs', hvs', hvs⟩ := bind_ok_iff.mp hvs
    cases hvs
    exact List.forall_mem_cons.mpr
      ⟨wellNamed_of_read j hr hv, wellNamed_of_items js hrs' hvs'⟩

theorem wellNamed_of_fields (fields : List (String × Json UInt64)) {seen : List String}
    {rs : List (String × Raw)} {vs : Document} (hrs : Raw.ofFields seen fields = .ok rs)
    (hvs : Raw.intoFields parseF64 rs = .ok vs) :
    rs.map (·.1) = vs.map (·.1) ∧ (vs.map (·.1)).Nodup ∧ (∀ k ∈ vs.map (·.1), k ∉ seen) ∧
      ∀ f ∈ vs, f.2.Every Value.WellNamed := by
  cases fields with
  | nil =>
    cases hrs
    cases hvs
    exact ⟨rfl, List.nodup_nil, nofun, nofun⟩
  | cons field fields =>
    rw [Raw.ofFields] at hrs
    obtain ⟨r, hr, hrs⟩ := bind_ok_iff.mp hrs
    by_cases hnew : field.1 ∈ seen
    · rw [if_pos hnew] at hrs
      cases hrs
    · rw [if_neg hnew] at hrs
      obtain ⟨rs', hrs', hrs⟩ := bind_ok_iff.mp hrs
      cases hrs
      rw [Raw.intoFields] at hvs
      obtain ⟨v, hv, hvs⟩ := bind_ok_iff.mp hvs
      obtain ⟨vs', hvs', hvs⟩ := bind_ok_iff.mp hvs
      cases hvs
      obtain ⟨hnames, hnodup, hseen, hfields⟩ := wellNamed_of_fields fields hrs' hvs'
      refine ⟨?_, ?_, ?_, ?_⟩
      · rw [List.map_cons, List.map_cons, hnames]
      · rw [List.map_cons]
        exact List.nodup_cons.mpr ⟨fun hmem => hseen _ hmem List.mem_cons_self, hnodup⟩
      · intro k hk hmem
        rcases List.mem_cons.mp hk with heq | hk
        · subst heq
          exact hnew hmem
        · exact hseen k hk (List.mem_cons_of_mem _ hmem)
      · exact List.forall_mem_cons.mpr ⟨wellNamed_of_read field.2 hr hv, hfields⟩

end

variable {parseF64} {serde : SerdeJson}

/-- A value that is named well is read back from its text. -/
theorem fromJson_toJson (hserde : serde.Faithful) (h : Rereadable v) :
    fromJson parseF64 serde (toJson serde v) = .ok v.asRead := by
  obtain ⟨raw, hraw, hv⟩ := readsAs_toTree parseF64 v h
  rw [fromJson, toJson, writeJson_eq hserde, hserde.reads _ (printable_toTree v)]
  show (Raw.ofJson v.toTree >>= _) = _
  rw [hraw]
  exact hv

/-- What `from_json` returns is named well. -/
theorem fromJson_wellNamed {json : String} (h : fromJson parseF64 serde json = .ok v) :
    v.Every Value.WellNamed := by
  rw [fromJson] at h
  obtain ⟨j, -, h⟩ := bind_ok_iff.mp h
  obtain ⟨raw, hraw, hv⟩ := bind_ok_iff.mp h
  exact wellNamed_of_read parseF64 j hraw hv

/-- Values whose names are plain, and values that were read, are read back from their own
text, a NaN as any; of dates, those that their text stands for. -/
theorem extended_json_round_trips (hserde : serde.Faithful) :
    (∀ v : Value, v.Every Value.PlainNames → v.Every Value.DateReadsBack →
        fromJson parseF64 serde (toJson serde v) = .ok v.asRead) ∧
      ∀ json v, fromJson parseF64 serde json = .ok v → v.Every Value.DateReadsBack →
        fromJson parseF64 serde (toJson serde v) = .ok v.asRead := by
  constructor
  · intro v hplain hdates
    exact fromJson_toJson hserde ((hplain.imp fun w hw => hw.wellNamed).and hdates)
  · intro json v hread hdates
    exact fromJson_toJson hserde ((fromJson_wellNamed hread).and hdates)

end ReadBack

/-! ## A reader and a writer -/

/-- A reader of compact text, which counts doubles by their bits. -/
def compactJson : SerdeJson where
  fromStr s := Json.read (fun n => some (UInt64.ofNat n)) s.toList
  tokens := Json.tokens UInt64.toNat

theorem compactJson_faithful : compactJson.Faithful where
  reads j hj := by
    show Json.read _ (String.ofList _).toList = _
    rw [String.toList_ofList]
    exact Json.read_compact (fun d _ => by rw [UInt64.ofNat_toNat]) j hj
  plain s hs := by
    show '"' :: s.toList.flatMap Json.escapeChar ++ ['"'] = _
    have hsame : ∀ text : List Char, (∀ c ∈ text, PlainChar c) →
        text.flatMap Json.escapeChar = text := by
      intro text htext
      induction text with
      | nil => rfl
      | cons c text ih =>
        obtain ⟨hlow, -, hquote, hslash⟩ := htext c List.mem_cons_self
        rw [List.flatMap_cons, ih fun d hd => htext d (List.mem_cons_of_mem c hd),
          Json.escapeChar, if_neg hquote, if_neg hslash, if_neg (by omega)]
        rfl
    rw [hsame _ hs]

/-- A document with an ObjectId, a leap day, a NaN that is not the usual one and an array. -/
def sampleDoc : Document :=
  [("a", .objectId ⟨[0x64, 0xB7, 0xF0, 0xA1, 0xC2, 0xD3, 0xE4, 0xF5, 0xA6, 0xB7, 0xC8, 0xD9], rfl⟩),
    ("d", .date 1709210096789), ("n", .double 0xFFF8000000000001),
    ("m", .array [.string "x", .null, .int (-5)])]

/-- The document is read back, with the usual NaN. -/
theorem extended_json_round_trips_sample :
    fromJson (fun _ => none) compactJson (toJson compactJson (.document sampleDoc)) =
      .ok (Value.document sampleDoc).asRead := by
  have hdate : parseIsoDate (formatIsoDate 1709210096789) = .ok 1709210096789 := by decide +kernel
  -- the parts, for each of the two conditions
  have hparts : ∀ p : Value → Prop, p (.document sampleDoc) →
      p (.array [.string "x", .null, .int (-5)]) →
      (∀ v, v.Leaf → (∀ ms, v = .date ms → ms = 1709210096789) → p v) →
      (Value.document sampleDoc).Every p := by
    intro p hdoc harray hother
    have hone : ∀ v : Value, v.Leaf → (∀ ms, v = .date ms → ms = 1709210096789) → v.Every p :=
      fun v hv hms => hv.every (hother v hv hms)
    refine .document hdoc ?_
    intro f hf
    simp only [sampleDoc, List.mem_cons, List.not_mem_nil, or_false] at hf
    rcases hf with hf | hf | hf | hf
    · subst hf
      exact hone _ ⟨nofun, nofun⟩ nofun
    · subst hf
      refine hone _ ⟨nofun, nofun⟩ fun ms hms => ?_
      cases hms
      rfl
    · subst hf
      exact hone _ ⟨nofun, nofun⟩ nofun
    · subst hf
      refine .array harray ?_
      intro v hv
      simp only [List.mem_cons, List.not_mem_nil, or_false] at hv
      rcases hv with hv | hv | hv
      · subst hv
        exact hone _ ⟨nofun, nofun⟩ nofun
      · subst hv
        exact hone _ ⟨nofun, nofun⟩ nofun
      · subst hv
        exact hone _ ⟨nofun, nofun⟩ nofun
  apply (extended_json_round_trips compactJson_faithful).1
  · apply hparts
    · exact ⟨by decide, by decide⟩
    · trivial
    · intro v hv _
      cases v with
      | document fields => exact absurd rfl (hv.2 fields)
      | _ => trivial
  · apply hparts
    · trivial
    · trivial
    · intro v _ hms
      cases v with
      | date ms =>
        rw [hms ms rfl]
        exact hdate
      | _ => trivial

end SquealDb.Doc
