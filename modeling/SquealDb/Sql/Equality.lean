import SquealDb.Codec.KeyOrder
import SquealDb.Sql.Group

/-!
# What counts as equal

The evaluator's `=` compares doubles as numbers.  A join's keys and a row that is to be
`DISTINCT` compare by `ValueItem`'s own order, but for an integer against a double; a
grouping and a `COUNT(DISTINCT)` by its own `==`.  That tells the two zeros apart, takes
a NaN for equal to itself, and an integer for different from every double.
-/

namespace SquealDb.Sql

open Codec Lib

/-- Two values `=` may compare: neither is `NULL`, and they are of one type or an integer
and a double. -/
def Comparable (a b : ValueItem) : Prop :=
  a ≠ .null ∧ b ≠ .null ∧ (a.typeRank = b.typeRank ∨ (cmpMixed a b).isSome)

/-- The evaluator's `=` is true of two values. -/
def sqlEqual (a b : ValueItem) : Prop := binary a b .eq = .ok (.boolean true)

/-- The answer of a `COUNT(DISTINCT)` fed some values. -/
def countDistinct (values : List ValueItem) : Except SchemaError ValueItem := do
  let acc ← values.foldlM Aggregate.feed (Aggregate.count true [] 0)
  return acc.current

/-- The map of `HashGroupSource` finds the group of one key by another. -/
def sameGroup (a b : ValueItem) : Prop :=
  ∀ g : HashGroup, g.key = [a] → (HashGroup.find [b] [g]).isSome

/-- The places that decide whether two values are equal agree on a pair. -/
structure OneEquality (a b : ValueItem) : Prop where
  keysMatch : sqlEqual a b ↔ keysMatch [0] [0] [a] [b] = true
  sameRow : sqlEqual a b ↔ sameRow [a] [b] = true
  inGroup : sqlEqual a b ↔ inGroup [0] [a] [b] = true
  sameGroup : sqlEqual a b ↔ sameGroup a b
  countDistinct : sqlEqual a b ↔ countDistinct [a, b] = .ok (.integer 1)

/-- The pairs the places disagree on: the two zeros, a NaN and itself, and an integer
and the double of its value. -/
def disputed : ValueItem → ValueItem → Bool
  | .double a, .double b =>
    (a == b && Binary64.isNan a) ||
      (a != b && Binary64.magnitudeBits a == 0 && Binary64.magnitudeBits b == 0)
  | .integer i, .double d | .double d, .integer i => cmpIntDouble i d == some .eq
  | _, _ => false

/-! ## Each place by itself -/

theorem eq_comm_value (a b : ValueItem) : a.eq b = b.eq a := by
  rw [Bool.eq_iff_iff, ValueItem.eq_iff_tight, ValueItem.eq_iff_tight]
  exact eq_comm

variable {a b : ValueItem}

/-- `cmpByValue` of a pair that is not an integer and a double is `==`. -/
theorem cmpByValue_eq_iff (h : cmpMixed a b = none) :
    cmpByValue a b = .eq ↔ a.eq b = true := by
  have hown : cmpByValue a b = a.cmp b := by
    simp only [cmpByValue, h]
  rw [hown]
  exact ValueItem.cmp_eq_iff a b

theorem keysMatch_one (ha : a ≠ .null) (hb : b ≠ .null) :
    keysMatch [0] [0] [a] [b] = true ↔ cmpByValue a b = .eq := by
  have hna : hasNull [a] [0] = false := by simpa [hasNull, Row.at] using ha
  have hnb : hasNull [b] [0] = false := by simpa [hasNull, Row.at] using hb
  rw [keysMatch, hna, hnb]
  simp only [Bool.not_false, Bool.true_and, List.zip_cons_cons, List.zip_nil_right, cmpKeys,
    beq_iff_eq]
  simp only [show Row.at [a] 0 = a from rfl, show Row.at [b] 0 = b from rfl]
  cases cmpByValue a b <;> simp

theorem sortField_cmp (ha : a ≠ .null) (hb : b ≠ .null) (i : Nat) :
    SortField.cmp { asc := true, nullFirst := true, index := i } a b = cmpByValue a b := by
  cases a <;> cases b <;> first | contradiction | rfl

theorem sameRow_one (ha : a ≠ .null) (hb : b ≠ .null) :
    sameRow [a] [b] = true ↔ cmpByValue a b = .eq := by
  have hcmp : cmpByFields (ascending (List.range 1)) [a] [b] = cmpByValue a b := by
    rw [← sortField_cmp ha hb 0]
    show cmpByFields [⟨true, true, 0⟩] [a] [b] = _
    simp only [cmpByFields, show Row.at [a] 0 = a from rfl, show Row.at [b] 0 = b from rfl]
    cases SortField.cmp ⟨true, true, 0⟩ a b <;> rfl
  show (true && cmpByFields (ascending (List.range 1)) [a] [b] == .eq) = true ↔ _
  rw [hcmp]
  cases cmpByValue a b <;> simp

theorem inGroup_one (a b : ValueItem) : inGroup [0] [a] [b] = true ↔ a.eq b = true := by
  rw [eq_comm_value a b]
  simp [inGroup, Row.at]

theorem sameGroup_one (a b : ValueItem) : sameGroup a b ↔ a.eq b = true := by
  have hfind : ∀ g : HashGroup, g.key = [a] →
      ((HashGroup.find [b] [g]).isSome = true ↔ a.eq b = true) := by
    intro g hg
    rw [HashGroup.find, hg]
    by_cases h : a.eq b = true
    · simp [IndexKey.eq, h]
    · simp [IndexKey.eq, h, HashGroup.find]
  constructor
  · intro h
    exact (hfind { key := [a], acc := ⟨[], none⟩, values := [], keep := true } rfl).mp
      (h _ rfl)
  · intro h g hg
    exact (hfind g hg).mpr h

theorem countDistinct_two (ha : a ≠ .null) (hb : b ≠ .null) :
    countDistinct [a, b] = .ok (.integer 1) ↔ a.eq b = true := by
  have hval : countDistinct [a, b] =
      .ok (.integer (Int64.ofNat (Aggregate.insertValue [a] b).length)) := by
    simp [countDistinct, Aggregate.feed, ha, hb, Aggregate.insertValue, Aggregate.current, bind,
      Except.bind, pure, Except.pure]
  rw [hval, Aggregate.insertValue]
  by_cases h : a.eq b = true
  · simp [h]
  · simp [h]

theorem sqlEqual_iff (ha : a ≠ .null) (hb : b ≠ .null) :
    sqlEqual a b ↔ valuesEqual a b .eq = .ok true := by
  have hbin : binary a b .eq = (valuesEqual a b .eq).map .boolean := by
    have hop : ¬(BinaryOp.eq = .and ∨ BinaryOp.eq = .or) := by decide
    have hnull : ¬(a = .null ∨ b = .null) := by
      rintro (h | h)
      · exact ha h
      · exact hb h
    rw [binary, if_neg hop, if_neg hnull]
    cases valuesEqual a b .eq <;> rfl
  rw [sqlEqual, hbin]
  cases valuesEqual a b .eq with
  | error e => simp [Except.map]
  | ok r => simp [Except.map]

/-- `=` of an integer and a double. -/
theorem sqlEqual_mixed (ha : a ≠ .null) (hb : b ≠ .null) {ord : Option Ordering}
    (h : cmpMixed a b = some ord) : sqlEqual a b ↔ ord = some .eq := by
  rw [sqlEqual_iff ha hb]
  simp [valuesEqual, h]

/-- `=` of two doubles. -/
theorem sqlEqual_double (a b : UInt64) :
    sqlEqual (.double a) (.double b) ↔ Binary64.ieeeEq a b = true := by
  rw [sqlEqual_iff (by simp) (by simp)]
  simp [valuesEqual, cmpMixed, sameType, ValueItem.typeRank, bind, Except.bind, pure,
    Except.pure]

/-- `=` of values of one type that are not doubles is `==`. -/
theorem sqlEqual_same (ha : a ≠ .null) (hb : b ≠ .null) (htype : a.typeRank = b.typeRank)
    (hd : ∀ x, a ≠ .double x) :
    sqlEqual a b ↔ a.eq b = true := by
  rw [sqlEqual_iff ha hb]
  cases a with
  | null => exact absurd rfl ha
  | double x => exact absurd rfl (hd x)
  | integer i | datetime t | boolean x | str s cap | blob s cap =>
    cases b <;> simp only [ValueItem.typeRank] at htype <;> try omega
    simp [valuesEqual, cmpMixed, sameType, ValueItem.typeRank, ValueItem.eq, bind, Except.bind,
      pure, Except.pure]

/-! ## Where they agree -/

/-- The places come down to the two comparisons of `ValueItem`. -/
theorem oneEquality_iff (ha : a ≠ .null) (hb : b ≠ .null) :
    OneEquality a b ↔
      (sqlEqual a b ↔ cmpByValue a b = .eq) ∧ (sqlEqual a b ↔ a.eq b = true) := by
  constructor
  · intro h
    exact ⟨h.keysMatch.trans (keysMatch_one ha hb), h.inGroup.trans (inGroup_one a b)⟩
  · rintro ⟨hcmp, heq⟩
    exact {
      keysMatch := hcmp.trans (keysMatch_one ha hb).symm
      sameRow := hcmp.trans (sameRow_one ha hb).symm
      inGroup := heq.trans (inGroup_one a b).symm
      sameGroup := heq.trans (sameGroup_one a b).symm
      countDistinct := heq.trans (countDistinct_two ha hb).symm }

/-- Two doubles are one number: the same bits, and no NaN, or two zeros. -/
theorem ieeeEq_iff (a b : UInt64) :
    Binary64.ieeeEq a b = true ↔
      Binary64.isNan a = false ∧ Binary64.isNan b = false ∧
        (a = b ∨ (Binary64.magnitudeBits a = 0 ∧ Binary64.magnitudeBits b = 0)) := by
  rw [← Binary64.scaled_eq_iff, Binary64.ieeeEq, Binary64.partialCmp]
  cases Binary64.isNan a <;> cases Binary64.isNan b <;> simp

theorem isNan_zero {d : UInt64} (h : Binary64.magnitudeBits d = 0) : Binary64.isNan d = false := by
  rw [Binary64.isNan, h]
  decide

/-- On doubles the places agree but for the two zeros and a NaN with itself. -/
theorem oneEquality_double (a b : UInt64) :
    OneEquality (.double a) (.double b) ↔ disputed (.double a) (.double b) = false := by
  have hcmp : cmpByValue (.double a) (.double b) = .eq ↔ a = b := by
    rw [cmpByValue_eq_iff rfl]
    exact beq_iff_eq
  have heq : (ValueItem.double a).eq (.double b) = true ↔ a = b := beq_iff_eq
  rw [oneEquality_iff (by simp) (by simp), sqlEqual_double, ieeeEq_iff, hcmp, heq, and_self]
  by_cases hab : a = b
  · subst hab
    cases hnan : Binary64.isNan a <;> simp [disputed, hnan]
  · by_cases hz : Binary64.magnitudeBits a = 0 ∧ Binary64.magnitudeBits b = 0
    · simp [disputed, hab, hz, isNan_zero hz.1, isNan_zero hz.2]
    · simp only [hab, false_or, hz, and_false, disputed, beq_eq_false_iff_ne.mpr hab,
        Bool.false_and,
        Bool.false_or, bne, Bool.not_false, Bool.true_and, true_iff]
      simpa using hz

/-- An integer and a double are disputed where they are one number. -/
theorem oneEquality_mixed (ha : a ≠ .null) (hb : b ≠ .null) {ord : Option Ordering}
    (hmix : cmpMixed a b = some ord) (heq : a.eq b = false)
    (hdis : disputed a b = (ord == some .eq)) :
    OneEquality a b ↔ disputed a b = false := by
  have hcmp : cmpByValue a b = .eq ↔ ord = some .eq := by
    simp only [cmpByValue, hmix]
    cases ord with
    | none => cases a <;> simp
    | some o => simp
  rw [oneEquality_iff ha hb, sqlEqual_mixed ha hb hmix, hcmp, heq, hdis]
  simp

/-- The places agree on a pair exactly where it is not disputed. -/
theorem oneEquality_iff_undisputed (h : Comparable a b) :
    OneEquality a b ↔ disputed a b = false := by
  obtain ⟨ha, hb, htype⟩ := h
  by_cases hmix : (cmpMixed a b).isSome = true
  · cases a with
    | integer i =>
      cases b with
      | double d => exact oneEquality_mixed ha hb rfl rfl rfl
      | _ => simp [cmpMixed] at hmix
    | double d =>
      cases b with
      | integer i =>
        refine oneEquality_mixed ha hb rfl rfl ?_
        show (cmpIntDouble i d == some .eq) = _
        cases cmpIntDouble i d with
        | none => rfl
        | some o => cases o <;> rfl
      | _ => simp [cmpMixed] at hmix
    | _ => simp [cmpMixed] at hmix
  · have hrank : a.typeRank = b.typeRank := htype.resolve_right hmix
    have hnone : cmpMixed a b = none := Option.not_isSome_iff_eq_none.mp hmix
    by_cases hd : ∃ x, a = .double x
    · obtain ⟨x, rfl⟩ := hd
      cases b with
      | double y => exact oneEquality_double x y
      | _ => simp [ValueItem.typeRank] at hrank
    · have hnd : ∀ x, a ≠ .double x := fun x hx => hd ⟨x, hx⟩
      have hfalse : disputed a b = false := by
        cases a <;> cases b <;> first | rfl | exact absurd rfl (hnd _) |
          simp [ValueItem.typeRank] at hrank
      rw [oneEquality_iff ha hb, hfalse, sqlEqual_same ha hb hrank hnd, cmpByValue_eq_iff hnone]
      simp

/-! ## Join keys and their hashes -/

/-- What a key value hashes as. -/
def hashed (v : ValueItem) : UInt64 := ((hashNormalized v).getD v).hash

theorem hash_of_eq (h : a.eq b = true) : a.hash = b.hash := by
  rw [← ValueItem.hash_tight a, ← ValueItem.hash_tight b, (ValueItem.eq_iff_tight a b).mp h]

theorem hashed_of_eq (h : a.eq b = true) : hashed a = hashed b := by
  by_cases hd : ∃ x, a = .double x
  · obtain ⟨x, rfl⟩ := hd
    cases b with
    | double y =>
      have hxy : x = y := beq_iff_eq.mp h
      rw [hxy]
    | _ => simp [ValueItem.eq] at h
  · have hna : hashNormalized a = none := by
      cases a <;> first | rfl | exact absurd ⟨_, rfl⟩ hd
    have hnb : hashNormalized b = none := by
      cases b <;> first | rfl | skip
      cases a <;> first | exact absurd ⟨_, rfl⟩ hd | simp [ValueItem.eq] at h
    rw [hashed, hashed, hna, hnb]
    exact hash_of_eq h

/-- Key values that compare equal hash as one. -/
theorem hashed_of_cmpByValue (h : cmpByValue a b = .eq) :
    hashed a = hashed b := by
  cases hmix : cmpMixed a b with
  | none => exact hashed_of_eq ((cmpByValue_eq_iff hmix).mp h)
  | some ord =>
    have hord : ord = some .eq := by
      simp only [cmpByValue, hmix] at h
      cases ord with
      | none => cases a <;> simp at h
      | some o => simpa using h
    subst hord
    cases a with
    | integer i =>
      cases b with
      | double d =>
        have hcmp : cmpIntDouble i d = some .eq := Option.some.inj hmix
        show ValueItem.hash (.integer i) = hashed (.double d)
        rw [hashed, hashNormalized_of_equal hcmp]
        rfl
      | _ => simp [cmpMixed] at hmix
    | double d =>
      cases b with
      | integer i =>
        have hcmp : cmpIntDouble i d = some .eq := by
          have hswap := Option.some.inj hmix
          cases hc : cmpIntDouble i d with
          | none => simp [hc] at hswap
          | some o => cases o <;> simp [hc] at hswap ⊢
        show hashed (.double d) = ValueItem.hash (.integer i)
        rw [hashed, hashNormalized_of_equal hcmp]
        rfl
      | _ => simp [cmpMixed] at hmix
    | _ => simp [cmpMixed] at hmix

/-- The hash of a key, whether or not it holds a double: that of its values, each as it
is hashed. -/
theorem getHash_eq (values : Row) (fields : List Nat) :
    getHash values fields = (fields.map fun f => hashed (values.at f)).foldl
      (fun h d => ((h ^^^ d) * 0x01000193) &&& 0xFFFFFFFF) 0x811C9DC5 := by
  rw [getHash]
  split
  · rw [IndexKey.hashRefs, List.foldl_map, List.foldl_map]
    rfl
  · rename_i hno
    rw [IndexKey.hashRefs, List.foldl_map, List.foldl_map]
    apply List.foldl_ext
    intro h f hf
    have hnone : hashNormalized (values.at f) = none := by
      cases hv : values.at f with
      | double d => exact absurd (List.any_eq_true.mpr ⟨f, hf, by rw [hv]⟩) hno
      | _ => rfl
    rw [hashed, hnone]
    rfl

/-- Rows whose keys match hash alike. -/
theorem getHash_of_keysMatch {leftFields rightFields : List Nat} {left right : Row}
    (hlen : leftFields.length = rightFields.length)
    (h : keysMatch leftFields rightFields left right = true) :
    getHash left leftFields = getHash right rightFields := by
  have hcmp : cmpKeys left right (leftFields.zip rightFields) = .eq := by
    simp only [keysMatch, Bool.and_eq_true, beq_iff_eq] at h
    exact h.2
  have hmap : leftFields.map (fun f => hashed (left.at f)) =
      rightFields.map fun f => hashed (right.at f) := by
    clear h
    induction leftFields generalizing rightFields with
    | nil =>
      cases rightFields with
      | nil => rfl
      | cons r rs => simp at hlen
    | cons l ls ih =>
      cases rightFields with
      | nil => simp at hlen
      | cons r rs =>
        simp only [List.zip_cons_cons, cmpKeys] at hcmp
        cases hlr : cmpByValue (left.at l) (right.at r) with
        | eq =>
          rw [hlr] at hcmp
          rw [List.map_cons, List.map_cons, hashed_of_cmpByValue hlr,
            ih (by simpa using hlen) hcmp]
        | lt => simp [hlr] at hcmp
        | gt => simp [hlr] at hcmp
  rw [getHash_eq, getHash_eq, hmap]

/-- The evaluator, the joins, `DISTINCT`, both groupings and `COUNT(DISTINCT)` call the
same pairs equal exactly where the pair is not disputed; keys that match always hash
alike. -/
theorem equality_agrees_iff {a b : ValueItem} (h : Comparable a b) (left right : Row)
    {leftFields rightFields : List Nat} (hlen : leftFields.length = rightFields.length) :
    (OneEquality a b ↔ disputed a b = false) ∧
      (keysMatch leftFields rightFields left right = true →
        getHash left leftFields = getHash right rightFields) :=
  ⟨oneEquality_iff_undisputed h, getHash_of_keysMatch hlen⟩

/-- An integer against `1.5`, and the keys `1` and `1.0`. -/
theorem equality_agrees_mixed :
    OneEquality (.integer 1) (.double 0x3FF8000000000000) ∧
      getHash [.integer 1] [0] = getHash [.double 0x3FF0000000000000] [0] := by
  have hcmp : Comparable (.integer 1) (.double 0x3FF8000000000000) :=
    ⟨by simp, by simp, Or.inr rfl⟩
  have hboth := equality_agrees_iff hcmp [.integer 1] [.double 0x3FF0000000000000]
    (rfl : [0].length = [0].length)
  constructor
  · exact hboth.1.mpr (by decide +kernel)
  · exact hboth.2 (by decide +kernel)

/-- The two zeros: `=` is true of them, and no join or `DISTINCT` takes them for one. -/
theorem zeros_disagree :
    Comparable (.double 0) (.double 0x8000000000000000) ∧
      ¬OneEquality (.double 0) (.double 0x8000000000000000) := by
  constructor
  · exact ⟨by simp, by simp, Or.inl rfl⟩
  · rw [oneEquality_double]
    decide +kernel

end SquealDb.Sql
