import SquealDb.Lib.Combinator

/-!
# Slices of UTF-8 text

Text taken apart by byte offsets: an offset inside a character is none a slice can begin or
end at.  A byte below 128 is a character of its own, so a scan for such bytes stops only
between characters.
-/

namespace SquealDb.Lib.Utf8

/-- The bytes of some characters. -/
def bytes (cs : List Char) : List UInt8 := cs.flatMap String.utf8EncodeChar

/-- `len` of some characters. -/
def size (cs : List Char) : Nat := widthOf Char.utf8Size cs

/-- `s[n..]`, if `n` is a boundary. -/
def sliceFrom : List Char → Nat → Option (List Char)
  | cs, 0 => some cs
  | [], _ + 1 => none
  | c :: cs, n + 1 => if c.utf8Size ≤ n + 1 then sliceFrom cs (n + 1 - c.utf8Size) else none

/-- `s[..n]`, if `n` is a boundary. -/
def sliceTo : List Char → Nat → Option (List Char)
  | _, 0 => some []
  | [], _ + 1 => none
  | c :: cs, n + 1 =>
    if c.utf8Size ≤ n + 1 then (sliceTo cs (n + 1 - c.utf8Size)).map (c :: ·) else none

/-- `s[m..n]`, if both are boundaries. -/
def slice (cs : List Char) (m n : Nat) : Option (List Char) :=
  if m ≤ n then (sliceFrom cs m).bind (sliceTo · (n - m)) else none

/-- `find` of a character: the offset of the first that satisfies the predicate. -/
def find (f : Char → Bool) : List Char → Option Nat
  | [] => none
  | c :: cs => if f c then some 0 else (find f cs).map (c.utf8Size + ·)

/-- `find` of a text: the offset it first begins at. -/
def findText (lit : List Char) : List Char → Option Nat
  | [] => if lit.isEmpty then some 0 else none
  | c :: cs =>
    if lit.isPrefixOf (c :: cs) then some 0 else (findText lit cs).map (c.utf8Size + ·)

/-- `char_indices`, of a text that begins at the offset. -/
def charIndices : Nat → List Char → List (Nat × Char)
  | _, [] => []
  | i, c :: cs => (i, c) :: charIndices (i + c.utf8Size) cs

/-! ## Sizes -/

@[simp] theorem size_nil : size [] = 0 := rfl

@[simp] theorem size_cons (c : Char) (cs : List Char) : size (c :: cs) = c.utf8Size + size cs :=
  widthOf_cons _ c cs

@[simp] theorem size_append (cs ds : List Char) : size (cs ++ ds) = size cs + size ds :=
  widthOf_append _ cs ds

@[simp] theorem bytes_nil : bytes [] = [] := rfl

@[simp] theorem bytes_cons (c : Char) (cs : List Char) :
    bytes (c :: cs) = String.utf8EncodeChar c ++ bytes cs := rfl

@[simp] theorem bytes_append (cs ds : List Char) : bytes (cs ++ ds) = bytes cs ++ bytes ds :=
  List.flatMap_append

theorem length_bytes (cs : List Char) : (bytes cs).length = size cs := by
  induction cs with
  | nil => rfl
  | cons c cs ih =>
    rw [bytes_cons, List.length_append, ih, String.length_utf8EncodeChar, size_cons]

/-- The bytes behind a prefix. -/
theorem drop_bytes (pre cs : List Char) : (bytes (pre ++ cs)).drop (size pre) = bytes cs := by
  rw [bytes_append, List.drop_left' (length_bytes pre)]

theorem sliceFrom_append (pre cs : List Char) : sliceFrom (pre ++ cs) (size pre) = some cs := by
  induction pre with
  | nil => cases cs <;> rfl
  | cons c pre ih =>
    have hpos := c.utf8Size_pos
    obtain ⟨n, hn⟩ : ∃ n, size (c :: pre) = n + 1 := ⟨size (c :: pre) - 1, by
      rw [size_cons]
      omega⟩
    have hle : c.utf8Size ≤ n + 1 := by
      rw [← hn, size_cons]
      omega
    have hrest : n + 1 - c.utf8Size = size pre := by
      rw [← hn, size_cons]
      omega
    rw [hn, List.cons_append, sliceFrom, if_pos hle, hrest, ih]

theorem sliceTo_append (pre cs : List Char) : sliceTo (pre ++ cs) (size pre) = some pre := by
  induction pre with
  | nil => cases cs <;> rfl
  | cons c pre ih =>
    have hpos := c.utf8Size_pos
    obtain ⟨n, hn⟩ : ∃ n, size (c :: pre) = n + 1 := ⟨size (c :: pre) - 1, by
      rw [size_cons]
      omega⟩
    have hle : c.utf8Size ≤ n + 1 := by
      rw [← hn, size_cons]
      omega
    have hrest : n + 1 - c.utf8Size = size pre := by
      rw [← hn, size_cons]
      omega
    rw [hn, List.cons_append, sliceTo, if_pos hle, hrest, ih, Option.map_some]

theorem slice_append (pre mid cs : List Char) :
    slice (pre ++ (mid ++ cs)) (size pre) (size pre + size mid) = some mid := by
  rw [slice, if_pos (Nat.le_add_right _ _), sliceFrom_append, Option.bind_some,
    Nat.add_sub_cancel_left, sliceTo_append]

/-! ## Finding -/

theorem find_eq (f : Char → Bool) (cs : List Char) :
    (find f cs).getD (size cs) = size (cs.takeWhile fun c => !f c) := by
  induction cs with
  | nil => rfl
  | cons c cs ih =>
    by_cases hc : f c = true
    · rw [find, if_pos hc, List.takeWhile_cons_of_neg (by simp [hc])]
      rfl
    · rw [find, if_neg hc, List.takeWhile_cons_of_pos (by simp [hc]), size_cons, size_cons, ← ih]
      cases find f cs <;> rfl

/-- The first of the indexed characters to satisfy a predicate ends the longest run that does
not. -/
theorem charIndices_find (f : Char → Bool) (i : Nat) (cs : List Char) :
    (((charIndices i cs).find? fun p => f p.2).map Prod.fst).getD (i + size cs) =
      i + size (cs.takeWhile fun c => !f c) := by
  induction cs generalizing i with
  | nil => rfl
  | cons c cs ih =>
    by_cases hc : f c = true
    · rw [charIndices, List.find?_cons, hc, List.takeWhile_cons_of_neg (by simp [hc])]
      rfl
    · have hc' : f c = false := Bool.eq_false_iff.2 hc
      rw [charIndices, List.find?_cons, hc', List.takeWhile_cons_of_pos (by simp [hc]),
        size_cons, size_cons, ← Nat.add_assoc, ← Nat.add_assoc, ih]

/-- No index behind the first character is zero. -/
theorem charIndices_pos (i : Nat) (cs : List Char) (hi : 0 < i) :
    ∀ p ∈ charIndices i cs, 0 < p.1 := by
  induction cs generalizing i with
  | nil =>
    intro p hp
    cases hp
  | cons c cs ih =>
    intro p hp
    rcases List.mem_cons.1 hp with rfl | hp
    · exact hi
    · exact ih (i + c.utf8Size) (by omega) p hp

/-- A text is found where it first begins, if it does. -/
theorem findText_eq {lit : List Char} (hlit : lit ≠ []) (cs : List Char) :
    findText lit cs =
      if lit <+: cs.drop (Parser.before lit cs).length then some (size (Parser.before lit cs))
      else none := by
  induction cs with
  | nil =>
    have hnot : ¬ lit <+: [] := fun h => hlit (List.prefix_nil.1 h)
    rw [findText, Parser.before, if_neg (by simpa using hlit)]
    exact (if_neg hnot).symm
  | cons c cs ih =>
    by_cases h : lit <+: c :: cs
    · have hp := List.isPrefixOf_iff_prefix.2 h
      rw [findText, if_pos hp, Parser.before, if_pos hp]
      exact (if_pos h).symm
    · have hp := mt List.isPrefixOf_iff_prefix.1 h
      rw [findText, if_neg hp, Parser.before, if_neg hp, List.length_cons, List.drop_succ_cons,
        ih, size_cons]
      by_cases hfound : lit <+: cs.drop (Parser.before lit cs).length
      · rw [if_pos hfound, if_pos hfound, Option.map_some]
      · rw [if_neg hfound, if_neg hfound, Option.map_none]

/-! ## Bytes below 128 -/

/-- A character below 128 is one byte, its code. -/
theorem encode_ascii {c : Char} (h : c.toNat < 128) :
    String.utf8EncodeChar c = [UInt8.ofNat c.toNat] := by
  rw [String.utf8EncodeChar]
  exact if_pos (Nat.le_of_lt_succ h)

theorem size_ascii {c : Char} (h : c.toNat < 128) : c.utf8Size = 1 := by
  rw [← String.length_utf8EncodeChar, encode_ascii h, List.length_singleton]

/-- The bytes of any other character are not below 128. -/
theorem encode_other {c : Char} (h : 128 ≤ c.toNat) :
    ∀ b ∈ String.utf8EncodeChar c, 128 ≤ b.toNat := by
  have hc : c.toNat = c.val.toNat := rfl
  have hvalid : c.val.toNat < 0x110000 := by
    rcases c.valid with h | h
    · exact Nat.lt_trans h (by decide)
    · exact h.2
  rw [hc] at h
  unfold String.utf8EncodeChar
  generalize c.val.toNat = v at h hvalid
  intro b hb
  have hno : ¬ v ≤ 0x7f := by omega
  simp only [if_neg hno] at hb
  split at hb
  · simp only [List.mem_cons, List.not_mem_nil, or_false] at hb
    rcases hb with rfl | rfl
    · rw [UInt8.toNat_ofNat']
      omega
    · rw [UInt8.toNat_ofNat']
      omega
  · split at hb
    · simp only [List.mem_cons, List.not_mem_nil, or_false] at hb
      rcases hb with rfl | rfl | rfl
      all_goals
        rw [UInt8.toNat_ofNat']
        omega
    · simp only [List.mem_cons, List.not_mem_nil, or_false] at hb
      rcases hb with rfl | rfl | rfl | rfl
      all_goals
        rw [UInt8.toNat_ofNat']
        omega

section

variable {f : UInt8 → Bool} {g : Char → Bool}

/-- A run of bytes below 128 is a run of characters. -/
theorem takeWhile_bytes (hf : ∀ b, f b = true → b.toNat < 128)
    (hg : ∀ c, g c = true ↔ c.toNat < 128 ∧ f (UInt8.ofNat c.toNat) = true) (cs : List Char) :
    (bytes cs).takeWhile f = bytes (cs.takeWhile g) := by
  induction cs with
  | nil => rfl
  | cons c cs ih =>
    by_cases hc : g c = true
    · obtain ⟨hascii, hbyte⟩ := (hg c).1 hc
      rw [bytes_cons, encode_ascii hascii, List.takeWhile_cons_of_pos hc, bytes_cons,
        encode_ascii hascii, List.singleton_append, List.takeWhile_cons_of_pos hbyte, ih,
        List.singleton_append]
    · have hstop : ∃ b bs, String.utf8EncodeChar c = b :: bs ∧ f b = false := by
        cases henc : String.utf8EncodeChar c with
        | nil => exact absurd henc String.utf8EncodeChar_ne_nil
        | cons b bs =>
          refine ⟨b, bs, rfl, ?_⟩
          rw [Bool.eq_false_iff]
          intro hb
          by_cases hascii : c.toNat < 128
          · rw [encode_ascii hascii] at henc
            cases henc
            exact hc ((hg c).2 ⟨hascii, hb⟩)
          · have hge := encode_other (Nat.le_of_not_lt hascii) b (by simp [henc])
            have hlt := hf b hb
            omega
      obtain ⟨b, bs, henc, hb⟩ := hstop
      rw [bytes_cons, henc, List.cons_append, List.takeWhile_cons_of_neg (by simp [hb]),
        List.takeWhile_cons_of_neg hc, bytes_nil]

end

/-- A byte below 128 stands first where its character does. -/
theorem head_bytes {c : Char} (hc : c.toNat < 128) (cs : List Char) :
    (bytes cs).head? = some (UInt8.ofNat c.toNat) ↔ cs.head? = some c := by
  cases cs with
  | nil => simp
  | cons d ds =>
    rw [List.head?_cons, Option.some_inj]
    by_cases hd : d.toNat < 128
    · rw [bytes_cons, encode_ascii hd, List.singleton_append, List.head?_cons, Option.some_inj]
      constructor
      · intro h
        have hnat := congrArg UInt8.toNat h
        rw [UInt8.toNat_ofNat', UInt8.toNat_ofNat', Nat.mod_eq_of_lt (by omega),
          Nat.mod_eq_of_lt (by omega)] at hnat
        exact Char.toNat_inj.1 hnat
      · rintro rfl
        rfl
    · have hne : d ≠ c := by
        rintro rfl
        exact hd hc
      constructor
      · intro h
        cases henc : String.utf8EncodeChar d with
        | nil => exact absurd henc String.utf8EncodeChar_ne_nil
        | cons b bs =>
          rw [bytes_cons, henc, List.cons_append, List.head?_cons, Option.some_inj] at h
          have hge := encode_other (Nat.le_of_not_lt hd) b (by simp [henc])
          rw [h, UInt8.toNat_ofNat'] at hge
          omega
      · intro h
        exact absurd h hne

end SquealDb.Lib.Utf8
