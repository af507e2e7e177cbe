import SquealDb.Lib.Bytes

/-!
# Codes whose order is their values' order

A code `enc : α → List β` orders as a comparison `cmp` of its values does if two
codewords, each with something behind it, compare first as the values and then as
what is behind them.  That is asked only of tails of some kind: a code may rely on
what can follow it.  A sequence of values is then its codewords one after
another, and compares as the sequences do.

A string with no length in front ends where a terminator says so.  If the
terminator is the least symbol and may occur inside, each occurrence is followed
by a mark that no tail begins with as high as: the string that ends there sorts
below the one that goes on.

Nothing in this module names a particular code.

## Main results

* `OrderCode.flatMap` — sequences of codewords order as sequences of values.
* `orderCode_escape` — a string terminated by an escaped least symbol.
* `OrderCode.begins` — a sequence's code begins with another's only if the
  sequence begins with the other.
* `between_mark_iff` — what begins with a sequence is a range.
-/

namespace SquealDb.Lib

variable {α β : Type*} [Ord β]

/-- Codewords compare as their values do, then as what is behind them. -/
def OrderCode (cmp : α → α → Ordering) (tail : List β → Prop) (enc : α → List β) : Prop :=
  ∀ a b us vs, tail us → tail vs →
    compare (enc a ++ us) (enc b ++ vs) = (cmp a b).then (compare us vs)

/-- A sequence of codewords compares as the sequence of values: a codeword is
never empty, and may stand where a tail is asked for. -/
theorem OrderCode.flatMap {cmp : α → α → Ordering} {tail : List β → Prop} {enc : α → List β}
    (h : OrderCode cmp tail enc) (hnil : tail []) (htail : ∀ a us, tail (enc a ++ us))
    (hne : ∀ a, enc a ≠ []) (as bs : List α) :
    compare (as.flatMap enc) (bs.flatMap enc) = as.compareLex cmp bs := by
  have hflat : ∀ cs : List α, tail (cs.flatMap enc) := by
    intro cs
    cases cs with
    | nil => exact hnil
    | cons c cs => exact htail c _
  induction as generalizing bs with
  | nil =>
    cases bs with
    | nil => rfl
    | cons b bs =>
      obtain ⟨x, xs, hx⟩ := List.exists_cons_of_ne_nil (hne b)
      rw [List.flatMap_cons, hx]
      rfl
  | cons a as ih =>
    cases bs with
    | nil =>
      obtain ⟨x, xs, hx⟩ := List.exists_cons_of_ne_nil (hne a)
      rw [List.flatMap_cons, hx]
      rfl
    | cons b bs =>
      rw [List.flatMap_cons, List.flatMap_cons, h a b _ _ (hflat as) (hflat bs), ih,
        List.compareLex_cons_cons]

/-! ## Strings that end in their least symbol -/

section Escape

variable [DecidableEq β] (zero esc : β)

/-- Every `zero` of the string followed by `esc`. -/
def escape : List β → List β
  | [] => []
  | b :: bs => if b = zero then zero :: esc :: escape bs else b :: escape bs

/-- The string that an escaped one and the first bare `zero` behind it hold, and
what follows; `none` if there is no such `zero`. -/
def unescape : List β → Option (List β × List β)
  | [] => none
  | b :: bs =>
    if b = zero then
      match bs with
      | [] => some ([], [])
      | c :: cs =>
        if c = esc then (unescape cs).map fun p => (zero :: p.1, p.2) else some ([], c :: cs)
    else (unescape bs).map fun p => (b :: p.1, p.2)

/-- A tail that does not go on with the mark. -/
def NoEsc (us : List β) : Prop := ∀ u ∈ us.head?, compare u esc = .lt

variable {zero esc}

omit [Ord β] in
theorem unescape_cons {b : β} (hb : b ≠ zero) (bs : List β) :
    unescape zero esc (b :: bs) = (unescape zero esc bs).map fun p => (b :: p.1, p.2) := by
  cases bs with
  | nil => simp [unescape, hb]
  | cons c cs => simp [unescape, hb]

/-- Reading back an escaped string. -/
theorem unescape_escape [Std.ReflOrd β] (s us : List β) (hus : NoEsc esc us) :
    unescape zero esc (escape zero esc s ++ zero :: us) = some (s, us) := by
  induction s with
  | nil =>
    cases us with
    | nil => simp [escape, unescape]
    | cons u us =>
      have hne : u ≠ esc := by
        rintro rfl
        have hself : compare u u = .eq := Std.ReflCmp.compare_self
        have hlt := hus u rfl
        rw [hself] at hlt
        cases hlt
      simp [escape, unescape, hne]
  | cons b bs ih =>
    by_cases hb : b = zero
    · subst hb
      simp only [escape, if_true, List.cons_append, unescape, ih, Option.map_some]
    · simp only [escape, if_neg hb, List.cons_append]
      rw [unescape_cons hb, ih, Option.map_some]

/-- A string written escaped and ended by the least symbol orders as the string,
before tails that do not begin with the mark or above it. -/
theorem orderCode_escape [Std.LawfulEqOrd β] [Std.OrientedOrd β]
    (hzero : ∀ b, b ≠ zero → compare zero b = .lt) :
    OrderCode compare (NoEsc esc) fun s : List β => escape zero esc s ++ [zero] := by
  have hgt : ∀ b, b ≠ zero → compare b zero = .gt := by
    intro b hb
    rw [Std.OrientedOrd.eq_swap, hzero b hb]
    rfl
  have hself : ∀ b : β, compare b b = .eq := fun b => Std.ReflCmp.compare_self
  intro s t us vs hus hvs
  simp only [List.append_assoc, List.singleton_append]
  induction s generalizing t with
  | nil =>
    cases t with
    | nil =>
      rw [escape, List.nil_append, List.nil_append, List.compare_cons_cons, hself,
        show compare ([] : List β) [] = .eq from rfl]
    | cons c cs =>
      rw [show compare ([] : List β) (c :: cs) = .lt from rfl]
      by_cases hc : c = zero
      · -- the string that ends here, against one that goes on with a zero
        subst hc
        simp only [escape, if_true, List.nil_append, List.cons_append,
          List.compare_cons_cons, hself]
        cases us with
        | nil => rfl
        | cons u us =>
          rw [List.compare_cons_cons, hus u rfl]
          rfl
      · simp only [escape, if_neg hc, List.nil_append, List.cons_append,
          List.compare_cons_cons, hzero c hc]
        rfl
  | cons b bs ih =>
    cases t with
    | nil =>
      rw [show compare (b :: bs) ([] : List β) = .gt from rfl]
      by_cases hb : b = zero
      · subst hb
        simp only [escape, if_true, List.nil_append, List.cons_append,
          List.compare_cons_cons, hself]
        cases vs with
        | nil => rfl
        | cons v vs =>
          rw [List.compare_cons_cons, Std.OrientedOrd.eq_swap, hvs v rfl]
          rfl
      · simp only [escape, if_neg hb, List.nil_append, List.cons_append,
          List.compare_cons_cons, hgt b hb]
        rfl
    | cons c cs =>
      rw [List.compare_cons_cons, Ordering.then_assoc, ← ih]
      by_cases hb : b = zero
      · subst hb
        by_cases hc : c = b
        · subst hc
          simp only [escape, if_true, List.cons_append, List.compare_cons_cons, hself]
          rfl
        · simp only [escape, if_true, if_neg hc, List.cons_append, List.compare_cons_cons,
            hzero c hc]
          rfl
      · by_cases hc : c = zero
        · subst hc
          simp only [escape, if_true, if_neg hb, List.cons_append, List.compare_cons_cons,
            hgt b hb]
          rfl
        · simp only [escape, if_neg hb, if_neg hc, List.cons_append, List.compare_cons_cons]

/-- What begins with `p`, and does not go on with the mark, is what is from `p` up to
`p` and the mark. -/
theorem between_mark_iff [Std.LawfulEqOrd β] [Std.OrientedOrd β]
    (hesc : ∀ b, b ≠ esc → compare b esc = .lt) (p s : List β) :
    (compare p s ≠ .gt ∧ compare s (p ++ [esc]) = .lt) ↔
      ∃ rest, s = p ++ rest ∧ NoEsc esc rest := by
  have hself : ∀ b : β, compare b b = .eq := fun b => Std.ReflCmp.compare_self
  induction p generalizing s with
  | nil =>
    cases s with
    | nil => exact ⟨fun _ => ⟨[], rfl, fun _ hu => nomatch hu⟩, fun _ => ⟨nofun, rfl⟩⟩
    | cons b bs =>
      have hnil : compare ([] : List β) (b :: bs) = .lt := rfl
      rw [hnil, List.nil_append, List.compare_cons_cons]
      by_cases hb : b = esc
      · subst hb
        rw [hself]
        have hnot : compare bs [] ≠ .lt := by
          cases bs <;> exact (nomatch ·)
        constructor
        · intro h
          exact absurd h.2 hnot
        · intro ⟨rest, hrest, hno⟩
          rw [List.nil_append] at hrest
          subst hrest
          have hlt := hno b rfl
          rw [hself] at hlt
          cases hlt
      · rw [hesc b hb]
        constructor
        · intro _
          refine ⟨b :: bs, rfl, fun u hu => ?_⟩
          cases hu
          exact hesc b hb
        · intro _
          exact ⟨nofun, rfl⟩
  | cons a p ih =>
    cases s with
    | nil =>
      have hnil : compare (a :: p) ([] : List β) = .gt := rfl
      constructor
      · intro h
        exact absurd hnil h.1
      · intro ⟨rest, hrest, _⟩
        cases hrest
    | cons b bs =>
      rw [List.cons_append, List.compare_cons_cons, List.compare_cons_cons]
      by_cases hab : a = b
      · subst hab
        rw [hself]
        show compare p bs ≠ .gt ∧ compare bs (p ++ [esc]) = .lt ↔ _
        apply (ih bs).trans
        constructor
        · intro ⟨rest, hrest, hno⟩
          exact ⟨rest, congrArg _ hrest, hno⟩
        · intro ⟨rest, hrest, hno⟩
          exact ⟨rest, (List.cons.inj hrest).2, hno⟩
      · have hne : compare a b ≠ .eq := fun h => hab (Std.LawfulEqOrd.eq_of_compare h)
        constructor
        · intro h
          rw [Std.OrientedOrd.eq_swap (a := b)] at h
          cases hcmp : compare a b with
          | eq => exact absurd hcmp hne
          | lt =>
            rw [hcmp] at h
            cases h.2
          | gt =>
            rw [hcmp] at h
            exact absurd rfl h.1
        · intro ⟨rest, hrest, _⟩
          exact absurd (List.cons.inj hrest).1.symm hab

end Escape

/-- If a sequence's code begins with another's, and goes on as a tail may, then the
sequence begins with values that compare equal to the other. -/
theorem OrderCode.begins [Std.LawfulEqOrd β] {cmp : α → α → Ordering} {tail : List β → Prop}
    {enc : α → List β} (h : OrderCode cmp tail enc) (hnil : tail [])
    (htail : ∀ a us, tail (enc a ++ us)) (hne : ∀ a, enc a ≠ []) {as bs : List α}
    {rest : List β} (hrest : tail rest) (hcode : bs.flatMap enc = as.flatMap enc ++ rest) :
    as.compareLex cmp (bs.take as.length) = .eq := by
  induction as generalizing bs with
  | nil => rfl
  | cons a as ih =>
    cases bs with
    | nil =>
      rw [List.flatMap_nil, List.flatMap_cons, List.append_assoc] at hcode
      have hempty : enc a = [] := (List.append_eq_nil_iff.mp hcode.symm).1
      exact absurd hempty (hne a)
    | cons b bs =>
      have hgoes : tail (as.flatMap enc ++ rest) := by
        cases as with
        | nil => exact hrest
        | cons c as =>
          rw [List.flatMap_cons, List.append_assoc]
          exact htail c _
      have hbs : tail (bs.flatMap enc) := by
        cases bs with
        | nil => exact hnil
        | cons c bs => exact htail c _
      rw [List.flatMap_cons, List.flatMap_cons, List.append_assoc] at hcode
      have hcmp := h a b _ _ hgoes hbs
      rw [← hcode, show compare (enc b ++ bs.flatMap enc) (enc b ++ bs.flatMap enc) = .eq from
        Std.ReflCmp.compare_self] at hcmp
      have hboth := Ordering.then_eq_eq.mp hcmp.symm
      have hsame := Std.LawfulEqOrd.eq_of_compare hboth.2
      rw [List.length_cons, List.take_succ_cons, List.compareLex_cons_cons, hboth.1,
        ih hsame.symm]
      rfl

end SquealDb.Lib
