import Mathlib.Algebra.GroupWithZero.Nat
import Mathlib.Algebra.BigOperators.Group.List.Basic

/-!
# Parser combinators

Parsers that choose the first alternative to succeed, and repeat for as long as an item
does: neither is undone by what fails later.  A parser stands at an offset of its input, the
sum of the widths of the symbols before it.
-/

namespace SquealDb.Lib

/-- Where a parser stands: the offset, and what is left. -/
structure Input (σ : Type) where
  offset : Nat
  rest : List σ
  deriving DecidableEq

/-- A value and where the input stands behind it, or a failure. -/
abbrev Parser (σ β : Type) := Input σ → Option (β × Input σ)

/-- The offsets a parser stood at before and behind what it took. -/
structure SourceSpan where
  start : Nat
  stop : Nat
  deriving DecidableEq

variable {σ α β γ : Type}

/-- The width of some symbols. -/
def widthOf (width : σ → Nat) (l : List σ) : Nat := (l.map width).sum

@[simp] theorem widthOf_nil (width : σ → Nat) : widthOf width [] = 0 := rfl

@[simp] theorem widthOf_cons (width : σ → Nat) (c : σ) (l : List σ) :
    widthOf width (c :: l) = width c + widthOf width l := by
  rw [widthOf, List.map_cons, List.sum_cons, widthOf]

@[simp] theorem widthOf_append (width : σ → Nat) (l l' : List σ) :
    widthOf width (l ++ l') = widthOf width l + widthOf width l' := by
  rw [widthOf, List.map_append, List.sum_append, widthOf, widthOf]

/-- The input behind the next `n` symbols. -/
def Input.skip (width : σ → Nat) (i : Input σ) (n : Nat) : Input σ :=
  ⟨i.offset + widthOf width (i.rest.take n), i.rest.drop n⟩

section

variable (width : σ → Nat)

@[simp] theorem Input.skip_zero (i : Input σ) : i.skip width 0 = i := by
  rw [skip, List.take_zero, widthOf_nil, List.drop_zero, Nat.add_zero]

theorem Input.skip_skip (i : Input σ) (m n : Nat) :
    (i.skip width m).skip width n = i.skip width (m + n) := by
  rw [skip, skip, skip, List.drop_drop, List.take_add, widthOf_append, Nat.add_assoc]

theorem Input.skip_one {i : Input σ} {c : σ} {l : List σ} (h : i.rest = c :: l) :
    i.skip width 1 = ⟨i.offset + width c, l⟩ := by
  rw [skip, h, List.take_succ_cons, List.take_zero, widthOf_cons, widthOf_nil, Nat.add_zero,
    List.drop_succ_cons, List.drop_zero]

end

namespace Parser

/-! ## The combinators -/

section

variable (width : σ → Nat)

/-- The next symbol. -/
def any : Parser σ σ := fun i =>
  match i.rest with
  | [] => none
  | c :: l => some (c, ⟨i.offset + width c, l⟩)

/-- These symbols, one after another. -/
def just [DecidableEq σ] (lit : List σ) : Parser σ (List σ) := fun i =>
  if lit.isPrefixOf i.rest then some (lit, i.skip width lit.length) else none

end

/-- Fails on a value that does not satisfy the predicate. -/
def filter (p : Parser σ β) (f : β → Bool) : Parser σ β := fun i =>
  match p i with
  | some (b, i') => if f b then some (b, i') else none
  | none => none

/-- The value made of what is parsed; fails where there is none. -/
def tryMap (p : Parser σ β) (f : β → SourceSpan → Option γ) : Parser σ γ := fun i =>
  match p i with
  | some (b, i') => (f b ⟨i.offset, i'.offset⟩).map (·, i')
  | none => none

/-- The value made of what is parsed and where. -/
def mapWith (p : Parser σ β) (f : β → SourceSpan → γ) : Parser σ γ :=
  p.tryMap fun b s => some (f b s)

/-- One parser behind another. -/
def andThen (p : Parser σ β) (q : Parser σ γ) : Parser σ (β × γ) := fun i =>
  match p i with
  | some (b, i') => (q i').map fun r => ((b, r.1), r.2)
  | none => none

/-- `p` where `q` would succeed as well. -/
def andIs (p : Parser σ β) (q : Parser σ γ) : Parser σ β := fun i =>
  match p i with
  | some r => (q i).map fun _ => r
  | none => none

/-- Succeeds, on nothing, where `p` fails. -/
def not (p : Parser σ β) : Parser σ Unit := fun i =>
  match p i with
  | some _ => none
  | none => some ((), i)

/-- `p`, or nothing. -/
def orNot (p : Parser σ β) : Parser σ (Option β) := fun i =>
  match p i with
  | some (b, i') => some (some b, i')
  | none => some (none, i)

/-- The first of the parsers to succeed. -/
def choice (ps : List (Parser σ β)) : Parser σ β := fun i => ps.findSome? fun p => p i

/-- Forgets the value. -/
def ignored (p : Parser σ β) : Parser σ Unit := p.mapWith fun _ _ => ()

/-- The symbols that are parsed. -/
def toSlice (p : Parser σ β) : Parser σ (List σ) := fun i =>
  (p i).map fun r => (i.rest.take (i.rest.length - r.2.rest.length), r.2)

/-- `p` between two others. -/
def delimitedBy (p : Parser σ β) (l : Parser σ α) (r : Parser σ γ) : Parser σ β :=
  ((l.andThen p).andThen r).mapWith fun b _ => b.1.2

/-- `q` behind `p`, whose value is forgotten. -/
def ignoreThen (p : Parser σ β) (q : Parser σ γ) : Parser σ γ :=
  (p.andThen q).mapWith fun b _ => b.2

/-- The end of the input. -/
def atEnd : Parser σ Unit := fun i => if i.rest.isEmpty then some ((), i) else none

/-- `p` followed by `q`, whose value is forgotten. -/
def thenIgnore (p : Parser σ β) (q : Parser σ γ) : Parser σ β :=
  (p.andThen q).mapWith fun b _ => b.1

/-- At most `n` items, for as long as the item succeeds. -/
def upTo (p : Parser σ β) : Nat → Input σ → List β × Input σ
  | 0, i => ([], i)
  | n + 1, i =>
    match p i with
    | some (b, i') => ((p.upTo n i').map (b :: ·) id)
    | none => ([], i)

/-- Items for as long as the item succeeds.  An item is to consume something, so that there
are no more of them than symbols. -/
def repeated (p : Parser σ β) : Parser σ (List β) := fun i => some (p.upTo i.rest.length i)

/-- Fails on fewer values. -/
def atLeast (p : Parser σ (List β)) (n : Nat) : Parser σ (List β) :=
  p.filter fun l => n ≤ l.length

/-! ## One combinator at a time -/

section

variable {p : Parser σ β} {q : Parser σ γ} {i i' i'' : Input σ} {b : β} {c : γ}

theorem mapWith_some (f : β → SourceSpan → γ) (h : p i = some (b, i')) :
    p.mapWith f i = some (f b ⟨i.offset, i'.offset⟩, i') := by
  rw [mapWith, tryMap, h]
  rfl

theorem mapWith_none (f : β → SourceSpan → γ) (h : p i = none) : p.mapWith f i = none := by
  rw [mapWith, tryMap, h]

theorem andThen_some (hp : p i = some (b, i')) (hq : q i' = some (c, i'')) :
    p.andThen q i = some ((b, c), i'') := by
  rw [andThen, hp]
  simp only [hq, Option.map_some]

theorem andThen_left (hp : p i = none) : p.andThen q i = none := by
  rw [andThen, hp]

theorem andThen_right (hp : p i = some (b, i')) (hq : q i' = none) : p.andThen q i = none := by
  rw [andThen, hp]
  simp only [hq, Option.map_none]

theorem orNot_some (hp : p i = some (b, i')) : p.orNot i = some (some b, i') := by
  rw [orNot, hp]

theorem orNot_none (hp : p i = none) : p.orNot i = some (none, i) := by
  rw [orNot, hp]

theorem choice_some {ps : List (Parser σ β)} (hp : p i = some (b, i')) :
    choice (p :: ps) i = some (b, i') := by
  rw [choice, List.findSome?_cons, hp]

theorem choice_skip {ps : List (Parser σ β)} (hp : p i = none) :
    choice (p :: ps) i = choice ps i := by
  rw [choice, List.findSome?_cons, hp]
  rfl

theorem choice_nil : choice ([] : List (Parser σ β)) i = none := rfl

theorem choice_or (p : Parser σ β) (ps : List (Parser σ β)) (i : Input σ) :
    choice (p :: ps) i = (p i).or (choice ps i) := by
  cases h : p i with
  | none => rw [choice_skip h, Option.none_or]
  | some r => rw [choice_some h, Option.some_or]

theorem ignored_some (h : p i = some (b, i')) : p.ignored i = some ((), i') := mapWith_some _ h

theorem ignored_none (h : p i = none) : p.ignored i = none := mapWith_none _ h

theorem atLeast_one {p : Parser σ (List β)} {l : List β} (hp : p i = some (l, i')) :
    p.atLeast 1 i = if l = [] then none else some (l, i') := by
  rw [atLeast, filter, hp]
  cases l with
  | nil => rfl
  | cons b l => exact if_pos (by simp)

variable {l : Parser σ α}

theorem delimitedBy_some {a : α} {i₁ i₂ i₃ : Input σ} (hl : l i = some (a, i₁))
    (hp : p i₁ = some (b, i₂)) (hq : q i₂ = some (c, i₃)) :
    p.delimitedBy l q i = some (b, i₃) :=
  mapWith_some _ (andThen_some (andThen_some hl hp) hq)

theorem delimitedBy_open (hl : l i = none) : p.delimitedBy l q i = none :=
  mapWith_none _ (andThen_left (andThen_left hl))

theorem delimitedBy_close {a : α} {i₁ i₂ : Input σ} (hl : l i = some (a, i₁))
    (hp : p i₁ = some (b, i₂)) (hq : q i₂ = none) : p.delimitedBy l q i = none :=
  mapWith_none _ (andThen_right (andThen_some hl hp) hq)

end

/-! ## Repetition -/

/-- Whatever the parser takes, it takes something. -/
def Consumes (p : Parser σ β) : Prop :=
  ∀ i b i', p i = some (b, i') → i'.rest.length < i.rest.length

variable {p : Parser σ β}

variable {n : Nat} {i : Input σ} {l : List σ} {f : σ → Bool}

theorem upTo_succ {i' : Input σ} {b : β} (h : p i = some (b, i')) :
    p.upTo (n + 1) i = (b :: (p.upTo n i').1, (p.upTo n i').2) := by
  rw [upTo, h]
  rfl

theorem upTo_none (h : p i = none) : p.upTo n i = ([], i) := by
  cases n with
  | zero => rfl
  | succ n => rw [upTo, h]

/-- More rounds than symbols make no difference. -/
theorem upTo_eq (hp : p.Consumes) {m : Nat} (hm : i.rest.length ≤ m) (hn : i.rest.length ≤ n) :
    p.upTo m i = p.upTo n i := by
  induction m generalizing n i with
  | zero =>
    cases h : p i with
    | none => rw [upTo_none h, upTo_none h]
    | some r =>
      have hlt := hp i r.1 r.2 h
      omega
  | succ m ih =>
    cases h : p i with
    | none => rw [upTo_none h, upTo_none h]
    | some r =>
      obtain ⟨b, i'⟩ := r
      have hlt := hp i b i' h
      obtain ⟨n, rfl⟩ : ∃ k, n = k + 1 := ⟨n - 1, by omega⟩
      have htail : p.upTo m i' = p.upTo n i' := ih (by omega) (by omega)
      rw [upTo_succ h, upTo_succ h, htail]

theorem repeated_step (hp : p.Consumes) {i' : Input σ} {b : β} (h : p i = some (b, i')) :
    p.repeated i = (p.repeated i').map fun r => (b :: r.1, r.2) := by
  have hlt := hp i b i' h
  obtain ⟨n, hn⟩ : ∃ k, i.rest.length = k + 1 := ⟨i.rest.length - 1, by omega⟩
  have htail : p.upTo n i' = p.upTo i'.rest.length i' := upTo_eq hp (by omega) (Nat.le_refl _)
  rw [repeated, repeated, hn, upTo_succ h, htail]
  rfl

theorem repeated_stop (h : p i = none) : p.repeated i = some ([], i) := by
  rw [repeated, upTo_none h]

/-! ## Single symbols -/

variable {width : σ → Nat}

theorem any_cons {c : σ} (h : i.rest = c :: l) :
    any width i = some (c, i.skip width 1) := by
  rw [any, h, Input.skip_one width h]

theorem any_nil (h : i.rest = []) : any width i = none := by
  rw [any, h]

theorem filter_any_some {c : σ} (h : i.rest = c :: l) (hc : f c = true) :
    (any width).filter f i = some (c, i.skip width 1) := by
  rw [filter, any_cons h]
  exact if_pos hc

theorem filter_any_none {c : σ} (h : i.rest = c :: l) (hc : f c = false) :
    (any width).filter f i = none := by
  rw [filter, any_cons h]
  exact if_neg (by rw [hc]; exact Bool.false_ne_true)

theorem filter_any_nil (h : i.rest = []) :
    (any width).filter f i = none := by
  rw [filter, any_nil h]

theorem consumes_any : (any width).Consumes := by
  intro i b i' h
  cases hrest : i.rest with
  | nil =>
    rw [any_nil hrest] at h
    cases h
  | cons c l =>
    rw [any_cons hrest, Input.skip_one width hrest] at h
    cases h
    exact Nat.lt_succ_self _

theorem Consumes.filter (hp : p.Consumes) (f : β → Bool) : (p.filter f).Consumes := by
  intro i b i' h
  unfold Parser.filter at h
  cases hpi : p i with
  | none =>
    rw [hpi] at h
    cases h
  | some r =>
    rw [hpi] at h
    obtain ⟨b', i''⟩ := r
    by_cases hf : f b' = true
    · simp only [hf, if_true] at h
      cases h
      exact hp i b i' hpi
    · simp only [hf] at h
      cases h

/-- A repetition of symbols that satisfy a predicate takes the longest run of them. -/
theorem repeated_filter (f : σ → Bool) (i : Input σ) :
    ((any width).filter f).repeated i =
      some (i.rest.takeWhile f, i.skip width (i.rest.takeWhile f).length) := by
  obtain ⟨at_, rest⟩ := i
  induction rest generalizing at_ with
  | nil =>
    rw [repeated_stop (filter_any_nil rfl)]
    simp
  | cons c l ih =>
    by_cases hc : f c = true
    · have hnext : (any width).filter f ⟨at_, c :: l⟩ = some (c, ⟨at_ + width c, l⟩) := by
        rw [filter_any_some rfl hc, Input.skip_one width rfl]
      have hskip : (Input.mk at_ (c :: l)).skip width ((l.takeWhile f).length + 1) =
          (Input.mk (at_ + width c) l).skip width (l.takeWhile f).length := by
        rw [Nat.add_comm, ← Input.skip_skip, Input.skip_one width rfl]
      rw [repeated_step (consumes_any.filter f) hnext, ih, Option.map_some,
        List.takeWhile_cons_of_pos hc, List.length_cons, hskip]
    · have hc' : f c = false := Bool.eq_false_iff.2 hc
      rw [repeated_stop (filter_any_none rfl hc'), List.takeWhile_cons_of_neg hc]
      simp

theorem consumes_andIs {q : Parser σ γ} (hp : p.Consumes) : (p.andIs q).Consumes := by
  intro i b i' h
  unfold andIs at h
  cases hpi : p i with
  | none =>
    rw [hpi] at h
    cases h
  | some r =>
    rw [hpi] at h
    obtain ⟨q', -, hr⟩ := Option.map_eq_some_iff.1 h
    rw [hr] at hpi
    exact hp i b i' hpi

/-! ## Literals -/

section

variable [DecidableEq σ] {lit : List σ}

theorem just_some {i : Input σ} (h : lit <+: i.rest) :
    just width lit i = some (lit, i.skip width lit.length) :=
  if_pos (List.isPrefixOf_iff_prefix.2 h)

theorem just_none {i : Input σ} (h : ¬ lit <+: i.rest) : just width lit i = none :=
  if_neg (mt List.isPrefixOf_iff_prefix.1 h)

/-- The symbols before the first place a literal begins at, all of them if there is none. -/
def before (lit : List σ) : List σ → List σ
  | [] => []
  | c :: l => if lit.isPrefixOf (c :: l) then [] else c :: before lit l

theorem before_append (lit l : List σ) : before lit l ++ l.drop (before lit l).length = l := by
  induction l with
  | nil => rfl
  | cons c l ih =>
    rw [before]
    split
    · rfl
    · rw [List.length_cons, List.drop_succ_cons, List.cons_append, ih]

/-- A repetition of any symbol where a literal does not begin stops where it does. -/
theorem repeated_until (i : Input σ) :
    ((any width).andIs (just width lit).not).repeated i =
      some (before lit i.rest, i.skip width (before lit i.rest).length) := by
  obtain ⟨at_, rest⟩ := i
  have hconsumes : ((any width).andIs (just width lit).not).Consumes :=
    consumes_andIs consumes_any
  induction rest generalizing at_ with
  | nil =>
    have hstop : (any width).andIs (just width lit).not ⟨at_, []⟩ = none := rfl
    rw [repeated_stop hstop]
    simp [before]
  | cons c l ih =>
    by_cases hlit : lit <+: c :: l
    · have hstop : (any width).andIs (just width lit).not ⟨at_, c :: l⟩ = none := by
        simp only [andIs, any, not, just_some (i := ⟨at_, c :: l⟩) hlit, Option.map_none]
      rw [repeated_stop hstop, before, if_pos (List.isPrefixOf_iff_prefix.2 hlit)]
      simp
    · have hnext : (any width).andIs (just width lit).not ⟨at_, c :: l⟩ =
          some (c, ⟨at_ + width c, l⟩) := by
        simp only [andIs, any, not, just_none (i := ⟨at_, c :: l⟩) hlit, Option.map_some]
      have hskip : (Input.mk at_ (c :: l)).skip width ((before lit l).length + 1) =
          (Input.mk (at_ + width c) l).skip width (before lit l).length := by
        rw [Nat.add_comm, ← Input.skip_skip, Input.skip_one width rfl]
      rw [repeated_step hconsumes hnext, ih, Option.map_some, before,
        if_neg (mt List.isPrefixOf_iff_prefix.1 hlit), List.length_cons, hskip]

end

/-! ## Slices -/

theorem toSlice_skip {b : β} (h : p i = some (b, i.skip width n)) (hn : n ≤ i.rest.length) :
    p.toSlice i = some (i.rest.take n, i.skip width n) := by
  have hrest : (i.skip width n).rest = i.rest.drop n := rfl
  rw [toSlice, h, Option.map_some, hrest, List.length_drop, Nat.sub_sub_self hn]

theorem toSlice_none (h : p i = none) : p.toSlice i = none := by
  rw [toSlice, h, Option.map_none]

end Parser

end SquealDb.Lib
