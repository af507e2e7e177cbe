import Mathlib.Algebra.Order.Group.Unbundled.Int
import Mathlib.Data.List.Induction
import SquealDb.Sql.Fold
import SquealDb.Sql.Rows

/-!
# Integer expressions

Expressions of integer literals, columns and parameters under unary minus and plus, the
five arithmetic operators, `ABS` and `SUM`, as `EvalExpr::from_expr` compiles them, against
exact arithmetic.  The operators are checked but for two operands: unary minus is not
checked at all, so that of the least `i64` wraps, or panics where overflow is checked; and
the remainder of the least `i64` by minus one is refused, though it is zero.
-/

namespace SquealDb.Sql

open Codec Lib

/-- The arithmetic operators. -/
inductive Arith where
  | plus | minus | multiply | divide | modulo
  deriving DecidableEq

namespace Arith

/-- The operator of an expression. -/
def op : Arith → BinaryOp
  | plus => .plus
  | minus => .minus
  | multiply => .multiply
  | divide => .divide
  | modulo => .modulo

/-- The result over the integers: division truncates, and a remainder has the sign of the
dividend. -/
def exact : Arith → Int → Int → Option Int
  | plus, a, b => some (a + b)
  | minus, a, b => some (a - b)
  | multiply, a, b => some (a * b)
  | divide, a, b => if b = 0 then none else some (a.tdiv b)
  | modulo, a, b => if b = 0 then none else some (a.tmod b)

end Arith

/-- An integer expression, as it is parsed. -/
inductive IntExpr where
  | literal (n : Int64)
  | column (pos : Nat)
  | param (i : Nat)
  | plus (e : IntExpr)
  | minus (e : IntExpr)
  | arith (op : Arith) (l r : IntExpr)
  | abs (e : IntExpr)
  | sum (e : IntExpr)

/-- The value an exact result stands for, `none` being `NULL`. -/
def toValue : Option Int → ValueItem
  | none => .null
  | some n => .integer (Int64.ofInt n)

/-- The integer a value stands for. -/
def ofValue : ValueItem → Option Int
  | .integer i => some i.toInt
  | _ => none

/-- An exact result that fits an `i64`. -/
def fit (n : Int) : Option (Option Int) :=
  if -2 ^ 63 ≤ n ∧ n < 2 ^ 63 then some (some n) else none

namespace IntExpr

/-- `from_expr`, planning with the parameters' values. -/
def compile (params : List ValueItem) : IntExpr → EvalExpr
  | literal n => .literal (.integer n)
  | column pos => .value pos
  | param i => .literal (params.getD i .null)
  | plus e => (EvalExpr.unary .plus (e.compile params)).folded
  | minus e => (EvalExpr.unary .minus (e.compile params)).folded
  | arith op l r => (EvalExpr.binary (l.compile params) op.op (r.compile params)).folded
  | abs e => .call .abs (e.compile params)
  | sum e => .aggregate (.sum (.inl 0) false) (e.compile params)

/-- `from_expr`, planning with parameter slots. -/
def compileSlots : IntExpr → EvalExpr
  | literal n => .literal (.integer n)
  | column pos => .value pos
  | param i => .param i
  | plus e => (EvalExpr.unary .plus e.compileSlots).folded
  | minus e => (EvalExpr.unary .minus e.compileSlots).folded
  | arith op l r => (EvalExpr.binary l.compileSlots op.op r.compileSlots).folded
  | abs e => .call .abs e.compileSlots
  | sum e => .aggregate (.sum (.inl 0) false) e.compileSlots

/-- The columns the expression reads. -/
def columns : IntExpr → List Nat
  | literal _ | param _ => []
  | column pos => [pos]
  | plus e | minus e | abs e | sum e => e.columns
  | arith _ l r => l.columns ++ r.columns

/-- The parameter slots the expression reads. -/
def slots : IntExpr → List Nat
  | literal _ | column _ => []
  | param i => [i]
  | plus e | minus e | abs e | sum e => e.slots
  | arith _ l r => l.slots ++ r.slots

/-- The expression and the expressions it is built of. -/
def parts : IntExpr → List IntExpr
  | literal n => [literal n]
  | column pos => [column pos]
  | param i => [param i]
  | plus e => plus e :: e.parts
  | minus e => minus e :: e.parts
  | arith op l r => arith op l r :: (l.parts ++ r.parts)
  | abs e => abs e :: e.parts
  | sum e => sum e :: e.parts

/-! ## Exact results -/

/-- The result over the integers after some rows of a group, the last of them the row the
expression is on: `none` where it, or what it is made of, does not fit an `i64`, or is
divided by zero. -/
def exactAt (params : List ValueItem) : IntExpr → List Row → Option (Option Int)
  | literal n, _ => some (some n.toInt)
  | column pos, rows => some (ofValue ((rows.getLastD []).getD pos .null))
  | param i, _ => some (ofValue (params.getD i .null))
  | plus e, rows => e.exactAt params rows
  | minus e, rows => do
    match ← e.exactAt params rows with
    | some n => fit (-n)
    | none => some none
  | arith op l r, rows => do
    match ← l.exactAt params rows, ← r.exactAt params rows with
    | some a, some b => (op.exact a b).bind fit
    | _, _ => some none
  | abs e, rows => do
    match ← e.exactAt params rows with
    | some n => fit |n|
    | none => some none
  | sum e, rows =>
    (List.range rows.length).foldlM (fun total i => do
      match ← e.exactAt params (rows.take (i + 1)) with
      | some n => fit (total.getD 0 + n)
      | none => some total) none

/-- There is an exact result on every row of the group. -/
def Fits (params : List ValueItem) (e : IntExpr) (rows : List Row) : Prop :=
  ∀ n < rows.length, e.exactAt params (rows.take (n + 1)) ≠ none

/-- The exact result of a group: none where there is none on one of its rows. -/
def exactOver (params : List ValueItem) (e : IntExpr) (rows : List Row) :
    Option (Option Int) :=
  if (List.range rows.length).all fun n => (e.exactAt params (rows.take (n + 1))).isSome then
    e.exactAt params rows
  else none

/-- On the last of some rows, which are reached, the expression negates the least `i64`, or
takes the remainder of it by minus one. -/
def Strays (params : List ValueItem) (e : IntExpr) (rows : List Row) : Prop :=
  e.Fits params rows.dropLast ∧
    match e with
    | minus e => e.exactAt params rows = some (some (-2 ^ 63))
    | arith .modulo l r =>
      l.exactAt params rows = some (some (-2 ^ 63)) ∧ r.exactAt params rows = some (some (-1))
    | _ => False

end IntExpr

/-- What evaluating an expression on every row of a group comes to. -/
def evalOver (text : Text) (e : EvalExpr) (rows : List Row) :
    Except SchemaError (ValueItem × EvalExpr) :=
  rows.foldlM (fun p row => p.2.eval text row) (.null, e)

/-- An evaluation gives the exact result, or fails on an operand where there is none. -/
def Exactly {α : Type} (r : Except SchemaError α) (result : α → ValueItem)
    (exact : Option (Option Int)) : Prop :=
  match exact with
  | some v => ∃ a, r = .ok a ∧ result a = toValue v
  | none => ∃ op what shown, r = .error (.invalidOperationOnOperand op what shown)

/-! ## The operators -/

variable {n : Int}

theorem fit_eq (h : -2 ^ 63 ≤ n ∧ n < 2 ^ 63) : fit n = some (some n) := if_pos h

theorem fit_none (h : ¬ (-2 ^ 63 ≤ n ∧ n < 2 ^ 63)) : fit n = none := if_neg h

theorem checked_eq (n : Int) :
    checked n = if -2 ^ 63 ≤ n ∧ n < 2 ^ 63 then some (Int64.ofInt n) else none := rfl

/-- The result is an `i64`. -/
def InRange : Option Int → Prop
  | some n => -2 ^ 63 ≤ n ∧ n < 2 ^ 63
  | none => True

theorem inRange_fit {v : Option Int} (h : fit n = some v) : InRange v := by
  unfold fit at h
  split at h
  · rename_i hfit
    cases h
    exact hfit
  · cases h

theorem inRange_ofValue (v : ValueItem) : InRange (ofValue v) := by
  cases v with
  | integer i => exact ⟨i.le_toInt, i.toInt_lt⟩
  | _ => trivial

theorem toInt_ofInt (h : InRange (some n)) : (Int64.ofInt n).toInt = n :=
  Int64.toInt_ofInt_of_le h.1 h.2

theorem toValue_ofValue {v : ValueItem} (h : v = .null ∨ ∃ i, v = .integer i) :
    toValue (ofValue v) = v := by
  rcases h with rfl | ⟨i, rfl⟩
  · rfl
  · show ValueItem.integer (Int64.ofInt i.toInt) = .integer i
    rw [Int64.ofInt_toInt]

theorem unary_plus (v : Option Int) : unary (toValue v) .plus = .ok (toValue v) := by
  cases v <;> rfl

/-- Unary minus is exact but for the least integer, which it leaves as it is. -/
theorem unary_minus (h : InRange (some n)) (hne : n ≠ -2 ^ 63) :
    fit (-n) = some (some (-n)) ∧ unary (toValue (some n)) .minus = .ok (toValue (some (-n))) := by
  obtain ⟨hlow, hhigh⟩ := h
  refine ⟨fit_eq (by omega), ?_⟩
  show Except.ok (ValueItem.integer (-Int64.ofInt n)) = _
  rw [← Int64.ofInt_neg]
  rfl

theorem unary_minus_least :
    fit (-(-2 ^ 63)) = none ∧ unary (toValue (some (-2 ^ 63))) .minus =
      .ok (toValue (some (-2 ^ 63))) := by
  refine ⟨fit_none (by decide), by decide⟩

/-- What a checked operation gives is the exact result, or an operand's error. -/
theorem numeric_exactly {a b : Int} {op : BinaryOp} {intOp : Int64 → Int64 → Option Int64}
    {floatOp : UInt64 → UInt64 → UInt64} {intErr : String} {x : Option Int}
    (h : intOp (Int64.ofInt a) (Int64.ofInt b) = x.bind checked) :
    Exactly (numeric (toValue (some a)) (toValue (some b)) op intOp floatOp intErr) id
      (x.bind fit) := by
  simp only [numeric, toValue, h]
  cases x with
  | none => exact ⟨_, _, _, rfl⟩
  | some n =>
    rw [Option.bind_some, Option.bind_some, checked_eq]
    by_cases hfit : -2 ^ 63 ≤ n ∧ n < 2 ^ 63
    · rw [if_pos hfit, fit_eq hfit]
      exact ⟨_, rfl, rfl⟩
    · rw [if_neg hfit, fit_none hfit]
      exact ⟨_, _, _, rfl⟩

/-- An operator is exact but for the remainder of the least integer by minus one. -/
theorem binary_exactly {op : Arith} {a b : Int} (ha : InRange (some a)) (hb : InRange (some b))
    (hrem : ¬ (op = .modulo ∧ a = -2 ^ 63 ∧ b = -1)) :
    Exactly (binary (toValue (some a)) (toValue (some b)) op.op) id
      ((op.exact a b).bind fit) := by
  have ha' := toInt_ofInt ha
  have hb' := toInt_ofInt hb
  have hzero : Int64.ofInt b = 0 ↔ b = 0 := by
    rw [← Int64.toInt_inj, hb']
    rfl
  have hops : ∀ intOp floatOp intErr,
      binary (toValue (some a)) (toValue (some b)) op.op =
        numeric (toValue (some a)) (toValue (some b)) op.op intOp floatOp intErr →
      intOp (Int64.ofInt a) (Int64.ofInt b) = (op.exact a b).bind checked →
      Exactly (binary (toValue (some a)) (toValue (some b)) op.op) id
        ((op.exact a b).bind fit) := by
    intro intOp floatOp intErr hbinary hint
    rw [hbinary]
    exact numeric_exactly hint
  cases op with
  | plus =>
    apply hops checkedAdd Binary64.add "integer overflow" rfl
    rw [checkedAdd, ha', hb']
    rfl
  | minus =>
    apply hops checkedSub Binary64.sub "integer overflow" rfl
    rw [checkedSub, ha', hb']
    rfl
  | multiply =>
    apply hops checkedMul Binary64.mul "integer overflow" rfl
    rw [checkedMul, ha', hb']
    rfl
  | divide =>
    apply hops checkedDiv Binary64.div "division by zero" rfl
    show _ = (if b = 0 then none else some (a.tdiv b)).bind checked
    rw [checkedDiv, ha', hb']
    by_cases h0 : b = 0
    · rw [if_pos (hzero.2 h0), if_pos h0]
      rfl
    · rw [if_neg (mt hzero.1 h0), if_neg h0]
      rfl
  | modulo =>
    apply hops checkedRem Binary64.rem "division by zero" rfl
    show _ = (if b = 0 then none else some (a.tmod b)).bind checked
    rw [checkedRem, ha', hb']
    by_cases h0 : b = 0
    · rw [if_pos (hzero.2 h0), if_pos h0]
      rfl
    · rw [if_neg (mt hzero.1 h0), if_neg h0]
      have hguard : ¬ (Int64.ofInt a = Int64.minValue ∧ Int64.ofInt b = -1) := by
        rintro ⟨hmin, hone⟩
        apply hrem
        refine ⟨rfl, ?_, ?_⟩
        · rw [← ha', hmin]
          rfl
        · rw [← hb', hone]
          rfl
      rw [if_neg hguard]
      rfl

theorem binary_rem_least :
    ((Arith.modulo).exact (-2 ^ 63) (-1)).bind fit = some (some 0) ∧
      ∃ op what shown, binary (toValue (some (-2 ^ 63))) (toValue (some (-1))) .modulo =
        .error (.invalidOperationOnOperand op what shown) := by
  refine ⟨by decide, "Modulo", "division by zero", [], by decide⟩

theorem binary_null {a b : Option Int} {op : Arith} (h : a = none ∨ b = none) :
    binary (toValue a) (toValue b) op.op = .ok .null := by
  rcases h with rfl | rfl
  · cases op <;> simp [binary, toValue, Arith.op]
  · cases op <;> simp [binary, toValue, Arith.op]

theorem checkedAbs_eq (i : Int64) : checkedAbs i = checked |i.toInt| := by
  rw [checkedAbs, Int.natCast_natAbs]

theorem apply_abs (text : Text) (i : Int64) :
    ScalarFn.apply text .abs (.integer i) = (checkedAbs i).elim
      (.error (.invalidOperationOnOperand "abs" " (out of range)" [.integer i]))
      fun a => .ok (.integer a) := rfl

theorem abs_exactly (text : Text) (h : InRange (some n)) :
    Exactly (ScalarFn.apply text .abs (toValue (some n))) id (fit |n|) := by
  rw [toValue, apply_abs, checkedAbs_eq, toInt_ofInt h, checked_eq]
  generalize |n| = m
  by_cases hfit : -2 ^ 63 ≤ m ∧ m < 2 ^ 63
  · rw [if_pos hfit, fit_eq hfit]
    exact ⟨_, rfl, rfl⟩
  · rw [if_neg hfit, fit_none hfit]
    exact ⟨_, _, _, rfl⟩

/-- Feeding a sum an integer. -/
theorem feed_exactly {t : Option Int} (ht : InRange t) (hn : InRange (some n)) :
    match fit (t.getD 0 + n) with
    | some v => Aggregate.feed (.sum (.inl (Int64.ofInt (t.getD 0))) t.isSome)
        (toValue (some n)) = .ok (.sum (.inl (Int64.ofInt (v.getD 0))) v.isSome)
    | none => ∃ op what shown, Aggregate.feed (.sum (.inl (Int64.ofInt (t.getD 0))) t.isSome)
        (toValue (some n)) = .error (.invalidOperationOnOperand op what shown) := by
  have ht' : (Int64.ofInt (t.getD 0)).toInt = t.getD 0 := by
    cases t with
    | none => rfl
    | some m => exact toInt_ofInt ht
  have hsum : checkedAdd (Int64.ofInt (t.getD 0)) (Int64.ofInt n) = checked (t.getD 0 + n) := by
    rw [checkedAdd, ht', toInt_ofInt hn]
  simp only [Aggregate.feed, toValue, hsum, checked_eq]
  by_cases h : -2 ^ 63 ≤ t.getD 0 + n ∧ t.getD 0 + n < 2 ^ 63
  · rw [if_pos h, fit_eq h]
    rfl
  · rw [if_neg h, fit_none h]
    exact ⟨_, _, _, rfl⟩

theorem apply_null (text : Text) {f : ScalarFn} (hf : f = .abs) :
    ScalarFn.apply text f .null = .ok .null := by
  subst hf
  rfl

/-- What a sum stands at. -/
theorem current_sum (t : Option Int) :
    Aggregate.current (.sum (.inl (Int64.ofInt (t.getD 0))) t.isSome) = toValue t := by
  cases t <;> rfl

/-! ## Expressions on the rows of a group -/

namespace IntExpr

variable (params : List ValueItem)

/-- The compiled expression after some rows of a group, its sums holding their exact
totals. -/
def built : IntExpr → List Row → EvalExpr
  | literal n, _ => .literal (.integer n)
  | column pos, _ => .value pos
  | param i, _ => .literal (params.getD i .null)
  | plus e, rows => (EvalExpr.unary .plus (e.built rows)).folded
  | minus e, rows => (EvalExpr.unary .minus (e.built rows)).folded
  | arith op l r, rows => (EvalExpr.binary (l.built rows) op.op (r.built rows)).folded
  | abs e, rows => .call .abs (e.built rows)
  | sum e, rows =>
    let total := ((sum e).exactAt params rows).getD none
    .aggregate (.sum (.inl (Int64.ofInt (total.getD 0))) total.isSome) (e.built rows)

theorem built_nil (e : IntExpr) : e.built params [] = e.compile params := by
  induction e with
  | literal n => rfl
  | column pos => rfl
  | param i => rfl
  | plus e ih => rw [built, compile, ih]
  | minus e ih => rw [built, compile, ih]
  | arith op l r ihl ihr => rw [built, compile, ihl, ihr]
  | abs e ih => rw [built, compile, ih]
  | sum e ih => rw [built, compile, ih]; rfl

variable {params}

theorem inRange_foldlM {f : Option Int → Nat → Option (Option Int)}
    (hf : ∀ t i v, InRange t → f t i = some v → InRange v) {l : List Nat} {t v : Option Int}
    (ht : InRange t) (h : l.foldlM f t = some v) : InRange v := by
  induction l generalizing t with
  | nil =>
    cases h
    exact ht
  | cons i l ih =>
    rw [List.foldlM_cons] at h
    obtain ⟨t', ht', hrest⟩ := Option.bind_eq_some_iff.1 h
    exact ih (hf t i t' ht ht') hrest

/-- An exact result is an `i64`. -/
theorem inRange_exactAt {e : IntExpr} {rows : List Row} {v : Option Int}
    (h : e.exactAt params rows = some v) : InRange v := by
  cases e with
  | literal n =>
    cases h
    exact ⟨n.le_toInt, n.toInt_lt⟩
  | column pos =>
    cases h
    exact inRange_ofValue _
  | param i =>
    cases h
    exact inRange_ofValue _
  | plus e => exact inRange_exactAt (e := e) h
  | minus e =>
    obtain ⟨x, -, hx⟩ := Option.bind_eq_some_iff.1 h
    cases x with
    | none => cases hx; trivial
    | some n => exact inRange_fit hx
  | arith op l r =>
    obtain ⟨x, -, hx⟩ := Option.bind_eq_some_iff.1 h
    obtain ⟨y, -, hy⟩ := Option.bind_eq_some_iff.1 hx
    cases x with
    | none => cases hy; trivial
    | some a =>
      cases y with
      | none => cases hy; trivial
      | some b =>
        obtain ⟨n, -, hn⟩ := Option.bind_eq_some_iff.1 hy
        exact inRange_fit hn
  | abs e =>
    obtain ⟨x, -, hx⟩ := Option.bind_eq_some_iff.1 h
    cases x with
    | none => cases hx; trivial
    | some n => exact inRange_fit hx
  | sum e =>
    refine inRange_foldlM (t := none) ?_ trivial h
    intro t i v ht hv
    obtain ⟨x, -, hx⟩ := Option.bind_eq_some_iff.1 hv
    cases x with
    | none => cases hx; exact ht
    | some n => exact inRange_fit hx

private theorem foldlM_congr {α : Type} {f g : α → Nat → Option α} {l : List Nat}
    (h : ∀ i ∈ l, ∀ t, f t i = g t i) (t : α) : l.foldlM f t = l.foldlM g t := by
  induction l generalizing t with
  | nil => rfl
  | cons i l ih =>
    rw [List.forall_mem_cons] at h
    rw [List.foldlM_cons, List.foldlM_cons, h.1 t]
    congr 1
    funext t'
    exact ih h.2 t'

/-- The exact total of a sum with one row more. -/
theorem exactAt_sum_concat (params : List ValueItem) (e : IntExpr) (rows : List Row) (row : Row) :
    (sum e).exactAt params (rows ++ [row]) = (do
      let total ← (sum e).exactAt params rows
      match ← e.exactAt params (rows ++ [row]) with
      | some n => fit (total.getD 0 + n)
      | none => some total) := by
  have hlast : (rows ++ [row]).take (rows.length + 1) = rows ++ [row] :=
    List.take_of_length_le (by simp)
  rw [exactAt, exactAt, List.length_append, List.length_singleton, List.range_succ,
    List.foldlM_append]
  have hbefore := foldlM_congr
    (f := fun total i => do
      match ← e.exactAt params ((rows ++ [row]).take (i + 1)) with
      | some n => fit (total.getD 0 + n)
      | none => some total)
    (g := fun total i => do
      match ← e.exactAt params (rows.take (i + 1)) with
      | some n => fit (total.getD 0 + n)
      | none => some total) (l := List.range rows.length)
    (fun i hi t => by rw [List.take_append_of_le_length (List.mem_range.1 hi)]) none
  rw [hbefore]
  congr 1
  funext total
  rw [List.foldlM_cons, hlast]
  simp only [List.foldlM_nil, bind_pure]

section

variable {e l r : IntExpr} {rows : List Row} {n a b : Int}

theorem exactAt_minus : (minus e).exactAt params rows = (do
    match ← e.exactAt params rows with
    | some n => fit (-n)
    | none => some none) := rfl

theorem exactAt_abs : (abs e).exactAt params rows = (do
    match ← e.exactAt params rows with
    | some n => fit |n|
    | none => some none) := rfl

variable {op : Arith}

theorem exactAt_arith : (arith op l r).exactAt params rows = (do
    match ← l.exactAt params rows, ← r.exactAt params rows with
    | some a, some b => (op.exact a b).bind fit
    | _, _ => some none) := rfl

theorem exactAt_minus_null (h : e.exactAt params rows = some none) :
    (minus e).exactAt params rows = some none := by simp [exactAt_minus, h]

theorem exactAt_minus_some (h : e.exactAt params rows = some (some n)) :
    (minus e).exactAt params rows = fit (-n) := by simp [exactAt_minus, h]

theorem exactAt_minus_none (h : e.exactAt params rows = none) :
    (minus e).exactAt params rows = none := by simp [exactAt_minus, h]

theorem exactAt_abs_null (h : e.exactAt params rows = some none) :
    (abs e).exactAt params rows = some none := by simp [exactAt_abs, h]

theorem exactAt_abs_some (h : e.exactAt params rows = some (some n)) :
    (abs e).exactAt params rows = fit |n| := by simp [exactAt_abs, h]

theorem exactAt_abs_none (h : e.exactAt params rows = none) :
    (abs e).exactAt params rows = none := by simp [exactAt_abs, h]

theorem exactAt_arith_some (hl : l.exactAt params rows = some (some a))
    (hr : r.exactAt params rows = some (some b)) :
    (arith op l r).exactAt params rows = (op.exact a b).bind fit := by
  simp [exactAt_arith, hl, hr]

theorem exactAt_arith_null {x y : Option Int} (hl : l.exactAt params rows = some x)
    (hr : r.exactAt params rows = some y) (h : x = none ∨ y = none) :
    (arith op l r).exactAt params rows = some none := by
  rcases h with rfl | rfl
  · simp [exactAt_arith, hl, hr]
  · cases x <;> simp [exactAt_arith, hl, hr]

theorem exactAt_arith_none (h : l.exactAt params rows = none ∨ r.exactAt params rows = none) :
    (arith op l r).exactAt params rows = none := by
  rcases h with h | h
  · simp [exactAt_arith, h]
  · cases hl : l.exactAt params rows <;> simp [exactAt_arith, h, hl]

end

variable {e : IntExpr} {rows : List Row}

theorem Fits.of_operand {e' : IntExpr} (h : e.Fits params rows)
    (hop : ∀ rows, e'.exactAt params rows = none → e.exactAt params rows = none) :
    e'.Fits params rows := fun n hn hnone => h n hn (hop _ hnone)

theorem Fits.of_sum (h : (sum e).Fits params rows) :
    e.Fits params rows := by
  intro n hn hnone
  apply h n hn
  rw [List.take_succ_eq_append_getElem hn] at hnone ⊢
  rw [exactAt_sum_concat, hnone]
  cases (sum e).exactAt params (rows.take n) <;> rfl

/-- The parameters and the columns an expression reads hold integers, or `NULL`. -/
structure Typed (params : List ValueItem) (e : IntExpr) (rows : List Row) : Prop where
  columns : ∀ row ∈ rows, ∀ pos ∈ e.columns,
    row.getD pos .null = .null ∨ ∃ i, row.getD pos .null = .integer i
  slots : ∀ i ∈ e.slots, ∃ v, params[i]? = some v ∧ (v = .null ∨ ∃ n, v = .integer n)

theorem Typed.of_sub {e' : IntExpr} (h : e.Typed params rows)
    (hc : ∀ pos ∈ e'.columns, pos ∈ e.columns) (hs : ∀ i ∈ e'.slots, i ∈ e.slots) :
    e'.Typed params rows where
  columns row hrow pos hpos := h.columns row hrow pos (hc pos hpos)
  slots i hi := h.slots i (hs i hi)

/-- What evaluating the next row comes to: the exact result, and the expression with exact
totals; or an operand's error where there is no exact result. -/
def Steps (text : Text) (params : List ValueItem) (e : IntExpr) (rows : List Row) (row : Row) :
    Prop :=
  match e.exactAt params (rows ++ [row]) with
  | some v => (e.built params rows).eval text row =
      .ok (toValue v, e.built params (rows ++ [row]))
  | none => ∃ op what shown, (e.built params rows).eval text row =
      .error (.invalidOperationOnOperand op what shown)

section

variable {text : Text} {e l r : IntExpr} {rows : List Row} {row : Row}

theorem Steps.of_some {v : Option Int} (h : e.Steps text params rows row)
    (hx : e.exactAt params (rows ++ [row]) = some v) :
    (e.built params rows).eval text row = .ok (toValue v, e.built params (rows ++ [row])) := by
  unfold Steps at h
  rw [hx] at h
  exact h

theorem Steps.of_none (h : e.Steps text params rows row)
    (hx : e.exactAt params (rows ++ [row]) = none) :
    ∃ op what shown, (e.built params rows).eval text row =
      .error (.invalidOperationOnOperand op what shown) := by
  unfold Steps at h
  rw [hx] at h
  exact h

theorem steps_some {v : Option Int} (hx : e.exactAt params (rows ++ [row]) = some v)
    (h : (e.built params rows).eval text row =
      .ok (toValue v, e.built params (rows ++ [row]))) : e.Steps text params rows row := by
  unfold Steps
  rw [hx]
  exact h

theorem steps_none {op what : String} {shown : List ValueItem}
    (hx : e.exactAt params (rows ++ [row]) = none)
    (h : (e.built params rows).eval text row =
      .error (.invalidOperationOnOperand op what shown)) : e.Steps text params rows row := by
  unfold Steps
  rw [hx]
  exact ⟨op, what, shown, h⟩

theorem steps_minus (h : e.Steps text params rows row)
    (hne : e.exactAt params (rows ++ [row]) ≠ some (some (-2 ^ 63))) :
    (minus e).Steps text params rows row := by
  cases hx : e.exactAt params (rows ++ [row]) with
  | none =>
    obtain ⟨op, what, shown, herr⟩ := h.of_none hx
    exact steps_none (exactAt_minus_none hx) (EvalExpr.eval_unary_error herr)
  | some v =>
    have hval := h.of_some hx
    cases v with
    | none => exact steps_some (exactAt_minus_null hx) (EvalExpr.eval_unary_ok hval rfl)
    | some n =>
      have hn : n ≠ -2 ^ 63 := by
        rintro rfl
        exact hne hx
      obtain ⟨hfit, hminus⟩ := unary_minus (inRange_exactAt hx) hn
      exact steps_some ((exactAt_minus_some hx).trans hfit)
        (EvalExpr.eval_unary_ok hval hminus)

theorem steps_arith {op : Arith} (hl : l.Steps text params rows row)
    (hr : r.Steps text params rows row)
    (hrem : ¬ (op = .modulo ∧ l.exactAt params (rows ++ [row]) = some (some (-2 ^ 63)) ∧
      r.exactAt params (rows ++ [row]) = some (some (-1)))) :
    (arith op l r).Steps text params rows row := by
  cases hx : l.exactAt params (rows ++ [row]) with
  | none =>
    obtain ⟨o, what, shown, herr⟩ := hl.of_none hx
    exact steps_none (exactAt_arith_none (Or.inl hx)) (EvalExpr.eval_binary_left herr)
  | some x =>
    have hxval := hl.of_some hx
    cases hy : r.exactAt params (rows ++ [row]) with
    | none =>
      obtain ⟨o, what, shown, herr⟩ := hr.of_none hy
      exact steps_none (exactAt_arith_none (Or.inr hy))
        (EvalExpr.eval_binary_right hxval herr)
    | some y =>
      have hyval := hr.of_some hy
      cases x with
      | none =>
        exact steps_some (exactAt_arith_null hx hy (Or.inl rfl))
          (EvalExpr.eval_binary_ok hxval hyval (binary_null (Or.inl rfl)))
      | some a =>
        cases y with
        | none =>
          exact steps_some (exactAt_arith_null hx hy (Or.inr rfl))
            (EvalExpr.eval_binary_ok hxval hyval (binary_null (Or.inr rfl)))
        | some b =>
          have hexact : (arith op l r).exactAt params (rows ++ [row]) = (op.exact a b).bind fit :=
            exactAt_arith_some hx hy
          have hbinary : Exactly (binary (toValue (some a)) (toValue (some b)) op.op) id
              ((op.exact a b).bind fit) := by
            apply binary_exactly (inRange_exactAt hx) (inRange_exactAt hy)
            rintro ⟨rfl, rfl, rfl⟩
            exact hrem ⟨rfl, hx, hy⟩
          unfold Exactly at hbinary
          cases hres : (op.exact a b).bind fit with
          | none =>
            rw [hres] at hbinary hexact
            obtain ⟨o, what, shown, herr⟩ := hbinary
            exact steps_none hexact (EvalExpr.eval_binary_error hxval hyval herr)
          | some v =>
            rw [hres] at hbinary hexact
            obtain ⟨w, hw, rfl⟩ := hbinary
            exact steps_some hexact (EvalExpr.eval_binary_ok hxval hyval hw)

theorem steps_abs (h : e.Steps text params rows row) : (abs e).Steps text params rows row := by
  cases hx : e.exactAt params (rows ++ [row]) with
  | none =>
    obtain ⟨op, what, shown, herr⟩ := h.of_none hx
    exact steps_none (exactAt_abs_none hx) (EvalExpr.eval_call_arg herr)
  | some v =>
    have hval := h.of_some hx
    cases v with
    | none =>
      exact steps_some (exactAt_abs_null hx) (EvalExpr.eval_call_ok hval (apply_null text rfl))
    | some n =>
      have hexact := exactAt_abs_some hx
      have habs := abs_exactly text (inRange_exactAt hx)
      unfold Exactly at habs
      cases hres : fit |n| with
      | none =>
        rw [hres] at habs hexact
        obtain ⟨o, what, shown, herr⟩ := habs
        exact steps_none hexact (EvalExpr.eval_call_error hval herr)
      | some v =>
        rw [hres] at habs hexact
        obtain ⟨w, hw, rfl⟩ := habs
        exact steps_some hexact (EvalExpr.eval_call_ok hval hw)

/-- A sum whose argument steps, while its total is exact. -/
theorem steps_sum (h : e.Steps text params rows row) {t : Option Int}
    (ht : (sum e).exactAt params rows = some t) : (sum e).Steps text params rows row := by
  have hexact := exactAt_sum_concat params e rows row
  rw [ht] at hexact
  have hbuilt : (sum e).built params rows = .aggregate
      (.sum (.inl (Int64.ofInt (t.getD 0))) t.isSome) (e.built params rows) := by
    simp only [built, ht, Option.getD_some]
  have hnext : ∀ {u : Option Int}, (sum e).exactAt params (rows ++ [row]) = some u →
      (sum e).built params (rows ++ [row]) = .aggregate
        (.sum (.inl (Int64.ofInt (u.getD 0))) u.isSome) (e.built params (rows ++ [row])) := by
    intro u hu
    simp only [built, hu, Option.getD_some]
  cases hx : e.exactAt params (rows ++ [row]) with
  | none =>
    obtain ⟨op, what, shown, herr⟩ := h.of_none hx
    rw [hx] at hexact
    apply steps_none hexact
    rw [hbuilt]
    exact EvalExpr.eval_aggregate_arg herr
  | some v =>
    have hval := h.of_some hx
    rw [hx] at hexact
    cases v with
    | none =>
      apply steps_some hexact
      rw [hbuilt, hnext hexact, ← current_sum t]
      exact EvalExpr.eval_aggregate_ok hval rfl
    | some n =>
      have hfeed := feed_exactly (inRange_exactAt ht) (inRange_exactAt hx)
      have hexact' : (sum e).exactAt params (rows ++ [row]) = fit (t.getD 0 + n) := hexact
      cases hres : fit (t.getD 0 + n) with
      | none =>
        rw [hres] at hfeed hexact'
        obtain ⟨o, what, shown, herr⟩ := hfeed
        apply steps_none hexact'
        rw [hbuilt]
        exact EvalExpr.eval_aggregate_error hval herr
      | some u =>
        rw [hres] at hfeed hexact'
        apply steps_some hexact'
        rw [hbuilt, hnext hexact', ← current_sum u]
        exact EvalExpr.eval_aggregate_ok hval hfeed

theorem steps_plus (h : e.Steps text params rows row) : (plus e).Steps text params rows row := by
  cases hx : e.exactAt params (rows ++ [row]) with
  | none =>
    obtain ⟨op, what, shown, herr⟩ := h.of_none hx
    exact steps_none (e := plus e) hx (EvalExpr.eval_unary_error herr)
  | some v =>
    have hval := h.of_some hx
    exact steps_some (e := plus e) hx (EvalExpr.eval_unary_ok hval (unary_plus v))

theorem steps_column {pos : Nat}
    (h : row.getD pos .null = .null ∨ ∃ i, row.getD pos .null = .integer i) :
    (column pos).Steps text params rows row := by
  have hexact : (column pos).exactAt params (rows ++ [row]) =
      some (ofValue (row.getD pos .null)) := by
    rw [exactAt, List.getLastD_concat]
  apply steps_some hexact
  rw [toValue_ofValue h]
  rfl

theorem steps_param {i : Nat}
    (h : ∃ v, params[i]? = some v ∧ (v = .null ∨ ∃ n, v = .integer n)) :
    (param i).Steps text params rows row := by
  obtain ⟨v, hv, htyped⟩ := h
  have hget : params.getD i .null = v := by
    rw [List.getD_eq_getElem?_getD, hv, Option.getD_some]
  apply steps_some (e := param i) (v := ofValue v)
  · rw [exactAt, hget]
  · rw [toValue_ofValue htyped, built, built, hget]
    rfl

theorem steps_literal {n : Int64} : (literal n).Steps text params rows row := by
  apply steps_some (e := literal n) (v := some n.toInt) rfl
  rw [toValue, Int64.ofInt_toInt]
  rfl

end

theorem Fits.last {e : IntExpr} {rows : List Row} (h : e.Fits params rows) (hne : rows ≠ []) :
    ∃ v, e.exactAt params rows = some v := by
  have hpos := List.length_pos_of_ne_nil hne
  have hlast := h (rows.length - 1) (by omega)
  rw [Nat.sub_add_cancel hpos, List.take_length] at hlast
  exact Option.ne_none_iff_exists'.1 hlast

/-- A sum that has been exact has an exact total, nothing before the first row. -/
theorem Fits.total (h : (sum e).Fits params rows) :
    ∃ t, (sum e).exactAt params rows = some t := by
  by_cases hne : rows = []
  · subst hne
    exact ⟨none, rfl⟩
  · exact h.last hne

theorem mem_parts_self (e : IntExpr) : e ∈ e.parts := by
  cases e <;> exact List.mem_cons_self

/-- On one row more: an expression that has been exact gives the exact result, or fails where
there is none, if no part of it strays. -/
theorem steps {text : Text} {row : Row} (ht : e.Typed params (rows ++ [row]))
    (hfits : e.Fits params rows) (hs : ∀ s ∈ e.parts, ¬ s.Strays params (rows ++ [row])) :
    e.Steps text params rows row := by
  have hdrop : (rows ++ [row]).dropLast = rows := List.dropLast_concat
  induction e with
  | literal n => exact steps_literal
  | column pos =>
    exact steps_column (ht.columns row (by simp) pos (List.mem_singleton_self pos))
  | param i => exact steps_param (ht.slots i (List.mem_singleton_self i))
  | plus e ih =>
    apply steps_plus
    exact ih (ht.of_sub (fun _ h => h) fun _ h => h) hfits
      fun s hmem => hs s (List.mem_cons_of_mem _ hmem)
  | minus e ih =>
    have hsub := ih (ht.of_sub (fun _ h => h) fun _ h => h)
      (hfits.of_operand fun _ => exactAt_minus_none)
      fun s hmem => hs s (List.mem_cons_of_mem _ hmem)
    apply steps_minus hsub
    intro hleast
    apply hs _ (mem_parts_self _)
    rw [Strays, hdrop]
    exact ⟨hfits, hleast⟩
  | arith op l r ihl ihr =>
    have hl := ihl (ht.of_sub (fun _ h => List.mem_append_left _ h)
        fun _ h => List.mem_append_left _ h)
      (hfits.of_operand fun _ h => exactAt_arith_none (Or.inl h))
      fun s hmem => hs s (List.mem_cons_of_mem _ (List.mem_append_left _ hmem))
    have hr := ihr (ht.of_sub (fun _ h => List.mem_append_right _ h)
        fun _ h => List.mem_append_right _ h)
      (hfits.of_operand fun _ h => exactAt_arith_none (Or.inr h))
      fun s hmem => hs s (List.mem_cons_of_mem _ (List.mem_append_right _ hmem))
    apply steps_arith hl hr
    rintro ⟨rfl, hleast⟩
    apply hs _ (mem_parts_self _)
    rw [Strays, hdrop]
    exact ⟨hfits, hleast⟩
  | abs e ih =>
    apply steps_abs
    exact ih (ht.of_sub (fun _ h => h) fun _ h => h)
      (hfits.of_operand fun _ => exactAt_abs_none)
      fun s hmem => hs s (List.mem_cons_of_mem _ hmem)
  | sum e ih =>
    obtain ⟨t, htotal⟩ := hfits.total
    apply steps_sum _ htotal
    exact ih (ht.of_sub (fun _ h => h) fun _ h => h) hfits.of_sum
      fun s hmem => hs s (List.mem_cons_of_mem _ hmem)

end IntExpr

end SquealDb.Sql
