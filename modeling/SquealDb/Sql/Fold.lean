import SquealDb.Sql.Expr

/-!
# Constant folding and binding

`EvalExpr::folded` and `EvalExpr::bind` of `plan/eval.rs`: an operator over literals is the
literal it computes, and a prepared plan's parameter slots become the literals of one
execution.
-/

namespace SquealDb.Sql.EvalExpr

open Codec Lib

/-- `folded`: an operator over literals as the literal it computes; one that fails to
compute is left as it is. -/
def folded : EvalExpr → EvalExpr
  | unary op (literal v) =>
    match Sql.unary v op with
    | .ok w => literal w
    | .error _ => unary op (literal v)
  | binary (literal a) op (literal b) =>
    match Sql.binary a b op with
    | .ok w => literal w
    | .error _ => binary (literal a) op (literal b)
  | e => e

/-- `Params::value`. -/
def paramValue (params : List ValueItem) (i : Nat) : Except SchemaError ValueItem :=
  match params[i]? with
  | some v => .ok v
  | Option.none =>
    .error (.internalSchemaError ("no value for parameter slot " ++ toString i))

mutual

/-- `bind`: the values of the parameter slots, and anything over literals alone then
computed. -/
def bind (params : List ValueItem) : EvalExpr → Except SchemaError EvalExpr
  | param i => do return literal (← paramValue params i)
  | unary op e => do
    let e' ← bind params e
    return (unary op e').folded
  | binary l op r => do
    let l' ← bind params l
    let r' ← bind params r
    return (binary l' op r').folded
  | countAll acc => .ok (countAll acc)
  | aggregate acc arg => do return aggregate acc (← bind params arg)
  | call f arg => do return call f (← bind params arg)
  | concat args => do return concat (← bindAll params args)
  | scalar kind args => do return scalar kind (← bindAll params args)
  | subquery data operands => do return subquery data (← bindAll params operands)
  | none => .ok none
  | literal v => .ok (literal v)
  | value pos => .ok (value pos)

@[inherit_doc bind]
def bindAll (params : List ValueItem) : List EvalExpr → Except SchemaError (List EvalExpr)
  | [] => .ok []
  | e :: es => do
    let e' ← bind params e
    let es' ← bindAll params es
    return e' :: es'

end

/-! ## Folding -/

/-- The expression is a literal. -/
def isLiteral : EvalExpr → Bool
  | literal _ => true
  | _ => false

variable {e : EvalExpr}

theorem exists_of_isLiteral (h : isLiteral e = true) : ∃ v, e = literal v := by
  cases e <;> first | exact ⟨_, rfl⟩ | cases h

theorem folded_unary {op : UnaryOp} (h : isLiteral e = false) :
    (unary op e).folded = unary op e := by
  cases e <;> first | rfl | cases h

theorem folded_binary {l r : EvalExpr} {op : BinaryOp}
    (h : isLiteral l = false ∨ isLiteral r = false) :
    (binary l op r).folded = binary l op r := by
  cases l with
  | literal v => cases r <;> first | rfl | (rcases h with h | h <;> cases h)
  | _ => rfl

variable (text : Text)

/-! ## Nodes -/

theorem eval_literal (v : ValueItem) (row : List ValueItem) :
    eval text (literal v) row = .ok (v, literal v) := rfl

theorem eval_unary (op : UnaryOp) (e : EvalExpr) (row : List ValueItem) :
    eval text (unary op e) row = (do
      let (v, e') ← eval text e row
      return (← Sql.unary v op, unary op e')) := rfl

theorem eval_binary (l : EvalExpr) (op : BinaryOp) (r : EvalExpr) (row : List ValueItem) :
    eval text (binary l op r) row = (do
      let (a, l') ← eval text l row
      let (b, r') ← eval text r row
      return (← Sql.binary a b op, binary l' op r')) := rfl

theorem eval_call (f : ScalarFn) (arg : EvalExpr) (row : List ValueItem) :
    eval text (call f arg) row = (do
      let (v, arg') ← eval text arg row
      return (← f.apply text v, call f arg')) := rfl

theorem eval_aggregate (acc : Aggregate) (arg : EvalExpr) (row : List ValueItem) :
    eval text (aggregate acc arg) row = (do
      let (v, arg') ← eval text arg row
      let acc' ← acc.feed v
      return (acc'.current, aggregate acc' arg')) := rfl

attribute [local simp] eval folded bind in
/-- Evaluating keeps a literal, and makes none. -/
theorem isLiteral_eval {row : List ValueItem} {p : ValueItem × EvalExpr}
    (h : eval text e row = .ok p) : isLiteral p.2 = isLiteral e := by
  cases e <;> simp only [eval, Bind.bind, Except.bind, pure, Except.pure] at h <;>
    (repeat' split at h) <;> first | cases h; rfl | cases h

theorem eval_folded_unary (op : UnaryOp) (e : EvalExpr) (row : List ValueItem) :
    eval text (unary op e).folded row =
      (eval text (unary op e) row).map fun p => (p.1, p.2.folded) := by
  cases hlit : isLiteral e with
  | true =>
    obtain ⟨v, rfl⟩ := exists_of_isLiteral hlit
    simp only [folded, eval_literal, eval_unary, Bind.bind, Except.bind, pure, Except.pure]
    cases hunary : Sql.unary v op with
    | error err => simp [eval_unary, eval_literal, hunary, Bind.bind, Except.bind, Except.map]
    | ok w => simp [eval_literal, hunary, Except.map]
  | false =>
    rw [folded_unary hlit]
    simp only [eval_unary, Bind.bind, Except.bind, pure, Except.pure]
    cases he : eval text e row with
    | error err => rfl
    | ok p =>
      have hlit' := (isLiteral_eval text he).trans hlit
      dsimp only
      cases Sql.unary p.1 op with
      | error err => rfl
      | ok w => simp [Except.map, folded_unary hlit']

theorem eval_folded_binary (l r : EvalExpr) (op : BinaryOp) (row : List ValueItem) :
    eval text (binary l op r).folded row =
      (eval text (binary l op r) row).map fun p => (p.1, p.2.folded) := by
  by_cases hlit : isLiteral l = false ∨ isLiteral r = false
  · rw [folded_binary hlit]
    simp only [eval_binary, Bind.bind, Except.bind, pure, Except.pure]
    cases hl : eval text l row with
    | error err => rfl
    | ok p =>
      have hl' := isLiteral_eval text hl
      dsimp only
      cases hr : eval text r row with
      | error err => rfl
      | ok q =>
        have hr' := isLiteral_eval text hr
        rw [← hl', ← hr'] at hlit
        dsimp only
        cases Sql.binary p.1 q.1 op with
        | error err => rfl
        | ok w => simp [Except.map, folded_binary hlit]
  · rw [not_or, Bool.not_eq_false, Bool.not_eq_false] at hlit
    obtain ⟨a, rfl⟩ := exists_of_isLiteral hlit.1
    obtain ⟨b, rfl⟩ := exists_of_isLiteral hlit.2
    simp only [folded, eval_literal, eval_binary, Bind.bind, Except.bind, pure, Except.pure]
    cases hbinary : Sql.binary a b op with
    | error err => simp [eval_binary, eval_literal, hbinary, Bind.bind, Except.bind, Except.map]
    | ok w => simp [eval_literal, hbinary, Except.map]

/-- Folding a node leaves what it evaluates to, and what it fails with, as they are. -/
theorem eval_folded (e : EvalExpr) (row : List ValueItem) :
    eval text e.folded row = (eval text e row).map fun p => (p.1, p.2.folded) := by
  cases e with
  | unary op x => exact eval_folded_unary text op x row
  | binary l op r => exact eval_folded_binary text l r op row
  | _ =>
    simp only [folded, eval, Bind.bind, Except.bind, pure, Except.pure]
    (repeat' split) <;> rfl

/-- Binding a folded node gives what binding the node gives. -/
theorem bind_folded (params : List ValueItem) (e : EvalExpr) :
    bind params e.folded = bind params e := by
  cases e with
  | unary op x =>
    cases hlit : isLiteral x with
    | true =>
      obtain ⟨v, rfl⟩ := exists_of_isLiteral hlit
      have hbind : bind params (unary op (literal v)) = .ok (unary op (literal v)).folded :=
        rfl
      rw [hbind]
      simp only [folded]
      cases hunary : Sql.unary v op with
      | ok w => rfl
      | error err =>
        show Except.ok (unary op (literal v)).folded = _
        simp only [folded, hunary]
    | false => rw [folded_unary hlit]
  | binary l op r =>
    by_cases hlit : isLiteral l = false ∨ isLiteral r = false
    · rw [folded_binary hlit]
    · rw [not_or, Bool.not_eq_false, Bool.not_eq_false] at hlit
      obtain ⟨a, rfl⟩ := exists_of_isLiteral hlit.1
      obtain ⟨b, rfl⟩ := exists_of_isLiteral hlit.2
      have hbind : bind params (binary (literal a) op (literal b)) =
          .ok (binary (literal a) op (literal b)).folded := rfl
      rw [hbind]
      simp only [folded]
      cases hbinary : Sql.binary a b op with
      | ok w => rfl
      | error err =>
        show Except.ok (binary (literal a) op (literal b)).folded = _
        simp only [folded, hbinary]
  | _ => rfl

theorem bind_unary {params : List ValueItem} {op : UnaryOp} {e' : EvalExpr}
    (h : bind params e = .ok e') :
    bind params (unary op e).folded = .ok (unary op e').folded := by
  rw [bind_folded, bind, h]
  rfl

theorem bind_binary {params : List ValueItem} {op : BinaryOp} {l r l' r' : EvalExpr}
    (hl : bind params l = .ok l') (hr : bind params r = .ok r') :
    bind params (binary l op r).folded = .ok (binary l' op r').folded := by
  rw [bind_folded, bind, hl, hr]
  rfl

section

variable {text} {e l r e' l' r' : EvalExpr} {row : List ValueItem} {v a b w : ValueItem}
  {err : SchemaError}

/-- A folded unary node, by its operand. -/
theorem eval_unary_ok {op : UnaryOp} (he : eval text e row = .ok (v, e'))
    (hv : Sql.unary v op = .ok w) :
    eval text (unary op e).folded row = .ok (w, (unary op e').folded) := by
  rw [eval_folded]
  simp [eval_unary, he, hv, Bind.bind, Except.bind, pure, Except.pure, Except.map]

theorem eval_unary_error {op : UnaryOp} (he : eval text e row = .error err) :
    eval text (unary op e).folded row = .error err := by
  rw [eval_folded]
  simp [eval_unary, he, Bind.bind, Except.bind, Except.map]

variable {op : BinaryOp} {f : ScalarFn} {acc : Aggregate}

/-- A folded binary node, by its operands. -/
theorem eval_binary_ok (hl : eval text l row = .ok (a, l')) (hr : eval text r row = .ok (b, r'))
    (hop : Sql.binary a b op = .ok w) :
    eval text (binary l op r).folded row = .ok (w, (binary l' op r').folded) := by
  rw [eval_folded]
  simp [eval_binary, hl, hr, hop, Bind.bind, Except.bind, pure, Except.pure, Except.map]

theorem eval_binary_error (hl : eval text l row = .ok (a, l'))
    (hr : eval text r row = .ok (b, r')) (hop : Sql.binary a b op = .error err) :
    eval text (binary l op r).folded row = .error err := by
  rw [eval_folded]
  simp [eval_binary, hl, hr, hop, Bind.bind, Except.bind, Except.map]

theorem eval_binary_left (hl : eval text l row = .error err) :
    eval text (binary l op r).folded row = .error err := by
  rw [eval_folded]
  simp [eval_binary, hl, Bind.bind, Except.bind, Except.map]

theorem eval_binary_right (hl : eval text l row = .ok (a, l')) (hr : eval text r row = .error err) :
    eval text (binary l op r).folded row = .error err := by
  rw [eval_folded]
  simp [eval_binary, hl, hr, Bind.bind, Except.bind, Except.map]

/-- A call, by its argument. -/
theorem eval_call_ok (he : eval text e row = .ok (v, e')) (hv : f.apply text v = .ok w) :
    eval text (call f e) row = .ok (w, call f e') := by
  simp [eval_call, he, hv, Bind.bind, Except.bind, pure, Except.pure]

theorem eval_call_error (he : eval text e row = .ok (v, e')) (hv : f.apply text v = .error err) :
    eval text (call f e) row = .error err := by
  simp [eval_call, he, hv, Bind.bind, Except.bind]

theorem eval_call_arg (he : eval text e row = .error err) :
    eval text (call f e) row = .error err := by
  simp [eval_call, he, Bind.bind, Except.bind]

/-- A call of an aggregate, by its argument. -/
theorem eval_aggregate_ok {acc' : Aggregate} (he : eval text e row = .ok (v, e'))
    (hv : acc.feed v = .ok acc') :
    eval text (aggregate acc e) row = .ok (acc'.current, aggregate acc' e') := by
  simp [eval_aggregate, he, hv, Bind.bind, Except.bind, pure, Except.pure]

theorem eval_aggregate_error (he : eval text e row = .ok (v, e')) (hv : acc.feed v = .error err) :
    eval text (aggregate acc e) row = .error err := by
  simp [eval_aggregate, he, hv, Bind.bind, Except.bind]

theorem eval_aggregate_arg (he : eval text e row = .error err) :
    eval text (aggregate acc e) row = .error err := by
  simp [eval_aggregate, he, Bind.bind, Except.bind]

end

end SquealDb.Sql.EvalExpr
