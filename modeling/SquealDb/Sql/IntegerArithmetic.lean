import SquealDb.Sql.BatchTotal
import SquealDb.Sql.IntegerExpr
import SquealDb.Sql.Sarg

/-!
# Integer arithmetic

What integer expressions give on the rows of a group, and the other paths that compute with
their constants: binding a prepared plan, the constant of a seek, and the sum of a column
read in one loop.
-/

namespace SquealDb.Sql

open Codec Lib

namespace IntExpr

variable {params : List ValueItem}

/-! ## Whole groups -/

/-- No part strays on any row of the group. -/
def Straight (params : List ValueItem) (e : IntExpr) (rows : List Row) : Prop :=
  ∀ s ∈ e.parts, ∀ n < rows.length, ¬ s.Strays params (rows.take (n + 1))

/-- Evaluating on a group gives the exact result of its last row, or fails where there is
none on some row. -/
def Right (text : Text) (params : List ValueItem) (e : IntExpr) (rows : List Row) : Prop :=
  Exactly (evalOver text (e.compile params) rows) Prod.fst (e.exactOver params rows)

variable {rows : List Row} {row : Row} {e : IntExpr}

/-- Something of every row of a group, by its last. -/
theorem forall_prefix_concat {P : List Row → Prop} :
    (∀ n < (rows ++ [row]).length, P ((rows ++ [row]).take (n + 1))) ↔
      (∀ n < rows.length, P (rows.take (n + 1))) ∧ P (rows ++ [row]) := by
  have htake : ∀ n < rows.length, (rows ++ [row]).take (n + 1) = rows.take (n + 1) :=
    fun n hn => List.take_append_of_le_length hn
  have hlast : (rows ++ [row]).take (rows.length + 1) = rows ++ [row] :=
    List.take_of_length_le (by simp)
  rw [List.length_append, List.length_singleton]
  constructor
  · intro h
    constructor
    · intro n hn
      rw [← htake n hn]
      exact h n (by omega)
    · rw [← hlast]
      exact h rows.length (by omega)
  · rintro ⟨h, hrow⟩ n hn
    by_cases heq : n = rows.length
    · rw [heq, hlast]
      exact hrow
    · have hlt : n < rows.length := by omega
      rw [htake n hlt]
      exact h n hlt

theorem fits_concat :
    e.Fits params (rows ++ [row]) ↔
      e.Fits params rows ∧ e.exactAt params (rows ++ [row]) ≠ none :=
  forall_prefix_concat (P := fun rows => e.exactAt params rows ≠ none)

theorem straight_concat :
    e.Straight params (rows ++ [row]) ↔
      e.Straight params rows ∧ ∀ s ∈ e.parts, ¬ s.Strays params (rows ++ [row]) := by
  unfold Straight
  rw [← forall₂_and]
  refine forall₂_congr fun s _ => ?_
  exact forall_prefix_concat (P := fun rows => ¬ s.Strays params rows)

theorem exactOver_fits (h : e.Fits params rows) :
    e.exactOver params rows = e.exactAt params rows := by
  apply if_pos
  rw [List.all_eq_true]
  intro n hn
  exact Option.isSome_iff_ne_none.2 (h n (List.mem_range.1 hn))

theorem exactOver_none (h : ¬ e.Fits params rows) :
    e.exactOver params rows = none := by
  apply if_neg
  intro hall
  apply h
  intro n hn
  exact Option.isSome_iff_ne_none.1 (List.all_eq_true.1 hall n (List.mem_range.2 hn))

variable {text : Text}

theorem evalOver_concat (e : EvalExpr) (rows : List Row) (row : Row) :
    evalOver text e (rows ++ [row]) = (do
      let p ← evalOver text e rows
      p.2.eval text row) := by
  unfold evalOver
  rw [List.foldlM_append]
  congr 1
  funext p
  rw [List.foldlM_cons]
  simp only [List.foldlM_nil, bind_pure]

theorem Typed.of_rows {rows' : List Row} (h : e.Typed params rows)
    (hsub : ∀ row ∈ rows', row ∈ rows) : e.Typed params rows' where
  columns row hrow := h.columns row (hsub row hrow)
  slots := h.slots

/-- After rows on which nothing strays: the sums hold their totals, if there has been an exact
result on every row, and an operand's error if not. -/
theorem evalOver_straight (text : Text) (ht : e.Typed params rows) (hs : e.Straight params rows) :
    (e.Fits params rows → ∃ v, evalOver text (e.compile params) rows =
      .ok (v, e.built params rows) ∧ (rows ≠ [] →
        e.exactAt params rows = some (ofValue v) ∧ toValue (ofValue v) = v)) ∧
    (¬ e.Fits params rows → ∃ op what shown, evalOver text (e.compile params) rows =
      .error (.invalidOperationOnOperand op what shown)) := by
  induction rows using List.reverseRecOn with
  | nil =>
    constructor
    · intro _
      refine ⟨.null, ?_, fun h => absurd rfl h⟩
      rw [built_nil]
      rfl
    · intro h
      exact absurd (fun n hn => absurd hn (Nat.not_lt_zero n)) h
  | append_singleton rows row ih =>
    obtain ⟨hbefore, hnow⟩ := straight_concat.1 hs
    obtain ⟨hok, herr⟩ := ih (ht.of_rows fun _ => List.mem_append_left _) hbefore
    rw [evalOver_concat, fits_concat]
    by_cases hfits : e.Fits params rows
    · obtain ⟨v, hv, -⟩ := hok hfits
      have hsteps : e.Steps text params rows row := steps ht hfits hnow
      rw [hv]
      constructor
      · rintro ⟨-, hexact⟩
        obtain ⟨x, hx⟩ := Option.ne_none_iff_exists'.1 hexact
        have hback : ofValue (toValue x) = x := by
          cases x with
          | none => rfl
          | some n => exact congrArg some (toInt_ofInt (inRange_exactAt hx))
        refine ⟨toValue x, hsteps.of_some hx, fun _ => ?_⟩
        rw [hback]
        exact ⟨hx, rfl⟩
      · intro hnot
        have hx : e.exactAt params (rows ++ [row]) = none := by
          by_contra hne
          exact hnot ⟨hfits, hne⟩
        exact hsteps.of_none hx
    · obtain ⟨op, what, shown, hfail⟩ := herr hfits
      rw [hfail]
      constructor
      · rintro ⟨h, -⟩
        exact absurd h hfits
      · intro _
        exact ⟨op, what, shown, rfl⟩

theorem right_of_straight (ht : e.Typed params rows) (hs : e.Straight params rows)
    (hne : rows ≠ []) : e.Right text params rows := by
  obtain ⟨hok, herr⟩ := evalOver_straight text ht hs
  unfold Right Exactly
  by_cases hfits : e.Fits params rows
  · obtain ⟨v, hv, hexact⟩ := hok hfits
    obtain ⟨hx, hback⟩ := hexact hne
    rw [exactOver_fits hfits, hx]
    exact ⟨_, hv, hback.symm⟩
  · rw [exactOver_none hfits]
    exact herr hfits

theorem typed_of_mem_parts {s : IntExpr} (ht : e.Typed params rows) (hmem : s ∈ e.parts) :
    s.Typed params rows := by
  induction e with
  | literal n | column pos | param i =>
    rw [List.mem_singleton.1 hmem]
    exact ht
  | plus e ih | minus e ih | abs e ih | sum e ih =>
    rcases List.mem_cons.1 hmem with rfl | hmem
    · exact ht
    · exact ih (ht.of_sub (fun _ h => h) fun _ h => h) hmem
  | arith op l r ihl ihr =>
    rcases List.mem_cons.1 hmem with rfl | hmem
    · exact ht
    · rcases List.mem_append.1 hmem with hmem | hmem
      · exact ihl (ht.of_sub (fun _ h => List.mem_append_left _ h)
          fun _ h => List.mem_append_left _ h) hmem
      · exact ihr (ht.of_sub (fun _ h => List.mem_append_right _ h)
          fun _ h => List.mem_append_right _ h) hmem

theorem parts_of_mem_parts {s : IntExpr} (h : s ∈ e.parts) : ∀ s' ∈ s.parts, s' ∈ e.parts := by
  induction e with
  | literal n | column pos | param i =>
    rw [List.mem_singleton.1 h]
    exact fun _ => id
  | plus e ih | minus e ih | abs e ih | sum e ih =>
    rcases List.mem_cons.1 h with rfl | h
    · exact fun _ => id
    · exact fun s' hs' => List.mem_cons_of_mem _ (ih h s' hs')
  | arith op l r ihl ihr =>
    rcases List.mem_cons.1 h with rfl | h
    · exact fun _ => id
    · rcases List.mem_append.1 h with h | h
      · exact fun s' hs' => List.mem_cons_of_mem _ (List.mem_append_left _ (ihl h s' hs'))
      · exact fun s' hs' => List.mem_cons_of_mem _ (List.mem_append_right _ (ihr h s' hs'))

/-- What an expression that has been exact comes to on one row more. -/
theorem evalOver_next (ht : e.Typed params rows) (hs : e.Straight params rows)
    (hfits : e.Fits params rows) :
    evalOver text (e.compile params) (rows ++ [row]) = (e.built params rows).eval text row := by
  obtain ⟨v, hv, -⟩ := (evalOver_straight text ht hs).1 hfits
  rw [evalOver_concat, hv]
  rfl

/-- Negating the least integer gives a result where there is none. -/
theorem minus_strays (ht : (minus e).Typed params rows) (hs : (minus e).Straight params rows)
    (hfits : (minus e).Fits params rows) (hsub : e.Steps text params rows row)
    (hleast : e.exactAt params (rows ++ [row]) = some (some (-2 ^ 63))) :
    ¬ (minus e).Right text params (rows ++ [row]) := by
  intro hright
  unfold Right at hright
  have hnone : (minus e).exactAt params (rows ++ [row]) = none :=
    (exactAt_minus_some hleast).trans unary_minus_least.1
  have hval : ((minus e).built params rows).eval text row = _ :=
    EvalExpr.eval_unary_ok (hsub.of_some hleast) unary_minus_least.2
  rw [evalOver_next ht hs hfits, hval,
    exactOver_none fun h => (fits_concat.1 h).2 hnone] at hright
  obtain ⟨op, what, shown, herr⟩ := hright
  cases herr

/-- The remainder of the least integer by minus one is refused, though it is zero. -/
theorem modulo_strays {l r : IntExpr} (ht : (arith .modulo l r).Typed params rows)
    (hs : (arith .modulo l r).Straight params rows) (hfits : (arith .modulo l r).Fits params rows)
    (hl : l.Steps text params rows row) (hr : r.Steps text params rows row)
    (hleast : l.exactAt params (rows ++ [row]) = some (some (-2 ^ 63)))
    (hone : r.exactAt params (rows ++ [row]) = some (some (-1))) :
    ¬ (arith .modulo l r).Right text params (rows ++ [row]) := by
  intro hright
  unfold Right at hright
  obtain ⟨hzero, op, what, shown, hfail⟩ := binary_rem_least
  have hexact : (arith .modulo l r).exactAt params (rows ++ [row]) = some (some 0) :=
    (exactAt_arith_some hleast hone).trans hzero
  have hnow : (arith .modulo l r).exactAt params (rows ++ [row]) ≠ none := by
    rw [hexact]
    exact Option.some_ne_none _
  have hval : ((arith .modulo l r).built params rows).eval text row = _ :=
    EvalExpr.eval_binary_error (hl.of_some hleast) (hr.of_some hone) hfail
  rw [evalOver_next ht hs hfits, hval, exactOver_fits (fits_concat.2 ⟨hfits, hnow⟩),
    hexact] at hright
  obtain ⟨p, herr, -⟩ := hright
  cases herr

/-- If the parts are right on the next row, none strays there. -/
theorem not_strays (ht : e.Typed params (rows ++ [row])) (hbefore : e.Straight params rows)
    (hright : ∀ s ∈ e.parts, s.Right text params (rows ++ [row])) :
    ∀ s ∈ e.parts, ¬ s.Strays params (rows ++ [row]) := by
  have hdrop : (rows ++ [row]).dropLast = rows := List.dropLast_concat
  have hrows : ∀ {e : IntExpr}, e.Typed params (rows ++ [row]) → e.Typed params rows :=
    fun h => h.of_rows fun _ => List.mem_append_left _
  induction e with
  | literal n | column pos | param i =>
    intro s hs hstrays
    rw [List.mem_singleton.1 hs] at hstrays
    exact hstrays.2
  | plus e ih | abs e ih | sum e ih =>
    intro s hs
    rcases List.mem_cons.1 hs with rfl | hs
    · exact fun hstrays => hstrays.2
    · exact ih (ht.of_sub (fun _ h => h) fun _ h => h)
        (fun s hs => hbefore s (List.mem_cons_of_mem _ hs))
        (fun s hs => hright s (List.mem_cons_of_mem _ hs)) s hs
  | minus e ih =>
    have hte : e.Typed params (rows ++ [row]) := ht.of_sub (fun _ h => h) fun _ h => h
    have hsub := ih hte (fun s hs => hbefore s (List.mem_cons_of_mem _ hs))
      fun s hs => hright s (List.mem_cons_of_mem _ hs)
    intro s hs
    rcases List.mem_cons.1 hs with rfl | hs
    · rintro ⟨hfits, hleast⟩
      rw [hdrop] at hfits
      have hstep : e.Steps text params rows row := steps hte
        (hfits.of_operand fun _ => exactAt_minus_none) hsub
      exact minus_strays (hrows ht) hbefore hfits hstep hleast
        (hright _ (mem_parts_self _))
    · exact hsub s hs
  | arith op l r ihl ihr =>
    have htl : l.Typed params (rows ++ [row]) :=
      ht.of_sub (fun _ h => List.mem_append_left _ h) fun _ h => List.mem_append_left _ h
    have htr : r.Typed params (rows ++ [row]) :=
      ht.of_sub (fun _ h => List.mem_append_right _ h) fun _ h => List.mem_append_right _ h
    have hl := ihl htl
      (fun s hs => hbefore s (List.mem_cons_of_mem _ (List.mem_append_left _ hs)))
      fun s hs => hright s (List.mem_cons_of_mem _ (List.mem_append_left _ hs))
    have hr := ihr htr
      (fun s hs => hbefore s (List.mem_cons_of_mem _ (List.mem_append_right _ hs)))
      fun s hs => hright s (List.mem_cons_of_mem _ (List.mem_append_right _ hs))
    intro s hs
    rcases List.mem_cons.1 hs with rfl | hs
    · rintro ⟨hfits, hstrays⟩
      rw [hdrop] at hfits
      have hlstep : l.Steps text params rows row := steps htl
        (hfits.of_operand fun _ h => exactAt_arith_none (Or.inl h)) hl
      have hrstep : r.Steps text params rows row := steps htr
        (hfits.of_operand fun _ h => exactAt_arith_none (Or.inr h)) hr
      cases op with
      | modulo =>
        exact modulo_strays (hrows ht) hbefore hfits hlstep hrstep hstrays.1 hstrays.2
          (hright _ (mem_parts_self _))
      | _ => exact hstrays
    · rcases List.mem_append.1 hs with hs | hs
      · exact hl s hs
      · exact hr s hs

/-- Every part is right on every prefix of the group exactly where none strays. -/
theorem right_iff_straight (ht : e.Typed params rows) :
    (∀ s ∈ e.parts, ∀ n < rows.length, s.Right text params (rows.take (n + 1))) ↔
      e.Straight params rows := by
  constructor
  · intro h
    induction rows using List.reverseRecOn with
    | nil => exact fun s _ n hn => absurd hn (Nat.not_lt_zero n)
    | append_singleton rows row ih =>
      have hsplit := fun s hs =>
        (forall_prefix_concat (P := fun rows => s.Right text params rows)).1 (h s hs)
      have hbefore := ih (ht.of_rows fun _ => List.mem_append_left _)
        fun s hs => (hsplit s hs).1
      exact straight_concat.2 ⟨hbefore, not_strays ht hbefore fun s hs => (hsplit s hs).2⟩
  · intro h s hs n hn
    apply right_of_straight
    · exact (typed_of_mem_parts ht hs).of_rows fun _ => List.mem_of_mem_take
    · intro s' hs' m hm
      rw [List.length_take] at hm
      rw [List.take_take, Nat.min_eq_left (by omega)]
      exact h s' (parts_of_mem_parts hs s' hs') m (by omega)
    · intro hnil
      have hlen := congrArg List.length hnil
      rw [List.length_take, List.length_nil] at hlen
      omega

/-! ## The other paths -/

/-- Binding a prepared plan's parameters gives what planning with their values gives. -/
theorem bind_compileSlots (h : ∀ i ∈ e.slots, ∃ v, params[i]? = some v) :
    EvalExpr.bind params e.compileSlots = .ok (e.compile params) := by
  induction e with
  | literal n => rfl
  | column pos => rfl
  | param i =>
    obtain ⟨v, hv⟩ := h i (List.mem_singleton_self i)
    have hget : params.getD i .null = v := by
      rw [List.getD_eq_getElem?_getD, hv, Option.getD_some]
    rw [compileSlots, compile, EvalExpr.bind, EvalExpr.paramValue, hv, hget]
    rfl
  | plus e ih => exact EvalExpr.bind_unary (ih h)
  | minus e ih => exact EvalExpr.bind_unary (ih h)
  | arith op l r ihl ihr =>
    exact EvalExpr.bind_binary (ihl fun i hi => h i (List.mem_append_left _ hi))
      (ihr fun i hi => h i (List.mem_append_right _ hi))
  | abs e ih =>
    rw [compileSlots, compile, EvalExpr.bind, ih h]
    rfl
  | sum e ih =>
    rw [compileSlots, compile, EvalExpr.bind, ih h]
    rfl

/-- Evaluating an aggregate of a column feeds it the column. -/
theorem evalOver_aggregate (text : Text) (acc : Aggregate) (pos : Nat) (rows : List Row) :
    evalOver text (.aggregate acc (.value pos)) rows =
      ((rows.map (·.getD pos .null)).foldlM Aggregate.feed acc).map fun acc' =>
        (if rows = [] then .null else acc'.current, .aggregate acc' (.value pos)) := by
  induction rows using List.reverseRecOn with
  | nil => rfl
  | append_singleton rows row ih =>
    rw [evalOver_concat, ih, List.map_append, List.foldlM_append]
    cases (rows.map (·.getD pos .null)).foldlM Aggregate.feed acc with
    | error err => rfl
    | ok acc' =>
      show EvalExpr.eval text (.aggregate acc' (.value pos)) row = _
      simp only [Bind.bind, Except.bind, List.map_cons, List.map_nil, List.foldlM_cons,
        List.foldlM_nil, EvalExpr.eval]
      cases acc'.feed (row.getD pos .null) with
      | error err => rfl
      | ok acc'' =>
        simp only [pure, Except.pure, Except.map, List.append_eq_nil_iff,
          List.cons_ne_nil, and_false, if_false]

/-- The sum of a column read in one loop. -/
theorem feedColumn_exactly {pos : Nat} (ht : (sum (column pos)).Typed params rows) :
    Exactly (Aggregate.feedColumn (.sum (.inl 0) false) (rows.map (·.getD pos .null)))
      Aggregate.current ((sum (column pos)).exactOver params rows) := by
  rw [Aggregate.feedColumn_eq _ _ (by rintro values n ⟨⟩)]
  by_cases hne : rows = []
  · subst hne
    exact ⟨_, rfl, rfl⟩
  · have hstraight : (sum (column pos)).Straight params rows := by
      intro s hs n _ hstrays
      rcases List.mem_cons.1 hs with rfl | hs
      · exact hstrays.2
      · rw [List.mem_singleton.1 hs] at hstrays
        exact hstrays.2
    have hright : (sum (column pos)).Right Text.plain params rows :=
      right_of_straight ht hstraight hne
    unfold Right at hright
    have heval := evalOver_aggregate Text.plain (.sum (.inl 0) false) pos rows
    rw [compile, compile, heval] at hright
    cases hfeed : (rows.map (·.getD pos .null)).foldlM Aggregate.feed (.sum (.inl 0) false) with
    | error err =>
      rw [hfeed] at hright
      cases hexact : (sum (column pos)).exactOver params rows with
      | none =>
        rw [hexact] at hright
        obtain ⟨op, what, shown, herr⟩ := hright
        cases herr
        exact ⟨_, _, _, rfl⟩
      | some v =>
        rw [hexact] at hright
        obtain ⟨p, herr, -⟩ := hright
        cases herr
    | ok acc' =>
      rw [hfeed] at hright
      cases hexact : (sum (column pos)).exactOver params rows with
      | none =>
        rw [hexact] at hright
        obtain ⟨op, what, shown, herr⟩ := hright
        cases herr
      | some v =>
        rw [hexact] at hright
        obtain ⟨p, hp, hcurrent⟩ := hright
        cases hp
        simp only [if_neg hne] at hcurrent
        exact ⟨_, rfl, hcurrent⟩

/-- A stored value that a seek takes for a constant is what evaluating gives. -/
theorem constant_eval {e : EvalExpr} {v : ValueItem} (h : constant e = some v) (row : Row) :
    ∃ e', e.eval text row = .ok (v, e') := by
  unfold constant at h
  split at h
  · cases h
    exact ⟨_, rfl⟩
  · rename_i i
    rw [checked_eq] at h
    split at h
    · cases h
      rw [Int64.ofInt_neg, Int64.ofInt_toInt]
      exact ⟨_, rfl⟩
    · cases h
  · cases h
    exact ⟨_, rfl⟩
  · cases h

end IntExpr

open IntExpr in
/-- An integer expression and its parts give the exact results on every row of a group, or
fail on an operand where there is none, exactly where no part negates the least `i64` or
takes the remainder of it by minus one.  Planning with slots and binding them plans the same,
a seek's constant is what evaluating gives, and a column summed in one loop is exact. -/
theorem integer_arithmetic_iff (text : Text) (params : List ValueItem) (e : IntExpr)
    (rows : List Row) (ht : e.Typed params rows) :
    EvalExpr.bind params e.compileSlots = .ok (e.compile params) ∧
    (∀ v, constant (e.compile params) = some v →
      ∀ row, ∃ e', (e.compile params).eval text row = .ok (v, e')) ∧
    (∀ pos, sum (column pos) ∈ e.parts →
      Exactly (Aggregate.feedColumn (.sum (.inl 0) false) (rows.map (·.getD pos .null)))
        Aggregate.current ((sum (column pos)).exactOver params rows)) ∧
    ((∀ s ∈ e.parts, ∀ n < rows.length, s.Right text params (rows.take (n + 1))) ↔
      ∀ s ∈ e.parts, ∀ n < rows.length, ¬ s.Strays params (rows.take (n + 1))) := by
  refine ⟨?_, fun v hv row => constant_eval hv row, ?_, right_iff_straight ht⟩
  · apply bind_compileSlots
    intro i hi
    obtain ⟨v, hv, -⟩ := ht.slots i hi
    exact ⟨v, hv⟩
  · intro pos hpos
    exact feedColumn_exactly (typed_of_mem_parts ht hpos)

open IntExpr in
/-- The negation of a sum of five and of nothing is exact. -/
theorem integer_arithmetic_of_sum :
    (minus (sum (column 0))).Right Text.plain [] [[.integer 5], [.null]] := by
  have ht : (minus (sum (column 0))).Typed [] [[.integer 5], [.null]] :=
    { columns := by
        intro row hrow pos hpos
        rw [List.mem_singleton.1 hpos]
        simp only [List.mem_cons, List.not_mem_nil, or_false] at hrow
        rcases hrow with rfl | rfl
        · exact Or.inr ⟨5, rfl⟩
        · exact Or.inl rfl
      slots := by
        intro i hi
        cases hi }
  have hright := (integer_arithmetic_iff Text.plain [] _ _ ht).2.2.2.2
  apply hright _ _ (mem_parts_self _) 1 (by decide)
  intro s hs n hn hstrays
  rcases List.mem_cons.1 hs with rfl | hs
  · have hrows : n = 0 ∨ n = 1 := by
      simp only [List.length_cons, List.length_nil] at hn
      omega
    rcases hrows with rfl | rfl
    · exact absurd hstrays.2 (by decide)
    · exact absurd hstrays.2 (by decide)
  · rcases List.mem_cons.1 hs with rfl | hs
    · exact hstrays.2
    · rw [List.mem_singleton.1 hs] at hstrays
      exact hstrays.2

open IntExpr in
/-- Negating the least `i64` of a column gives the least `i64`, and no error. -/
theorem integer_arithmetic_breaks_on_least :
    ¬ (minus (column 0)).Right Text.plain [] [[.integer Int64.minValue]] := by
  intro hright
  obtain ⟨op, what, shown, herr⟩ := hright
  cases herr

end SquealDb.Sql
