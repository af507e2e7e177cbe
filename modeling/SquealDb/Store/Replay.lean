import SquealDb.Store.RowStep
import SquealDb.Store.Recovery

/-!
# Replaying the log, one key at a time

At one key the redo pass of `process_log` is a fold of `redoRow` over the
committed versions among the records it is handed, and the undo pass a fold of
`undoRow` over the records, newest first.  What the two passes end in depends
on the row they start from: whether there is one, whether its transaction
committed, and which of its transaction's records are there.
-/

namespace SquealDb.Store

open Lib

variable {κ δ : Type*} [DecidableEq κ]

section Redo

variable [DecidableEq δ]

/-! ## The redo pass -/

/-- What the redo of a version does to the row of its key. -/
def redoRow (row : Option (Tuple κ δ)) (v : Tuple κ δ) : Option (Tuple κ δ) :=
  match row with
  | none => if v.preLsn = none then some v else none
  | some c => if alreadyApplied c v then some c else some v

omit [DecidableEq κ] in
theorem alreadyApplied_self (v : Tuple κ δ) : alreadyApplied v v = true := by
  simp [alreadyApplied]

variable {c v : Tuple κ δ}

omit [DecidableEq κ] in
theorem txnId_of_alreadyApplied (h : alreadyApplied c v = true) :
    c.txnId = v.txnId := by
  simp only [alreadyApplied, Bool.and_eq_true, beq_iff_eq] at h
  exact h.2

omit [DecidableEq κ] in
/-- Redo over a row leaves the version, or the row that already was it. -/
theorem redoRow_some {key : κ} (hc : c.id = key) (hv : v.id = key) :
    ∃ c', redoRow (some c) v = some c' ∧ c'.id = v.id ∧ alreadyApplied c' v = true := by
  unfold redoRow
  by_cases ha : alreadyApplied c v = true
  · exact ⟨c, if_pos ha, hc.trans hv.symm, ha⟩
  · exact ⟨v, if_neg ha, rfl, alreadyApplied_self v⟩

omit [DecidableEq κ] in
/-- Once a row is there, redo ends in the last version. -/
theorem foldl_redoRow_some {key : κ} (vs : List (Tuple κ δ)) (hvs : ∀ v ∈ vs, v.id = key)
    (hc : c.id = key) (hlast : vs.getLast? = some v) :
    ∃ c', vs.foldl redoRow (some c) = some c' ∧ c'.id = v.id ∧
      alreadyApplied c' v = true := by
  induction vs generalizing c with
  | nil => cases hlast
  | cons x xs ih =>
    obtain ⟨c', hc', hid, ha⟩ := redoRow_some hc (hvs x List.mem_cons_self)
    rw [List.foldl_cons, hc']
    cases hxs : xs with
    | nil =>
      rw [hxs] at hlast
      cases hlast
      exact ⟨c', rfl, hid, ha⟩
    | cons y ys =>
      rw [← hxs]
      rw [hxs, List.getLast?_cons_cons, ← hxs] at hlast
      exact ih (fun v hv => hvs v (List.mem_cons_of_mem _ hv))
        (hid.trans (hvs x List.mem_cons_self)) hlast

omit [DecidableEq κ] in
/-- Where no row is there, redo ends in the last version if a fresh insert is
among them, and in no row otherwise. -/
theorem foldl_redoRow_none {key : κ} (vs : List (Tuple κ δ)) (hvs : ∀ v ∈ vs, v.id = key)
    (hlast : vs.getLast? = some v) :
    ((∀ x ∈ vs, x.preLsn ≠ none) ∧ vs.foldl redoRow none = none) ∨
      ((∃ x ∈ vs, x.preLsn = none) ∧ ∃ c', vs.foldl redoRow none = some c' ∧
        c'.id = v.id ∧ alreadyApplied c' v = true) := by
  induction vs with
  | nil => cases hlast
  | cons x xs ih =>
    rw [List.foldl_cons]
    have hx := hvs x List.mem_cons_self
    have hxs : ∀ v ∈ xs, v.id = key := fun v hv => hvs v (List.mem_cons_of_mem _ hv)
    by_cases hpre : x.preLsn = none
    · refine Or.inr ⟨⟨x, List.mem_cons_self, hpre⟩, ?_⟩
      have hrow : redoRow none x = some x := if_pos hpre
      rw [hrow]
      cases hn : xs with
      | nil =>
        rw [hn] at hlast
        cases hlast
        exact ⟨x, rfl, rfl, alreadyApplied_self x⟩
      | cons y ys =>
        rw [← hn]
        rw [hn, List.getLast?_cons_cons, ← hn] at hlast
        exact foldl_redoRow_some xs hxs hx hlast
    · have hrow : redoRow none x = none := if_neg hpre
      rw [hrow]
      cases hn : xs with
      | nil =>
        refine Or.inl ⟨fun y hy => ?_, rfl⟩
        rw [List.mem_singleton] at hy
        rw [hy]
        exact hpre
      | cons y ys =>
        rw [← hn]
        rw [hn, List.getLast?_cons_cons, ← hn] at hlast
        rcases ih hxs hlast with ⟨hall, heq⟩ | ⟨⟨y, hy, hyp⟩, hres⟩
        · refine Or.inl ⟨fun y hy => ?_, heq⟩
          rcases List.mem_cons.mp hy with rfl | hy
          · exact hpre
          · exact hall y hy
        · exact Or.inr ⟨⟨y, List.mem_cons_of_mem _ hy, hyp⟩, hres⟩

/-- The version was written by one of the transactions. -/
def writtenByOneOf (txns : List Nat) (v : Tuple κ δ) : Bool :=
  v.txnId.any fun t => decide (t ∈ txns)

theorem rows_insertVersion (db : Db κ δ) (hv : v.preLsn = none) :
    (db.insertVersion v).rows = Function.update db.rows v.id (redoRow (db.rows v.id) v) := by
  have hrows : db.nextLsn.1.rows v.id = db.rows v.id := rfl
  unfold Db.insertVersion Db.addDecision
  dsimp only
  rw [hrows]
  cases hrow : db.rows v.id with
  | none => simp [Db.applyDecision, redoRow, hv, Db.nextLsn]
  | some c =>
    by_cases ha : alreadyApplied c v = true
    · have hself : Function.update db.rows v.id (some c) = db.rows := by
        rw [← hrow]
        exact Function.update_eq_self v.id db.rows
      simp [Db.applyDecision, redoRow, ha, Db.nextLsn, hself]
    · simp [Db.applyDecision, redoRow, ha, Db.nextLsn]

theorem rows_updateVersion (db : Db κ δ) (hv : v.preLsn ≠ none) :
    (db.updateVersion v).rows = Function.update db.rows v.id (redoRow (db.rows v.id) v) := by
  have hrows : db.nextLsn.1.rows v.id = db.rows v.id := rfl
  unfold Db.updateVersion Db.modDecision
  dsimp only
  rw [hrows]
  have hself : ∀ row, db.rows v.id = row → Function.update db.rows v.id row = db.rows := by
    rintro row rfl
    exact Function.update_eq_self v.id db.rows
  cases hrow : db.rows v.id with
  | none => simp [Db.applyDecision, redoRow, hv, Db.nextLsn, hself none hrow]
  | some c =>
    by_cases ha : alreadyApplied c v = true
    · simp [Db.applyDecision, redoRow, ha, Db.nextLsn, hself (some c) hrow]
    · simp [Db.applyDecision, redoRow, ha, Db.nextLsn]

/-- The redo of a record redoes the version it left, if its transaction
committed. -/
theorem rows_redoRecord (committed : List Nat) (db : Db κ δ) {r : LogRecord κ δ}
    (hv : r.written = some v) (hwf : RecordWf r v) :
    (Db.redoRecord committed db r).rows =
      if writtenByOneOf committed v then
        Function.update db.rows v.id (redoRow (db.rows v.id) v)
      else db.rows := by
  obtain ⟨u, hu, -, hpre⟩ := hwf.undo
  have hw := hwf.writer
  unfold Db.redoRecord
  unfold LogRecord.written at hv
  cases hop : r.operation with
  | add txn post =>
    rw [hop] at hv hu hw
    cases hv
    cases hu
    simp only [writtenByOneOf, hw, Operation.writer, Option.any_some, decide_eq_true_eq]
    split
    · exact rows_insertVersion db (hpre.mp rfl)
    · rfl
  | mod txn pre post =>
    rw [hop] at hv hu hw
    cases hv
    cases hu
    simp only [writtenByOneOf, hw, Operation.writer, Option.any_some, decide_eq_true_eq]
    split
    · exact rows_updateVersion db fun hnone => by cases hpre.mpr hnone
    · rfl
  | del txn pre =>
    rw [hop] at hv
    cases hv
    simp only [writtenByOneOf, Option.any_some, decide_eq_true_eq]
    split
    · exact rows_updateVersion db (by simp)
    · rfl
  | commit txn => rw [hop] at hv; cases hv
  | rollback txn => rw [hop] at hv; cases hv
  | purge txn k => rw [hop] at hv; cases hv

theorem redoRecord_of_not_written (committed : List Nat) (db : Db κ δ) {r : LogRecord κ δ}
    (h : r.written = none) : Db.redoRecord committed db r = db := by
  unfold LogRecord.written at h
  unfold Db.redoRecord
  cases hop : r.operation with
  | add txn post => rw [hop] at h; cases h
  | mod txn pre post => rw [hop] at h; cases h
  | del txn pre => rw [hop] at h; cases h
  | commit txn => rfl
  | rollback txn => rfl
  | purge txn k => rfl

/-- The redo pass at one key. -/
theorem rows_redo (committed : List Nat) (records : List (LogRecord κ δ))
    (hwf : ∀ r ∈ records, ∀ v, r.written = some v → RecordWf r v) (db : Db κ δ) (key : κ) :
    (records.foldl (Db.redoRecord committed) db).rows key =
      ((versionsOf records key).filter (writtenByOneOf committed)).foldl redoRow
        (db.rows key) := by
  induction records generalizing db with
  | nil => rfl
  | cons r rs ih =>
    have ih' := ih fun r' hr' => hwf r' (List.mem_cons_of_mem _ hr')
    rw [List.foldl_cons, ih']
    have hcons : versionsOf (r :: rs) key = versionsOf [r] key ++ versionsOf rs key :=
      versionsOf_append [r] rs key
    rw [hcons, List.filter_append, List.foldl_append]
    congr 1
    cases hv : r.written with
    | none => simp [versionsOf, hv, redoRecord_of_not_written committed db hv]
    | some v =>
      rw [rows_redoRecord committed db hv (hwf r List.mem_cons_self v hv)]
      by_cases hkey : v.id = key
      · subst hkey
        cases hc : writtenByOneOf committed v with
        | true => simp [versionsOf, hv, hc, Option.filter_some]
        | false => simp [versionsOf, hv, hc, Option.filter_some]
      · have hother : ∀ b : Bool, (if b = true then
            Function.update db.rows v.id (redoRow (db.rows v.id) v) else db.rows) key =
            db.rows key := by
          intro b
          cases b with
          | true => simp [Function.update_of_ne (Ne.symm hkey)]
          | false => rfl
        rw [hother]
        simp [versionsOf, hv, hkey, Option.filter_some]

end Redo

/-! ## The undo pass -/

/-- What the undo of a record does to the row of a key. -/
def undoRow (committed : List Nat) (key : κ) (r : LogRecord κ δ)
    (row : Option (Tuple κ δ)) : Option (Tuple κ δ) :=
  match r.operation.writer, r.operation.undo with
  | some t, some u => if t ∈ committed ∨ u.key ≠ key then row else revertRow t row u
  | _, _ => row

theorem rows_undoRecord (committed : List Nat) (db : Db κ δ) (r : LogRecord κ δ) (key : κ) :
    (Db.undoRecord committed db r).rows key = undoRow committed key r (db.rows key) := by
  have hone : ∀ t u, (if t ∈ committed then db else Db.revertOne t db u).rows key =
      if t ∈ committed ∨ u.key ≠ key then db.rows key else revertRow t (db.rows key) u := by
    intro t u
    by_cases ht : t ∈ committed
    · simp [ht]
    · rw [if_neg ht, revertOne_eq]
      by_cases hkey : u.key = key
      · subst hkey
        simp [ht]
      · simp [hkey, Function.update_of_ne (Ne.symm hkey)]
  unfold Db.undoRecord undoRow
  cases hop : r.operation with
  | add txn post => exact hone txn (.remove post.id)
  | mod txn pre post => exact hone txn (.restore pre)
  | del txn pre => exact hone txn (.restore pre)
  | commit txn => rfl
  | rollback txn => rfl
  | purge txn k => rfl

/-- The undo pass at one key. -/
theorem rows_undo (committed : List Nat) (records : List (LogRecord κ δ)) (db : Db κ δ)
    (key : κ) :
    (records.reverse.foldl (Db.undoRecord committed) db).rows key =
      records.foldr (undoRow committed key) (db.rows key) := by
  rw [List.foldl_reverse]
  induction records with
  | nil => rfl
  | cons r rs ih => rw [List.foldr_cons, List.foldr_cons, rows_undoRecord, ih]

/-- None of the records is one the undo pass takes back to get at `v`: those
of its transaction are redone. -/
def NotUndone (committed : List Nat) (records : List (LogRecord κ δ)) (v : Tuple κ δ) : Prop :=
  ∀ r ∈ records, ∀ t, r.operation.writer = some t → v.txnId = some t → t ∈ committed

variable {committed : List Nat} {row : Option (Tuple κ δ)}

/-- The undo pass leaves such a row alone, and keys with no row. -/
theorem foldr_undoRow_notUndone {key : κ} (records : List (LogRecord κ δ))
    (hrow : ∀ v, row = some v → NotUndone committed records v) :
    records.foldr (undoRow committed key) row = row := by
  induction records with
  | nil => rfl
  | cons r rs ih =>
    have ih' := ih fun v hv r' hr' => hrow v hv r' (List.mem_cons_of_mem _ hr')
    rw [List.foldr_cons, ih']
    unfold undoRow
    split
    · next t u ht hu =>
        split
        · rfl
        · next hcond =>
            refine revertRow_of_other (fun v hv hvt => hcond (Or.inl ?_)) u
            exact hrow v hv r List.mem_cons_self t ht hvt
    · rfl

/-- The undo of a record of another transaction, or of another key, leaves a
row alone; the undo of one of its own transaction's restores what the record
replaced. -/
theorem undoRow_of_same {key : κ} {w : Nat} (hw : w ∉ committed) {v : Tuple κ δ}
    (hrow : row = some v) (hv : v.txnId = some w) (r : LogRecord κ δ) :
    undoRow committed key r row = (undosOn [r] w key).foldr (fun u _ => u.target) row := by
  unfold undoRow
  split
  · next t u ht hu =>
      by_cases htw : t = w
      · subst htw
        by_cases hkey : u.key = key
        · simp [undosOn, undosOf, ht, hu, hw, hkey, revertRow_of_same hrow hv]
        · simp [undosOn, undosOf, ht, hu, hw, hkey]
      · have hother : revertRow t row u = row := by
          refine revertRow_of_other (fun v' hv' hvt => htw ?_) u
          rw [hrow] at hv'
          cases hv'
          rw [hv] at hvt
          cases hvt
          rfl
        rw [hother]
        simp [undosOn, undosOf, ht, htw]
  · next hno =>
      cases hu : r.operation.undo with
      | none => simp [undosOn, undosOf, hu]
      | some u =>
        have hwr : r.operation.writer ≠ some w := fun hwr => hno w u hwr hu
        simp [undosOn, undosOf, hwr]

/-- While only its own versions are restored, a row stays its
transaction's. -/
theorem foldr_undoRow_own {key : κ} {w : Nat} (hw : w ∉ committed)
    (records : List (LogRecord κ δ))
    (hown : ∀ u ∈ undosOn records w key, ∃ p, u.target = some p ∧ p.txnId = some w)
    (hrow : ∃ v, row = some v ∧ v.txnId = some w) :
    ∃ v, records.foldr (undoRow committed key) row = some v ∧ v.txnId = some w := by
  induction records with
  | nil => exact hrow
  | cons r rs ih =>
    have hcons := undosOn_append [r] rs w key
    rw [List.singleton_append] at hcons
    rw [hcons] at hown
    obtain ⟨v, hv, hvw⟩ := ih fun u hu => hown u (List.mem_append_right _ hu)
    rw [List.foldr_cons, undoRow_of_same hw hv hvw]
    cases hr : undosOn [r] w key with
    | nil => exact ⟨v, hv, hvw⟩
    | cons u us => exact hown u (by simp [hr])

/-- The undo pass puts a row whose transaction did not commit back to the row
before its first write. -/
theorem foldr_undoRow_first {key : κ} {w : Nat} (hw : w ∉ committed)
    (records : List (LogRecord κ δ)) {u : Undo κ δ} {rest : List (Undo κ δ)}
    (hu : undosOn records w key = u :: rest)
    (hrest : ∀ u' ∈ rest, ∃ p, u'.target = some p ∧ p.txnId = some w)
    (htarget : ∀ v, u.target = some v → NotUndone committed records v)
    (hrow : ∃ v, row = some v ∧ v.txnId = some w) :
    records.foldr (undoRow committed key) row = u.target := by
  induction records with
  | nil => cases hu
  | cons r rs ih =>
    have hcons := undosOn_append [r] rs w key
    rw [List.singleton_append] at hcons
    rw [hcons] at hu
    cases hr : undosOn [r] w key with
    | nil =>
      rw [hr, List.nil_append] at hu
      rw [List.foldr_cons, ih hu fun v hv r' hr' => htarget v hv r' (List.mem_cons_of_mem _ hr')]
      refine foldr_undoRow_notUndone [r] fun v hv r' hr' => htarget v hv r' ?_
      rw [List.mem_singleton] at hr'
      exact hr' ▸ List.mem_cons_self
    | cons x xs =>
      rw [hr, List.cons_append] at hu
      cases hu
      obtain ⟨v, hv, hvw⟩ := foldr_undoRow_own hw rs
        (fun u' hu' => hrest u' (List.mem_append_right _ hu')) hrow
      rw [List.foldr_cons, undoRow_of_same hw hv hvw, hr]
      rfl

end SquealDb.Store
