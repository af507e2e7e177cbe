import SquealDb.Store.Recovery

/-!
# Purge records in recovery

`process_log` once more, at the level of a tree's entries: a key has no entry, an entry
with no row behind it, or a row. The redo pass first looks for the transaction of a record
among the committed ones and passes over a record that has none; `Purge` records are among
these, so that the arm that would redo them is never come to.
-/

namespace SquealDb.Store

/-- What a tree has of each key: nothing, an entry with no row behind it, or a row. -/
abbrev Entries (κ δ : Type*) := κ → Option (Option (Tuple κ δ))

namespace Entries

variable {κ δ : Type*} [DecidableEq κ]

/-! ## The write path -/

/-- What the tree does with a decision. -/
def applyDecision (es : Entries κ δ) (key : κ) : Decision κ δ → Entries κ δ
  | .insert tuple | .replace tuple => Function.update es key (some (some tuple))
  | .delete => Function.update es key none
  | .skip => es

/-- `write_version`: `decide` is given the row under the key. -/
def writeVersion (es : Entries κ δ) (key : κ) (decide : Option (Tuple κ δ) → Decision κ δ) :
    Entries κ δ :=
  es.applyDecision key (decide (es key).join)

def insertIfNeeded [DecidableEq δ] (es : Entries κ δ) (tuple : Tuple κ δ) : Entries κ δ :=
  es.writeVersion tuple.id fun
    | none => .insert tuple
    | some c => if alreadyApplied c tuple then .skip else .replace tuple

def updateIfNeeded [DecidableEq δ] (es : Entries κ δ) (tuple : Tuple κ δ) : Entries κ δ :=
  es.writeVersion tuple.id fun
    | some c => if alreadyApplied c tuple then .skip else .replace tuple
    | none => .skip

def purgeIfStillTombstone (es : Entries κ δ) (key : κ) (txn : Nat) : Entries κ δ :=
  es.writeVersion key fun
    | some c => if c.tombstoned && c.isSameTxn txn then .delete else .skip
    | none => .delete

def revertOne (txn : Nat) (es : Entries κ δ) : Undo κ δ → Entries κ δ
  | .remove key => es.writeVersion key fun
      | some cur => if cur.isSameTxn txn then .delete else .skip
      | none => .delete
  | .restore pre => es.writeVersion pre.id fun
      | some cur => if cur.isSameTxn txn then .replace pre else .skip
      | none => .skip

/-! ## The passes -/

variable [DecidableEq δ]

/-- The redo pass of `process_log`, of one record. -/
def redoOne (committed : List Nat) (es : Entries κ δ) (r : LogRecord κ δ) : Entries κ δ :=
  match r.operation.writer with
  | none => es
  | some txn =>
    if txn ∉ committed then es
    else
      match r.operation with
      | .add _ post => es.insertIfNeeded post
      | .mod _ _ post => es.updateIfNeeded post
      | .del txn pre => es.updateIfNeeded { pre with
          txnId := some txn, preLsn := some r.lsn, tombstoned := true }
      | .purge txn key => es.purgeIfStillTombstone key txn
      | _ => es

/-- The undo pass of `process_log`, of one record. -/
def undoOne (committed : List Nat) (es : Entries κ δ) (r : LogRecord κ δ) : Entries κ δ :=
  match r.operation.writer, r.operation.undo with
  | some txn, some undo => if txn ∈ committed then es else es.revertOne txn undo
  | _, _ => es

/-- `process_log`, on the entries of a page image. -/
def processLog (es : Entries κ δ) (records : List (LogRecord κ δ)) : Entries κ δ :=
  let committed := records.filterMap fun r => r.operation.commits
  records.reverse.foldl (undoOne committed) (records.foldl (redoOne committed) es)

/-! ## A key in the redo pass -/

section Key

variable {committed : List Nat} {key : κ} {es : Entries κ δ} {r : LogRecord κ δ}

/-- The record is the fresh insert of the key, by a transaction that committed or not. -/
def Adds (key : κ) (p : Nat → Prop) (r : LogRecord κ δ) : Prop :=
  ∃ txn post, r.operation = .add txn post ∧ p txn ∧ post.id = key

omit [DecidableEq δ] in
theorem writeVersion_other {key' : κ} (h : key' ≠ key)
    (decide : Option (Tuple κ δ) → Decision κ δ) : es.writeVersion key' decide key = es key := by
  unfold writeVersion applyDecision
  cases decide (es key').join with
  | skip => rfl
  | _ => exact Function.update_of_ne (Ne.symm h) _ _

/-- A record of another key is redone elsewhere. -/
theorem redoOne_other (h : ∀ v, r.written = some v → v.id ≠ key) :
    es.redoOne committed r key = es key := by
  unfold LogRecord.written at h
  unfold redoOne
  cases hop : r.operation with
  | add txn post =>
    rw [hop] at h
    simp only [Operation.writer]
    split
    · rfl
    · exact writeVersion_other (h post rfl) _
  | mod txn pre post =>
    rw [hop] at h
    simp only [Operation.writer]
    split
    · rfl
    · exact writeVersion_other (h post rfl) _
  | del txn pre =>
    rw [hop] at h
    simp only [Operation.writer]
    split
    · rfl
    · exact writeVersion_other (h _ rfl) _
  | commit txn => rfl
  | rollback txn => rfl
  | purge txn k => rfl

/-- What the redo of an update does to its key. -/
theorem updateIfNeeded_key (tuple : Tuple κ δ) :
    es.updateIfNeeded tuple tuple.id = match (es tuple.id).join with
      | none => es tuple.id
      | some c => if alreadyApplied c tuple then es tuple.id else some (some tuple) := by
  unfold updateIfNeeded writeVersion applyDecision
  cases (es tuple.id).join with
  | none => rfl
  | some c =>
    by_cases happlied : alreadyApplied c tuple = true
    · simp only [happlied, if_true]
    · simp only [happlied, if_false, Bool.false_eq_true]
      exact Function.update_self _ _ _

theorem insertIfNeeded_key (tuple : Tuple κ δ) :
    es.insertIfNeeded tuple tuple.id = match (es tuple.id).join with
      | none => some (some tuple)
      | some c => if alreadyApplied c tuple then es tuple.id else some (some tuple) := by
  unfold insertIfNeeded writeVersion applyDecision
  cases (es tuple.id).join with
  | none => exact Function.update_self _ _ _
  | some c =>
    by_cases happlied : alreadyApplied c tuple = true
    · simp only [happlied, if_true]
    · simp only [happlied, if_false, Bool.false_eq_true]
      exact Function.update_self _ _ _

/-- Where a key has a row, the redo of a record leaves one. -/
theorem redoOne_present (h : (es key).join.isSome) : (es.redoOne committed r key).join.isSome := by
  have hupdate : ∀ tuple : Tuple κ δ, (es.updateIfNeeded tuple key).join.isSome := by
    intro tuple
    by_cases hkey : tuple.id = key
    · subst hkey
      rw [updateIfNeeded_key]
      cases hrow : (es tuple.id).join with
      | none => simp [hrow] at h
      | some c =>
        dsimp only
        split
        · rw [hrow]; rfl
        · rfl
    · rw [updateIfNeeded, writeVersion_other hkey]
      exact h
  have hinsert : ∀ tuple : Tuple κ δ, (es.insertIfNeeded tuple key).join.isSome := by
    intro tuple
    by_cases hkey : tuple.id = key
    · subst hkey
      rw [insertIfNeeded_key]
      cases hrow : (es tuple.id).join with
      | none => rfl
      | some c =>
        dsimp only
        split
        · rw [hrow]; rfl
        · rfl
    · rw [insertIfNeeded, writeVersion_other hkey]
      exact h
  unfold redoOne
  cases r.operation with
  | add txn post =>
    simp only [Operation.writer]
    split
    · exact h
    · exact hinsert post
  | mod txn pre post =>
    simp only [Operation.writer]
    split
    · exact h
    · exact hupdate post
  | del txn pre =>
    simp only [Operation.writer]
    split
    · exact h
    · exact hupdate _
  | commit txn => exact h
  | rollback txn => exact h
  | purge txn k => exact h

/-- Where it has none, only a fresh insert of a committed transaction brings one. -/
theorem redoOne_absent (h : (es key).join = none) (hadds : ¬ Adds key (· ∈ committed) r) :
    es.redoOne committed r key = es key := by
  have hupdate : ∀ tuple : Tuple κ δ, es.updateIfNeeded tuple key = es key := by
    intro tuple
    by_cases hkey : tuple.id = key
    · subst hkey
      rw [updateIfNeeded_key, h]
    · exact writeVersion_other hkey _
  unfold redoOne
  cases hop : r.operation with
  | add txn post =>
    simp only [Operation.writer]
    by_cases htxn : txn ∈ committed
    · rw [if_neg (not_not_intro htxn)]
      have hkey : post.id ≠ key := fun hkey => hadds ⟨txn, post, hop, htxn, hkey⟩
      exact writeVersion_other hkey _
    · rw [if_pos htxn]
  | mod txn pre post =>
    simp only [Operation.writer]
    split
    · rfl
    · exact hupdate post
  | del txn pre =>
    simp only [Operation.writer]
    split
    · rfl
    · exact hupdate _
  | commit txn => rfl
  | rollback txn => rfl
  | purge txn k => rfl

theorem redoOne_adds (hadds : Adds key (· ∈ committed) r) :
    (es.redoOne committed r key).join.isSome := by
  obtain ⟨txn, post, hop, htxn, rfl⟩ := hadds
  unfold redoOne
  rw [hop]
  simp only [Operation.writer]
  rw [if_neg (not_not_intro htxn), insertIfNeeded_key]
  cases hrow : (es post.id).join with
  | none => rfl
  | some c =>
    dsimp only
    split
    · rw [hrow]; rfl
    · rfl

/-- The redo of a delete leaves the tombstone of its transaction. -/
theorem redoOne_del (lsn : Nat) {txn : Nat} {pre : Tuple κ δ} (htxn : txn ∈ committed)
    (h : (es pre.id).join.isSome) :
    ∃ c, es.redoOne committed ⟨lsn, .del txn pre⟩ pre.id = some (some c) ∧ c.txnId = some txn := by
  unfold redoOne
  simp only [Operation.writer]
  rw [if_neg (not_not_intro htxn)]
  have hkey := es.updateIfNeeded_key
    { pre with txnId := some txn, preLsn := some lsn, tombstoned := true }
  dsimp only at hkey
  rw [hkey]
  obtain ⟨c, hc⟩ := Option.isSome_iff_exists.mp h
  have hentry : es pre.id = some (some c) := Option.join_eq_some_iff.mp hc
  rw [hc]
  dsimp only
  split
  · next happlied =>
      refine ⟨c, hentry, ?_⟩
      simp only [alreadyApplied, Bool.and_eq_true, beq_iff_eq] at happlied
      exact happlied.2
  · exact ⟨_, rfl, rfl⟩

theorem redo_present (records : List (LogRecord κ δ)) (h : (es key).join.isSome) :
    (records.foldl (redoOne committed) es key).join.isSome := by
  induction records generalizing es with
  | nil => exact h
  | cons r rs ih => exact ih (redoOne_present h)

theorem redo_other (records : List (LogRecord κ δ))
    (h : ∀ r ∈ records, ∀ v, r.written = some v → v.id ≠ key) :
    records.foldl (redoOne committed) es key = es key := by
  induction records generalizing es with
  | nil => rfl
  | cons r rs ih =>
    rw [List.foldl_cons, ih fun r' hr' => h r' (List.mem_cons_of_mem _ hr')]
    exact redoOne_other (h r List.mem_cons_self)

/-- The redo pass brings a row to a key that has none exactly if it comes to a fresh
insert. -/
theorem redo_absent (committed : List Nat) (records : List (LogRecord κ δ)) (h :
    (es key).join = none) :
    (¬ ∃ r ∈ records, Adds key (· ∈ committed) r) ∧
        records.foldl (redoOne committed) es key = es key ∨
      (∃ r ∈ records, Adds key (· ∈ committed) r) ∧
        (records.foldl (redoOne committed) es key).join.isSome := by
  induction records generalizing es with
  | nil => exact .inl ⟨fun ⟨r, hr, _⟩ => (nomatch hr), rfl⟩
  | cons r rs ih =>
    by_cases hadds : Adds key (· ∈ committed) r
    · exact .inr ⟨⟨r, List.mem_cons_self, hadds⟩, redo_present rs (redoOne_adds hadds)⟩
    · have hsame := redoOne_absent h hadds
      have hnext : (es.redoOne committed r key).join = none := by
        rw [hsame]
        exact h
      rcases ih hnext with
        ⟨hnone, heq⟩ | ⟨⟨r', hr', hadds'⟩, hpresent⟩
      · refine .inl ⟨?_, heq.trans hsame⟩
        rintro ⟨r', hr', hadds'⟩
        rcases List.mem_cons.mp hr' with rfl | hr'
        · exact hadds hadds'
        · exact hnone ⟨r', hr', hadds'⟩
      · exact .inr ⟨⟨r', List.mem_cons_of_mem _ hr', hadds'⟩, hpresent⟩

/-! ## A key in the undo pass -/

omit [DecidableEq δ] in
theorem revertOne_other {txn : Nat} {undo : Undo κ δ} (h : undo.key ≠ key) :
    es.revertOne txn undo key = es key := by
  cases undo with
  | remove k =>
    unfold revertOne
    exact writeVersion_other h _
  | restore pre =>
    unfold revertOne
    exact writeVersion_other h _

omit [DecidableEq δ] in
theorem revertOne_kept {txn : Nat} {undo : Undo κ δ} {c : Tuple κ δ}
    (hrow : es key = some (some c)) (hother : c.isSameTxn txn = false) :
    es.revertOne txn undo key = es key := by
  by_cases hkey : undo.key = key
  · subst hkey
    cases undo with
    | remove k =>
      have hrow' : es k = some (some c) := hrow
      simp [revertOne, writeVersion, Undo.key, hrow', hother, applyDecision]
    | restore pre =>
      have hrow' : es pre.id = some (some c) := hrow
      simp [revertOne, writeVersion, Undo.key, hrow', hother, applyDecision]
  · exact revertOne_other hkey

omit [DecidableEq δ] in
theorem revertOne_restore_absent (txn : Nat) {pre : Tuple κ δ} (h : (es key).join = none) :
    es.revertOne txn (.restore pre) key = es key := by
  by_cases hkey : pre.id = key
  · subst hkey
    simp [revertOne, writeVersion, h, applyDecision]
  · exact revertOne_other hkey

omit [DecidableEq δ] in
theorem revertOne_remove_absent (txn : Nat) (h : (es key).join = none) :
    es.revertOne txn (.remove key) key = none := by
  simp [revertOne, writeVersion, h, applyDecision]

omit [DecidableEq δ] in
/-- The undo pass leaves the rows of transactions that committed. -/
theorem undoOne_committed {c : Tuple κ δ} {w : Nat} (hrow : es key = some (some c))
    (hw : c.txnId = some w) (hcommitted : w ∈ committed) : es.undoOne committed r key = es key := by
  unfold undoOne
  cases r.operation.writer with
  | none => rfl
  | some txn =>
    cases r.operation.undo with
    | none => rfl
    | some undo =>
      dsimp only
      split
      · rfl
      · next htxn =>
          apply revertOne_kept hrow
          rw [← Bool.not_eq_true, Tuple.isSameTxn_iff, hw]
          rintro ⟨⟩
          exact htxn hcommitted

omit [DecidableEq δ] in
/-- Where a key has no row, the undo pass takes away an entry at the insert of a
transaction that did not commit. -/
theorem undoOne_absent (h : (es key).join = none) :
    (Adds key (· ∉ committed) r ∧ es.undoOne committed r key = none) ∨
      (¬ Adds key (· ∉ committed) r ∧ es.undoOne committed r key = es key) := by
  have hrestore : ∀ txn pre, (if txn ∈ committed then es else es.revertOne txn (.restore pre)) key =
      es key := by
    intro txn pre
    split
    · rfl
    · exact revertOne_restore_absent txn h
  unfold undoOne
  cases hop : r.operation with
  | add txn post =>
    simp only [Operation.writer, Operation.undo]
    by_cases htxn : txn ∈ committed
    · refine .inr ⟨?_, by rw [if_pos htxn]⟩
      rintro ⟨t, p, heq, ht, -⟩
      rw [hop] at heq
      cases heq
      exact ht htxn
    · rw [if_neg htxn]
      by_cases hkey : post.id = key
      · subst hkey
        exact .inl ⟨⟨txn, post, hop, htxn, rfl⟩, revertOne_remove_absent txn h⟩
      · refine .inr ⟨?_, revertOne_other hkey⟩
        rintro ⟨t, p, heq, -, hp⟩
        rw [hop] at heq
        cases heq
        exact hkey hp
  | mod txn pre post =>
    refine .inr ⟨?_, hrestore txn pre⟩
    rintro ⟨t, p, heq, -⟩
    rw [hop] at heq
    cases heq
  | del txn pre =>
    refine .inr ⟨?_, hrestore txn pre⟩
    rintro ⟨t, p, heq, -⟩
    rw [hop] at heq
    cases heq
  | commit txn =>
    refine .inr ⟨?_, rfl⟩
    rintro ⟨t, p, heq, -⟩
    rw [hop] at heq
    cases heq
  | rollback txn =>
    refine .inr ⟨?_, rfl⟩
    rintro ⟨t, p, heq, -⟩
    rw [hop] at heq
    cases heq
  | purge txn k =>
    refine .inr ⟨?_, rfl⟩
    rintro ⟨t, p, heq, -⟩
    rw [hop] at heq
    cases heq

omit [DecidableEq δ] in
theorem undo_committed (records : List (LogRecord κ δ)) {c : Tuple κ δ} {w : Nat}
    (hrow : es key = some (some c)) (hw : c.txnId = some w) (hcommitted : w ∈ committed) :
    records.foldl (undoOne committed) es key = some (some c) := by
  induction records generalizing es with
  | nil => exact hrow
  | cons r rs ih => exact ih ((undoOne_committed hrow hw hcommitted).trans hrow)

omit [DecidableEq δ] in
theorem undo_absent (records : List (LogRecord κ δ)) (h : (es key).join = none) :
    records.foldl (undoOne committed) es key = none ↔
      es key = none ∨ ∃ r ∈ records, Adds key (· ∉ committed) r := by
  induction records generalizing es with
  | nil =>
    constructor
    · exact .inl
    · rintro (hnone | ⟨r, hr, -⟩)
      · exact hnone
      · cases hr
  | cons r rs ih =>
    rw [List.foldl_cons]
    rcases undoOne_absent (r := r) h with ⟨hadds, hnone⟩ | ⟨hnot, hsame⟩
    · rw [ih (by rw [hnone]; rfl)]
      exact iff_of_true (.inl hnone) (.inr ⟨r, List.mem_cons_self, hadds⟩)
    · rw [ih (by rw [hsame]; exact h), hsame]
      apply or_congr_right
      constructor
      · rintro ⟨r', hr', hadds⟩
        exact ⟨r', List.mem_cons_of_mem _ hr', hadds⟩
      · rintro ⟨r', hr', hadds⟩
        rcases List.mem_cons.mp hr' with rfl | hr'
        · exact absurd hadds hnot
        · exact ⟨r', hr', hadds⟩

end Key

/-! ## Purged keys -/

/-- A `Purge` record is redone, in that nothing is there to remove. -/
theorem redoOne_purge_iff (committed : List Nat) (es : Entries κ δ) (lsn txn : Nat) (key : κ) :
    es.redoOne committed ⟨lsn, .purge txn key⟩ = es.purgeIfStillTombstone key txn ↔
      es key ≠ some none ∧
        ∀ c, es key = some (some c) → ¬ (c.tombstoned = true ∧ c.txnId = some txn) := by
  have hskipped : es.redoOne committed ⟨lsn, .purge txn key⟩ = es := rfl
  have hself : ∀ slot, es = Function.update es key slot ↔ es key = slot := by
    intro slot
    constructor
    · intro heq
      rw [heq, Function.update_self]
    · rintro rfl
      exact (Function.update_eq_self key es).symm
  rw [hskipped]
  unfold purgeIfStillTombstone writeVersion applyDecision
  cases hentry : es key with
  | none => simp [hself, hentry]
  | some row =>
    cases row with
    | none => simp [hself, hentry]
    | some c =>
      by_cases hpurges : c.tombstoned = true ∧ c.isSameTxn txn = true
      · have hsame := (Tuple.isSameTxn_iff c txn).mp hpurges.2
        simp [hself, hentry, hpurges.1, hpurges.2, hsame]
      · have hnot : ¬ (c.tombstoned = true ∧ c.txnId = some txn) := by
          rw [← Tuple.isSameTxn_iff]
          exact hpurges
        have hdecision : (c.tombstoned && c.isSameTxn txn) = false := by
          rw [← Bool.not_eq_true, Bool.and_eq_true]
          exact hpurges
        simp only [Option.join_some, hdecision, Bool.false_eq_true, if_false, true_iff]
        refine ⟨nofun, ?_⟩
        rintro _ ⟨⟩
        exact hnot

/-- Of a key that a committed transaction deleted and that was not written since, its
tombstone purged or not, recovery leaves nothing exactly if the page image has no row of it,
no fresh insert of it by a transaction that committed is replayed, and an entry without a row
is taken away by the undo of an insert. And a `Purge` record does what its redo should
exactly if it would find nothing to remove. -/
theorem purges_redone_iff (image : Entries κ δ) {records before after : List (LogRecord κ δ)}
    {lsn txn : Nat} {pre : Tuple κ δ} (hlog : records = before ++ ⟨lsn, .del txn pre⟩ :: after)
    (hcommit : txn ∈ records.filterMap fun r => r.operation.commits)
    (hlast : ∀ r ∈ after, ∀ v, r.written = some v → v.id ≠ pre.id) :
    (image.processLog records pre.id = none ↔
      (image pre.id).join = none ∧
        (¬ ∃ r ∈ records, Adds pre.id (· ∈ records.filterMap fun r => r.operation.commits) r) ∧
        (image pre.id = none ∨
          ∃ r ∈ records, Adds pre.id (· ∉ records.filterMap fun r => r.operation.commits) r)) ∧
    ∀ (committed : List Nat) (es : Entries κ δ) (lsn' txn' : Nat) (key : κ),
      es.redoOne committed ⟨lsn', .purge txn' key⟩ = es.purgeIfStillTombstone key txn' ↔
        es key ≠ some none ∧
          ∀ c, es key = some (some c) → ¬ (c.tombstoned = true ∧ c.txnId = some txn') := by
  refine ⟨?_, fun committed es lsn' txn' key => redoOne_purge_iff committed es lsn' txn' key⟩
  unfold processLog
  generalize records.filterMap (fun r => r.operation.commits) = committed at hcommit ⊢
  -- a row that the delete finds is still there at the end, as the tombstone
  have hstays : (before.foldl (redoOne committed) image pre.id).join.isSome →
      records.reverse.foldl (undoOne committed) (records.foldl (redoOne committed) image) pre.id ≠
        none := by
    intro hpresent
    obtain ⟨c, hc, htxn⟩ := redoOne_del lsn hcommit hpresent
    have hredone : records.foldl (redoOne committed) image pre.id = some (some c) := by
      rw [hlog, List.foldl_append, List.foldl_cons, redo_other after hlast, hc]
    rw [undo_committed records.reverse hredone htxn hcommit]
    exact Option.some_ne_none _
  by_cases himage : (image pre.id).join = none
  · rcases redo_absent committed before himage with ⟨hnone, hsame⟩ | ⟨⟨r, hr, hadds⟩, hpresent⟩
    · have hnotAdds : ¬ ∃ r ∈ records, Adds pre.id (· ∈ committed) r := by
        rintro ⟨r, hr, hadds⟩
        rw [hlog] at hr
        rcases List.mem_append.mp hr with hr | hr
        · exact hnone ⟨r, hr, hadds⟩
        · obtain ⟨t, post, hop, -, hid⟩ := hadds
          rcases List.mem_cons.mp hr with rfl | hr
          · cases hop
          · refine hlast r hr post ?_ hid
            rw [LogRecord.written, hop]
            rfl
      have hdel : ¬ Adds pre.id (· ∈ committed) ⟨lsn, .del txn pre⟩ := by
        rintro ⟨t, post, hop, -⟩
        cases hop
      have hredone : records.foldl (redoOne committed) image pre.id = image pre.id := by
        rw [hlog, List.foldl_append, List.foldl_cons, redo_other after hlast,
          redoOne_absent (by rw [hsame]; exact himage) hdel, hsame]
      rw [undo_absent records.reverse (by rw [hredone]; exact himage), hredone]
      simp only [List.mem_reverse]
      exact ⟨fun hgone => ⟨himage, hnotAdds, hgone⟩, fun h => h.2.2⟩
    · refine iff_of_false (hstays hpresent) fun h => h.2.1 ⟨r, ?_, hadds⟩
      rw [hlog]
      exact List.mem_append_left _ hr
  · have hpresent : (image pre.id).join.isSome := Option.isSome_iff_ne_none.mpr himage
    exact iff_of_false (hstays (redo_present before hpresent)) fun h => himage h.1

end Entries

/-! ## A run -/

/-- A row is inserted, deleted and purged, by transactions that commit. -/
def purgingRun : Durable Nat Nat :=
  Lib.run Durable.step .new (([.begin .continueOnConflict, .insert 1 ⟨7, 0, none, none, false⟩,
    .commit 1, .begin .continueOnConflict, .remove 4 7, .commit 4, .vacuum, .purge] :
      List (Action Nat Nat)).map .operate)

/-- Its log. -/
def purgingLog : List (LogRecord Nat Nat) :=
  [⟨2, .add 1 ⟨7, 0, some 1, none, false⟩⟩, ⟨3, .commit 1⟩,
    ⟨5, .del 4 ⟨7, 0, some 1, none, false⟩⟩, ⟨6, .commit 4⟩, ⟨8, .purge 4 7⟩]

/-- The run ends without the row.  Recovered from its log and the page image of the empty
database, the row is there again, as the tombstone that was purged. -/
theorem purged_row_returns :
    purgingRun.db.rows 7 = none ∧ purgingRun.survivors 5 = purgingLog ∧
      Entries.processLog (fun k => (purgingRun.disk k).map some) purgingLog 7 =
        some (some ⟨7, 0, some 4, some 5, true⟩) := by
  decide

namespace Entries

theorem purges_redone_iff_run :
    (processLog (fun _ => none) purgingLog 7 = none ↔
      ((fun _ => none : Entries Nat Nat) 7).join = none ∧
        (¬ ∃ r ∈ purgingLog,
          Adds 7 (· ∈ purgingLog.filterMap fun r => r.operation.commits) r) ∧
        ((fun _ => none : Entries Nat Nat) 7 = none ∨ ∃ r ∈ purgingLog,
          Adds 7 (· ∉ purgingLog.filterMap fun r => r.operation.commits) r)) :=
  have hlog : purgingLog = [⟨2, .add 1 ⟨7, 0, some 1, none, false⟩⟩, ⟨3, .commit 1⟩] ++
      ⟨5, .del 4 ⟨7, 0, some 1, none, false⟩⟩ :: [⟨6, .commit 4⟩, ⟨8, .purge 4 7⟩] := rfl
  (purges_redone_iff (fun _ => none) hlog (by decide) (by decide)).1

end Entries

end SquealDb.Store
