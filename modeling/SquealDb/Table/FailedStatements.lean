import SquealDb.Store.Server
import SquealDb.Table.Statements

/-!
# Statements that fail

A statement that fails in a transaction of its own is rolled back with it. In an open
transaction nothing takes back what it wrote before it failed: later statements see it, and a
commit commits it.
-/

namespace SquealDb.Table

open Codec Lib Sql Store

/-- The statements that write rows, over the tables of a schema. -/
def language (c : Catalog) :
    Language TreeKey (List UInt8) String StatementError Statement where
  calls := Statement.calls c
  ofStore := .store
  missingKey := .missingKey

/-- A server for these statements, with its ledger. -/
abbrev Rows := Tracked TreeKey (List UInt8) String StatementError

/-- In a run in which no transaction goes on after a statement that failed once it had written,
what is committed, and what every transaction finds in any tree, comes of the statements that
succeeded alone. -/
theorem failed_statement_changes_nothing (c : Catalog) {db : Db TreeKey (List UInt8)}
    (hdb : Db.Reachable db) (sequences : String → Option UInt64) {s : Rows}
    (h : Lib.Reachable (Tracked.step (language c)) Tracked.GoesOn
      (Tracked.opening db sequences) s) :
    s.server.db.committedRow = s.ledger.committed ∧
      ∀ t session, s.server.sessions t = some session → session.spoiled = false → ∀ key,
        ∃ row, s.server.db.find t key = .ok row ∧ row.map (·.data) =
          overlay (s.ledger.accounts t).pending (s.ledger.accounts t).begun key := by
  have hinv := Tracked.inv_of_reachable hdb h
  refine ⟨hinv.committed, fun t session hs hgood key => ?_⟩
  have hfollows := hinv.sessions t session hs
  obtain ⟨row, hfind, hview⟩ := Db.find_view hinv.db hfollows.active key
  refine ⟨row, hfind, ?_⟩
  rw [hview, Db.view, hfollows.pending hgood, hfollows.begun]

/-! ## A row that stays -/

/-- Trees of any tuple of up to a thousand bytes. -/
def smallTrees : Trees where
  rowsInLeaves _ := true
  limit _ := 1000
  size key data := key.id.length + data.length
  data_le _ _ := Nat.le_add_left _ _
  limit_lt _ := by decide

/-- `t(a INTEGER PRIMARY KEY, b INTEGER NOT NULL UNIQUE)`. -/
def pairTable : StoredTable where
  table := {
    name := "t"
    versions := [[⟨0, "a", .integer, false, none⟩, ⟨1, "b", .integer, false, none⟩]]
    indices := [⟨none, true, true, [⟨0, "a", .integer, false, none⟩]⟩,
      ⟨none, false, true, [⟨1, "b", .integer, false, none⟩]⟩]
    foreignKeys := []
    nextFieldId := 2
    partitionedBy := none
    hasVersion := List.cons_ne_nil _ _ }
  kind := .range
  partitions := [⟨⟨"p", .all⟩, 10, [0, 11]⟩]

/-- A schema of that table. -/
def pairCatalog : Catalog where
  name := "main"
  tables name := if name = "t" then some pairTable else none
  trees := smallTrees
  text := Text.plain
  debugDouble _ := "0.0"

/-- A server over the empty store. -/
def emptyServer : Rows := Tracked.opening Db.new fun _ => none

/-- Two rows with the same key. -/
def duplicateRows :
    Statement := .insert "t" none [[.integer 7, .integer 1], [.integer 7, .integer 2]]

/-- The first row's key. -/
def firstKey : TreeKey := ⟨10, KeyCode.encode (.record [.integer 7]) []⟩

/-- Their INSERT fails in a transaction of its own; one of the first row alone succeeds. -/
def duplicateThenOne : List (Store.Event TreeKey (List UInt8) Statement) :=
  [.autocommit duplicateRows, .call 1 [] none, .call 1 [] none, .call 1 [] none, .begin] ++
    [.start 6 (.insert "t" none [[.integer 7, .integer 3]]), .call 6 [] none, .call 6 [] none,
      .call 6 [] none]

/-- The failed INSERT is not in the way of the other. -/
theorem failed_statement_changes_nothing_own :
    let s : Rows := run (Tracked.step (language pairCatalog)) emptyServer duplicateThenOne
    s.server.db.committedRow = s.ledger.committed ∧
      ∃ row, s.server.db.find 6 firstKey = .ok row ∧ (row.map (·.data)).isSome = true := by
  have hreach : Lib.Reachable (Tracked.step (language pairCatalog)) Tracked.GoesOn emptyServer
      (run (Tracked.step (language pairCatalog)) emptyServer duplicateThenOne) :=
    reachable_run duplicateThenOne (by decide +kernel)
  have hfacts := failed_statement_changes_nothing pairCatalog Lib.Reachable.init _ hreach
  refine ⟨hfacts.1, ?_⟩
  have hopen : ((run (Tracked.step (language pairCatalog)) emptyServer
      duplicateThenOne).server.sessions 6).map (·.spoiled) = some false := by decide +kernel
  obtain ⟨session, hsession, hgood⟩ := Option.map_eq_some_iff.mp hopen
  obtain ⟨row, hfind, hrow⟩ := hfacts.2 6 session hsession hgood firstKey
  refine ⟨row, hfind, ?_⟩
  rw [hrow]
  decide +kernel

/-- In an open transaction it fails on its second row and leaves the first, which the
transaction finds from then on and would commit; without it there is none. -/
theorem failed_insert_leaves_a_row :
    let before : Rows := run (Tracked.step (language pairCatalog)) emptyServer [.begin]
    let s : Rows := run (Tracked.step (language pairCatalog)) before
      [.start 1 duplicateRows, .call 1 [] none, .call 1 [] none, .call 1 [] none]
    (s.server.sessions 1).map (fun session => (session.running.isNone, session.spoiled)) =
        some (true, true) ∧
      before.server.db.find 1 firstKey = .ok none ∧
      (s.server.db.find 1 firstKey).toOption.map Option.isSome = some true ∧
      ((before.server.step (language pairCatalog) (.commit 1)).db.committedRow firstKey) = none ∧
      ((s.server.step (language pairCatalog) (.commit 1)).db.committedRow firstKey).isSome =
      true := by
  decide +kernel

end SquealDb.Table
