import SquealDb.Codec.ValueBytes
import SquealDb.Lib.Rounds
import SquealDb.Tree.KeyRange
import SquealDb.Tree.LeafChain

/-!
# Scans of key ranges

`RangeCursor` of `cursor.rs` over a tree that no write touches: it is positioned at a leaf,
reads that leaf's entries as they were when it came to it, follows the links to the leaves
behind, and goes through the key ranges it was given one after another.

What the reader's snapshot sees of an entry, the row it is or points to, is a parameter. A
loop that runs out of the rounds it is allowed, and an index out of bounds, are `none`.
-/

namespace SquealDb.Tree

open Codec Lib

/-- A step of the cursor: out of rounds, an error, or what it gives. -/
abbrev Scan := Rounds StoreError

/-- A loop's outcome, `none` where it ran out of rounds. -/
def Scan.lift {α : Type} (x : Option α) : Scan α := x.map Except.ok

/-- The index tree that is read; `remembered` is its `key_fields`. -/
structure IndexTree (ρ : Type) where
  store : PageId → Page TreeKey ρ
  root : PageId
  remembered : Option Nat

variable {ρ τ : Type}

namespace IndexTree

/-- How many fields a leaf's first entry shows the keys to have. -/
def shownFields (leaf : Page TreeKey ρ) : Scan (Option Nat) :=
  match leaf.rows.head? with
  | none => return none
  | some entry =>
    match entry.1.fields with
    | some fields => return some fields.length
    | none => throw (.unknownError "a key-range scan needs a table keyed by IndexKey")

/-- `key_fields`: how many fields the keys have, if an entry shows it. Remembering what was
read changes nothing while no write does. -/
def keyFields (t : IndexTree ρ) (fuel : Nat) : Scan (Option Nat) :=
  match t.remembered with
  | some n => return some n
  | none => do shownFields (← Scan.lift (firstLeafPage t.store fuel t.root))

def startLeaf (t : IndexTree ρ) (fuel : Nat) : Bound TreeKey → Scan (Page TreeKey ρ)
  | .included k | .excluded k => Scan.lift (findLeafPage t.store k fuel t.root)
  | .unbounded => Scan.lift (firstLeafPage t.store fuel t.root)

/-- `range_start` where the keys have `len` fields. -/
def rangeKey (range : KeyRange) (len : Nat) : Scan (Bound TreeKey) :=
  if len < range.startFields.length then
    throw (.unknownError ("key range needs " ++ toString range.startFields.length ++
      " fields but the key has " ++ toString len))
  else
    match IndexKey.newFromOwned (range.start len) with
    | .ok key => return .included (TreeKey.ofId (.record key))
    | .error e => throw e

def rangeStart (t : IndexTree ρ) (fuel : Nat) (range : KeyRange) : Scan (Bound TreeKey) := do
  match ← t.keyFields fuel with
  | none => return .unbounded
  | some len => rangeKey range len

end IndexTree

/-- An entry lies before the bound a scan starts at. -/
def Bound.beforeStart (start : Bound TreeKey) (key : TreeKey) : Bool :=
  match start with
  | .included k => decide (key < k)
  | .excluded k => decide (key ≤ k)
  | .unbounded => false

/-- An entry lies behind the bound a scan ends at. -/
def Bound.pastEnd (stop : Bound TreeKey) (key : TreeKey) : Bool :=
  match stop with
  | .included k => decide (k < key)
  | .excluded k => decide (k ≤ key)
  | .unbounded => false

/-- `LeafEntries`: a leaf's entries from a key on; `entries` are those not yet read of the
leaf as it was at the first read. -/
structure LeafEntries (ρ : Type) where
  start : Bound TreeKey
  entries : Option (List (TreeKey × ρ))
  unchecked : Bool

namespace LeafEntries

/-- `from`. -/
def from' (start : Bound TreeKey) : LeafEntries ρ :=
  ⟨start, none, match start with | .unbounded => false | _ => true⟩

/-- The entries that are left; a leaf is read from the start on. -/
def left (es : LeafEntries ρ) (leaf : Page TreeKey ρ) : List (TreeKey × ρ) :=
  es.entries.getD (leaf.rows.dropWhile fun entry => es.start.beforeStart entry.1)

def advance (es : LeafEntries ρ) (leaf : Page TreeKey ρ) :
    Option (TreeKey × ρ) × LeafEntries ρ :=
  match es.left leaf with
  | [] => (none, { es with entries := some [] })
  | entry :: rest => (some entry, { es with entries := some rest })

end LeafEntries

/-- `RangeCursor`; `last_row`, a hint where the next row is, is left out. -/
structure RangeCursor (ρ : Type) where
  currentLeaf : Page TreeKey ρ
  currentIter : LeafEntries ρ
  start : Bound TreeKey
  stop : Bound TreeKey
  ranges : Option (List KeyRange)
  rangeIdx : Nat
  done : Bool

namespace RangeCursor

variable (t : IndexTree ρ)

/-- Where `new_key_ranges` starts. -/
def firstStart (fuel : Nat) (ranges : List KeyRange) : Scan (Bound TreeKey) :=
  match ranges.head? with
  | some range => t.rangeStart fuel range
  | none => return .unbounded

def newKeyRanges (fuel : Nat) (ranges : List KeyRange) : Scan (RangeCursor ρ) := do
  let start ← firstStart t fuel ranges
  let leaf ← t.startLeaf fuel start
  return ⟨leaf, LeafEntries.from' start, start, .unbounded, some ranges, 0, ranges.isEmpty⟩

def nextRange (fuel : Nat) (c : RangeCursor ρ) : Scan (Bool × RangeCursor ρ) :=
  match c.ranges with
  | none => return (false, c)
  | some ranges =>
    let c := { c with rangeIdx := c.rangeIdx + 1 }
    match ranges[c.rangeIdx]? with
    | none => return (false, c)
    | some range => do
      let start ← t.rangeStart fuel range
      let leaf ← t.startLeaf fuel start
      return (true, { c with
        start, currentLeaf := leaf, currentIter := LeafEntries.from' start })

def nextIndexEntry : Nat → RangeCursor ρ → Scan (Option (TreeKey × ρ) × RangeCursor ρ)
  | 0, _ => Scan.lift none
  | fuel + 1, c =>
    match c.currentIter.advance c.currentLeaf with
    | (some entry, iter) => return (some entry, { c with currentIter := iter })
    | (none, iter) =>
      match nextLeafPage t.store c.currentLeaf with
      | some leaf => nextIndexEntry fuel { c with
          currentLeaf := leaf, currentIter := LeafEntries.from' .unbounded }
      | none => return (none, { c with currentIter := iter })

/-- Where an entry lies against the range being read. -/
def rangePosition (c : RangeCursor ρ) (key : TreeKey) : Scan Ordering :=
  match c.ranges with
  | none => return .eq
  | some ranges => do
    let range ← Scan.lift ranges[c.rangeIdx]?
    match key.fields with
    | some fields => return range.position fields
    | none => throw (.unknownError "a key-range scan needs a table keyed by IndexKey")

/-- What a round of the loop of `next_ref` ends with: another round, or the outcome. -/
inductive Round (ρ τ : Type) where
  | again (c : RangeCursor ρ)
  | ends (out : Option τ) (c : RangeCursor ρ)

/-- The rest of a round, at an entry. -/
def visit (sees : TreeKey × ρ → Option τ) (fuel : Nat) (c : RangeCursor ρ)
    (entry : TreeKey × ρ) : Scan (Round ρ τ) :=
  if c.currentIter.unchecked && c.start.beforeStart entry.1 then return .again c
  else do
    let c := { c with currentIter := { c.currentIter with unchecked := false } }
    let pastEnd := c.stop.pastEnd entry.1
    match ← c.rangePosition entry.1 with
    | .lt => return .again c
    | .gt =>
      if pastEnd then return .ends none { c with done := true }
      else do
        let (more, c) ← c.nextRange t fuel
        if more then return .again c else return .ends none { c with done := true }
    | .eq =>
      if pastEnd then return .ends none { c with done := true }
      else
        match sees entry with
        | some row => return .ends (some row) c
        | none => return .again c

/-- A round of the loop of `next_ref`. -/
def round (sees : TreeKey × ρ → Option τ) (fuel : Nat) (c : RangeCursor ρ) :
    Scan (Round ρ τ) := do
  let (entry, c) ← c.nextIndexEntry t fuel
  match entry with
  | some entry => visit t sees fuel c entry
  | none => do
    let (more, c) ← c.nextRange t fuel
    if more then return .again c else return .ends none c

/-- The loop of `next_ref`. -/
def nextLoop (sees : TreeKey × ρ → Option τ) :
    Nat → RangeCursor ρ → Scan (Option τ × RangeCursor ρ)
  | 0, _ => Scan.lift none
  | fuel + 1, c => do
    match ← c.round t sees fuel with
    | .again c => nextLoop sees fuel c
    | .ends out c => return (out, c)

def nextRef (sees : TreeKey × ρ → Option τ) (fuel : Nat) (c : RangeCursor ρ) :
    Scan (Option τ × RangeCursor ρ) :=
  if c.done then return (none, c) else c.nextLoop t sees fuel

/-- The start `reset` goes back to. -/
def rewind (fuel : Nat) (c : RangeCursor ρ) : Scan (RangeCursor ρ) :=
  match c.ranges with
  | none => return c
  | some ranges =>
    match ranges.head? with
    | some range => do
      let start ← t.rangeStart fuel range
      return { c with start }
    | none => return { c with done := true }

def reset (fuel : Nat) (c : RangeCursor ρ) : Scan (RangeCursor ρ) := do
  let c ← rewind t fuel { c with rangeIdx := 0, done := false }
  let leaf ← t.startLeaf fuel c.start
  return { c with currentIter := LeafEntries.from' c.start, currentLeaf := leaf }

/-- `next_ref`, `m` times. -/
def nextRefs (sees : TreeKey × ρ → Option τ) (fuel : Nat) :
    Nat → RangeCursor ρ → Scan (List (Option τ) × RangeCursor ρ)
  | 0, c => return ([], c)
  | m + 1, c => do
    let (out, c) ← c.nextRef t sees fuel
    let (outs, c) ← nextRefs sees fuel m c
    return (out :: outs, c)

end RangeCursor

end SquealDb.Tree
