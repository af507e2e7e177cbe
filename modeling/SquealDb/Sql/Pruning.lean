import SquealDb.Sql.Points
import SquealDb.Sql.Routing

/-!
# What pruning leaves unread

A read leaves a partition unread by its filters, a join by the values of its keys.
Filters never lose a row they are true of.  A join's values lose the rows that match one
`equal_points` cannot tell of, unless another value of the join keeps their partition.
-/

namespace SquealDb.Sql

open Codec Lib

variable {text : Text} {t : SqlTable} {spec : Partitioning} {column : Nat}
  {datatype : DataType}

/-! ## By filters -/

variable {p : Nat} {values : List ValueItem} {parts : List Nat}

/-- Filters that are true of a row keep the partition it is stored in. -/
theorem mem_partitionsToRead {row : Row} {filters : List EvalExpr}
    (hspec : t.partitioning = some spec) (hcheck : spec.check text t.partitions = .ok ())
    (hcolumn : t.partitionColumn = some (column, datatype)) (hrow : RowOf t.types row)
    (htrue : ∀ f ∈ filters, IsTrueOf text f row)
    (hroute : spec.route t.partitions (row.at column) = some p) :
    p ∈ t.partitionsToRead filters := by
  unfold SqlTable.partitionsToRead
  rw [hspec, hcolumn]
  dsimp only
  cases hset : columnSet (columnSets filters t.types) column with
  | some set => exact mem_mayHold hcheck (columnSets_sound hrow htrue hset) hroute
  | none =>
    obtain ⟨q, hq, -⟩ := (route_eq_some_iff hcheck _ p).mp hroute
    exact List.mem_range.mpr (List.getElem?_eq_some_iff.mp hq).1

/-! ## By the values of a join -/

/-- A partition that holds a stored value `=` calls equal to a join's. -/
def HoldsMatch (t : SqlTable) (spec : Partitioning) (datatype : DataType) (v : ValueItem)
    (p : Nat) : Prop :=
  ∃ x, datatype.Stores x ∧ sqlEqual x v ∧ spec.route t.partitions x = some p

/-- A partition is told of: it holds a match of a value points are told of. -/
def ToldOf (t : SqlTable) (spec : Partitioning) (datatype : DataType)
    (values : List ValueItem) (p : Nat) : Prop :=
  ∃ v ∈ values, cannotTell datatype v = false ∧ HoldsMatch t spec datatype v p

/-- The partitions a join's values route to are those told of. -/
theorem mem_wanted_iff :
    p ∈ t.wanted spec datatype values ↔ ToldOf t spec datatype values p := by
  unfold SqlTable.wanted
  rw [List.mem_filterMap]
  constructor
  · rintro ⟨w, hw, hroute⟩
    obtain ⟨v, hv, hwv⟩ := List.mem_flatMap.mp hw
    cases hpoints : equalPoints datatype v with
    | none =>
      rw [hpoints] at hwv
      cases hwv
    | some points =>
      rw [hpoints] at hwv
      obtain ⟨hstores, heq⟩ := equalPoints_sound hpoints hwv
      have hsome : (equalPoints datatype v).isSome = true := by rw [hpoints]; rfl
      exact ⟨v, hv, (equalPoints_isSome hstores heq).mp hsome, w, hstores, heq, hroute⟩
  · rintro ⟨v, hv, htell, x, hstores, heq, hroute⟩
    obtain ⟨points, hpoints⟩ :=
      Option.isSome_iff_exists.mp ((equalPoints_isSome hstores heq).mpr htell)
    obtain ⟨w, hw, hwx⟩ := equalPoints_complete hpoints hstores heq
    refine ⟨w, List.mem_flatMap.mpr ⟨v, hv, ?_⟩, (route_congr spec _ hwx).trans hroute⟩
    rw [hpoints]
    exact hw

/-- `keep_matching` on the partition column skips a partition no value tells of. -/
theorem keepMatching_skips_iff {skip : List Bool} {j : Nat} (hspec : t.partitioning = some spec)
    (hcolumn : t.partitionColumn = some (column, datatype))
    (hskip : skip = [] ∨ skip.length = parts.length) (hp : parts[j]? = some p) :
    (t.keepMatching parts skip column values)[j]? = some true ↔
      skip[j]? = some true ∨ ¬ToldOf t spec datatype values p := by
  obtain ⟨hlt, hpj⟩ := List.getElem?_eq_some_iff.mp hp
  unfold SqlTable.keepMatching
  rw [hspec, hcolumn]
  dsimp only
  rw [if_neg (by simp), List.getElem?_zipWith, ← mem_wanted_iff]
  rcases hskip with rfl | hlen
  · simp [hlt, hpj]
  · have hne : skip.isEmpty = false := by
      rw [List.isEmpty_eq_false_iff, ← List.length_pos_iff]
      omega
    have hs : ∃ s, skip[j]? = some s := ⟨skip[j], List.getElem?_eq_getElem (by omega)⟩
    obtain ⟨s, hs⟩ := hs
    simp [hne, hs, hp]

/-- `keep_matching` on another column skips nothing. -/
theorem keepMatching_other {skip : List Bool} {c : Nat}
    (hcolumn : t.partitionColumn = some (column, datatype)) (hc : c ≠ column) :
    t.keepMatching parts skip c values = skip := by
  unfold SqlTable.keepMatching
  rw [hcolumn]
  cases t.partitioning with
  | none => rfl
  | some spec =>
    dsimp only
    rw [if_pos (Ne.symm hc)]

/-- A join that routes by an outer value reads the partitions it tells of. -/
theorem mem_partsFor_iff {pos : Nat} {outer : Row} (hspec : t.partitioning = some spec) :
    p ∈ t.partsFor parts (some (pos, datatype)) outer ↔
      p ∈ parts ∧ ToldOf t spec datatype [outer.at pos] p := by
  unfold SqlTable.partsFor
  rw [hspec]
  dsimp only
  rw [List.mem_reverse, List.mem_dedup, List.mem_mergeSort, List.mem_filter, mem_wanted_iff,
    List.contains_iff_mem, and_comm]

/-! ## Losing nothing -/

/-- What pruning promises a partitioned table: of the partition a value belongs in, of a
read's filters, of the values of a join's keys and of an outer row's. -/
structure LosesNothing (text : Text) (t : SqlTable) (spec : Partitioning) (column : Nat)
    (datatype : DataType) (parts : List Nat) (skip : List Bool) (values : List ValueItem)
    (pos : Nat) (outer : Row) : Prop where
  route : ∀ v, datatype.Stores v → ∀ i,
    spec.route t.partitions v = some i ↔ spec.Admits t.partitions i v
  unique : ∀ v, datatype.Stores v → ∀ i j,
    spec.Admits t.partitions i v → spec.Admits t.partitions j v → i = j
  filters : ∀ (row : Row) (filters : List EvalExpr) (p : Nat), RowOf t.types row →
    (∀ f ∈ filters, IsTrueOf text f row) →
    spec.route t.partitions (row.at column) = some p → p ∈ t.partitionsToRead filters
  keepMatching : ∀ (c j p : Nat), parts[j]? = some p →
    (c = column → ∃ v ∈ values, HoldsMatch t spec datatype v p) → skip[j]? ≠ some true →
    (t.keepMatching parts skip c values)[j]? ≠ some true
  partsFor : ∀ p ∈ parts, HoldsMatch t spec datatype (outer.at pos) p →
    p ∈ t.partsFor parts (some (pos, datatype)) outer
  partsForAll : ∀ p ∈ parts, p ∈ t.partsFor parts none outer

/-- Every partition not skipped that holds a match of a join's value is told of, and no
partition holds a match of an outer value no points are told of. -/
structure AllTold (t : SqlTable) (spec : Partitioning) (datatype : DataType)
    (parts : List Nat) (skip : List Bool) (values : List ValueItem) (sought : ValueItem) :
    Prop where
  values : ∀ v ∈ values, ∀ j p : Nat, parts[j]? = some p → skip[j]? ≠ some true →
    HoldsMatch t spec datatype v p → ToldOf t spec datatype values p
  outer : ∀ p ∈ parts, HoldsMatch t spec datatype sought p → cannotTell datatype sought = false

/-- Pruning loses nothing exactly where every partition that holds a match is told of. -/
theorem pruning_loses_nothing_iff {parts : List Nat} {skip : List Bool}
    (hspec : t.partitioning = some spec) (hcheck : spec.check text t.partitions = .ok ())
    (hcolumn : t.partitionColumn = some (column, datatype))
    (hskip : skip = [] ∨ skip.length = parts.length) (values : List ValueItem) (pos : Nat)
    (outer : Row) :
    LosesNothing text t spec column datatype parts skip values pos outer ↔
      AllTold t spec datatype parts skip values (outer.at pos) := by
  constructor
  · intro h
    refine { values := ?_, outer := ?_ }
    · intro v hv j p hp hnot hmatch
      have hkept := h.keepMatching column j p hp (fun _ => ⟨v, hv, hmatch⟩) hnot
      by_contra htold
      exact hkept ((keepMatching_skips_iff hspec hcolumn hskip hp).mpr (Or.inr htold))
    · intro p hp hmatch
      obtain ⟨-, v, hv, htell, -⟩ := (mem_partsFor_iff hspec).mp (h.partsFor p hp hmatch)
      rwa [List.mem_singleton.mp hv] at htell
  · intro h
    refine {
      route := fun v _ i => route_eq_some_iff hcheck v i
      unique := fun v _ i j hi hj => admits_unique hcheck hi hj
      filters := fun row filters p hrow htrue hroute =>
        mem_partitionsToRead hspec hcheck hcolumn hrow htrue hroute
      keepMatching := ?_
      partsFor := ?_
      partsForAll := fun p hp => List.mem_reverse.mpr hp }
    · intro c j p hp hmatch hnot
      by_cases hc : c = column
      · subst hc
        obtain ⟨v, hv, hmatch⟩ := hmatch rfl
        rw [Ne, keepMatching_skips_iff hspec hcolumn hskip hp]
        rintro (hs | htold)
        · exact hnot hs
        · exact htold (h.values v hv j p hp hnot hmatch)
      · rw [keepMatching_other hcolumn hc]
        exact hnot
    · intro p hp hmatch
      exact (mem_partsFor_iff hspec).mpr
        ⟨hp, _, List.mem_singleton_self _, h.outer p hp hmatch, hmatch⟩

/-- A table of doubles in two partitions, below `10` and from it on. -/
def twoHalves : SqlTable where
  fields := [(1, .double)]
  partitioning := some { kind := .range, fieldId := 1 }
  partitions := [{ name := "low", bound := .lessThan (.double 0x4024000000000000) },
    { name := "high", bound := .maxValue }]

/-- A join on `5` leaves the second unread, and loses nothing. -/
theorem pruning_loses_nothing_five :
    twoHalves.keepMatching [0, 1] [] 0 [.integer 5] = [false, true] ∧
      twoHalves.partsFor [0, 1] (some (0, .double)) [.integer 5] = [0] ∧
      LosesNothing .plain twoHalves { kind := .range, fieldId := 1 } 0 .double [0, 1] []
        [.integer 5] 0 [.integer 5] := by
  refine ⟨by decide +kernel, by decide +kernel, ?_⟩
  apply (pruning_loses_nothing_iff rfl (by decide +kernel) rfl (Or.inl rfl) [.integer 5] 0
    [.integer 5]).mpr
  refine { values := ?_, outer := fun p hp hmatch => by decide }
  intro v hv j p hp hnot hmatch
  refine ⟨v, hv, ?_, hmatch⟩
  rw [List.mem_singleton.mp hv]
  decide

/-- A table of doubles in one partition. -/
def oneDouble : SqlTable where
  fields := [(1, .double)]
  partitioning := some { kind := .range, fieldId := 1 }
  partitions := [{ name := "p", bound := .maxValue }]

/-- `2 ^ 54` is an integer the partition holds the equal double of: no points are told
of it, and the partition is left unread. -/
theorem pruning_loses_large_integer :
    ¬LosesNothing .plain oneDouble { kind := .range, fieldId := 1 } 0 .double [0] []
        [.integer 0x40000000000000] 0 [.integer 0x40000000000000] := by
  have hmatch : HoldsMatch oneDouble { kind := .range, fieldId := 1 } .double
      (.integer 0x40000000000000) 0 := by
    refine ⟨.double 0x4350000000000000, trivial, ?_, rfl⟩
    rw [sqlEqual]
    decide +kernel
  intro h
  have hskipped : (oneDouble.keepMatching [0] [] 0 [.integer 0x40000000000000])[0]? =
      some true := by decide +kernel
  exact h.keepMatching 0 0 0 rfl (fun _ => ⟨_, List.mem_singleton_self _, hmatch⟩) (by simp)
    hskipped

end SquealDb.Sql
