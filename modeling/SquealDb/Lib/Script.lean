import SquealDb.Lib.Overlay

/-!
# Programs over a keyed store

A program that reads and writes a store key by key, draws numbers from named sequences and
selects rows, and may fail at any step. `Ensures` is what holds of the rows the program sees
once it has succeeded, whatever the numbers drawn and the rows selected; a program that fails
promises nothing.
-/

namespace SquealDb.Lib

universe u

/-- A program of calls to a store. -/
inductive Script (κ δ ν ε α : Type u) : Type u where
  | done (result : Except ε α)
  | find (key : κ) (next : Bool → Script κ δ ν ε α)
  | insert (key : κ) (data : δ) (next : Script κ δ ν ε α)
  | update (key : κ) (data : δ) (next : Script κ δ ν ε α)
  | remove (key : κ) (next : Script κ δ ν ε α)
  | genKey (name : ν) (next : UInt64 → Script κ δ ν ε α)
  | select (on : κ → Bool) (next : List (κ × δ) → Script κ δ ν ε α)

/-- The rows are of the keys selected, and each is there once. -/
structure Selects {κ δ : Type*} (on : κ → Bool) (m : κ → Option δ) (rows : List (κ × δ)) :
    Prop where
  on : ∀ row ∈ rows, on row.1 = true
  there : ∀ row ∈ rows, m row.1 = some row.2
  once : (rows.map Prod.fst).Nodup

instance {κ δ : Type*} [DecidableEq κ] [DecidableEq δ] (on : κ → Bool) (m : κ → Option δ)
    (rows : List (κ × δ)) : Decidable (Selects on m rows) :=
  decidable_of_iff ((∀ row ∈ rows, on row.1 = true) ∧ (∀ row ∈ rows, m row.1 = some row.2) ∧
      (rows.map Prod.fst).Nodup)
    ⟨fun h => ⟨h.1, h.2.1, h.2.2⟩, fun h => ⟨h.on, h.there, h.once⟩⟩

namespace Script

variable {κ δ ν ε α β : Type u}

/-- A program that selects rows is given some of those that it asks for. -/
def Answered (m : κ → Option δ) (rows : List (κ × δ)) : Script κ δ ν ε α → Prop
  | select on _ => Selects on m rows
  | _ => True

instance [DecidableEq κ] [DecidableEq δ] (m : κ → Option δ) (rows : List (κ × δ)) :
    DecidablePred (Answered m rows : Script κ δ ν ε α → Prop) := fun s => by
  cases s with
  | select on next => exact inferInstanceAs (Decidable (Selects on m rows))
  | done result => exact .isTrue trivial
  | find key next => exact .isTrue trivial
  | insert key data next => exact .isTrue trivial
  | update key data next => exact .isTrue trivial
  | remove key next => exact .isTrue trivial
  | genKey name next => exact .isTrue trivial

/-- One program after another. -/
protected def bind : Script κ δ ν ε α → (α → Script κ δ ν ε β) → Script κ δ ν ε β
  | done (.ok a), f => f a
  | done (.error e), _ => done (.error e)
  | find key next, f => find key fun b => (next b).bind f
  | insert key data next, f => insert key data (next.bind f)
  | update key data next, f => update key data (next.bind f)
  | remove key next, f => remove key (next.bind f)
  | genKey name next, f => genKey name fun n => (next n).bind f
  | select on next, f => select on fun rows => (next rows).bind f

instance : Monad (Script κ δ ν ε) where
  pure a := done (.ok a)
  bind := Script.bind

/-- A step that calls no store. -/
def ofExcept (r : Except ε α) : Script κ δ ν ε α := done r

/-- One insert. -/
def put (key : κ) (data : δ) : Script κ δ ν ε PUnit := insert key data (done (.ok ⟨⟩))

/-- One row replaced. -/
def replace (key : κ) (data : δ) : Script κ δ ν ε PUnit := update key data (done (.ok ⟨⟩))

/-- One removal. -/
def drop (key : κ) : Script κ δ ν ε PUnit := remove key (done (.ok ⟨⟩))

/-- Inserts, one after another. -/
def insertAll : List (κ × δ) → Script κ δ ν ε PUnit
  | [] => done (.ok ⟨⟩)
  | (key, data) :: rest => insert key data (insertAll rest)

/-- Removals, one after another. -/
def removeAll : List κ → Script κ δ ν ε PUnit
  | [] => done (.ok ⟨⟩)
  | key :: rest => remove key (removeAll rest)

variable [DecidableEq κ]

/-- What holds of the result and of the rows seen once the program has succeeded. -/
def Ensures (post : α → (κ → Option δ) → Prop) : Script κ δ ν ε α → (κ → Option δ) → Prop
  | done (.ok a), m => post a m
  | done (.error _), _ => True
  | find key next, m => Ensures post (next (m key).isSome) m
  | insert key data next, m => m key = none → Ensures post next (Function.update m key (some data))
  | update key data next, m => m key ≠ none → Ensures post next (Function.update m key (some data))
  | remove key next, m => m key ≠ none → Ensures post next (Function.update m key none)
  | genKey _ next, m => ∀ n, Ensures post (next n) m
  | select on next, m => ∀ rows, Selects on m rows → Ensures post (next rows) m

variable {post : α → (κ → Option δ) → Prop}

variable {m : κ → Option δ}

/-- A weaker promise. -/
theorem Ensures.mono {post' : α → (κ → Option δ) → Prop} {s : Script κ δ ν ε α}
    (h : Ensures post s m) (himp : ∀ a m, post a m → post' a m) :
    Ensures post' s m := by
  induction s generalizing m with
  | done r =>
    cases r with
    | ok a => exact himp a m h
    | error e => trivial
  | find key next ih => exact ih _ h
  | insert key data next ih => exact fun hnone => ih (h hnone)
  | update key data next ih => exact fun hsome => ih (h hsome)
  | remove key next ih => exact fun hsome => ih (h hsome)
  | genKey name next ih => exact fun n => ih n (h n)
  | select on next ih => exact fun rows hrows => ih rows (h rows hrows)

theorem ensures_bind {post : β → (κ → Option δ) → Prop} {s : Script κ δ ν ε α}
    {f : α → Script κ δ ν ε β} (h : Ensures (fun a m => Ensures post (f a) m) s m) :
    Ensures post (s >>= f) m := by
  show Ensures post (s.bind f) m
  induction s generalizing m with
  | done r =>
    cases r with
    | ok a => exact h
    | error e => trivial
  | find key next ih => exact ih _ h
  | insert key data next ih => exact fun hnone => ih (h hnone)
  | update key data next ih => exact fun hsome => ih (h hsome)
  | remove key next ih => exact fun hsome => ih (h hsome)
  | genKey name next ih => exact fun n => ih n (h n)
  | select on next ih => exact fun rows hrows => ih rows (h rows hrows)

theorem ensures_pure {a : α} (h : post a m) :
    Ensures post (pure a : Script κ δ ν ε α) m := h

theorem ensures_ofExcept {r : Except ε α} (h : ∀ a, r = .ok a → post a m) :
    Ensures post (ofExcept r : Script κ δ ν ε α) m := by
  cases r with
  | ok a => exact h a rfl
  | error e => trivial

end Script

/-! ## Keys that come and go -/

variable {κ δ : Type*}

/-- Rows of keys that were not there come to a map. -/
structure Joins (rows : List (κ × δ)) (m m' : κ → Option δ) : Prop where
  once : (rows.map Prod.fst).Nodup
  fresh : ∀ row ∈ rows, m row.1 = none
  added : ∀ row ∈ rows, m' row.1 = some row.2
  kept : ∀ key, key ∉ rows.map Prod.fst → m' key = m key

/-- Keys that were there go from a map. -/
structure Leaves (keys : List κ) (m m' : κ → Option δ) : Prop where
  there : ∀ key ∈ keys, m key ≠ none
  gone : ∀ key ∈ keys, m' key = none
  kept : ∀ key, key ∉ keys → m' key = m key

namespace Joins

theorem nil (m : κ → Option δ) : Joins [] m m :=
  ⟨List.nodup_nil, nofun, nofun, fun _ _ => rfl⟩

variable {m m' : κ → Option δ} {rows : List (κ × δ)}

theorem single [DecidableEq κ] {key : κ} (data : δ) (h : m key = none) :
    Joins [(key, data)] m (Function.update m key (some data)) := by
  constructor
  · exact List.nodup_cons.mpr ⟨List.not_mem_nil, List.nodup_nil⟩
  · intro row hrow
    rw [List.mem_singleton.mp hrow]
    exact h
  · intro row hrow
    rw [List.mem_singleton.mp hrow, Function.update_self]
  · intro other hother
    exact Function.update_of_ne (fun heq => hother (List.mem_singleton.mpr heq)) _ _

theorem append {more : List (κ × δ)} {m'' : κ → Option δ} (h : Joins rows m m')
    (h' : Joins more m' m'') : Joins (rows ++ more) m m'' := by
  have hapart : ∀ row ∈ more, row.1 ∉ rows.map Prod.fst := by
    intro row hrow hmem
    obtain ⟨old, hold, heq⟩ := List.mem_map.mp hmem
    have hnone := h'.fresh row hrow
    rw [← heq, h.added old hold] at hnone
    cases hnone
  constructor
  · rw [List.map_append]
    refine List.nodup_append.mpr ⟨h.once, h'.once, ?_⟩
    intro key hkey other hother heq
    obtain ⟨row, hrow, rfl⟩ := List.mem_map.mp hother
    exact hapart row hrow (heq ▸ hkey)
  · intro row hrow
    rcases List.mem_append.mp hrow with hrow | hrow
    · exact h.fresh row hrow
    · rw [← h.kept row.1 (hapart row hrow)]
      exact h'.fresh row hrow
  · intro row hrow
    rcases List.mem_append.mp hrow with hrow | hrow
    · have hnot : row.1 ∉ more.map Prod.fst := by
        intro hmem
        obtain ⟨new, hnew, heq⟩ := List.mem_map.mp hmem
        exact hapart new hnew (heq ▸ List.mem_map_of_mem hrow)
      rw [h'.kept row.1 hnot]
      exact h.added row hrow
    · exact h'.added row hrow
  · intro key hkey
    rw [List.map_append, List.mem_append, not_or] at hkey
    rw [h'.kept key hkey.2, h.kept key hkey.1]

theorem perm {rows' : List (κ × δ)} (h : Joins rows m m') (hperm : rows'.Perm rows) :
    Joins rows' m m' := by
  constructor
  · exact (hperm.map Prod.fst).nodup_iff.mpr h.once
  · exact fun row hrow => h.fresh row (hperm.mem_iff.mp hrow)
  · exact fun row hrow => h.added row (hperm.mem_iff.mp hrow)
  · exact fun key hkey => h.kept key fun hmem => hkey ((hperm.map Prod.fst).mem_iff.mpr hmem)

theorem eq_joined [DecidableEq κ] (h : Joins rows m m') :
    m' = joined (restricted (rows.map Prod.fst) m') m := by
  funext key
  unfold joined restricted
  by_cases hkey : key ∈ rows.map Prod.fst
  · obtain ⟨row, hrow, rfl⟩ := List.mem_map.mp hkey
    rw [if_pos hkey, h.added row hrow, Option.some_or]
  · rw [if_neg hkey, Option.none_or, h.kept key hkey]

/-- What is at a row's key afterwards. -/
theorem restricted_eq [DecidableEq κ] (h : Joins rows m m') {key : κ} {data : δ} :
    restricted (rows.map Prod.fst) m' key = some data ↔ (key, data) ∈ rows := by
  constructor
  · intro hsome
    obtain ⟨hmem, hdata⟩ := restricted_eq_some hsome
    obtain ⟨row, hrow, rfl⟩ := List.mem_map.mp hmem
    rw [h.added row hrow] at hdata
    rw [← Option.some.inj hdata]
    exact hrow
  · intro hrow
    rw [restricted, if_pos (List.mem_map_of_mem hrow)]
    exact h.added (key, data) hrow

/-- What was there stays. -/
theorem of_some (h : Joins rows m m') {key : κ} {data : δ} (hthere : m key = some data) :
    m' key = some data := by
  rw [h.kept key ?_, hthere]
  intro hmem
  obtain ⟨row, hrow, rfl⟩ := List.mem_map.mp hmem
  rw [h.fresh row hrow] at hthere
  cases hthere

end Joins

namespace Leaves

theorem nil (m : κ → Option δ) : Leaves [] m m := ⟨nofun, nofun, fun _ _ => rfl⟩

variable {m : κ → Option δ}

theorem single [DecidableEq κ] {key : κ} (h : m key ≠ none) :
    Leaves [key] m (Function.update m key none) := by
  constructor
  · intro other hother
    rw [List.mem_singleton.mp hother]
    exact h
  · intro other hother
    rw [List.mem_singleton.mp hother, Function.update_self]
  · intro other hother
    exact Function.update_of_ne (fun heq => hother (List.mem_singleton.mpr heq)) _ _

theorem append {keys more : List κ} {m' m'' : κ → Option δ} (h : Leaves keys m m')
    (h' : Leaves more m' m'') : Leaves (keys ++ more) m m'' := by
  have hapart : ∀ key ∈ more, key ∉ keys := fun key hkey hmem => h'.there key hkey (h.gone key hmem)
  constructor
  · intro key hkey
    rcases List.mem_append.mp hkey with hkey | hkey
    · exact h.there key hkey
    · rw [← h.kept key (hapart key hkey)]
      exact h'.there key hkey
  · intro key hkey
    rcases List.mem_append.mp hkey with hkey | hkey
    · rw [h'.kept key fun hmem => hapart key hmem hkey]
      exact h.gone key hkey
    · exact h'.gone key hkey
  · intro key hkey
    rw [List.mem_append, not_or] at hkey
    rw [h'.kept key hkey.2, h.kept key hkey.1]

theorem eq_without [DecidableEq κ] {keys : List κ} {m' : κ → Option δ} (h : Leaves keys m m') :
    m' = without (restricted keys m) m := by
  funext key
  unfold without restricted
  by_cases hkey : key ∈ keys
  · rw [if_pos hkey, if_neg (h.there key hkey), h.gone key hkey]
  · rw [if_neg hkey, if_pos rfl, h.kept key hkey]

end Leaves

namespace Script

variable {κ δ ν ε : Type u} [DecidableEq κ] {post : PUnit → (κ → Option δ) → Prop}

variable {m : κ → Option δ}

theorem ensures_put {key : κ} {data : δ} (h : ∀ m', Joins [(key, data)] m m' → post ⟨⟩ m') :
    Ensures post (put key data : Script κ δ ν ε PUnit) m :=
  fun hnone => h _ (Joins.single data hnone)

theorem ensures_drop {key : κ} (h : ∀ m', Leaves [key] m m' → post ⟨⟩ m') :
    Ensures post (drop key : Script κ δ ν ε PUnit) m :=
  fun hthere => h _ (Leaves.single hthere)

/-- Inserts that go through are all of keys that were not there, none of them twice. -/
theorem ensures_insertAll (rows : List (κ × δ)) (h : ∀ m', Joins rows m m' → post ⟨⟩ m') :
    Ensures post (insertAll rows : Script κ δ ν ε PUnit) m := by
  induction rows generalizing m with
  | nil => exact h m (Joins.nil m)
  | cons row rest ih =>
    intro hnone
    exact ih fun m' hrest => h m' ((Joins.single row.2 hnone).append hrest)

/-- Removals that go through are all of keys that were there. -/
theorem ensures_removeAll (keys : List κ) (h : ∀ m', Leaves keys m m' → post ⟨⟩ m') :
    Ensures post (removeAll keys : Script κ δ ν ε PUnit) m := by
  induction keys generalizing m with
  | nil => exact h m (Leaves.nil m)
  | cons key rest ih =>
    intro hthere
    exact ih fun m' hrest => h m' ((Leaves.single hthere).append hrest)

end Script

end SquealDb.Lib
