import SquealDb.Doc.JsonRoundTrip
import SquealDb.Doc.Update

/-!
# The field names that updates make

A value in which no document has two fields of one name, and every name is allowed, stays so as
operators set, rename, push and remove within it, if the names that their paths and their
arguments bring are allowed as well.
-/

namespace SquealDb.Doc

open Lib

/-- No two fields of one name, and every name is allowed. -/
def Value.Named (allowed : String → Prop) : Value → Prop
  | .document fields => (fields.map (·.1)).Nodup ∧ ∀ f ∈ fields, allowed f.1
  | _ => True

/-- So it is with every document in the value. -/
abbrev Value.AllNamed (allowed : String → Prop) (v : Value) : Prop := v.Every (Value.Named allowed)

/-- A name that a stored document may use. -/
def PlainName (name : String) : Prop := name.toList.head? ≠ some '$'

instance : DecidablePred PlainName := fun name =>
  inferInstanceAs (Decidable (name.toList.head? ≠ some '$'))

variable {allowed : String → Prop} {doc : Document}

/-! ## Fields -/

variable {key : String} {v : Value} {items : List Value} {parts : List String} {after : Document}

theorem Document.get_mem (h : doc.get key = some v) :
    (key, v) ∈ doc := by
  obtain ⟨field, hfind, rfl⟩ := Option.map_eq_some_iff.mp h
  have hkey : field.1 = key := by simpa using List.find?_some hfind
  rw [← hkey]
  exact List.mem_of_find?_eq_some hfind

theorem Document.mem_names_of_get (h : doc.get key = some v) :
    key ∈ doc.map (·.1) :=
  List.mem_map.mpr ⟨(key, v), Document.get_mem h, rfl⟩

/-- A field that is set keeps its place, or comes last. -/
theorem Document.insert_names (doc : Document) (key : String) (v : Value) :
    (doc.insert key v).map (·.1) =
      if key ∈ doc.map (·.1) then doc.map (·.1) else doc.map (·.1) ++ [key] := by
  induction doc with
  | nil => rfl
  | cons field rest ih =>
    rw [Document.insert]
    by_cases hkey : field.1 = key
    · simp [hkey]
    · have hne : (field.1 == key) = false := beq_eq_false_iff_ne.mpr hkey
      rw [hne]
      simp only [Bool.false_eq_true, if_false, List.map_cons, ih, List.mem_cons,
        Ne.symm hkey, false_or]
      split <;> rfl

theorem Document.mem_insert {field : String × Value} (h : field ∈ doc.insert key v) :
    field ∈ doc ∨ field.2 = v := by
  induction doc with
  | nil =>
    rw [List.mem_singleton.mp h]
    exact Or.inr rfl
  | cons first rest ih =>
    rw [Document.insert] at h
    split at h
    · rcases List.mem_cons.mp h with rfl | hrest
      · exact Or.inr rfl
      · exact Or.inl (List.mem_cons_of_mem _ hrest)
    · rcases List.mem_cons.mp h with rfl | hrest
      · exact Or.inl List.mem_cons_self
      · rcases ih hrest with hmem | hv
        · exact Or.inl (List.mem_cons_of_mem _ hmem)
        · exact Or.inr hv

theorem Document.remove_sublist (doc : Document) (key : String) : (doc.remove key).Sublist doc :=
  List.eraseP_sublist

theorem named_insert (h : (Value.document doc).AllNamed allowed) (hv : v.AllNamed allowed)
    (hkey : key ∈ doc.map (·.1) ∨ allowed key) :
    (Value.document (doc.insert key v)).AllNamed allowed := by
  obtain ⟨hnodup, hallowed⟩ := h.here
  have hnames := Document.insert_names doc key v
  refine .document ⟨?_, fun f hf => ?_⟩ fun f hf => ?_
  · rw [hnames]
    split
    · exact hnodup
    · next hnew => exact List.nodup_append.mpr ⟨hnodup, List.nodup_singleton key, by
        intro a ha b hb hab
        rw [List.mem_singleton.mp hb] at hab
        exact hnew (hab ▸ ha)⟩
  · have hmem : f.1 ∈ (doc.insert key v).map (·.1) := List.mem_map_of_mem hf
    have hold : ∀ name ∈ doc.map (·.1), allowed name := by
      intro name hname
      obtain ⟨f', hf', rfl⟩ := List.mem_map.mp hname
      exact hallowed f' hf'
    rw [hnames] at hmem
    split at hmem
    · exact hold f.1 hmem
    · next hnew =>
        rcases List.mem_append.mp hmem with hmem | hmem
        · exact hold f.1 hmem
        · rw [List.mem_singleton.mp hmem]
          exact hkey.resolve_left hnew
  · rcases Document.mem_insert hf with hf | hf
    · exact h.ofFields f hf
    · rw [hf]
      exact hv

theorem named_sublist {doc' : Document} (h : (Value.document doc).AllNamed allowed)
    (hsub : doc'.Sublist doc) : (Value.document doc').AllNamed allowed :=
  .document ⟨h.here.1.sublist (hsub.map _), fun f hf => h.here.2 f (hsub.subset hf)⟩
    fun f hf => h.ofFields f (hsub.subset hf)

theorem named_get (h : (Value.document doc).AllNamed allowed) (hget : doc.get key = some v) :
    v.AllNamed allowed :=
  h.ofFields (key, v) (Document.get_mem hget)

theorem named_items :
    (Value.array items).AllNamed allowed ↔ ∀ v ∈ items, v.AllNamed allowed :=
  ⟨Value.Every.ofItems, Value.Every.array trivial⟩

theorem named_leaf (h : v.Leaf) : v.AllNamed allowed := by
  refine h.every ?_
  cases v with
  | document fields => exact absurd rfl (h.2 fields)
  | _ => trivial

theorem named_empty : (Value.document []).AllNamed allowed :=
  .document ⟨List.nodup_nil, by simp⟩ (by simp)

theorem named_opened (h : v.AllNamed allowed) :
    (opened v).AllNamed allowed := by
  cases v with
  | null => exact named_empty
  | _ => exact h

theorem named_of_mem_append_nulls {n : Nat} (h : ∀ v ∈ items, v.AllNamed allowed) :
    ∀ v ∈ items ++ List.replicate n Value.null, v.AllNamed allowed := by
  intro v hv
  rcases List.mem_append.mp hv with hv | hv
  · exact h v hv
  · rw [List.eq_of_mem_replicate hv]
    exact named_leaf ⟨by simp, by simp⟩

theorem named_getD {i : Nat} (h : ∀ v ∈ items, v.AllNamed allowed) :
    (items.getD i .null).AllNamed allowed := by
  rw [List.getD_eq_getElem?_getD]
  cases hget : items[i]? with
  | none => exact named_leaf ⟨nofun, nofun⟩
  | some v => exact h v (List.mem_of_getElem? hget)

theorem named_set {i : Nat} (h : ∀ v ∈ items, v.AllNamed allowed) (hv : v.AllNamed allowed) :
    (Value.array (items.set i v)).AllNamed allowed := by
  refine named_items.mpr fun w hw => ?_
  rcases List.mem_or_eq_of_mem_set hw with hw | rfl
  · exact h w hw
  · exact hv

/-! ## Paths -/

variable {display : Value → String} {path : String}

theorem isSome_opened (h : (parts.foldlM stepInto v).isSome = true) :
    (parts.foldlM stepInto (opened v)).isSome = true := by
  cases v with
  | null =>
    cases parts with
    | nil => rfl
    | cons part rest => cases h
  | _ => exact h

/-- What is set along a path whose parts are allowed, or that leads to a value already. -/
theorem setInValue_named {value : Value} (hvalue : value.AllNamed allowed) {after : Value}
    (hv : v.AllNamed allowed)
    (hparts : (∀ part ∈ parts, allowed part) ∨ (parts.foldlM stepInto v).isSome = true)
    (h : setInValue display path value parts v = .ok after) : after.AllNamed allowed := by
  induction parts generalizing v after with
  | nil =>
    rw [← Except.ok.inj h]
    exact hvalue
  | cons part rest ih =>
    have hrest : ∀ w, stepInto v part = some w ∨ (∀ p ∈ part :: rest, allowed p) →
        (∀ p ∈ rest, allowed p) ∨ (rest.foldlM stepInto w).isSome = true := by
      rintro w (hw | hall)
      · rcases hparts with hall | hsome
        · exact Or.inl fun p hp => hall p (List.mem_cons_of_mem _ hp)
        · rw [List.foldlM_cons, hw] at hsome
          exact Or.inr hsome
      · exact Or.inl fun p hp => hall p (List.mem_cons_of_mem _ hp)
    cases v with
    | document d =>
      rw [setInValue] at h
      obtain ⟨inner, hinner, hafter⟩ := bind_ok_iff.mp h
      rw [← Except.ok.inj hafter]
      cases hget : Document.get d part with
      | none =>
        have hall : ∀ p ∈ part :: rest, allowed p := by
          rcases hparts with hall | hsome
          · exact hall
          · rw [List.foldlM_cons, stepInto, hget] at hsome
            cases hsome
        rw [hget] at hinner
        exact named_insert hv (ih named_empty (hrest _ (Or.inr hall)) hinner)
          (Or.inr (hall part List.mem_cons_self))
      | some w =>
        rw [hget] at hinner
        exact named_insert hv (ih (named_get hv hget) (hrest w (Or.inl hget)) hinner)
          (Or.inl (Document.mem_names_of_get hget))
    | array items =>
      rw [setInValue] at h
      split at h
      · cases h
      · next i hi =>
          obtain ⟨inner, hinner, hafter⟩ := bind_ok_iff.mp h
          rw [← Except.ok.inj hafter]
          have hitems := named_of_mem_append_nulls (n := i + 1 - items.length)
            (named_items.mp hv)
          have hopened := named_opened (named_getD (i := i) hitems)
          refine named_set hitems (ih hopened ?_ hinner)
          rcases hparts with hall | hsome
          · exact Or.inl fun p hp => hall p (List.mem_cons_of_mem _ hp)
          · rw [List.foldlM_cons, stepInto, numbered, hi] at hsome
            cases hget : items[i]? with
            | none =>
              rw [Option.bind_some, hget] at hsome
              cases hsome
            | some w =>
              rw [Option.bind_some, hget] at hsome
              have hlt : i < items.length := (List.getElem?_eq_some_iff.mp hget).1
              rw [List.getD_eq_getElem?_getD, List.getElem?_append_left hlt, hget]
              exact Or.inr (isSome_opened hsome)
    | null => cases h
    | bool b => cases h
    | int i => cases h
    | double d => cases h
    | string s => cases h
    | objectId id => cases h
    | date ms => cases h

theorem setPath_named {value : Value} (hvalue : value.AllNamed allowed)
    (hdoc : (Value.document doc).AllNamed allowed)
    (hparts : (∀ part ∈ splitPath path, allowed part) ∨ (getPath doc path).isSome = true)
    (h : setPath display doc path value = .ok after) :
    (Value.document after).AllNamed allowed := by
  unfold setPath at h
  split at h
  · next set hset =>
      rw [← Except.ok.inj h]
      exact setInValue_named hvalue hdoc hparts hset
  · cases h
  · cases h

theorem foldlM_stepInto_named {w : Value} (hv : v.AllNamed allowed)
    (h : parts.foldlM stepInto v = some w) : w.AllNamed allowed := by
  induction parts generalizing v with
  | nil =>
    rw [← Option.some.inj h]
    exact hv
  | cons part rest ih =>
    rw [List.foldlM_cons] at h
    obtain ⟨x, hx, hrest⟩ := Option.bind_eq_some_iff.mp h
    refine ih ?_ hrest
    cases v with
    | document d => exact named_get hv hx
    | array items =>
      obtain ⟨i, -, hget⟩ := Option.bind_eq_some_iff.mp hx
      exact named_items.mp hv x (List.mem_of_getElem? hget)
    | _ => cases hx

theorem getPath_named (hdoc : (Value.document doc).AllNamed allowed)
    (h : getPath doc path = some v) : v.AllNamed allowed :=
  foldlM_stepInto_named hdoc h

/-- What is removed along a path, and what is left. -/
theorem unsetIn_named {old after : Value} (hv : v.AllNamed allowed)
    (h : unsetIn parts v = some (old, after)) :
    old.AllNamed allowed ∧ after.AllNamed allowed := by
  induction parts generalizing v old after with
  | nil => cases h
  | cons part rest ih =>
    cases v with
    | document d =>
      cases rest with
      | nil =>
        rw [unsetIn] at h
        obtain ⟨w, hget, heq⟩ := Option.map_eq_some_iff.mp h
        cases heq
        exact ⟨named_get hv hget, named_sublist hv (Document.remove_sublist d part)⟩
      | cons next rest =>
        rw [unsetIn] at h
        · obtain ⟨w, hget, hrest⟩ := Option.bind_eq_some_iff.mp h
          obtain ⟨r, hunset, heq⟩ := Option.map_eq_some_iff.mp hrest
          cases heq
          obtain ⟨hold, hleft⟩ := ih (named_get hv hget) hunset
          exact ⟨hold, named_insert hv hleft (Or.inl (Document.mem_names_of_get hget))⟩
        · exact List.cons_ne_nil next rest
    | array items =>
      have hitems := named_items.mp hv
      cases rest with
      | nil =>
        rw [unsetIn] at h
        obtain ⟨i, -, hget⟩ := Option.bind_eq_some_iff.mp h
        obtain ⟨w, hw, heq⟩ := Option.map_eq_some_iff.mp hget
        cases heq
        exact ⟨hitems _ (List.mem_of_getElem? hw),
          named_set hitems (named_leaf ⟨by simp, by simp⟩)⟩
      | cons next rest =>
        rw [unsetIn] at h
        · obtain ⟨i, -, hget⟩ := Option.bind_eq_some_iff.mp h
          obtain ⟨w, hw, hrest⟩ := Option.bind_eq_some_iff.mp hget
          obtain ⟨r, hunset, heq⟩ := Option.map_eq_some_iff.mp hrest
          cases heq
          obtain ⟨hold, hleft⟩ := ih (hitems w (List.mem_of_getElem? hw)) hunset
          exact ⟨hold, named_set hitems hleft⟩
        · exact List.cons_ne_nil next rest
    | null => cases rest <;> cases h
    | bool b => cases rest <;> cases h
    | int i => cases rest <;> cases h
    | double d => cases rest <;> cases h
    | string s => cases rest <;> cases h
    | objectId id => cases rest <;> cases h
    | date ms => cases rest <;> cases h

theorem unsetPath_named {old : Value} (hdoc : (Value.document doc).AllNamed allowed)
    (h : unsetPath doc path = some (old, after)) :
    old.AllNamed allowed ∧ (Value.document after).AllNamed allowed := by
  unfold unsetPath at h
  split at h
  · next w d hunset =>
      cases h
      exact unsetIn_named hdoc hunset
  · cases h

/-! ## Operators -/

/-- The names that an operator brings into a document that is there: along its path and in its
argument, or along the path that a field is renamed to. -/
def Change.Brings (allowed : String → Prop) : Change → Prop
  | (.set, path, arg) | (.min, path, arg) | (.max, path, arg) =>
    (∀ part ∈ splitPath path, allowed part) ∧ arg.AllNamed allowed
  | (.push, path, arg) | (.addToSet, path, arg) =>
    (∀ part ∈ splitPath path, allowed part) ∧ ∀ item ∈ each arg, item.AllNamed allowed
  | (.inc, path, _) | (.mul, path, _) | (.currentDate, path, _) =>
    ∀ part ∈ splitPath path, allowed part
  | (.rename, _, .string target) => ∀ part ∈ splitPath target, allowed part
  | _ => True

variable {env : Setting}

theorem named_number (h : isNumber v = true) : v.AllNamed allowed := by
  cases v with
  | int i => exact named_leaf ⟨by simp, by simp⟩
  | double d => exact named_leaf ⟨by simp, by simp⟩
  | _ => cases h

theorem checked_named {n : Int} (h : checked n = .ok v) : v.AllNamed allowed := by
  unfold checked at h
  split at h
  · rw [← Except.ok.inj h]
    exact named_leaf ⟨by simp, by simp⟩
  · cases h

theorem incremented_named {op : Op} {arg : Value} (h : incremented env doc op path arg = .ok v) :
    v.AllNamed allowed := by
  have harith : ∀ a b v, arithmetic env a b op = .ok v → v.AllNamed allowed := by
    intro a b v hv
    unfold arithmetic at hv
    split at hv
    · exact checked_named hv
    · rw [← Except.ok.inj hv]
      exact named_leaf ⟨nofun, nofun⟩
  unfold incremented at h
  split at h
  · cases h
  · next harg =>
      split at h
      · rw [← Except.ok.inj h]
        split
        · exact named_number (by simpa using harg)
        · cases arg <;> exact named_leaf ⟨nofun, nofun⟩
      · split at h
        · exact harith _ _ _ h
        · cases h

theorem changeArray_named {change : List Value → List Value}
    (hdoc : (Value.document doc).AllNamed allowed)
    (hparts : (∀ part ∈ splitPath path, allowed part) ∨ (getPath doc path).isSome = true)
    (hchange : ∀ items, (∀ v ∈ items, v.AllNamed allowed) → ∀ v ∈ change items, v.AllNamed allowed)
    (h : changeArray env doc path change = .ok after) :
    (Value.document after).AllNamed allowed := by
  unfold changeArray at h
  obtain ⟨d, hd, h⟩ := bind_ok_iff.mp h
  have hnamed : (Value.document d).AllNamed allowed := by
    unfold ensureArray at hd
    cases hget : getPath doc path with
    | none =>
      rw [hget] at hd hparts
      have hempty : (Value.array []).AllNamed allowed := named_items.mpr (by simp)
      exact setPath_named hempty hdoc (Or.inl (hparts.resolve_right Bool.false_ne_true)) hd
    | some v =>
      rw [hget] at hd
      rw [← Except.ok.inj hd]
      exact hdoc
  cases hget : getPath d path with
  | none =>
    rw [hget] at h
    cases h
  | some v =>
    rw [hget] at h
    cases v with
    | array items =>
      refine setPath_named (named_items.mpr (hchange items ?_)) hnamed (Or.inr ?_) h
      · exact named_items.mp (getPath_named hnamed hget)
      · rw [hget]
        rfl
    | _ => cases h

theorem addMissing_subset {new : List Value} (h : v ∈ addMissing items new) :
    v ∈ items ∨ v ∈ new := by
  induction new generalizing items with
  | nil => exact Or.inl h
  | cons item rest ih =>
    rw [addMissing, List.foldl_cons] at h
    rcases ih h with hmem | hmem
    · split at hmem
      · exact Or.inl hmem
      · rcases List.mem_append.mp hmem with hmem | hmem
        · exact Or.inl hmem
        · rw [List.mem_singleton.mp hmem]
          exact Or.inr List.mem_cons_self
    · exact Or.inr (List.mem_cons_of_mem _ hmem)

/-- Every operator keeps the names of a document allowed. -/
theorem applyOp_named {inserting : Bool} {change : Change} (hbrings : change.Brings allowed)
    (hinserting : inserting = true → ∀ path arg, change = (.setOnInsert, path, arg) →
      (∀ part ∈ splitPath path, allowed part) ∧ arg.AllNamed allowed)
    (hdoc : (Value.document doc).AllNamed allowed)
    (h : applyOp env inserting doc change = .ok after) :
    (Value.document after).AllNamed allowed := by
  obtain ⟨op, path, arg⟩ := change
  cases op with
  | set => exact setPath_named hbrings.2 hdoc (Or.inl hbrings.1) h
  | setOnInsert =>
    rw [applyOp] at h
    split at h
    · next hyes =>
        obtain ⟨hpath, harg⟩ := hinserting hyes path arg rfl
        exact setPath_named harg hdoc (Or.inl hpath) h
    · rw [← Except.ok.inj h]
      exact hdoc
  | unset =>
    rw [applyOp] at h
    rw [← Except.ok.inj h]
    cases hunset : unsetPath doc path with
    | none => exact hdoc
    | some r => exact (unsetPath_named hdoc hunset).2
  | currentDate =>
    have hdate : (Value.date env.now).AllNamed allowed := named_leaf ⟨nofun, nofun⟩
    exact setPath_named hdate hdoc (Or.inl hbrings) h
  | inc =>
    obtain ⟨v, hv, hset⟩ := bind_ok_iff.mp h
    exact setPath_named (incremented_named hv) hdoc (Or.inl hbrings) hset
  | mul =>
    obtain ⟨v, hv, hset⟩ := bind_ok_iff.mp h
    exact setPath_named (incremented_named hv) hdoc (Or.inl hbrings) hset
  | min =>
    rw [applyOp] at h
    split at h
    · exact setPath_named hbrings.2 hdoc (Or.inl hbrings.1) h
    · rw [← Except.ok.inj h]
      exact hdoc
  | max =>
    rw [applyOp] at h
    split at h
    · exact setPath_named hbrings.2 hdoc (Or.inl hbrings.1) h
    · rw [← Except.ok.inj h]
      exact hdoc
  | rename =>
    cases arg with
    | string target =>
      rw [applyOp] at h
      split at h
      · rw [← Except.ok.inj h]
        exact hdoc
      · next v left hunset =>
          obtain ⟨hv, hleft⟩ := unsetPath_named hdoc hunset
          exact setPath_named hv hleft (Or.inl hbrings) h
    | _ => cases h
  | push =>
    refine changeArray_named hdoc (Or.inl hbrings.1) (fun items hitems v hv => ?_) h
    rcases List.mem_append.mp hv with hv | hv
    · exact hitems v hv
    · exact hbrings.2 v hv
  | addToSet =>
    refine changeArray_named hdoc (Or.inl hbrings.1) (fun items hitems v hv => ?_) h
    rcases addMissing_subset hv with hv | hv
    · exact hitems v hv
    · exact hbrings.2 v hv
  | pull =>
    rw [applyOp] at h
    split at h
    · rw [← Except.ok.inj h]
      exact hdoc
    · next items hget =>
        obtain ⟨remove, -, hset⟩ := bind_ok_iff.mp h
        have hitems := named_items.mp (getPath_named hdoc hget)
        refine setPath_named (named_items.mpr fun v hv => ?_) hdoc (Or.inr ?_) hset
        · exact hitems v (List.mem_filter.mp hv).1
        · rw [hget]
          rfl
    · cases h
  | pop =>
    rw [applyOp] at h
    split at h
    · rw [← Except.ok.inj h]
      exact hdoc
    · next hthere =>
        obtain ⟨first, -, hchange⟩ := bind_ok_iff.mp h
        refine changeArray_named hdoc (Or.inr ?_) (fun items hitems v hv => hitems v ?_) hchange
        · rw [Option.isNone_iff_eq_none] at hthere
          exact Option.isSome_iff_ne_none.mpr hthere
        · split at hv
          · exact List.mem_of_mem_tail hv
          · exact (List.dropLast_sublist items).subset hv

/-! ## What is parsed -/

section Parsed

variable {p : Value → Prop}

theorem each_every {arg : Value} (h : arg.Every p) : ∀ item ∈ each arg, item.Every p := by
  unfold each
  split
  · next items => exact (h.ofFields ("$each", .array items) List.mem_cons_self).ofItems
  · intro item hitem
    rw [List.mem_singleton.mp hitem]
    exact h

theorem fieldsOf_every {name : String} {op : Op} {fields : List (String × Value)}
    {changes : List Change} (h : fieldsOf name op fields = .ok changes)
    (hfields : ∀ f ∈ fields, f.2.Every p) : ∀ c ∈ changes, c.2.2.Every p := by
  induction fields generalizing changes with
  | nil =>
    rw [← Except.ok.inj h]
    exact nofun
  | cons field rest ih =>
    rw [fieldsOf] at h
    split at h
    · cases h
    · obtain ⟨more, hmore, hchanges⟩ := bind_ok_iff.mp h
      rw [← Except.ok.inj hchanges]
      rw [List.forall_mem_cons] at hfields ⊢
      exact ⟨hfields.1, ih hmore hfields.2⟩

theorem operatorsOf_every {fields : Document} {changes : List Change}
    (h : operatorsOf fields = .ok changes) (hfields : ∀ f ∈ fields, f.2.Every p) :
    ∀ c ∈ changes, c.2.2.Every p := by
  induction fields generalizing changes with
  | nil =>
    rw [← Except.ok.inj h]
    exact nofun
  | cons field rest ih =>
    obtain ⟨name, args⟩ := field
    rw [List.forall_mem_cons] at hfields
    rw [operatorsOf] at h
    obtain ⟨op, -, h⟩ := bind_ok_iff.mp h
    cases args with
    | document inner =>
      obtain ⟨first, hfirst, h⟩ := bind_ok_iff.mp h
      obtain ⟨more, hmore, hchanges⟩ := bind_ok_iff.mp h
      rw [← Except.ok.inj hchanges]
      intro c hc
      rcases List.mem_append.mp hc with hc | hc
      · exact fieldsOf_every hfirst hfields.1.ofFields c hc
      · exact ih hmore hfields.2 c hc
    | _ => cases h

/-- The value of an equality is part of the filter. -/
def EqEvery {ext : Matching} (p : Value → Prop) (c : Cond ext) : Prop :=
  ∀ v, c = .eq v → v.Every p

variable {ext : Matching}

variable {v : Value} {c : Cond ext}

theorem parseOperator_every {options op : String} (h : parseOperator options path op v = .ok c)
    (hv : v.Every p) : EqEvery p c := by
  rintro w rfl
  have hnot : ∀ {α : Type} {r : Except OpError α} {f : α → Cond ext}, (∀ a, f a ≠ .eq w) →
      r.map f ≠ .ok (.eq w) := by
    intro α r f hf heq
    cases r with
    | error e => cases heq
    | ok a => exact hf a (Except.ok.inj heq)
  have hite : ∀ {q : Prop} [Decidable q] {a b : Except OpError (Cond ext)}, a ≠ .ok (.eq w) →
      b ≠ .ok (.eq w) → (if q then a else b) ≠ .ok (.eq w) :=
    fun ha hb => by split <;> assumption
  unfold parseOperator at h
  by_cases hop : op = "$eq"
  · rw [hop, if_neg (by decide), if_pos rfl] at h
    cases h
    exact hv
  · rw [if_neg hop] at h
    refine absurd h (hite ?_ ?_)
    · cases v with
      | string source => exact hnot fun _ => nofun
      | _ => nofun
    · iterate 9 refine hite (by first | exact hnot fun _ => nofun | nofun) ?_
      refine hite ?_ nofun
      split <;> nofun

theorem parseElemMatch_every (h : parseElemMatch path v = .ok c) : EqEvery p c := by
  cases v with
  | document inner =>
    rw [parseElemMatch] at h
    split at h
    · obtain ⟨options, -, h⟩ := bind_ok_iff.mp h
      obtain ⟨conds, -, hc⟩ := bind_ok_iff.mp h
      rw [← Except.ok.inj hc]
      exact fun _ => nofun
    · obtain ⟨parts, -, hc⟩ := bind_ok_iff.mp h
      rw [← Except.ok.inj hc]
      exact fun _ => nofun
  | _ => cases h

theorem parseNot_every (h : parseNot path v = .ok c) : EqEvery p c := by
  cases v with
  | document inner =>
    rw [parseNot] at h
    split at h
    · obtain ⟨options, -, h⟩ := bind_ok_iff.mp h
      obtain ⟨conds, -, hc⟩ := bind_ok_iff.mp h
      rw [← Except.ok.inj hc]
      exact fun _ => nofun
    · cases h
  | _ => cases h

theorem parseOperators_every {options : String} {fields : List (String × Value)}
    {conds : List (Cond ext)} (h : parseOperators options path fields = .ok conds)
    (hfields : ∀ f ∈ fields, f.2.Every p) : ∀ c ∈ conds, EqEvery p c := by
  induction fields generalizing conds with
  | nil =>
    rw [parseOperators] at h
    rw [← Except.ok.inj h]
    exact nofun
  | cons field rest ih =>
    obtain ⟨op, v⟩ := field
    rw [List.forall_mem_cons] at hfields
    rw [parseOperators] at h
    split at h
    · exact ih h hfields.2
    · obtain ⟨cond, hcond, h⟩ := bind_ok_iff.mp h
      obtain ⟨more, hmore, hconds⟩ := bind_ok_iff.mp h
      rw [← Except.ok.inj hconds, List.forall_mem_cons]
      refine ⟨?_, ih hmore hfields.2⟩
      split at hcond
      · exact parseElemMatch_every hcond
      · split at hcond
        · exact parseNot_every hcond
        · exact parseOperator_every hcond hfields.1

theorem parseConds_every {conds : List (Cond ext)} (h : parseConds path v = .ok conds)
    (hv : v.Every p) : ∀ c ∈ conds, EqEvery p c := by
  have hone : ∀ c ∈ [(Cond.eq v : Cond ext)], EqEvery p c := by
    intro c hc w heq
    rw [List.mem_singleton.mp hc] at heq
    cases heq
    exact hv
  cases v with
  | document d =>
    rw [parseConds] at h
    split at h
    · obtain ⟨options, -, h⟩ := bind_ok_iff.mp h
      exact parseOperators_every h hv.ofFields
    · rw [← Except.ok.inj h]
      exact hone
  | _ =>
    rw [parseConds] at h
    · rw [← Except.ok.inj h]
      exact hone
    · intros
      contradiction

mutual

theorem parseFields_every {fields : List (String × Value)} {filters : List (Filter ext)}
    (h : parseFields fields = .ok filters) (hfields : ∀ f ∈ fields, f.2.Every p) :
    ∀ r ∈ requiredOfAll filters, EqEvery p r.2 := by
  cases fields with
  | nil =>
    rw [parseFields] at h
    rw [← Except.ok.inj h]
    exact nofun
  | cons field rest =>
    obtain ⟨key, value⟩ := field
    rw [List.forall_mem_cons] at hfields
    rw [parseFields] at h
    split at h
    · exact parseFields_every h hfields.2
    · obtain ⟨part, hpart, h⟩ := bind_ok_iff.mp h
      obtain ⟨parts, hparts, hfilters⟩ := bind_ok_iff.mp h
      rw [← Except.ok.inj hfilters, requiredOfAll]
      intro r hr
      rcases List.mem_append.mp hr with hr | hr
      · repeat' split at hpart
        all_goals first
          | cases hpart
          | (obtain ⟨fs, hfs, rfl⟩ := map_ok_iff.mp hpart)
        · exact parseList_every hfs hfields.1 r hr
        · cases hr
        · cases hr
        · cases hr
        · obtain ⟨c, hc, rfl⟩ := List.mem_map.mp hr
          exact parseConds_every hfs hfields.1 c hc
      · exact parseFields_every hparts hfields.2 r hr

theorem parseList_every {op : String} {v : Value} {filters : List (Filter ext)}
    (h : parseList op v = .ok filters) (hv : v.Every p) :
    ∀ r ∈ requiredOfAll filters, EqEvery p r.2 := by
  cases v with
  | array items =>
    cases items with
    | nil => cases h
    | cons first rest =>
      rw [parseList] at h
      · exact parseEntries_every h hv.ofItems
      · exact List.cons_ne_nil first rest
  | _ => cases h

theorem parseEntries_every {op : String} {items : List Value} {filters : List (Filter ext)}
    (h : parseEntries op items = .ok filters) (hitems : ∀ v ∈ items, v.Every p) :
    ∀ r ∈ requiredOfAll filters, EqEvery p r.2 := by
  cases items with
  | nil =>
    rw [parseEntries] at h
    rw [← Except.ok.inj h]
    exact nofun
  | cons v rest =>
    rw [List.forall_mem_cons] at hitems
    cases v with
    | document d =>
      rw [parseEntries] at h
      obtain ⟨parts, hparts, h⟩ := bind_ok_iff.mp h
      obtain ⟨more, hmore, hfilters⟩ := bind_ok_iff.mp h
      rw [← Except.ok.inj hfilters, requiredOfAll, Filter.required]
      intro r hr
      rcases List.mem_append.mp hr with hr | hr
      · exact parseFields_every hparts hitems.1.ofFields r hr
      · exact parseEntries_every hmore hitems.2 r hr
    | _ => cases h

end

/-- What an upsert starts from is part of its filter. -/
theorem equalities_every {f : Filter ext} (h : Filter.parse doc = .ok f)
    (hdoc : (Value.document doc).Every p) : ∀ e ∈ UpdateSpec.equalities f, e.2.Every p := by
  obtain ⟨parts, hparts, rfl⟩ := map_ok_iff.mp h
  intro e he
  obtain ⟨r, hr, heq⟩ := List.mem_filterMap.mp he
  rw [Filter.required] at hr
  have hevery := parseFields_every hparts hdoc.ofFields r hr
  obtain ⟨path, c⟩ := r
  cases c with
  | eq v =>
    have hv := hevery v rfl
    cases v with
    | document d =>
      dsimp only at heq
      split at heq
      · cases heq
      · rw [← Option.some.inj heq]
        exact hv
    | _ =>
      rw [← Option.some.inj heq]
      exact hv
  | _ => cases heq

end Parsed

/-! ## Names that are checked -/

mutual

/-- A value whose names are checked has none that begins with `$`. -/
theorem checkNested_named (v : Value) (h : checkNested v = .ok ())
    (hv : v.AllNamed fun _ => True) : v.AllNamed PlainName := by
  cases v with
  | document fields =>
    rw [checkNested] at h
    obtain ⟨hnames, hvalues⟩ := checkFieldNames_named fields h hv.ofFields
    exact .document ⟨hv.here.1, hnames⟩ hvalues
  | array items =>
    rw [checkNested] at h
    exact named_items.mpr (checkItems_named items h hv.ofItems)
  | null => exact named_leaf ⟨nofun, nofun⟩
  | bool b => exact named_leaf ⟨nofun, nofun⟩
  | int i => exact named_leaf ⟨nofun, nofun⟩
  | double d => exact named_leaf ⟨nofun, nofun⟩
  | string s => exact named_leaf ⟨nofun, nofun⟩
  | objectId id => exact named_leaf ⟨nofun, nofun⟩
  | date ms => exact named_leaf ⟨nofun, nofun⟩

theorem checkItems_named (items : List Value) (h : checkItems items = .ok ())
    (hv : ∀ v ∈ items, v.AllNamed fun _ => True) : ∀ v ∈ items, v.AllNamed PlainName := by
  cases items with
  | nil => exact nofun
  | cons v rest =>
    rw [List.forall_mem_cons] at hv ⊢
    rw [checkItems] at h
    split at h
    · cases h
    · next hfirst => exact ⟨checkNested_named v hfirst hv.1, checkItems_named rest h hv.2⟩

theorem checkFieldNames_named (fields : List (String × Value))
    (h : checkFieldNames fields = .ok ()) (hv : ∀ f ∈ fields, f.2.AllNamed fun _ => True) :
    (∀ f ∈ fields, PlainName f.1) ∧ ∀ f ∈ fields, f.2.AllNamed PlainName := by
  cases fields with
  | nil => exact ⟨nofun, nofun⟩
  | cons field rest =>
    obtain ⟨key, v⟩ := field
    rw [List.forall_mem_cons] at hv
    rw [checkFieldNames] at h
    split at h
    · cases h
    · next hkey =>
        split at h
        · cases h
        · next hfirst =>
            obtain ⟨hnames, hvalues⟩ := checkFieldNames_named rest h hv.2
            rw [List.forall_mem_cons, List.forall_mem_cons]
            exact ⟨⟨hkey, hnames⟩, checkNested_named v hfirst hv.1, hvalues⟩

end

end SquealDb.Doc
