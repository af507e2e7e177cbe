import SquealDb.Doc.FieldNames
import SquealDb.Doc.IndexAgreement
import SquealDb.Doc.Order

/-!
# Stored documents are well formed

A stored document has its `_id` first, once and not an array; no document in it has two fields of
one name, and no name in it begins with `$`.  Documents are checked as they are inserted and as
they replace others.  The operators of an update are not: what they bring has to be plain itself.
-/

namespace SquealDb.Doc

open Codec Lib Store

/-- `_id` first and not an array, no two fields of one name, and none that begins with `$`. -/
structure WellFormed (doc : Document) : Prop where
  id : ∃ id rest, doc = ("_id", id) :: rest ∧ ∀ items, id ≠ .array items
  names : (Value.document doc).AllNamed PlainName

/-- The document begins with its `_id`. -/
def IdFirst (doc : Document) : Prop := ∃ id rest, doc = ("_id", id) :: rest

/-! ## The first parts of paths -/

variable {doc after : Document} {path : String} {env : Setting}

variable {key : String} {v old id : Value} {changes : List Change} {allowed : String → Prop}
  {u : UpdateSpec}

theorem Document.get_insert_ne {other : String} (h : other ≠ key) (v : Value) :
    (doc.insert key v).get other = doc.get other := by
  induction doc with
  | nil => simp [Document.insert, Document.get, Ne.symm h]
  | cons field rest ih =>
    rw [Document.insert]
    by_cases hkey : field.1 = key
    · simp [hkey, Document.get, Ne.symm h]
    · have hne : (field.1 == key) = false := beq_eq_false_iff_ne.mpr hkey
      rw [hne]
      simp only [Document.get, Bool.false_eq_true, if_false, List.find?_cons] at ih ⊢
      split
      · rfl
      · exact ih

theorem Document.get_remove_ne {other : String} (h : other ≠ key) :
    (doc.remove key).get other = doc.get other := by
  induction doc with
  | nil => rfl
  | cons field rest ih =>
    rw [Document.remove, List.eraseP_cons]
    by_cases hkey : field.1 = key
    · simp [hkey, Document.get, Ne.symm h]
    · have hne : (field.1 == key) = false := beq_eq_false_iff_ne.mpr hkey
      rw [hne]
      simp only [Document.get, Document.remove, Bool.cond_false, List.find?_cons] at ih ⊢
      split
      · rfl
      · exact ih

theorem Document.get_eq_none (h : key ∉ doc.map (·.1)) : doc.get key = none := by
  cases hget : doc.get key with
  | none => rfl
  | some v => exact absurd (Document.mem_names_of_get hget) h

theorem splitPath_ne_nil (path : String) : splitPath path ≠ [] := by
  rw [splitPath, Ne, List.map_eq_nil_iff]
  exact List.splitOn_ne_nil _ _

/-- The field that a path begins with is set to something. -/
def Sets (path : String) (doc after : Document) : Prop :=
  ∃ part rest inner, splitPath path = part :: rest ∧ after = doc.insert part inner

theorem sets_of_setPath {display : Value → String} (h : setPath display doc path v = .ok after) :
    Sets path doc after := by
  unfold setPath at h
  split at h
  · next set hset =>
      rw [← Except.ok.inj h]
      cases hparts : splitPath path with
      | nil => exact absurd hparts (splitPath_ne_nil path)
      | cons part rest =>
        rw [hparts, setInValue] at hset
        obtain ⟨inner, -, hinner⟩ := bind_ok_iff.mp hset
        cases Except.ok.inj hinner
        exact ⟨part, rest, inner, hparts, rfl⟩
  · cases h
  · cases h

/-- A field is taken away, or one that a path begins with is set to what is left of it. -/
theorem unsetPath_cases (h : unsetPath doc path = some (old, after)) :
    (∃ last, splitPath path = [last] ∧ after = doc.remove last) ∨ Sets path doc after := by
  unfold unsetPath at h
  split at h
  · next w d hunset =>
      cases h
      cases hparts : splitPath path with
      | nil => exact absurd hparts (splitPath_ne_nil path)
      | cons part rest =>
        rw [hparts] at hunset
        cases rest with
        | nil =>
          rw [unsetIn] at hunset
          obtain ⟨w, -, heq⟩ := Option.map_eq_some_iff.mp hunset
          cases heq
          exact Or.inl ⟨part, rfl, rfl⟩
        | cons next rest =>
          rw [unsetIn] at hunset
          · obtain ⟨w, -, hrest⟩ := Option.bind_eq_some_iff.mp hunset
            obtain ⟨r, -, heq⟩ := Option.map_eq_some_iff.mp hrest
            cases heq
            exact Or.inr ⟨part, next :: rest, r.2, hparts, rfl⟩
          · exact List.cons_ne_nil next rest
  · cases h

/-- What an operator does to the fields of a document. -/
inductive Shape (doc : Document) : Change → Document → Prop
  | kept (c : Change) : Shape doc c doc
  | sets {c : Change} {after : Document} : Sets c.2.1 doc after → Shape doc c after
  | setsTwice {c : Change} {mid after : Document} :
      Sets c.2.1 doc mid → Sets c.2.1 mid after → Shape doc c after
  | unset {path : String} {arg old : Value} {after : Document} :
      unsetPath doc path = some (old, after) → Shape doc (.unset, path, arg) after
  | renamed {path target : String} {old : Value} {left after : Document} :
      unsetPath doc path = some (old, left) → Sets target left after →
      Shape doc (.rename, path, .string target) after

theorem shape_changeArray {c : Change} {change : List Value → List Value}
    (h : changeArray env doc c.2.1 change = .ok after) : Shape doc c after := by
  unfold changeArray at h
  obtain ⟨mid, hmid, h⟩ := bind_ok_iff.mp h
  have hlast : Sets c.2.1 mid after := by
    split at h
    · exact sets_of_setPath h
    · cases h
    · cases h
  unfold ensureArray at hmid
  split at hmid
  · exact .setsTwice (sets_of_setPath hmid) hlast
  · rw [← Except.ok.inj hmid] at hlast
    exact .sets hlast

theorem shape_of_applyOp {inserting : Bool} {change : Change}
    (h : applyOp env inserting doc change = .ok after) : Shape doc change after := by
  have hkept : ∀ {c : Change}, (Except.ok doc : Except OpError Document) = .ok after →
      Shape doc c after := by
    intro c heq
    rw [← Except.ok.inj heq]
    exact .kept c
  obtain ⟨op, path, arg⟩ := change
  cases op with
  | set => exact .sets (sets_of_setPath h)
  | currentDate => exact .sets (sets_of_setPath h)
  | setOnInsert =>
    rw [applyOp] at h
    split at h
    · exact .sets (sets_of_setPath h)
    · exact hkept h
  | unset =>
    rw [applyOp] at h
    cases hunset : unsetPath doc path with
    | none =>
      rw [hunset] at h
      exact hkept h
    | some r =>
      rw [hunset] at h
      rw [← Except.ok.inj h]
      exact .unset hunset
  | inc =>
    obtain ⟨v, -, hset⟩ := bind_ok_iff.mp h
    exact .sets (sets_of_setPath hset)
  | mul =>
    obtain ⟨v, -, hset⟩ := bind_ok_iff.mp h
    exact .sets (sets_of_setPath hset)
  | min =>
    rw [applyOp] at h
    split at h
    · exact .sets (sets_of_setPath h)
    · exact hkept h
  | max =>
    rw [applyOp] at h
    split at h
    · exact .sets (sets_of_setPath h)
    · exact hkept h
  | rename =>
    cases arg with
    | string target =>
      rw [applyOp] at h
      split at h
      · exact hkept h
      · next v left hunset => exact .renamed hunset (sets_of_setPath h)
    | _ => cases h
  | push => exact shape_changeArray (c := (.push, path, arg)) h
  | addToSet => exact shape_changeArray (c := (.addToSet, path, arg)) h
  | pull =>
    rw [applyOp] at h
    split at h
    · exact hkept h
    · obtain ⟨remove, -, hset⟩ := bind_ok_iff.mp h
      exact .sets (sets_of_setPath hset)
    · cases h
  | pop =>
    rw [applyOp] at h
    split at h
    · exact hkept h
    · obtain ⟨first, -, hchange⟩ := bind_ok_iff.mp h
      exact shape_changeArray (c := (.pop, path, arg)) hchange

/-! ## The `_id` among the fields -/

/-- The path is the `_id`, or inside it. -/
def InId (path : String) : Prop := (splitPath path).head? = some "_id"

theorem path_mem_touched (c : Change) : c.2.1 ∈ touched c := by
  obtain ⟨op, path, arg⟩ := c
  unfold touched
  split
  · next heq =>
      cases heq
      exact List.mem_cons_self
  · next heq =>
      cases heq
      exact List.mem_cons_self

theorem Sets.get_id (h : Sets path doc after) (hpath : ¬ InId path) :
    after.get "_id" = doc.get "_id" := by
  obtain ⟨part, rest, inner, hparts, rfl⟩ := h
  refine Document.get_insert_ne (fun heq => hpath ?_) inner
  rw [InId, hparts, ← heq]
  rfl

theorem unsetPath_get_id (h : unsetPath doc path = some (old, after)) (hpath : ¬ InId path) :
    after.get "_id" = doc.get "_id" := by
  rcases unsetPath_cases h with ⟨last, hparts, rfl⟩ | hsets
  · refine Document.get_remove_ne fun heq => hpath ?_
    rw [InId, hparts, ← heq]
    rfl
  · exact hsets.get_id hpath

/-- An operator that touches no path in the `_id` leaves it. -/
theorem Shape.get_id {change : Change} (h : Shape doc change after)
    (hpaths : ∀ path ∈ touched change, ¬ InId path) : after.get "_id" = doc.get "_id" := by
  have hpath := hpaths _ (path_mem_touched change)
  cases h with
  | kept => rfl
  | sets hsets => exact hsets.get_id hpath
  | setsTwice hfirst hsecond => exact (hsecond.get_id hpath).trans (hfirst.get_id hpath)
  | unset hunset => exact unsetPath_get_id hunset hpath
  | renamed hunset hsets =>
    have htarget := hpaths _ (List.mem_cons_of_mem _ List.mem_cons_self)
    exact (hsets.get_id htarget).trans (unsetPath_get_id hunset hpath)

theorem Sets.idFirst (h : Sets path doc after) (hdoc : IdFirst doc) : IdFirst after := by
  obtain ⟨part, rest, inner, -, rfl⟩ := h
  obtain ⟨id, fields, rfl⟩ := hdoc
  rw [Document.insert]
  split
  · exact ⟨inner, fields, rfl⟩
  · exact ⟨id, _, rfl⟩

/-- What is removed is another field, or the `_id` itself. -/
theorem unsetPath_idFirst (h : unsetPath doc path = some (old, after)) (hdoc : IdFirst doc)
    (hnodup : (doc.map (·.1)).Nodup) :
    IdFirst after ∨ (after.get "_id" = none ∧ splitPath path = ["_id"]) := by
  rcases unsetPath_cases h with ⟨last, hparts, rfl⟩ | hsets
  · obtain ⟨id, fields, rfl⟩ := hdoc
    by_cases hlast : "_id" = last
    · subst hlast
      right
      refine ⟨Document.get_eq_none ?_, hparts⟩
      rw [List.map_cons, List.nodup_cons] at hnodup
      exact hnodup.1
    · left
      have hne : ("_id" == last) = false := beq_eq_false_iff_ne.mpr hlast
      rw [Document.remove, List.eraseP_cons, hne]
      exact ⟨id, _, rfl⟩
  · exact Or.inl (hsets.idFirst hdoc)

/-- A path is its parts with dots between them. -/
theorem intercalate_splitPath (path : String) :
    ['.'].intercalate ((splitPath path).map String.toList) = path.toList := by
  have hid : String.toList ∘ String.ofList = id := funext fun _ => String.toList_ofList
  rw [splitPath, List.map_map, hid, List.map_id]
  exact List.intercalate_splitOn '.'

/-- A path in the `_id` overlaps the `_id` itself. -/
theorem overlaps_of_inId {a b : String} (ha : splitPath a = ["_id"]) (hb : InId b) :
    overlaps a b = true ∧ overlaps b a = true := by
  have haId : a.toList = "_id".toList := by
    rw [← intercalate_splitPath a, ha]
    rfl
  have hcases : b = a ∨ (a.toList ++ ['.']).isPrefixOf b.toList = true := by
    have hjoin := intercalate_splitPath b
    rw [InId] at hb
    cases hparts : splitPath b with
    | nil =>
      rw [hparts] at hb
      cases hb
    | cons part rest =>
      rw [hparts] at hb hjoin
      cases hb
      cases rest with
      | nil => exact Or.inl (String.toList_inj.mp (hjoin.symm.trans haId.symm))
      | cons next rest =>
        right
        rw [List.isPrefixOf_iff_prefix, ← hjoin, haId]
        refine ⟨['.'].intercalate ((next :: rest).map String.toList), ?_⟩
        simp [List.intercalate_cons_cons]
  unfold overlaps
  rcases hcases with rfl | hbegins
  · simp
  · rw [hbegins]
    simp

/-- An operator leaves the `_id` first, or takes it away and touches it by its own name. -/
theorem Shape.idFirst {change : Change} (h : Shape doc change after) (hdoc : IdFirst doc)
    (hnodup : (doc.map (·.1)).Nodup)
    (hapart : (touched change).Pairwise fun a b => overlaps a b = false) :
    IdFirst after ∨ (after.get "_id" = none ∧ ∃ path ∈ touched change, splitPath path =
      ["_id"]) := by
  cases h with
  | kept => exact Or.inl hdoc
  | sets hsets => exact Or.inl (hsets.idFirst hdoc)
  | setsTwice hfirst hsecond => exact Or.inl (hsecond.idFirst (hfirst.idFirst hdoc))
  | unset hunset =>
    rcases unsetPath_idFirst hunset hdoc hnodup with hid | ⟨hnone, hpath⟩
    · exact Or.inl hid
    · exact Or.inr ⟨hnone, _, path_mem_touched _, hpath⟩
  | renamed hunset hsets =>
    rcases unsetPath_idFirst hunset hdoc hnodup with hid | ⟨hnone, hpath⟩
    · exact Or.inl (hsets.idFirst hid)
    · -- the field is renamed to one outside the `_id` that it was
      refine Or.inr ⟨?_, _, path_mem_touched _, hpath⟩
      rw [← hnone]
      refine hsets.get_id fun htarget => ?_
      have hoverlap := (overlaps_of_inId hpath htarget).1
      have hnot := (List.pairwise_cons.mp hapart).1 _ List.mem_cons_self
      rw [hoverlap] at hnot
      cases hnot

variable {inserting : Bool}

/-- Operators that touch no path in the `_id` leave it. -/
theorem foldlM_get_id (hpaths : ∀ path ∈ changes.flatMap touched, ¬ InId path)
    (h : changes.foldlM (applyOp env inserting) doc = .ok after) :
    after.get "_id" = doc.get "_id" := by
  induction changes generalizing doc with
  | nil =>
    rw [← Except.ok.inj h]
  | cons change rest ih =>
    rw [List.foldlM_cons] at h
    obtain ⟨mid, hmid, hrest⟩ := bind_ok_iff.mp h
    rw [List.flatMap_cons, List.forall_mem_append] at hpaths
    exact (ih hpaths.2 hrest).trans ((shape_of_applyOp hmid).get_id hpaths.1)

/-- Any name may be brought. -/
theorem brings_any {c : Change} (h : c.2.2.AllNamed fun _ => True) :
    Change.Brings (fun _ => True) c := by
  obtain ⟨op, path, arg⟩ := c
  unfold Change.Brings
  split
  · next heq => cases heq; exact ⟨fun _ _ => trivial, h⟩
  · next heq => cases heq; exact ⟨fun _ _ => trivial, h⟩
  · next heq => cases heq; exact ⟨fun _ _ => trivial, h⟩
  · next heq => cases heq; exact ⟨fun _ _ => trivial, each_every h⟩
  · next heq => cases heq; exact ⟨fun _ _ => trivial, each_every h⟩
  · exact fun _ _ => trivial
  · exact fun _ _ => trivial
  · exact fun _ _ => trivial
  · exact fun _ _ => trivial
  · trivial

/-- The operators of one update leave the `_id` first, or none. -/
theorem foldlM_idFirst
    (hapart : (changes.flatMap touched).Pairwise fun a b => overlaps a b = false)
    (hbrings : ∀ c ∈ changes, c.2.2.AllNamed fun _ => True) (hdoc : IdFirst doc)
    (hnames : (Value.document doc).AllNamed fun _ => True)
    (h : changes.foldlM (applyOp env inserting) doc = .ok after) :
    IdFirst after ∨ after.get "_id" = none := by
  induction changes generalizing doc with
  | nil =>
    rw [← Except.ok.inj h]
    exact Or.inl hdoc
  | cons change rest ih =>
    rw [List.foldlM_cons] at h
    obtain ⟨mid, hmid, hrest⟩ := bind_ok_iff.mp h
    rw [List.flatMap_cons, List.pairwise_append] at hapart
    rw [List.forall_mem_cons] at hbrings
    rcases (shape_of_applyOp hmid).idFirst hdoc hnames.here.1 hapart.1 with
      hid | ⟨hnone, path, hpath, hpathId⟩
    · refine ih hapart.2.1 hbrings.2 hid (applyOp_named ?_ ?_ hnames hmid) hrest
      · exact brings_any hbrings.1
      · rintro - path arg rfl
        exact ⟨fun _ _ => trivial, hbrings.1⟩
    · -- the `_id` is gone, and no later operator touches it
      right
      rw [← hnone]
      refine foldlM_get_id (fun other hother hotherId => ?_) hrest
      have hnot := hapart.2.2 path hpath other hother
      rw [(overlaps_of_inId hpathId hotherId).1] at hnot
      cases hnot

/-! ## Updates -/

theorem conflict_none {paths : List String} (h : conflict paths = none) :
    paths.Pairwise fun a b => overlaps a b = false := by
  induction paths with
  | nil => exact .nil
  | cons a rest ih =>
    rw [conflict] at h
    split at h
    · cases h
    · next hnone =>
        refine .cons (fun b hb => ?_) (ih h)
        exact Bool.eq_false_iff.mpr (List.find?_eq_none.mp hnone b hb)

namespace UpdateSpec

/-- The update comes from a document in which no two fields have one name. -/
structure Sound (u : UpdateSpec) : Prop where
  apart : ∀ changes, u = .ops changes →
    (changes.flatMap touched).Pairwise fun a b => overlaps a b = false
  args : ∀ changes, u = .ops changes → ∀ c ∈ changes, c.2.2.AllNamed fun _ => True
  plain : ∀ new, u = .replace new → (Value.document new).AllNamed PlainName

theorem sound_of_parse {u : UpdateSpec} (h : parse doc = .ok u)
    (hdoc : (Value.document doc).AllNamed fun _ => True) : u.Sound := by
  unfold parse at h
  split at h
  · obtain ⟨⟨⟩, hcheck, hu⟩ := bind_ok_iff.mp h
    obtain ⟨hnames, hvalues⟩ := checkFieldNames_named doc hcheck hdoc.ofFields
    rw [← Except.ok.inj hu]
    refine ⟨nofun, nofun, fun new hnew => ?_⟩
    cases hnew
    exact .document ⟨hdoc.here.1, hnames⟩ hvalues
  · split at h
    · cases h
    · obtain ⟨changes, hchanges, h⟩ := bind_ok_iff.mp h
      split at h
      · cases h
      · next hconflict =>
          rw [← Except.ok.inj h]
          refine ⟨fun cs hcs => ?_, fun cs hcs => ?_, nofun⟩
          · cases hcs
            exact conflict_none hconflict
          · cases hcs
            exact operatorsOf_every hchanges hdoc.ofFields

/-- What the operators of the update bring into a document that is there is allowed. -/
def Brings (allowed : String → Prop) (u : UpdateSpec) : Prop :=
  ∀ changes, u = .ops changes → ∀ c ∈ changes, Change.Brings allowed c

/-- No operator of the update is for a path in the `_id`. -/
def SparesId (u : UpdateSpec) : Prop :=
  ∀ changes, u = .ops changes → ∀ path ∈ changes.flatMap touched, ¬ InId path

end UpdateSpec

theorem foldlM_named (hbrings : ∀ c ∈ changes, Change.Brings allowed c)
    (hnames : (Value.document doc).AllNamed allowed)
    (h : changes.foldlM (applyOp env false) doc = .ok after) :
    (Value.document after).AllNamed allowed := by
  refine foldlM_keeps (P := fun d => (Value.document d).AllNamed allowed) ?_ hnames h
  intro c hc d d' hd happly
  refine applyOp_named (hbrings c hc) ?_ hd happly
  exact fun hno => nomatch hno

theorem names_any (h : v.AllNamed allowed) :
    v.AllNamed fun _ => True :=
  h.imp fun w hw => by
    cases w with
    | document fields => exact ⟨hw.1, fun _ _ => trivial⟩
    | _ => trivial

theorem WellFormed.idFirst (h : WellFormed doc) : IdFirst doc := by
  obtain ⟨id, rest, rfl, -⟩ := h.id
  exact ⟨id, rest, rfl⟩

/-- A value that equals one that is not an array is not an array. -/
theorem not_array_of_valuesEqual {a b : Value} (h : a.valuesEqual b = true)
    (ha : ∀ items, a ≠ .array items) : ∀ items, b ≠ .array items := by
  rintro items rfl
  have htype := Value.typeOrder_of_valuesEqual h
  cases a with
  | array items' => exact ha items' rfl
  | _ => cases htype

theorem not_mem_remove (h : (doc.map (·.1)).Nodup) :
    key ∉ (doc.remove key).map (·.1) := by
  induction doc with
  | nil => exact nofun
  | cons field rest ih =>
    rw [List.map_cons, List.nodup_cons] at h
    rw [Document.remove, List.eraseP_cons]
    by_cases hkey : field.1 = key
    · have hyes : (field.1 == key) = true := beq_iff_eq.mpr hkey
      rw [hyes, Bool.cond_true, ← hkey]
      exact h.1
    · have hno : (field.1 == key) = false := beq_eq_false_iff_ne.mpr hkey
      rw [hno, Bool.cond_false, List.map_cons, List.mem_cons, not_or]
      exact ⟨Ne.symm hkey, ih h.2⟩

theorem plain_id : PlainName "_id" := by
  rw [PlainName]
  decide

theorem insertFirst_named (hdoc : (Value.document doc).AllNamed allowed) (hv : v.AllNamed allowed)
    (hkey : allowed key) :
    (Value.document (doc.insertFirst key v)).AllNamed allowed := by
  have hrest := named_sublist hdoc (Document.remove_sublist doc key)
  refine .document ⟨?_, ?_⟩ ?_
  · rw [Document.insertFirst, List.map_cons, List.nodup_cons]
    exact ⟨not_mem_remove hdoc.here.1, hrest.here.1⟩
  · rw [Document.insertFirst, List.forall_mem_cons]
    exact ⟨hkey, hrest.here.2⟩
  · rw [Document.insertFirst, List.forall_mem_cons]
    exact ⟨hv, hrest.ofFields⟩

theorem insertFirst_wellFormed {new : Document} (hnew : (Value.document new).AllNamed PlainName)
    (hid : id.AllNamed PlainName) (harray : ∀ items, id ≠ .array items) :
    WellFormed (new.insertFirst "_id" id) := by
  exact ⟨⟨id, new.remove "_id", rfl, harray⟩, insertFirst_named hnew hid plain_id⟩

theorem WellFormed.get_id (h : WellFormed doc) :
    ∃ id, doc.get "_id" = some id ∧ ∀ items, id ≠ .array items := by
  obtain ⟨id, rest, rfl, harray⟩ := h.id
  exact ⟨id, rfl, harray⟩

theorem idFirst_wellFormed (hfirst : IdFirst doc) (hget : doc.get "_id" = some id)
    (harray : ∀ items, id ≠ .array items) (hnames : (Value.document doc).AllNamed PlainName) :
    WellFormed doc := by
  obtain ⟨id', rest, rfl⟩ := hfirst
  obtain rfl : id' = id := Option.some.inj hget
  exact ⟨⟨id', rest, rfl, harray⟩, hnames⟩

theorem result_of_apply {u : Update} {changed : Bool} (h : u.apply doc = .ok (after, changed)) :
    u.result doc = .ok after := by
  unfold Update.apply at h
  obtain ⟨new, hnew, heq⟩ := bind_ok_iff.mp h
  cases Except.ok.inj heq
  exact hnew

/-- The operators' result, and the check of its `_id`. -/
theorem result_ops {change : Document → Except OpError Document} (hget : doc.get "_id" = some id)
    (h : (Update.ops change).result doc = .ok after) :
    change doc = .ok after ∧ ∃ id', after.get "_id" = some id' ∧ id.valuesEqual id' = true := by
  rw [Update.result] at h
  obtain ⟨new, hnew, hcheck⟩ := bind_ok_iff.mp h
  rw [hget] at hcheck
  dsimp only at hcheck
  split at hcheck
  · next hsame =>
      obtain rfl := Except.ok.inj hcheck
      obtain ⟨id', hid', hequal⟩ := (Option.any_eq_true _ _).mp hsame
      exact ⟨hnew, id', hid', hequal⟩
  · cases hcheck

/-- A replacement is given the `_id` of the document it replaces. -/
theorem result_replace {new : Document} (hget : doc.get "_id" = some id)
    (h : (Update.replace new).result doc = .ok after) : after = new.insertFirst "_id" id := by
  rw [Update.result, hget] at h
  split at h
  · next old id' hold _ =>
      cases hold
      split at h
      · exact (Except.ok.inj h).symm
      · cases h
  · next old hold _ =>
      cases hold
      exact (Except.ok.inj h).symm
  · next hold => cases hold

/-- An update that succeeds leaves a well-formed document well formed, if what its operators
bring is plain. -/
theorem apply_wellFormed (hsound : u.Sound) (hbrings : u.Brings PlainName) (hdoc : WellFormed doc)
    {changed : Bool} (h : (u.update env false).apply doc = .ok (after, changed)) :
    WellFormed after := by
  obtain ⟨id, hget, harray⟩ := hdoc.get_id
  have hresult := result_of_apply h
  cases u with
  | ops changes =>
    obtain ⟨hfold, id', hget', hequal⟩ := result_ops hget hresult
    have hnames := foldlM_named (hbrings changes rfl) hdoc.names hfold
    have hfirst := foldlM_idFirst (hsound.apart changes rfl) (hsound.args changes rfl)
      hdoc.idFirst (names_any hdoc.names) hfold
    refine idFirst_wellFormed (hfirst.resolve_right fun hnone => ?_) hget'
      (not_array_of_valuesEqual hequal harray) hnames
    rw [hget'] at hnone
    cases hnone
  | replace new =>
    have hnew := hsound.plain new rfl
    have hid := named_get hdoc.names hget
    rw [result_replace hget hresult]
    exact insertFirst_wellFormed hnew hid harray

/-- An update that succeeds leaves the key of the `_id`, unless the `_id` is a document and an
operator is for a path in it. -/
theorem apply_keeps_key (hdoc : WellFormed doc)
    (hid : u.SparesId ∨ ∀ fields, docId doc ≠ .document fields) {changed : Bool}
    (h : (u.update env false).apply doc = .ok (after, changed)) :
    encode (docId after) = encode (docId doc) := by
  obtain ⟨id, hget, harray⟩ := hdoc.get_id
  have hresult := result_of_apply h
  cases u with
  | ops changes =>
    obtain ⟨hfold, id', hget', hequal⟩ := result_ops hget hresult
    rcases hid with hspares | hplain
    · have hsame := foldlM_get_id (hspares changes rfl) hfold
      rw [docId, docId, hsame]
    · rw [docId_eq hget']
      rw [docId_eq hget] at hplain ⊢
      refine (Value.encode_of_valuesEqual hequal ?_).symm
      cases id with
      | document fields => exact absurd rfl (hplain fields)
      | array items => exact absurd rfl (harray items)
      | _ => rfl
  | replace new =>
    rw [result_replace hget hresult, docId_eq hget]
    rfl

/-! ## Inserts -/

theorem prepareInsert_wellFormed {fresh : ObjectId}
    (hdoc : (Value.document doc).AllNamed fun _ => True)
    (h : prepareInsert fresh doc = .ok after) : WellFormed after := by
  unfold prepareInsert at h
  split at h
  · cases h
  · next hcheck =>
      obtain ⟨hnames, hvalues⟩ := checkFieldNames_named doc hcheck hdoc.ofFields
      have hplain : (Value.document doc).AllNamed PlainName :=
        .document ⟨hdoc.here.1, hnames⟩ hvalues
      split at h
      · rw [← Except.ok.inj h]
        exact insertFirst_wellFormed hplain (named_leaf ⟨by simp, by simp⟩) (by simp)
      · cases h
      · next id hnot hget =>
          rw [← Except.ok.inj h]
          have hrest := named_sublist hplain (Document.remove_sublist doc "_id")
          exact insertFirst_wellFormed hrest (named_get hplain hget) hnot

/-- The document that an upsert starts from has no two fields of one name. -/
theorem upsertDocument_named (hsound : u.Sound) {f : Filter env.toMatching}
    (hf : ∀ e ∈ UpdateSpec.equalities f, e.2.AllNamed fun _ => True)
    (h : u.upsertDocument env f = .ok after) : (Value.document after).AllNamed fun _ => True := by
  unfold UpdateSpec.upsertDocument at h
  obtain ⟨start, hfold, h⟩ := bind_ok_iff.mp h
  have hstart : (Value.document start).AllNamed fun _ => True := by
    refine foldlM_keeps (P := fun d => (Value.document d).AllNamed fun _ => True) ?_ named_empty
      hfold
    intro e he d d' hd hset
    exact setPath_named (hf e he) hd (Or.inl fun _ _ => trivial) hset
  cases u with
  | ops changes =>
    obtain ⟨⟨new, changed⟩, happly, rfl⟩ := map_ok_iff.mp h
    have hargs := hsound.args changes rfl
    have hresult := result_of_apply happly
    rw [UpdateSpec.update, Update.result] at hresult
    obtain ⟨d, hd, hcheck⟩ := bind_ok_iff.mp hresult
    have hnamed : (Value.document d).AllNamed fun _ => True := by
      refine foldlM_keeps (P := fun d => (Value.document d).AllNamed fun _ => True) ?_ hstart hd
      intro c hc d d' hd happly
      refine applyOp_named (brings_any (hargs c hc)) ?_ hd happly
      rintro - path arg rfl
      exact ⟨fun _ _ => trivial, hargs _ hc⟩
    split at hcheck
    · rw [← Except.ok.inj hcheck]
      exact hnamed
    · split at hcheck
      · rw [← Except.ok.inj hcheck]
        exact hnamed
      · cases hcheck
  | replace new =>
    have hnew := names_any (hsound.plain new rfl)
    dsimp only at h
    split at h
    · rw [← Except.ok.inj h]
      exact hnew
    · next id hget =>
        split at h
        · cases h
        · rw [← Except.ok.inj h]
          exact insertFirst_named hnew (named_get hstart hget) trivial

end SquealDb.Doc
