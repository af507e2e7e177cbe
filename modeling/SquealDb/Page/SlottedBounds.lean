import SquealDb.Lib.Run
import SquealDb.Page.SlottedOps

/-!
# The byte layout of a slotted page

Whatever is done to a page, its layout holds and nothing outside of the buffer is
indexed: also where a search answers wrongly, it answers with a slot.
-/

namespace SquealDb.Page

open Lib Codec KeyCode

/-- The result is one of `P` or an error, and not a panic. -/
def Safe {α : Type} (r : Except Halt α) (P : α → Prop) : Prop :=
  (∀ a, r = .ok a → P a) ∧ r ≠ .error .panic

section Safe

variable {α β : Type} {P : α → Prop} {Q : β → Prop}

theorem Safe.of_ok {r : Except Halt α} {a : α} (h : r = .ok a) (ha : P a) : Safe r P := by
  subst h
  exact ⟨fun b hb => Except.ok.inj hb ▸ ha, nofun⟩

theorem Safe.ne_panic {halt : Halt} (h : Safe (.error halt : Except Halt α) P) :
    halt ≠ .panic := fun heq => h.2 (congrArg Except.error heq)

theorem Safe.error {halt : Halt} (h : halt ≠ .panic) : Safe (.error halt : Except Halt α) P :=
  ⟨nofun, fun heq => h (Except.error.inj heq)⟩

theorem Safe.bind {r : Except Halt α} {f : α → Except Halt β} (h : Safe r P)
    (hf : ∀ a, P a → Safe (f a) Q) : Safe (r >>= f) Q := by
  cases r with
  | ok a => exact hf a (h.1 a rfl)
  | error halt => exact Safe.error h.ne_panic

theorem Safe.bind_ok {r : Except Halt α} {f : α → Except Halt β} {a : α} (h : r = .ok a)
    (hf : Safe (f a) Q) : Safe (r >>= f) Q := by
  subst h
  exact hf

theorem Safe.passOn {r : Except StoreError α} (h : ∀ a, r = .ok a → P a) : Safe (passOn r) P := by
  cases r with
  | ok a => exact .of_ok rfl (h a rfl)
  | error e => exact Safe.error nofun

theorem Safe.pure {a : α} (ha : P a) : Safe (Pure.pure a : Except Halt α) P := .of_ok rfl ha

theorem Safe.throw (e : StoreError) : Safe (MonadExcept.throw (Halt.error e) : Except Halt α) P :=
  Safe.error nofun

theorem Safe.ite {c : Prop} [Decidable c] {r s : Except Halt α} (hr : c → Safe r P)
    (hs : ¬ c → Safe s P) : Safe (if c then r else s) P := by
  split
  · next h => exact hr h
  · next h => exact hs h

end Safe

/-! ## Searching stays in the directory -/

variable {p : SlottedPage} {rs : List (List UInt8)} {es : List Entry} {idx : Nat}

theorem index_ok {α : Type} {v : List α} {i : Nat} (h : i < v.length) : index v i = .ok v[i] := by
  rw [index, List.getElem?_eq_getElem h]

theorem Shows.arrays_length (h : Shows p rs) :
    p.prefixes.length = rs.length ∧ p.idEnds.length = rs.length := by
  obtain ⟨slots, hl, rfl⟩ := h
  rw [List.length_map]
  exact ⟨hl.prefixes_length, hl.idEnds_length⟩

theorem Shows.idAt_safe (h : Shows p rs) (hidx : idx < rs.length) :
    Safe (p.idAt idx) fun _ => True := by
  have hends := h.arrays_length.2
  refine Safe.bind_ok (h.record hidx) (Safe.bind_ok (index_ok (by omega)) ?_)
  exact (Safe.passOn (P := fun _ => True) fun _ _ => trivial).bind fun _ _ => Safe.pure trivial

theorem Shows.compareSlot_safe (h : Shows p rs) (id : IdRef) (hidx : idx < rs.length) :
    Safe (p.compareSlot id idx) fun _ => True := by
  have hprefixes := h.arrays_length.1
  refine Safe.bind_ok (index_ok (show idx < p.prefixes.length by omega)) ?_
  cases prefixOrder _ _ with
  | some ord => exact Safe.pure trivial
  | none => exact (h.idAt_safe hidx).bind fun _ _ => Safe.pure trivial

theorem Shows.search_safe (h : Shows p rs) (id : IdRef) (past : Ordering → Bool) :
    Safe (p.search id past) fun k => k ≤ rs.length := by
  have hprefixes := h.arrays_length.1
  have hturn : ∀ i < p.prefixes.length, Safe (p.searchTurn id past i) fun _ => True :=
    fun i hi => (h.compareSlot_safe id (by omega)).bind fun _ _ => Safe.pure trivial
  unfold SlottedPage.search
  rcases @bisect_range _ (p.searchTurn id past) p.prefixes.length 0 p.prefixes.length
    (Nat.zero_le _) with ⟨i, hi, heq⟩ | ⟨i, hi, heq⟩ | ⟨i, hi, e, he, heq⟩
  · exact Safe.bind_ok heq (Safe.pure (by omega))
  · exact Safe.bind_ok heq (Safe.pure (by omega))
  · have hsafe := hturn i hi
    rw [he] at hsafe
    rw [heq]
    exact Safe.error hsafe.ne_panic

theorem Shows.afterLast_safe (h : Shows p rs) (id : DBIdType) :
    Safe (p.afterLast id) fun _ => True := by
  have hprefixes := h.arrays_length.1
  unfold SlottedPage.afterLast
  split
  · exact Safe.pure trivial
  · next last hlast =>
      exact (h.compareSlot_safe _ (by omega)).bind fun _ _ => Safe.pure trivial

theorem Shows.findExactFrom_safe (h : Shows p rs) (id : DBIdType) {left : Nat}
    (hidx : idx + left ≤ rs.length) : Safe (p.findExactFrom id left idx) fun _ => True := by
  induction left generalizing idx with
  | zero => exact Safe.pure trivial
  | succ left ih =>
    refine (h.idAt_safe (by omega)).bind fun cand _ => ?_
    exact Safe.ite (fun _ => Safe.pure trivial) fun _ => ih (by omega)

theorem Shows.addPlace_safe (h : Shows p rs) (id : DBIdType) :
    Safe (p.addPlace id) fun lo => lo ≤ rs.length := by
  refine (h.afterLast_safe id).bind fun after _ => Safe.ite (fun _ => ?_) fun _ => ?_
  · exact .of_ok h.slotCount (Nat.le_refl _)
  · refine (h.search_safe _ _).bind fun lo hlo => (h.search_safe _ _).bind fun hi hhi => ?_
    by_cases hle : lo ≤ hi
    · refine (h.findExactFrom_safe id (by omega)).bind fun found _ => ?_
      cases found with
      | some i => exact Safe.throw _
      | none => exact Safe.pure hlo
    · have hzero : hi - lo = 0 := by omega
      refine Safe.bind_ok (a := none) (by rw [SlottedPage.findExactIn, hzero]; rfl) ?_
      exact Safe.pure hlo

theorem Shows.exactTurn_safe (h : Shows p rs) (id : IdRef) (hidx : idx < rs.length) :
    Safe (p.exactTurn id idx) fun _ => True := by
  have hprefixes := h.arrays_length.1
  refine Safe.bind_ok (index_ok (show idx < p.prefixes.length by omega)) ?_
  split
  · exact Safe.pure trivial
  · exact Safe.pure trivial
  · exact (h.idAt_safe hidx).bind fun _ _ =>
      Safe.ite (fun _ => Safe.pure trivial) fun _ => Safe.pure trivial

theorem Shows.walkTied_safe (h : Shows p rs) (id : IdRef) {left : Nat}
    (hidx : idx + left ≤ rs.length) :
    Safe (p.walkTied id left idx) fun found => ∀ i, found = some i → i < rs.length := by
  have hprefixes := h.arrays_length.1
  induction left generalizing idx with
  | zero => exact Safe.pure nofun
  | succ left ih =>
    refine Safe.bind_ok (index_ok (show idx < p.prefixes.length by omega)) ?_
    refine Safe.ite (fun _ => Safe.pure nofun) fun _ => ?_
    refine (h.idAt_safe (by omega)).bind fun cand _ => ?_
    refine Safe.ite (fun _ => Safe.pure ?_) fun _ => ?_
    · intro i hi
      cases hi
      omega
    · exact Safe.ite (fun _ => Safe.pure nofun) fun _ => ih (by omega)

theorem Shows.findExactRef_safe (h : Shows p rs) (id : IdRef) :
    Safe (p.findExactRef id) fun found => ∀ i, found = some i → i < rs.length := by
  have hprefixes := h.arrays_length.1
  unfold SlottedPage.findExactRef
  rcases @bisect_range _ (p.exactTurn id) p.prefixes.length 0 p.prefixes.length
    (Nat.zero_le _) with ⟨i, hi, heq⟩ | ⟨i, hi, heq⟩ | ⟨i, hi, e, he, heq⟩
  · refine Safe.bind_ok heq (Safe.pure fun j hj => ?_)
    cases hj
    omega
  · exact Safe.bind_ok heq (h.walkTied_safe id (by omega))
  · have hsafe := h.exactTurn_safe id (show i < rs.length by omega)
    rw [he] at hsafe
    rw [heq]
    exact Safe.error hsafe.ne_panic

/-! ## Every operation keeps the layout -/

/-- What is done to a page, what it returns left out. -/
inductive PageOp where
  | add (tuple : Tuple)
  | appendEncoded (encoded : List UInt8)
  | replace (id : DBIdType) (tuple : Tuple)
  | remove (id : DBIdType)
  | truncate (n : Nat)
  | clear

namespace PageOp

def run : PageOp → SlottedPage.Change Unit
  | add tuple => SlottedPage.add tuple
  | appendEncoded encoded => SlottedPage.appendEncoded encoded
  | replace id tuple => do
    let _ ← SlottedPage.replace id tuple
    return ()
  | remove id => do
    let _ ← SlottedPage.remove id
    return ()
  | truncate n => SlottedPage.truncate n
  | clear => SlottedPage.clear

/-- The tuple's encoding, behind a header and one entry, is shorter than a `u32`
counts; `append_encoded` is given a tuple's encoding. -/
def Fits : PageOp → Prop
  | add tuple => 16 + (Entry.of tuple).bytes.length < 2 ^ 32
  | appendEncoded encoded => ∃ e : Entry, encoded = e.bytes ∧ 16 + e.bytes.length < 2 ^ 32
  | replace _ tuple => 16 + (Entry.of tuple).bytes.length < 2 ^ 32
  | _ => True

/-- The page after an operation, whether it succeeds or fails. -/
def step (p : SlottedPage) (op : PageOp) : SlottedPage := (op.run p).2

end PageOp

/-- The outcome of an operation: a page that shows entries, and no panic. -/
def Kept {α : Type} (r : Except Halt α × SlottedPage) : Prop :=
  (∃ es : List Entry, Shows r.2 (es.map Entry.bytes)) ∧ r.1 ≠ .error .panic

theorem Kept.ok {α : Type} {a : α} (h : Shows p (es.map Entry.bytes)) :
    Kept ((.ok a : Except Halt α), p) := ⟨⟨es, h⟩, nofun⟩

theorem Kept.error {α : Type} {halt : Halt} (h : Shows p (es.map Entry.bytes))
    (hhalt : halt ≠ .panic) : Kept ((.error halt : Except Halt α), p) :=
  ⟨⟨es, h⟩, fun heq => hhalt (Except.error.inj heq)⟩

theorem Kept.discard {α : Type} {m : SlottedPage.Change α} (h : Kept (m p)) :
    Kept ((do let _ ← m; return () : SlottedPage.Change Unit) p) := by
  obtain ⟨⟨es, hshows⟩, hpanic⟩ := h
  cases hm : m p with
  | mk r p' =>
    rw [hm] at hshows hpanic
    cases r with
    | ok a =>
      rw [Attempt.bind_ok hm]
      exact Kept.ok hshows
    | error halt =>
      rw [Attempt.bind_error hm]
      exact Kept.error hshows fun heq => hpanic (congrArg Except.error heq)

theorem Shows.add_kept (h : Shows p (es.map Entry.bytes)) {t : Tuple}
    (hlen : 16 + (Entry.of t).bytes.length < 2 ^ 32) : Kept (SlottedPage.add t p) := by
  have hplace := h.addPlace_safe t.id
  cases heq : p.addPlace t.id with
  | error halt =>
    rw [heq] at hplace
    rw [add_error heq]
    exact Kept.error h hplace.ne_panic
  | ok lo =>
    obtain ⟨p', ⟨hadd, hshows, -⟩ | ⟨hadd, hshows, -⟩⟩ := h.add heq (hplace.1 lo heq) hlen
    · rw [← List.map_insertIdx] at hshows
      rw [hadd]
      exact Kept.ok hshows
    · rw [hadd]
      exact Kept.error hshows nofun

theorem Shows.replace_kept (h : Shows p (es.map Entry.bytes)) (id : DBIdType) {t : Tuple}
    (hlen : 16 + (Entry.of t).bytes.length < 2 ^ 32) : Kept (SlottedPage.replace id t p) := by
  have hsafe := h.findExactRef_safe (.owned id)
  cases heq : p.findExact id with
  | error halt =>
    have hpanic : halt ≠ .panic := fun hp => hsafe.2 (hp ▸ heq)
    rw [replace_error heq]
    exact Kept.error h hpanic
  | ok found =>
    cases found with
    | none =>
      rw [replace_not_found heq]
      exact Kept.error h nofun
    | some idx =>
      have hidx : idx < es.length := by simpa using hsafe.1 _ heq idx rfl
      rcases Nat.lt_or_ge es[idx].bytes.length (Entry.of t).bytes.length with hbig | hfits
      · obtain ⟨e, he, hanew⟩ := h.replace_anew heq hidx hbig
        rw [hanew]
        rcases h.reinsert hidx he hlen with hfull | ⟨p₁, hshows, -, -, -, hfail, hdone⟩
        · rw [hfull]
          exact Kept.error h nofun
        · have hbound := hshows.search_safe (.owned id) (·.isGE)
          cases hk : p₁.lowerBound id with
          | error halt =>
            have hpanic : halt ≠ .panic := fun hp => hbound.2 (hp ▸ hk)
            rw [hfail halt hk]
            exact Kept.error hshows hpanic
          | ok k =>
            have hle : k ≤ (es.eraseIdx idx).length := by simpa using hbound.1 k hk
            obtain ⟨p', hok, hshows', -⟩ := hdone k hk hle
            rw [hok]
            exact Kept.ok hshows'
      · obtain ⟨p', hok, hshows, -⟩ := h.replace_inPlace heq hidx hfits
        rw [hok]
        exact Kept.ok hshows

theorem Shows.remove_kept (h : Shows p (es.map Entry.bytes)) (id : DBIdType) :
    Kept (SlottedPage.remove id p) := by
  have hsafe := h.findExactRef_safe (.owned id)
  cases heq : p.findExact id with
  | error halt =>
    have hpanic : halt ≠ .panic := fun hp => hsafe.2 (hp ▸ heq)
    rw [remove_error heq]
    exact Kept.error h hpanic
  | ok found =>
    cases found with
    | none =>
      rw [remove_not_found heq]
      exact Kept.error h nofun
    | some idx =>
      have hidx : idx < es.length := by simpa using hsafe.1 _ heq idx rfl
      obtain ⟨p', hok, hshows, -⟩ := h.remove heq hidx
      rw [hok]
      exact Kept.ok hshows

theorem PageOp.kept (h : Shows p (es.map Entry.bytes)) {op : PageOp} (hfits : op.Fits) :
    Kept (op.run p) := by
  cases op with
  | add t => exact h.add_kept hfits
  | appendEncoded encoded =>
    obtain ⟨e, rfl, hlen⟩ := hfits
    show Kept (SlottedPage.appendEncoded e.bytes p)
    obtain ⟨p', ⟨hok, hshows, -⟩ | ⟨herr, hshows, -⟩⟩ := h.appendEncoded hlen
    · have hmap : es.map Entry.bytes ++ [e.bytes] = (es ++ [e]).map Entry.bytes := by simp
      rw [hmap] at hshows
      rw [hok]
      exact Kept.ok hshows
    · rw [herr]
      exact Kept.error hshows nofun
  | replace id t => exact (h.replace_kept id hfits).discard
  | remove id => exact (h.remove_kept id).discard
  | truncate n =>
    obtain ⟨p', hok, hshows, -⟩ := h.truncate n
    rw [← List.map_take] at hshows
    show Kept (SlottedPage.truncate n p)
    rw [hok]
    exact Kept.ok hshows
  | clear =>
    obtain ⟨p', hok, hshows, -⟩ := h.clear
    show Kept (SlottedPage.clear p)
    rw [hok]
    exact ⟨⟨[], hshows⟩, nofun⟩

end SquealDb.Page
