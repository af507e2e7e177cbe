import SquealDb.Page.Space

/-!
# The bytes a page counts

`page_used_size` against the slots of a page, whatever form their ids are kept in. What
goes on to a page is counted by its bytes, and so is what `truncate` drops; what
`remove_tuple` and `replace_tuple` take off is counted by the tuple they decoded, as it
would be written now. A record key kept as its values (tag 1) is written as keycode bytes
now (tag 2), which are not as many.
-/

namespace SquealDb.Space

open Lib Codec KeyCode SquealDb.Page

/-- The counter is what the slots take. -/
structure Counted (pg : Page) (rs : List (List UInt8)) : Prop where
  shows : Shows pg.data rs
  used : pg.pageUsedSize = sizes rs + 8 * rs.length

/-- The errors of the three operations that find the counter too low. -/
def Underflow (e : StoreError) : Prop :=
  e = .unknownError "truncate: used size underflow" ∨ ∃ used old : Nat,
    e = .unknownError s!"remove_tuple used_size underflow: used={used} old={old}" ∨
    e = .unknownError s!"replace_tuple used_size underflow: used={used} old={old}"

/-- The operation, if it succeeds, keeps the counter, and it does not underflow. -/
def KeepsCount (pg : Page) (op : PageOp) : Prop :=
  ((Page.apply op pg).1 = .ok () → ∃ rs, Counted (Page.step pg op) rs) ∧
    Avoids Underflow (Page.apply op pg).1

/-- The slot's id takes as many bytes as it takes written anew. -/
def WrittenAlike (e : Entry) : Prop :=
  (e.form.bytes e.tuple.id).length = (Postcard.id e.tuple.id).length

theorem settled_iff (e : Entry) : Settled e ↔ WrittenAlike e := by
  have howned : Postcard.id (e.form.owned e.tuple.id) = Postcard.id e.tuple.id := by
    cases hform : e.form with
    | values =>
      cases e.tuple.id <;> rfl
    | stored =>
      have hallowed := e.allowed
      cases hid : e.tuple.id with
      | int n => rfl
      | record k =>
        rw [hform, hid] at hallowed
        have hof : IdForm.ofId (.record k) = .stored := if_pos hallowed
        rw [← hof, id_owned_ofId]
  rw [Settled, WrittenAlike, size, encodedLen_eq]
  simp only [Entry.owned, Tuple.ownedAs, Postcard.tuple, howned, Entry.bytes, Tuple.bytesAs,
    List.length_append]
  omega

/-- The condition: no slot is taken away, or overwritten, whose id is not written alike. -/
def TakesAlike (pg : Page) (es : List Entry) : PageOp → Prop
  | .remove id => ∀ i e, pg.data.findExact id = .ok (some i) → es[i]? = some e → WrittenAlike e
  | .replace id t => Within pg (size t) →
      (∃ old d, SlottedPage.replace id t pg.data = (.ok old, d)) →
      ∀ i e, pg.data.findExact id = .ok (some i) → es[i]? = some e → WrittenAlike e
  | _ => True

/-- What is put on the page can be described by a slot. -/
def Describable : PageOp → Prop
  | .add t | .replace _ t => 16 + size t < 2 ^ 32
  | .appendEncoded encoded => 16 + encoded.length < 2 ^ 32
  | _ => True

/-! ## Errors that are not underflows -/

theorem underflow_unknown {e : StoreError} (h : Underflow e) :
    ∃ what, e = .unknownError what ∧ what ≠ "malformed tuple bytes" := by
  rcases h with rfl | ⟨used, old, rfl | rfl⟩
  · exact ⟨_, rfl, by decide⟩
  · refine ⟨_, rfl, fun heq => ?_⟩
    have hlist := congrArg String.toList heq
    simp [ToString.toString] at hlist
  · refine ⟨_, rfl, fun heq => ?_⟩
    have hlist := congrArg String.toList heq
    simp [ToString.toString] at hlist

theorem avoids_of_known {α : Type} {e : StoreError} (h : ∀ what, e ≠ .unknownError what) :
    Avoids Underflow (.error (.error e) : Except Halt α) := by
  rintro _ hbad ⟨⟩
  obtain ⟨what, heq, -⟩ := underflow_unknown hbad
  exact h what heq

theorem not_underflow_malformed : ¬ Underflow malformed := by
  intro hbad
  obtain ⟨what, heq, hne⟩ := underflow_unknown hbad
  cases heq
  exact hne rfl

namespace Avoids

variable {bad : StoreError → Prop} (hbad : ¬ bad malformed)

include hbad

theorem walkTied (p : SlottedPage) (id : IdRef) (left idx : Nat) :
    Avoids bad (p.walkTied id left idx) := by
  induction left generalizing idx with
  | zero => exact ok _
  | succ left ih =>
    apply (index _ _).bind
    intro slotPrefix
    split
    · exact ok _
    · apply (idAt hbad p idx).bind
      intro cand
      split
      · exact ok _
      · split
        · exact ok _
        · exact ih (idx + 1)

theorem exactTurn (p : SlottedPage) (id : IdRef) (mid : Nat) :
    Avoids bad (p.exactTurn id mid) := by
  apply (index _ _).bind
  intro slotPrefix
  split
  · exact ok _
  · exact ok _
  · apply (idAt hbad p mid).bind
    intro cand
    split <;> exact ok _

theorem findExactRef (p : SlottedPage) (id : IdRef) : Avoids bad (p.findExactRef id) := by
  unfold SlottedPage.findExactRef
  rcases @bisect_range _ (p.exactTurn id) p.prefixes.length 0 p.prefixes.length
    (Nat.zero_le _) with ⟨i, hi, heq⟩ | ⟨i, hi, heq⟩ | ⟨i, hi, e, he, heq⟩
  · rw [heq]
    exact ok _
  · rw [heq]
    exact walkTied hbad p id _ i
  · have hturn := exactTurn hbad p id i
    rw [he] at hturn
    rw [heq]
    exact hturn.of_error

end Avoids

/-! ## Outcomes -/

section Outcomes

variable {pg pg' : Page} {op : PageOp} {rs : List (List UInt8)} {halt : Halt}

/-- A page shows its records in one way. -/
theorem shows_unique {p : SlottedPage} {rs' : List (List UInt8)} (h : Shows p rs)
    (h' : Shows p rs') : rs = rs' := by
  have hcount : rs.length = rs'.length := by
    have heq := h.slotCount
    rw [h'.slotCount] at heq
    exact (Except.ok.inj heq).symm
  apply List.ext_getElem hcount
  intro i hi hi'
  have heq := h.record hi
  rw [h'.record hi'] at heq
  exact (Except.ok.inj heq).symm

theorem keeps_of_ok (h : Page.apply op pg = (.ok (), pg')) (hcounted : Counted pg' rs) :
    KeepsCount pg op := by
  constructor
  · intro _
    refine ⟨rs, ?_⟩
    rw [Page.step, h]
    exact hcounted
  · rw [h]
    exact Avoids.ok ()

theorem keeps_of_error (h : Page.apply op pg = (.error halt, pg'))
    (havoids : Avoids Underflow (.error halt : Except Halt Unit)) : KeepsCount pg op := by
  constructor
  · intro hok
    rw [h] at hok
    cases hok
  · rw [h]
    exact havoids

theorem not_keeps_of_ok (h : Page.apply op pg = (.ok (), pg')) (hshows : Shows pg'.data rs)
    (hne : pg'.pageUsedSize ≠ sizes rs + 8 * rs.length) : ¬ KeepsCount pg op := by
  rintro ⟨hkeeps, -⟩
  obtain ⟨rs', hcounted⟩ := hkeeps (by rw [h])
  rw [Page.step, h] at hcounted
  obtain rfl := shows_unique hshows hcounted.shows
  exact hne hcounted.used

theorem not_keeps_of_underflow {e : StoreError} (h : Page.apply op pg = (.error (.error e), pg'))
    (he : Underflow e) : ¬ KeepsCount pg op := by
  rintro ⟨-, havoids⟩
  exact havoids e he (by rw [h])

end Outcomes

/-! ## Putting a tuple on the page -/

section Put

variable {pg : Page} {rs : List (List UInt8)} {op : PageOp}

/-- What goes on the page is counted by its bytes. -/
theorem keeps_put {len : Nat} {m : SlottedPage.Change Unit} (h : Counted pg rs)
    (hop : Page.apply op pg = Page.put len m pg)
    (hm : (∃ d rs', m pg.data = (.ok (), d) ∧ Shows d rs' ∧ sizes rs' = len + sizes rs ∧
        rs'.length = rs.length + 1) ∨
      ∃ halt d, m pg.data = (.error halt, d) ∧
        Avoids Underflow (.error halt : Except Halt Unit)) : KeepsCount pg op := by
  by_cases hput : Within pg len ∧ pg.canStoreLen len = true
  · rcases hm with ⟨d, rs', hok, hshows, hsizes, hcount⟩ | ⟨halt, d, herror, havoids⟩
    · refine keeps_of_ok (hop.trans (put_ok hput.1 hput.2 hok)) ⟨hshows, ?_⟩
      have hused := h.used
      have hover : entryOverhead = 8 := rfl
      show pg.pageUsedSize + _ = _
      omega
    · exact keeps_of_error (hop.trans (put_error hput.1 hput.2 herror)) havoids
  · obtain ⟨e, hrefused, hknown⟩ := put_refused hput
    exact keeps_of_error (hop.trans hrefused) (avoids_of_known hknown)

theorem sizes_inserted {r : List UInt8} {k : Nat} (hk : k ≤ rs.length) :
    sizes (rs.insertIdx k r) = r.length + sizes rs := by
  rw [sizes_perm (List.perm_insertIdx r rs hk)]
  rfl

theorem keeps_add (h : Counted pg rs) {t : Tuple} (hlen : 16 + size t < 2 ^ 32) :
    KeepsCount pg (.add t) := by
  refine keeps_put h (show Page.apply (.add t) pg = Page.put (size t) (SlottedPage.add t) pg
    from rfl) ?_
  cases hplace : pg.data.addPlace t.id with
  | error halt =>
    have havoids : Avoids Underflow (pg.data.addPlace t.id) := by
      apply Avoids.addPlace not_underflow_malformed
      intro hbad
      obtain ⟨what, heq, -⟩ := underflow_unknown hbad
      cases heq
    rw [hplace] at havoids
    exact .inr ⟨halt, pg.data, add_error hplace, havoids.of_error⟩
  | ok lo =>
    have hlo : lo ≤ rs.length := (h.shows.addPlace_safe t.id).1 lo hplace
    have hbytes := length_bytes_of t
    obtain ⟨d, ⟨hadd, hshows, -⟩ | ⟨hadd, -⟩⟩ := h.shows.add hplace hlo (by rw [hbytes]; exact hlen)
    · refine .inl ⟨d, _, hadd, hshows, ?_, List.length_insertIdx_of_le_length hlo _⟩
      rw [sizes_inserted hlo, hbytes]
    · exact .inr ⟨_, d, hadd, avoids_of_known nofun⟩

theorem keeps_appendEncoded (h : Counted pg rs) {encoded : List UInt8}
    (hlen : 16 + encoded.length < 2 ^ 32) : KeepsCount pg (.appendEncoded encoded) := by
  have hop : Page.apply (.appendEncoded encoded) pg =
      Page.put encoded.length (SlottedPage.appendEncoded encoded) pg := rfl
  refine keeps_put h hop ?_
  unfold SlottedPage.appendEncoded
  rw [Attempt.read_bind]
  have hend := idEnd_avoids not_underflow_malformed encoded
  cases hstop : passOn (idEnd encoded) with
  | error halt =>
    rw [hstop] at hend
    exact .inr ⟨halt, pg.data, rfl, hend.of_error⟩
  | ok stop =>
    dsimp only
    rw [Attempt.read_bind]
    cases hid : passOn (tupleIdEnding encoded stop) with
    | error halt =>
      refine .inr ⟨halt, pg.data, rfl, ?_⟩
      unfold tupleIdEnding at hid
      split at hid
      · cases hid
      · cases hid
        intro e he heq
        cases heq
        exact not_underflow_malformed he
    | ok id =>
      dsimp only
      obtain ⟨d, hshows, -, -, -, hroom | ⟨hroom, -, -⟩⟩ := h.shows.ensureRoom fun _ => hlen
      · obtain ⟨d', hinsert, hshows', -, -, -⟩ := hshows.insertAt (Nat.le_refl rs.length)
          hroom.2 (orderPrefixOf (.wire id)) stop
        refine .inl ⟨d', _, ?_, hshows', sizes_inserted (Nat.le_refl _),
          List.length_insertIdx_of_le_length (Nat.le_refl _) _⟩
        rw [Attempt.bind_ok hroom.1, Attempt.read_bind, hshows.slotCount]
        dsimp only
        rw [Attempt.update_apply, hinsert]
      · exact .inr ⟨_, d, Attempt.bind_error hroom, avoids_of_known nofun⟩

/-- `truncate` counts the bytes of the slots that it drops. -/
theorem keeps_truncate (h : Counted pg rs) (n : Nat) : KeepsCount pg (.truncate n) := by
  obtain ⟨d, htruncate, hshows, -⟩ := h.shows.truncate n
  have hused := h.used
  have hsplit : sizes rs = sizes (rs.take n) + sizes (rs.drop n) := by
    simp only [sizes]
    rw [← List.sum_append, ← List.map_append, List.take_append_drop]
  have hcount : rs.length = (rs.take n).length + (rs.drop n).length := by
    rw [← List.length_append, List.take_append_drop]
  have hback : sizes (rs.drop n) + 8 * (rs.drop n).length ≤ pg.pageUsedSize := by omega
  have hok : Page.apply (.truncate n) pg = (.ok (), { pg with
      data := d
      pageUsedSize := pg.pageUsedSize - (sizes (rs.drop n) + 8 * (rs.drop n).length) }) := by
    show Page.truncate n pg = _
    unfold Page.truncate
    rw [Attempt.read_bind, sizesFrom_of_shows h.shows n]
    dsimp only
    rw [Attempt.bind_ok (onData_ok htruncate), Attempt.update_apply,
      giveBack_of_le (show _ ≤ ({ pg with data := d } : Page).pageUsedSize from hback)]
  refine keeps_of_ok hok ⟨hshows, ?_⟩
  show pg.pageUsedSize - _ = _
  omega

theorem keeps_clear (h : Counted pg rs) : KeepsCount pg .clear := by
  obtain ⟨d, hclear, hshows, -⟩ := h.shows.clear
  have hok : Page.apply .clear pg = (.ok (), { pg with data := d, pageUsedSize := 0 }) := by
    show Page.clear pg = _
    unfold Page.clear
    rw [Attempt.bind_ok (onData_ok hclear)]
    rfl
  exact keeps_of_ok hok ⟨hshows, rfl⟩

end Put

/-! ## Taking a tuple off the page -/

section Take

variable {pg : Page} {es : List Entry} {idx : Nat} {id : DBIdType} {t : Tuple}

theorem removeTuple_underflow {old : Tuple} {d : SlottedPage}
    (h : SlottedPage.remove id pg.data = (.ok old, d))
    (hlt : pg.pageUsedSize < Page.storedSize old) :
    Page.removeTuple id pg = (.error (.error (.unknownError
      s!"remove_tuple used_size underflow: used={pg.pageUsedSize} old={Page.storedSize old}")),
      { pg with data := d }) := by
  unfold Page.removeTuple
  rw [Attempt.bind_ok (onData_ok h), Attempt.read_bind]
  dsimp only
  rw [Attempt.update_bind, Page.giveBack, if_neg (Nat.not_le.mpr hlt)]

theorem replaceTuple_underflow {old : Tuple} {d : SlottedPage} (hwithin : Within pg (size t))
    (h : SlottedPage.replace id t pg.data = (.ok old, d)) (hlt : pg.pageUsedSize < size old) :
    Page.replaceTuple id t pg = (.error (.error (.unknownError
      s!"replace_tuple used_size underflow: used={pg.pageUsedSize} old={size old}")),
      { pg with data := d }) := by
  unfold Page.replaceTuple
  rw [Attempt.read_bind, checkRecordSize_of_within hwithin]
  dsimp only
  rw [Attempt.bind_ok (onData_ok h), Attempt.read_bind]
  dsimp only
  rw [Attempt.update_bind, Page.giveBack, if_neg (Nat.not_le.mpr hlt)]

theorem find_cases (h : Counted pg (es.map Entry.bytes)) (id : DBIdType) :
    (∃ halt, pg.data.findExact id = .error halt ∧
        Avoids Underflow (.error halt : Except Halt Unit)) ∨
      pg.data.findExact id = .ok none ∨
      ∃ idx, ∃ _ : idx < es.length, pg.data.findExact id = .ok (some idx) := by
  have havoids := Avoids.findExactRef not_underflow_malformed pg.data (.owned id)
  have hsafe := h.shows.findExactRef_safe (.owned id)
  cases hfind : pg.data.findExact id with
  | error halt =>
    have hsame : pg.data.findExactRef (.owned id) = .error halt := hfind
    rw [hsame] at havoids
    exact .inl ⟨halt, rfl, havoids.of_error⟩
  | ok found =>
    cases found with
    | none => exact .inr (.inl rfl)
    | some idx => exact .inr (.inr ⟨idx, by simpa using hsafe.1 _ hfind idx rfl, rfl⟩)

/-- A removal of a tuple that is found keeps the counter exactly if the tuple is written
alike. -/
theorem keeps_remove_found (h : Counted pg (es.map Entry.bytes)) (hidx : idx < es.length)
    (hfind : pg.data.findExact id = .ok (some idx)) :
    KeepsCount pg (.remove id) ↔ Settled es[idx] := by
  obtain ⟨d, hremove, hshows, -⟩ := h.shows.remove hfind hidx
  have hused := h.used
  have hsizes := Sound.sizes_erased hidx
  rw [List.length_map] at hused
  have hcount : ((es.eraseIdx idx).map Entry.bytes).length = es.length - 1 := by
    rw [List.length_map, List.length_eraseIdx_of_lt hidx]
  have hstored : Page.storedSize es[idx].owned = size es[idx].owned + 8 := rfl
  rcases Nat.lt_or_ge pg.pageUsedSize (Page.storedSize es[idx].owned) with hlt | hle
  · have herror := Attempt.discard_error (removeTuple_underflow hremove hlt)
    have hnot : ¬ KeepsCount pg (.remove id) := not_keeps_of_underflow herror
      (.inr ⟨_, _, .inl rfl⟩)
    refine iff_of_false hnot fun hsettled => ?_
    rw [Settled] at hsettled
    omega
  · have hok := Attempt.discard_ok (removeTuple_ok hremove hle)
    constructor
    · intro hkeeps
      by_contra hunsettled
      refine not_keeps_of_ok (show Page.apply (.remove id) pg = _ from hok) hshows ?_ hkeeps
      rw [Settled] at hunsettled
      show pg.pageUsedSize - _ ≠ _
      omega
    · intro hsettled
      rw [Settled] at hsettled
      refine keeps_of_ok hok ⟨hshows, ?_⟩
      show pg.pageUsedSize - _ = _
      omega

/-- What a replacement of a tuple that is found comes to. -/
theorem replace_cases (h : Counted pg (es.map Entry.bytes)) (hidx : idx < es.length)
    (hfind : pg.data.findExact id = .ok (some idx)) (hlen : 16 + size t < 2 ^ 32) :
    (∃ halt d, SlottedPage.replace id t pg.data = (.error halt, d) ∧
        Avoids Underflow (.error halt : Except Halt Unit)) ∨
      ∃ (d : SlottedPage) (es' : List Entry),
        SlottedPage.replace id t pg.data = (.ok es[idx].owned, d) ∧
        Shows d (es'.map Entry.bytes) ∧ es'.Perm (Entry.of t :: es.eraseIdx idx) := by
  have hbytes := length_bytes_of t
  rcases Nat.lt_or_ge es[idx].bytes.length (Entry.of t).bytes.length with hbig | hfits
  · obtain ⟨e, he, hanew⟩ := h.shows.replace_anew hfind hidx hbig
    rcases h.shows.reinsert hidx he (by rw [hbytes]; exact hlen) with
      hfull | ⟨p₁, hshows, -, -, -, herror, hdone⟩
    · exact .inl ⟨_, _, hanew.trans hfull, avoids_of_known nofun⟩
    · have hbound := hshows.search_safe (.owned id) (·.isGE)
      have havoids := Avoids.search not_underflow_malformed p₁ (.owned id) (·.isGE)
      cases hsearch : p₁.lowerBound id with
      | error halt =>
        have hsame : p₁.search (.owned id) (·.isGE) = .error halt := hsearch
        rw [hsame] at havoids
        exact .inl ⟨halt, p₁, hanew.trans (herror halt hsearch), havoids.of_error⟩
      | ok k =>
        have hk : k ≤ (es.eraseIdx idx).length := by simpa using hbound.1 k hsearch
        obtain ⟨d, hok, hshows', -⟩ := hdone k hsearch hk
        exact .inr ⟨d, _, hanew.trans hok, hshows', List.perm_insertIdx _ _ hk⟩
  · obtain ⟨d, hok, hshows, -⟩ := h.shows.replace_inPlace hfind hidx hfits
    exact .inr ⟨d, _, hok, hshows, List.set_perm_cons_eraseIdx hidx _⟩

/-- A replacement that goes through keeps the counter exactly if the tuple it replaces is
written alike. -/
theorem keeps_replace_found (h : Counted pg (es.map Entry.bytes)) (hidx : idx < es.length)
    (hwithin : Within pg (size t)) {d : SlottedPage} {es' : List Entry}
    (hreplace : SlottedPage.replace id t pg.data = (.ok es[idx].owned, d))
    (hshows : Shows d (es'.map Entry.bytes)) (hperm : es'.Perm (Entry.of t :: es.eraseIdx idx)) :
    KeepsCount pg (.replace id t) ↔ Settled es[idx] := by
  have hused := h.used
  have hsizes := Sound.sizes_erased hidx
  rw [List.length_map] at hused
  have hcount : (es'.map Entry.bytes).length = es.length := by
    rw [List.length_map, hperm.length_eq, List.length_cons, List.length_eraseIdx_of_lt hidx]
    omega
  have hnew : sizes (es'.map Entry.bytes) =
      size t + sizes ((es.eraseIdx idx).map Entry.bytes) := by
    rw [sizes_perm (hperm.map Entry.bytes), ← length_bytes_of]
    rfl
  rcases Nat.lt_or_ge pg.pageUsedSize (size es[idx].owned) with hlt | hle
  · have herror := Attempt.discard_error (replaceTuple_underflow hwithin hreplace hlt)
    have hnot : ¬ KeepsCount pg (.replace id t) :=
      not_keeps_of_underflow herror (.inr ⟨_, _, .inr rfl⟩)
    refine iff_of_false hnot fun hsettled => ?_
    rw [Settled] at hsettled
    omega
  · have hok := Attempt.discard_ok (replaceTuple_ok hwithin hreplace hle)
    constructor
    · intro hkeeps
      by_contra hunsettled
      refine not_keeps_of_ok (show Page.apply (.replace id t) pg = _ from hok) hshows ?_ hkeeps
      rw [Settled] at hunsettled
      show pg.pageUsedSize - _ + _ ≠ _
      omega
    · intro hsettled
      rw [Settled] at hsettled
      refine keeps_of_ok hok ⟨hshows, ?_⟩
      show pg.pageUsedSize - _ + _ = _
      omega

end Take

/-! ## When an operation keeps the counter -/

variable {pg : Page} {es : List Entry}

theorem keeps_remove (h : Counted pg (es.map Entry.bytes)) (id : DBIdType) :
    KeepsCount pg (.remove id) ↔ TakesAlike pg es (.remove id) := by
  rcases find_cases h id with ⟨halt, hfind, havoids⟩ | hfind | ⟨idx, hidx, hfind⟩
  · have hkeeps : KeepsCount pg (.remove id) :=
      keeps_of_error (Attempt.discard_error (removeTuple_error (remove_error hfind))) havoids
    refine iff_of_true hkeeps fun i e hsome _ => ?_
    rw [hfind] at hsome
    cases hsome
  · have hkeeps : KeepsCount pg (.remove id) :=
      keeps_of_error (Attempt.discard_error (removeTuple_error (remove_not_found hfind)))
        (avoids_of_known nofun)
    refine iff_of_true hkeeps fun i e hsome _ => ?_
    rw [hfind] at hsome
    cases hsome
  · rw [keeps_remove_found h hidx hfind, settled_iff]
    constructor
    · intro halike i e hsome hget
      rw [hfind] at hsome
      cases hsome
      rw [List.getElem?_eq_getElem hidx] at hget
      cases hget
      exact halike
    · intro htakes
      exact htakes idx _ hfind (List.getElem?_eq_getElem hidx)

theorem keeps_replace (h : Counted pg (es.map Entry.bytes)) (id : DBIdType) {t : Tuple}
    (hlen : 16 + size t < 2 ^ 32) :
    KeepsCount pg (.replace id t) ↔ TakesAlike pg es (.replace id t) := by
  by_cases hwithin : Within pg (size t)
  case neg =>
    obtain ⟨e, hrefused, hknown⟩ := replaceTuple_refused id hwithin
    have hkeeps : KeepsCount pg (.replace id t) :=
      keeps_of_error (Attempt.discard_error hrefused) (avoids_of_known hknown)
    exact iff_of_true hkeeps fun hw => absurd hw hwithin
  -- a replacement of the content that fails
  have hfails : ∀ {halt d}, SlottedPage.replace id t pg.data = (.error halt, d) →
      Avoids Underflow (.error halt : Except Halt Unit) →
      (KeepsCount pg (.replace id t) ↔ TakesAlike pg es (.replace id t)) := by
    intro halt d herror havoids
    have hkeeps : KeepsCount pg (.replace id t) :=
      keeps_of_error (Attempt.discard_error (replaceTuple_error hwithin herror)) havoids
    refine iff_of_true hkeeps fun _ ⟨old, d', hok⟩ => ?_
    rw [herror] at hok
    cases hok
  rcases find_cases h id with ⟨halt, hfind, havoids⟩ | hfind | ⟨idx, hidx, hfind⟩
  · exact hfails (replace_error hfind) havoids
  · exact hfails (replace_not_found hfind) (avoids_of_known nofun)
  · rcases replace_cases h hidx hfind hlen with
      ⟨halt, d, herror, havoids⟩ | ⟨d, es', hok, hshows, hperm⟩
    · exact hfails herror havoids
    · rw [keeps_replace_found h hidx hwithin hok hshows hperm, settled_iff]
      constructor
      · intro halike _ _ i e hsome hget
        rw [hfind] at hsome
        cases hsome
        rw [List.getElem?_eq_getElem hidx] at hget
        cases hget
        exact halike
      · intro htakes
        exact htakes hwithin ⟨_, _, hok⟩ idx _ hfind (List.getElem?_eq_getElem hidx)

/-- On every page whose counter is what its slots take, an operation keeps the counter if
it succeeds, and does not underflow, exactly if it takes off no slot whose id would be
written in another number of bytes now. -/
theorem page_accounting_iff (h : Counted pg (es.map Entry.bytes)) {op : PageOp}
    (hdesc : Describable op) : KeepsCount pg op ↔ TakesAlike pg es op := by
  cases op with
  | add t => exact iff_of_true (keeps_add h hdesc) trivial
  | appendEncoded encoded => exact iff_of_true (keeps_appendEncoded h hdesc) trivial
  | replace id t => exact keeps_replace h id hdesc
  | remove id => exact keeps_remove h id
  | truncate n => exact iff_of_true (keeps_truncate h n) trivial
  | clear => exact iff_of_true (keeps_clear h) trivial

/-! ## Keys of the older form -/

/-- A row whose key is a truth value: as values 4 bytes, as keycode bytes 3. -/
def olderEntry : Entry := ⟨⟨.record [.boolean true], none, none, [], 0⟩, .values, trivial⟩

/-- A page that it was copied to. -/
def olderPage : Page := Page.step (Page.new 64 none) (.appendEncoded olderEntry.bytes)

theorem counted_new {pageDataSize : Nat} (recordSize : Option Nat) (h : pageDataSize < 2 ^ 32) :
    Counted (Page.new pageDataSize recordSize) [] := ⟨shows_blank pageDataSize h, rfl⟩

theorem counted_appended (h : Counted pg (es.map Entry.bytes)) {e : Entry}
    (hlen : 16 + e.bytes.length < 2 ^ 32)
    (hok : (Page.apply (.appendEncoded e.bytes) pg).1 = .ok ()) :
    Counted (Page.step pg (.appendEncoded e.bytes)) ((es ++ [e]).map Entry.bytes) := by
  have hop : Page.apply (.appendEncoded e.bytes) pg =
      Page.put e.bytes.length (SlottedPage.appendEncoded e.bytes) pg := rfl
  by_cases hput : Within pg e.bytes.length ∧ pg.canStoreLen e.bytes.length = true
  · obtain ⟨d, ⟨happend, hshows, -⟩ | ⟨hfull, -⟩⟩ := h.shows.appendEncoded hlen
    · rw [Page.step, hop, put_ok hput.1 hput.2 happend, List.map_append]
      refine ⟨hshows, ?_⟩
      have hused := h.used
      rw [List.length_map] at hused
      have hsizes := sizes_perm (List.perm_append_singleton e.bytes (es.map Entry.bytes))
      have hcons : sizes (e.bytes :: es.map Entry.bytes) =
          e.bytes.length + sizes (es.map Entry.bytes) := rfl
      have hover : entryOverhead = 8 := rfl
      rw [List.length_append, List.length_map, List.map_singleton, List.length_singleton]
      show pg.pageUsedSize + _ = _
      omega
    · rw [hop, put_error hput.1 hput.2 hfull] at hok
      cases hok
  · obtain ⟨err, hrefused, -⟩ := put_refused hput
    rw [hop, hrefused] at hok
    cases hok

theorem olderPage_counted : Counted olderPage ([olderEntry].map Entry.bytes) :=
  have hnew : Counted (Page.new 64 none) (([] : List Entry).map Entry.bytes) :=
    counted_new none (by decide)
  counted_appended hnew (by decide +kernel) (by decide +kernel)

theorem page_accounting_iff_older : KeepsCount olderPage (.remove olderEntry.tuple.id) ↔
    TakesAlike olderPage [olderEntry] (.remove olderEntry.tuple.id) :=
  page_accounting_iff olderPage_counted trivial

/-- Its removal leaves an empty page that counts a byte as used. -/
theorem older_key_miscounts : ∃ (pg : Page) (es : List Entry) (op : PageOp),
    Counted pg (es.map Entry.bytes) ∧ Describable op ∧ ¬ KeepsCount pg op := by
  refine ⟨olderPage, [olderEntry], .remove olderEntry.tuple.id, olderPage_counted, trivial, ?_⟩
  rintro ⟨hkeeps, -⟩
  obtain ⟨rs, hcounted⟩ := hkeeps (by decide +kernel)
  have hcount : (Page.step olderPage (.remove olderEntry.tuple.id)).data.slotCount = .ok 0 := by
    decide +kernel
  have hused : (Page.step olderPage (.remove olderEntry.tuple.id)).pageUsedSize = 1 := by
    decide +kernel
  rw [hcounted.shows.slotCount] at hcount
  obtain rfl := List.eq_nil_of_length_eq_zero (Except.ok.inj hcount)
  have hzero := hcounted.used
  rw [hused] at hzero
  cases hzero

end SquealDb.Space
