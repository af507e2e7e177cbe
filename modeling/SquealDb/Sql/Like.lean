import SquealDb.Lib.Wildcard
import SquealDb.Sql.Expr

/-!
# What LIKE matches

`like_matches` of `plan/funcs.rs` over the indices it keeps: one in the text, one in the
pattern, and where the last `%` stands with the text it was last tried at.  The cursors
carry what the loop relies on, that between the last `%` and the pattern's cursor there is
no other `%`, so the text's cursor is as far from where that `%` was tried.
-/

namespace SquealDb.Sql

open SquealDb.Lib.Wildcard

/-- What a character of a LIKE pattern takes: `%` any run, `_` any one character, another
character itself. -/
def likeSymbol (c : Char) : Option (Char → Prop) :=
  if c = '%' then none else if c = '_' then some fun _ => True else some (· = c)

theorem likeSymbol_eq_none {c : Char} : likeSymbol c = none ↔ c = '%' := by
  unfold likeSymbol
  split
  · simp_all
  · split <;> simp_all

/-- The two cursors and the last `%`, as the place it stands in the pattern and the place
of the text it was last tried at. -/
structure Cursors (t p : List Char) where
  ti : Nat
  pi : Nat
  star : Option (Nat × Nat)
  ti_le : ti ≤ t.length
  pi_le : pi ≤ p.length
  star_lt : ∀ sp st, star = some (sp, st) → sp < pi
  star_percent : ∀ sp st, star = some (sp, st) → p[sp]? = some '%'
  star_single : ∀ sp st, star = some (sp, st) → ∀ i, sp < i → i < pi → p[i]? ≠ some '%'
  star_apart : ∀ sp st, star = some (sp, st) → st + pi = ti + sp + 1

namespace Cursors

variable {t p : List Char}

/-- Both cursors at the start, no `%` met. -/
def start (t p : List Char) : Cursors t p where
  ti := 0
  pi := 0
  star := none
  ti_le := Nat.zero_le _
  pi_le := Nat.zero_le _
  star_lt := by simp
  star_percent := by simp
  star_single := by simp
  star_apart := by simp

/-- The pattern's character takes the text's. -/
def take (c : Cursors t p) (ht : c.ti < t.length) (hp : c.pi < p.length)
    (hne : p[c.pi]? ≠ some '%') : Cursors t p where
  ti := c.ti + 1
  pi := c.pi + 1
  star := c.star
  ti_le := ht
  pi_le := hp
  star_lt sp st h := Nat.lt_succ_of_lt (c.star_lt sp st h)
  star_percent := c.star_percent
  star_single sp st h i hlow hup := by
    rcases Nat.lt_succ_iff_lt_or_eq.1 hup with hlt | rfl
    · exact c.star_single sp st h i hlow hlt
    · exact hne
  star_apart sp st h := by
    have := c.star_apart sp st h
    omega

/-- A `%`, which takes nothing at first. -/
def mark (c : Cursors t p) (hp : c.pi < p.length) (hpercent : p[c.pi]? = some '%') :
    Cursors t p where
  ti := c.ti
  pi := c.pi + 1
  star := some (c.pi, c.ti)
  ti_le := c.ti_le
  pi_le := hp
  star_lt := by
    rintro sp st ⟨⟩
    omega
  star_percent := by
    rintro sp st ⟨⟩
    exact hpercent
  star_single := by
    rintro sp st ⟨⟩ i hlow hup
    omega
  star_apart := by
    rintro sp st ⟨⟩
    omega

/-- Back to the last `%`, which takes one character more. -/
def retry (c : Cursors t p) (ht : c.ti < t.length) (sp st : Nat)
    (hstar : c.star = some (sp, st)) : Cursors t p where
  ti := st + 1
  pi := sp + 1
  star := some (sp, st + 1)
  ti_le := by
    have := c.star_lt sp st hstar
    have := c.star_apart sp st hstar
    omega
  pi_le := by
    have := c.star_lt sp st hstar
    have := c.pi_le
    omega
  star_lt := by
    rintro sp st ⟨⟩
    omega
  star_percent := by
    rintro sp st ⟨⟩
    exact c.star_percent _ _ hstar
  star_single := by
    rintro sp st ⟨⟩ i hlow hup
    omega
  star_apart := by
    rintro sp st ⟨⟩
    omega

/-- One round of the loop: the next cursors, or the answer. -/
def round (c : Cursors t p) : Cursors t p ⊕ Bool :=
  if ht : c.ti < t.length then
    if h : c.pi < p.length ∧
        (p[c.pi]? = some '_' ∨ (p[c.pi]? ≠ some '%' ∧ p[c.pi]? = t[c.ti]?)) then
      .inl (c.take ht h.1 (by
        rcases h.2 with h | h
        · simp [h]
        · exact h.1))
    else if h : c.pi < p.length ∧ p[c.pi]? = some '%' then
      .inl (c.mark h.1 h.2)
    else
      match hstar : c.star with
      | some (sp, st) => .inl (c.retry ht sp st hstar)
      | none => .inr false
  else .inr ((p.drop c.pi).all (· == '%'))

/-- A bound on the rounds that are left: the pattern is gone through at most once for each
character the last `%` can still take. -/
def work (c : Cursors t p) : Nat :=
  match c.star with
  | none => (p.length - c.pi) + 1 + (t.length - c.ti) * (p.length - c.pi + 1)
  | some (sp, st) => (p.length - c.pi) + 1 + (t.length - st) * (p.length - sp)

section

variable (c : Cursors t p)

@[simp] theorem take_ti (ht hp hne) : (c.take ht hp hne).ti = c.ti + 1 := rfl

@[simp] theorem take_pi (ht hp hne) : (c.take ht hp hne).pi = c.pi + 1 := rfl

@[simp] theorem take_star (ht hp hne) : (c.take ht hp hne).star = c.star := rfl

@[simp] theorem mark_ti (hp h) : (c.mark hp h).ti = c.ti := rfl

@[simp] theorem mark_pi (hp h) : (c.mark hp h).pi = c.pi + 1 := rfl

@[simp] theorem mark_star (hp h) : (c.mark hp h).star = some (c.pi, c.ti) := rfl

@[simp] theorem retry_ti (ht sp st h) : (c.retry ht sp st h).ti = st + 1 := rfl

@[simp] theorem retry_pi (ht sp st h) : (c.retry ht sp st h).pi = sp + 1 := rfl

@[simp] theorem retry_star (ht sp st h) : (c.retry ht sp st h).star = some (sp, st + 1) := rfl

end

/-- What a round does, case by case. -/
inductive Round (c : Cursors t p) : Cursors t p ⊕ Bool → Prop
  | take (ht : c.ti < t.length) (hp : c.pi < p.length) (hne : p[c.pi] ≠ '%')
      (h : p[c.pi] = '_' ∨ p[c.pi] = t[c.ti]) :
      Round c (.inl (c.take ht hp (by simpa [List.getElem?_eq_getElem hp] using hne)))
  | mark (ht : c.ti < t.length) (hp : c.pi < p.length) (h : p[c.pi] = '%') :
      Round c (.inl (c.mark hp (by simpa [List.getElem?_eq_getElem hp] using h)))
  | retry (ht : c.ti < t.length) (sp st : Nat) (hstar : c.star = some (sp, st))
      (h : ∀ hp : c.pi < p.length, p[c.pi] ≠ '%' ∧ p[c.pi] ≠ '_' ∧ p[c.pi] ≠ t[c.ti]) :
      Round c (.inl (c.retry ht sp st hstar))
  | fails (ht : c.ti < t.length) (hstar : c.star = none)
      (h : ∀ hp : c.pi < p.length, p[c.pi] ≠ '%' ∧ p[c.pi] ≠ '_' ∧ p[c.pi] ≠ t[c.ti]) :
      Round c (.inr false)
  | ends (ht : ¬ c.ti < t.length) : Round c (.inr ((p.drop c.pi).all (· == '%')))

theorem round_spec (c : Cursors t p) : Round c c.round := by
  unfold round
  split
  · rename_i ht
    split
    · rename_i h
      have hp := h.1
      have hchars := h.2
      simp only [List.getElem?_eq_getElem hp, List.getElem?_eq_getElem ht,
        Option.some.injEq] at hchars
      refine Round.take ht hp ?_ ?_
      · rcases hchars with h | h
        · rw [h]; decide
        · simpa using h.1
      · rcases hchars with h | h
        · exact Or.inl h
        · exact Or.inr h.2
    · rename_i hnot
      split
      · rename_i h
        have hp := h.1
        have hpercent := h.2
        simp only [List.getElem?_eq_getElem hp, Option.some.injEq] at hpercent
        exact Round.mark ht hp hpercent
      · rename_i hplain
        have hmiss : ∀ hp : c.pi < p.length,
            p[c.pi] ≠ '%' ∧ p[c.pi] ≠ '_' ∧ p[c.pi] ≠ t[c.ti] := by
          intro hp
          simp only [List.getElem?_eq_getElem hp, List.getElem?_eq_getElem ht,
            Option.some.injEq, ne_eq, hp, true_and] at hnot hplain
          tauto
        split
        · rename_i sp st hstar
          exact Round.retry ht sp st hstar hmiss
        · rename_i hstar
          exact Round.fails ht hstar hmiss
  · rename_i ht
    exact Round.ends ht

theorem Round.work_lt {c c' : Cursors t p} {out : Cursors t p ⊕ Bool} (h : Round c out)
    (hout : out = .inl c') : c'.work < c.work := by
  cases h with
  | take ht hp hne hch =>
    cases hout
    cases hstar : c.star with
    | none =>
      have hmul : (t.length - (c.ti + 1)) * (p.length - (c.pi + 1) + 1) ≤
          (t.length - c.ti) * (p.length - c.pi + 1) :=
        Nat.mul_le_mul (by omega) (by omega)
      simp only [work, take_ti, take_pi, take_star, hstar]
      omega
    | some star =>
      simp only [work, take_pi, take_star, hstar]
      omega
  | mark ht hp hch =>
    cases hout
    cases hstar : c.star with
    | none =>
      have hmul : (t.length - c.ti) * (p.length - c.pi) ≤
          (t.length - c.ti) * (p.length - c.pi + 1) := Nat.mul_le_mul_left _ (by omega)
      simp only [work, mark_pi, mark_star, hstar]
      omega
    | some star =>
      have hlt := c.star_lt star.1 star.2 hstar
      have hapart := c.star_apart star.1 star.2 hstar
      have hmul : (t.length - c.ti) * (p.length - c.pi) ≤
          (t.length - star.2) * (p.length - star.1) :=
        Nat.mul_le_mul (by omega) (by omega)
      simp only [work, mark_pi, mark_star, hstar]
      omega
  | retry ht sp st hstar hch =>
    cases hout
    have hlt := c.star_lt sp st hstar
    have hapart := c.star_apart sp st hstar
    have hpi := c.pi_le
    have hmul : (t.length - st) * (p.length - sp) =
        (t.length - (st + 1)) * (p.length - sp) + (p.length - sp) := by
      rw [← Nat.succ_mul]
      congr 1
      omega
    simp only [work, retry_pi, retry_star, hstar]
    omega
  | fails ht hstar hch => cases hout
  | ends ht => cases hout

/-- The loop: rounds until one answers. -/
def run (c : Cursors t p) : Bool :=
  match _h : c.round with
  | .inl next => run next
  | .inr answer => answer
termination_by c.work
decreasing_by exact (round_spec c).work_lt _h

theorem run_inl {c next : Cursors t p} (h : c.round = .inl next) : c.run = next.run := by
  rw [run]
  split
  · rename_i h'
    rw [h] at h'
    cases h'
    rfl
  · rename_i h'
    rw [h] at h'
    cases h'

theorem run_inr {c : Cursors t p} {answer : Bool} (h : c.round = .inr answer) :
    c.run = answer := by
  rw [run]
  split
  · rename_i h'
    rw [h] at h'
    cases h'
  · rename_i h'
    rw [h] at h'
    cases h'
    rfl

/-! ## What the cursors still allow -/

/-- A character other than `%` takes one character: any, or itself. -/
theorem matches_char {x a : Char} {ps ts : List Char} (hx : x ≠ '%') :
    Matches likeSymbol (x :: ps) (a :: ts) ↔ (x = '_' ∨ x = a) ∧ Matches likeSymbol ps ts := by
  by_cases hone : x = '_'
  · have hsymbol : likeSymbol x = some fun _ => True := by
      rw [likeSymbol, if_neg hx, if_pos hone]
    rw [matches_single hsymbol]
    simp [hone]
  · have hsymbol : likeSymbol x = some (· = x) := by
      rw [likeSymbol, if_neg hx, if_neg hone]
    rw [matches_single hsymbol]
    simp [hone, eq_comm]

/-- What is left of the pattern matches what is left of the text, or the last `%` and what
follows it match what is left when that `%` takes more. -/
def Open (c : Cursors t p) : Prop :=
  Matches likeSymbol (p.drop c.pi) (t.drop c.ti) ∨
    ∃ sp st, c.star = some (sp, st) ∧ st < t.length ∧
      Matches likeSymbol (p.drop sp) (t.drop (st + 1))

private theorem drop_percent {i : Nat} (h : p[i]? = some '%') :
    p.drop i = '%' :: p.drop (i + 1) := by
  obtain ⟨hi, h⟩ := List.getElem?_eq_some_iff.1 h
  rw [← h]
  exact List.drop_eq_getElem_cons hi

/-- Where the last `%` may still take more, the place after what has been matched since
is no earlier than the text's cursor. -/
theorem later (c : Cursors t p) {sp st : Nat} (hstar : c.star = some (sp, st))
    (hst : st < t.length) (h : Matches likeSymbol (p.drop sp) (t.drop (st + 1))) :
    ∃ k, c.ti + k + 1 ≤ t.length ∧ Matches likeSymbol (p.drop c.pi) (t.drop (c.ti + k + 1)) := by
  have hlt := c.star_lt sp st hstar
  have hapart := c.star_apart sp st hstar
  rw [drop_percent (c.star_percent sp st hstar),
    matches_run (likeSymbol_eq_none.2 rfl)] at h
  obtain ⟨k, hlen, hk⟩ := h
  rw [List.length_drop] at hlen
  have hseg : ∀ x ∈ (p.drop (sp + 1)).take (c.pi - (sp + 1)), (likeSymbol x).isSome := by
    intro x hx
    rw [Option.isSome_iff_ne_none, ne_eq, likeSymbol_eq_none]
    rintro rfl
    obtain ⟨i, hi, hget⟩ := List.getElem_of_mem hx
    rw [List.length_take] at hi
    rw [List.getElem_take, List.getElem_drop] at hget
    exact c.star_single sp st hstar (sp + 1 + i) (by omega) (by omega)
      (List.getElem?_eq_some_iff.2 ⟨_, hget⟩)
  have hsplit : p.drop (sp + 1) =
      (p.drop (sp + 1)).take (c.pi - (sp + 1)) ++ p.drop c.pi := by
    have hcat := List.take_append_drop (c.pi - (sp + 1)) (p.drop (sp + 1))
    rw [List.drop_drop, show sp + 1 + (c.pi - (sp + 1)) = c.pi by omega] at hcat
    exact hcat.symm
  have hpi := c.pi_le
  have htaken : ((p.drop (sp + 1)).take (c.pi - (sp + 1))).length = c.pi - (sp + 1) := by
    rw [List.length_take, List.length_drop]
    omega
  rw [hsplit, List.drop_drop] at hk
  have hrest := hk.singles hseg
  rw [htaken, List.length_drop, List.drop_drop] at hrest
  refine ⟨k, by omega, ?_⟩
  rw [show c.ti + k + 1 = st + 1 + k + (c.pi - (sp + 1)) by omega]
  exact hrest.2

/-- Where the pattern's character does not take the text's, nothing is left to match
without going back. -/
theorem missed (c : Cursors t p) (ht : c.ti < t.length)
    (h : ∀ hp : c.pi < p.length, p[c.pi] ≠ '%' ∧ p[c.pi] ≠ '_' ∧ p[c.pi] ≠ t[c.ti]) :
    ¬ Matches likeSymbol (p.drop c.pi) (t.drop c.ti) := by
  rw [List.drop_eq_getElem_cons ht]
  by_cases hp : c.pi < p.length
  · rw [List.drop_eq_getElem_cons hp, matches_char (h hp).1]
    rintro ⟨hch, -⟩
    rcases hch with hch | hch
    · exact (h hp).2.1 hch
    · exact (h hp).2.2 hch
  · rw [List.drop_eq_nil_of_le (Nat.le_of_not_lt hp), matches_nil_pattern]
    exact List.cons_ne_nil _ _

/-- A round keeps what the cursors allow, and answers accordingly. -/
theorem Round.open_iff {c : Cursors t p} {out : Cursors t p ⊕ Bool} (h : Round c out) :
    c.Open ↔ out.elim Open (· = true) := by
  cases h with
  | take ht hp hne hch =>
    show c.Open ↔ Matches likeSymbol (p.drop (c.pi + 1)) (t.drop (c.ti + 1)) ∨ _
    rw [Open, List.drop_eq_getElem_cons hp, List.drop_eq_getElem_cons ht,
      matches_char hne, and_iff_right hch]
    rfl
  | mark ht hp hch =>
    have hpercent : p[c.pi]? = some '%' := List.getElem?_eq_some_iff.2 ⟨hp, hch⟩
    have hstep : Matches likeSymbol ('%' :: p.drop (c.pi + 1)) (t.drop c.ti) ↔ _ :=
      matches_run_step (likeSymbol_eq_none.2 rfl)
    rw [← drop_percent hpercent, List.length_drop, List.drop_drop] at hstep
    have hopen : c.Open ↔ Matches likeSymbol (p.drop c.pi) (t.drop c.ti) := by
      constructor
      · rintro (h | ⟨sp, st, hstar, hst, h⟩)
        · exact h
        · -- the earlier `%` has nothing to offer that this one has not
          obtain ⟨k, hk, hlater⟩ := c.later hstar hst h
          rw [drop_percent hpercent] at hlater ⊢
          apply Matches.extend (k := k + 1) (likeSymbol_eq_none.2 rfl)
          · rw [List.length_drop]
            omega
          · rwa [List.drop_drop]
      · exact Or.inl
    rw [hopen, hstep]
    show _ ↔ _ ∨ ∃ sp st, some (c.pi, c.ti) = some (sp, st) ∧ _
    simp
  | retry ht sp st hstar hch =>
    have hmiss := missed c ht hch
    have hlt := c.star_lt sp st hstar
    have hapart := c.star_apart sp st hstar
    have hstep : Matches likeSymbol ('%' :: p.drop (sp + 1)) (t.drop (st + 1)) ↔ _ :=
      matches_run_step (likeSymbol_eq_none.2 rfl)
    rw [← drop_percent (c.star_percent sp st hstar), List.length_drop,
      List.drop_drop] at hstep
    have hopen : c.Open ↔ Matches likeSymbol (p.drop sp) (t.drop (st + 1)) := by
      constructor
      · rintro (h | ⟨sp', st', hstar', hst, h⟩)
        · exact absurd h hmiss
        · rw [hstar] at hstar'
          cases hstar'
          exact h
      · intro h
        exact Or.inr ⟨sp, st, hstar, by omega, h⟩
    rw [hopen, hstep]
    show _ ↔ _ ∨ ∃ sp' st', some (sp, st + 1) = some (sp', st') ∧ _
    simp
  | fails ht hstar hch =>
    have hmiss := missed c ht hch
    simp [Open, hmiss, hstar]
  | ends ht =>
    have hend : t.drop c.ti = [] := List.drop_eq_nil_of_le (Nat.le_of_not_lt ht)
    have hopen : c.Open ↔ Matches likeSymbol (p.drop c.pi) [] := by
      rw [Open, hend]
      constructor
      · rintro (h | ⟨sp, st, hstar, hst, h⟩)
        · exact h
        · obtain ⟨k, hk, -⟩ := c.later hstar hst h
          omega
      · exact Or.inl
    rw [hopen, matches_nil]
    simp only [likeSymbol_eq_none, Sum.elim_inr, List.all_eq_true, beq_iff_eq]

/-- The loop answers yes exactly when the cursors still allow a cut. -/
theorem run_iff (c : Cursors t p) : c.run = true ↔ c.Open := by
  induction c using run.induct with
  | case1 c next hround ih =>
    have hopen := (round_spec c).open_iff
    rw [hround, Sum.elim_inl] at hopen
    rw [hopen, ← ih, run_inl hround]
  | case2 c answer hround =>
    have hopen := (round_spec c).open_iff
    rw [hround, Sum.elim_inr] at hopen
    rw [hopen, run_inr hround]

/-! ## The evaluator's matcher -/

/-- The last `%` as what follows it and the text it was last tried at. -/
def starLists (c : Cursors t p) : Option (List Char × List Char) :=
  c.star.map fun s => (p.drop (s.1 + 1), t.drop s.2)

theorem likeFrom_round {c next : Cursors t p} (h : Round c (.inl next)) (fuel : Nat) :
    likeFrom (t.drop c.ti) (p.drop c.pi) c.starLists (fuel + 1) =
      likeFrom (t.drop next.ti) (p.drop next.pi) next.starLists fuel := by
  cases h with
  | take ht hp hne hch =>
    have hif : p[c.pi] = '_' ∨ p[c.pi] ≠ '%' ∧ p[c.pi] = t[c.ti] :=
      hch.imp_right fun heq => ⟨hne, heq⟩
    rw [List.drop_eq_getElem_cons ht, List.drop_eq_getElem_cons hp, likeFrom, if_pos hif]
    rfl
  | mark ht hp hch =>
    have hif : ¬ (p[c.pi] = '_' ∨ p[c.pi] ≠ '%' ∧ p[c.pi] = t[c.ti]) := by
      rw [hch]
      simp
    rw [List.drop_eq_getElem_cons ht, List.drop_eq_getElem_cons hp, likeFrom, if_neg hif,
      if_pos hch, ← List.drop_eq_getElem_cons ht]
    rfl
  | retry ht sp st hstar hch =>
    have hlt := c.star_lt sp st hstar
    have hapart := c.star_apart sp st hstar
    have hst : st < t.length := by omega
    have hretry : likeFrom.retry c.starLists fuel =
        likeFrom (t.drop (st + 1)) (p.drop (sp + 1))
          (some (p.drop (sp + 1), t.drop (st + 1))) fuel := by
      rw [starLists, hstar, Option.map_some, List.drop_eq_getElem_cons hst, likeFrom.retry]
    rw [List.drop_eq_getElem_cons ht]
    by_cases hp : c.pi < p.length
    · have hif : ¬ (p[c.pi] = '_' ∨ p[c.pi] ≠ '%' ∧ p[c.pi] = t[c.ti]) := by
        have := hch hp
        tauto
      rw [List.drop_eq_getElem_cons hp, likeFrom, if_neg hif, if_neg (hch hp).1, hretry]
      rfl
    · rw [List.drop_eq_nil_of_le (Nat.le_of_not_lt hp), likeFrom, hretry]
      rfl

theorem likeFrom_answer {c : Cursors t p} {answer : Bool} (h : Round c (.inr answer))
    (fuel : Nat) :
    likeFrom (t.drop c.ti) (p.drop c.pi) c.starLists (fuel + 1) = answer := by
  cases h with
  | fails ht hstar hch =>
    have hretry : likeFrom.retry c.starLists fuel = false := by
      simp [starLists, hstar, likeFrom.retry]
    rw [List.drop_eq_getElem_cons ht]
    by_cases hp : c.pi < p.length
    · have hif : ¬ (p[c.pi] = '_' ∨ p[c.pi] ≠ '%' ∧ p[c.pi] = t[c.ti]) := by
        have := hch hp
        tauto
      rw [List.drop_eq_getElem_cons hp, likeFrom, if_neg hif, if_neg (hch hp).1, hretry]
    · rw [List.drop_eq_nil_of_le (Nat.le_of_not_lt hp), likeFrom, hretry]
  | ends ht =>
    rw [List.drop_eq_nil_of_le (Nat.le_of_not_lt ht), likeFrom]

/-- The matcher on what is left of text and pattern is the loop, given more rounds than
the loop can still need. -/
theorem likeFrom_eq_run (c : Cursors t p) (fuel : Nat) (h : c.work < fuel) :
    likeFrom (t.drop c.ti) (p.drop c.pi) c.starLists fuel = c.run := by
  induction c using run.induct generalizing fuel with
  | case1 c next hround ih =>
    have hspec := round_spec c
    rw [hround] at hspec
    have hlt := hspec.work_lt rfl
    obtain ⟨fuel, rfl⟩ : ∃ n, fuel = n + 1 := ⟨fuel - 1, by omega⟩
    rw [likeFrom_round hspec, ih fuel (by omega), run_inl hround]
  | case2 c answer hround =>
    have hspec := round_spec c
    rw [hround] at hspec
    obtain ⟨fuel, rfl⟩ : ∃ n, fuel = n + 1 := ⟨fuel - 1, by omega⟩
    rw [likeFrom_answer hspec, run_inr hround]

end Cursors

/-- `like_matches`, its loop on both cursors. -/
def twoPointer (text pattern : String) : Bool :=
  (Cursors.start text.toList pattern.toList).run

theorem likeMatches_eq_twoPointer (text pattern : String) :
    likeMatches text pattern = twoPointer text pattern := by
  have hwork : (Cursors.start text.toList pattern.toList).work <
      (text.length + 1) * (pattern.length + 1) + 1 := by
    show pattern.toList.length - 0 + 1 +
      (text.toList.length - 0) * (pattern.toList.length - 0 + 1) < _
    rw [String.length_toList, String.length_toList, Nat.sub_zero, Nat.sub_zero, Nat.succ_mul]
    omega
  exact Cursors.likeFrom_eq_run (.start text.toList pattern.toList) _ hwork

/-- LIKE matches its definition.  The loop ends on every text and pattern, with what the
evaluator's matcher answers, and that is yes exactly when the text can be cut into one
piece for each character of the pattern. -/
theorem likeMatches_iff_cut (text pattern : String) :
    likeMatches text pattern = twoPointer text pattern ∧
      (likeMatches text pattern = true ↔
        Matches likeSymbol pattern.toList text.toList) := by
  refine ⟨likeMatches_eq_twoPointer text pattern, ?_⟩
  rw [likeMatches_eq_twoPointer, twoPointer, Cursors.run_iff]
  simp [Cursors.Open, Cursors.start]

end SquealDb.Sql
