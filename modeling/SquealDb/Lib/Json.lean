import Mathlib.Data.List.Basic
import Mathlib.Tactic.Common

/-!
# Compact JSON text

A JSON tree tells an integer from other numbers and keeps the fields of an object in
order, repeated names included.  Its compact text has no spaces; how strings and the
numbers that are no integers are written is left to a choice of tokens.

`read` reads compact texts of one such choice back: a string's quotes, backslashes and
control characters are escaped, and a number of any type `δ` that counts is written
with an exponent.

Nothing in this module names a particular reader or writer.
-/

namespace SquealDb.Lib

/-- A JSON value; `δ` are the numbers that are no integers. -/
inductive Json (δ : Type) where
  | null
  | bool (b : Bool)
  | int (i : Int)
  | double (d : δ)
  | string (s : String)
  | array (items : List (Json δ))
  | object (fields : List (String × Json δ))

/-- How strings and numbers are written. -/
structure Json.Tokens (δ : Type) where
  string : String → List Char
  double : δ → List Char

namespace Json

variable {δ : Type}

section Writing

variable (t : Tokens δ)

mutual

/-- The text without spaces. -/
def compact : Json δ → List Char
  | null => "null".toList
  | bool b => (if b then "true" else "false").toList
  | int i => (toString i).toList
  | double d => t.double d
  | string s => t.string s
  | array items => '[' :: compactItems true items ++ [']']
  | object fields => '{' :: compactFields true fields ++ ['}']

/-- Items with commas between them, and one in front unless they are the first. -/
def compactItems (first : Bool) : List (Json δ) → List Char
  | [] => []
  | j :: js => (if first then [] else [',']) ++ compact j ++ compactItems false js

def compactFields (first : Bool) : List (String × Json δ) → List Char
  | [] => []
  | (k, j) :: fields =>
    (if first then [] else [',']) ++ t.string k ++ ':' :: compact j ++ compactFields false fields

end

end Writing

section Printable

variable (finite : δ → Prop)

mutual

/-- A tree that has a text: its numbers are of 64 bits, or finite. -/
def Printable : Json δ → Prop
  | int i => -2 ^ 63 ≤ i ∧ i < 2 ^ 64
  | double d => finite d
  | array items => PrintableItems items
  | object fields => PrintableFields fields
  | _ => True

def PrintableItems : List (Json δ) → Prop
  | [] => True
  | j :: js => Printable j ∧ PrintableItems js

def PrintableFields : List (String × Json δ) → Prop
  | [] => True
  | (_, j) :: fields => Printable j ∧ PrintableFields fields

end

end Printable

/-! ## Reading -/

/-- A string's character as it is written. -/
def escapeChar (c : Char) : List Char :=
  if c = '"' then ['\\', '"']
  else if c = '\\' then ['\\', '\\']
  else if c.toNat < 32 then
    ['\\', 'u', '0', '0', Nat.digitChar (c.toNat / 16), Nat.digitChar (c.toNat % 16)]
  else [c]

def hexDigit (c : Char) : Option Nat :=
  if c.isDigit then some (c.toNat - 48)
  else if 'a' ≤ c ∧ c ≤ 'f' then some (c.toNat - 87)
  else none

/-- The string up to its closing quote, and what follows. -/
def readString : List Char → Option (List Char × List Char)
  | [] => none
  | '"' :: rest => some ([], rest)
  | '\\' :: '"' :: rest => (readString rest).map fun p => ('"' :: p.1, p.2)
  | '\\' :: '\\' :: rest => (readString rest).map fun p => ('\\' :: p.1, p.2)
  | '\\' :: 'u' :: '0' :: '0' :: h :: l :: rest => do
    let high ← hexDigit h
    let low ← hexDigit l
    let (cs, rest') ← readString rest
    return (Char.ofNat (16 * high + low) :: cs, rest')
  | '\\' :: _ => none
  | c :: rest => (readString rest).map fun p => (c :: p.1, p.2)

def isNumberChar (c : Char) : Bool := c.isDigit || c == '-' || c == 'e'

/-- A number: an integer unless it has an exponent. -/
def numberOf (double : Nat → Option δ) (token : List Char) : Option (Json δ) :=
  match token with
  | [] => none
  | '-' :: digits => some (int (-(Nat.ofDigitChars 10 digits 0 : Int)))
  | _ =>
    if token.getLast? = some 'e' then
      (double (Nat.ofDigitChars 10 token.dropLast 0)).map Json.double
    else some (int (Nat.ofDigitChars 10 token 0))

section Parts

variable (value : List Char → Option (Json δ × List Char))

/-- The items of an array that has some. -/
def readItems : Nat → List Char → Option (List (Json δ) × List Char)
  | 0, _ => none
  | fuel + 1, text => do
    let (j, rest) ← value text
    match rest with
    | ',' :: rest =>
      let (js, rest') ← readItems fuel rest
      return (j :: js, rest')
    | ']' :: rest => return ([j], rest)
    | _ => none

/-- The fields of an object that has some. -/
def readFields : Nat → List Char → Option (List (String × Json δ) × List Char)
  | 0, _ => none
  | fuel + 1, text =>
    match text with
    | '"' :: text => do
      let (key, rest) ← readString text
      match rest with
      | ':' :: rest =>
        let (j, rest) ← value rest
        match rest with
        | ',' :: rest =>
          let (fields, rest') ← readFields fuel rest
          return ((String.ofList key, j) :: fields, rest')
        | '}' :: rest => return ([(String.ofList key, j)], rest)
        | _ => none
      | _ => none
    | _ => none

end Parts

section Values

variable (double : Nat → Option δ)

def readValue : Nat → List Char → Option (Json δ × List Char)
  | 0, _ => none
  | fuel + 1, text =>
    match text with
    | 'n' :: 'u' :: 'l' :: 'l' :: rest => some (null, rest)
    | 't' :: 'r' :: 'u' :: 'e' :: rest => some (bool true, rest)
    | 'f' :: 'a' :: 'l' :: 's' :: 'e' :: rest => some (bool false, rest)
    | '"' :: rest => (readString rest).map fun p => (string (String.ofList p.1), p.2)
    | '[' :: ']' :: rest => some (array [], rest)
    | '[' :: rest => (readItems (readValue fuel) fuel rest).map fun p => (array p.1, p.2)
    | '{' :: '}' :: rest => some (object [], rest)
    | '{' :: rest => (readFields (readValue fuel) fuel rest).map fun p => (object p.1, p.2)
    | _ =>
      (numberOf double (text.takeWhile isNumberChar)).map fun j =>
        (j, text.dropWhile isNumberChar)

/-- The tree of a whole text. -/
def read (text : List Char) : Option (Json δ) :=
  match readValue double (text.length + 1) text with
  | some (j, []) => some j
  | _ => none

end Values

/-- The tokens that `read` reads, where a double is counted. -/
def tokens (count : δ → Nat) : Tokens δ where
  string s := '"' :: s.toList.flatMap escapeChar ++ ['"']
  double d := Nat.toDigits 10 (count d) ++ ['e']

/-! ## Strings are read back -/

theorem hexDigit_digitChar : ∀ n < 16, hexDigit (Nat.digitChar n) = some n := by decide

theorem readString_cons {c : Char} (hquote : c ≠ '"') (hslash : c ≠ '\\') (rest : List Char) :
    readString (c :: rest) = (readString rest).map fun p => (c :: p.1, p.2) := by
  rw [readString.eq_def]
  split <;> simp_all

theorem readString_escapeChar (c : Char) (rest : List Char) :
    readString (escapeChar c ++ rest) = (readString rest).map fun p => (c :: p.1, p.2) := by
  unfold escapeChar
  split
  · next hquote =>
      subst hquote
      rfl
  · next hquote =>
      split
      · next hslash =>
          subst hslash
          rfl
      · next hslash =>
          split
          · next hlow =>
              have hhigh := hexDigit_digitChar (c.toNat / 16) (by omega)
              have hdigit := hexDigit_digitChar (c.toNat % 16) (by omega)
              have hchar : Char.ofNat (16 * (c.toNat / 16) + c.toNat % 16) = c := by
                rw [Nat.div_add_mod, Char.ofNat_toNat]
              show (do
                let high ← hexDigit (Nat.digitChar (c.toNat / 16))
                let low ← hexDigit (Nat.digitChar (c.toNat % 16))
                let (cs, rest') ← readString rest
                return (Char.ofNat (16 * high + low) :: cs, rest')) = _
              rw [hhigh, hdigit]
              show (do
                let (cs, rest') ← readString rest
                return (Char.ofNat (16 * (c.toNat / 16) + c.toNat % 16) :: cs, rest')) = _
              rw [hchar]
              cases readString rest <;> rfl
          · exact readString_cons hquote hslash rest

theorem readString_escape (cs rest : List Char) :
    readString (cs.flatMap escapeChar ++ '"' :: rest) = some (cs, rest) := by
  induction cs with
  | nil => rfl
  | cons c cs ih =>
    rw [List.flatMap_cons, List.append_assoc, readString_escapeChar, ih]
    rfl

/-! ## Numbers are read back -/

/-- What follows does not go on with a number. -/
def Stops (rest : List Char) : Prop := ∀ c ∈ rest.head?, isNumberChar c = false

theorem takeWhile_number {token rest : List Char} (htoken : ∀ c ∈ token, isNumberChar c = true)
    (hrest : Stops rest) : (token ++ rest).takeWhile isNumberChar = token ∧
      (token ++ rest).dropWhile isNumberChar = rest := by
  have hstop : rest.takeWhile isNumberChar = [] ∧ rest.dropWhile isNumberChar = rest := by
    cases rest with
    | nil => exact ⟨rfl, rfl⟩
    | cons c rest =>
      have hc := hrest c rfl
      rw [List.takeWhile_cons, List.dropWhile_cons, hc]
      exact ⟨rfl, rfl⟩
  rw [List.takeWhile_append_of_pos htoken, List.dropWhile_append_of_pos htoken, hstop.1, hstop.2,
    List.append_nil]
  exact ⟨rfl, rfl⟩

theorem isNumberChar_digit {n : Nat} {c : Char} (h : c ∈ Nat.toDigits 10 n) :
    c.isDigit = true ∧ isNumberChar c = true := by
  have hdigit : c.isDigit = true := Nat.isDigit_of_mem_toDigits (by decide) (by decide) h
  exact ⟨hdigit, by rw [isNumberChar, hdigit]; rfl⟩

private theorem toList_int (i : Int) :
    (toString i).toList =
      if i < 0 then '-' :: Nat.toDigits 10 i.natAbs else Nat.toDigits 10 i.natAbs := by
  cases i with
  | ofNat n =>
    have hpos : ¬ Int.ofNat n < 0 := Int.not_lt.mpr (Int.natCast_nonneg n)
    rw [if_neg hpos]
    exact Nat.toList_repr
  | negSucc n =>
    rw [if_pos (Int.negSucc_lt_zero n)]
    show (("-" : String) ++ (n + 1).repr).toList = _
    rw [String.toList_append, Nat.toList_repr]
    rfl

section Reading

variable (double : Nat → Option δ)

variable {c : Char} {rest : List Char}

/-- A text that begins as a number does. -/
theorem readValue_number (hc : c.isDigit = true ∨ c = '-') (fuel : Nat) (text : List Char) :
    readValue double (fuel + 1) (c :: text) =
      (numberOf double ((c :: text).takeWhile isNumberChar)).map fun j =>
        (j, (c :: text).dropWhile isNumberChar) := by
  have hne : c ≠ 'n' ∧ c ≠ 't' ∧ c ≠ 'f' ∧ c ≠ '"' ∧ c ≠ '[' ∧ c ≠ '{' := by
    rcases hc with hdigit | hminus
    · refine ⟨?_, ?_, ?_, ?_, ?_, ?_⟩ <;> (intro h; subst h; revert hdigit; decide)
    · subst hminus
      decide
  rw [readValue.eq_def]
  dsimp only
  split <;> simp_all

/-- A number's text begins with a digit or a minus, and has no other than a number's
characters. -/
theorem readValue_token {token : List Char} {j : Json δ} (fuel : Nat)
    (hhead : ∀ c ∈ token.head?, c.isDigit = true ∨ c = '-') (hne : token ≠ [])
    (htoken : ∀ c ∈ token, isNumberChar c = true) (hrest : Stops rest)
    (hnumber : numberOf double token = some j) :
    readValue double (fuel + 1) (token ++ rest) = some (j, rest) := by
  obtain ⟨htake, hdrop⟩ := takeWhile_number htoken hrest
  cases token with
  | nil => exact absurd rfl hne
  | cons c token =>
    rw [List.cons_append, readValue_number double (hhead c rfl), ← List.cons_append, htake, hdrop,
      hnumber]
    rfl

private theorem digits_head {n : Nat} (h : c ∈ (Nat.toDigits 10 n).head?) : c.isDigit = true :=
  (isNumberChar_digit (List.mem_of_mem_head? h)).1

theorem numberOf_digits (n : Nat) : numberOf double (Nat.toDigits 10 n) = some (int n) := by
  have hvalue : Nat.ofDigitChars 10 (Nat.toDigits 10 n) 0 = n := Nat.ofDigitChars_ten_toDigits
  have hdigits : ∀ c ∈ Nat.toDigits 10 n, c.isDigit = true := fun c hc => (isNumberChar_digit hc).1
  have hlast : (Nat.toDigits 10 n).getLast? ≠ some 'e' := fun h =>
    absurd (hdigits 'e' (List.mem_of_getLast? h)) (by decide)
  unfold numberOf
  split
  · next hnil => exact absurd hnil (Nat.toDigits_ne_nil)
  · next digits hminus =>
      exact absurd (hdigits '-' (by rw [hminus]; exact List.mem_cons_self)) (by decide)
  · rw [if_neg hlast, hvalue]

theorem readValue_int (i : Int) (fuel : Nat) (hrest : Stops rest) :
    readValue double (fuel + 1) ((toString i).toList ++ rest) = some (int i, rest) := by
  have hdigits : ∀ c ∈ Nat.toDigits 10 i.natAbs, isNumberChar c = true :=
    fun c hc => (isNumberChar_digit hc).2
  rw [toList_int]
  by_cases hneg : i < 0
  · rw [if_pos hneg]
    refine readValue_token double fuel ?_ nofun ?_ hrest ?_
    · intro c hc
      exact Or.inr (Option.some.inj hc).symm
    · intro c hc
      rcases List.mem_cons.mp hc with hminus | hdigit
      · subst hminus
        rfl
      · exact hdigits c hdigit
    · have hvalue : Nat.ofDigitChars 10 (Nat.toDigits 10 i.natAbs) 0 = i.natAbs :=
        Nat.ofDigitChars_ten_toDigits
      show some (int (-(Nat.ofDigitChars 10 (Nat.toDigits 10 i.natAbs) 0 : Int))) = _
      rw [hvalue, show -(i.natAbs : Int) = i by omega]
  · rw [if_neg hneg]
    refine readValue_token double fuel (fun c hc => Or.inl (digits_head hc)) Nat.toDigits_ne_nil
      hdigits hrest ?_
    rw [numberOf_digits, show (i.natAbs : Int) = i by omega]

variable {double} {count : δ → Nat}

theorem readValue_double {d : δ} (hd : double (count d) = some d) (fuel : Nat)
    (hrest : Stops rest) :
    readValue double (fuel + 1) ((tokens count).double d ++ rest) = some (.double d, rest) := by
  have hdigits : ∀ c ∈ Nat.toDigits 10 (count d), isNumberChar c = true :=
    fun c hc => (isNumberChar_digit hc).2
  refine readValue_token double fuel ?_ (List.append_ne_nil_of_right_ne_nil _ nofun) ?_ hrest ?_
  · intro c hc
    rw [tokens, List.head?_append_of_ne_nil _ Nat.toDigits_ne_nil] at hc
    exact Or.inl (digits_head hc)
  · intro c hc
    rcases List.mem_append.mp hc with hdigit | he
    · exact hdigits c hdigit
    · rw [List.mem_singleton.mp he]
      rfl
  · have hvalue : Nat.ofDigitChars 10 (Nat.toDigits 10 (count d)) 0 = count d :=
      Nat.ofDigitChars_ten_toDigits
    unfold numberOf
    split
    · next hnil => exact absurd hnil (List.append_ne_nil_of_right_ne_nil _ nofun)
    · next digits hminus =>
        have hhead : '-' ∈ (Nat.toDigits 10 (count d)).head? := by
          have hmem := congrArg List.head? hminus
          rw [tokens, List.head?_append_of_ne_nil _ Nat.toDigits_ne_nil] at hmem
          exact hmem
        exact absurd (digits_head hhead) (by decide)
    · rw [tokens, List.getLast?_concat, if_pos rfl, List.dropLast_concat, hvalue, hd]
      rfl

/-! ## Whole trees are read back -/

theorem stops_cons (h : isNumberChar c = false) (rest : List Char) :
    Stops (c :: rest) := by
  intro d hd
  cases hd
  exact h

theorem readString_token (count : δ → Nat) (s : String) (rest : List Char) :
    ∃ text, (tokens count).string s ++ rest = '"' :: text ∧
      readString text = some (s.toList, rest) := by
  refine ⟨s.toList.flatMap escapeChar ++ '"' :: rest, ?_, readString_escape _ _⟩
  simp [tokens]

/-- Items behind a first one follow a comma. -/
theorem compactItems_rest (t : Tokens δ) (j : Json δ) (js : List (Json δ)) :
    compactItems t false (j :: js) = ',' :: compactItems t true (j :: js) := by
  simp [compactItems]

theorem compactFields_rest (t : Tokens δ) (field : String × Json δ)
    (fields : List (String × Json δ)) :
    compactFields t false (field :: fields) = ',' :: compactFields t true (field :: fields) := by
  simp [compactFields]

/-- No value begins with a bracket that closes. -/
theorem readValue_close (fuel : Nat) (hc : c = ']' ∨ c = '}') (rest : List Char) :
    readValue double fuel (c :: rest) = none := by
  cases fuel with
  | zero => rfl
  | succ fuel => rcases hc with h | h <;> subst h <;> rfl

/-- An array whose items are read. -/
theorem readValue_array {fuel : Nat} {text : List Char} {js : List (Json δ)}
    (h : readItems (readValue double fuel) fuel text = some (js, rest)) :
    readValue double (fuel + 1) ('[' :: text) = some (array js, rest) := by
  have hopen : ∀ r, text ≠ ']' :: r := by
    intro r htext
    rw [htext] at h
    cases fuel with
    | zero => cases h
    | succ fuel =>
      rw [readItems, readValue_close _ (Or.inl rfl)] at h
      cases h
  rw [readValue.eq_def]
  dsimp only
  split <;> simp_all

theorem readValue_object {fuel : Nat} {text : List Char} {fields : List (String × Json δ)}
    (h : readFields (readValue double fuel) fuel text = some (fields, rest)) :
    readValue double (fuel + 1) ('{' :: text) = some (object fields, rest) := by
  have hopen : ∀ r, text ≠ '}' :: r := by
    intro r htext
    rw [htext] at h
    cases fuel <;> cases h
  rw [readValue.eq_def]
  dsimp only
  split <;> simp_all

section Parts

variable {value : List Char → Option (Json δ × List Char)} {j : Json δ} {text after rest :
    List Char}

theorem readItems_last (h : value text = some (j, ']' :: rest)) (limit : Nat) :
    readItems value (limit + 1) text = some ([j], rest) := by
  rw [readItems, h]
  rfl

theorem readItems_more {js : List (Json δ)} {limit : Nat} (h : value text = some (j, ',' :: after))
    (hmore : readItems value limit after = some (js, rest)) :
    readItems value (limit + 1) text = some (j :: js, rest) := by
  rw [readItems, h]
  show (readItems value limit after >>= _) = _
  rw [hmore]
  rfl

variable {key : String} {fields : List (String × Json δ)}

theorem readFields_last (h : value text = some (j, '}' :: rest)) (limit : Nat) :
    readFields value (limit + 1) ((tokens count).string key ++ ':' :: text) =
      some ([(key, j)], rest) := by
  obtain ⟨quoted, htext, hread⟩ := readString_token count key (':' :: text)
  rw [htext]
  show (readString quoted >>= _) = _
  rw [hread]
  show (value text >>= _) = _
  rw [h, String.ofList_toList]
  rfl

theorem readFields_more {limit : Nat} (h : value text = some (j, ',' :: after))
    (hmore : readFields value limit after = some (fields, rest)) :
    readFields value (limit + 1) ((tokens count).string key ++ ':' :: text) =
      some ((key, j) :: fields, rest) := by
  obtain ⟨quoted, htext, hread⟩ := readString_token count key (':' :: text)
  rw [htext]
  show (readString quoted >>= _) = _
  rw [hread]
  show (value text >>= _) = _
  rw [h, String.ofList_toList]
  show (readFields value limit after >>= _) = _
  rw [hmore]
  rfl

end Parts

/-- Every finite number is found again by its count. -/
def Counted (double : Nat → Option δ) (count : δ → Nat) (finite : δ → Prop) : Prop :=
  ∀ d, finite d → double (count d) = some d

variable {finite : δ → Prop}

mutual

theorem readValue_compact (hdouble : Counted double count finite) (j : Json δ)
    (hj : j.Printable finite) (fuel : Nat) (rest : List Char)
    (hfuel : (j.compact (tokens count)).length < fuel) (hrest : Stops rest) :
    readValue double fuel (j.compact (tokens count) ++ rest) = some (j, rest) := by
  cases fuel with
  | zero => exact absurd hfuel (Nat.not_lt_zero _)
  | succ fuel =>
    cases j with
    | null => rfl
    | bool b => cases b <;> rfl
    | int i =>
      rw [compact]
      exact readValue_int double i fuel hrest
    | double d =>
      rw [compact]
      exact readValue_double (hdouble d hj) fuel hrest
    | string s =>
      obtain ⟨text, htext, hread⟩ := readString_token count s rest
      rw [compact, htext]
      show (readString text).map _ = _
      rw [hread, Option.map_some, String.ofList_toList]
    | array items =>
      rw [compact, List.length_append, List.length_cons] at hfuel
      rw [compact, List.append_assoc, List.cons_append, List.singleton_append]
      cases items with
      | nil => rfl
      | cons j js =>
        apply readValue_array
        exact readItems_compact hdouble (j :: js) hj fuel fuel rest (by omega) (by omega)
          nofun
    | object fields =>
      rw [compact, List.length_append, List.length_cons] at hfuel
      rw [compact, List.append_assoc, List.cons_append, List.singleton_append]
      cases fields with
      | nil => rfl
      | cons field fields =>
        apply readValue_object
        exact readFields_compact hdouble (field :: fields) hj fuel fuel rest (by omega)
          (by omega) nofun

theorem readItems_compact (hdouble : Counted double count finite) (js : List (Json δ))
    (hjs : PrintableItems finite js) (fuel limit : Nat) (rest : List Char)
    (hfuel : (compactItems (tokens count) true js).length < fuel)
    (hlimit : (compactItems (tokens count) true js).length < limit) (hne : js ≠ []) :
    readItems (readValue double fuel) limit (compactItems (tokens count) true js ++ ']' :: rest) =
      some (js, rest) := by
  cases js with
  | nil => exact absurd rfl hne
  | cons j js =>
    cases limit with
    | zero => exact absurd hlimit (Nat.not_lt_zero _)
    | succ limit =>
      have htext : compactItems (tokens count) true (j :: js) =
          compact (tokens count) j ++ compactItems (tokens count) false js := by
        simp [compactItems]
      rw [htext, List.length_append] at hfuel hlimit
      rw [htext, List.append_assoc]
      cases js with
      | nil =>
        apply readItems_last
        rw [compactItems, List.nil_append]
        exact readValue_compact hdouble j hjs.1 fuel _ (by omega) (stops_cons rfl _)
      | cons k js =>
        rw [compactItems_rest, List.length_cons] at hfuel hlimit
        rw [compactItems_rest, List.cons_append]
        apply readItems_more
          (readValue_compact hdouble j hjs.1 fuel _ (by omega) (stops_cons rfl _))
        exact readItems_compact hdouble (k :: js) hjs.2 fuel limit rest (by omega) (by omega)
          nofun

theorem readFields_compact (hdouble : Counted double count finite) (fields : List (String × Json δ))
    (hfields : PrintableFields finite fields) (fuel limit : Nat) (rest : List Char)
    (hfuel : (compactFields (tokens count) true fields).length < fuel)
    (hlimit : (compactFields (tokens count) true fields).length < limit) (hne : fields ≠ []) :
    readFields (readValue double fuel) limit
        (compactFields (tokens count) true fields ++ '}' :: rest) = some (fields, rest) := by
  cases fields with
  | nil => exact absurd rfl hne
  | cons field fields =>
    cases limit with
    | zero => exact absurd hlimit (Nat.not_lt_zero _)
    | succ limit =>
      have htext : compactFields (tokens count) true (field :: fields) =
          (tokens count).string field.1 ++ ':' :: (compact (tokens count) field.2 ++
            compactFields (tokens count) false fields) := by
        simp [compactFields]
      rw [htext, List.length_append, List.length_cons, List.length_append] at hfuel hlimit
      rw [htext, List.append_assoc, List.cons_append, List.append_assoc]
      cases fields with
      | nil =>
        apply readFields_last
        rw [compactFields, List.nil_append]
        exact readValue_compact hdouble field.2 hfields.1 fuel _ (by omega) (stops_cons rfl _)
      | cons k fields =>
        rw [compactFields_rest, List.length_cons] at hfuel hlimit
        rw [compactFields_rest, List.cons_append]
        apply readFields_more
          (readValue_compact hdouble field.2 hfields.1 fuel _ (by omega) (stops_cons rfl _))
        exact readFields_compact hdouble (k :: fields) hfields.2 fuel limit rest (by omega)
          (by omega) nofun

end

/-- Compact text is read back. -/
theorem read_compact (hdouble : Counted double count finite) (j : Json δ)
    (hj : j.Printable finite) :
    read double (j.compact (tokens count)) = some j := by
  have hread := readValue_compact hdouble j hj ((j.compact (tokens count)).length + 1) []
    (by omega) nofun
  rw [List.append_nil] at hread
  rw [read, hread]

end Reading

end Json

end SquealDb.Lib
