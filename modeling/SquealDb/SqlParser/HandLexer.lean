import Mathlib.Data.List.Find
import SquealDb.SqlParser.Lexer

/-!
# The lexer by hand

`lex_fast`: the alternatives of `lexer` in the same order, over byte offsets.  A slice that
does not begin and end between characters panics, and the loop is given rounds, so that a
result is a run of the source that ends without a panic.
-/

namespace SquealDb.SqlParser

open SquealDb.Lib SquealDb.Lib.Utf8

/-- Why there is no result. -/
inductive Stop where
  /-- A slice begins or ends inside a character. -/
  | panic
  /-- The loop has not ended. -/
  | spinning
  deriving DecidableEq

/-- A slice that has to be one. -/
def sliced : Option (List Char) → Except Stop (List Char)
  | some s => .ok s
  | none => .error .panic

/-- What a turn of the loop comes to: a token, unless it was white space or a comment, and
where the next one begins, or that the text does not lex. -/
inductive Turn (K : Type) where
  | next (token : Option (TokenStruct K)) (start : Nat)
  | fail
  deriving DecidableEq

variable {K : Type}

/-- A token, and the next begins behind it. -/
def emit (t : Token K) (start stop : Nat) : Turn K := .next (some ⟨t, ⟨start, stop⟩⟩) stop

/-- `u8::is_ascii_digit`. -/
def isDigitByte (b : UInt8) : Bool := 48 ≤ b.toNat && b.toNat ≤ 57

/-- `digits_from`, the bytes from `i` on. -/
def digitsFrom : List UInt8 → Nat → Nat
  | [], i => i
  | b :: bs, i => if isDigitByte b then digitsFrom bs (i + 1) else i

def numberEnd (bs : List UInt8) (c : Char) (start : Nat) : Option Nat :=
  if c.isDigit then
    let stop := digitsFrom (bs.drop start) start
    some (if bs[stop]? = some 46 then digitsFrom (bs.drop (stop + 1)) (stop + 1) else stop)
  else if c = '.' ∧ (bs[start + 1]?).any isDigitByte then
    some (digitsFrom (bs.drop (start + 1)) (start + 1))
  else none

/-- The loop that looks for the quote a text ends at, the bytes from `i` on. -/
def closingFrom (quote : UInt8) : List UInt8 → Nat → Option Nat
  | [], _ => none
  | b :: bs, i =>
    if b = quote then
      match bs with
      | b' :: bs' => if b' = quote then closingFrom quote bs' (i + 2) else some i
      | [] => some i
    else closingFrom quote bs (i + 1)

/-- Comments. -/
def commentRule (rest : List Char) (start : Nat) : Except Stop (Option (Turn K)) :=
  if ['-', '-'].isPrefixOf rest then
    .ok (some (.next none (start + (find (· == '\n') rest).getD (size rest))))
  else if ['/', '*'].isPrefixOf rest then do
    let inner ← sliced (sliceFrom rest 2)
    return (findText ['*', '/'] inner).map fun close => .next none (start + (2 + close + 2))
  else .ok none

/-- Operators. -/
def operatorRule (rest : List Char) (start : Nat) : Except Stop (Option (Turn K)) :=
  .ok ((operators.find? fun p => p.1.isPrefixOf rest).map fun p =>
    emit (.operator p.2) start (start + size p.1))

/-- Numbers. -/
def numberRule (src : List Char) (c : Char) (start : Nat) : Except Stop (Option (Turn K)) :=
  match numberEnd (bytes src) c start with
  | some stop => do return some (emit (.number (← sliced (Utf8.slice src start stop))) start stop)
  | none => .ok none

/-- Words. -/
def wordRule (w : Words K) (rest : List Char) (c : Char) (start : Nat) :
    Except Stop (Option (Turn K)) :=
  if w.isXidStart c || c == '_' then do
    let len := (((charIndices 0 rest).find? fun p => 0 < p.1 && !w.isXidContinue p.2).map
      Prod.fst).getD (size rest)
    let raw ← sliced (sliceTo rest len)
    return some (emit (.word raw (w.get raw)) start (start + len))
  else .ok none

/-- Strings. -/
def stringRule (src : List Char) (c : Char) (start : Nat) : Except Stop (Option (Turn K)) :=
  match styleOf c with
  | some kind =>
    match closingFrom (UInt8.ofNat c.toNat) ((bytes src).drop (start + 1)) (start + 1) with
    | some i => do
      return some (emit (.string (← sliced (Utf8.slice src (start + 1) i)) kind) start (i + 1))
    | none => .ok (some .fail)
  | none => .ok none

/-- Paths of stages. -/
def stagePathRule (rest : List Char) (c : Char) (start : Nat) : Except Stop (Option (Turn K)) :=
  if c = '@' then do
    let path ← sliced (sliceFrom rest 1)
    let len := (((charIndices 0 path).find? fun p => isWhitespace p.2 || p.2 == ';').map
      Prod.fst).getD (size rest - 1)
    if 0 < len then
      return some (emit (.string (← sliced (Utf8.slice rest 1 (1 + len))) .unquoted) start
        (start + (1 + len)))
    else return none
  else .ok none

/-- White space and punctuation. -/
def markRule (c : Char) (start : Nat) : Except Stop (Option (Turn K)) :=
  if isWhitespace c then .ok (some (.next none (start + c.utf8Size)))
  else
    match Punctuation.fromChar c with
    | some p => .ok (some (emit (.punctuation p) start (start + c.utf8Size)))
    | none => .ok (some .fail)

/-- The first rule that applies. -/
def firstRule : List (Except Stop (Option (Turn K))) → Except Stop (Turn K)
  | [] => .ok .fail
  | rule :: rules =>
    match rule with
    | .error e => .error e
    | .ok (some turn) => .ok turn
    | .ok none => firstRule rules

/-- A turn of the loop. -/
def turn (w : Words K) (src : List Char) (start : Nat) : Except Stop (Turn K) := do
  match ← sliced (sliceFrom src start) with
  | [] => return .fail
  | c :: cs =>
    firstRule [commentRule (c :: cs) start, operatorRule (c :: cs) start,
      numberRule src c start, wordRule w (c :: cs) c start, stringRule src c start,
      stagePathRule (c :: cs) c start, markRule c start]

/-- The loop of `lex_fast`, for a number of rounds. -/
def lexLoop (w : Words K) (src : List Char) :
    Nat → Nat → List (TokenStruct K) → Except Stop (Option (List (TokenStruct K)))
  | 0, _, _ => .error .spinning
  | rounds + 1, start, tokens =>
    if start < size src then
      match turn w src start with
      | .error e => .error e
      | .ok .fail => .ok none
      | .ok (.next token start') => lexLoop w src rounds start' (tokens ++ token.toList)
    else .ok (some tokens)

def lexFast (w : Words K) (src : List Char) : Except Stop (Option (List (TokenStruct K))) :=
  lexLoop w src (size src + 1) 0 []

/-! ## The rules -/

/-- The turn that takes a token of so many characters. -/
def turned (start : Nat) (rest : List Char) (r : Token K × Nat) : Turn K :=
  let stop := start + size (rest.take r.2)
  let t : TokenStruct K := ⟨r.1, ⟨start, stop⟩⟩
  .next (if t.visible then some t else none) stop

theorem slice_at (pre cs : List Char) (n : Nat) :
    Utf8.slice (pre ++ cs) (size pre) (size pre + size (cs.take n)) = some (cs.take n) := by
  have h := slice_append pre (cs.take n) (cs.drop n)
  rwa [List.take_append_drop] at h

variable {n : Nat} {cs : List Char} {c : Char}

/-- The characters behind a comment's opening. -/
private theorem take_behind {a b : Char} {l : List Char} (h : [a, b] <+: l) :
    l = a :: b :: l.drop 2 ∧ l.take (2 + n) = a :: b :: (l.drop 2).take n := by
  obtain ⟨t, rfl⟩ := h
  refine ⟨rfl, ?_⟩
  rw [Nat.add_comm]
  rfl

theorem commentRule_eq (rest : List Char) (start : Nat) :
    commentRule rest start = .ok ((commentAt rest).map (turned (K := K) start rest)) := by
  unfold commentRule commentAt
  by_cases hline : ['-', '-'] <+: rest
  · obtain ⟨hrest, htake⟩ := take_behind
      (n := ((rest.drop 2).takeWhile (· != '\n')).length) hline
    have hrun : rest.takeWhile (fun c => !(c == '\n')) =
        '-' :: '-' :: (rest.drop 2).takeWhile (· != '\n') := by
      rw [hrest]
      rfl
    rw [if_pos (List.isPrefixOf_iff_prefix.2 hline), if_pos hline, find_eq, hrun]
    rw [← List.prefix_iff_eq_take.1 (List.takeWhile_prefix (· != '\n'))] at htake
    rw [Option.map_some, turned, htake]
    rfl
  · rw [if_neg (mt List.isPrefixOf_iff_prefix.1 hline), if_neg hline]
    by_cases hopen : ['/', '*'] <+: rest
    · rw [if_pos (List.isPrefixOf_iff_prefix.2 hopen)]
      have hslice : sliceFrom rest 2 = some (rest.drop 2) := by
        obtain ⟨t, rfl⟩ := hopen
        exact sliceFrom_append ['/', '*'] t
      have hstar : ['*', '/'] ≠ [] := by decide
      have hfind := findText_eq hstar (rest.drop 2)
      rw [hslice]
      simp only [sliced, Bind.bind, Except.bind, pure, Except.pure]
      rw [hfind, List.drop_drop]
      by_cases hclose : ['*', '/'] <+:
          rest.drop (2 + (Parser.before ['*', '/'] (rest.drop 2)).length)
      · have htake : rest.take (2 + (Parser.before ['*', '/'] (rest.drop 2)).length + 2) =
            '/' :: '*' :: (Parser.before ['*', '/'] (rest.drop 2) ++ ['*', '/']) := by
          obtain ⟨-, h⟩ := take_behind
            (n := (Parser.before ['*', '/'] (rest.drop 2)).length + 2) hopen
          have hprefix : (rest.drop 2).take (Parser.before ['*', '/'] (rest.drop 2)).length =
              Parser.before ['*', '/'] (rest.drop 2) :=
            (List.prefix_iff_eq_take.1 ⟨_, Parser.before_append ['*', '/'] (rest.drop 2)⟩).symm
          have hend : (rest.drop (2 + (Parser.before ['*', '/'] (rest.drop 2)).length)).take 2 =
              ['*', '/'] := (List.prefix_iff_eq_take.1 hclose).symm
          rw [Nat.add_assoc, h, List.take_add, List.drop_drop, hprefix, hend]
        have hslash : '/'.utf8Size = 1 := by decide
        have hstar : '*'.utf8Size = 1 := by decide
        have hstop : start + (2 + size (Parser.before ['*', '/'] (rest.drop 2)) + 2) =
            start + size (rest.take (2 + (Parser.before ['*', '/'] (rest.drop 2)).length + 2)) := by
          rw [htake, size_cons, size_cons, size_append, size_cons, size_cons, size_nil,
            hslash, hstar]
          omega
        rw [if_pos hclose, if_pos ⟨hopen, hclose⟩, Option.map_some, Option.map_some, hstop]
        rfl
      · rw [if_neg hclose, if_neg (fun h => hclose h.2)]
        rfl
    · rw [if_neg (mt List.isPrefixOf_iff_prefix.1 hopen), if_neg (fun h => hopen h.1)]
      rfl

theorem operatorRule_eq (rest : List Char) (start : Nat) :
    operatorRule rest start = .ok ((operatorAt rest).map (turned (K := K) start rest)) := by
  unfold operatorRule operatorAt
  cases h : operators.find? fun p => p.1.isPrefixOf rest with
  | none => rfl
  | some p =>
    have hprefix := List.find?_some h
    have htake : rest.take p.1.length = p.1 :=
      (List.prefix_iff_eq_take.1 (List.isPrefixOf_iff_prefix.1 hprefix)).symm
    rw [Option.map_some, Option.map_some, Option.map_some, turned, htake]
    rfl

/-! ## Digits -/

theorem digitsFrom_eq (bs : List UInt8) (i : Nat) :
    digitsFrom bs i = i + (bs.takeWhile isDigitByte).length := by
  induction bs generalizing i with
  | nil => rfl
  | cons b bs ih =>
    rw [digitsFrom]
    by_cases hb : isDigitByte b = true
    · rw [if_pos hb, ih, List.takeWhile_cons_of_pos hb, List.length_cons]
      omega
    · rw [if_neg hb, List.takeWhile_cons_of_neg hb]
      rfl

theorem isDigitByte_lt (b : UInt8) (h : isDigitByte b = true) : b.toNat < 128 := by
  unfold isDigitByte at h
  simp only [Bool.and_eq_true, decide_eq_true_eq] at h
  omega

theorem isDigit_iff (c : Char) :
    c.isDigit = true ↔ c.toNat < 128 ∧ isDigitByte (UInt8.ofNat c.toNat) = true := by
  have hval : c.isDigit = true ↔ 48 ≤ c.toNat ∧ c.toNat ≤ 57 := by
    unfold Char.isDigit
    simp only [Bool.and_eq_true, decide_eq_true_eq, ge_iff_le, UInt32.le_iff_toNat_le]
    rfl
  rw [hval]
  unfold isDigitByte
  simp only [Bool.and_eq_true, decide_eq_true_eq, UInt8.toNat_ofNat']
  omega

/-- The bytes that are digits are those of the digits. -/
theorem takeWhile_digits (cs : List Char) :
    (bytes cs).takeWhile isDigitByte = bytes (cs.takeWhile Char.isDigit) :=
  takeWhile_bytes isDigitByte_lt isDigit_iff cs

/-- The scan for digits from behind a prefix. -/
theorem digitsFrom_at (pre cs : List Char) :
    digitsFrom ((bytes (pre ++ cs)).drop (size pre)) (size pre) =
      size pre + size (cs.take (digits cs)) := by
  rw [drop_bytes, digitsFrom_eq, takeWhile_digits, length_bytes, digits,
    ← List.prefix_iff_eq_take.1 (List.takeWhile_prefix Char.isDigit)]

theorem head_digit (cs : List Char) : (bytes cs).head?.any isDigitByte = true ↔ 0 < digits cs := by
  have h := takeWhile_digits cs
  have hlen : size (cs.takeWhile Char.isDigit) = ((bytes cs).takeWhile isDigitByte).length := by
    rw [h, length_bytes]
  have hzero : digits cs = 0 ↔ size (cs.takeWhile Char.isDigit) = 0 := by
    unfold digits
    cases cs.takeWhile Char.isDigit with
    | nil => simp
    | cons c l =>
      have hpos := c.utf8Size_pos
      simp only [List.length_cons, size_cons]
      omega
  rw [hlen] at hzero
  cases hbytes : bytes cs with
  | nil => simp [hbytes] at hzero ⊢; omega
  | cons b bs =>
    rw [hbytes] at hzero
    by_cases hb : isDigitByte b = true
    · rw [List.takeWhile_cons_of_pos hb, List.length_cons] at hzero
      rw [List.head?_cons, Option.any_some]
      exact iff_of_true hb (by omega)
    · rw [List.takeWhile_cons_of_neg hb, List.length_nil] at hzero
      rw [List.head?_cons, Option.any_some]
      exact iff_of_false hb (by omega)

/-- The byte behind a prefix. -/
theorem getElem?_behind (pre cs : List Char) :
    (bytes (pre ++ cs))[size pre]? = (bytes cs).head? := by
  rw [← drop_bytes pre cs, List.head?_drop]

theorem point_behind (pre cs : List Char) :
    (bytes (pre ++ cs))[size pre]? = some 46 ↔ ['.'] <+: cs := by
  rw [getElem?_behind]
  have h := head_bytes (c := '.') (by decide) cs
  have hcode : UInt8.ofNat '.'.toNat = 46 := by decide
  rw [hcode] at h
  rw [h]
  cases cs with
  | nil => simp
  | cons c cs => simp [eq_comm]

theorem numberEnd_eq (pre cs : List Char) (c : Char) :
    numberEnd (bytes (pre ++ c :: cs)) c (size pre) =
      (numberLength (c :: cs)).map fun n => size pre + size ((c :: cs).take n) := by
  unfold numberEnd numberLength
  by_cases hc : c.isDigit = true
  · have hpos : 0 < digits (c :: cs) := by
      unfold digits
      rw [List.takeWhile_cons_of_pos hc]
      exact Nat.succ_pos _
    have hscan := digitsFrom_at pre (c :: cs)
    have hsplit : pre ++ c :: cs =
        (pre ++ (c :: cs).take (digits (c :: cs))) ++ (c :: cs).drop (digits (c :: cs)) := by
      rw [List.append_assoc, List.take_append_drop]
    have hbyte := point_behind (pre ++ (c :: cs).take (digits (c :: cs)))
      ((c :: cs).drop (digits (c :: cs)))
    rw [← hsplit, size_append] at hbyte
    rw [if_pos hc, if_pos hpos, hscan]
    dsimp only
    by_cases hdot : ['.'] <+: (c :: cs).drop (digits (c :: cs))
    · obtain ⟨t, ht⟩ := hdot
      have hsplit' : pre ++ c :: cs =
          (pre ++ ((c :: cs).take (digits (c :: cs)) ++ ['.'])) ++ t := by
        rw [hsplit, ← ht]
        simp
      have hmore := digitsFrom_at (pre ++ ((c :: cs).take (digits (c :: cs)) ++ ['.'])) t
      have hpoint : '.'.utf8Size = 1 := by decide
      rw [← hsplit', size_append, size_append, size_cons, size_nil, hpoint, ← Nat.add_assoc]
        at hmore
      have hdrop : (c :: cs).drop (digits (c :: cs) + 1) = t := by
        rw [← List.drop_drop, ← ht]
        rfl
      have htake : (c :: cs).take (digits (c :: cs) + (1 + digits t)) =
          (c :: cs).take (digits (c :: cs)) ++ '.' :: t.take (digits t) := by
        rw [List.take_add, ← ht, Nat.add_comm]
        rfl
      rw [if_pos (hbyte.2 ⟨t, ht⟩), if_pos ⟨t, ht⟩, hdrop, Option.map_some, htake, size_append,
        size_cons, hpoint, hmore]
      exact congrArg some (by omega)
    · rw [if_neg (mt hbyte.1 hdot), if_neg hdot, Option.map_some]
  · have hzero : ¬ 0 < digits (c :: cs) := by
      unfold digits
      rw [List.takeWhile_cons_of_neg hc]
      exact Nat.lt_irrefl 0
    rw [if_neg hc, if_neg hzero]
    by_cases hdot : c = '.'
    · subst hdot
      have hpoint : '.'.utf8Size = 1 := by decide
      have hsplit : pre ++ '.' :: cs = (pre ++ ['.']) ++ cs := by simp
      have hsize : size (pre ++ ['.']) = size pre + 1 := by
        rw [size_append, size_cons, size_nil, hpoint]
      have hbyte := getElem?_behind (pre ++ ['.']) cs
      have hscan := digitsFrom_at (pre ++ ['.']) cs
      rw [← hsplit, hsize] at hbyte hscan
      rw [hbyte, hscan]
      by_cases hmore : 0 < digits cs
      · have htake : ('.' :: cs).take (1 + digits cs) = '.' :: cs.take (digits cs) := by
          rw [Nat.add_comm]
          rfl
        rw [if_pos ⟨rfl, (head_digit cs).2 hmore⟩, List.drop_succ_cons, List.drop_zero,
          if_pos ⟨List.prefix_append ['.'] cs, hmore⟩, Option.map_some, htake, size_cons, hpoint,
          Nat.add_assoc]
      · rw [if_neg (fun h => hmore ((head_digit cs).1 h.2)), List.drop_succ_cons, List.drop_zero,
          if_neg (fun h => hmore h.2)]
        rfl
    · have hlit : ¬ ['.'] <+: c :: cs := by
        rw [List.cons_prefix_cons]
        exact fun h => hdot h.1.symm
      rw [if_neg (fun h => hdot h.1), if_neg (fun h => hlit h.1)]
      rfl

theorem numberRule_eq (pre cs : List Char) (c : Char) :
    numberRule (pre ++ c :: cs) c (size pre) =
      .ok ((numberAt (c :: cs)).map (turned (K := K) (size pre) (c :: cs))) := by
  unfold numberRule numberAt
  rw [numberEnd_eq]
  cases hn : numberLength (c :: cs) with
  | none => rfl
  | some n =>
    rw [Option.map_some, Option.map_some, Option.map_some]
    simp only [slice_at, sliced]
    rfl

/-! ## Words, strings and paths -/

theorem wordRule_eq (w : Words K) (cs : List Char) (c : Char) (start : Nat) :
    wordRule w (c :: cs) c start =
      .ok ((wordAt w (c :: cs)).map (turned start (c :: cs))) := by
  unfold wordRule wordAt
  by_cases hc : (w.isXidStart c || c == '_') = true
  · rw [if_pos hc]
    have hpos := charIndices_pos c.utf8Size cs c.utf8Size_pos
    have hfind : (charIndices 0 (c :: cs)).find? (fun p => 0 < p.1 && !w.isXidContinue p.2) =
        (charIndices c.utf8Size cs).find? fun p => !w.isXidContinue p.2 := by
      rw [charIndices, List.find?_cons]
      have hzero : (decide (0 < 0) && !w.isXidContinue c) = false := rfl
      rw [hzero, Nat.zero_add]
      apply List.find?_congr
      intro p hp
      rw [decide_eq_true (hpos p hp), Bool.true_and]
    have hlen := charIndices_find (fun c => !w.isXidContinue c) c.utf8Size cs
    simp only [Bool.not_not] at hlen
    have hslice := sliceTo_append (c :: cs.takeWhile w.isXidContinue)
      (cs.dropWhile w.isXidContinue)
    rw [List.cons_append, List.takeWhile_append_dropWhile, size_cons] at hslice
    have htake : (c :: cs).take (c :: cs.takeWhile w.isXidContinue).length =
        c :: cs.takeWhile w.isXidContinue := by
      rw [List.length_cons, List.take_succ_cons,
        ← List.prefix_iff_eq_take.1 (List.takeWhile_prefix w.isXidContinue)]
    simp only [hfind, size_cons, hlen, hslice, sliced, Bind.bind, Except.bind, pure, Except.pure]
    rw [if_pos hc, Option.map_some, turned, htake, size_cons]
    rfl
  · rw [if_neg hc]
    simp only [if_neg hc]
    rfl

/-- Bytes that are not the quote are passed over. -/
theorem closingFrom_skip {quote : UInt8} {l : List UInt8} (h : ∀ b ∈ l, b ≠ quote)
    (bs : List UInt8) (i : Nat) :
    closingFrom quote (l ++ bs) i = closingFrom quote bs (i + l.length) := by
  induction l generalizing i with
  | nil => rfl
  | cons b l ih =>
    have hb := h b List.mem_cons_self
    rw [List.cons_append, closingFrom.eq_def]
    simp only [if_neg hb]
    rw [ih (fun b' hb' => h b' (List.mem_cons_of_mem b hb')), List.length_cons, Nat.add_assoc,
      Nat.add_comm 1]

/-- The scan of bytes for the closing quote is one of characters. -/
theorem closingFrom_eq {quote : Char} (hquote : quote.toNat < 128) (cs : List Char) (i : Nat) :
    closingFrom (UInt8.ofNat quote.toNat) (bytes cs) i =
      (closing quote cs).map fun n => i + size (cs.take n) := by
  have hbyte : bytes [quote] = [UInt8.ofNat quote.toNat] := by
    rw [bytes_cons, encode_ascii hquote, bytes_nil, List.singleton_append]
  have hsize := size_ascii hquote
  induction cs using closing.induct quote generalizing i with
  | case1 => rfl
  | case2 ds ih =>
    rw [← List.singleton_append, bytes_append, ← List.singleton_append (l := ds), bytes_append,
      hbyte]
    simp only [List.singleton_append, closingFrom, closing, if_true, ih, Option.map_map]
    congr 1
    funext n
    have htake : (quote :: quote :: ds).take (2 + n) = quote :: quote :: ds.take n := by
      rw [Nat.add_comm]
      rfl
    simp only [Function.comp_apply, htake, size_cons, hsize]
    omega
  | case3 d ds hd =>
    have hne : (bytes (d :: ds)).head? ≠ some (UInt8.ofNat quote.toNat) := by
      rw [Ne, head_bytes hquote, List.head?_cons, Option.some_inj]
      exact hd
    rw [← List.singleton_append, bytes_append, hbyte, List.singleton_append]
    cases hbytes : bytes (d :: ds) with
    | nil => simp [closingFrom, closing, hd]
    | cons b bs =>
      rw [hbytes, List.head?_cons, Ne, Option.some_inj] at hne
      simp [closingFrom, closing, hd, hne]
  | case4 => simp [hbyte, closingFrom, closing]
  | case5 c cs hc ih =>
    have hskip : ∀ b ∈ String.utf8EncodeChar c, b ≠ UInt8.ofNat quote.toNat := by
      intro b hb hbq
      subst hbq
      by_cases hascii : c.toNat < 128
      · rw [encode_ascii hascii, List.mem_singleton] at hb
        have hnat := congrArg UInt8.toNat hb
        rw [UInt8.toNat_ofNat', UInt8.toNat_ofNat', Nat.mod_eq_of_lt (by omega),
          Nat.mod_eq_of_lt (by omega)] at hnat
        exact hc (Char.toNat_inj.1 hnat).symm
      · have hge := encode_other (Nat.le_of_not_lt hascii) _ hb
        rw [UInt8.toNat_ofNat', Nat.mod_eq_of_lt (by omega)] at hge
        omega
    rw [bytes_cons, closingFrom_skip hskip, ih, closing_cons hc, Option.map_map,
      String.length_utf8EncodeChar]
    congr 1
    funext n
    have htake : (c :: cs).take (1 + n) = c :: cs.take n := by
      rw [Nat.add_comm]
      rfl
    simp only [Function.comp_apply, htake, size_cons]
    omega

/-- The closing quote is where it was found. -/
theorem closing_begins {quote : Char} (h : closing quote cs = some n) :
    [quote] <+: cs.drop n := by
  obtain ⟨us, m, -, hend⟩ := quotedItem_repeated quote ⟨0, cs⟩
  rcases hend with ⟨hm, -, hp⟩ | ⟨hm, -⟩
  · rw [h] at hm
    cases hm
    exact hp
  · rw [h] at hm
    cases hm

theorem styleOf_ascii {kind : StringStyle} (h : styleOf c = some kind) :
    c.toNat < 128 := by
  unfold styleOf at h
  split at h
  · rename_i hc
    rw [hc]
    decide
  · split at h
    · rename_i hc
      rw [hc]
      decide
    · cases h

/-- A text in quotes is taken, and one that does not end fails. -/
theorem stringRule_eq (pre cs : List Char) (c : Char) :
    stringRule (pre ++ c :: cs) c (size pre) =
      .ok (if (styleOf c).isSome then
        some (((stringAt (c :: cs)).map (turned (K := K) (size pre) (c :: cs))).getD .fail)
      else none) := by
  unfold stringRule stringAt
  cases hkind : styleOf c with
  | none => rfl
  | some kind =>
    have hascii := styleOf_ascii hkind
    have hsize := size_ascii hascii
    have hsplit : pre ++ c :: cs = (pre ++ [c]) ++ cs := by simp
    have hpre : size (pre ++ [c]) = size pre + 1 := by
      rw [size_append, size_cons, size_nil, hsize]
    have hscan := closingFrom_eq hascii cs (size (pre ++ [c]))
    rw [← drop_bytes (pre ++ [c]) cs, ← hsplit, hpre] at hscan
    simp only [hscan, hkind, Option.bind_some]
    cases hn : closing c cs with
    | none => rfl
    | some n =>
      have hslice := slice_at (pre ++ [c]) cs n
      rw [← hsplit, hpre] at hslice
      have hend : (cs.drop n).take 1 = [c] :=
        (List.prefix_iff_eq_take.1 (closing_begins hn)).symm
      have htake : (c :: cs).take (1 + n + 1) = c :: (cs.take n ++ [c]) := by
        rw [Nat.add_right_comm, Nat.add_comm 1 1, Nat.add_comm 2 n, ← hend]
        show c :: cs.take (n + 1) = _
        rw [List.take_add]
      have hstop : size pre + 1 + size (cs.take n) + 1 =
          size pre + size ((c :: cs).take (1 + n + 1)) := by
        rw [htake, size_cons, size_append, size_cons, size_nil, hsize]
        omega
      simp only [Option.map_some, hslice, sliced, Bind.bind, Except.bind, pure, Except.pure,
        hstop]
      rfl

theorem stagePathRule_eq (cs : List Char) (c : Char) (start : Nat) :
    stagePathRule (c :: cs) c start =
      .ok ((stagePathAt (c :: cs)).map (turned (K := K) start (c :: cs))) := by
  unfold stagePathRule stagePathAt
  by_cases hc : c = '@'
  · subst hc
    have hsize : '@'.utf8Size = 1 := by decide
    have hslice : sliceFrom ('@' :: cs) 1 = some cs := sliceFrom_append ['@'] cs
    have hlen := charIndices_find (fun c => isWhitespace c || c == ';') 0 cs
    have hnot : (fun c => !(isWhitespace c || c == ';')) = fun c => !isWhitespace c && c !=
      ';' := by
      funext c
      rw [Bool.not_or]
      rfl
    rw [hnot, Nat.zero_add, Nat.zero_add] at hlen
    have hall : size ('@' :: cs) - 1 = size cs := by
      rw [size_cons, hsize]
      omega
    simp only [if_true, hslice, sliced, Bind.bind, Except.bind, pure, Except.pure, hall, hlen,
      true_and]
    by_cases hs : cs.takeWhile (fun c => !isWhitespace c && c != ';') = []
    · rw [hs]
      rfl
    · have hpos : 0 < size (cs.takeWhile fun c => !isWhitespace c && c != ';') := by
        cases htail : cs.takeWhile fun c => !isWhitespace c && c != ';' with
        | nil => exact absurd htail hs
        | cons d ds =>
          have hd := d.utf8Size_pos
          rw [size_cons]
          omega
      have hpath := slice_append ['@'] (cs.takeWhile fun c => !isWhitespace c && c != ';')
        (cs.dropWhile fun c => !isWhitespace c && c != ';')
      rw [List.takeWhile_append_dropWhile, size_cons, size_nil, hsize] at hpath
      have htake : ('@' :: cs).take
          (1 + (cs.takeWhile fun c => !isWhitespace c && c != ';').length) =
            '@' :: cs.takeWhile fun c => !isWhitespace c && c != ';' := by
        rw [Nat.add_comm, List.take_succ_cons,
          ← List.prefix_iff_eq_take.1 (List.takeWhile_prefix _)]
      rw [if_pos hpos, if_pos hs]
      simp only [List.singleton_append] at hpath
      simp only [hpath, Option.map_some, turned, htake, size_cons, hsize]
      rfl
  · rw [if_neg hc]
    simp only [hc, false_and, if_false]
    rfl

/-! ## The loop -/

theorem firstRule_or (a : Option (Turn K)) (rules : List (Except Stop (Option (Turn K)))) :
    firstRule (.ok a :: rules) = a.elim (firstRule rules) .ok := by
  cases a with
  | none => rfl
  | some t => rfl

theorem whitespaceAt_none (h : isWhitespace c = false) (cs : List Char) :
    (whitespaceAt (c :: cs) : Option (Token K × Nat)) = none := by
  unfold whitespaceAt
  rw [if_pos (List.takeWhile_cons_of_neg (by simp [h]))]

theorem stagePathAt_none (h : c ≠ '@') (cs : List Char) :
    (stagePathAt (c :: cs) : Option (Token K × Nat)) = none := if_neg (fun hp => h hp.1)

theorem stringAt_none (h : styleOf c = none) (cs : List Char) :
    (stringAt (c :: cs) : Option (Token K × Nat)) = none := by
  rw [stringAt, h, Option.bind_none]

/-- A quote is not punctuation, white space or the sign of a path. -/
theorem styleOf_other (h : (styleOf c).isSome = true) :
    isWhitespace c = false ∧ Punctuation.fromChar c = none ∧ c ≠ '@' := by
  unfold styleOf at h
  split at h
  · rename_i hc
    subst hc
    decide
  · split at h
    · rename_i hc
      subst hc
      decide
    · cases h

/-- A mark that is not white space is punctuation, or does not lex. -/
theorem markRule_eq (h : isWhitespace c = false) (cs : List Char) (start : Nat) :
    markRule c start =
      .ok
        (some (((punctuationAt (c :: cs)).map (turned (K := K) start (c :: cs))).getD .fail)) := by
  unfold markRule
  rw [if_neg (by simp [h]), punctuationAt]
  cases hp : Punctuation.fromChar c with
  | none => rfl
  | some p => rfl

/-- A turn at a character that is not white space takes the next token. -/
theorem turn_eq (w : Words K) (pre cs : List Char) (hc : isWhitespace c = false) :
    turn w (pre ++ c :: cs) (size pre) =
      .ok (((nextToken w (c :: cs)).map (turned (size pre) (c :: cs))).getD .fail) := by
  unfold turn
  rw [sliceFrom_append]
  show firstRule _ = _
  rw [commentRule_eq, operatorRule_eq, numberRule_eq, wordRule_eq, stringRule_eq,
    stagePathRule_eq, markRule_eq hc cs]
  unfold nextToken
  simp only [firstRule_or, whitespaceAt_none hc, Option.none_or]
  cases (commentAt (c :: cs) : Option (Token K × Nat)) with
  | some r => rfl
  | none =>
  cases (operatorAt (c :: cs) : Option (Token K × Nat)) with
  | some r => rfl
  | none =>
  cases (numberAt (c :: cs) : Option (Token K × Nat)) with
  | some r => rfl
  | none =>
  cases wordAt w (c :: cs) with
  | some r => rfl
  | none =>
  simp only [Option.map_none, Option.elim_none, Option.none_or]
  by_cases hstyle : (styleOf c).isSome = true
  · obtain ⟨-, hmark, hat⟩ := styleOf_other hstyle
    have hpunctuation : (punctuationAt (c :: cs) : Option (Token K × Nat)) = none := by
      rw [punctuationAt, hmark, Option.map_none]
    rw [if_pos hstyle, stagePathAt_none hat, hpunctuation, Option.none_or, Option.or_none]
    rfl
  · rw [if_neg hstyle, stringAt_none (Option.not_isSome_iff_eq_none.1 hstyle), Option.none_or]
    cases (stagePathAt (c :: cs) : Option (Token K × Nat)) with
    | some r => rfl
    | none => rfl

theorem isWhitespace_cases (h : isWhitespace c = true) :
    c = ' ' ∨ c = '\r' ∨ c = '\n' ∨ c = '\t' := by
  simpa [isWhitespace, or_assoc] using h

section

variable {c : Char} (h : isWhitespace c = true) (cs : List Char)

include h

theorem commentAt_whitespace : (commentAt (c :: cs) : Option (Token K × Nat)) = none := by
  have hcases := isWhitespace_cases h
  have hline : ¬ ['-', '-'] <+: c :: cs := by
    rw [List.cons_prefix_cons]
    rintro ⟨hc, -⟩
    subst hc
    simp at hcases
  have hopen : ¬ ['/', '*'] <+: c :: cs := by
    rw [List.cons_prefix_cons]
    rintro ⟨hc, -⟩
    subst hc
    simp at hcases
  unfold commentAt
  rw [if_neg hline, if_neg (fun hp => hopen hp.1)]

theorem operatorAt_whitespace : (operatorAt (c :: cs) : Option (Token K × Nat)) = none := by
  have hheads : ∀ q ∈ operators, ∃ d, q.1.head? = some d ∧ isWhitespace d = false := by
    simp [operators, isWhitespace]
  unfold operatorAt
  rw [List.find?_eq_none.2, Option.map_none]
  intro p hp hprefix
  obtain ⟨d, hd, hspace⟩ := hheads p hp
  obtain ⟨t, ht⟩ := List.isPrefixOf_iff_prefix.1 hprefix
  obtain ⟨l, hl⟩ := List.head?_eq_some_iff.1 hd
  rw [hl, List.cons_append] at ht
  rw [(List.cons.inj ht).1, h] at hspace
  cases hspace

theorem numberAt_whitespace : (numberAt (c :: cs) : Option (Token K × Nat)) = none := by
  have hcases := isWhitespace_cases h
  have hdigit : c.isDigit = false := by
    rcases hcases with rfl | rfl | rfl | rfl <;> decide
  have hzero : digits (c :: cs) = 0 := by
    unfold digits
    rw [List.takeWhile_cons_of_neg (by simp [hdigit])]
    rfl
  have hdot : ¬ ['.'] <+: c :: cs := by
    rw [List.cons_prefix_cons]
    rintro ⟨hc, -⟩
    subst hc
    simp at hcases
  unfold numberAt numberLength
  rw [hzero, if_neg (Nat.lt_irrefl 0), if_neg (fun hp => hdot hp.1), Option.map_none]

theorem wordAt_whitespace (w : Words K) : wordAt w (c :: cs) = none := by
  have hstart : (w.isXidStart c || c == '_') = false := by
    rw [w.start_space c h]
    rcases isWhitespace_cases h with rfl | rfl | rfl | rfl <;> decide
  exact if_neg (by rw [hstart]; exact Bool.false_ne_true)

theorem styleOf_whitespace : styleOf c = none ∧ c ≠ '@' := by
  rcases isWhitespace_cases h with rfl | rfl | rfl | rfl <;> decide

/-- White space is taken in runs. -/
theorem nextToken_whitespace (w : Words K) :
    nextToken w (c :: cs) = some (.space, ((c :: cs).takeWhile isWhitespace).length) := by
  obtain ⟨hstyle, hat⟩ := styleOf_whitespace h
  have hrun : (c :: cs).takeWhile isWhitespace ≠ [] := by
    rw [List.takeWhile_cons_of_pos h]
    exact List.cons_ne_nil _ _
  unfold nextToken
  rw [commentAt_whitespace h, operatorAt_whitespace h, numberAt_whitespace h,
    wordAt_whitespace h, stringAt_none hstyle, stagePathAt_none hat]
  simp only [Option.none_or]
  rw [whitespaceAt, if_neg hrun]
  rfl

/-- A turn at white space passes over one character. -/
theorem turn_whitespace (w : Words K) (pre : List Char) :
    turn w (pre ++ c :: cs) (size pre) = .ok (.next none (size pre + c.utf8Size)) := by
  obtain ⟨hstyle, hat⟩ := styleOf_whitespace h
  unfold turn
  rw [sliceFrom_append]
  show firstRule _ = _
  rw [commentRule_eq, operatorRule_eq, numberRule_eq, wordRule_eq, stringRule_eq,
    stagePathRule_eq, commentAt_whitespace h, operatorAt_whitespace h, numberAt_whitespace h,
    wordAt_whitespace h, stagePathAt_none hat, hstyle, markRule, if_pos h]
  rfl

end

/-! ## The tokens -/

/-- The tokens from a place of the text on, without white space and comments. -/
def visibleFrom (w : Words K) (start : Nat) (cs : List Char) : Option (List (TokenStruct K)) :=
  (lexer w ⟨start, cs⟩).map fun r => r.1.filter TokenStruct.visible

theorem visibleFrom_nil (w : Words K) (start : Nat) : visibleFrom w start [] = some [] := by
  unfold visibleFrom
  rw [lexer_stop (nextToken_nil w)]
  rfl

theorem visibleFrom_none {w : Words K} {start : Nat} (h : nextToken w cs = none) (hcs : cs ≠ []) :
    visibleFrom w start cs = none := by
  unfold visibleFrom
  rw [lexer_stop h, if_neg hcs]
  rfl

theorem visibleFrom_step {w : Words K} {t : Token K} (start : Nat)
    (h : nextToken w cs = some (t, n)) :
    visibleFrom w start cs =
      (visibleFrom w (start + size (cs.take n)) (cs.drop n)).map fun ts =>
        [(⟨t, ⟨start, start + size (cs.take n)⟩⟩ : TokenStruct K)].filter
          TokenStruct.visible ++ ts := by
  unfold visibleFrom
  rw [lexer_step (i := ⟨start, cs⟩) h, Option.map_map, Option.map_map]
  congr 1
  funext r
  simp only [Function.comp_apply]
  rw [← List.filter_append]
  rfl

/-- Behind a character of white space are the same tokens. -/
theorem visibleFrom_whitespace (w : Words K) (start : Nat) (h : isWhitespace c = true)
    (cs : List Char) :
    visibleFrom w start (c :: cs) = visibleFrom w (start + c.utf8Size) cs := by
  induction cs generalizing start c with
  | nil =>
    rw [visibleFrom_step _ (nextToken_whitespace h [] w), List.takeWhile_cons_of_pos h]
    show (visibleFrom w _ []).map _ = _
    rw [visibleFrom_nil, visibleFrom_nil]
    rfl
  | cons d ds ih =>
    rw [visibleFrom_step _ (nextToken_whitespace h (d :: ds) w), List.takeWhile_cons_of_pos h]
    by_cases hd : isWhitespace d = true
    · have hnext := visibleFrom_step (start + c.utf8Size) (nextToken_whitespace hd ds w)
      rw [hnext, List.length_cons, List.take_succ_cons, List.drop_succ_cons, size_cons,
        Nat.add_assoc]
      rfl
    · rw [List.takeWhile_cons_of_neg hd]
      show (visibleFrom w (start + size [c]) (d :: ds)).map _ = _
      rw [size_cons, size_nil, Nat.add_zero]
      cases visibleFrom w (start + c.utf8Size) (d :: ds) <;> rfl

/-- The loop collects the tokens from where it stands on. -/
theorem lexLoop_eq (w : Words K) {rounds : Nat} (pre cs : List Char)
    (tokens : List (TokenStruct K)) (hrounds : cs.length < rounds) :
    lexLoop w (pre ++ cs) rounds (size pre) tokens =
      .ok ((visibleFrom w (size pre) cs).map (tokens ++ ·)) := by
  induction rounds generalizing pre cs tokens with
  | zero => omega
  | succ rounds ih =>
    rw [lexLoop]
    cases cs with
    | nil =>
      rw [List.append_nil, if_neg (Nat.lt_irrefl _), visibleFrom_nil, Option.map_some,
        List.append_nil]
    | cons c cs =>
      have hpos := c.utf8Size_pos
      have hlt : size pre < size (pre ++ c :: cs) := by
        rw [size_append, size_cons]
        omega
      rw [if_pos hlt]
      rw [List.length_cons] at hrounds
      by_cases hc : isWhitespace c = true
      · have hbehind := ih (pre ++ [c]) cs tokens (by omega)
        rw [List.append_assoc, List.singleton_append, size_append, size_cons, size_nil,
          Nat.add_zero] at hbehind
        rw [turn_whitespace hc, visibleFrom_whitespace w _ hc]
        simp only [Option.toList_none, List.append_nil]
        exact hbehind
      · have hc' : isWhitespace c = false := Bool.eq_false_iff.2 hc
        rw [turn_eq w pre cs hc']
        cases hnext : nextToken w (c :: cs) with
        | none =>
          rw [visibleFrom_none hnext (List.cons_ne_nil c cs)]
          rfl
        | some r =>
          obtain ⟨t, n⟩ := r
          have hn := nextToken_pos hnext
          have hlen : ((c :: cs).drop n).length < rounds := by
            rw [List.length_drop, List.length_cons]
            omega
          have hbehind := ih (pre ++ (c :: cs).take n) ((c :: cs).drop n)
          rw [List.append_assoc, List.take_append_drop, size_append] at hbehind
          rw [visibleFrom_step _ hnext, Option.map_map]
          simp only [Option.map_some, Option.getD_some, turned]
          rw [hbehind _ hlen]
          congr 2
          funext ts
          rw [Function.comp_apply, ← List.append_assoc, List.filter_cons, List.filter_nil]
          split <;> rfl

/-- On every text the lexer by hand ends, slices between characters only, and gives the tokens
of the combinators, or nothing exactly where they fail. -/
theorem lexFast_eq (w : Words K) (src : List Char) :
    lexFast w src = .ok (tokenizeCombinators w src) := by
  have hlen : src.length ≤ size src := by
    induction src with
    | nil => exact Nat.le_refl 0
    | cons c cs ih =>
      have hpos := c.utf8Size_pos
      rw [List.length_cons, size_cons]
      omega
  have hloop := lexLoop_eq w [] src [] (Nat.lt_succ_of_le hlen)
  unfold lexFast tokenizeCombinators
  refine hloop.trans ?_
  show Except.ok ((visibleFrom w 0 src).map (· )) = _
  unfold visibleFrom
  cases lexer w ⟨0, src⟩ <;> rfl

/-! ## A quote, a comment and characters of two bytes -/

/-- The letters of Latin-1. -/
def latinLetter (c : Char) : Bool :=
  c.isAlpha || c == 'ª' || c == 'µ' || c == 'º' ||
    decide (0xC0 ≤ c.toNat ∧ c.toNat ≤ 0xFF ∧ c ≠ '×' ∧ c ≠ '÷')

/-- The words of Latin-1, and two of the keywords. -/
def latin : Words String where
  isXidStart := latinLetter
  isXidContinue c := latinLetter c || c.isDigit || c == '_' || c == '·'
  get s := ["SELECT", "AS"].find? (· == String.ofList (s.map Char.toUpper))
  start_space c h := by
    simp only [isWhitespace, Bool.or_eq_true, decide_eq_true_eq] at h
    rcases h with ((rfl | rfl) | rfl) | rfl <;> rfl

def commented : List Char := "select 'it''s' as größe -- café\n;".toList

/-- The comment is no token, and the semicolon behind it is at byte 35, though it is the
character at 32. -/
def commentedTokens : List (TokenStruct String) :=
  [⟨.word "select".toList (some "SELECT"), ⟨0, 6⟩⟩,
    ⟨.string "it''s".toList (.singleQuoted (some '\'')), ⟨7, 14⟩⟩,
    ⟨.word "as".toList (some "AS"), ⟨15, 17⟩⟩,
    ⟨.word "größe".toList none, ⟨18, 25⟩⟩,
    ⟨.punctuation .semicolon, ⟨35, 36⟩⟩]

theorem lexFast_commented :
    lexFast latin commented = .ok (some commentedTokens) ∧
      tokenizeCombinators latin commented = some commentedTokens := by
  have hfast : lexFast latin commented = .ok (some commentedTokens) := by decide +kernel
  refine ⟨hfast, ?_⟩
  have heq := (lexFast_eq latin commented).symm.trans hfast
  exact Except.ok.inj heq

end SquealDb.SqlParser
