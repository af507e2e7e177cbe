import SquealDb.Lib.Utf8Slice

/-!
# The lexer

`lexer` of the SQL parser: text as tokens, in combinators, and `tokenize_combinators`, which
drops white space and comments.  `nextToken` says without combinators which token comes next
and how many characters it takes.
-/

namespace SquealDb.SqlParser

open SquealDb.Lib

inductive Operator where
  | notEq | notEqBang | ltEq | gtEq | concat | doubleColon
  deriving DecidableEq

inductive Punctuation where
  | exclamationMark | numberSign | dollar | percent | ampersand | leftParenthesis
  | rightParenthesis | asterisk | plus | comma | minus | period | slash | colon | semicolon
  | lessThan | equals | greaterThan | questionMark | at | leftBracket | backslash
  | rightBracket | caret | leftBrace | verticalBar | rightBrace | tilde
  deriving DecidableEq

def Punctuation.fromChar (c : Char) : Option Punctuation :=
  ([('!', exclamationMark), ('#', numberSign), ('$', dollar), ('%', percent), ('&', ampersand),
    ('(', leftParenthesis), (')', rightParenthesis), ('*', asterisk), ('+', plus), (',', comma),
    ('-', minus), ('.', period), ('/', slash), (':', colon), (';', semicolon), ('<', lessThan),
    ('=', equals), ('>', greaterThan), ('?', questionMark), ('@', .at), ('[', leftBracket),
    ('\\', backslash), (']', rightBracket), ('^', caret), ('{', leftBrace), ('|', verticalBar),
    ('}', rightBrace), ('~', tilde)] : List (Char × Punctuation)).lookup c

inductive StringStyle where
  | singleQuoted (quote : Option Char)
  | doubleQuoted (quote : Option Char)
  | unquoted
  deriving DecidableEq

/-- `Token`, over the keywords. -/
inductive Token (K : Type) where
  | number (raw : List Char)
  | word (raw : List Char) (keyword : Option K)
  | string (raw : List Char) (kind : StringStyle)
  | space
  | operator (op : Operator)
  | punctuation (p : Punctuation)
  deriving DecidableEq

structure TokenStruct (K : Type) where
  token : Token K
  span : SourceSpan
  deriving DecidableEq

/-- The token is not white space or a comment. -/
def TokenStruct.visible {K : Type} (t : TokenStruct K) : Bool :=
  match t.token with
  | .space => false
  | _ => true

def isWhitespace (c : Char) : Bool := c = ' ' || c = '\r' || c = '\n' || c = '\t'

/-- What words are made of, and which of them are keywords: the identifier classes of Unicode,
of which white space is not the start, and `Keyword::get`. -/
structure Words (K : Type) where
  isXidStart : Char → Bool
  isXidContinue : Char → Bool
  get : List Char → Option K
  start_space : ∀ c, isWhitespace c = true → isXidStart c = false

def operators : List (List Char × Operator) :=
  [(['<', '>'], .notEq), (['!', '='], .notEqBang), (['<', '='], .ltEq), (['>', '='], .gtEq),
    (['|', '|'], .concat), ([':', ':'], .doubleColon)]

variable {K : Type}

/-! ## The combinators -/

/-- `any`. -/
def anyChar : Parser Char Char := Parser.any Char.utf8Size

/-- `just`. -/
def lit (cs : List Char) : Parser Char (List Char) := Parser.just Char.utf8Size cs

/-- Characters of a class, as many as there are. -/
def run (f : Char → Bool) : Parser Char (List Char) := (anyChar.filter f).repeated

/-- A token of its own characters. -/
def token (t : Token K) : List Char → SourceSpan → TokenStruct K := fun _ span => ⟨t, span⟩

def ident (w : Words K) : Parser Char (List Char) :=
  ((anyChar.filter fun c => w.isXidStart c || c == '_').andThen (run w.isXidContinue)).toSlice

def word (w : Words K) : Parser Char (TokenStruct K) :=
  (ident w).mapWith fun s span => ⟨.word s (w.get s), span⟩

/-- Digits, then perhaps a point and digits, if any. -/
def whole : Parser Char (List Char × Option (List Char × Option (List Char))) :=
  let digits := (run Char.isDigit).atLeast 1
  digits.andThen ((lit ['.']).andThen digits.orNot).orNot

/-- A point and digits. -/
def point : Parser Char (List Char × List Char) :=
  (lit ['.']).andThen ((run Char.isDigit).atLeast 1)

/-- `number`: `123`, `1.5`, `1.`, `.5`. -/
def number : Parser Char (TokenStruct K) :=
  (Parser.choice [whole.ignored, point.ignored]).toSlice.mapWith fun s span => ⟨.number s, span⟩

/-- `quoted`: a doubled quote inside stands for the quote, and does not end the text. -/
def quoted (quote : Char) : Parser Char (List Char) :=
  (Parser.choice [
    (lit [quote, quote]).ignored,
    (anyChar.filter (· != quote)).ignored]).repeated.toSlice.delimitedBy (lit [quote]) (lit [quote])

def string : Parser Char (TokenStruct K) :=
  Parser.choice [
    (quoted '\'').mapWith fun s span => ⟨.string s (.singleQuoted (some '\'')), span⟩,
    (quoted '"').mapWith fun s span => ⟨.string s (.doubleQuoted (some '"')), span⟩]

def stagePath : Parser Char (TokenStruct K) :=
  ((lit ['@']).ignoreThen
    ((run fun c => !isWhitespace c && c != ';').atLeast 1).toSlice).mapWith fun s span =>
      ⟨.string s .unquoted, span⟩

def operator : Parser Char (TokenStruct K) :=
  (Parser.choice (operators.map fun p => (lit p.1).mapWith fun _ _ => p.2)).mapWith
    fun op span => ⟨.operator op, span⟩

def punctuation : Parser Char (TokenStruct K) :=
  anyChar.tryMap fun c span => (Punctuation.fromChar c).map fun p => ⟨.punctuation p, span⟩

def whitespace : Parser Char (TokenStruct K) :=
  ((run isWhitespace).atLeast 1).mapWith fun _ span => ⟨.space, span⟩

def comment : Parser Char (TokenStruct K) :=
  let line := ((lit ['-', '-']).andThen (run (· != '\n'))).ignored
  let block := ((anyChar.andIs (lit ['*', '/']).not).repeated.delimitedBy (lit ['/', '*'])
    (lit ['*', '/'])).ignored
  (Parser.choice [line, block]).mapWith fun _ span => ⟨.space, span⟩

/-- One turn of the lexer. -/
def item (w : Words K) : Parser Char (TokenStruct K) :=
  Parser.choice
    [comment, operator, number, word w, string, stagePath, whitespace, punctuation]

def lexer (w : Words K) : Parser Char (List (TokenStruct K)) :=
  (item w).repeated.thenIgnore Parser.atEnd

def tokenizeCombinators (w : Words K) (src : List Char) : Option (List (TokenStruct K)) :=
  (lexer w ⟨0, src⟩).map fun r => r.1.filter TokenStruct.visible

/-! ## What the alternatives take -/

/-- The token of the next `n` characters, and the input behind them. -/
def lexed (i : Input Char) (n : Nat) (t : Token K) : Option (TokenStruct K × Input Char) :=
  let i' := i.skip Char.utf8Size n
  some (⟨t, ⟨i.offset, i'.offset⟩⟩, i')

section

variable {i : Input Char} {c : Char} {cs : List Char}

theorem run_eq (f : Char → Bool) (i : Input Char) :
    run f i = some (i.rest.takeWhile f, i.skip Char.utf8Size (i.rest.takeWhile f).length) :=
  Parser.repeated_filter f i

theorem lit_some {l : List Char} (h : l <+: i.rest) :
    lit l i = some (l, i.skip Char.utf8Size l.length) := Parser.just_some h

theorem lit_none {l : List Char} (h : ¬ l <+: i.rest) : lit l i = none := Parser.just_none h

theorem skip_rest (i : Input Char) (n : Nat) : (i.skip Char.utf8Size n).rest = i.rest.drop n := rfl

theorem comment_line (h : ['-', '-'] <+: i.rest) :
    (comment : Parser Char (TokenStruct K)) i =
      lexed i (2 + ((i.rest.drop 2).takeWhile (· != '\n')).length) .space := by
  have hrun := run_eq (· != '\n') (i.skip Char.utf8Size 2)
  rw [skip_rest, Input.skip_skip] at hrun
  have hline := Parser.mapWith_some (fun _ _ => ())
    (Parser.andThen_some (q := run (· != '\n')) (lit_some h) hrun)
  exact Parser.mapWith_some _ (Parser.choice_some hline)

/-- The text is a closed block comment of that many characters between its ends. -/
def Closed (cs : List Char) (n : Nat) : Prop :=
  ['/', '*'] <+: cs ∧ n = (Parser.before ['*', '/'] (cs.drop 2)).length ∧
    ['*', '/'] <+: cs.drop (2 + n)

theorem block_until (i : Input Char) :
    (anyChar.andIs (lit ['*', '/']).not).repeated i =
      some (Parser.before ['*', '/'] i.rest,
        i.skip Char.utf8Size (Parser.before ['*', '/'] i.rest).length) :=
  Parser.repeated_until i

theorem line_none (h : ¬ ['-', '-'] <+: i.rest) :
    ((lit ['-', '-']).andThen (run (· != '\n'))).ignored i = none :=
  Parser.mapWith_none _ (Parser.andThen_left (lit_none h))

theorem comment_block {n : Nat} (h : ¬ ['-', '-'] <+: i.rest) (hn : Closed i.rest n) :
    (comment : Parser Char (TokenStruct K)) i = lexed i (2 + n + 2) .space := by
  obtain ⟨hopen, rfl, hclose⟩ := hn
  have huntil := block_until (i.skip Char.utf8Size 2)
  rw [skip_rest, Input.skip_skip] at huntil
  have hend : lit ['*', '/'] (i.skip Char.utf8Size
      (2 + (Parser.before ['*', '/'] (i.rest.drop 2)).length)) = _ := lit_some hclose
  rw [Input.skip_skip] at hend
  have hblock := Parser.mapWith_some (fun _ _ => ())
    (Parser.delimitedBy_some (lit_some hopen) huntil hend)
  exact Parser.mapWith_some _ ((Parser.choice_skip (line_none h)).trans
    (Parser.choice_some hblock))

theorem comment_none (h : ¬ ['-', '-'] <+: i.rest) (hn : ∀ n, ¬ Closed i.rest n) :
    (comment : Parser Char (TokenStruct K)) i = none := by
  apply Parser.mapWith_none
  rw [Parser.choice_skip (line_none h)]
  rw [Parser.choice_skip, Parser.choice_nil]
  apply Parser.mapWith_none
  by_cases hopen : ['/', '*'] <+: i.rest
  · have huntil := block_until (i.skip Char.utf8Size 2)
    rw [skip_rest, Input.skip_skip] at huntil
    apply Parser.delimitedBy_close (lit_some hopen) huntil
    apply lit_none
    intro hclose
    exact hn _ ⟨hopen, rfl, hclose⟩
  · exact Parser.delimitedBy_open (lit_none hopen)

end

/-! ## The next token -/

/-- A comment: to the end of the line, or up to where it is closed. -/
def commentAt (cs : List Char) : Option (Token K × Nat) :=
  let n := (Parser.before ['*', '/'] (cs.drop 2)).length
  if ['-', '-'] <+: cs then some (.space, 2 + ((cs.drop 2).takeWhile (· != '\n')).length)
  else if ['/', '*'] <+: cs ∧ ['*', '/'] <+: cs.drop (2 + n) then some (.space, 2 + n + 2)
  else none

/-- An operator. -/
def operatorAt (cs : List Char) : Option (Token K × Nat) :=
  (operators.find? fun p => p.1.isPrefixOf cs).map fun p => (.operator p.2, p.1.length)

/-- The number of digits a text begins with. -/
def digits (cs : List Char) : Nat := (cs.takeWhile Char.isDigit).length

/-- The number of characters of a number: `123`, `1.5`, `1.`, `.5`. -/
def numberLength (cs : List Char) : Option Nat :=
  if 0 < digits cs then
    if ['.'] <+: cs.drop (digits cs) then
      some (digits cs + (1 + digits (cs.drop (digits cs + 1))))
    else some (digits cs)
  else if ['.'] <+: cs ∧ 0 < digits (cs.drop 1) then some (1 + digits (cs.drop 1))
  else none

/-- A number. -/
def numberAt (cs : List Char) : Option (Token K × Nat) :=
  (numberLength cs).map fun n => (.number (cs.take n), n)

/-- A word. -/
def wordAt (w : Words K) : List Char → Option (Token K × Nat)
  | [] => none
  | c :: cs =>
    let s := c :: cs.takeWhile w.isXidContinue
    if w.isXidStart c || c == '_' then some (.word s (w.get s), s.length) else none

/-- How a text in quotes is written. -/
def styleOf (c : Char) : Option StringStyle :=
  if c = '\'' then some (.singleQuoted (some '\''))
  else if c = '"' then some (.doubleQuoted (some '"')) else none

/-- The number of characters before the quote that ends a text, if one does. -/
def closing (quote : Char) : List Char → Option Nat
  | [] => none
  | c :: cs =>
    if c = quote then
      match cs with
      | d :: ds => if d = quote then (closing quote ds).map (2 + ·) else some 0
      | [] => some 0
    else (closing quote cs).map (1 + ·)

theorem closing_cons {quote c : Char} (hc : c ≠ quote) (cs : List Char) :
    closing quote (c :: cs) = (closing quote cs).map (1 + ·) := by
  cases cs with
  | nil => simp [closing, hc]
  | cons d ds => simp [closing, hc]

/-- A text in quotes. -/
def stringAt : List Char → Option (Token K × Nat)
  | [] => none
  | c :: cs =>
    (styleOf c).bind fun kind =>
      (closing c cs).map fun n => (.string (cs.take n) kind, 1 + n + 1)

/-- The path of a stage. -/
def stagePathAt : List Char → Option (Token K × Nat)
  | [] => none
  | c :: cs =>
    let s := cs.takeWhile fun c => !isWhitespace c && c != ';'
    if c = '@' ∧ s ≠ [] then some (.string s .unquoted, 1 + s.length) else none

/-- White space. -/
def whitespaceAt (cs : List Char) : Option (Token K × Nat) :=
  if cs.takeWhile isWhitespace = [] then none
  else some (.space, (cs.takeWhile isWhitespace).length)

/-- Punctuation. -/
def punctuationAt : List Char → Option (Token K × Nat)
  | [] => none
  | c :: _ => (Punctuation.fromChar c).map fun p => (.punctuation p, 1)

/-- The next token, and the number of its characters. -/
def nextToken (w : Words K) (cs : List Char) : Option (Token K × Nat) :=
  (commentAt cs).or <| (operatorAt cs).or <| (numberAt cs).or <| (wordAt w cs).or <|
    (stringAt cs).or <| (stagePathAt cs).or <| (whitespaceAt cs).or (punctuationAt cs)

/-- What is lexed where the token has that many characters. -/
def lexedAt (i : Input Char) (next : Option (Token K × Nat)) :
    Option (TokenStruct K × Input Char) := next.bind fun r => lexed i r.2 r.1

section

variable {i : Input Char} {c : Char} {cs : List Char}

theorem comment_eq (i : Input Char) :
    (comment : Parser Char (TokenStruct K)) i = lexedAt i (commentAt i.rest) := by
  unfold commentAt
  by_cases hline : ['-', '-'] <+: i.rest
  · rw [if_pos hline]
    exact comment_line hline
  · rw [if_neg hline]
    split
    · rename_i h
      exact comment_block hline ⟨h.1, rfl, h.2⟩
    · rename_i h
      apply comment_none hline
      rintro n ⟨hopen, rfl, hclose⟩
      exact h ⟨hopen, hclose⟩

theorem choice_find {β : Type} (l : List (List Char × β)) (i : Input Char) :
    Parser.choice (l.map fun p => (lit p.1).mapWith fun _ _ => p.2) i =
      (l.find? fun p => p.1.isPrefixOf i.rest).map fun p =>
        (p.2, i.skip Char.utf8Size p.1.length) := by
  induction l with
  | nil => rfl
  | cons p l ih =>
    by_cases h : p.1 <+: i.rest
    · rw [List.map_cons, Parser.choice_some (Parser.mapWith_some _ (lit_some h)),
        List.find?_cons, List.isPrefixOf_iff_prefix.2 h]
      rfl
    · have hp : p.1.isPrefixOf i.rest = false :=
        Bool.eq_false_iff.2 (mt List.isPrefixOf_iff_prefix.1 h)
      rw [List.map_cons, Parser.choice_skip (Parser.mapWith_none _ (lit_none h)), ih,
        List.find?_cons, hp]

theorem operator_eq (i : Input Char) :
    (operator : Parser Char (TokenStruct K)) i = lexedAt i (operatorAt i.rest) := by
  have hchoice := choice_find operators i
  unfold operator operatorAt
  cases hfind : operators.find? fun p => p.1.isPrefixOf i.rest with
  | none =>
    rw [hfind, Option.map_none] at hchoice
    exact Parser.mapWith_none _ hchoice
  | some p =>
    rw [hfind, Option.map_some] at hchoice
    exact Parser.mapWith_some _ hchoice

/-- Digits, at least one. -/
theorem digits_eq (i : Input Char) :
    (run Char.isDigit).atLeast 1 i =
      if 0 < digits i.rest then
        some (i.rest.takeWhile Char.isDigit, i.skip Char.utf8Size (digits i.rest))
      else none := by
  rw [Parser.atLeast_one (run_eq _ i)]
  unfold digits
  by_cases h : i.rest.takeWhile Char.isDigit = []
  · rw [if_pos h, if_neg (by rw [h]; exact Nat.lt_irrefl 0)]
  · rw [if_neg h, if_pos (List.length_pos_iff.2 h)]

theorem digits_le (cs : List Char) : digits cs ≤ cs.length :=
  (List.takeWhile_prefix _).length_le

variable {n : Nat} {quote : Char} {w : Words K}

theorem numberLength_le (h : numberLength cs = some n) : n ≤ cs.length := by
  have hdigits := digits_le cs
  have hfraction := digits_le (cs.drop (digits cs + 1))
  have hpoint := digits_le (cs.drop 1)
  rw [List.length_drop] at hfraction hpoint
  unfold numberLength at h
  split at h
  · split at h
    · rename_i hdot
      have hlen := hdot.length_le
      rw [List.length_drop, List.length_singleton] at hlen
      cases h
      omega
    · cases h
      exact hdigits
  · split at h
    · rename_i hdot
      have hlen := hdot.1.length_le
      rw [List.length_singleton] at hlen
      cases h
      omega
    · cases h

/-- The digits of a number, and what is behind its point. -/
theorem whole_eq (h : 0 < digits i.rest) :
    ∃ r, whole i = some (r, i.skip Char.utf8Size
      (if ['.'] <+: i.rest.drop (digits i.rest) then
        digits i.rest + (1 + digits (i.rest.drop (digits i.rest + 1)))
      else digits i.rest)) := by
  have hwhole := digits_eq i
  rw [if_pos h] at hwhole
  by_cases hdot : ['.'] <+: i.rest.drop (digits i.rest)
  · have hlit : lit ['.'] (i.skip Char.utf8Size (digits i.rest)) = _ := lit_some hdot
    have hfraction := digits_eq (i.skip Char.utf8Size (digits i.rest + 1))
    rw [Input.skip_skip, List.length_singleton] at hlit
    rw [skip_rest, Input.skip_skip, Nat.add_assoc] at hfraction
    rw [if_pos hdot]
    by_cases hmore : 0 < digits (i.rest.drop (digits i.rest + 1))
    · rw [if_pos hmore] at hfraction
      exact ⟨_, Parser.andThen_some hwhole (Parser.orNot_some
        (Parser.andThen_some hlit (Parser.orNot_some hfraction)))⟩
    · rw [if_neg hmore] at hfraction
      rw [Nat.eq_zero_of_not_pos hmore]
      exact ⟨_, Parser.andThen_some hwhole (Parser.orNot_some
        (Parser.andThen_some hlit (Parser.orNot_none hfraction)))⟩
  · rw [if_neg hdot]
    have hlit : lit ['.'] (i.skip Char.utf8Size (digits i.rest)) = none := lit_none hdot
    exact ⟨_, Parser.andThen_some hwhole (Parser.orNot_none (Parser.andThen_left hlit))⟩

theorem whole_none (h : ¬ 0 < digits i.rest) : whole i = none := by
  have hnone := digits_eq i
  rw [if_neg h] at hnone
  exact Parser.andThen_left hnone

/-- A point and digits. -/
theorem point_eq (i : Input Char) :
    (∃ r, point i = some (r, i.skip Char.utf8Size (1 + digits (i.rest.drop 1))) ∧
      ['.'] <+: i.rest ∧ 0 < digits (i.rest.drop 1)) ∨
    (point i = none ∧ ¬ (['.'] <+: i.rest ∧ 0 < digits (i.rest.drop 1))) := by
  by_cases hdot : ['.'] <+: i.rest
  · have hlit : lit ['.'] i = some (['.'], i.skip Char.utf8Size 1) := lit_some hdot
    have hdigits := digits_eq (i.skip Char.utf8Size 1)
    rw [skip_rest, Input.skip_skip] at hdigits
    by_cases hmore : 0 < digits (i.rest.drop 1)
    · rw [if_pos hmore] at hdigits
      exact .inl ⟨_, Parser.andThen_some hlit hdigits, hdot, hmore⟩
    · rw [if_neg hmore] at hdigits
      exact .inr ⟨Parser.andThen_right hlit hdigits, fun h => hmore h.2⟩
  · exact .inr ⟨Parser.andThen_left (lit_none hdot), fun h => hdot h.1⟩

/-- A number takes as many characters as its length says. -/
theorem number_choice (i : Input Char) :
    Parser.choice [whole.ignored, point.ignored] i =
      (numberLength i.rest).map fun n => ((), i.skip Char.utf8Size n) := by
  unfold numberLength
  by_cases hwhole : 0 < digits i.rest
  · obtain ⟨r, hr⟩ := whole_eq hwhole
    rw [Parser.choice_some (Parser.ignored_some hr), if_pos hwhole, ← apply_ite some,
      Option.map_some]
  · rw [Parser.choice_skip (Parser.ignored_none (whole_none hwhole)), if_neg hwhole]
    rcases point_eq i with ⟨r, hr, hpoint⟩ | ⟨hr, hpoint⟩
    · rw [Parser.choice_some (Parser.ignored_some hr), if_pos hpoint, Option.map_some]
    · rw [Parser.choice_skip (Parser.ignored_none hr), Parser.choice_nil, if_neg hpoint,
        Option.map_none]

theorem number_eq (i : Input Char) :
    (number : Parser Char (TokenStruct K)) i = lexedAt i (numberAt i.rest) := by
  have hchoice := number_choice i
  unfold number numberAt
  cases hn : numberLength i.rest with
  | none =>
    rw [hn, Option.map_none] at hchoice
    exact Parser.mapWith_none _ (Parser.toSlice_none hchoice)
  | some n =>
    rw [hn, Option.map_some] at hchoice
    exact Parser.mapWith_some _ (Parser.toSlice_skip hchoice (numberLength_le hn))

theorem word_eq (w : Words K) (i : Input Char) : word w i = lexedAt i (wordAt w i.rest) := by
  unfold word ident
  cases hrest : i.rest with
  | nil =>
    exact Parser.mapWith_none _ (Parser.toSlice_none
      (Parser.andThen_left (Parser.filter_any_nil hrest)))
  | cons c cs =>
    by_cases hc : (w.isXidStart c || c == '_') = true
    · have hmore := run_eq w.isXidContinue (i.skip Char.utf8Size 1)
      rw [skip_rest, Input.skip_skip, hrest, List.drop_succ_cons, List.drop_zero,
        Nat.add_comm] at hmore
      have hhead : (anyChar.filter fun c => w.isXidStart c || c == '_') i =
          some (c, i.skip Char.utf8Size 1) := Parser.filter_any_some hrest hc
      have hboth := Parser.andThen_some hhead hmore
      have hle : (cs.takeWhile w.isXidContinue).length + 1 ≤ i.rest.length := by
        rw [hrest]
        exact Nat.succ_le_succ (List.takeWhile_prefix _).length_le
      have htake : i.rest.take ((cs.takeWhile w.isXidContinue).length + 1) =
          c :: cs.takeWhile w.isXidContinue := by
        rw [hrest, List.take_succ_cons,
          ← List.prefix_iff_eq_take.1 (List.takeWhile_prefix w.isXidContinue)]
      have hslice := Parser.toSlice_skip hboth hle
      rw [htake] at hslice
      have hword : wordAt w (c :: cs) = some (.word (c :: cs.takeWhile w.isXidContinue)
          (w.get (c :: cs.takeWhile w.isXidContinue)),
          (c :: cs.takeWhile w.isXidContinue).length) := if_pos hc
      rw [hword]
      exact Parser.mapWith_some _ hslice
    · have hword : wordAt w (c :: cs) = none := if_neg hc
      rw [hword]
      exact Parser.mapWith_none _ (Parser.toSlice_none (Parser.andThen_left
        (Parser.filter_any_none hrest (Bool.eq_false_iff.2 hc))))

/-- The characters of a text in quotes, one or a doubled quote at a time. -/
def quotedItem (quote : Char) : Parser Char Unit :=
  Parser.choice [(lit [quote, quote]).ignored, (anyChar.filter (· != quote)).ignored]

theorem quotedItem_cons (h : i.rest = c :: cs) (hc : c ≠ quote) :
    quotedItem quote i = some ((), i.skip Char.utf8Size 1) := by
  have hlit : ¬ [quote, quote] <+: i.rest := by
    rw [h, List.cons_prefix_cons]
    exact fun hp => hc hp.1.symm
  have hany : (anyChar.filter (· != quote)) i = some (c, i.skip Char.utf8Size 1) :=
    Parser.filter_any_some h (bne_iff_ne.2 hc)
  exact (Parser.choice_skip (Parser.ignored_none (lit_none hlit))).trans
    (Parser.choice_some (Parser.ignored_some hany))

theorem quotedItem_doubled (h : i.rest = quote :: quote :: cs) :
    quotedItem quote i = some ((), i.skip Char.utf8Size 2) := by
  have hlit : [quote, quote] <+: i.rest := by
    rw [h]
    exact List.prefix_append [quote, quote] cs
  exact Parser.choice_some (Parser.ignored_some (lit_some hlit))

theorem quotedItem_end (h : i.rest = quote :: cs) (hcs : cs.head? ≠ some quote) :
    quotedItem quote i = none := by
  have hlit : ¬ [quote, quote] <+: i.rest := by
    rw [h, List.cons_prefix_cons]
    rintro ⟨-, hp⟩
    obtain ⟨ds, hds⟩ := hp
    exact hcs (by rw [← hds]; rfl)
  have hany : (anyChar.filter (· != quote)) i = none :=
    Parser.filter_any_none h (by simp)
  exact (Parser.choice_skip (Parser.ignored_none (lit_none hlit))).trans
    ((Parser.choice_skip (Parser.ignored_none hany)).trans Parser.choice_nil)

theorem quotedItem_nil (h : i.rest = []) : quotedItem quote i = none := by
  have hlit : ¬ [quote, quote] <+: i.rest := by
    rw [h]
    exact fun hp => List.cons_ne_nil _ _ (List.prefix_nil.1 hp)
  have hany : (anyChar.filter (· != quote)) i = none := Parser.filter_any_nil h
  exact (Parser.choice_skip (Parser.ignored_none (lit_none hlit))).trans
    ((Parser.choice_skip (Parser.ignored_none hany)).trans Parser.choice_nil)

theorem quotedItem_consumes (quote : Char) : (quotedItem quote).Consumes := by
  intro j b j' h
  cases hrest : j.rest with
  | nil =>
    rw [quotedItem_nil hrest] at h
    cases h
  | cons c cs =>
    have hdrop : ∀ n, 0 < n → ((j.skip Char.utf8Size n).rest).length < (c :: cs).length := by
      intro n hn
      rw [skip_rest, hrest, List.length_drop, List.length_cons]
      omega
    by_cases hc : c = quote
    · subst hc
      by_cases hcs : cs.head? = some c
      · cases cs with
        | nil => cases hcs
        | cons d ds =>
          cases hcs
          rw [quotedItem_doubled hrest] at h
          cases h
          exact hdrop 2 (by decide)
      · rw [quotedItem_end hrest hcs] at h
        cases h
    · rw [quotedItem_cons hrest hc] at h
      cases h
      exact hdrop 1 (by decide)

/-- The items of a text in quotes end before the quote that closes it, or at the end. -/
theorem quotedItem_repeated (quote : Char) (i : Input Char) :
    ∃ us n, (quotedItem quote).repeated i = some (us, i.skip Char.utf8Size n) ∧
      (closing quote i.rest = some n ∧ n < i.rest.length ∧ [quote] <+: i.rest.drop n ∨
        closing quote i.rest = none ∧ i.rest.drop n = []) := by
  obtain ⟨at_, rest⟩ := i
  -- the induction is on how the closing quote is looked for: two characters at a doubled quote
  induction rest using closing.induct quote generalizing at_ with
  | case1 =>
    refine ⟨[], 0, ?_, .inr ⟨rfl, rfl⟩⟩
    rw [Parser.repeated_stop (quotedItem_nil rfl), Input.skip_zero]
  | case2 ds ih =>
    have hstep : quotedItem quote ⟨at_, quote :: quote :: ds⟩ =
        some ((), Input.skip Char.utf8Size ⟨at_, quote :: quote :: ds⟩ 2) :=
      quotedItem_doubled rfl
    obtain ⟨us, n, hrun, hend⟩ := ih
      (at_ + widthOf Char.utf8Size [quote, quote])
    refine ⟨() :: us, 2 + n, ?_, ?_⟩
    · rw [Parser.repeated_step (quotedItem_consumes quote) hstep]
      exact (congrArg (Option.map _) hrun).trans (by
        rw [Option.map_some, ← Input.skip_skip]
        rfl)
    · have hdrop : (quote :: quote :: ds).drop (2 + n) = ds.drop n := by
        rw [Nat.add_comm]
        rfl
      rw [hdrop, closing, if_pos rfl, if_pos rfl]
      rcases hend with ⟨hn, hlt, hp⟩ | ⟨hn, hp⟩
      · refine .inl ⟨?_, ?_, hp⟩
        · rw [hn, Option.map_some]
        · simp only [List.length_cons] at hlt ⊢
          omega
      · refine .inr ⟨?_, hp⟩
        rw [hn, Option.map_none]
  | case3 d ds hd =>
    refine ⟨[], 0, ?_, .inl ⟨?_, Nat.succ_pos _, List.prefix_append [quote] _⟩⟩
    · rw [Parser.repeated_stop (quotedItem_end rfl (by simpa using hd)), Input.skip_zero]
    · rw [closing, if_pos rfl, if_neg hd]
  | case4 =>
    refine ⟨[], 0, ?_, .inl ⟨?_, Nat.succ_pos _, List.prefix_append [quote] _⟩⟩
    · rw [Parser.repeated_stop (quotedItem_end rfl (by simp)), Input.skip_zero]
    · simp [closing]
  | case5 c cs hc ih =>
    have hstep : quotedItem quote ⟨at_, c :: cs⟩ =
        some ((), Input.skip Char.utf8Size ⟨at_, c :: cs⟩ 1) := quotedItem_cons rfl hc
    obtain ⟨us, n, hrun, hend⟩ := ih (at_ + widthOf Char.utf8Size [c])
    refine ⟨() :: us, 1 + n, ?_, ?_⟩
    · rw [Parser.repeated_step (quotedItem_consumes quote) hstep]
      exact (congrArg (Option.map _) hrun).trans (by
        rw [Option.map_some, ← Input.skip_skip]
        rfl)
    · have hdrop : (c :: cs).drop (1 + n) = cs.drop n := by
        rw [Nat.add_comm]
        rfl
      rw [hdrop, closing_cons hc]
      rcases hend with ⟨hn, hlt, hp⟩ | ⟨hn, hp⟩
      · refine .inl ⟨?_, ?_, hp⟩
        · rw [hn, Option.map_some]
        · simp only [List.length_cons] at hlt ⊢
          omega
      · refine .inr ⟨?_, hp⟩
        rw [hn, Option.map_none]

theorem quoted_none (h : i.rest.head? ≠ some quote) : quoted quote i = none := by
  apply Parser.delimitedBy_open
  apply lit_none
  rintro ⟨ds, hds⟩
  exact h (by rw [← hds]; rfl)

theorem quoted_cons (h : i.rest = quote :: cs) :
    quoted quote i =
      (closing quote cs).map fun n => (cs.take n, i.skip Char.utf8Size (1 + n + 1)) := by
  have hopen : lit [quote] i = some ([quote], i.skip Char.utf8Size 1) := by
    apply lit_some
    rw [h]
    exact List.prefix_append [quote] cs
  obtain ⟨us, n, hrun, hend⟩ := quotedItem_repeated quote (i.skip Char.utf8Size 1)
  have hrest : (i.skip Char.utf8Size 1).rest = cs := by
    rw [skip_rest, h, List.drop_succ_cons, List.drop_zero]
  rw [Input.skip_skip] at hrun
  rw [hrest] at hend
  rcases hend with ⟨hn, hlt, hp⟩ | ⟨hn, hp⟩
  · have hslice : (quotedItem quote).repeated.toSlice (i.skip Char.utf8Size 1) = _ :=
      Parser.toSlice_skip (n := n) (by rw [hrun, Input.skip_skip]) (by rw [hrest]; omega)
    rw [hrest, Input.skip_skip] at hslice
    have hclose : lit [quote] (i.skip Char.utf8Size (1 + n)) = _ := lit_some (by
      rw [skip_rest, ← List.drop_drop, h]
      exact hp)
    rw [Input.skip_skip] at hclose
    rw [hn, Option.map_some]
    exact Parser.delimitedBy_some hopen hslice hclose
  · have hclose : lit [quote] (i.skip Char.utf8Size (1 + n)) = none := by
      apply lit_none
      rw [skip_rest, ← List.drop_drop, h, List.drop_succ_cons, List.drop_zero, hp]
      exact fun hquote => List.cons_ne_nil _ _ (List.prefix_nil.1 hquote)
    have hslice : (quotedItem quote).repeated.toSlice (i.skip Char.utf8Size 1) = some _ :=
      congrArg (Option.map _) hrun
    rw [hn, Option.map_none]
    exact Parser.delimitedBy_close hopen hslice hclose

theorem string_eq (i : Input Char) :
    (string : Parser Char (TokenStruct K)) i = lexedAt i (stringAt i.rest) := by
  unfold string
  rw [Parser.choice_or, Parser.choice_or, Parser.choice_nil, Option.or_none]
  by_cases hsingle : i.rest.head? = some '\''
  · obtain ⟨cs, hcs⟩ := List.head?_eq_some_iff.1 hsingle
    have hdouble : quoted '"' i = none := quoted_none (by rw [hsingle]; decide)
    have hquoted := quoted_cons hcs
    rw [Parser.mapWith_none _ hdouble, Option.or_none, hcs]
    cases hn : closing '\'' cs with
    | none =>
      rw [hn, Option.map_none] at hquoted
      rw [Parser.mapWith_none _ hquoted, stringAt, hn]
      rfl
    | some n =>
      rw [hn, Option.map_some] at hquoted
      rw [Parser.mapWith_some _ hquoted, stringAt, hn]
      rfl
  · rw [Parser.mapWith_none _ (quoted_none hsingle), Option.none_or]
    by_cases hdouble : i.rest.head? = some '"'
    · obtain ⟨cs, hcs⟩ := List.head?_eq_some_iff.1 hdouble
      have hquoted := quoted_cons hcs
      rw [hcs]
      cases hn : closing '"' cs with
      | none =>
        rw [hn, Option.map_none] at hquoted
        rw [Parser.mapWith_none _ hquoted, stringAt, hn]
        rfl
      | some n =>
        rw [hn, Option.map_some] at hquoted
        rw [Parser.mapWith_some _ hquoted, stringAt, hn]
        rfl
    · rw [Parser.mapWith_none _ (quoted_none hdouble)]
      cases hrest : i.rest with
      | nil => rfl
      | cons c cs =>
        rw [hrest, List.head?_cons, Option.some_inj] at hsingle hdouble
        rw [stringAt, styleOf, if_neg hsingle, if_neg hdouble]
        rfl

theorem stagePath_eq (i : Input Char) :
    (stagePath : Parser Char (TokenStruct K)) i = lexedAt i (stagePathAt i.rest) := by
  unfold stagePath
  cases hrest : i.rest with
  | nil =>
    have hlit : lit ['@'] i = none := lit_none (by
      rw [hrest]
      exact fun h => List.cons_ne_nil _ _ (List.prefix_nil.1 h))
    exact Parser.mapWith_none _ (Parser.mapWith_none _ (Parser.andThen_left hlit))
  | cons c cs =>
    by_cases hc : c = '@'
    · subst hc
      have hlit : lit ['@'] i = some (['@'], i.skip Char.utf8Size 1) := lit_some (by
        rw [hrest]
        exact List.prefix_append ['@'] cs)
      have hone := Parser.atLeast_one
        (run_eq (fun c => !isWhitespace c && c != ';') (i.skip Char.utf8Size 1))
      have hskip : (i.skip Char.utf8Size 1).rest = cs := by
        rw [skip_rest, hrest, List.drop_succ_cons, List.drop_zero]
      rw [hskip] at hone
      by_cases hs : cs.takeWhile (fun c => !isWhitespace c && c != ';') = []
      · rw [if_pos hs] at hone
        have hpath : (stagePathAt ('@' :: cs) : Option (Token K × Nat)) = none :=
          if_neg (fun h => h.2 hs)
        rw [hpath]
        exact Parser.mapWith_none _ (Parser.mapWith_none _
          (Parser.andThen_right hlit (Parser.toSlice_none hone)))
      · rw [if_neg hs] at hone
        have hslice := Parser.toSlice_skip hone (by
          rw [hskip]
          exact (List.takeWhile_prefix _).length_le)
        rw [hskip, ← List.prefix_iff_eq_take.1 (List.takeWhile_prefix _), Input.skip_skip]
          at hslice
        have hpath : (stagePathAt ('@' :: cs) : Option (Token K × Nat)) = some (.string
            (cs.takeWhile fun c => !isWhitespace c && c != ';') .unquoted,
            1 + (cs.takeWhile fun c => !isWhitespace c && c != ';').length) :=
          if_pos ⟨rfl, hs⟩
        rw [hpath]
        exact Parser.mapWith_some _ (Parser.mapWith_some _ (Parser.andThen_some hlit hslice))
    · have hlit : lit ['@'] i = none := lit_none (by
        rw [hrest, List.cons_prefix_cons]
        exact fun h => hc h.1.symm)
      have hpath : (stagePathAt (c :: cs) : Option (Token K × Nat)) = none :=
        if_neg (fun h => hc h.1)
      rw [hpath]
      exact Parser.mapWith_none _ (Parser.mapWith_none _ (Parser.andThen_left hlit))

theorem whitespace_eq (i : Input Char) :
    (whitespace : Parser Char (TokenStruct K)) i = lexedAt i (whitespaceAt i.rest) := by
  have hone := Parser.atLeast_one (run_eq isWhitespace i)
  unfold whitespace whitespaceAt
  by_cases hs : i.rest.takeWhile isWhitespace = []
  · rw [if_pos hs] at hone ⊢
    exact Parser.mapWith_none _ hone
  · rw [if_neg hs] at hone ⊢
    exact Parser.mapWith_some _ hone

theorem punctuation_eq (i : Input Char) :
    (punctuation : Parser Char (TokenStruct K)) i = lexedAt i (punctuationAt i.rest) := by
  unfold punctuation Parser.tryMap
  cases hrest : i.rest with
  | nil =>
    have hany : anyChar i = none := Parser.any_nil hrest
    rw [hany]
    rfl
  | cons c cs =>
    have hany : anyChar i = some (c, i.skip Char.utf8Size 1) := Parser.any_cons hrest
    rw [hany, punctuationAt]
    cases hp : Punctuation.fromChar c with
    | none => simp only [hp]; rfl
    | some p => simp only [hp]; rfl

theorem lexedAt_or (i : Input Char) (a b : Option (Token K × Nat)) :
    lexedAt i (a.or b) = (lexedAt i a).or (lexedAt i b) := by
  cases a with
  | none => rw [Option.none_or]; rfl
  | some r => rfl

/-- One turn of the lexer takes the next token. -/
theorem item_eq (w : Words K) (i : Input Char) : item w i = lexedAt i (nextToken w i.rest) := by
  unfold item nextToken
  simp only [Parser.choice_or, Parser.choice_nil, Option.or_none, lexedAt_or, comment_eq,
    operator_eq,
    number_eq, word_eq, string_eq, stagePath_eq, whitespace_eq, punctuation_eq]

/-! ## One token after another -/

theorem numberLength_pos (h : numberLength cs = some n) : 0 < n := by
  unfold numberLength at h
  split at h
  · split at h
    · cases h
      omega
    · cases h
      assumption
  · split at h
    · cases h
      omega
    · cases h

theorem nextToken_pos {t : Token K} (h : nextToken w cs = some (t, n)) : 0 < n := by
  unfold nextToken at h
  simp only [Option.or_eq_some_iff] at h
  rcases h with h | ⟨-, h | ⟨-, h | ⟨-, h | ⟨-, h | ⟨-, h | ⟨-, h | ⟨-, h⟩⟩⟩⟩⟩⟩⟩
  · unfold commentAt at h
    simp only at h
    split at h
    · cases h
      omega
    · split at h
      · cases h
        omega
      · cases h
  · obtain ⟨p, hp, hpt⟩ := Option.map_eq_some_iff.1 h
    cases hpt
    have hmem := List.mem_of_find?_eq_some hp
    have hall : ∀ q ∈ operators, 0 < q.1.length := by decide
    exact hall p hmem
  · obtain ⟨m, hm, hmt⟩ := Option.map_eq_some_iff.1 h
    cases hmt
    exact numberLength_pos hm
  · cases cs with
    | nil => cases h
    | cons c cs =>
      unfold wordAt at h
      simp only at h
      split at h
      · cases h
        exact Nat.succ_pos _
      · cases h
  · cases cs with
    | nil => cases h
    | cons c cs =>
      obtain ⟨kind, -, hn⟩ := Option.bind_eq_some_iff.1 h
      obtain ⟨m, -, hm⟩ := Option.map_eq_some_iff.1 hn
      cases hm
      omega
  · cases cs with
    | nil => cases h
    | cons c cs =>
      unfold stagePathAt at h
      simp only at h
      split at h
      · cases h
        omega
      · cases h
  · unfold whitespaceAt at h
    split at h
    · cases h
    · cases h
      rename_i hs
      exact List.length_pos_iff.2 hs
  · cases cs with
    | nil => cases h
    | cons c cs =>
      obtain ⟨p, -, hp⟩ := Option.map_eq_some_iff.1 h
      cases hp
      exact Nat.succ_pos 0

@[simp] theorem nextToken_nil (w : Words K) : nextToken w [] = none := by
  have hcomment : (commentAt [] : Option (Token K × Nat)) = none := by
    unfold commentAt
    rw [if_neg (by simp), if_neg (by simp)]
  have hnumber : numberLength [] = none := rfl
  unfold nextToken numberAt
  rw [hcomment, hnumber]
  rfl

theorem item_consumes (w : Words K) : (item w).Consumes := by
  intro j t j' h
  rw [item_eq] at h
  cases hnext : nextToken w j.rest with
  | none =>
    rw [hnext] at h
    cases h
  | some r =>
    have hpos := nextToken_pos hnext
    rw [hnext] at h
    cases h
    have hrest : j.rest ≠ [] := by
      intro hnil
      rw [hnil, nextToken_nil] at hnext
      cases hnext
    have hlen := List.length_pos_iff.2 hrest
    rw [skip_rest, List.length_drop]
    omega

/-- The tokens are the next one and those behind it. -/
theorem lexer_step {t : Token K} (h : nextToken w i.rest = some (t, n)) :
    lexer w i = (lexer w (i.skip Char.utf8Size n)).map fun r =>
      (⟨t, ⟨i.offset, (i.skip Char.utf8Size n).offset⟩⟩ :: r.1, r.2) := by
  have hitem : item w i = some (⟨t, ⟨i.offset, (i.skip Char.utf8Size n).offset⟩⟩,
      i.skip Char.utf8Size n) := by
    rw [item_eq, h]
    rfl
  unfold lexer Parser.thenIgnore Parser.mapWith Parser.tryMap Parser.andThen
  rw [Parser.repeated_step (item_consumes w) hitem]
  cases (item w).repeated (i.skip Char.utf8Size n) with
  | none => rfl
  | some r =>
    simp only [Option.map_some]
    cases Parser.atEnd r.2 <;> rfl

/-- Where no token comes next the text has to end. -/
theorem lexer_stop (h : nextToken w i.rest = none) :
    lexer w i = if i.rest = [] then some ([], i) else none := by
  have hitem : item w i = none := by
    rw [item_eq, h]
    rfl
  unfold lexer Parser.thenIgnore Parser.mapWith Parser.tryMap Parser.andThen
  rw [Parser.repeated_stop hitem]
  unfold Parser.atEnd
  cases hrest : i.rest with
  | nil => simp [hrest]
  | cons c cs => simp [hrest]

end

end SquealDb.SqlParser
