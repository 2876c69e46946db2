import NanoDB.Token

/-!
The tokenizer (parser/Lexer.cpp). Its state is the text that is left to read. After
the last token it stays at the end of the input, so a statement is one finite list
of tokens followed by `END_OF_INPUT` for ever.
-/
namespace NanoDB.Lexer

open CTypes

variable {D : Type} [CDouble D]

def isBlank (b : Byte) : Bool := b = 32 || b = 9 || b = 10 || b = 13

def isQuote (b : Byte) : Bool := b = 34 || b = 39

/-- The text after an opening quote: everything up to the next quote of either kind. -/
def readString (rest : List Byte) : Token D × List Byte :=
  let str := rest.takeWhile fun b => !isQuote b
  (Token.ofLexeme .STRING_LIT (str.take 255), (rest.dropWhile fun b => !isQuote b).drop 1)

def isNumberByte (b : Byte) : Bool := isDigit b || b = 46

/-- Digits and dots; only the first 63 of them count. -/
def readNumber (s : List Byte) : Token D × List Byte :=
  let run := s.takeWhile isNumberByte
  let buf := run.take 63
  let rest := s.dropWhile isNumberByte
  let lexeme := snprintf 256 textSize_pos buf
  if 46 ∈ run then (⟨.FLOAT_LIT, lexeme, 0, CDouble.atof buf⟩, rest)
  else (⟨.INTEGER, lexeme, atoi buf, CDouble.ofInt 0⟩, rest)

def isIdentByte (b : Byte) : Bool := isAlnum b || b = 95

def keywords : List (List Byte × TokenType) :=
  [(ascii "SELECT", .SELECT), (ascii "FROM", .FROM), (ascii "WHERE", .WHERE),
   (ascii "INSERT", .INSERT), (ascii "INTO", .INTO), (ascii "VALUES", .VALUES),
   (ascii "UPDATE", .UPDATE), (ascii "SET", .SET), (ascii "DELETE", .DELETE),
   (ascii "JOIN", .JOIN), (ascii "ON", .ON), (ascii "ORDER", .ORDER), (ascii "BY", .BY),
   (ascii "AND", .AND), (ascii "OR", .OR), (ascii "NOT", .NOT)]

def readIdentOrKeyword (s : List Byte) : Token D × List Byte :=
  let buf := (s.takeWhile isIdentByte).take 255
  let type := (keywords.lookup (buf.map toUpper)).getD .IDENTIFIER
  (Token.ofLexeme type buf, s.dropWhile isIdentByte)

/-- An operator or punctuation mark that starts with `c`; `rest` follows it. -/
def readSymbol (c : Byte) (rest : List Byte) : Token D × List Byte :=
  let makeOp (t : TokenType) (lex : String) (advance : ℕ) : Token D × List Byte :=
    (Token.ofLexeme t (ascii lex), rest.drop (advance - 1))
  let followedBy (b : Byte) : Bool := rest.head? = some b
  match Char.ofNat c.toNat with
  | '(' => makeOp .LPAREN "(" 1
  | ')' => makeOp .RPAREN ")" 1
  | ',' => makeOp .COMMA "," 1
  | ';' => makeOp .SEMICOLON ";" 1
  | '.' => makeOp .DOT "." 1
  | '+' => makeOp .PLUS "+" 1
  | '-' => makeOp .MINUS "-" 1
  | '*' => makeOp .MUL "*" 1
  | '/' => makeOp .DIV "/" 1
  | '%' => makeOp .MOD "%" 1
  | '=' => if followedBy 61 then makeOp .EQ "==" 2 else makeOp .ASSIGN "=" 1
  | '!' => if followedBy 61 then makeOp .NEQ "!=" 2 else (Token.ofLexeme .UNKNOWN [c], rest)
  | '<' => if followedBy 61 then makeOp .LTE "<=" 2 else makeOp .LT "<" 1
  | '>' => if followedBy 61 then makeOp .GTE ">=" 2 else makeOp .GT ">" 1
  | _ => (Token.ofLexeme .UNKNOWN [c], rest)

def nextToken (s : List Byte) : Token D × List Byte :=
  match s.dropWhile isBlank with
  | [] => (Token.ofLexeme .END_OF_INPUT [], [])
  | c :: rest =>
    if isQuote c then readString rest
    else if isDigit c then readNumber (c :: rest)
    else if isAlpha c || c = 95 then readIdentOrKeyword (c :: rest)
    else readSymbol c rest

def tokensFuel : ℕ → List Byte → List (Token D)
  | 0, _ => []
  | fuel + 1, s =>
    let next := nextToken s
    if next.1.type = .END_OF_INPUT then [] else next.1 :: tokensFuel fuel next.2

def tokens (s : List Byte) : List (Token D) := tokensFuel s.length s

/-- At most `maxOut` tokens; the one for the end of the input is the last. -/
def tokenize : ℕ → List Byte → List (Token D)
  | 0, _ => []
  | maxOut + 1, s =>
    let next := nextToken s
    if next.1.type = .END_OF_INPUT then [next.1] else next.1 :: tokenize maxOut next.2

theorem dropWhile_length_le (p : Byte → Bool) (s : List Byte) :
    (s.dropWhile p).length ≤ s.length := (List.dropWhile_suffix p).length_le

theorem readSymbol_spec (c : Byte) (rest : List Byte) :
    (readSymbol c rest : Token D × List Byte).1.type ≠ .END_OF_INPUT ∧
      (readSymbol c rest : Token D × List Byte).2.length ≤ rest.length := by
  unfold readSymbol
  dsimp only
  split <;> (try split) <;> simp [Token.ofLexeme]

/-- Every token but the last takes at least one byte of the text. -/
theorem nextToken_length (s : List Byte)
    (h : (nextToken s : Token D × List Byte).1.type ≠ .END_OF_INPUT) :
    (nextToken s : Token D × List Byte).2.length < s.length := by
  have hle := dropWhile_length_le isBlank s
  unfold nextToken at h ⊢
  cases hdrop : s.dropWhile isBlank with
  | nil => simp [hdrop, Token.ofLexeme] at h
  | cons c rest =>
    rw [hdrop, List.length_cons] at hle
    simp only
    split
    · have hrest := dropWhile_length_le (fun b => !isQuote b) rest
      simp only [readString, List.length_drop]
      omega
    · split
      · rename_i hdigit
        have hbyte : isNumberByte c = true := by simp [isNumberByte, hdigit]
        have hrest := dropWhile_length_le isNumberByte rest
        have hnum : (readNumber (c :: rest) : Token D × List Byte).2 =
            rest.dropWhile isNumberByte := by
          simp only [readNumber, List.dropWhile_cons_of_pos hbyte]
          split <;> rfl
        rw [hnum]
        omega
      · split
        · rename_i hident
          have hbyte : isIdentByte c = true := by
            simp only [Bool.or_eq_true] at hident
            rcases hident with hident | hident
            · simp [isIdentByte, isAlnum, hident]
            · simp [isIdentByte, of_decide_eq_true hident]
          have hrest := dropWhile_length_le isIdentByte rest
          simp only [readIdentOrKeyword, List.dropWhile_cons_of_pos hbyte]
          omega
        · have hsym := (readSymbol_spec (D := D) c rest).2
          omega

theorem tokensFuel_congr (n m : ℕ) (s : List Byte) (hn : s.length ≤ n) (hm : s.length ≤ m) :
    (tokensFuel n s : List (Token D)) = tokensFuel m s := by
  induction n generalizing m s with
  | zero =>
    obtain rfl := List.length_eq_zero_iff.mp (Nat.le_zero.mp hn)
    cases m <;> rfl
  | succ n ih =>
    cases m with
    | zero =>
      obtain rfl := List.length_eq_zero_iff.mp (Nat.le_zero.mp hm)
      rfl
    | succ m =>
      simp only [tokensFuel]
      split
      · rfl
      · rename_i hend
        have hlt := nextToken_length s hend
        rw [ih m _ (by omega) (by omega)]

/-- The token list is what `nextToken` yields call after call until the input ends. -/
theorem tokens_eq (s : List Byte) :
    (tokens s : List (Token D)) =
      if (nextToken s : Token D × List Byte).1.type = .END_OF_INPUT then []
      else (nextToken s : Token D × List Byte).1 ::
        tokens (nextToken s : Token D × List Byte).2 := by
  have hfuel : (tokens s : List (Token D)) = tokensFuel (s.length + 1) s :=
    tokensFuel_congr _ _ s (le_refl _) (by omega)
  rw [hfuel, tokensFuel]
  split
  · rfl
  · rename_i hend
    have hlt := nextToken_length s hend
    rw [tokensFuel_congr _ _ _ (by omega) (le_refl _)]
    rfl

/-- `END_OF_INPUT` is never among the tokens. -/
theorem tokens_type (s : List Byte) :
    ∀ t ∈ (tokens s : List (Token D)), t.type ≠ .END_OF_INPUT := by
  unfold tokens
  generalize s.length = fuel
  induction fuel generalizing s with
  | zero => simp [tokensFuel]
  | succ fuel ih =>
    simp only [tokensFuel]
    split
    · simp
    · rename_i hend
      intro t ht
      rcases List.mem_cons.mp ht with rfl | ht
      · exact hend
      · exact ih _ t ht

end NanoDB.Lexer
