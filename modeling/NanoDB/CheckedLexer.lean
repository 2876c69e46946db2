import NanoDB.LexerScan
import NanoDB.Library.CheckedProgram

/-!
The tokenizer with its arrays (parser/Lexer.cpp): the copy of the text, the position in it
and the buffers of each routine, every access checked. Whatever the text, no access is
outside its array and every loop ends, and the tokens are those of the tokenizer on the text
that is left.
-/
namespace NanoDB.CheckedLexer

open CTypes CheckedProgram

variable {D : Type} [CDouble D]

structure LexerState where
  src_ : List Byte
  pos_ : ℕ
  len_ : ℕ

/-- `Lexer(input)`; `input` is an array that ends with a NUL byte. -/
def newLexer (fuel : ℕ) (input : List Byte) : Run LexerState := do
  let len ← whileLoop (fun len => do return (← load input len) ≠ 0) (fun len => return len + 1)
    fuel 0
  let src ← forLoop (len + 1) (fun src i => load input (0 + i) >>= push (len + 1) src) []
  return ⟨src, 0, len⟩

/-- `while (pos_ < len_ && p(src_[pos_])) ++pos_`. -/
def scan (fuel : ℕ) (p : Byte → Bool) (lex : LexerState) : Run ℕ :=
  whileLoop (fun pos => if pos < lex.len_ then do return p (← load lex.src_ pos) else return false)
    (fun pos => return pos + 1) fuel lex.pos_

def skipWhitespace (fuel : ℕ) (lex : LexerState) : Run LexerState := do
  let pos ← scan fuel Lexer.isBlank lex
  return { lex with pos_ := pos }

/-- `for (i < n) buf[i] = src_[start + i]; buf[n] = '\0'` on a buffer of `size` bytes. -/
def copyText (size : ℕ) (lex : LexerState) (start n : ℕ) : Run (List Byte) := do
  let buf ← forLoop n (fun buf i => load lex.src_ (start + i) >>= push size buf) []
  touch size n
  return buf

def readString (fuel : ℕ) (lex : LexerState) : Run (Token D × LexerState) := do
  let lex := { lex with pos_ := lex.pos_ + 1 }
  let start := lex.pos_
  let pos ← scan fuel (fun b => !Lexer.isQuote b) lex
  let slen := if pos - start > 255 then 255 else pos - start
  let buf ← copyText 256 lex start slen
  let pos := if pos < lex.len_ then pos + 1 else pos
  return (Token.ofLexeme .STRING_LIT buf, { lex with pos_ := pos })

/-- The loop sets the flag at every dot. -/
def readNumber (fuel : ℕ) (lex : LexerState) : Run (Token D × LexerState) := do
  let start := lex.pos_
  let (pos, isFloat) ← whileLoop
    (fun s : ℕ × Bool =>
      if s.1 < lex.len_ then do return Lexer.isNumberByte (← load lex.src_ s.1) else return false)
    (fun s => do
      let c ← load lex.src_ s.1
      return (s.1 + 1, s.2 || c = 46))
    fuel (start, false)
  let nlen := if pos - start > 63 then 63 else pos - start
  let buf ← copyText 64 lex start nlen
  let lexeme := snprintf 256 textSize_pos buf
  let lex := { lex with pos_ := pos }
  if isFloat then return (⟨.FLOAT_LIT, lexeme, 0, CDouble.atof buf⟩, lex)
  else return (⟨.INTEGER, lexeme, atoi buf, CDouble.ofInt 0⟩, lex)

/-- `for (i = 0; buf[i]; ++i) upper[i] = toupper(buf[i]); upper[n] = '\0'`. -/
def upperText (fuel : ℕ) (buf : List Byte) : Run (List Byte) := do
  let (_, upper) ← whileLoop
    (fun s : ℕ × List Byte => do return (← load (buf ++ [0]) s.1) ≠ 0)
    (fun s => do
      let c ← load (buf ++ [0]) s.1
      let upper ← push 256 s.2 (toUpper c)
      return (s.1 + 1, upper))
    fuel (0, [])
  touch 256 buf.length
  return upper

def readIdentOrKeyword (fuel : ℕ) (lex : LexerState) : Run (Token D × LexerState) := do
  let start := lex.pos_
  let pos ← scan fuel Lexer.isIdentByte lex
  let ilen := if pos - start > 255 then 255 else pos - start
  let buf ← copyText 256 lex start ilen
  let upper ← upperText fuel buf
  let type := (Lexer.keywords.lookup upper).getD .IDENTIFIER
  return (Token.ofLexeme type buf, { lex with pos_ := pos })

def readSymbol (c c2 : Byte) (lex : LexerState) : Token D × LexerState :=
  let makeOp (t : TokenType) (text : String) (advance : ℕ) : Token D × LexerState :=
    (Token.ofLexeme t (ascii text), { lex with pos_ := lex.pos_ + advance })
  let unknown : Token D × LexerState :=
    (Token.ofLexeme .UNKNOWN [c], { lex with pos_ := lex.pos_ + 1 })
  match Char.ofNat c.toNat with
  | '(' => makeOp .LPAREN "(" 1
  | ')' => makeOp .RPAREN ")" 1
  | ',' => makeOp .COMMA "," 1
  | ';' => makeOp .SEMICOLON ";" 1
  | '.' => makeOp .DOT "." 1
  | '+' => makeOp .PLUS "+" 1
  | '-' => makeOp .MINUS "-" 1
  | '*' => makeOp .MUL "*" 1
  | '/' => makeOp .DIV "/" 1
  | '%' => makeOp .MOD "%" 1
  | '=' => if c2 = 61 then makeOp .EQ "==" 2 else makeOp .ASSIGN "=" 1
  | '!' => if c2 = 61 then makeOp .NEQ "!=" 2 else unknown
  | '<' => if c2 = 61 then makeOp .LTE "<=" 2 else makeOp .LT "<" 1
  | '>' => if c2 = 61 then makeOp .GTE ">=" 2 else makeOp .GT ">" 1
  | _ => unknown

def secondByte (lex : LexerState) : Run Byte :=
  if lex.pos_ + 1 < lex.len_ then load lex.src_ (lex.pos_ + 1) else return 0

def nextToken (fuel : ℕ) (lex : LexerState) : Run (Token D × LexerState) := do
  let lex ← skipWhitespace fuel lex
  if lex.pos_ ≥ lex.len_ then return (Token.ofLexeme .END_OF_INPUT [], lex)
  else
    let c ← load lex.src_ lex.pos_
    let c2 ← secondByte lex
    if Lexer.isQuote c then readString fuel lex
    else if isDigit c then readNumber fuel lex
    else if isAlpha c || c = 95 then readIdentOrKeyword fuel lex
    else return readSymbol c c2 lex

/-- The lexer is somewhere in the text, which its array holds with a terminator. -/
structure At (text : List Byte) (lex : LexerState) : Prop where
  src : lex.src_ = text ++ [0]
  len : lex.len_ = text.length
  pos : lex.pos_ ≤ text.length

section Reading
variable {text : List Byte} {lex : LexerState} {fuel : ℕ}

theorem At.move (h : At text lex) {pos : ℕ} (hpos : pos ≤ text.length) :
    At text { lex with pos_ := pos } := ⟨h.src, h.len, hpos⟩

theorem At.load_of_get (h : At text lex) {i : ℕ} {c : Byte} (hc : text[i]? = some c) :
    load lex.src_ i = .ok c := by
  have hi := (List.getElem?_eq_some_iff.mp hc).1
  apply CheckedProgram.load_of_get
  rw [h.src, List.getElem?_append_left hi, hc]

theorem exists_byte {i : ℕ} (hi : i < text.length) :
    ∃ c, text[i]? = some c ∧ text.drop i = c :: text.drop (i + 1) :=
  ⟨_, List.getElem?_eq_getElem hi, List.drop_eq_getElem_cons hi⟩

/-- A terminated text is read up to its terminator. -/
theorem load_text (hnul : ∀ b ∈ text, b ≠ 0) (rest : List Byte) {i : ℕ} (hi : i ≤ text.length) :
    (i < text.length ∧ ∃ c, text[i]? = some c ∧ load (text ++ 0 :: rest) i = .ok c ∧ c ≠ 0) ∨
      (i = text.length ∧ load (text ++ 0 :: rest) i = .ok 0) := by
  rcases Nat.lt_or_eq_of_le hi with hlt | rfl
  · obtain ⟨c, hc, -⟩ := exists_byte hlt
    refine Or.inl ⟨hlt, c, hc, ?_, hnul c (List.mem_of_getElem? hc)⟩
    exact CheckedProgram.load_of_get (by rw [List.getElem?_append_left hlt, hc])
  · exact Or.inr ⟨rfl, CheckedProgram.load_of_get (by simp)⟩

/-- The loop that counts the bytes of a terminated text. -/
theorem countText_eq (hnul : ∀ b ∈ text, b ≠ 0) (rest : List Byte) (hfuel : text.length < fuel) :
    whileLoop (fun n => do return (← load (text ++ 0 :: rest) n) ≠ 0) (fun n => return n + 1)
      fuel 0 = .ok text.length := by
  refine whileLoop_eq (fun n => n ≤ text.length) (fun n => text.length - n)
    (fun _ => text.length) ?_ (Nat.zero_le _) (by omega)
  intro n hn
  rcases load_text hnul rest hn with ⟨hlt, c, -, hload, hne⟩ | ⟨rfl, hload⟩
  · right
    refine ⟨n + 1, ?_, rfl, hlt, by omega, rfl⟩
    rw [hload]
    exact congrArg Except.ok (decide_eq_true hne)
  · left
    rw [hload]
    exact ⟨rfl, rfl⟩

/-- The scanning loop goes on as long as the bytes do. -/
theorem scan_eq (h : At text lex) (p : Byte → Bool) (hfuel : text.length < fuel) :
    scan fuel p lex = .ok (lex.pos_ + ((text.drop lex.pos_).takeWhile p).length) := by
  refine whileLoop_eq (fun pos => pos ≤ text.length) (fun pos => text.length - pos)
    (fun pos => pos + ((text.drop pos).takeWhile p).length) ?_ h.pos (by omega)
  intro pos hpos
  rw [h.len]
  by_cases hlt : pos < text.length
  · obtain ⟨c, hc, hdrop⟩ := exists_byte hlt
    rw [if_pos hlt, h.load_of_get hc, hdrop]
    cases hp : p c with
    | false =>
      left
      rw [List.takeWhile_cons_of_neg (by simp [hp])]
      exact ⟨congrArg Except.ok hp, rfl⟩
    | true =>
      right
      rw [List.takeWhile_cons_of_pos hp, List.length_cons]
      exact ⟨pos + 1, congrArg Except.ok hp, rfl, hlt, by omega, by omega⟩
  · left
    rw [if_neg hlt, List.drop_eq_nil_of_le (by omega)]
    exact ⟨rfl, rfl⟩

theorem scan_le (p : Byte → Bool) (hpos : lex.pos_ ≤ text.length) :
    lex.pos_ + ((text.drop lex.pos_).takeWhile p).length ≤ text.length := by
  have hle := (List.takeWhile_prefix p (l := text.drop lex.pos_)).length_le
  rw [List.length_drop] at hle
  omega

/-- What is left behind the run. -/
theorem drop_scan (p : Byte → Bool) (i : ℕ) :
    text.drop (i + ((text.drop i).takeWhile p).length) = (text.drop i).dropWhile p := by
  have hsplit : ((text.drop i).takeWhile p ++ (text.drop i).dropWhile p).drop
      ((text.drop i).takeWhile p).length = (text.drop i).dropWhile p := List.drop_left
  rwa [List.takeWhile_append_dropWhile, List.drop_drop] at hsplit

theorem copyText_eq (h : At text lex) {size start n : ℕ} (hn : n < size)
    (hend : start + n ≤ text.length) :
    copyText size lex start n = .ok ((text.drop start).take n) := by
  have hlen : start + n ≤ lex.src_.length := by
    rw [h.src, List.length_append]
    omega
  have hsame : (lex.src_.drop start).take n = (text.drop start).take n := by
    rw [h.src, List.drop_append_of_le_length (by omega), List.take_append_of_le_length]
    rw [List.length_drop]
    omega
  rw [copyText, forLoop_copy [] (by simp; omega) hlen, List.nil_append, hsame, ok_bind,
    touch_of_lt hn]
  rfl

def Agrees (text : List Byte) (run : Run (Token D × LexerState)) (next : Token D × List Byte) :
    Prop :=
  ∃ lex', run = .ok (next.1, lex') ∧ At text lex' ∧ text.drop lex'.pos_ = next.2

theorem capped (n limit : ℕ) : (if n > limit then limit else n) = min n limit := by
  split <;> omega

/-- A run of bytes in a buffer of `limit` bytes and a terminator. -/
theorem copyText_run (h : At text lex) (p : Byte → Bool) (limit : ℕ) :
    copyText (limit + 1) lex lex.pos_
        (if lex.pos_ + ((text.drop lex.pos_).takeWhile p).length - lex.pos_ > limit then limit
          else lex.pos_ + ((text.drop lex.pos_).takeWhile p).length - lex.pos_) =
      .ok (((text.drop lex.pos_).takeWhile p).take limit) := by
  have hend := scan_le p h.pos
  rw [capped, Nat.add_sub_cancel_left]
  have hrun : (text.drop lex.pos_).take ((text.drop lex.pos_).takeWhile p).length =
      (text.drop lex.pos_).takeWhile p :=
    (List.prefix_iff_eq_take.mp (List.takeWhile_prefix p)).symm
  rw [copyText_eq h (by omega) (by omega), min_comm, ← List.take_take, hrun]

theorem readString_agrees (h : At text lex) {c : Byte} {rest : List Byte}
    (hrest : text.drop lex.pos_ = c :: rest) (hfuel : text.length < fuel) :
    Agrees text (readString fuel lex : Run (Token D × LexerState)) (Lexer.readString rest) := by
  have hlt : lex.pos_ < text.length := by
    by_contra hge
    rw [List.drop_eq_nil_of_le (by omega)] at hrest
    contradiction
  have hat : At text { lex with pos_ := lex.pos_ + 1 } := h.move hlt
  obtain rfl : text.drop (lex.pos_ + 1) = rest := by
    rw [← List.drop_drop, hrest]
    rfl
  have hend := scan_le (fun b => !Lexer.isQuote b) hat.pos
  have hcopy := copyText_run hat (fun b => !Lexer.isQuote b) 255
  have hscan := scan_eq hat (fun b => !Lexer.isQuote b) hfuel
  simp only [readString, hscan, ok_bind] at hcopy hend ⊢
  rw [hcopy]
  refine ⟨_, rfl, h.move ?_, ?_⟩
  · simp only [h.len]
    split <;> omega
  · simp only [h.len, Lexer.readString]
    rw [← drop_scan]
    split
    · rw [List.drop_drop]
    · rw [List.drop_eq_nil_of_le (by omega)]
      rfl

/-- The number loop scans, and its flag says whether there was a dot. -/
theorem numberLoop_eq (h : At text lex) (hfuel : text.length < fuel) :
    whileLoop (fun s : ℕ × Bool =>
        if s.1 < lex.len_ then do return Lexer.isNumberByte (← load lex.src_ s.1)
        else return false)
      (fun s => do
        let c ← load lex.src_ s.1
        return (s.1 + 1, s.2 || c = 46)) fuel (lex.pos_, false) =
      .ok (lex.pos_ + ((text.drop lex.pos_).takeWhile Lexer.isNumberByte).length,
        decide (46 ∈ (text.drop lex.pos_).takeWhile Lexer.isNumberByte)) := by
  refine (whileLoop_eq (fun s => s.1 ≤ text.length) (fun s => text.length - s.1)
    (fun s => (s.1 + ((text.drop s.1).takeWhile Lexer.isNumberByte).length,
      s.2 || decide (46 ∈ (text.drop s.1).takeWhile Lexer.isNumberByte))) ?_
    h.pos (by simp only; omega)).trans (by rw [Bool.false_or])
  rintro ⟨pos, flag⟩ hpos
  dsimp only at hpos ⊢
  rw [h.len]
  by_cases hlt : pos < text.length
  · obtain ⟨c, hc, hdrop⟩ := exists_byte hlt
    rw [if_pos hlt, h.load_of_get hc, hdrop]
    cases hp : Lexer.isNumberByte c with
    | false =>
      left
      rw [List.takeWhile_cons_of_neg (by simp [hp])]
      exact ⟨congrArg Except.ok hp, by simp⟩
    | true =>
      right
      rw [List.takeWhile_cons_of_pos hp, List.length_cons]
      refine ⟨(pos + 1, flag || c = 46), congrArg Except.ok hp, rfl, hlt, by omega, ?_⟩
      refine Prod.ext (by simp only; omega) ?_
      simp [Bool.or_assoc, eq_comm]
  · left
    rw [if_neg hlt, List.drop_eq_nil_of_le (by omega)]
    exact ⟨rfl, by simp⟩

theorem readNumber_agrees (h : At text lex) (hfuel : text.length < fuel) :
    Agrees text (readNumber fuel lex : Run (Token D × LexerState))
      (Lexer.readNumber (text.drop lex.pos_)) := by
  have hend := scan_le Lexer.isNumberByte h.pos
  have hcopy := copyText_run h Lexer.isNumberByte 63
  simp only [readNumber, numberLoop_eq h hfuel, ok_bind, hcopy, Lexer.readNumber,
    decide_eq_true_eq]
  split
  · exact ⟨_, rfl, h.move hend, drop_scan _ _⟩
  · exact ⟨_, rfl, h.move hend, drop_scan _ _⟩

theorem upperText_eq {buf : List Byte} (hnul : ∀ b ∈ buf, b ≠ 0) (hlen : buf.length < 256)
    (hfuel : 256 ≤ fuel) : upperText fuel buf = .ok (buf.map toUpper) := by
  have hloop : whileLoop (fun s : ℕ × List Byte => do return (← load (buf ++ [0]) s.1) ≠ 0)
      (fun s => do
        let c ← load (buf ++ [0]) s.1
        let upper ← push 256 s.2 (toUpper c)
        return (s.1 + 1, upper)) fuel (0, []) = .ok (buf.length, buf.map toUpper) := by
    refine whileLoop_eq (fun s => s.1 ≤ buf.length ∧ s.2 = (buf.take s.1).map toUpper)
      (fun s => buf.length - s.1) (fun _ => (buf.length, buf.map toUpper)) ?_
      ⟨Nat.zero_le _, rfl⟩ (by simp only; omega)
    rintro ⟨i, upper⟩ ⟨hi, hupper⟩
    dsimp only at hi hupper ⊢
    rcases load_text hnul [] hi with ⟨hlt, c, hc, hload, hne⟩ | ⟨rfl, hload⟩
    · right
      have hroom : upper.length < 256 := by
        rw [hupper, List.length_map, List.length_take]
        omega
      refine ⟨(i + 1, upper ++ [toUpper c]), ?_, ?_, ⟨hlt, ?_⟩, by omega, rfl⟩
      · rw [hload]
        exact congrArg Except.ok (decide_eq_true hne)
      · rw [hload, ok_bind, push_of_lt hroom]
        rfl
      · rw [hupper, List.take_add_one, hc, List.map_append]
        rfl
    · left
      rw [hload, hupper, List.take_length]
      exact ⟨rfl, rfl⟩
  rw [upperText, hloop, ok_bind]
  simp only [touch_of_lt hlen, ok_bind]
  rfl

theorem readIdentOrKeyword_agrees (h : At text lex) (hfuel : text.length < fuel)
    (hrounds : 256 ≤ fuel) :
    Agrees text (readIdentOrKeyword fuel lex : Run (Token D × LexerState))
      (Lexer.readIdentOrKeyword (text.drop lex.pos_)) := by
  have hend := scan_le Lexer.isIdentByte h.pos
  have hcopy := copyText_run h Lexer.isIdentByte 255
  have hupper : upperText fuel (((text.drop lex.pos_).takeWhile Lexer.isIdentByte).take 255) =
      .ok ((((text.drop lex.pos_).takeWhile Lexer.isIdentByte).take 255).map toUpper) := by
    refine upperText_eq (fun b hb => ?_) ?_ hrounds
    · exact LexerRoundTrip.isIdentByte_ne_zero b (List.mem_takeWhile_imp (List.mem_of_mem_take hb))
    · rw [List.length_take]
      omega
  simp only [readIdentOrKeyword, scan_eq h Lexer.isIdentByte hfuel, ok_bind, hcopy, hupper]
  exact ⟨_, rfl, h.move hend, drop_scan _ _⟩

theorem readSymbol_agrees (h : At text lex) {c : Byte} {rest : List Byte}
    (hrest : text.drop lex.pos_ = c :: rest) {c2 : Byte}
    (hc2 : c2 = (rest.head?).getD 0) :
    Agrees text (.ok (readSymbol c c2 lex) : Run (Token D × LexerState))
      (Lexer.readSymbol c rest) := by
  have hlt : lex.pos_ < text.length := by
    by_contra hge
    rw [List.drop_eq_nil_of_le (by omega)] at hrest
    contradiction
  have hdrop : ∀ n, text.drop (lex.pos_ + (n + 1)) = rest.drop n := by
    intro n
    rw [← List.drop_drop, hrest]
    rfl
  have hone : ∀ t : Token D, Agrees text (.ok (t, { lex with pos_ := lex.pos_ + 1 })) (t, rest) :=
    fun t => ⟨_, rfl, h.move hlt, hdrop 0⟩
  have htwo : ∀ t : Token D, rest.head? = some 61 →
      Agrees text (.ok (t, { lex with pos_ := lex.pos_ + 2 })) (t, rest.drop 1) := by
    intro t hhead
    refine ⟨_, rfl, h.move ?_, hdrop 1⟩
    have hlen := congrArg List.length hrest
    have hpos := List.length_pos_of_ne_nil (fun hnil : rest = [] => by simp [hnil] at hhead)
    rw [List.length_drop, List.length_cons] at hlen
    omega
  have hfollow : c2 = 61 ↔ rest.head? = some 61 := by
    rw [hc2]
    cases rest <;> simp
  unfold readSymbol Lexer.readSymbol
  dsimp only
  simp only [hfollow, decide_eq_true_eq]
  -- one case for each character of the switch, in the source's order
  split
  all_goals
    rename_i hchar
    try simp only [hchar]
    first
      | exact hone _
      | split <;> first | exact htwo _ ‹_› | exact hone _

/-- The token that starts where the lexer stands. -/
theorem readToken_agrees (h : At text lex) (hfuel : text.length < fuel) (hrounds : 256 ≤ fuel)
    {c : Byte} {rest : List Byte} (hrest : text.drop lex.pos_ = c :: rest) {c2 : Byte}
    (hc2 : c2 = (rest.head?).getD 0) :
    Agrees text
      (if Lexer.isQuote c then readString fuel lex
        else if isDigit c then readNumber fuel lex
        else if isAlpha c || c = 95 then readIdentOrKeyword fuel lex
        else .ok (readSymbol c c2 lex) : Run (Token D × LexerState))
      (if Lexer.isQuote c then Lexer.readString rest
        else if isDigit c then Lexer.readNumber (c :: rest)
        else if isAlpha c || c = 95 then Lexer.readIdentOrKeyword (c :: rest)
        else Lexer.readSymbol c rest) := by
  split_ifs
  · exact readString_agrees h hrest hfuel
  · rw [← hrest]
    exact readNumber_agrees h hfuel
  · rw [← hrest]
    exact readIdentOrKeyword_agrees h hfuel hrounds
  · exact readSymbol_agrees h hrest hc2

/-- The next token is that of the text that is left, and nothing is accessed outside its
array on the way. -/
theorem nextToken_agrees (h : At text lex) (hfuel : text.length < fuel) (hrounds : 256 ≤ fuel) :
    Agrees text (nextToken fuel lex : Run (Token D × LexerState))
      (Lexer.nextToken (text.drop lex.pos_)) := by
  have hskip := scan_le Lexer.isBlank h.pos
  have hblank : text.drop (lex.pos_ + ((text.drop lex.pos_).takeWhile Lexer.isBlank).length) =
      (text.drop lex.pos_).dropWhile Lexer.isBlank := drop_scan Lexer.isBlank lex.pos_
  rw [nextToken, skipWhitespace, scan_eq h Lexer.isBlank hfuel, ok_bind, Lexer.nextToken, ← hblank]
  simp only [pure, Except.pure, ok_bind]
  generalize lex.pos_ + ((text.drop lex.pos_).takeWhile Lexer.isBlank).length = pos at hskip
  have hat := h.move hskip
  rw [h.len] at hat ⊢
  rcases Nat.lt_or_ge pos text.length with hlt | hge
  · obtain ⟨c, hc, hdrop⟩ := exists_byte hlt
    have hload : load lex.src_ pos = .ok c := hat.load_of_get hc
    have hnext : secondByte ⟨lex.src_, pos, text.length⟩ =
        .ok (((text.drop (pos + 1)).head?).getD 0) := by
      rw [secondByte]
      split
      · rename_i hlt'
        obtain ⟨c', hc', hdrop'⟩ := exists_byte hlt'
        rw [hat.load_of_get hc', hdrop']
        rfl
      · rename_i hge
        rw [List.drop_eq_nil_of_le (not_lt.mp hge)]
        rfl
    rw [if_neg (by omega), hload, ok_bind, hnext, ok_bind, hdrop]
    exact readToken_agrees hat hfuel hrounds hdrop rfl
  · rw [if_pos hge, List.drop_eq_nil_of_le hge]
    exact ⟨_, rfl, hat, List.drop_eq_nil_of_le hge⟩

/-- A C string in an array, with what stands behind its terminator. -/
theorem exists_terminator (sql : List Byte) : ∃ rest, sql ++ [0] = cstr sql ++ 0 :: rest := by
  unfold cstr
  cases hdrop : sql.dropWhile (fun b => b ≠ 0) with
  | nil =>
    refine ⟨[], ?_⟩
    conv_lhs => rw [← List.takeWhile_append_dropWhile (p := fun b => b ≠ 0) (l := sql), hdrop]
    rw [List.append_nil]
  | cons b rest =>
    have hzero : b = 0 := by
      have hne : sql.dropWhile (fun b => b ≠ 0) ≠ [] := by
        rw [hdrop]
        exact List.cons_ne_nil b rest
      have hnot := List.head_dropWhile_not (fun b => decide (b ≠ 0)) hne
      simp only [hdrop, List.head_cons] at hnot
      simpa using hnot
    subst hzero
    refine ⟨rest ++ [0], ?_⟩
    conv_lhs => rw [← List.takeWhile_append_dropWhile (p := fun b => b ≠ 0) (l := sql), hdrop]
    rw [List.append_assoc, List.cons_append]

/-- The lexer holds a copy of the text and stands before it. -/
theorem newLexer_eq (sql : List Byte) (hfuel : (cstr sql).length < fuel) :
    newLexer fuel (sql ++ [0]) = .ok ⟨cstr sql ++ [0], 0, (cstr sql).length⟩ := by
  obtain ⟨rest, hinput⟩ := exists_terminator sql
  have hlen := countText_eq (cstr_nulFree sql) rest hfuel
  rw [← hinput] at hlen
  have hroom : ([] : List Byte).length + ((cstr sql).length + 1) ≤ (cstr sql).length + 1 := by simp
  have hinside : 0 + ((cstr sql).length + 1) ≤ (sql ++ [0]).length := by
    rw [hinput]
    simp
  have htake : (sql ++ [0]).take ((cstr sql).length + 1) = cstr sql ++ [0] := by
    rw [hinput, List.take_length_add_append]
    rfl
  rw [newLexer, hlen, ok_bind, forLoop_copy [] hroom hinside, List.drop_zero, htake]
  rfl

end Reading

end NanoDB.CheckedLexer
