import Mathlib.Tactic.FinCases
import NanoDB.Lexer

/-!
The scans of the lexer on a text that ends at a blank. Each takes exactly the characters
of its token, and the first character decides which scan is made.
-/
namespace NanoDB.LexerRoundTrip

open CTypes Lexer

def symbols : List (List Byte × TokenType) :=
  [(ascii "(", .LPAREN), (ascii ")", .RPAREN), (ascii ",", .COMMA), (ascii ";", .SEMICOLON),
   (ascii ".", .DOT), (ascii "+", .PLUS), (ascii "-", .MINUS), (ascii "*", .MUL),
   (ascii "/", .DIV), (ascii "%", .MOD), (ascii "=", .ASSIGN), (ascii "==", .EQ),
   (ascii "!=", .NEQ), (ascii "<", .LT), (ascii "<=", .LTE), (ascii ">", .GT),
   (ascii ">=", .GTE)]

def Stops (rest : List Byte) : Prop := ∀ b ∈ rest.head?, isBlank b = true

theorem blank_cases (b : Byte) (hb : isBlank b = true) : b = 32 ∨ b = 9 ∨ b = 10 ∨ b = 13 := by
  simpa [isBlank, or_assoc] using hb

theorem scan_exact (p : Byte → Bool) (text rest : List Byte) (hall : ∀ b ∈ text, p b = true)
    (hstop : ∀ b ∈ rest.head?, p b = false) :
    (text ++ rest).takeWhile p = text ∧ (text ++ rest).dropWhile p = rest := by
  have htake : rest.takeWhile p = [] := by
    cases rest with
    | nil => rfl
    | cons b rest => exact List.takeWhile_cons_of_neg (by simp [hstop b rfl])
  have hdrop : rest.dropWhile p = rest := by
    cases rest with
    | nil => rfl
    | cons b rest => exact List.dropWhile_cons_of_neg (by simp [hstop b rfl])
  rw [List.takeWhile_append_of_pos hall, List.dropWhile_append_of_pos hall, htake, hdrop]
  exact ⟨List.append_nil text, rfl⟩

/-- A scan whose characters are not blanks ends where the token does. -/
theorem scan_stops (p : Byte → Bool) (text rest : List Byte) (hall : ∀ b ∈ text, p b = true)
    (hblank : ∀ b, isBlank b = true → p b = false) (hrest : Stops rest) :
    (text ++ rest).takeWhile p = text ∧ (text ++ rest).dropWhile p = rest :=
  scan_exact p text rest hall fun b hb => hblank b (hrest b hb)

theorem isIdentByte_blank (b : Byte) (hb : isBlank b = true) : isIdentByte b = false := by
  rcases blank_cases b hb with rfl | rfl | rfl | rfl <;> rfl

theorem isNumberByte_blank (b : Byte) (hb : isBlank b = true) : isNumberByte b = false := by
  rcases blank_cases b hb with rfl | rfl | rfl | rfl <;> rfl

theorem lookup_keywords (word : List Byte) (type : TokenType) (h : (word, type) ∈ keywords) :
    keywords.lookup word = some type := by
  have hall : ∀ e ∈ keywords, keywords.lookup e.1 = some e.2 := by decide +kernel
  exact hall _ h

variable {D : Type} [CDouble D]

theorem ofLexeme_val (type : TokenType) (text : List Byte) (hnul : ∀ b ∈ text, b ≠ 0)
    (hlen : text.length ≤ 255) : (Token.ofLexeme type text : Token D).lexeme.val = text :=
  snprintf_val 256 (by decide) text hnul (by omega)

theorem readIdentOrKeyword_exact (word rest : List Byte)
    (hbytes : ∀ b ∈ word, isIdentByte b = true) (hlen : word.length ≤ 255) (hrest : Stops rest) :
    (readIdentOrKeyword (word ++ rest) : Token D × List Byte) =
      (Token.ofLexeme ((keywords.lookup (word.map toUpper)).getD .IDENTIFIER) word, rest) := by
  obtain ⟨htake, hdrop⟩ := scan_stops isIdentByte word rest hbytes isIdentByte_blank hrest
  unfold readIdentOrKeyword
  rw [htake, hdrop, List.take_of_length_le hlen]

theorem readNumber_exact (number rest : List Byte)
    (hbytes : ∀ b ∈ number, isNumberByte b = true) (hlen : number.length ≤ 63)
    (hrest : Stops rest) :
    (readNumber (number ++ rest) : Token D × List Byte) =
      if 46 ∈ number then
        (⟨.FLOAT_LIT, snprintf 256 (by decide) number, 0, CDouble.atof number⟩, rest)
      else (⟨.INTEGER, snprintf 256 (by decide) number, atoi number, CDouble.ofInt 0⟩, rest) := by
  obtain ⟨htake, hdrop⟩ := scan_stops isNumberByte number rest hbytes isNumberByte_blank hrest
  simp only [readNumber, htake, hdrop, List.take_of_length_le hlen]

/-- A string ends at its closing quote, whatever blanks it contains. -/
theorem readString_exact (closing : Byte) (content rest : List Byte)
    (hclose : isQuote closing = true) (hbytes : ∀ b ∈ content, isQuote b = false)
    (hlen : content.length ≤ 255) :
    (readString (content ++ [closing] ++ rest) : Token D × List Byte) =
      (Token.ofLexeme .STRING_LIT content, rest) := by
  obtain ⟨htake, hdrop⟩ := scan_exact (fun b => !isQuote b) content (closing :: rest)
    (fun b hb => by simp [hbytes b hb])
    (fun b hb => by
      obtain rfl := Option.some.inj hb
      simp [hclose])
  rw [List.append_assoc, List.singleton_append]
  simp only [readString, htake, hdrop, List.take_of_length_le hlen, List.drop_succ_cons,
    List.drop_zero]

theorem readSymbol_exact (c : Byte) (tail : List Byte) (type : TokenType)
    (hmark : (c :: tail, type) ∈ symbols) (rest : List Byte) (hrest : rest.head? ≠ some 61) :
    (readSymbol c (tail ++ rest) : Token D × List Byte) =
      (Token.ofLexeme type (c :: tail), rest) := by
  have hequals : ¬ decide (rest.head? = some 61) = true := by simpa using hrest
  have hall : ∀ e ∈ symbols, ∀ c tail, e.1 = c :: tail →
      (readSymbol c (tail ++ rest) : Token D × List Byte) =
        (Token.ofLexeme e.2 (c :: tail), rest) := by
    intro e he c tail hc
    -- The three marks that may go on with `=` need what follows; the others do not look.
    fin_cases he <;> obtain ⟨rfl, rfl⟩ := List.cons.inj hc <;>
      first
        | rfl
        | exact if_neg hequals
  exact hall _ hmark c tail rfl

theorem nextToken_gap (gap s : List Byte) (hgap : ∀ b ∈ gap, isBlank b = true) :
    (nextToken (gap ++ s) : Token D × List Byte) = nextToken s := by
  unfold nextToken
  rw [List.dropWhile_append_of_pos hgap]

theorem nextToken_blank (gap : List Byte) (hgap : ∀ b ∈ gap, isBlank b = true) :
    (nextToken gap : Token D × List Byte) = (Token.ofLexeme .END_OF_INPUT [], []) := by
  have h := nextToken_gap (D := D) gap [] hgap
  rwa [List.append_nil] at h

/-- The first character decides which scan reads the token. -/
theorem nextToken_cons (c : Byte) (rest : List Byte) (hblank : isBlank c = false) :
    (nextToken (c :: rest) : Token D × List Byte) =
      if isQuote c then readString rest
      else if isDigit c then readNumber (c :: rest)
      else if isAlpha c || c = 95 then readIdentOrKeyword (c :: rest)
      else readSymbol c rest := by
  unfold nextToken
  rw [List.dropWhile_cons_of_neg (by simp [hblank])]

theorem isQuote_cases (b : Byte) (hb : isQuote b = true) : b = 34 ∨ b = 39 := by
  simpa [isQuote] using hb

theorem nextToken_word (word rest : List Byte) (hne : word ≠ [])
    (hbytes : ∀ b ∈ word, isIdentByte b = true) (hfirst : ∀ b ∈ word.head?, isDigit b = false)
    (hlen : word.length ≤ 255) (hrest : Stops rest) :
    (nextToken (word ++ rest) : Token D × List Byte) =
      (Token.ofLexeme ((keywords.lookup (word.map toUpper)).getD .IDENTIFIER) word, rest) := by
  obtain ⟨c, tail, rfl⟩ := List.exists_cons_of_ne_nil hne
  have hident : isIdentByte c = true := hbytes c (List.mem_cons_self ..)
  have hdigit : isDigit c = false := hfirst c rfl
  have halpha : (isAlpha c || decide (c = 95)) = true := by
    simpa [isIdentByte, isAlnum, hdigit] using hident
  have hquote : isQuote c = false := by
    by_contra hquote
    rcases isQuote_cases c (by simpa using hquote) with rfl | rfl <;>
      exact absurd hident (by decide)
  have hblank : isBlank c = false := by
    by_contra hblank
    simp [isIdentByte_blank c (by simpa using hblank)] at hident
  rw [← readIdentOrKeyword_exact (c :: tail) rest hbytes hlen hrest, List.cons_append,
    nextToken_cons c _ hblank]
  simp [hquote, hdigit, halpha]

theorem isIdentByte_ne_zero (b : Byte) (hb : isIdentByte b = true) : b ≠ 0 := by
  intro h
  rw [h] at hb
  exact absurd hb (by decide)

theorem isNumberByte_ne_zero (b : Byte) (hb : isNumberByte b = true) : b ≠ 0 := by
  intro h
  rw [h] at hb
  exact absurd hb (by decide)

/-- Only letters become the capital letters of a keyword. -/
theorem isAlpha_of_toUpper (b : Byte) (hlow : 65 ≤ toUpper b) (hup : toUpper b ≤ 90) :
    isAlpha b = true := by
  unfold toUpper at hlow hup
  split at hlow
  · rename_i hlower
    simp [isAlpha, hlower]
  · rename_i hlower
    rw [if_neg hlower] at hup
    simp [isAlpha, hlow, hup]

theorem keyword_letters (word : List Byte) (type : TokenType)
    (hword : (word.map toUpper, type) ∈ keywords) : ∀ b ∈ word, isAlpha b = true := by
  intro b hb
  have hall : ∀ e ∈ keywords, ∀ b ∈ e.1, (65 : Byte) ≤ b ∧ b ≤ 90 := by decide +kernel
  have hmem : toUpper b ∈ word.map toUpper := List.mem_map_of_mem hb
  obtain ⟨hlow, hup⟩ := hall _ hword (toUpper b) hmem
  exact isAlpha_of_toUpper b hlow hup

theorem keyword_length (word : List Byte) (type : TokenType)
    (hword : (word.map toUpper, type) ∈ keywords) : word ≠ [] ∧ word.length ≤ 255 := by
  have hall : ∀ e ∈ keywords, 0 < e.1.length ∧ e.1.length ≤ 255 := by decide +kernel
  have hlen := hall _ hword
  rw [List.length_map] at hlen
  exact ⟨List.ne_nil_of_length_pos hlen.1, hlen.2⟩

theorem isDigit_of_isAlpha (b : Byte) (hb : isAlpha b = true) : isDigit b = false := by
  simp only [isAlpha, isDigit, Bool.or_eq_true, Bool.and_eq_true, decide_eq_true_eq,
    Bool.and_eq_false_iff, decide_eq_false_iff_not] at hb ⊢
  right
  intro hle
  rcases hb with hb | hb
  · exact absurd (UInt8.le_trans hb.1 hle) (by decide)
  · exact absurd (UInt8.le_trans hb.1 hle) (by decide)

theorem nextToken_number (number rest : List Byte) (hne : number ≠ [])
    (hfirst : ∀ b ∈ number.head?, isDigit b = true)
    (hbytes : ∀ b ∈ number, isNumberByte b = true) :
    (nextToken (number ++ rest) : Token D × List Byte) = readNumber (number ++ rest) := by
  obtain ⟨c, tail, rfl⟩ := List.exists_cons_of_ne_nil hne
  have hdigit : isDigit c = true := hfirst c rfl
  have hquote : isQuote c = false := by
    by_contra hquote
    rcases isQuote_cases c (by simpa using hquote) with rfl | rfl <;>
      exact absurd hdigit (by decide)
  have hblank : isBlank c = false := by
    by_contra hblank
    have hbyte := hbytes c (List.mem_cons_self ..)
    simp [isNumberByte_blank c (by simpa using hblank)] at hbyte
  rw [List.cons_append, nextToken_cons c _ hblank]
  simp [hquote, hdigit]

end NanoDB.LexerRoundTrip
