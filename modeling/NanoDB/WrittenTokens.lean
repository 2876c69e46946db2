import NanoDB.LexerRoundTrip
import NanoDB.ValueList

/-!
The tokens of a text that is laid out freely. A token ends where the next character cannot
go on with it, so blanks are only needed between two words, two numbers or before an equals
sign: `(c_custkey==5)` reads as five tokens.
-/
namespace NanoDB.WrittenTokens

open CTypes Lexer LexerRoundTrip
open ValueList (tokens_gap tokens_cons)

variable {D : Type} [CDouble D]

def token : Lexeme → Token D
  | .keyword word type _ => Token.ofLexeme type word
  | .identifier name .. => Token.ofLexeme .IDENTIFIER name
  | .integer zeros n .. =>
    ⟨.INTEGER, snprintf 256 textSize_pos (List.replicate zeros 48 ++ decimalDigits n),
      Int32.ofNat n, CDouble.ofInt 0⟩
  | .decimal number .. =>
    ⟨.FLOAT_LIT, snprintf 256 textSize_pos number, 0, CDouble.atof number⟩
  | .string _ _ content .. => Token.ofLexeme .STRING_LIT content
  | .symbol mark type _ => Token.ofLexeme type mark

/-- The characters that would belong to the token if they stood behind it. -/
def goesOn : Lexeme → Byte → Bool
  | .keyword .., b | .identifier .., b => isIdentByte b
  | .integer .., b | .decimal .., b => isNumberByte b
  | .string .., _ => false
  | .symbol .., b => b = 61

def Ends (x : Lexeme) (rest : List Byte) : Prop := ∀ b ∈ rest.head?, goesOn x b = false

theorem ends_of_stops (x : Lexeme) {rest : List Byte} (h : Stops rest) :
    Ends x rest := by
  intro b hb
  have hblank := h b hb
  cases x with
  | keyword | identifier => exact isIdentByte_blank b hblank
  | integer | decimal => exact isNumberByte_blank b hblank
  | string => rfl
  | symbol =>
    refine decide_eq_false fun h61 => ?_
    rw [h61] at hblank
    exact absurd hblank (by decide)

section Scans

/-- A word is read by the scan for names. -/
theorem nextToken_ident (word rest : List Byte) (hne : word ≠ [])
    (hbytes : ∀ b ∈ word, isIdentByte b = true) (hfirst : ∀ b ∈ word.head?, isDigit b = false)
    (hlen : word.length ≤ 255) (hrest : ∀ b ∈ rest.head?, isIdentByte b = false) :
    (nextToken (word ++ rest) : Token D × List Byte) =
      (Token.ofLexeme ((keywords.lookup (word.map toUpper)).getD .IDENTIFIER) word, rest) := by
  obtain ⟨htake, hdrop⟩ := scan_exact isIdentByte word rest hbytes hrest
  obtain ⟨c, tail, rfl⟩ := List.exists_cons_of_ne_nil hne
  have hident : isIdentByte c = true := hbytes c List.mem_cons_self
  have hdigit : isDigit c = false := hfirst c rfl
  have halpha : (isAlpha c || decide (c = 95)) = true := by
    simpa [isIdentByte, isAlnum, hdigit] using hident
  have hquote : isQuote c = false := by
    by_contra hquote
    rcases isQuote_cases c (by simpa using hquote) with rfl | rfl <;>
      exact absurd hident (by decide)
  have hblank : isBlank c = false := by
    by_contra hblank
    simp [isIdentByte_blank c (by simpa using hblank)] at hident
  have hscan : (nextToken (c :: tail ++ rest) : Token D × List Byte) =
      readIdentOrKeyword (c :: tail ++ rest) := by
    rw [List.cons_append, nextToken_cons c _ hblank]
    simp [hquote, hdigit, halpha]
  rw [hscan, readIdentOrKeyword, htake, hdrop, List.take_of_length_le hlen]

theorem nextToken_digits (number rest : List Byte) (hne : number ≠ [])
    (hfirst : ∀ b ∈ number.head?, isDigit b = true)
    (hbytes : ∀ b ∈ number, isNumberByte b = true) (hlen : number.length ≤ 63)
    (hrest : ∀ b ∈ rest.head?, isNumberByte b = false) :
    (nextToken (number ++ rest) : Token D × List Byte) =
      if 46 ∈ number then
        (⟨.FLOAT_LIT, snprintf 256 textSize_pos number, 0, CDouble.atof number⟩, rest)
      else (⟨.INTEGER, snprintf 256 textSize_pos number, atoi number, CDouble.ofInt 0⟩, rest) := by
  obtain ⟨htake, hdrop⟩ := scan_exact isNumberByte number rest hbytes hrest
  rw [nextToken_number number rest hne hfirst hbytes]
  simp only [readNumber, htake, hdrop, List.take_of_length_le hlen]

theorem nextToken_symbol {mark : List Byte} {type : TokenType} (hmark : (mark, type) ∈ symbols)
    (rest : List Byte) (hrest : rest.head? ≠ some 61) :
    (nextToken (mark ++ rest) : Token D × List Byte) = (Token.ofLexeme type mark, rest) := by
  have hall : ∀ e ∈ symbols, e.1 ≠ [] ∧
      ∀ c ∈ e.1.head?, isBlank c = false ∧ isQuote c = false ∧ isDigit c = false ∧
        (isAlpha c || decide (c = 95)) = false := by decide +kernel
  obtain ⟨hne, hhead⟩ := hall _ hmark
  obtain ⟨c, tail, rfl⟩ := List.exists_cons_of_ne_nil hne
  obtain ⟨hblank, hquote, hdigit, halpha⟩ := hhead c rfl
  have hnext := nextToken_cons (D := D) c (tail ++ rest) hblank
  simp only [hquote, hdigit, halpha, Bool.false_eq_true, if_false] at hnext
  rw [List.cons_append, hnext, readSymbol_exact c tail type hmark rest hrest]

/-- A lexeme is read as its token wherever no character goes on with it. -/
theorem nextToken_text (x : Lexeme) {rest : List Byte} (h : Ends x rest) :
    (nextToken (x.text ++ rest) : Token D × List Byte) = (token x, rest) := by
  cases x with
  | keyword word type hword =>
    have hletters := keyword_letters word type hword
    obtain ⟨hne, hlen⟩ := keyword_length word type hword
    have hnext := nextToken_ident (D := D) word rest hne
      (fun b hb => by simp [isIdentByte, isAlnum, hletters b hb])
      (fun b hb => isDigit_of_isAlpha b (hletters b (List.mem_of_mem_head? hb))) hlen h
    rw [lookup_keywords _ type hword] at hnext
    exact hnext
  | identifier name hne hlen hbytes hfirst hword =>
    have hnext := nextToken_ident (D := D) name rest hne hbytes hfirst hlen h
    have hlookup : keywords.lookup (name.map toUpper) = none := by
      cases hl : keywords.lookup (name.map toUpper) with
      | none => rfl
      | some type =>
        obtain ⟨before, after, hsplit, -⟩ := List.lookup_eq_some_iff.mp hl
        exact absurd (by rw [hsplit]; simp) (hword type)
    rw [hlookup] at hnext
    exact hnext
  | integer zeros n hn hlen =>
    have hdigits : ∀ b ∈ List.replicate zeros 48 ++ decimalDigits n, isDigit b = true :=
      written_digits zeros n
    have hdot : 46 ∉ List.replicate zeros 48 ++ decimalDigits n :=
      fun hmem => absurd (hdigits 46 hmem) (by decide)
    have hnext := nextToken_digits (D := D) (List.replicate zeros 48 ++ decimalDigits n) rest
      (by simp [decimalDigits_ne_nil]) (fun b hb => hdigits b (List.mem_of_mem_head? hb))
      (fun b hb => by simp [isNumberByte, hdigits b hb]) (by simpa using hlen) h
    have hvalue : atoi (List.replicate zeros 48 ++ decimalDigits n) = Int32.ofNat n := by
      apply Int32.toInt_inj.mp
      rw [atoi_written zeros n hn, Int32.toInt_ofNat_of_lt hn]
    rw [if_neg hdot, hvalue] at hnext
    exact hnext
  | decimal number hfirst hbytes hdot hlen =>
    have hnext := nextToken_digits (D := D) number rest (List.ne_nil_of_mem hdot) hfirst hbytes
      hlen h
    rw [if_pos hdot] at hnext
    exact hnext
  | string opening closing content hopen hclose hlen hbytes =>
    have hblank : isBlank opening = false := by
      rcases isQuote_cases opening hopen with rfl | rfl <;> rfl
    have hnext := nextToken_cons (D := D) opening (content ++ [closing] ++ rest) hblank
    rw [if_pos hopen, readString_exact closing content rest hclose (fun b hb => (hbytes b hb).1)
      hlen] at hnext
    exact hnext
  | symbol mark type hmark =>
    refine nextToken_symbol hmark rest fun h61 => ?_
    exact absurd (h 61 h61) (by simp [goesOn])

theorem token_type (x : Lexeme) : (token x : Token D).type = x.type := by
  cases x <;> rfl

/-- The token has the characters of the lexeme. -/
theorem token_lexeme (x : Lexeme) : (token x : Token D).lexeme.val = x.lexeme := by
  have hstops : Stops [] := fun b hb => absurd hb (Option.not_mem_none b)
  have hmatches := (lexeme_lexes (D := D) x [] hstops).1
  rw [nextToken_text x (ends_of_stops x hstops)] at hmatches
  exact hmatches.lexeme_eq

end Scans

section Layout

def Laid : List (List Byte × Lexeme) → List Byte → Prop
  | [], _ => True
  | (gap, x) :: items, rest => (∀ b ∈ gap, isBlank b = true) ∧
    Ends x (written items rest) ∧ Laid items rest

instance decidableLaid : (items : List (List Byte × Lexeme)) → (rest : List Byte) →
    Decidable (Laid items rest)
  | [], _ => inferInstanceAs (Decidable True)
  | (_, x) :: items, rest =>
    have : Decidable (Ends x (written items rest)) :=
      inferInstanceAs (Decidable (∀ b ∈ (written items rest).head?, goesOn x b = false))
    have : Decidable (Laid items rest) := decidableLaid items rest
    inferInstanceAs (Decidable (_ ∧ _ ∧ _))

/-- With a blank at every gap the tokens end. -/
theorem laid_of_spaced {items : List (List Byte × Lexeme)} {trailing : List Byte}
    (h : Spaced items trailing) : Laid items trailing := by
  induction items with
  | nil => exact trivial
  | cons item items ih =>
    obtain ⟨gap, x⟩ := item
    exact ⟨h.gap_blank (gap, x) List.mem_cons_self, ends_of_stops x (stops_written h), ih h.tail⟩

/-- The tokens that are laid out come first. -/
theorem tokens_written {items : List (List Byte × Lexeme)} {rest : List Byte}
    (h : Laid items rest) : (tokens (written items rest) : List (Token D)) =
      items.map (fun item => token item.2) ++ tokens rest := by
  induction items with
  | nil => rfl
  | cons item items ih =>
    obtain ⟨gap, x⟩ := item
    obtain ⟨hgap, hends, hrest⟩ := h
    have hend : (token x : Token D).type ≠ .END_OF_INPUT := by
      rw [token_type]
      exact lexeme_type x
    rw [written_cons, tokens_gap gap _ hgap, tokens_cons (nextToken_text x hends) hend, ih hrest,
      List.map_cons, List.cons_append]

theorem tokens_blank {trailing : List Byte} (h : ∀ b ∈ trailing, isBlank b = true) :
    (tokens trailing : List (Token D)) = [] := by
  rw [tokens_eq, nextToken_blank trailing h]
  exact if_pos rfl

theorem text_nulFree (x : Lexeme) : ∀ b ∈ x.text, b ≠ 0 := by
  intro b hb
  cases x with
  | keyword word type hword =>
    refine isIdentByte_ne_zero b ?_
    simp [isIdentByte, isAlnum, keyword_letters word type hword b hb]
  | identifier name hne hlen hbytes hfirst hword => exact isIdentByte_ne_zero b (hbytes b hb)
  | integer zeros n hn hlen =>
    refine isNumberByte_ne_zero b ?_
    simp [isNumberByte, written_digits zeros n b hb]
  | decimal number hfirst hbytes hdot hlen => exact isNumberByte_ne_zero b (hbytes b hb)
  | string opening closing content hopen hclose hlen hbytes =>
    have hquote : ∀ c, isQuote c = true → c ≠ 0 := by
      intro c hc
      rcases isQuote_cases c hc with rfl | rfl <;> decide
    rcases List.mem_cons.mp hb with rfl | hb
    · exact hquote _ hopen
    · rcases List.mem_append.mp hb with hb | hb
      · exact (hbytes b hb).2
      · rw [List.mem_singleton.mp hb]
        exact hquote _ hclose
  | symbol mark type hmark =>
    have hall : ∀ e ∈ symbols, ∀ b ∈ e.1, b ≠ 0 := by decide +kernel
    exact hall _ hmark b hb

theorem blank_ne_zero (b : Byte) (hb : isBlank b = true) : b ≠ 0 := by
  rcases blank_cases b hb with rfl | rfl | rfl | rfl <;> decide

/-- What is laid out has no NUL in it, so the lexer reads on behind it. -/
theorem written_nulFree {items : List (List Byte × Lexeme)} {rest : List Byte}
    (h : Laid items rest) (hrest : ∀ b ∈ rest, b ≠ 0) : ∀ b ∈ written items rest, b ≠ 0 := by
  induction items with
  | nil => exact hrest
  | cons item items ih =>
    obtain ⟨gap, x⟩ := item
    obtain ⟨hgap, -, hitems⟩ := h
    intro b hb
    rw [written_cons] at hb
    rcases List.mem_append.mp hb with hb | hb
    · exact blank_ne_zero b (hgap b hb)
    · rcases List.mem_append.mp hb with hb | hb
      · exact text_nulFree x b hb
      · exact ih hitems b hb

end Layout

end NanoDB.WrittenTokens
