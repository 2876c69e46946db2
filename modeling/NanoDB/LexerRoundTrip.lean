import Mathlib.Data.List.Forall2
import NanoDB.DecimalText
import NanoDB.LexerScan

/-!
Writing tokens and reading them back. A `Lexeme` is a text the lexer can be expected
to take as one token, with the token it stands for; the texts of a list of them are
written one after the other, each after a gap of blanks. Every scan of the lexer stops
at a blank, so `tokenize` finds the list again.
-/
namespace NanoDB.LexerRoundTrip

open CTypes Lexer

inductive Lexeme
  | keyword (word : List Byte) (type : TokenType) (hword : (word.map toUpper, type) ∈ keywords)
  | identifier (name : List Byte) (hne : name ≠ []) (hlen : name.length ≤ 255)
      (hbytes : ∀ b ∈ name, isIdentByte b = true) (hfirst : ∀ b ∈ name.head?, isDigit b = false)
      (hword : ∀ type, (name.map toUpper, type) ∉ keywords)
  | integer (zeros n : ℕ) (hn : n < 2147483648)
      (hlen : zeros + (decimalDigits n).length ≤ 63)
  | decimal (number : List Byte) (hfirst : ∀ b ∈ number.head?, isDigit b = true)
      (hbytes : ∀ b ∈ number, isNumberByte b = true) (hdot : 46 ∈ number)
      (hlen : number.length ≤ 63)
  | string (opening closing : Byte) (content : List Byte) (hopen : isQuote opening = true)
      (hclose : isQuote closing = true) (hlen : content.length ≤ 255)
      (hbytes : ∀ b ∈ content, isQuote b = false ∧ b ≠ 0)
  | symbol (mark : List Byte) (type : TokenType) (hmark : (mark, type) ∈ symbols)

namespace Lexeme

def type : Lexeme → TokenType
  | keyword _ type _ => type
  | identifier .. => .IDENTIFIER
  | integer .. => .INTEGER
  | decimal .. => .FLOAT_LIT
  | string .. => .STRING_LIT
  | symbol _ type _ => type

def lexeme : Lexeme → List Byte
  | keyword word .. => word
  | identifier name .. => name
  | integer zeros n .. => List.replicate zeros 48 ++ decimalDigits n
  | decimal number .. => number
  | string _ _ content .. => content
  | symbol mark .. => mark

def text : Lexeme → List Byte
  | string opening closing content .. => opening :: (content ++ [closing])
  | x => x.lexeme

def value : Lexeme → Option ℕ
  | integer _ n .. => some n
  | _ => none

variable {D : Type} [CDouble D]

structure Matches (x : Lexeme) (t : Token D) : Prop where
  type_eq : t.type = x.type
  lexeme_eq : t.lexeme.val = x.lexeme
  intVal_eq : ∀ n ∈ x.value, t.intVal.toInt = (n : ℤ)

end Lexeme

def Lexeme.ofNat (n : ℕ) (hn : n < 2147483648) : Lexeme :=
  .integer 0 n hn (by
    have h := decimalDigits_length n hn
    omega)

variable {D : Type} [CDouble D]

/-- The lexeme is taken as one token wherever it stands before a blank. -/
def LexesTo (D : Type) [CDouble D] (x : Lexeme) : Prop :=
  ∀ rest, Stops rest → x.Matches (nextToken (x.text ++ rest) : Token D × List Byte).1 ∧
    (nextToken (x.text ++ rest) : Token D × List Byte).2 = rest

theorem lexes_of_next {x : Lexeme} {t : Token D} {rest : List Byte}
    (hnext : (nextToken (x.text ++ rest) : Token D × List Byte) = (t, rest))
    (htype : t.type = x.type) (hlexeme : t.lexeme.val = x.lexeme)
    (hvalue : ∀ n ∈ x.value, t.intVal.toInt = (n : ℤ)) :
    x.Matches (nextToken (x.text ++ rest) : Token D × List Byte).1 ∧
      (nextToken (x.text ++ rest) : Token D × List Byte).2 = rest := by
  rw [hnext]
  exact ⟨⟨htype, hlexeme, hvalue⟩, rfl⟩

theorem keyword_lexes (word : List Byte) (type : TokenType)
    (hword : (word.map toUpper, type) ∈ keywords) : LexesTo D (.keyword word type hword) := by
  intro rest hrest
  have hletters := keyword_letters word type hword
  have hident : ∀ b ∈ word, isIdentByte b = true := fun b hb => by
    simp [isIdentByte, isAlnum, hletters b hb]
  obtain ⟨hne, hlen⟩ := keyword_length word type hword
  have hnext := nextToken_word (D := D) word rest hne hident
    (fun b hb => isDigit_of_isAlpha b (hletters b (List.mem_of_mem_head? hb))) hlen hrest
  rw [lookup_keywords _ type hword] at hnext
  refine lexes_of_next hnext rfl ?_ fun n hn => absurd hn (Option.not_mem_none n)
  exact ofLexeme_val _ word (fun b hb => isIdentByte_ne_zero b (hident b hb)) hlen

theorem identifier_lexes (name : List Byte) (hne : name ≠ []) (hlen : name.length ≤ 255)
    (hbytes : ∀ b ∈ name, isIdentByte b = true) (hfirst : ∀ b ∈ name.head?, isDigit b = false)
    (hword : ∀ type, (name.map toUpper, type) ∉ keywords) :
    LexesTo D (.identifier name hne hlen hbytes hfirst hword) := by
  intro rest hrest
  have hnext := nextToken_word (D := D) name rest hne hbytes hfirst hlen hrest
  have hlookup : keywords.lookup (name.map toUpper) = none := by
    cases h : keywords.lookup (name.map toUpper) with
    | none => rfl
    | some type =>
      obtain ⟨before, after, hsplit, -⟩ := List.lookup_eq_some_iff.mp h
      exact absurd (by rw [hsplit]; simp) (hword type)
  rw [hlookup] at hnext
  refine lexes_of_next hnext rfl ?_ fun n hn => absurd hn (Option.not_mem_none n)
  exact ofLexeme_val _ name (fun b hb => isIdentByte_ne_zero b (hbytes b hb)) hlen

theorem number_val (number : List Byte) (hbytes : ∀ b ∈ number, isNumberByte b = true)
    (hlen : number.length ≤ 63) : (snprintf 256 (by decide) number).val = number :=
  snprintf_val 256 (by decide) number (fun b hb => isNumberByte_ne_zero b (hbytes b hb))
    (by omega)

theorem integer_lexes (zeros n : ℕ) (hn : n < 2147483648)
    (hlen : zeros + (decimalDigits n).length ≤ 63) :
    LexesTo D (.integer zeros n hn hlen) := by
  intro rest hrest
  let number := List.replicate zeros 48 ++ decimalDigits n
  have hdigits : ∀ b ∈ number, isDigit b = true := written_digits zeros n
  have hbytes : ∀ b ∈ number, isNumberByte b = true := fun b hb => by
    simp [isNumberByte, hdigits b hb]
  have hnumlen : number.length ≤ 63 := by
    simpa [number] using hlen
  have hne : number ≠ [] := by
    simp [number, decimalDigits_ne_nil]
  have hdot : 46 ∉ number := fun h => absurd (hdigits 46 h) (by decide)
  have hnext := nextToken_number (D := D) number rest hne
    (fun b hb => hdigits b (List.mem_of_mem_head? hb)) hbytes
  rw [readNumber_exact number rest hbytes hnumlen hrest, if_neg hdot] at hnext
  refine lexes_of_next hnext rfl (number_val number hbytes hnumlen) fun m hm => ?_
  obtain rfl := Option.some.inj hm
  exact atoi_written zeros n hn

theorem decimal_lexes (number : List Byte) (hfirst : ∀ b ∈ number.head?, isDigit b = true)
    (hbytes : ∀ b ∈ number, isNumberByte b = true) (hdot : 46 ∈ number)
    (hlen : number.length ≤ 63) :
    LexesTo D (.decimal number hfirst hbytes hdot hlen) := by
  intro rest hrest
  have hnext := nextToken_number (D := D) number rest (List.ne_nil_of_mem hdot) hfirst hbytes
  rw [readNumber_exact number rest hbytes hlen hrest, if_pos hdot] at hnext
  exact lexes_of_next hnext rfl (number_val number hbytes hlen)
    fun n hn => absurd hn (Option.not_mem_none n)

theorem string_lexes (opening closing : Byte) (content : List Byte)
    (hopen : isQuote opening = true) (hclose : isQuote closing = true)
    (hlen : content.length ≤ 255) (hbytes : ∀ b ∈ content, isQuote b = false ∧ b ≠ 0) :
    LexesTo D (.string opening closing content hopen hclose hlen hbytes) := by
  intro rest _
  have hblank : isBlank opening = false := by
    rcases isQuote_cases opening hopen with rfl | rfl <;> rfl
  have hnext := nextToken_cons (D := D) opening (content ++ [closing] ++ rest) hblank
  rw [if_pos hopen, readString_exact closing content rest hclose (fun b hb => (hbytes b hb).1)
    hlen] at hnext
  refine lexes_of_next hnext rfl ?_ fun n hn => absurd hn (Option.not_mem_none n)
  exact ofLexeme_val _ content (fun b hb => (hbytes b hb).2) hlen

theorem symbol_lexes (mark : List Byte) (type : TokenType) (hmark : (mark, type) ∈ symbols) :
    LexesTo D (.symbol mark type hmark) := by
  intro rest hrest
  have hall : ∀ e ∈ symbols, e.1 ≠ [] ∧ e.1.length ≤ 255 ∧ (∀ b ∈ e.1, b ≠ 0) ∧
      ∀ c ∈ e.1.head?, isBlank c = false ∧ isQuote c = false ∧ isDigit c = false ∧
        (isAlpha c || decide (c = 95)) = false := by decide +kernel
  obtain ⟨hne, hlen, hnul, hhead⟩ := hall _ hmark
  obtain ⟨c, tail, rfl⟩ := List.exists_cons_of_ne_nil hne
  obtain ⟨hblank, hquote, hdigit, halpha⟩ := hhead c rfl
  have hequals : rest.head? ≠ some 61 := fun h => absurd (hrest 61 h) (by decide)
  have hnext := nextToken_cons (D := D) c (tail ++ rest) hblank
  simp only [hquote, hdigit, halpha, Bool.false_eq_true, if_false] at hnext
  rw [readSymbol_exact c tail type hmark rest hequals] at hnext
  refine lexes_of_next hnext rfl ?_ fun n hn => absurd hn (Option.not_mem_none n)
  exact ofLexeme_val _ (c :: tail) hnul hlen

theorem lexeme_lexes (x : Lexeme) : LexesTo D x := by
  cases x with
  | keyword word type hword => exact keyword_lexes word type hword
  | identifier name hne hlen hbytes hfirst hword =>
    exact identifier_lexes name hne hlen hbytes hfirst hword
  | integer zeros n hn hlen => exact integer_lexes zeros n hn hlen
  | decimal number hfirst hbytes hdot hlen =>
    exact decimal_lexes number hfirst hbytes hdot hlen
  | string opening closing content hopen hclose hlen hbytes =>
    exact string_lexes opening closing content hopen hclose hlen hbytes
  | symbol mark type hmark => exact symbol_lexes mark type hmark

/-- No text is taken for the end of the input. -/
theorem lexeme_type (x : Lexeme) : x.type ≠ .END_OF_INPUT := by
  have hkey : ∀ e ∈ keywords, e.2 ≠ .END_OF_INPUT := by decide
  have hsym : ∀ e ∈ symbols, e.2 ≠ .END_OF_INPUT := by decide
  cases x with
  | keyword word type hword => exact hkey _ hword
  | symbol mark type hmark => exact hsym _ hmark
  | _ => exact TokenType.noConfusion

def written (items : List (List Byte × Lexeme)) (trailing : List Byte) : List Byte :=
  items.flatMap (fun item => item.1 ++ item.2.text) ++ trailing

/-- The gaps are blanks, and only the first of them may be empty. -/
structure Spaced (items : List (List Byte × Lexeme)) (trailing : List Byte) : Prop where
  gap_blank : ∀ item ∈ items, ∀ b ∈ item.1, isBlank b = true
  gap_nonempty : ∀ item ∈ items.tail, item.1 ≠ []
  trailing_blank : ∀ b ∈ trailing, isBlank b = true

theorem written_cons (gap : List Byte) (x : Lexeme) (items : List (List Byte × Lexeme))
    (trailing : List Byte) :
    written ((gap, x) :: items) trailing = gap ++ (x.text ++ written items trailing) := by
  simp [written, List.append_assoc]

theorem Spaced.tail {gap : List Byte} {x : Lexeme} {items : List (List Byte × Lexeme)}
    {trailing : List Byte} (h : Spaced ((gap, x) :: items) trailing) : Spaced items trailing where
  gap_blank item hitem := h.gap_blank item (List.mem_cons_of_mem _ hitem)
  gap_nonempty item hitem := h.gap_nonempty item (List.mem_of_mem_tail hitem)
  trailing_blank := h.trailing_blank

/-- What follows a lexeme is its end: the next gap, the blanks at the end, or nothing. -/
theorem stops_written {gap : List Byte} {x : Lexeme} {items : List (List Byte × Lexeme)}
    {trailing : List Byte} (h : Spaced ((gap, x) :: items) trailing) :
    Stops (written items trailing) := by
  intro b hb
  cases items with
  | nil => exact h.trailing_blank b (List.mem_of_mem_head? hb)
  | cons item items =>
    obtain ⟨next, y⟩ := item
    have hnext : next ≠ [] := h.gap_nonempty (next, y) (List.mem_cons_self ..)
    rw [written_cons, List.head?_append_of_ne_nil _ hnext] at hb
    exact h.gap_blank (next, y) (by simp) b (List.mem_of_mem_head? hb)

/-- Tokenizing what was written gives the lexemes back, then the end of the input. -/
theorem tokenize_written (items : List (List Byte × Lexeme)) (trailing : List Byte)
    (hspaced : Spaced items trailing) (maxOut : ℕ) (hmax : items.length < maxOut) :
    ∃ found : List (Token D),
      tokenize maxOut (written items trailing) =
        found ++ [Token.ofLexeme .END_OF_INPUT []] ∧
      List.Forall₂ Lexeme.Matches (items.map Prod.snd) found := by
  induction items generalizing maxOut with
  | nil =>
    obtain ⟨maxOut, rfl⟩ := Nat.exists_eq_add_of_lt hmax
    have hnext := nextToken_blank (D := D) trailing hspaced.trailing_blank
    refine ⟨[], ?_, List.Forall₂.nil⟩
    change tokenize (0 + maxOut + 1) trailing = _
    simp [tokenize, hnext, Token.ofLexeme]
  | cons item items ih =>
    obtain ⟨gap, x⟩ := item
    obtain ⟨maxOut, rfl⟩ : ∃ m, maxOut = m + 1 := ⟨maxOut - 1, by omega⟩
    obtain ⟨found, htokens, hmatches⟩ := ih hspaced.tail maxOut (by simpa using hmax)
    have hgap := nextToken_gap (D := D) gap (x.text ++ written items trailing)
      (hspaced.gap_blank (gap, x) (List.mem_cons_self ..))
    obtain ⟨hx, hrest⟩ := lexeme_lexes (D := D) x _ (stops_written hspaced)
    rw [← hgap, ← written_cons] at hx hrest
    have hend : (nextToken (written ((gap, x) :: items) trailing) : Token D × List Byte).1.type ≠
        .END_OF_INPUT := by
      rw [hx.type_eq]
      exact lexeme_type x
    refine ⟨(nextToken (written ((gap, x) :: items) trailing)).1 :: found, ?_,
      List.Forall₂.cons hx hmatches⟩
    simp only [tokenize, if_neg hend, hrest, htokens, List.cons_append]

def setStatement : List (List Byte × Lexeme) :=
  [([], .keyword (ascii "Set") .SET (by decide)), ([9], .symbol (ascii "<=") .LTE (by decide)),
   ([32, 10], .ofNat 42 (by decide)),
   ([13], .string 34 39 (ascii "a b") rfl rfl (by decide) (by decide +kernel))]

theorem tokenize_written_set : ∃ found : List (Token ℤ),
    tokenize 5 (written setStatement [32]) = found ++ [Token.ofLexeme .END_OF_INPUT []] ∧
      List.Forall₂ Lexeme.Matches (setStatement.map Prod.snd) found :=
  tokenize_written setStatement [32]
    ⟨by decide +kernel, by decide +kernel, by decide +kernel⟩ 5 (by decide +kernel)

end NanoDB.LexerRoundTrip
