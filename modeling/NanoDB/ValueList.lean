import NanoDB.InsertValues
import NanoDB.LexerScan

/-!
The value list of an INSERT. The loop stores the text of every token but the commas, so
it keeps the values apart as long as each is one token with the value's own text. A sign
or a leading dot is a token of its own, and a string ends at a quote of either kind.
-/
namespace NanoDB.ValueList

open CTypes Lexer NanoDB.Parser LexerRoundTrip LeftoverValues

/-- A value as it is written: a number with or without sign and decimal point, or a string
between two quotes of one kind. -/
inductive Literal
  | number (sign digits : List Byte) (hsign : sign = [] ∨ sign = [43] ∨ sign = [45])
      (hbytes : ∀ b ∈ digits, isNumberByte b = true) (hdots : digits.count 46 ≤ 1)
      (hdigit : ∃ b ∈ digits, isDigit b = true)
  | quoted (quote : Byte) (content : List Byte) (hquote : isQuote quote = true)
      (hlen : content.length ≤ 255) (hcontent : ∀ b ∈ content, b ≠ quote ∧ b ≠ 0)

namespace Literal

def text : Literal → List Byte
  | number sign digits _ _ _ _ => sign ++ digits
  | quoted quote content _ _ _ => quote :: (content ++ [quote])

def stored : Literal → List Byte
  | number sign digits _ _ _ _ => sign ++ digits
  | quoted _ content _ _ _ => content

/-- An unsigned number that starts with a digit and fits the lexer's buffer, or a string
without quotes of either kind in it. -/
def Plain : Literal → Prop
  | number sign digits _ _ _ _ =>
    sign = [] ∧ (∀ b ∈ digits.head?, isDigit b = true) ∧ digits.length ≤ 63
  | quoted _ content _ _ _ => ∀ b ∈ content, isQuote b = false

end Literal

structure Item where
  before : List Byte
  value : Literal
  after : List Byte
  before_blank : ∀ b ∈ before, isBlank b = true
  after_blank : ∀ b ∈ after, isBlank b = true

def listText : List Item → List Byte
  | [] => [41]
  | x :: rest => x.before ++ (x.value.text ++ (x.after ++
      ((if rest = [] then [] else [44]) ++ listText rest)))

def insertText (name : List Byte) (items : List Item) : List Byte :=
  ascii "INSERT INTO " ++ (name ++ (ascii " VALUES (" ++ listText items))

variable {D : Type} [CDouble D]

/-- The values of a text that stands behind the opening parenthesis. -/
def given (s : List Byte) : List (Token D) :=
  ((tokens s).takeWhile (isNot .RPAREN)).filter (isNot .COMMA)

theorem tokens_gap (gap s : List Byte) (hgap : ∀ b ∈ gap, isBlank b = true) :
    (tokens (gap ++ s) : List (Token D)) = tokens s := by
  rw [tokens_eq, tokens_eq s, nextToken_gap gap s hgap]

theorem tokens_cons {s rest : List Byte} {t : Token D} (h : nextToken s = (t, rest))
    (hend : t.type ≠ .END_OF_INPUT) : tokens s = t :: tokens rest := by
  rw [tokens_eq, h, if_neg hend]

structure Stored (t : Token D) : Prop where
  end_ne : t.type ≠ .END_OF_INPUT
  close_ne : t.type ≠ .RPAREN
  comma_ne : t.type ≠ .COMMA

theorem given_cons {s rest : List Byte} {t : Token D} (h : nextToken s = (t, rest))
    (ht : Stored t) : given s = t :: given rest := by
  unfold given
  rw [tokens_cons h ht.end_ne, List.takeWhile_cons_of_pos (by simp [isNot, ht.close_ne]),
    List.filter_cons_of_pos (by simp [isNot, ht.comma_ne])]

theorem given_gap (gap s : List Byte) (hgap : ∀ b ∈ gap, isBlank b = true) :
    (given (gap ++ s) : List (Token D)) = given s := by
  unfold given
  rw [tokens_gap gap s hgap]

theorem given_comma (s : List Byte) : (given (44 :: s) : List (Token D)) = given s := by
  have hnext : (nextToken (44 :: s) : Token D × List Byte) =
      (Token.ofLexeme .COMMA (ascii ","), s) := rfl
  unfold given
  rw [tokens_cons hnext (by simp [Token.ofLexeme]), List.takeWhile_cons_of_pos,
    List.filter_cons_of_neg]
  · simp [isNot, Token.ofLexeme]
  · simp [isNot, Token.ofLexeme]

theorem stored_ofLexeme {type : TokenType} (text : List Byte) (hend : type ≠ .END_OF_INPUT)
    (hclose : type ≠ .RPAREN) (hcomma : type ≠ .COMMA) :
    Stored (Token.ofLexeme type text : Token D) := ⟨hend, hclose, hcomma⟩

/-- What may stand behind a value: a blank, a comma or the closing parenthesis. -/
def Ends (s : List Byte) : Prop := ∀ b ∈ s.head?, isBlank b = true ∨ b = 44 ∨ b = 41

theorem ends_listText (x : Item) (rest : List Item) :
    Ends (x.after ++ ((if rest = [] then [] else [44]) ++ listText rest)) := by
  intro b hb
  cases hafter : x.after with
  | cons c after =>
    rw [hafter] at hb
    obtain rfl := Option.some.inj hb
    exact Or.inl (x.after_blank c (by rw [hafter]; exact List.mem_cons_self))
  | nil =>
    rw [hafter] at hb
    cases rest with
    | nil =>
      obtain rfl : 41 = b := Option.some.inj hb
      exact Or.inr (Or.inr rfl)
    | cons y rest =>
      obtain rfl : 44 = b := Option.some.inj hb
      exact Or.inr (Or.inl rfl)

theorem given_after (x : Item) (rest : List Item) :
    (given (x.after ++ ((if rest = [] then [] else [44]) ++ listText rest)) : List (Token D)) =
      given (listText rest) := by
  rw [given_gap x.after _ x.after_blank]
  split
  · rfl
  · exact given_comma _

theorem readNumber_ends {digits rest : List Byte} (hbytes : ∀ b ∈ digits, isNumberByte b = true)
    (hrest : Ends rest) : ∃ t : Token D, readNumber (digits ++ rest) = (t, rest) ∧ Stored t ∧
      t.lexeme = snprintf 256 (by decide) (digits.take 63) := by
  have hstop : ∀ b ∈ rest.head?, isNumberByte b = false := by
    intro b hb
    rcases hrest b hb with hblank | rfl | rfl
    · exact isNumberByte_blank b hblank
    · rfl
    · rfl
  obtain ⟨htake, hdrop⟩ := scan_exact isNumberByte digits rest hbytes hstop
  unfold readNumber
  dsimp only
  rw [htake, hdrop]
  split
  · exact ⟨_, rfl, ⟨by simp, by simp, by simp⟩, rfl⟩
  · exact ⟨_, rfl, ⟨by simp, by simp, by simp⟩, rfl⟩

/-- A plain value is one token with the value's text. -/
theorem nextToken_plain {v : Literal} (hplain : v.Plain) {rest : List Byte} (hrest : Ends rest) :
    ∃ t : Token D, nextToken (v.text ++ rest) = (t, rest) ∧ Stored t ∧ t.lexeme.val = v.stored := by
  cases v with
  | number sign digits hsign hbytes hdots hdigit =>
    obtain ⟨rfl, hfirst, hlen⟩ := hplain
    have hne : digits ≠ [] := by
      obtain ⟨b, hb, -⟩ := hdigit
      exact List.ne_nil_of_mem hb
    obtain ⟨t, hread, hstored, hlexeme⟩ := readNumber_ends (D := D) hbytes hrest
    refine ⟨t, ?_, hstored, ?_⟩
    · rw [← hread]
      exact nextToken_number digits rest hne hfirst hbytes
    · rw [hlexeme, List.take_of_length_le hlen]
      exact snprintf_val 256 (by decide) digits
        (fun b hb => isNumberByte_ne_zero b (hbytes b hb)) (by omega)
  | quoted quote content hquote hlen hcontent =>
    have hread := readString_exact (D := D) quote content rest hquote hplain hlen
    have hstored : Stored (Token.ofLexeme .STRING_LIT content : Token D) :=
      stored_ofLexeme content nofun nofun nofun
    refine ⟨_, ?_, hstored, ofLexeme_val .STRING_LIT content (fun b hb => (hcontent b hb).2) hlen⟩
    have hblank : isBlank quote = false := by
      rcases isQuote_cases quote hquote with rfl | rfl <;> rfl
    change nextToken (quote :: (content ++ [quote]) ++ rest) = _
    rw [List.cons_append, nextToken_cons quote _ hblank, if_pos hquote, hread]

/-- A sign or a leading dot is a token of one character. -/
theorem nextToken_mark {c : Byte} (hc : c = 43 ∨ c = 45 ∨ c = 46) (rest : List Byte) :
    ∃ t : Token D, nextToken (c :: rest) = (t, rest) ∧ Stored t ∧ t.lexeme.val = [c] := by
  rcases hc with rfl | rfl | rfl
  · exact ⟨Token.ofLexeme .PLUS (ascii "+"), rfl, stored_ofLexeme _ nofun nofun nofun, rfl⟩
  · exact ⟨Token.ofLexeme .MINUS (ascii "-"), rfl, stored_ofLexeme _ nofun nofun nofun, rfl⟩
  · exact ⟨Token.ofLexeme .DOT (ascii "."), rfl, stored_ofLexeme _ nofun nofun nofun, rfl⟩

/-- A string with a quote in it is read up to there. -/
theorem readString_odd {content : List Byte} (rest : List Byte)
    (hodd : ∃ b ∈ content, isQuote b = true) :
    ∃ (t : Token D) (left : List Byte), readString rest = (t, left) ∧ Stored t ∧
      t.lexeme.val ≠ content := by
  refine ⟨_, _, rfl, stored_ofLexeme _ nofun nofun nofun, ?_⟩
  intro heq
  obtain ⟨b, hb, hquote⟩ := hodd
  rw [← heq] at hb
  have hmem := (List.takeWhile_sublist _).subset (List.mem_of_mem_take hb)
  have hplain := List.mem_takeWhile_imp (List.mem_of_mem_take hmem)
  simp [hquote] at hplain

/-- What starts with a sign or a dot has more than the token of this character. -/
theorem nextToken_marked {m : Byte} (hm : m = 43 ∨ m = 45 ∨ m = 46) {more : List Byte}
    (hmore : more ≠ []) (rest : List Byte) : ∃ (t : Token D) (left : List Byte),
      nextToken (m :: more ++ rest) = (t, left) ∧ Stored t ∧ t.lexeme.val ≠ m :: more := by
  obtain ⟨t, hnext, hstored, hlexeme⟩ := nextToken_mark (D := D) hm (more ++ rest)
  refine ⟨t, more ++ rest, hnext, hstored, ?_⟩
  rw [hlexeme]
  intro h
  exact hmore (List.cons.inj h).2.symm

/-- A number that is longer than the lexer's buffer is cut. -/
theorem nextToken_long {digits rest : List Byte} (hfirst : ∀ b ∈ digits.head?, isDigit b = true)
    (hbytes : ∀ b ∈ digits, isNumberByte b = true) (hlong : 63 < digits.length)
    (hrest : Ends rest) : ∃ (t : Token D) (left : List Byte),
      nextToken (digits ++ rest) = (t, left) ∧ Stored t ∧ t.lexeme.val ≠ digits := by
  have hne : digits ≠ [] := List.ne_nil_of_length_pos (by omega)
  obtain ⟨t, hread, hstored, hlexeme⟩ := readNumber_ends (D := D) hbytes hrest
  refine ⟨t, rest, ?_, hstored, ?_⟩
  · rw [← hread]
    exact nextToken_number digits rest hne hfirst hbytes
  · intro heq
    have hcut : t.lexeme.val.length ≤ 63 := by
      have hlen : (digits.take 63).length ≤ 63 := by
        rw [List.length_take]
        exact Nat.min_le_left _ _
      rw [hlexeme, snprintf_val 256 (by decide) _ (fun b hb =>
        isNumberByte_ne_zero b (hbytes b (List.mem_of_mem_take hb))) (by omega)]
      exact hlen
    rw [heq] at hcut
    omega

/-- Any other value starts with a token of another text. -/
theorem nextToken_odd {v : Literal} (hodd : ¬ v.Plain) {rest : List Byte} (hrest : Ends rest) :
    ∃ (t : Token D) (left : List Byte), nextToken (v.text ++ rest) = (t, left) ∧ Stored t ∧
      t.lexeme.val ≠ v.stored := by
  cases v with
  | number sign digits hsign hbytes hdots hdigit =>
    obtain ⟨d, hd, hdd⟩ := hdigit
    have hne : digits ≠ [] := List.ne_nil_of_mem hd
    rcases hsign with rfl | rfl | rfl
    · obtain ⟨c, tail, rfl⟩ := List.exists_cons_of_ne_nil hne
      by_cases hfirst : isDigit c = true
      · have hhead : ∀ b ∈ (c :: tail).head?, isDigit b = true :=
          fun b hb => Option.some.inj hb ▸ hfirst
        apply nextToken_long hhead hbytes _ hrest
        by_contra hlen
        exact hodd ⟨rfl, hhead, not_lt.mp hlen⟩
      · have hdot : c = 46 := by
          have hc := hbytes c List.mem_cons_self
          simpa [isNumberByte, hfirst] using hc
        have htail : tail ≠ [] := by
          rintro rfl
          rw [List.mem_singleton.mp hd] at hdd
          exact hfirst hdd
        exact nextToken_marked (Or.inr (Or.inr hdot)) htail rest
    · exact nextToken_marked (Or.inl rfl) hne rest
    · exact nextToken_marked (Or.inr (Or.inl rfl)) hne rest
  | quoted quote content hquote hlen hcontent =>
    have hinner : ∃ b ∈ content, isQuote b = true := by
      by_contra hnone
      refine hodd fun b hb => ?_
      by_contra hb'
      exact hnone ⟨b, hb, by simpa using hb'⟩
    have hblank : isBlank quote = false := by
      rcases isQuote_cases quote hquote with rfl | rfl <;> rfl
    obtain ⟨t, left, hread, hstored, hlexeme⟩ :=
      readString_odd (D := D) (content ++ [quote] ++ rest) hinner
    refine ⟨t, left, ?_, hstored, hlexeme⟩
    change nextToken (quote :: (content ++ [quote] ++ rest)) = _
    rw [nextToken_cons quote _ hblank, if_pos hquote, hread]

theorem given_of_plain {x : Item} (hplain : x.value.Plain) (rest : List Item) :
    ∃ t : Token D, given (listText (x :: rest)) = t :: given (listText rest) ∧
      t.lexeme.val = x.value.stored := by
  obtain ⟨t, hnext, hstored, hlexeme⟩ :=
    nextToken_plain (D := D) hplain (ends_listText x rest)
  refine ⟨t, ?_, hlexeme⟩
  rw [listText, given_gap _ _ x.before_blank, given_cons hnext hstored, given_after]

/-- Plain values are read back. -/
theorem given_plain (items : List Item) (h : ∀ x ∈ items, x.value.Plain) :
    ∀ i (hi : i < items.length), ∃ t : Token D, (given (listText items))[i]? = some t ∧
      t.lexeme.val = items[i].value.stored := by
  induction items with
  | nil => exact fun i hi => absurd hi (Nat.not_lt_zero i)
  | cons x rest ih =>
    obtain ⟨hx, hrest⟩ := List.forall_mem_cons.mp h
    obtain ⟨t, hgiven, hlexeme⟩ := given_of_plain (D := D) hx rest
    intro i hi
    rw [hgiven]
    cases i with
    | zero => exact ⟨t, rfl, hlexeme⟩
    | succ i => exact ih hrest i (Nat.lt_of_succ_lt_succ hi)

/-- The first value that is not plain has another text at its place. -/
theorem given_odd (items : List Item) (h : ∃ x ∈ items, ¬ x.value.Plain) :
    ∃ i, ∃ hi : i < items.length, ∃ t : Token D, (given (listText items))[i]? = some t ∧
      t.lexeme.val ≠ items[i].value.stored := by
  induction items with
  | nil => simp at h
  | cons x rest ih =>
    by_cases hx : x.value.Plain
    · obtain ⟨t, hgiven, -⟩ := given_of_plain (D := D) hx rest
      have hrest : ∃ y ∈ rest, ¬ y.value.Plain := by
        obtain ⟨y, hy, hodd⟩ := h
        rcases List.mem_cons.mp hy with rfl | hy
        · exact absurd hx hodd
        · exact ⟨y, hy, hodd⟩
      obtain ⟨i, hi, t', hget, hne⟩ := ih hrest
      refine ⟨i + 1, Nat.succ_lt_succ hi, t', ?_, hne⟩
      rw [hgiven]
      exact hget
    · obtain ⟨t, left, hnext, hstored, hlexeme⟩ :=
        nextToken_odd (D := D) hx (ends_listText x rest)
      refine ⟨0, Nat.zero_lt_succ _, t, ?_, hlexeme⟩
      rw [listText, given_gap _ _ x.before_blank, given_cons hnext hstored]
      rfl

section Statement
variable {name : List Byte}

structure IsName (name : List Byte) : Prop where
  ne_nil : name ≠ []
  length_le : name.length ≤ 63
  bytes : ∀ b ∈ name, isIdentByte b = true
  first : ∀ b ∈ name.head?, isDigit b = false
  no_keyword : ∀ type, (name.map toUpper, type) ∉ keywords

theorem listText_nulFree (items : List Item) : ∀ b ∈ listText items, b ≠ 0 := by
  have hblank : ∀ b, isBlank b = true → b ≠ 0 := by
    intro b hb
    rcases blank_cases b hb with rfl | rfl | rfl | rfl <;> decide
  have hvalue : ∀ v : Literal, ∀ b ∈ v.text, b ≠ 0 := by
    intro v b hb
    cases v with
    | number sign digits hsign hbytes hdots hdigit =>
      change b ∈ sign ++ digits at hb
      rcases List.mem_append.mp hb with hb | hb
      · rcases hsign with rfl | rfl | rfl
        · cases hb
        · rw [List.mem_singleton.mp hb]
          decide
        · rw [List.mem_singleton.mp hb]
          decide
      · exact isNumberByte_ne_zero b (hbytes b hb)
    | quoted quote content hquote hlen hcontent =>
      have hquote0 : quote ≠ 0 := by
        rcases isQuote_cases quote hquote with rfl | rfl <;> decide
      rcases List.mem_cons.mp hb with rfl | hb
      · exact hquote0
      · rcases List.mem_append.mp hb with hb | hb
        · exact (hcontent b hb).2
        · rw [List.mem_singleton.mp hb]
          exact hquote0
  induction items with
  | nil => exact List.forall_mem_singleton.mpr (by decide)
  | cons x rest ih =>
    intro b hb
    simp only [listText, List.mem_append] at hb
    rcases hb with hb | hb | hb | hb | hb
    · exact hblank b (x.before_blank b hb)
    · exact hvalue x.value b hb
    · exact hblank b (x.after_blank b hb)
    · split at hb
      · cases hb
      · rw [List.mem_singleton.mp hb]
        decide
    · exact ih b hb

theorem insertText_nulFree (hname : IsName name) (items : List Item) :
    ∀ b ∈ insertText name items, b ≠ 0 := by
  intro b hb
  simp only [insertText, List.mem_append] at hb
  rcases hb with hb | hb | hb | hb
  · have hall : ∀ b ∈ ascii "INSERT INTO ", b ≠ 0 := by decide +kernel
    exact hall b hb
  · exact isIdentByte_ne_zero b (hname.bytes b hb)
  · have hall : ∀ b ∈ ascii " VALUES (", b ≠ 0 := by decide +kernel
    exact hall b hb
  · exact listText_nulFree items b hb

theorem stops_blank (s : List Byte) : Stops (32 :: s) := by
  intro b hb
  rw [← Option.some.inj hb]
  rfl

theorem tokens_keyword (word : List Byte) (type : TokenType)
    (hkey : (word.map toUpper, type) ∈ keywords) (hend : type ≠ .END_OF_INPUT) (s : List Byte) :
    (tokens (word ++ 32 :: s) : List (Token D)) = Token.ofLexeme type word :: tokens s := by
  have hletters := keyword_letters word type hkey
  obtain ⟨hne, hlen⟩ := keyword_length word type hkey
  have hident : ∀ b ∈ word, isIdentByte b = true := fun b hb => by
    simp [isIdentByte, isAlnum, hletters b hb]
  have hnext := nextToken_word (D := D) word (32 :: s) hne hident
    (fun b hb => isDigit_of_isAlpha b (hletters b (List.mem_of_mem_head? hb))) hlen (stops_blank s)
  rw [lookup_keywords _ type hkey] at hnext
  have hgap := tokens_gap (D := D) [32] s (List.forall_mem_singleton.mpr rfl)
  rw [tokens_cons hnext hend]
  exact congrArg _ hgap

theorem tokens_name (hname : IsName name) (s : List Byte) :
    (tokens (name ++ 32 :: s) : List (Token D)) = Token.ofLexeme .IDENTIFIER name :: tokens s := by
  have hlookup : keywords.lookup (name.map toUpper) = none := by
    rw [List.lookup_eq_none_iff]
    intro e he
    by_contra hne
    have heq : name.map toUpper = e.1 := by simpa using hne
    exact hname.no_keyword e.2 (heq ▸ he)
  have hlen := hname.length_le
  have hnext := nextToken_word (D := D) name (32 :: s) hname.ne_nil hname.bytes hname.first
    (by omega) (stops_blank s)
  rw [hlookup] at hnext
  have hgap := tokens_gap (D := D) [32] s (List.forall_mem_singleton.mpr rfl)
  rw [tokens_cons hnext (by simp [Token.ofLexeme])]
  exact congrArg _ hgap

theorem tokens_insertText (hname : IsName name) (items : List Item) :
    (tokens (cstr (insertText name items)) : List (Token D)) =
      Token.ofLexeme .INSERT (ascii "INSERT") :: Token.ofLexeme .INTO (ascii "INTO") ::
        Token.ofLexeme .IDENTIFIER name :: Token.ofLexeme .VALUES (ascii "VALUES") ::
          Token.ofLexeme .LPAREN (ascii "(") :: tokens (listText items) := by
  have hopen : (nextToken (40 :: listText items) : Token D × List Byte) =
      (Token.ofLexeme .LPAREN (ascii "("), listText items) := rfl
  have htext : insertText name items = ascii "INSERT" ++ 32 :: (ascii "INTO" ++ 32 :: (name ++
      32 :: (ascii "VALUES" ++ 32 :: 40 :: listText items))) := rfl
  rw [cstr_eq_self _ (insertText_nulFree hname items), htext,
    tokens_keyword _ .INSERT (by decide) nofun, tokens_keyword _ .INTO (by decide) nofun,
    tokens_name hname, tokens_keyword _ .VALUES (by decide) nofun,
    tokens_cons hopen (by simp [Token.ofLexeme])]

theorem valueTokens_insertText (items : List Item) :
    valueTokens (Token.ofLexeme .VALUES (ascii "VALUES") ::
      Token.ofLexeme .LPAREN (ascii "(") :: tokens (listText items) : List (Token D)) =
        given (listText items) := rfl

/-- Parsing an INSERT stores the text of every value at its own place exactly if every
value is an unsigned number that starts with a digit and has 63 characters at most, or
a string without quotes of either kind in it. -/
theorem parse_values_iff (hname : IsName name) (items : List Item)
    (hlen : items.length ≤ MAX_COLUMNS) (out : ParsedQuery D) :
    ((parse (insertText name items) out).1 = true ∧ ∀ i (hi : i < items.length),
      ((parse (insertText name items) out).2.insertVals i).val = items[i].value.stored) ↔
    ∀ x ∈ items, x.value.Plain := by
  have hinto : intoTable (Token.ofLexeme .INTO (ascii "INTO") ::
      Token.ofLexeme .IDENTIFIER name :: Token.ofLexeme .VALUES (ascii "VALUES") ::
        Token.ofLexeme .LPAREN (ascii "(") :: tokens (listText items) : List (Token D)) =
      some (snprintf 64 (by decide) (Token.ofLexeme .IDENTIFIER name : Token D).lexeme.val,
        Token.ofLexeme .VALUES (ascii "VALUES") :: Token.ofLexeme .LPAREN (ascii "(") ::
          tokens (listText items)) := rfl
  unfold parse
  rw [tokens_insertText hname items]
  rcases parseTokens_insert (Token.ofLexeme .INSERT (ascii "INSERT") ::
      Token.ofLexeme .INTO (ascii "INTO") :: Token.ofLexeme .IDENTIFIER name ::
        Token.ofLexeme .VALUES (ascii "VALUES") :: Token.ofLexeme .LPAREN (ascii "(") ::
          tokens (listText items)) rfl out with
    ⟨hnone, -⟩ | ⟨name', rest, hsome, htrue, -, -, hvals⟩
  · exact absurd (hinto.symm.trans hnone) nofun
  · obtain ⟨-, rfl⟩ := Prod.mk.inj (Option.some.inj (hinto.symm.trans hsome))
    rw [htrue, hvals, valueTokens_insertText]
    have hstored : ∀ i, i < items.length → ∀ t : Token D,
        (given (listText items) : List (Token D))[i]? = some t →
          (storedVals (given (listText items) : List (Token D)) out.insertVals i).val =
            t.lexeme.val := by
      intro i hi t hget
      unfold storedVals
      rw [List.getElem?_take, if_pos (by omega), hget]
      exact congrArg CStr.val (snprintf_self _ t.lexeme)
    constructor
    · intro ⟨_, hall⟩
      by_contra hodd
      obtain ⟨x, hx⟩ := not_forall.mp hodd
      obtain ⟨hmem, hx⟩ := Classical.not_imp.mp hx
      obtain ⟨i, hi, t, hget, hne⟩ := given_odd (D := D) items ⟨x, hmem, hx⟩
      exact hne ((hstored i hi t hget).symm.trans (hall i hi))
    · intro hplain
      refine ⟨rfl, fun i hi => ?_⟩
      obtain ⟨t, hget, hlexeme⟩ := given_plain (D := D) items hplain i hi
      rw [hstored i hi t hget, hlexeme]

end Statement

section Example

theorem isName_orders : IsName (ascii "orders") where
  ne_nil := by decide
  length_le := by decide
  bytes := by decide +kernel
  first := by decide +kernel
  no_keyword type h := by
    have hlookup := lookup_keywords _ type h
    revert hlookup
    cases type <;> decide

theorem shortText_length : (ascii "a b").length ≤ 255 := by decide

/-- `7, "a b"`. -/
def plainItems : List Item :=
  [⟨[], .number [] (ascii "7") (by decide) (by decide +kernel) (by decide) (by decide), [],
      List.forall_mem_nil _, List.forall_mem_nil _⟩,
    ⟨[32], .quoted 34 (ascii "a b") (by decide) shortText_length (by decide +kernel), [],
      List.forall_mem_singleton.mpr rfl, List.forall_mem_nil _⟩]

theorem parse_values_iff_plain :
    (parse (insertText (ascii "orders") plainItems) (ParsedQuery.zeroed : ParsedQuery ℤ)).1 = true ∧
      ∀ i (hi : i < plainItems.length), ((parse (insertText (ascii "orders") plainItems)
        (ParsedQuery.zeroed : ParsedQuery ℤ)).2.insertVals i).val =
          plainItems[i].value.stored :=
  (parse_values_iff isName_orders plainItems (by decide) ParsedQuery.zeroed).mpr (by
    intro x hx
    rcases List.mem_cons.mp hx with rfl | hx
    · exact ⟨rfl, by decide +kernel, by decide⟩
    · rw [List.mem_singleton.mp hx]
      change ∀ b ∈ ascii "a b", isQuote b = false
      decide +kernel)

/-- `-5, 2`. -/
def signedItems : List Item :=
  [⟨[], .number [45] (ascii "5") (by decide) (by decide +kernel) (by decide) (by decide), [],
      List.forall_mem_nil _, List.forall_mem_nil _⟩,
    ⟨[32], .number [] (ascii "2") (by decide) (by decide +kernel) (by decide) (by decide), [],
      List.forall_mem_singleton.mpr rfl, List.forall_mem_nil _⟩]

/-- The sign takes the first column and the number the second one. -/
theorem parse_signed_shifts :
    insertText (ascii "orders") signedItems = ascii "INSERT INTO orders VALUES (-5, 2)" ∧
    ((parse (insertText (ascii "orders") signedItems)
      (ParsedQuery.zeroed : ParsedQuery ℤ)).2.insertVals 0).val = ascii "-" ∧
    ((parse (insertText (ascii "orders") signedItems)
      (ParsedQuery.zeroed : ParsedQuery ℤ)).2.insertVals 1).val = ascii "5" ∧
    signedItems.map (fun x => x.value.stored) = [ascii "-5", ascii "2"] := by decide

end Example

end NanoDB.ValueList
