import NanoDB.CheckedParser
import NanoDB.ShuntingYard

/-!
No statement text makes the parser leave a buffer, touch an empty stack or run for ever. The
checked parser of any text ends without a fault, with the query of the parser, and so does the
checked evaluation of that query on any row.
-/
namespace NanoDB.SafeParsing

open CTypes CheckedProgram CheckedLexer CheckedParser

variable {D : Type} {fuel : ℕ}

section Words

theorem strLen_eq (s : CStr 256) (hfuel : 256 ≤ fuel) : strLen fuel s = .ok s.val.length :=
  countText_eq s.nulFree [] (s.fits.trans_le hfuel)

theorem appendWord_eq {size : ℕ} {buf : List Byte} (s : CStr 256)
    (hroom : buf.length + s.val.length < size) :
    appendWord size buf s s.val.length = .ok (buf ++ s.val ++ [32]) := by
  have hcopy : forLoop s.val.length (fun buf i => load (s.val ++ [0]) (0 + i) >>= push size buf)
      buf = .ok (buf ++ ((s.val ++ [0]).drop 0).take s.val.length) :=
    forLoop_copy buf (by omega) (by simp)
  rw [appendWord, hcopy, ok_bind, List.drop_zero, List.take_left', push_of_lt]
  · rw [List.length_append]
    exact hroom
  · rfl

theorem appendToStr_eq (str : List Byte) (word : CStr 256) (hfuel : 256 ≤ fuel) :
    CheckedParser.appendToStr fuel str word = .ok (Parser.appendToStr 1024 str word.val) := by
  rw [CheckedParser.appendToStr, strLen_eq word hfuel, ok_bind, Parser.appendToStr]
  split
  · exact appendWord_eq word (by omega)
  · rfl

theorem appendToStr_length {str : List Byte} (word : List Byte) (h : str.length < 1024) :
    (Parser.appendToStr 1024 str word).length < 1024 := by
  unfold Parser.appendToStr
  split
  · simp only [List.length_append, List.length_singleton]
    omega
  · exact h

theorem pushOut_eq (tk : Token D) (s : Parser.YardState D) (hfuel : 256 ≤ fuel) :
    CheckedParser.pushOut fuel tk s = .ok (Parser.pushOut MAX_POSTFIX 1024 tk s) := by
  unfold CheckedParser.pushOut Parser.pushOut
  split
  · rename_i hroom
    rw [push_of_lt hroom, ok_bind, appendToStr_eq s.str tk.lexeme hfuel]
    rfl
  · rfl

theorem pushOut_str (tk : Token D) {s : Parser.YardState D} (h : s.str.length < 1024) :
    (Parser.pushOut MAX_POSTFIX 1024 tk s).str.length < 1024 := by
  unfold Parser.pushOut
  split
  · exact appendToStr_length tk.lexeme.val h
  · exact h

end Words

section Stacks
variable {cond : Token D → Bool} {s : Parser.YardState D}

def unwind (cond : Token D → Bool) : List (Token D) → Parser.YardState D → Parser.YardState D
  | [], s => { s with opStack := [] }
  | top :: rest, s =>
    if cond top then unwind cond rest (Parser.pushOut MAX_POSTFIX 1024 top s)
    else { s with opStack := top :: rest }

theorem pushOut_with (top : Token D) (other : List (Token D)) (s : Parser.YardState D) :
    Parser.pushOut MAX_POSTFIX 1024 top { s with opStack := other } =
      { Parser.pushOut MAX_POSTFIX 1024 top s with opStack := other } := by
  unfold Parser.pushOut
  split <;> rfl

/-- The stack is taken from the list, not from the state. -/
theorem unwind_with (stack other : List (Token D)) (s : Parser.YardState D) :
    unwind cond stack { s with opStack := other } = unwind cond stack s := by
  induction stack generalizing s with
  | nil => rfl
  | cons top rest ih => rw [unwind, unwind, pushOut_with, ih]

/-- What the loop leaves on the stack is a part of it, and the text stays in its buffer. -/
theorem unwind_bounds (cond : Token D → Bool) (stack : List (Token D))
    (hstr : s.str.length < 1024) :
    (unwind cond stack s).opStack.length ≤ stack.length ∧
      (unwind cond stack s).str.length < 1024 := by
  induction stack generalizing s with
  | nil => exact ⟨le_refl 0, hstr⟩
  | cons top rest ih =>
    rw [unwind]
    split
    · have hrest := ih (pushOut_str top hstr)
      exact ⟨hrest.1.trans (Nat.le_succ _), hrest.2⟩
    · exact ⟨le_refl _, hstr⟩

/-- The popping loop never meets an empty stack. -/
theorem popWhile_eq (cond : Token D → Bool) (s : Parser.YardState D) (hrounds : 256 ≤ fuel)
    (hfuel : s.opStack.length < fuel) :
    popWhile fuel cond s = .ok (unwind cond s.opStack s) := by
  refine whileLoop_eq (fun _ => True) (fun s => s.opStack.length)
    (fun s => unwind cond s.opStack s) ?_ trivial hfuel
  rintro ⟨stack, out, str⟩ -
  cases stack with
  | nil => exact Or.inl ⟨rfl, rfl⟩
  | cons top rest =>
    have hstack : (Parser.pushOut MAX_POSTFIX 1024 top ⟨rest, out, str⟩).opStack = rest :=
      ShuntingYard.pushOut_opStack _ top
    simp only [unwind]
    cases hcond : cond top with
    | false => exact Or.inl ⟨congrArg Except.ok hcond, rfl⟩
    | true =>
      refine Or.inr ⟨_, congrArg Except.ok hcond, pushOut_eq top _ hrounds, trivial, ?_, ?_⟩
      · rw [hstack]
        exact Nat.lt_succ_self _
      · rw [hstack, if_pos rfl,
          ← unwind_with rest rest (Parser.pushOut _ _ top ⟨top :: rest, out, str⟩), ← pushOut_with]

/-- The branch of a right parenthesis: the left one goes too. -/
theorem popToParen_unwind (stack : List (Token D)) (s : Parser.YardState D) :
    Parser.popToParen MAX_POSTFIX 1024 stack s =
      { unwind (fun top => top.type ≠ .LPAREN) stack s with
        opStack := (unwind (fun top => top.type ≠ .LPAREN) stack s).opStack.tail } := by
  induction stack generalizing s with
  | nil => rfl
  | cons top rest ih =>
    rw [Parser.popToParen, unwind]
    by_cases htop : top.type = .LPAREN
    · simp [htop]
    · simp only [ne_eq, htop, not_false_eq_true, if_true, decide_true]
      exact ih _

theorem popOperators_unwind (tok : Token D) (stack : List (Token D)) (s : Parser.YardState D) :
    Parser.popOperators MAX_POSTFIX 1024 tok stack s = unwind (binds tok) stack s := by
  induction stack generalizing s with
  | nil => rfl
  | cons top rest ih =>
    have hbinds : binds tok top = true ↔ top.type ≠ .LPAREN ∧ top.type.isOperator ∧
        ((tok.type.isLeftAssoc ∧ tok.type.precedence ≤ top.type.precedence) ∨
          (¬ tok.type.isLeftAssoc ∧ tok.type.precedence < top.type.precedence)) := by
      simp [binds, and_assoc]
    rw [Parser.popOperators, unwind, ih]
    simp only [hbinds]

theorem foldl_unwind (stack : List (Token D)) (s : Parser.YardState D) :
    unwind (fun _ => true) stack s =
      { stack.foldl (fun s tk => Parser.pushOut MAX_POSTFIX 1024 tk s) s with opStack := [] } := by
  induction stack generalizing s with
  | nil => rfl
  | cons top rest ih =>
    rw [unwind, if_pos rfl, ih]
    rfl

/-- The stack is no higher than the number of tokens read, and the text has room for its
terminator. -/
structure Bounded (n : ℕ) (s : Parser.YardState D) : Prop where
  stack : s.opStack.length ≤ n
  str : s.str.length < 1024

/-- One token: no access fails, and the bounds hold for one token more. -/
theorem yardStep_eq {n : ℕ} (h : Bounded n s) (tok : Token D) (hrounds : 256 ≤ fuel)
    (hn : n < fuel) :
    CheckedParser.yardStep fuel s tok = .ok (Parser.yardStep MAX_POSTFIX 1024 s tok) ∧
      Bounded (n + 1) (Parser.yardStep MAX_POSTFIX 1024 s tok) := by
  have hstack := h.stack
  unfold CheckedParser.yardStep Parser.yardStep
  split
  · refine ⟨pushOut_eq tok s hrounds, ?_, pushOut_str tok h.str⟩
    rw [ShuntingYard.pushOut_opStack]
    omega
  split
  · exact ⟨rfl, Nat.succ_le_succ h.stack, h.str⟩
  split
  · have hbounds := unwind_bounds (fun top => top.type ≠ .LPAREN) s.opStack h.str
    rw [CheckedParser.popToParen, popWhile_eq _ s hrounds (by omega), ok_bind, popToParen_unwind]
    generalize unwind (fun top => decide (top.type ≠ .LPAREN)) s.opStack s = u at hbounds
    obtain ⟨stack, out, str⟩ := u
    obtain ⟨hle, hstr⟩ := hbounds
    cases stack with
    | nil => exact ⟨rfl, Nat.zero_le _, hstr⟩
    | cons top rest =>
      simp only [List.length_cons] at hle
      exact ⟨rfl, by simp only [List.tail_cons]; omega, hstr⟩
  split
  · have hbounds := unwind_bounds (binds tok) s.opStack h.str
    rw [popWhile_eq _ s hrounds (by omega), ok_bind, popOperators_unwind]
    exact ⟨rfl, by simp only [List.length_cons]; omega, hbounds.2⟩
  · exact ⟨rfl, h.stack.trans (Nat.le_succ n), h.str⟩

theorem yardLoop_eq (toks : List (Token D)) {i : ℕ} (h : Bounded i s)
    (hlen : i + toks.length ≤ MAX_POSTFIX) (hrounds : MAX_POSTFIX < fuel) :
    yardLoop fuel i toks s = .ok (toks.foldl (Parser.yardStep MAX_POSTFIX 1024) s) ∧
      Bounded (i + toks.length) (toks.foldl (Parser.yardStep MAX_POSTFIX 1024) s) := by
  induction toks generalizing i s with
  | nil => exact ⟨rfl, h⟩
  | cons tok toks ih =>
    rw [List.length_cons] at hlen
    have hmax : MAX_POSTFIX = 256 := rfl
    obtain ⟨hstep, hbound⟩ : CheckedParser.yardStep fuel s tok = _ ∧ _ :=
      yardStep_eq h tok (by omega) (by omega)
    have hrest := ih hbound (by omega)
    rw [yardLoop, touch_of_lt (by omega), ok_bind, hstep, ok_bind, List.length_cons]
    rw [Nat.add_assoc, Nat.add_comm 1] at hrest
    exact hrest

theorem shuntingYard_eq (toks : List (Token D)) (hlen : toks.length ≤ MAX_POSTFIX)
    (hrounds : MAX_POSTFIX < fuel) :
    CheckedParser.shuntingYard fuel toks = .ok (Parser.shuntingYard MAX_POSTFIX 1024 toks) := by
  obtain ⟨hloop, hbound⟩ := yardLoop_eq toks (s := ⟨[], [], []⟩) (i := 0)
    ⟨le_refl 0, Nat.succ_pos _⟩ (by omega) hrounds
  rw [Nat.zero_add] at hbound
  have hstr := (unwind_bounds (fun _ => true)
    (toks.foldl (Parser.yardStep MAX_POSTFIX 1024) ⟨[], [], []⟩).opStack hbound.str).2
  have hstack := hbound.stack
  have hmax : MAX_POSTFIX = 256 := rfl
  rw [CheckedParser.shuntingYard, hloop, ok_bind, popWhile_eq _ _ (by omega) (by omega), ok_bind,
    touch_of_lt hstr, ok_bind, foldl_unwind]
  rfl

end Stacks

section Tokens
variable [CDouble D] {text : List Byte} {lex : LexerState} {toks : List (Token D)}

theorem keyword_ne_end (word : List Byte) :
    (Lexer.keywords.lookup word).getD .IDENTIFIER ≠ .END_OF_INPUT := by
  have hkeys : ∀ e ∈ Lexer.keywords, e.2 ≠ .END_OF_INPUT := by decide
  cases hword : Lexer.keywords.lookup word with
  | none => simp
  | some type =>
    obtain ⟨pre, post, heq, -⟩ := List.lookup_eq_some_iff.mp hword
    exact hkeys (word, type) (by rw [heq]; simp)

/-- `END_OF_INPUT` has no text, and nothing is left behind it. -/
theorem nextToken_end (s : List Byte)
    (h : (Lexer.nextToken s : Token D × List Byte).1.type = .END_OF_INPUT) :
    (Lexer.nextToken s : Token D × List Byte) = (Token.ofLexeme .END_OF_INPUT [], []) := by
  unfold Lexer.nextToken at h ⊢
  generalize s.dropWhile Lexer.isBlank = left at h ⊢
  cases left with
  | nil => rfl
  | cons c rest =>
    dsimp only at h
    split_ifs at h
    · exact absurd h (by simp [Lexer.readString, Token.ofLexeme])
    · unfold Lexer.readNumber at h
      dsimp only at h
      split at h <;> exact absurd h (by simp)
    · exact absurd h (keyword_ne_end _)
    · exact absurd h (Lexer.readSymbol_spec c rest).1

structure Reads (text : List Byte) (lex : LexerState) (toks : List (Token D)) : Prop where
  inside : At text lex
  tokens : Lexer.tokens (text.drop lex.pos_) = toks

/-- The current token is the first of these, and the lexer stands behind it. -/
structure Pending (text : List Byte) (c : Cursor D) (toks : List (Token D)) : Prop where
  token : c.1 = (Parser.next toks).1
  reads : Reads text c.2 (Parser.next toks).2
  noEnd : ∀ t ∈ toks, t.type ≠ .END_OF_INPUT

/-- Rounds that do for a text: every loop reads a part of it or works on a fixed buffer. -/
def Enough (text : List Byte) (fuel : ℕ) : Prop := text.length + 512 ≤ fuel

theorem tokens_length (s : List Byte) : (Lexer.tokens s : List (Token D)).length ≤ s.length := by
  unfold Lexer.tokens
  generalize hn : s.length = n
  have hle : s.length ≤ n := hn.le
  clear hn
  induction n generalizing s with
  | zero => exact le_refl 0
  | succ n ih =>
    rw [Lexer.tokensFuel]
    split
    · exact Nat.zero_le _
    · rename_i hend
      have hlt := Lexer.nextToken_length s hend
      exact Nat.succ_le_succ (ih _ (by omega))

theorem read_next (h : Reads text lex toks) (hfuel : Enough text fuel) :
    ∃ c : Cursor D, nextToken fuel lex = .ok c ∧ Pending text c toks := by
  unfold Enough at hfuel
  obtain ⟨lex', hrun, hat, hrest⟩ :=
    nextToken_agrees (D := D) h.inside (show text.length < fuel by omega) (by omega)
  have htoks := h.tokens
  have hnoEnd : ∀ t ∈ toks, t.type ≠ .END_OF_INPUT := by
    rw [← htoks]
    exact Lexer.tokens_type _
  refine ⟨_, hrun, ?_⟩
  rw [Lexer.tokens_eq] at htoks
  split at htoks
  · rename_i hend
    have hnil := nextToken_end _ hend
    subst htoks
    refine ⟨congrArg Prod.fst hnil, ⟨hat, ?_⟩, hnoEnd⟩
    rw [hrest, hnil]
    rfl
  · subst htoks
    refine ⟨rfl, ⟨hat, ?_⟩, hnoEnd⟩
    rw [hrest]
    rfl

theorem Pending.advance {c : Cursor D} (h : Pending text c toks) (hfuel : Enough text fuel) :
    ∃ c' : Cursor D, nextToken fuel c.2 = .ok c' ∧ Pending text c' (Parser.next toks).2 :=
  read_next h.reads hfuel

theorem Pending.length_le {c : Cursor D} (h : Pending text c toks) :
    toks.length ≤ text.length + 1 := by
  have hrest : (Parser.next toks).2.length ≤ text.length := by
    rw [← h.reads.tokens]
    exact (tokens_length _).trans (by rw [List.length_drop]; omega)
  cases toks with
  | nil => exact Nat.zero_le _
  | cons t toks => exact Nat.succ_le_succ hrest

/-- Tests on the current token are tests on the first of the tokens. -/
theorem Pending.cons {c : Cursor D} {t : Token D} (h : Pending text c (t :: toks)) : c.1 = t :=
  h.token

theorem Pending.nil {c : Cursor D} (h : Pending text c []) : c.1.type = .END_OF_INPUT := by
  rw [h.token]
  rfl

end Tokens

section Loops
variable [CDouble D] {σ : Type} {text : List Byte} {toks : List (Token D)}

/-- In a loop over tokens, what is left of them yields what all would, in `n` rounds. -/
def Handles (text : List Byte) (p : Token D → Bool) (step : σ → Token D → σ) (I : σ → Prop)
    (toks : List (Token D)) (s : σ) (n : ℕ) (s' : σ × Cursor D) : Prop :=
  ∃ left, left.length = n ∧ Pending text s'.2 left ∧ I s'.1 ∧
    (left.takeWhile p).foldl step s'.1 = (toks.takeWhile p).foldl step s ∧
    left.dropWhile p = toks.dropWhile p

/-- A loop over the tokens handles them up to the first that fails its test. -/
theorem handleWhile_ok {go : TokenType → Bool} {p : Token D → Bool}
    {body : σ → Token D → Run σ} {step : σ → Token D → σ} (I : σ → Prop)
    (hbody : ∀ s t, I s → body s t = .ok (step s t) ∧ I (step s t))
    (hend : go .END_OF_INPUT = false) (hgo : ∀ t, t.type ≠ .END_OF_INPUT → go t.type = p t)
    {c : Cursor D} {s : σ} (h : Pending text c toks) (hs : I s) (hfuel : Enough text fuel) :
    ∃ c', handleWhile fuel go body (s, c) = .ok ((toks.takeWhile p).foldl step s, c') ∧
      Pending text c' (toks.dropWhile p) ∧ I ((toks.takeWhile p).foldl step s) := by
  have hlen := h.length_le
  unfold Enough at hfuel
  obtain ⟨⟨acc, c'⟩, n, hrun, ⟨left, -, hleft, hacc, hsteps, hrest⟩, hcond⟩ :
      ∃ s' n, handleWhile fuel go body (s, c) = .ok s' ∧ Handles text p step I toks s n s' ∧
        (return go s'.2.1.type : Run Bool) = .ok false := by
    refine whileLoop_ok (Handles text p step I toks s) ?_ ⟨toks, rfl, h, hs, rfl, rfl⟩ (by omega)
    rintro n ⟨acc, c⟩ ⟨left, rfl, hleft, hacc, hsteps, hrest⟩
    cases left with
    | nil => exact Or.inl (congrArg Except.ok (by rw [hleft.nil, hend]))
    | cons t left =>
      have hp := hgo t (hleft.noEnd t List.mem_cons_self)
      rw [← hleft.cons] at hp hsteps hrest
      cases hcond : go c.1.type with
      | false => exact Or.inl rfl
      | true =>
        obtain ⟨c', hnext, hleft'⟩ := hleft.advance hfuel
        obtain ⟨hstep, hacc'⟩ := hbody acc c.1 hacc
        simp only [List.takeWhile_cons, List.dropWhile_cons, ← hp, hcond, if_true,
          List.foldl_cons] at hsteps hrest
        refine Or.inr ⟨(step acc c.1, c'), left.length, rfl, ?_,
          ⟨left, rfl, hleft', hacc', hsteps, hrest⟩, Nat.lt_succ_self _⟩
        simp only [hstep, ok_bind, hnext, pure, Except.pure]
  have hstop : go c'.1.type = false := Except.ok.inj hcond
  have hnone : left.takeWhile p = [] ∧ left.dropWhile p = left := by
    cases left with
    | nil => exact ⟨rfl, rfl⟩
    | cons t left =>
      rw [hleft.cons, hgo t (hleft.noEnd t List.mem_cons_self)] at hstop
      simp [hstop]
  rw [hnone.1, List.foldl_nil] at hsteps
  rw [hnone.2] at hrest
  rw [← hsteps, ← hrest]
  exact ⟨c', hrun, hleft, hacc⟩

theorem skipWhile_ok {go : TokenType → Bool} {p : Token D → Bool}
    (hend : go .END_OF_INPUT = false) (hgo : ∀ t, t.type ≠ .END_OF_INPUT → go t.type = p t)
    {c : Cursor D} (h : Pending text c toks) (hfuel : Enough text fuel) :
    ∃ c', skipWhile fuel go c = .ok c' ∧ Pending text c' (toks.dropWhile p) := by
  have hbody : ∀ (s : Unit) (t : Token D), True →
      (fun _ _ => return ()) s t = (.ok () : Run Unit) ∧ True := fun _ _ _ => ⟨rfl, trivial⟩
  obtain ⟨c', hrun, hrest, -⟩ := handleWhile_ok _ hbody hend hgo h trivial hfuel
  refine ⟨c', ?_, hrest⟩
  rw [skipWhile, hrun]
  rfl

end Loops

section Where

theorem appendRaw_eq (raw : List Byte) (t : Token D) (hfuel : 256 ≤ fuel) :
    CheckedParser.appendRaw fuel raw t = .ok (Parser.appendRaw raw t) := by
  unfold CheckedParser.appendRaw Parser.appendRaw
  by_cases hraw : raw.length < 510
  · rw [if_pos hraw, strLen_eq t.lexeme hfuel, ok_bind]
    by_cases hroom : raw.length + t.lexeme.val.length + 1 < 510
    · rw [if_pos hroom, if_pos ⟨hraw, hroom⟩]
      exact appendWord_eq t.lexeme (by omega)
    · rw [if_neg hroom, if_neg fun h => hroom h.2]
      rfl
  · rw [if_neg hraw, if_neg fun h => hraw h.1]
    rfl

theorem appendRaw_length {raw : List Byte} (t : Token D) (h : raw.length < 512) :
    (Parser.appendRaw raw t).length < 512 := by
  unfold Parser.appendRaw
  split
  · simp only [List.length_append, List.length_singleton]
    omega
  · exact h

def BuffersFit (s : List (Token D) × List Byte) : Prop :=
  s.1.length ≤ MAX_POSTFIX ∧ s.2.length < 512

def store (s : List (Token D) × List Byte) (t : Token D) : List (Token D) × List Byte :=
  ((s.1 ++ [t]).take MAX_POSTFIX, Parser.appendRaw s.2 t)

theorem keepToken_eq {whereTokens : List (Token D)} (t : Token D)
    (h : whereTokens.length ≤ MAX_POSTFIX) :
    keepToken whereTokens t = .ok ((whereTokens ++ [t]).take MAX_POSTFIX) := by
  unfold keepToken
  split
  · rename_i hlt
    rw [push_of_lt hlt, List.take_of_length_le (by rw [List.length_append]; exact hlt)]
  · rename_i hfull
    have hlen : whereTokens.length = MAX_POSTFIX := by omega
    rw [List.take_left' hlen]
    rfl

theorem whereStep_eq {s : List (Token D) × List Byte} (t : Token D) (h : BuffersFit s)
    (hfuel : 256 ≤ fuel) :
    whereStep fuel s t = .ok (store s t) ∧ BuffersFit (store s t) := by
  refine ⟨?_, List.length_take_le .., appendRaw_length t h.2⟩
  rw [whereStep, keepToken_eq t h.1, ok_bind, appendRaw_eq s.2 t hfuel]
  rfl

theorem take_capped (a b : List (Token D)) (n : ℕ) :
    (a.take n ++ b).take n = (a ++ b).take n := by
  rw [List.take_append, List.take_append, List.take_take, Nat.min_self, List.length_take]
  congr 2
  omega

theorem foldl_store (clause : List (Token D)) {s : List (Token D) × List Byte}
    (h : BuffersFit s) :
    clause.foldl store s =
      ((s.1 ++ clause).take MAX_POSTFIX, clause.foldl Parser.appendRaw s.2) := by
  induction clause generalizing s with
  | nil => rw [List.append_nil, List.take_of_length_le h.1]; rfl
  | cons t clause ih =>
    rw [List.foldl_cons, ih ⟨List.length_take_le .., appendRaw_length t h.2⟩, List.foldl_cons,
      List.append_cons s.1]
    exact congrArg (Prod.mk · _) (take_capped _ _ _)

theorem inClause_eq (t : Token D) (h : t.type ≠ .END_OF_INPUT) :
    inClause t.type = !Parser.endsWhere t.type := by
  simp [inClause, Parser.endsWhere, h]

variable [CDouble D] {text : List Byte} {lex : LexerState} {toks : List (Token D)}

theorem parseWhere_eq (h : Reads text lex toks) (q : ParsedQuery D) (hfuel : Enough text fuel) :
    CheckedParser.parseWhere fuel lex q = .ok (Parser.parseWhere toks q) := by
  have hrounds : 512 ≤ fuel := (Nat.le_add_left 512 _).trans hfuel
  have hmax : MAX_POSTFIX < fuel := show 256 < fuel by omega
  have hempty : BuffersFit (([], []) : List (Token D) × List Byte) :=
    ⟨Nat.zero_le _, Nat.succ_pos _⟩
  have hbody : ∀ s (t : Token D), BuffersFit s →
      whereStep fuel s t = .ok (store s t) ∧ BuffersFit (store s t) :=
    fun s t hs => whereStep_eq t hs (by omega)
  obtain ⟨c, hnext, hc⟩ := read_next h hfuel
  obtain ⟨c', hrun, -, hbounds⟩ := handleWhile_ok BuffersFit hbody rfl inClause_eq hc hempty hfuel
  rw [foldl_store _ hempty] at hrun hbounds
  rw [CheckedParser.parseWhere, hnext, ok_bind, hrun, ok_bind, touch_of_lt hbounds.2, ok_bind,
    shuntingYard_eq _ hbounds.1 hmax]
  rfl

theorem parseTail_eq {c : Cursor D} (h : Pending text c toks) (q : ParsedQuery D)
    (hfuel : Enough text fuel) :
    CheckedParser.parseTail fuel c q = .ok (Parser.parseTail toks q) := by
  unfold CheckedParser.parseTail Parser.parseTail
  rw [h.token]
  split
  · exact parseWhere_eq h.reads q hfuel
  · rfl

end Where

section Joins

theorem addJoin_eq (t : Token D) (names : List (CStr 64)) :
    CheckedParser.addJoin t names = .ok (Parser.addJoin t names) := by
  unfold CheckedParser.addJoin Parser.addJoin
  split
  · rename_i h
    exact push_of_lt h.2 _
  · rfl

/-- The loop that skips the join condition, as one step. -/
theorem parseJoins_on (toks : List (Token D)) (names : List (CStr 64))
    (hnoEnd : ∀ t ∈ toks, t.type ≠ .END_OF_INPUT) :
    Parser.parseJoins .on toks names =
      Parser.parseJoins .head (toks.dropWhile fun t => inCondition t.type) names := by
  induction toks with
  | nil => rfl
  | cons t toks ih =>
    have hend := hnoEnd t List.mem_cons_self
    have hrest := ih fun t' ht' => hnoEnd t' (List.mem_cons_of_mem _ ht')
    rw [Parser.parseJoins, List.dropWhile_cons, hrest]
    by_cases hjoin : t.type = .JOIN
    · simp [hjoin, inCondition, Parser.parseJoins]
    by_cases hstop : t.type = .WHERE ∨ t.type = .SEMICOLON
    · rcases hstop with hstop | hstop <;> simp [hstop, inCondition, Parser.parseJoins]
    · rw [not_or] at hstop
      simp [hjoin, hstop, hend, inCondition]

variable [CDouble D] {text : List Byte} {toks : List (Token D)}

theorem parseJoins_name (toks : List (Token D)) (names : List (CStr 64)) :
    Parser.parseJoins .name toks names =
      Parser.parseJoins .on (Parser.next toks).2 (Parser.addJoin (Parser.next toks).1 names) := by
  cases toks <;> rfl

/-- One round of the JOIN loop. -/
theorem joinStep_eq {c : Cursor D} {t : Token D} (h : Pending text c (t :: toks))
    (hjoin : c.1.type = .JOIN) (names : List (CStr 64)) (hfuel : Enough text fuel) :
    ∃ c' left, (do
        let c : Cursor D ← nextToken fuel c.2
        let names ← CheckedParser.addJoin c.1 names
        let c : Cursor D ← nextToken fuel c.2
        let c : Cursor D ← skipWhile fuel inCondition c
        return (names, c)) = .ok (Parser.addJoin (Parser.next toks).1 names, c') ∧
      Pending text c' left ∧ left.length < (t :: toks).length ∧
      Parser.parseJoins .head left (Parser.addJoin (Parser.next toks).1 names) =
        Parser.parseJoins .head (t :: toks) names := by
  have hcond : inCondition .END_OF_INPUT = false := rfl
  obtain ⟨c₁, hname, (h₁ : Pending text c₁ toks)⟩ := h.advance hfuel
  obtain ⟨c₂, hon, h₂⟩ := h₁.advance hfuel
  obtain ⟨c₃, hskip, h₃⟩ := skipWhile_ok hcond (fun _ _ => rfl) h₂ hfuel
  refine ⟨c₃, _, ?_, h₃, ?_, ?_⟩
  · rw [hname, ok_bind, addJoin_eq, ok_bind, hon, ok_bind, hskip, h₁.token]
    rfl
  · refine Nat.lt_succ_of_le ((List.length_dropWhile_le ..).trans ?_)
    cases toks with
    | nil => exact le_refl 0
    | cons t toks => exact Nat.le_succ _
  · rw [h.cons] at hjoin
    rw [← parseJoins_on _ _ h₂.noEnd, ← parseJoins_name, Parser.parseJoins, if_pos hjoin]

theorem parseJoins_eq {c : Cursor D} (h : Pending text c toks) (names : List (CStr 64))
    (hfuel : Enough text fuel) :
    ∃ c', CheckedParser.parseJoins fuel (names, c) =
        .ok ((Parser.parseJoins .head toks names).1, c') ∧
      Pending text c' (Parser.parseJoins .head toks names).2 := by
  obtain ⟨⟨names', c'⟩, n, hrun, ⟨left, -, hleft, hgoal⟩, hcond⟩ :
      ∃ s' n, CheckedParser.parseJoins fuel (names, c) = .ok s' ∧
        (∃ left, left.length = n ∧ Pending text s'.2 left ∧
          Parser.parseJoins .head left s'.1 = Parser.parseJoins .head toks names) ∧
        (return s'.2.1.type = .JOIN : Run Bool) = .ok false := by
    have hlen := h.length_le
    have hrounds : toks.length < fuel := by
      unfold Enough at hfuel
      omega
    refine whileLoop_ok (fun n (s' : List (CStr 64) × Cursor D) => ∃ left, left.length = n ∧
      Pending text s'.2 left ∧
      Parser.parseJoins .head left s'.1 = Parser.parseJoins .head toks names)
      ?_ (s := (names, c)) ⟨toks, rfl, h, rfl⟩ hrounds
    rintro n ⟨names', c⟩ ⟨left, rfl, hleft, hgoal⟩
    cases left with
    | nil => exact Or.inl (congrArg Except.ok (by rw [hleft.nil]; rfl))
    | cons t left =>
      by_cases hjoin : c.1.type = .JOIN
      · obtain ⟨c', left', hrun, hleft', hlt, hsame⟩ := joinStep_eq hleft hjoin names' hfuel
        exact Or.inr ⟨_, left'.length, congrArg Except.ok (decide_eq_true hjoin), hrun,
          ⟨left', rfl, hleft', hsame.trans hgoal⟩, hlt⟩
      · exact Or.inl (congrArg Except.ok (decide_eq_false hjoin))
  have hstop : Parser.parseJoins .head left names' = (names', left) := by
    cases left with
    | nil => rfl
    | cons t left =>
      rw [hleft.cons] at hcond
      exact if_neg (of_decide_eq_false (Except.ok.inj hcond))
  rw [← hgoal, hstop]
  exact ⟨c', hrun, hleft⟩

end Joins

section Statements
variable {text : List Byte} {lex : LexerState} {toks : List (Token D)}

theorem addInsertCol_eq (q : ParsedQuery D) (t : Token D) :
    CheckedParser.addInsertCol q t = .ok (Parser.addInsertCol q t) := by
  unfold CheckedParser.addInsertCol Parser.addInsertCol
  split
  · rename_i h
    rw [touch_of_lt h.2]
    rfl
  · rfl

theorem addInsertVal_eq (s : ℕ × ParsedQuery D) (t : Token D) :
    CheckedParser.addInsertVal s t = .ok (Parser.addInsertVal s t) := by
  unfold CheckedParser.addInsertVal Parser.addInsertVal
  split
  · rename_i h
    rw [touch_of_lt h.2]
    rfl
  · rfl

theorem insideParens_eq (t : Token D) (h : t.type ≠ .END_OF_INPUT) :
    insideParens t.type = Parser.isNot .RPAREN t := by
  simp [insideParens, Parser.isNot, h]

theorem inColumns_eq (t : Token D) (h : t.type ≠ .END_OF_INPUT) :
    inColumns t.type = decide (t.type ≠ .FROM) := by
  simp [inColumns, h]

variable [CDouble D]

theorem parseSelect_eq (h : Reads text lex toks) (q : ParsedQuery D) (hfuel : Enough text fuel) :
    CheckedParser.parseSelect fuel lex q = .ok (Parser.parseSelect toks q) := by
  obtain ⟨c, hnext, hc⟩ := read_next h hfuel
  obtain ⟨c₁, hskip, h₁⟩ := skipWhile_ok rfl inColumns_eq hc hfuel
  rw [CheckedParser.parseSelect, hnext, ok_bind, hskip, ok_bind, Parser.parseSelect]
  generalize (toks.dropWhile fun t => decide (t.type ≠ .FROM)) = left at h₁
  cases left with
  | nil => rw [if_pos h₁.nil]; rfl
  | cons t left =>
    obtain ⟨c₂, hname, (h₂ : Pending text c₂ left)⟩ := h₁.advance hfuel
    obtain ⟨c₃, hafter, h₃⟩ := h₂.advance hfuel
    obtain ⟨c₄, hjoins, h₄⟩ := parseJoins_eq h₃ q.joinTables hfuel
    have hend := h₁.noEnd t List.mem_cons_self
    rw [← h₁.cons] at hend
    rw [if_neg hend, hname, ok_bind, h₂.token]
    dsimp only
    split
    · rfl
    · rw [hafter, ok_bind, hjoins, ok_bind]
      exact parseTail_eq h₄ _ hfuel

theorem parseColumns_eq {c : Cursor D} (h : Pending text c toks) (q : ParsedQuery D)
    (hfuel : Enough text fuel) :
    ∃ c', CheckedParser.parseColumns fuel c q = .ok ((Parser.parseColumns toks q).1, c') ∧
      Pending text c' (Parser.parseColumns toks q).2 := by
  unfold CheckedParser.parseColumns Parser.parseColumns
  rw [h.token]
  split
  · obtain ⟨c₁, hnext, h₁⟩ := h.advance hfuel
    obtain ⟨c₂, hcols, h₂, -⟩ := handleWhile_ok (fun _ => True)
      (fun q t _ => ⟨addInsertCol_eq q t, trivial⟩) rfl insideParens_eq h₁ trivial hfuel
    obtain ⟨c₃, hafter, h₃⟩ := h₂.advance hfuel
    refine ⟨c₃, ?_, h₃⟩
    rw [hnext, ok_bind, hcols, ok_bind, hafter]
    rfl
  · exact ⟨c, rfl, h⟩

theorem parseValues_eq {c : Cursor D} (h : Pending text c toks) (q : ParsedQuery D)
    (hfuel : Enough text fuel) :
    CheckedParser.parseValues fuel c q = .ok (Parser.parseValues toks q) := by
  unfold CheckedParser.parseValues Parser.parseValues
  rw [h.token]
  split
  · obtain ⟨c₁, hnext, h₁⟩ := h.advance hfuel
    obtain ⟨c₂, hvals, -⟩ := handleWhile_ok (fun _ => True)
      (fun s t _ => ⟨addInsertVal_eq s t, trivial⟩) rfl insideParens_eq h₁ trivial hfuel
    rw [hnext, ok_bind, hvals]
    rfl
  · rfl

/-- An optional keyword. -/
theorem skip_ok {c : Cursor D} (h : Pending text c toks) (hfuel : Enough text fuel)
    (ty : TokenType) :
    ∃ c', (if c.1.type = ty then nextToken fuel c.2 else return c : Run (Cursor D)) = .ok c' ∧
      Pending text c' (if (Parser.next toks).1.type = ty then (Parser.next toks).2 else toks) := by
  rw [h.token]
  split
  · exact h.advance hfuel
  · exact ⟨c, rfl, h⟩

theorem parseInsert_eq (h : Reads text lex toks) (q : ParsedQuery D) (hfuel : Enough text fuel) :
    CheckedParser.parseInsert fuel lex q = .ok (Parser.parseInsert toks q) := by
  obtain ⟨c, hnext, hc⟩ := read_next h hfuel
  obtain ⟨c₁, hname, h₁⟩ := hc.advance hfuel
  obtain ⟨c₂, hafter, h₂⟩ := h₁.advance hfuel
  rw [CheckedParser.parseInsert, hnext, ok_bind, hc.token, Parser.parseInsert]
  split
  · rfl
  rw [hname, ok_bind, h₁.token]
  dsimp only
  split
  · rfl
  obtain ⟨c₃, hcols, h₃⟩ := parseColumns_eq h₂
    { q with tableName := snprintf 64 nameSize_pos (Parser.next (Parser.next toks).2).1.lexeme.val }
    hfuel
  obtain ⟨c₄, hskip, h₄⟩ := skip_ok h₃ hfuel .VALUES
  rw [hafter, ok_bind, hcols, ok_bind, skipValues, hskip, ok_bind, parseValues_eq h₄ _ hfuel]
  rfl

theorem parseUpdate_eq (h : Reads text lex toks) (q : ParsedQuery D) (hfuel : Enough text fuel) :
    CheckedParser.parseUpdate fuel lex q = .ok (Parser.parseUpdate toks q) := by
  obtain ⟨c, hnext, hc⟩ := read_next h hfuel
  obtain ⟨c₁, hset, h₁⟩ := hc.advance hfuel
  obtain ⟨c₂, hcol, h₂⟩ := h₁.advance hfuel
  obtain ⟨c₃, hassign, h₃⟩ := h₂.advance hfuel
  obtain ⟨c₄, hval, h₄⟩ := h₃.advance hfuel
  obtain ⟨c₅, hafter, h₅⟩ := h₄.advance hfuel
  rw [CheckedParser.parseUpdate, hnext, ok_bind, hc.token, Parser.parseUpdate]
  split
  · rfl
  rw [hset, ok_bind, h₁.token]
  dsimp only
  split
  · rfl
  rw [hcol, ok_bind, h₂.token]
  split
  · rfl
  rw [hassign, ok_bind, hval, ok_bind, hafter, ok_bind, h₄.token]
  exact parseTail_eq h₅ _ hfuel

theorem parseDelete_eq (h : Reads text lex toks) (q : ParsedQuery D) (hfuel : Enough text fuel) :
    CheckedParser.parseDelete fuel lex q = .ok (Parser.parseDelete toks q) := by
  obtain ⟨c, hnext, hc⟩ := read_next h hfuel
  obtain ⟨c₁, hfrom, h₁⟩ := skip_ok hc hfuel .FROM
  obtain ⟨c₂, hafter, h₂⟩ := h₁.advance hfuel
  rw [CheckedParser.parseDelete, hnext, ok_bind, skipFrom, hfrom, ok_bind, h₁.token,
    Parser.parseDelete]
  dsimp only
  generalize (if (Parser.next toks).1.type = .FROM then (Parser.next toks).2 else toks) = left
    at h₁ h₂ ⊢
  split
  · rfl
  rw [hafter, ok_bind]
  exact parseTail_eq h₂ _ hfuel

/-- The checked parser ends without a fault, with what the parser yields. -/
theorem parse_eq (sql : List Byte) (out : ParsedQuery D) (hfuel : Enough (cstr sql) fuel) :
    CheckedParser.parse fuel (sql ++ [0]) out = .ok (Parser.parse sql out) := by
  have hlt : (cstr sql).length < fuel := by
    unfold Enough at hfuel
    omega
  have hstart : Reads (cstr sql) ⟨cstr sql ++ [0], 0, (cstr sql).length⟩
      (Lexer.tokens (cstr sql) : List (Token D)) := ⟨⟨rfl, rfl, Nat.zero_le _⟩, rfl⟩
  obtain ⟨c, hnext, hc⟩ := read_next hstart hfuel
  rw [CheckedParser.parse, newLexer_eq sql hlt, ok_bind, hnext, ok_bind, Parser.parse,
    Parser.parseTokens, hc.token]
  dsimp only
  generalize (Parser.next (Lexer.tokens (cstr sql) : List (Token D))).1.type = ty
  cases ty
  case SELECT => exact parseSelect_eq hc.reads _ hfuel
  case INSERT => exact parseInsert_eq hc.reads _ hfuel
  case UPDATE => exact parseUpdate_eq hc.reads _ hfuel
  case DELETE => exact parseDelete_eq hc.reads _ hfuel
  all_goals rfl

end Statements

section Evaluation
variable {q : ParsedQuery D}

theorem shuntingYard_length (toks : List (Token D)) :
    (Parser.shuntingYard MAX_POSTFIX 1024 toks).1.length ≤ MAX_POSTFIX := by
  rw [ShuntingYard.shuntingYard_eq]
  exact List.length_take_le ..

theorem foldl_addInsertCol_postfix (toks : List (Token D)) (q : ParsedQuery D) :
    (toks.foldl Parser.addInsertCol q).postfixTokens = q.postfixTokens := by
  induction toks generalizing q with
  | nil => rfl
  | cons t toks ih =>
    rw [List.foldl_cons, ih]
    unfold Parser.addInsertCol
    split <;> rfl

theorem foldl_addInsertVal_postfix (toks : List (Token D)) (s : ℕ × ParsedQuery D) :
    (toks.foldl Parser.addInsertVal s).2.postfixTokens = s.2.postfixTokens := by
  induction toks generalizing s with
  | nil => rfl
  | cons t toks ih =>
    rw [List.foldl_cons, ih]
    unfold Parser.addInsertVal
    split <;> rfl

variable [CDouble D]

theorem parseTail_length (toks : List (Token D)) (h : q.postfixTokens.length ≤ MAX_POSTFIX) :
    (Parser.parseTail toks q).2.postfixTokens.length ≤ MAX_POSTFIX := by
  unfold Parser.parseTail
  split
  · exact shuntingYard_length _
  · exact h

theorem parseSelect_length (toks : List (Token D)) (h : q.postfixTokens.length ≤ MAX_POSTFIX) :
    (Parser.parseSelect toks q).2.postfixTokens.length ≤ MAX_POSTFIX := by
  unfold Parser.parseSelect
  split
  · exact h
  split
  · exact h
  · exact parseTail_length _ h

theorem parseInsert_length (toks : List (Token D)) (h : q.postfixTokens.length ≤ MAX_POSTFIX) :
    (Parser.parseInsert toks q).2.postfixTokens.length ≤ MAX_POSTFIX := by
  have hcols : ∀ (toks : List (Token D)) q, (Parser.parseColumns toks q).1.postfixTokens =
      q.postfixTokens := by
    intro toks q
    unfold Parser.parseColumns
    split
    · exact foldl_addInsertCol_postfix _ q
    · rfl
  have hvals : ∀ (toks : List (Token D)) q, (Parser.parseValues toks q).postfixTokens =
      q.postfixTokens := by
    intro toks q
    unfold Parser.parseValues
    split
    · exact foldl_addInsertVal_postfix _ (0, q)
    · rfl
  unfold Parser.parseInsert
  split
  · exact h
  dsimp only
  split
  · exact h
  · rw [hvals, hcols]
    exact h

theorem parseUpdate_length (toks : List (Token D)) (h : q.postfixTokens.length ≤ MAX_POSTFIX) :
    (Parser.parseUpdate toks q).2.postfixTokens.length ≤ MAX_POSTFIX := by
  have hval : ∀ t (q : ParsedQuery D), (Parser.setUpdateVal t q).postfixTokens =
      q.postfixTokens := by
    intro t q
    unfold Parser.setUpdateVal
    dsimp only
    split <;> rfl
  unfold Parser.parseUpdate
  split
  · exact h
  dsimp only
  split
  · exact h
  split
  · exact h
  · exact parseTail_length _ ((congrArg List.length (hval _ _)).trans_le h)

theorem parseDelete_length (toks : List (Token D)) (h : q.postfixTokens.length ≤ MAX_POSTFIX) :
    (Parser.parseDelete toks q).2.postfixTokens.length ≤ MAX_POSTFIX := by
  unfold Parser.parseDelete
  dsimp only
  generalize (if (Parser.next toks).1.type = .FROM then (Parser.next toks).2 else toks) = left
  split
  · exact h
  · exact parseTail_length _ h

/-- Whatever the query held before, its translation fits its array. -/
theorem parse_length (sql : List Byte) (out : ParsedQuery D) :
    (Parser.parse sql out).2.postfixTokens.length ≤ MAX_POSTFIX := by
  unfold Parser.parse Parser.parseTokens
  dsimp only
  split
  · exact parseSelect_length _ (Nat.zero_le _)
  · exact parseInsert_length _ (Nat.zero_le _)
  · exact parseUpdate_length _ (Nat.zero_le _)
  · exact parseDelete_length _ (Nat.zero_le _)
  · exact Nat.zero_le _

/-- The guard on the number of values lets no operator pop an empty stack. -/
theorem evalLoop_checked (schema : TableSchema) (row : Row D) (toks : List (Token D)) {i : ℕ}
    (stk : List (EvalVal D)) (hlen : i + toks.length ≤ MAX_POSTFIX) :
    CheckedParser.evalLoop schema row i toks stk =
      .ok (ShuntingYard.ranTruth (Executor.evalLoop schema row toks stk)) := by
  induction toks generalizing i stk with
  | nil => cases stk <;> rfl
  | cons tok toks ih =>
    rw [List.length_cons] at hlen
    have hi : i < MAX_POSTFIX := by omega
    rw [CheckedParser.evalLoop, touch_of_lt hi, ok_bind]
    unfold Executor.evalLoop
    split
    · exact ih _ (by omega)
    split
    · rcases stk with _ | ⟨right, _ | ⟨left, rest⟩⟩
      · rfl
      · rfl
      · exact ih _ (by omega)
    · exact ih _ (by omega)

theorem evalWhere_eq (h : q.postfixTokens.length ≤ MAX_POSTFIX) (row : Row D)
    (schema : TableSchema) :
    CheckedParser.evalWhere q row schema = .ok (Executor.evalWhere q row schema) := by
  unfold CheckedParser.evalWhere Executor.evalWhere
  split
  · rfl
  · rw [evalLoop_checked schema row q.postfixTokens [] (by omega)]
    generalize Executor.evalLoop schema row q.postfixTokens [] = ran
    rcases ran with _ | ⟨_ | ⟨result, rest⟩⟩ <;> rfl

/-- For every text the checked parser ends without a fault, with every number of rounds from a
bound on, with the query of the parser; and so does the evaluation of that query on any row. -/
theorem parse_safe (sql : List Byte) (out : ParsedQuery D) (rounds : ℕ) :
    CheckedParser.parse ((cstr sql).length + 512 + rounds) (sql ++ [0]) out =
        .ok (Parser.parse sql out) ∧
      ∀ (row : Row D) (schema : TableSchema),
        CheckedParser.evalWhere (Parser.parse sql out).2 row schema =
          .ok (Executor.evalWhere (Parser.parse sql out).2 row schema) :=
  ⟨parse_eq sql out (Nat.le_add_right _ _), evalWhere_eq (parse_length sql out)⟩

end Evaluation

end NanoDB.SafeParsing
