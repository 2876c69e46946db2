import NanoDB.Parser

/-!
What the parser does to the two arrays of an INSERT. It clears every other field, stores
the values that are given over what was in the array, and leaves both arrays alone for
any other statement.
-/
namespace NanoDB.LeftoverValues

open CTypes NanoDB.Parser

variable {D : Type} [CDouble D]

def withInserts (q : ParsedQuery D) (cols : ℕ → CStr 64) (vals : ℕ → CStr 256) : ParsedQuery D :=
  { q with insertCols := cols, insertVals := vals }

def intoTable (lex : List (Token D)) : Option (TableName × List (Token D)) :=
  if (next lex).1.type ≠ .INTO then none
  else if (next (next lex).2).1.type ≠ .IDENTIFIER then none
  else some (snprintf 64 nameSize_pos (next (next lex).2).1.lexeme.val, (next (next lex).2).2)

def afterColumns (lex : List (Token D)) : List (Token D) :=
  if (next lex).1.type = .LPAREN then (next ((next lex).2.dropWhile (isNot .RPAREN))).2 else lex

def listedValues (lex : List (Token D)) : List (Token D) :=
  if (next lex).1.type = .LPAREN then
    ((next lex).2.takeWhile (isNot .RPAREN)).filter (isNot .COMMA)
  else []

def valueTokens (lex : List (Token D)) : List (Token D) :=
  let lex := afterColumns lex
  listedValues (if (next lex).1.type = .VALUES then (next lex).2 else lex)

/-- The array of values after the parse: the given ones over the old contents. -/
def storedVals (given : List (Token D)) (old : ℕ → CStr 256) (i : ℕ) : CStr 256 :=
  match (given.take MAX_COLUMNS)[i]? with
  | some t => snprintf 256 textSize_pos t.lexeme.val
  | none => old i

omit [CDouble D] in
theorem storedVals_given {given : List (Token D)} {i : ℕ} (hi : i < given.length)
    (hcol : i < MAX_COLUMNS) (old old' : ℕ → CStr 256) :
    storedVals given old i = storedVals given old' i := by
  have hget : (given.take MAX_COLUMNS)[i]? = some given[i] := by
    rw [List.getElem?_take, if_pos hcol, List.getElem?_eq_getElem hi]
  unfold storedVals
  rw [hget]

omit [CDouble D] in
theorem storedVals_left {given : List (Token D)} {i : ℕ} (hi : given.length ≤ i)
    (old : ℕ → CStr 256) : storedVals given old i = old i := by
  have hget : (given.take MAX_COLUMNS)[i]? = none := by
    apply List.getElem?_eq_none
    rw [List.length_take]
    omega
  unfold storedVals
  rw [hget]

section Parse
variable {q : ParsedQuery D} {cols : ℕ → CStr 64} {vals : ℕ → CStr 256} {lex : List (Token D)}

theorem parseTail_withInserts {q' : ParsedQuery D} (lex : List (Token D))
    (h : q' = withInserts q cols vals) :
    parseTail lex q' = ((parseTail lex q).1, withInserts (parseTail lex q).2 cols vals) := by
  subst h
  unfold parseTail
  split
  · rfl
  · rfl

theorem parseSelect_withInserts {q' : ParsedQuery D} (lex : List (Token D))
    (h : q' = withInserts q cols vals) :
    parseSelect lex q' = ((parseSelect lex q).1, withInserts (parseSelect lex q).2 cols vals) := by
  subst h
  unfold parseSelect
  split
  · rfl
  · split
    · rfl
    · dsimp only
      exact parseTail_withInserts _ rfl

theorem parseUpdate_withInserts {q' : ParsedQuery D} (lex : List (Token D))
    (h : q' = withInserts q cols vals) :
    parseUpdate lex q' = ((parseUpdate lex q).1, withInserts (parseUpdate lex q).2 cols vals) := by
  subst h
  have hval : ∀ (val : Token D) (q q' : ParsedQuery D), q' = withInserts q cols vals →
      setUpdateVal val q' = withInserts (setUpdateVal val q) cols vals := by
    intro val q q' h
    subst h
    unfold setUpdateVal
    dsimp only
    split
    · rfl
    · rfl
  unfold parseUpdate
  dsimp only
  split
  · rfl
  · split
    · rfl
    · split
      · rfl
      · exact parseTail_withInserts _ (hval _ _ _ rfl)

theorem parseDelete_withInserts {q' : ParsedQuery D} (lex : List (Token D))
    (h : q' = withInserts q cols vals) :
    parseDelete lex q' = ((parseDelete lex q).1, withInserts (parseDelete lex q).2 cols vals) := by
  subst h
  unfold parseDelete
  dsimp only
  generalize (if (next lex).1.type = TokenType.FROM then (next lex).2 else lex) = lex'
  split
  · rfl
  · exact parseTail_withInserts _ rfl

omit [CDouble D] in
/-- The column loop changes the column array and its counter only. -/
theorem addInsertCols_eq (toks : List (Token D)) (q : ParsedQuery D) :
    ∃ cols n, toks.foldl addInsertCol q = { q with insertCols := cols, insertColCount := n } := by
  induction toks generalizing q with
  | nil => exact ⟨q.insertCols, q.insertColCount, rfl⟩
  | cons t toks ih =>
    rw [List.foldl_cons]
    obtain ⟨cols, n, heq⟩ := ih (addInsertCol q t)
    refine ⟨cols, n, heq.trans ?_⟩
    unfold addInsertCol
    split
    · rfl
    · rfl

omit [CDouble D] in
/-- The value loop from value `k` on. -/
theorem addInsertVals_eq (toks : List (Token D)) (k : ℕ) (q : ParsedQuery D) :
    (toks.foldl addInsertVal (k, q)).2 = { q with insertVals := fun i =>
      match ((toks.filter (isNot .COMMA)).take (MAX_COLUMNS - k))[i - k]? with
      | some t => if k ≤ i then snprintf 256 (by decide) t.lexeme.val else q.insertVals i
      | none => q.insertVals i } := by
  induction toks generalizing k q with
  | nil => simp
  | cons t toks ih =>
    rw [List.foldl_cons]
    by_cases hcomma : t.type = .COMMA
    · rw [addInsertVal, if_neg (by simp [hcomma]), ih,
        List.filter_cons_of_neg (by simp [isNot, hcomma])]
    · rw [List.filter_cons_of_pos (by simp [isNot, hcomma])]
      by_cases hk : k < MAX_COLUMNS
      · obtain ⟨room, hroom⟩ : ∃ room, MAX_COLUMNS - k = room + 1 :=
          ⟨MAX_COLUMNS - k - 1, by omega⟩
        have hrest : MAX_COLUMNS - (k + 1) = room := by omega
        rw [addInsertVal, if_pos ⟨hcomma, hk⟩, ih, hroom, hrest, List.take_succ_cons]
        congr 1
        funext i
        rcases Nat.lt_trichotomy i k with hlt | rfl | hgt
        · have hzero : i - k = 0 := by omega
          have hle : ¬ k ≤ i := by omega
          have hle' : ¬ k + 1 ≤ i := by omega
          simp only [hzero, List.getElem?_cons_zero, if_neg hle, if_neg hle',
            Function.update_of_ne (show i ≠ k by omega)]
          split <;> rfl
        · have hle : ¬ i + 1 ≤ i := by omega
          simp only [Nat.sub_self, List.getElem?_cons_zero, if_neg hle, le_refl, if_true,
            Function.update_self]
          split <;> rfl
        · obtain ⟨j, rfl⟩ : ∃ j, i = k + 1 + j := ⟨i - (k + 1), by omega⟩
          have hsub : k + 1 + j - k = j + 1 := by omega
          have hle : k ≤ k + 1 + j := by omega
          simp only [hsub, List.getElem?_cons_succ, Nat.add_sub_cancel_left,
            if_pos hle, if_pos (Nat.le_add_right (k + 1) j),
            Function.update_of_ne (show k + 1 + j ≠ k by omega)]
      · have hnone : MAX_COLUMNS - k = 0 := by omega
        rw [addInsertVal, if_neg (by simp [hk]), ih, hnone, List.take_zero, List.take_zero]

theorem parseColumns_eq (lex : List (Token D)) (q : ParsedQuery D) :
    ∃ cols n, parseColumns lex q =
      ({ q with insertCols := cols, insertColCount := n }, afterColumns lex) := by
  unfold parseColumns afterColumns
  split
  · obtain ⟨cols, n, hcols⟩ := addInsertCols_eq ((next lex).2.takeWhile (isNot .RPAREN)) q
    exact ⟨cols, n, by rw [hcols]⟩
  · exact ⟨q.insertCols, q.insertColCount, rfl⟩

theorem parseValues_eq (lex : List (Token D)) (q : ParsedQuery D) :
    parseValues lex q =
      { q with insertVals := storedVals (listedValues lex) q.insertVals } := by
  unfold parseValues listedValues storedVals
  split
  · rw [addInsertVals_eq]
    simp
  · simp

/-- An INSERT parses if it names a table, and then stores the values it gives. -/
theorem parseInsert_eq (lex : List (Token D)) (q : ParsedQuery D) :
    (intoTable lex = none ∧ (parseInsert lex q).1 = false) ∨
      ∃ name rest cols n, intoTable lex = some (name, rest) ∧
        parseInsert lex q = (true, { q with
          tableName := name, insertCols := cols, insertColCount := n,
          insertVals := storedVals (valueTokens rest) q.insertVals }) := by
  unfold parseInsert intoTable
  by_cases hinto : (next lex).1.type = .INTO
  · by_cases hname : (next (next lex).2).1.type = .IDENTIFIER
    · rw [if_neg (not_not.mpr hinto), if_neg (not_not.mpr hname), if_neg (not_not.mpr hinto)]
      dsimp only
      rw [if_neg (not_not.mpr hname)]
      refine Or.inr ?_
      generalize next (next lex).2 = named
      obtain ⟨cols, n, hcols⟩ := parseColumns_eq named.2
        { q with tableName := snprintf 64 (by decide) named.1.lexeme.val }
      refine ⟨_, _, cols, n, rfl, ?_⟩
      rw [hcols]
      dsimp only
      rw [parseValues_eq]
      rfl
    · rw [if_neg (not_not.mpr hinto), if_pos hname, if_neg (not_not.mpr hinto)]
      dsimp only
      rw [if_pos hname]
      exact Or.inl ⟨rfl, rfl⟩
  · rw [if_pos hinto, if_pos hinto]
    exact Or.inl ⟨rfl, rfl⟩

variable (lex) in
/-- What the parse of an INSERT leaves to the executor. -/
theorem parseTokens_insert (hinsert : (next lex).1.type = .INSERT) (out : ParsedQuery D) :
    (intoTable (next lex).2 = none ∧ (parseTokens lex out).1 = false) ∨
      ∃ name rest, intoTable (next lex).2 = some (name, rest) ∧
        (parseTokens lex out).1 = true ∧ (parseTokens lex out).2.type = .INSERT ∧
        (parseTokens lex out).2.tableName = name ∧
        (parseTokens lex out).2.insertVals = storedVals (valueTokens rest) out.insertVals := by
  have hparse : parseTokens lex out =
      parseInsert (next lex).2 { reset out with type := .INSERT } := by
    simp only [parseTokens, hinsert]
  rw [hparse]
  rcases parseInsert_eq (next lex).2 { reset out with type := .INSERT } with
    hnone | ⟨name, rest, cols, n, hsome, heq⟩
  · exact Or.inl hnone
  · refine Or.inr ⟨name, rest, hsome, ?_⟩
    rw [heq]
    exact ⟨rfl, rfl, rfl, rfl⟩

theorem parseTail_type (lex : List (Token D)) (q : ParsedQuery D) :
    (parseTail lex q).2.type = q.type := by
  unfold parseTail
  split
  · rfl
  · rfl

theorem parseSelect_type (lex : List (Token D)) (q : ParsedQuery D) :
    (parseSelect lex q).2.type = q.type := by
  unfold parseSelect
  split
  · rfl
  · split
    · rfl
    · exact parseTail_type _ _

theorem parseUpdate_type (lex : List (Token D)) (q : ParsedQuery D) :
    (parseUpdate lex q).2.type = q.type := by
  unfold parseUpdate
  dsimp only
  split
  · rfl
  · split
    · rfl
    · split
      · rfl
      · rw [parseTail_type]
        unfold setUpdateVal
        dsimp only
        split
        · rfl
        · rfl

theorem parseDelete_type (lex : List (Token D)) (q : ParsedQuery D) :
    (parseDelete lex q).2.type = q.type := by
  unfold parseDelete
  dsimp only
  generalize (if (next lex).1.type = TokenType.FROM then (next lex).2 else lex) = lex'
  split
  · rfl
  · exact parseTail_type _ _

/-- Any other statement is parsed to the same query over the contents of the arrays. -/
theorem parseTokens_other (hinsert : (next lex).1.type ≠ .INSERT) (out : ParsedQuery D) :
    parseTokens lex out = ((parseTokens lex ParsedQuery.zeroed).1,
        withInserts (parseTokens lex (ParsedQuery.zeroed : ParsedQuery D)).2 out.insertCols
          out.insertVals) ∧
      (parseTokens lex (ParsedQuery.zeroed : ParsedQuery D)).2.type ≠ .INSERT := by
  unfold parseTokens
  dsimp only
  split
  · refine ⟨parseSelect_withInserts _ rfl, ?_⟩
    rw [parseSelect_type]
    exact QueryType.noConfusion
  · contradiction
  · refine ⟨parseUpdate_withInserts _ rfl, ?_⟩
    rw [parseUpdate_type]
    exact QueryType.noConfusion
  · refine ⟨parseDelete_withInserts _ rfl, ?_⟩
    rw [parseDelete_type]
    exact QueryType.noConfusion
  · exact ⟨rfl, QueryType.noConfusion⟩

end Parse

end NanoDB.LeftoverValues
