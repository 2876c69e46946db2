import NanoDB.Parser

/-!
Where a statement keeps its WHERE clause. Each routine of the parser looks for WHERE
at one place only; a clause that stands anywhere else is dropped without an error.
-/
namespace NanoDB.WhereClause

open CTypes NanoDB.Parser

variable {D : Type}

/-- `JOIN table` parts, each with the text of its condition. The token after `JOIN`
is never looked at twice, whatever it is. -/
inductive Joins : List (Token D) → Prop
  | nil : Joins []
  | join {j x : Token D} {on rest : List (Token D)} (hj : j.type = .JOIN)
      (hon : ∀ t ∈ on, t.type ≠ .JOIN ∧ t.type ≠ .WHERE ∧ t.type ≠ .SEMICOLON)
      (hrest : Joins rest) : Joins (j :: x :: (on ++ rest))

inductive Head : List (Token D) → Prop
  | select {s f t : Token D} {cols : List (Token D)} (hs : s.type = .SELECT)
      (hcols : ∀ c ∈ cols, c.type ≠ .FROM) (hf : f.type = .FROM) (ht : t.type = .IDENTIFIER) :
      Head (s :: (cols ++ [f, t]))
  | insert {s i t : Token D} (hs : s.type = .INSERT) (hi : i.type = .INTO)
      (ht : t.type = .IDENTIFIER) : Head [s, i, t]
  | update {s t : Token D} (hs : s.type = .UPDATE) (ht : t.type = .IDENTIFIER) : Head [s, t]
  | deleteFrom {s f t : Token D} (hs : s.type = .DELETE) (hf : f.type = .FROM)
      (ht : t.type = .IDENTIFIER) : Head [s, f, t]
  | delete {s t : Token D} (hs : s.type = .DELETE) (ht : t.type = .IDENTIFIER) : Head [s, t]

/-- The statements the parser accepts: a complete head, and for an UPDATE a complete
`SET column`. -/
inductive Accepted : List (Token D) → Prop
  | select {s f t : Token D} {cols rest : List (Token D)} (hs : s.type = .SELECT)
      (hcols : ∀ c ∈ cols, c.type ≠ .FROM) (hf : f.type = .FROM) (ht : t.type = .IDENTIFIER) :
      Accepted (s :: (cols ++ f :: t :: rest))
  | insert {s i t : Token D} {rest : List (Token D)} (hs : s.type = .INSERT)
      (hi : i.type = .INTO) (ht : t.type = .IDENTIFIER) : Accepted (s :: i :: t :: rest)
  | update {s t e c : Token D} {rest : List (Token D)} (hs : s.type = .UPDATE)
      (ht : t.type = .IDENTIFIER) (he : e.type = .SET) (hc : c.type = .IDENTIFIER) :
      Accepted (s :: t :: e :: c :: rest)
  | deleteFrom {s f t : Token D} {rest : List (Token D)} (hs : s.type = .DELETE)
      (hf : f.type = .FROM) (ht : t.type = .IDENTIFIER) : Accepted (s :: f :: t :: rest)
  | delete {s t : Token D} {rest : List (Token D)} (hs : s.type = .DELETE)
      (ht : t.type = .IDENTIFIER) : Accepted (s :: t :: rest)

/-- The tokens in front of a WHERE that the parser finds: a SELECT with its joins, an
UPDATE with exactly one assignment of exactly one token, a DELETE. -/
inductive Place : List (Token D) → Prop
  | select {s f t : Token D} {cols joins : List (Token D)} (hs : s.type = .SELECT)
      (hcols : ∀ c ∈ cols, c.type ≠ .FROM) (hf : f.type = .FROM) (ht : t.type = .IDENTIFIER)
      (hjoins : Joins joins) : Place (s :: (cols ++ f :: t :: joins))
  | update {s t e c a v : Token D} (hs : s.type = .UPDATE) (ht : t.type = .IDENTIFIER)
      (he : e.type = .SET) (hc : c.type = .IDENTIFIER) : Place [s, t, e, c, a, v]
  | deleteFrom {s f t : Token D} (hs : s.type = .DELETE) (hf : f.type = .FROM)
      (ht : t.type = .IDENTIFIER) : Place [s, f, t]
  | delete {s t : Token D} (hs : s.type = .DELETE) (ht : t.type = .IDENTIFIER) : Place [s, t]

def HasWhereToken (ts : List (Token D)) : Prop :=
  ∃ head mid w rest, ts = head ++ mid ++ w :: rest ∧ Head head ∧ w.type = .WHERE ∧
    ∀ t ∈ head ++ mid, t.type ≠ .SEMICOLON

def WherePlaced (ts : List (Token D)) : Prop :=
  ∃ pre w rest, ts = pre ++ w :: rest ∧ w.type = .WHERE ∧ Place pre

theorem dropWhile_from {lex : List (Token D)} {f : Token D} {rest : List (Token D)} :
    (lex.dropWhile fun t => t.type ≠ .FROM) = f :: rest ↔
      ∃ cols, lex = cols ++ f :: rest ∧ (∀ c ∈ cols, c.type ≠ .FROM) ∧ f.type = .FROM := by
  constructor
  · intro h
    have hsplit := @List.takeWhile_append_dropWhile _ (fun t : Token D => t.type ≠ .FROM) lex
    rw [h] at hsplit
    refine ⟨_, hsplit.symm, ?_, ?_⟩
    · intro c hc
      simpa using List.mem_takeWhile_imp hc
    · have hhead := List.head?_dropWhile_not (fun t : Token D => t.type ≠ .FROM) lex
      rw [h] at hhead
      simpa using hhead
  · rintro ⟨cols, rfl, hcols, hf⟩
    rw [List.dropWhile_append_of_pos (by simpa using hcols)]
    simp [hf]

section JoinLoop
variable {names : List (CStr 64)}

theorem parseJoins_skip {on lex : List (Token D)}
    (hon : ∀ t ∈ on, t.type ≠ .JOIN ∧ t.type ≠ .WHERE ∧ t.type ≠ .SEMICOLON) :
    parseJoins .on (on ++ lex) names = parseJoins .on lex names := by
  induction on with
  | nil => rfl
  | cons t on ih =>
    obtain ⟨hj, hw, hs⟩ := hon t (by simp)
    rw [List.cons_append, parseJoins, if_neg hj, if_neg (by simp [hw, hs])]
    exact ih fun u hu => hon u (List.mem_cons_of_mem t hu)

/-- After complete joins the loop stops at WHERE, be it at its test or at the end of
a join condition. -/
theorem Joins.found {js : List (Token D)} (h : Joins js) {w : Token D} {rest : List (Token D)}
    (hw : w.type = .WHERE) (names : List (CStr 64)) :
    (parseJoins .head (js ++ w :: rest) names).2 = w :: rest ∧
      (parseJoins .on (js ++ w :: rest) names).2 = w :: rest := by
  induction h generalizing names with
  | nil => simp [parseJoins, hw]
  | @join j x on js hj hon _ ih =>
    have hloop : (parseJoins .name (x :: (on ++ js) ++ w :: rest) names).2 = w :: rest := by
      rw [List.cons_append, parseJoins, List.append_assoc, parseJoins_skip hon]
      exact (ih (addJoin x names)).2
    constructor
    · rw [List.cons_append, parseJoins, if_pos hj]
      exact hloop
    · rw [List.cons_append, parseJoins, if_pos hj]
      exact hloop

def BeforeWhere (state : JoinState) (lex : List (Token D)) : Prop :=
  match state with
  | .head => Joins lex
  | .name => ∃ j, j.type = TokenType.JOIN ∧ Joins (j :: lex)
  | .on => ∃ j x, j.type = TokenType.JOIN ∧ Joins (j :: x :: lex)

theorem Joins.cons_join {j x t : Token D} {lex : List (Token D)} (hj : j.type = .JOIN)
    (hskip : t.type ≠ .JOIN ∧ t.type ≠ .WHERE ∧ t.type ≠ .SEMICOLON)
    (h : Joins (j :: x :: lex)) : Joins (j :: x :: t :: lex) := by
  cases h with
  | @join _ _ on rest _ hon hrest =>
    refine @Joins.join D _ _ (t :: on) _ hj ?_ hrest
    intro u hu
    rcases List.mem_cons.mp hu with rfl | hu
    · exact hskip
    · exact hon u hu

theorem parseJoins_beforeWhere (lex : List (Token D)) (state : JoinState)
    (names : List (CStr 64)) {w : Token D} {rest : List (Token D)}
    (h : (parseJoins state lex names).2 = w :: rest) :
    ∃ before, lex = before ++ w :: rest ∧ BeforeWhere state before := by
  induction lex generalizing state names with
  | nil => cases state <;> simp [parseJoins] at h
  | cons t lex ih =>
    cases state with
    | head =>
      by_cases hj : t.type = .JOIN
      · rw [parseJoins, if_pos hj] at h
        obtain ⟨before, rfl, j, hj', hjoins⟩ := ih .name names h
        refine ⟨t :: before, rfl, ?_⟩
        cases hjoins with
        | join _ hon hrest => exact .join hj hon hrest
      · rw [parseJoins, if_neg hj] at h
        exact ⟨[], h, .nil⟩
    | name =>
      rw [parseJoins] at h
      obtain ⟨before, rfl, j, x, hj, hjoins⟩ := ih .on _ h
      refine ⟨t :: before, rfl, j, hj, ?_⟩
      cases hjoins with
      | join _ hon hrest => exact .join hj hon hrest
    | on =>
      by_cases hj : t.type = .JOIN
      · rw [parseJoins, if_pos hj] at h
        obtain ⟨before, rfl, j, hj', hjoins⟩ := ih .name names h
        refine ⟨t :: before, rfl, t, t, hj, ?_⟩
        refine @Joins.join D _ _ [] _ hj (by simp) ?_
        cases hjoins with
        | join _ hon hrest => exact .join hj hon hrest
      · rw [parseJoins, if_neg hj] at h
        by_cases hstop : t.type = .WHERE ∨ t.type = .SEMICOLON
        · rw [if_pos hstop] at h
          exact ⟨[], h, { w with type := .JOIN }, w, rfl, @Joins.join D _ _ [] _ rfl (by simp) .nil⟩
        · rw [if_neg hstop] at h
          rw [not_or] at hstop
          obtain ⟨before, rfl, j, x, hj', hjoins⟩ := ih .on names h
          exact ⟨t :: before, rfl, j, x, hj', hjoins.cons_join hj' ⟨hj, hstop.1, hstop.2⟩⟩

end JoinLoop

theorem foldl_addInsertCol_hasWhere (ts : List (Token D)) (q : ParsedQuery D) :
    (ts.foldl addInsertCol q).hasWhere = q.hasWhere := by
  induction ts generalizing q with
  | nil => rfl
  | cons t ts ih =>
    rw [List.foldl_cons, ih, addInsertCol]
    split <;> rfl

theorem foldl_addInsertVal_hasWhere (ts : List (Token D)) (s : ℕ × ParsedQuery D) :
    (ts.foldl addInsertVal s).2.hasWhere = s.2.hasWhere := by
  induction ts generalizing s with
  | nil => rfl
  | cons t ts ih =>
    rw [List.foldl_cons, ih, addInsertVal]
    split <;> rfl

variable [CDouble D]

theorem next_cons (t : Token D) (lex : List (Token D)) : next (t :: lex) = (t, lex) := rfl

theorem next_nil : (next ([] : List (Token D))).1.type = .END_OF_INPUT := rfl

/-- A token of a kind other than `END_OF_INPUT` is the first of the list. -/
theorem next_type {lex : List (Token D)} {ty : TokenType} (h : (next lex).1.type = ty)
    (hty : ty ≠ .END_OF_INPUT) : ∃ t rest, lex = t :: rest ∧ t.type = ty := by
  cases lex with
  | nil => exact absurd (next_nil.symm.trans h) hty.symm
  | cons t rest => exact ⟨t, rest, rfl, h⟩

theorem next_snd (lex : List (Token D)) : (next lex).2 = lex.drop 1 := by
  cases lex <;> rfl

section Statements
variable {out : ParsedQuery D}

theorem parseTail_true (lex : List (Token D)) (q : ParsedQuery D) : (parseTail lex q).1 = true := by
  unfold parseTail
  split <;> rfl

theorem parseTail_where {w : Token D} {rest : List (Token D)} (hw : w.type = .WHERE)
    (q : ParsedQuery D) : parseTail (w :: rest) q = parseWhere rest q := by
  rw [parseTail, next_cons, if_pos hw]

theorem parseTail_hasWhere (lex : List (Token D)) {q : ParsedQuery D} (hq : q.hasWhere = false) :
    (parseTail lex q).2.hasWhere = true ↔ ∃ w rest, lex = w :: rest ∧ w.type = .WHERE := by
  unfold parseTail
  split
  · rename_i hw
    obtain ⟨w, rest, rfl, hw⟩ := next_type hw (by decide)
    exact ⟨fun _ => ⟨w, rest, rfl, hw⟩, fun _ => rfl⟩
  · rename_i hw
    constructor
    · intro h
      rw [hq] at h
      contradiction
    · rintro ⟨w, rest, rfl, hw'⟩
      exact absurd hw' hw

/-- How the parser reads an accepted SELECT: the fields set so far, and the tokens at
whose front it looks for WHERE. -/
theorem parse_select {s f t : Token D} {cols : List (Token D)} (hs : s.type = .SELECT)
    (hcols : ∀ c ∈ cols, c.type ≠ .FROM) (hf : f.type = .FROM) (ht : t.type = .IDENTIFIER)
    (rest : List (Token D)) :
    parseTokens (s :: (cols ++ f :: t :: rest)) out =
      parseTail (parseJoins .head rest []).2
        { reset out with
          type := .SELECT
          tableName := snprintf 64 (by decide) t.lexeme.val
          joinTables := (parseJoins .head rest []).1 } := by
  have hdrop : (cols ++ f :: t :: rest).dropWhile (fun t => t.type ≠ .FROM) = f :: t :: rest :=
    dropWhile_from.mpr ⟨cols, rfl, hcols, hf⟩
  simp only [parseTokens, next_cons, hs, parseSelect, hdrop, ht, ne_eq, not_true_eq_false,
    if_false]
  rfl

theorem parse_insert (out : ParsedQuery D) {s i t : Token D} (hs : s.type = .INSERT)
    (hi : i.type = .INTO) (ht : t.type = .IDENTIFIER) (rest : List (Token D)) :
    ∃ lex, parseTokens (s :: i :: t :: rest) out =
      (true, parseValues lex (parseColumns rest
        { reset out with
          type := .INSERT
          tableName := snprintf 64 (by decide) t.lexeme.val }).1) := by
  simp only [parseTokens, next_cons, hs, parseInsert, hi, ht, ne_eq, not_true_eq_false, if_false]
  exact ⟨_, rfl⟩

theorem parse_update (out : ParsedQuery D) {s t e c : Token D} (hs : s.type = .UPDATE)
    (ht : t.type = .IDENTIFIER)
    (he : e.type = .SET) (hc : c.type = .IDENTIFIER) (rest : List (Token D)) :
    parseTokens (s :: t :: e :: c :: rest) out =
      parseTail (rest.drop 2) (setUpdateVal (next (rest.drop 1)).1
        { reset out with
          type := .UPDATE
          tableName := snprintf 64 (by decide) t.lexeme.val
          updateCol := snprintf 64 (by decide) c.lexeme.val }) := by
  simp only [parseTokens, next_cons, hs, parseUpdate, ht, he, hc, ne_eq, not_true_eq_false,
    if_false, next_snd, List.drop_drop]

theorem parse_deleteFrom {s f t : Token D} (hs : s.type = .DELETE) (hf : f.type = .FROM)
    (ht : t.type = .IDENTIFIER) (rest : List (Token D)) :
    parseTokens (s :: f :: t :: rest) out = parseTail rest
      { reset out with
        type := .DELETE
        tableName := snprintf 64 (by decide) t.lexeme.val } := by
  simp only [parseTokens, next_cons, hs, parseDelete, hf, ht, ne_eq, not_true_eq_false,
    if_true, if_false]

theorem parse_delete {s t : Token D} (hs : s.type = .DELETE) (ht : t.type = .IDENTIFIER)
    (rest : List (Token D)) :
    parseTokens (s :: t :: rest) out = parseTail rest
      { reset out with
        type := .DELETE
        tableName := snprintf 64 (by decide) t.lexeme.val } := by
  simp only [parseTokens, next_cons, hs, parseDelete, ht, ne_eq, not_true_eq_false, reduceCtorEq,
    if_false]

theorem setUpdateVal_hasWhere (val : Token D) (q : ParsedQuery D) :
    (setUpdateVal val q).hasWhere = q.hasWhere := by
  unfold setUpdateVal
  dsimp only
  split <;> rfl

/-- No INSERT ever gets a WHERE clause. -/
theorem insert_hasWhere (lex rest : List (Token D)) (q : ParsedQuery D) :
    (parseValues lex (parseColumns rest q).1).hasWhere = q.hasWhere := by
  have hcolumns : (parseColumns rest q).1.hasWhere = q.hasWhere := by
    unfold parseColumns
    split
    · exact foldl_addInsertCol_hasWhere _ q
    · rfl
  unfold parseValues
  split
  · rw [foldl_addInsertVal_hasWhere]
    exact hcolumns
  · exact hcolumns

/-- A routine that goes on past a kind test had a token of that kind to read. -/
theorem of_guard {lex : List (Token D)} {ty : TokenType} {q : ParsedQuery D}
    {r : Bool × ParsedQuery D} (hty : ty ≠ .END_OF_INPUT)
    (h : (if (next lex).1.type ≠ ty then (false, q) else r).1 = true) :
    (∃ t rest, lex = t :: rest ∧ t.type = ty) ∧ r.1 = true := by
  by_cases hne : (next lex).1.type ≠ ty
  · rw [if_pos hne] at h
    contradiction
  · rw [if_neg hne] at h
    exact ⟨next_type (not_not.mp hne) hty, h⟩

theorem accepted_of_parseSelect {s : Token D} (hs : s.type = .SELECT) {lex : List (Token D)}
    {q : ParsedQuery D} (h : (parseSelect lex q).1 = true) : Accepted (s :: lex) := by
  unfold parseSelect at h
  split at h
  · contradiction
  · rename_i f lex' hdrop
    obtain ⟨cols, rfl, hcols, hf⟩ := dropWhile_from.mp hdrop
    obtain ⟨⟨t, rest, rfl, ht⟩, -⟩ := of_guard (by decide) h
    exact .select hs hcols hf ht

theorem accepted_of_parseInsert {s : Token D} (hs : s.type = .INSERT) {lex : List (Token D)}
    {q : ParsedQuery D} (h : (parseInsert lex q).1 = true) : Accepted (s :: lex) := by
  obtain ⟨⟨i, lex', rfl, hi⟩, h⟩ := of_guard (by decide) h
  obtain ⟨⟨t, rest, rfl, ht⟩, -⟩ := of_guard (by decide) h
  exact .insert hs hi ht

theorem accepted_of_parseUpdate {s : Token D} (hs : s.type = .UPDATE) {lex : List (Token D)}
    {q : ParsedQuery D} (h : (parseUpdate lex q).1 = true) : Accepted (s :: lex) := by
  obtain ⟨⟨t, lex', rfl, ht⟩, h⟩ := of_guard (by decide) h
  obtain ⟨⟨e, lex'', rfl, he⟩, h⟩ := of_guard (by decide) h
  obtain ⟨⟨c, rest, rfl, hc⟩, -⟩ := of_guard (by decide) h
  exact .update hs ht he hc

theorem accepted_of_parseDelete {s : Token D} (hs : s.type = .DELETE) {lex : List (Token D)}
    {q : ParsedQuery D} (h : (parseDelete lex q).1 = true) : Accepted (s :: lex) := by
  unfold parseDelete at h
  by_cases hf : (next lex).1.type = .FROM
  · rw [if_pos hf] at h
    obtain ⟨f, lex', rfl, hf⟩ := next_type hf (by decide)
    obtain ⟨⟨t, rest, rfl, ht⟩, -⟩ := of_guard (by decide) h
    exact .deleteFrom hs hf ht
  · rw [if_neg hf] at h
    obtain ⟨⟨t, rest, rfl, ht⟩, -⟩ := of_guard (by decide) h
    exact .delete hs ht

/-- A statement is accepted exactly when it has a complete head. -/
theorem parse_true_iff (ts : List (Token D)) (out : ParsedQuery D) :
    (parseTokens ts out).1 = true ↔ Accepted ts := by
  constructor
  · intro h
    unfold parseTokens at h
    dsimp only at h
    split at h
    · rename_i hs
      obtain ⟨s, lex, rfl, hs⟩ := next_type hs (by decide)
      exact accepted_of_parseSelect hs h
    · rename_i hs
      obtain ⟨s, lex, rfl, hs⟩ := next_type hs (by decide)
      exact accepted_of_parseInsert hs h
    · rename_i hs
      obtain ⟨s, lex, rfl, hs⟩ := next_type hs (by decide)
      exact accepted_of_parseUpdate hs h
    · rename_i hs
      obtain ⟨s, lex, rfl, hs⟩ := next_type hs (by decide)
      exact accepted_of_parseDelete hs h
    · contradiction
  · intro h
    cases h with
    | select hs hcols hf ht => rw [parse_select hs hcols hf ht, parseTail_true]
    | insert hs hi ht =>
      obtain ⟨lex, heq⟩ := parse_insert out hs hi ht _
      rw [heq]
    | update hs ht he hc => rw [parse_update out hs ht he hc, parseTail_true]
    | deleteFrom hs hf ht => rw [parse_deleteFrom hs hf ht, parseTail_true]
    | delete hs ht => rw [parse_delete hs ht, parseTail_true]

/-- A WHERE at its place is read as the clause. -/
theorem Place.parse {pre : List (Token D)} (h : Place pre) {w : Token D} (hw : w.type = .WHERE)
    (rest : List (Token D)) (out : ParsedQuery D) :
    ∃ q, parseTokens (pre ++ w :: rest) out = parseWhere rest q := by
  cases h with
  | @select s f t cols joins hs hcols hf ht hjoins =>
    have hsplit : s :: (cols ++ f :: t :: joins) ++ w :: rest =
        s :: (cols ++ f :: t :: (joins ++ w :: rest)) := by simp
    rw [hsplit, parse_select hs hcols hf ht, (hjoins.found hw []).1, parseTail_where hw]
    exact ⟨_, rfl⟩
  | @update s t e c a v hs ht he hc =>
    have hparse := parse_update out hs ht he hc (a :: v :: w :: rest)
    exact ⟨_, hparse.trans (parseTail_where hw _)⟩
  | deleteFrom hs hf ht => exact ⟨_, (parse_deleteFrom hs hf ht _).trans (parseTail_where hw _)⟩
  | delete hs ht => exact ⟨_, (parse_delete hs ht _).trans (parseTail_where hw _)⟩

/-- Of an accepted statement the clause is kept exactly when WHERE is at its place. -/
theorem hasWhere_iff {ts : List (Token D)} (h : Accepted ts) (out : ParsedQuery D) :
    (parseTokens ts out).2.hasWhere = true ↔ WherePlaced ts := by
  constructor
  · intro hwhere
    cases h with
    | select hs hcols hf ht =>
      rw [parse_select hs hcols hf ht] at hwhere
      obtain ⟨w, rest', hlex, hw⟩ := (parseTail_hasWhere _ rfl).mp hwhere
      obtain ⟨joins, rfl, hjoins⟩ := parseJoins_beforeWhere _ .head [] hlex
      exact ⟨_, w, rest', by simp, hw, .select hs hcols hf ht hjoins⟩
    | insert hs hi ht =>
      obtain ⟨lex, heq⟩ := parse_insert out hs hi ht _
      rw [heq, insert_hasWhere] at hwhere
      contradiction
    | @update s t e c rest hs ht he hc =>
      rw [parse_update out hs ht he hc] at hwhere
      obtain ⟨w, rest', hlex, hw⟩ :=
        (parseTail_hasWhere _ (setUpdateVal_hasWhere _ _)).mp hwhere
      obtain ⟨a, v, rfl⟩ : ∃ a v, rest = a :: v :: w :: rest' := by
        match rest, hlex with
        | a :: v :: lex, hlex => exact ⟨a, v, by rw [← hlex]; rfl⟩
      exact ⟨[s, t, e, c, a, v], w, rest', rfl, hw, .update hs ht he hc⟩
    | @deleteFrom s f t rest hs hf ht =>
      rw [parse_deleteFrom hs hf ht] at hwhere
      obtain ⟨w, rest', rfl, hw⟩ := (parseTail_hasWhere _ rfl).mp hwhere
      exact ⟨[s, f, t], w, rest', rfl, hw, .deleteFrom hs hf ht⟩
    | @delete s t rest hs ht =>
      rw [parse_delete hs ht] at hwhere
      obtain ⟨w, rest', rfl, hw⟩ := (parseTail_hasWhere _ rfl).mp hwhere
      exact ⟨[s, t], w, rest', rfl, hw, .delete hs ht⟩
  · rintro ⟨pre, w, rest, rfl, hw, hplace⟩
    obtain ⟨q, heq⟩ := hplace.parse hw rest out
    rw [heq]
    rfl

end Statements

def KeepsWhere (sql : List Byte) (out : ParsedQuery D) : Prop :=
  (parse sql out).1 = true → HasWhereToken (Lexer.tokens (cstr sql) : List (Token D)) →
    (parse sql out).2.hasWhere = true

/-- The clause is kept exactly when WHERE stands at the one place where the parser
looks for it. -/
theorem keepsWhere_iff (sql : List Byte) (out : ParsedQuery D) :
    KeepsWhere sql out ↔
      (Accepted (Lexer.tokens (cstr sql) : List (Token D)) →
        HasWhereToken (Lexer.tokens (cstr sql) : List (Token D)) →
        WherePlaced (Lexer.tokens (cstr sql) : List (Token D))) := by
  have haccepted : (parse sql out).1 = true ↔ Accepted (Lexer.tokens (cstr sql)) :=
    parse_true_iff _ out
  unfold KeepsWhere
  rw [haccepted]
  constructor
  · intro h hacc htoken
    exact (hasWhere_iff hacc out).mp (h hacc htoken)
  · intro h hacc htoken
    exact (hasWhere_iff hacc out).mpr (h hacc htoken)

/-- An UPDATE to a negative number: `-5` is two tokens, so WHERE is not where the
parser looks and the statement changes every row. -/
theorem keepsWhere_update_negative :
    ¬ KeepsWhere (ascii "UPDATE orders SET o_custkey = -5 WHERE o_orderkey == 7")
      (ParsedQuery.zeroed : ParsedQuery ℤ) := by
  intro h
  have htokens : (Lexer.tokens (cstr (ascii
      "UPDATE orders SET o_custkey = -5 WHERE o_orderkey == 7")) : List (Token ℤ)) =
    [Token.ofLexeme .UPDATE (ascii "UPDATE"), Token.ofLexeme .IDENTIFIER (ascii "orders")] ++
      [Token.ofLexeme .SET (ascii "SET"), Token.ofLexeme .IDENTIFIER (ascii "o_custkey"),
        Token.ofLexeme .ASSIGN (ascii "="), Token.ofLexeme .MINUS (ascii "-"),
        ⟨.INTEGER, snprintf 256 (by decide) (ascii "5"), 5, 0⟩] ++
      Token.ofLexeme .WHERE (ascii "WHERE") ::
        [Token.ofLexeme .IDENTIFIER (ascii "o_orderkey"), Token.ofLexeme .EQ (ascii "=="),
          ⟨.INTEGER, snprintf 256 (by decide) (ascii "7"), 7, 0⟩] := by decide
  have hclause : HasWhereToken (Lexer.tokens (cstr (ascii
      "UPDATE orders SET o_custkey = -5 WHERE o_orderkey == 7")) : List (Token ℤ)) :=
    ⟨_, _, _, _, htokens, .update rfl rfl, rfl, by decide⟩
  exact absurd (h (by decide) hclause) (by decide)

end NanoDB.WhereClause
