import NanoDB.Library.OperatorPrecedence

/-!
What the shunting-yard translation can lose. Every token comes out at most once, and a
left parenthesis without a partner comes out too. So a well-formed expression that was
cut short before its translation is never translated whole.
-/
namespace OperatorPrecedence

variable {τ : Type} {kind : τ → Kind}

def tally (p : τ → Bool) (s : List τ × List τ) : ℕ := s.1.countP p + s.2.countP p

theorem tally_reduce (kind : τ → Kind) (p : τ → Bool) (q : ℕ) (stack out : List τ) :
    tally p (reduce kind q stack out) = tally p (stack, out) := by
  induction stack generalizing out with
  | nil => rfl
  | cons t stack ih =>
    rw [reduce]
    split
    · split
      · rw [ih]
        simp only [tally, List.countP_append, List.countP_cons, List.countP_nil]
        omega
      · rfl
    · rfl

theorem tally_close (kind : τ → Kind) (p : τ → Bool) (stack out : List τ) :
    tally p (close kind stack out) ≤ tally p (stack, out) ∧
      tally p (stack, out) ≤ tally p (close kind stack out) + 1 := by
  induction stack generalizing out with
  | nil => exact ⟨Nat.le_refl _, Nat.le_succ _⟩
  | cons t stack ih =>
    rw [close]
    split
    · simp only [tally, List.countP_cons]
      split <;> omega
    · have hmove : tally p (stack, out ++ [t]) = tally p (t :: stack, out) := by
        simp only [tally, List.countP_append, List.countP_cons, List.countP_nil]
        omega
      rw [← hmove]
      exact ih (out ++ [t])

def isLeft (kind : τ → Kind) (t : τ) : Bool := kind t = .lparen

def isRight (kind : τ → Kind) (t : τ) : Bool := kind t = .rparen

/-- A token comes in at most once. -/
theorem tally_shunt_le (kind : τ → Kind) (p : τ → Bool) (s : List τ × List τ) (t : τ) :
    tally p (shunt kind s t) ≤ tally p s + [t].countP p := by
  unfold shunt
  split
  · simp only [tally, List.countP_append]
    omega
  · simp only [tally, List.countP_cons, List.countP_nil]
    omega
  · exact Nat.le_trans (tally_close kind p s.1 s.2).1 (Nat.le_add_right _ _)
  · rename_i q _
    have hreduce := tally_reduce kind p q s.1 s.2
    simp only [tally, List.countP_cons, List.countP_nil] at hreduce ⊢
    omega
  · exact Nat.le_add_right _ _

/-- Only a right parenthesis removes a left one. -/
theorem tally_shunt_left (kind : τ → Kind) (s : List τ × List τ) (t : τ) :
    tally (isLeft kind) s + [t].countP (isLeft kind) ≤
      tally (isLeft kind) (shunt kind s t) + [t].countP (isRight kind) := by
  unfold shunt
  split
  · rename_i ht
    simp [tally, isLeft, isRight, ht]
  · rename_i ht
    simp only [tally, List.countP_cons, List.countP_nil, isRight, ht, reduceCtorEq, decide_false,
      Bool.false_eq_true, if_false]
    omega
  · rename_i ht
    have hclose := (tally_close kind (isLeft kind) s.1 s.2).2
    simp only [List.countP_cons, List.countP_nil, isLeft, isRight, ht] at hclose ⊢
    simpa using hclose
  · rename_i q ht
    have hreduce := tally_reduce kind (isLeft kind) q s.1 s.2
    simp only [tally, List.countP_cons, List.countP_nil] at hreduce ⊢
    simp only [isRight, ht, reduceCtorEq, decide_false, Bool.false_eq_true, if_false]
    omega
  · rename_i ht
    simp [isLeft, isRight, ht]

theorem tally_foldl (kind : τ → Kind) (ts : List τ) (s : List τ × List τ) :
    (∀ p, tally p (ts.foldl (shunt kind) s) ≤ tally p s + ts.countP p) ∧
      tally (isLeft kind) s + ts.countP (isLeft kind) ≤
        tally (isLeft kind) (ts.foldl (shunt kind) s) + ts.countP (isRight kind) := by
  induction ts generalizing s with
  | nil => simp
  | cons t ts ih =>
    obtain ⟨hle, hleft⟩ := ih (shunt kind s t)
    constructor
    · intro p
      have hstep := tally_shunt_le kind p s t
      have hrest := hle p
      simp only [List.foldl_cons, List.countP_cons, List.countP_nil] at hstep hrest ⊢
      omega
    · have hstep := tally_shunt_left kind s t
      simp only [List.foldl_cons, List.countP_cons, List.countP_nil] at hstep hleft ⊢
      omega

theorem countP_yard_le (kind : τ → Kind) (ts : List τ) (p : τ → Bool) :
    (yard kind ts).countP p ≤ ts.countP p := by
  have hle := (tally_foldl kind ts ([], [])).1 p
  simp only [tally, List.countP_nil] at hle
  rw [yard, List.countP_append]
  omega

theorem countP_left_le (kind : τ → Kind) (ts : List τ) :
    ts.countP (isLeft kind) ≤ (yard kind ts).countP (isLeft kind) + ts.countP (isRight kind) := by
  have hleft := (tally_foldl kind ts ([], [])).2
  simp only [tally, List.countP_nil] at hleft
  rw [yard, List.countP_append]
  omega

/-- A well-formed expression has as many left as right parentheses. -/
theorem Infix.balanced {ts : List τ} (h : Infix kind ts) :
    ts.countP (isLeft kind) = ts.countP (isRight kind) := by
  induction h with
  | atom ht => simp [isLeft, isRight, ht]
  | paren hl hr _ ih => simp [isLeft, isRight, hl, hr] at ih ⊢; omega
  | binary ho _ _ ihts ihus => simp [isLeft, isRight, ho] at ihts ihus ⊢; omega

theorem Infix.exists_operand {ts : List τ} (h : Infix kind ts) : ∃ t ∈ ts, kind t = .operand := by
  induction h with
  | atom ht => exact ⟨_, by simp, ht⟩
  | paren _ _ _ ih =>
    obtain ⟨t, ht, hk⟩ := ih
    exact ⟨t, by simp [ht], hk⟩
  | binary _ _ _ ih _ =>
    obtain ⟨t, ht, hk⟩ := ih
    exact ⟨t, by simp [ht], hk⟩

/-- Behind every left parenthesis there is an operand. -/
theorem Infix.operand_behind {ts : List τ} {l : τ} (h : Infix kind ts) (before after : List τ)
    (hsplit : ts = before ++ l :: after) (hl : kind l = .lparen) :
    ∃ t ∈ after, kind t = .operand := by
  induction h generalizing before after with
  | @atom t ht =>
    have hmem : l ∈ [t] := by rw [hsplit]; simp
    rw [List.mem_singleton.mp hmem, ht] at hl
    contradiction
  | @paren l' r ts hl' hr hts ih =>
    cases before with
    | nil =>
      obtain ⟨-, rfl⟩ := List.cons.inj hsplit
      obtain ⟨t, ht, hk⟩ := hts.exists_operand
      exact ⟨t, by simp [ht], hk⟩
    | cons b before =>
      obtain ⟨-, htail⟩ := List.cons.inj hsplit
      rcases after.eq_nil_or_concat' with rfl | ⟨after, x, rfl⟩
      · have hlast : r = l := by
          have heq := congrArg List.getLast? htail
          simpa using heq
        rw [← hlast, hr] at hl
        contradiction
      · have hinit : ts = before ++ l :: after := by
          have hassoc : ts ++ [r] = (before ++ l :: after) ++ [x] := by
            rw [List.append_assoc]
            exact htail
          exact List.append_inj_left' hassoc rfl
        obtain ⟨t, ht, hk⟩ := ih _ _ hinit
        exact ⟨t, by simp [ht], hk⟩
  | @binary o p ts us ho hts hus ihts ihus =>
    rcases List.append_eq_append_iff.mp hsplit with ⟨ws, hbefore, hus'⟩ | ⟨ws, hts', hafter⟩
    · cases ws with
      | nil =>
        obtain ⟨rfl, -⟩ := List.cons.inj hus'
        rw [ho] at hl
        contradiction
      | cons w ws =>
        obtain ⟨-, htail⟩ := List.cons.inj hus'
        exact ihus _ _ htail
    · cases ws with
      | nil =>
        obtain ⟨rfl, -⟩ := List.cons.inj hafter
        rw [ho] at hl
        contradiction
      | cons w ws =>
        obtain ⟨rfl, rfl⟩ := List.cons.inj hafter
        obtain ⟨t, ht, hk⟩ := ihts _ _ hts'
        exact ⟨t, by simp [ht], hk⟩

/-- An expression whose first `n` tokens translate to all its terms has no more than
`n` tokens. -/
theorem Infix.length_le_of_perm {ts : List τ} (h : Infix kind ts) (n : ℕ)
    (hperm : ((yard kind (ts.take n)).take n).Perm (ts.filter (isTerm kind))) :
    ts.length ≤ n := by
  by_contra hlong
  have hlen : (yard kind (ts.take n)).length ≤ n := by
    have hle := countP_yard_le kind (ts.take n) fun _ => true
    simp only [List.countP_true] at hle
    exact Nat.le_trans hle (List.length_take_le n ts)
  rw [List.take_of_length_le hlen] at hperm
  have hsplit := List.take_append_drop n ts
  have hterms : (ts.drop n).countP (isTerm kind) = 0 := by
    have hcount := hperm.countP_eq (isTerm kind)
    have hall : (ts.filter (isTerm kind)).countP (isTerm kind) = ts.countP (isTerm kind) := by
      rw [List.countP_filter]
      simp
    have hle := countP_yard_le kind (ts.take n) (isTerm kind)
    have hsum := congrArg (List.countP (isTerm kind)) hsplit
    rw [List.countP_append] at hsum
    omega
  have hparens : ∀ t ∈ ts.drop n, isTerm kind t = false := by
    intro t ht
    have hnot := List.countP_eq_zero.mp hterms t ht
    simpa using hnot
  have hnoleft : ∀ t ∈ ts.drop n, kind t ≠ .lparen := by
    intro t ht hl
    obtain ⟨before, after, hdrop⟩ := List.append_of_mem ht
    obtain ⟨u, hu, hk⟩ := h.operand_behind (ts.take n ++ before) after
      (by rw [List.append_assoc, ← hdrop, hsplit]) hl
    have huterm := hparens u (by rw [hdrop]; simp [hu])
    simp [isTerm, hk] at huterm
  have hdropleft : (ts.drop n).countP (isLeft kind) = 0 := by
    rw [List.countP_eq_zero]
    intro t ht
    simp [isLeft, hnoleft t ht]
  have hdropright : (ts.drop n).countP (isRight kind) = (ts.drop n).length := by
    rw [List.countP_eq_length]
    intro t ht
    have hparen := hparens t ht
    simpa [isTerm, isRight, hnoleft t ht] using hparen
  have hyard : (yard kind (ts.take n)).countP (isLeft kind) = 0 := by
    rw [hperm.countP_eq, List.countP_eq_zero]
    intro t ht
    have hterm := (List.mem_filter.mp ht).2
    simp only [isTerm, Bool.and_eq_true, decide_eq_true_eq] at hterm
    simp [isLeft, hterm.1]
  -- the right parentheses cut off have their partners among the tokens translated
  have hleft := countP_left_le kind (ts.take n)
  have hbalanced := h.balanced
  have hlsum := congrArg (List.countP (isLeft kind)) hsplit
  have hrsum := congrArg (List.countP (isRight kind)) hsplit
  rw [List.countP_append] at hlsum hrsum
  have hdrop := List.length_drop (i := n) (l := ts)
  omega

end OperatorPrecedence
