import Mathlib.Data.List.Basic
import Mathlib.Data.Nat.Notation

/-!
Programs on arrays and stacks with every access checked. An index outside its array, a pop
or peek of an empty stack and a loop that has used up its rounds end the run with a fault.
A run without a fault is proved by the rules for the two kinds of loops.
-/
namespace CheckedProgram

inductive Fault
  | index
  | emptyStack
  | rounds
deriving DecidableEq

abbrev Run (α : Type) := Except Fault α

variable {α σ : Type}

/-- `a[i]`. -/
def load (a : List α) (i : ℕ) : Run α :=
  match a[i]? with
  | some v => .ok v
  | none => .error .index

/-- `a[i] = v`. -/
def store (a : List α) (i : ℕ) (v : α) : Run (List α) :=
  if i < a.length then .ok (a.set i v) else .error .index

def touch (size i : ℕ) : Run Unit := if i < size then .ok () else .error .index

/-- `a[n++] = v` where the list is the filled part of an array of `size` entries. -/
def push (size : ℕ) (a : List α) (v : α) : Run (List α) := do
  touch size a.length
  return a ++ [v]

def peek (stack : List α) : Run α :=
  match stack with
  | top :: _ => .ok top
  | [] => .error .emptyStack

def pop (stack : List α) : Run (α × List α) :=
  match stack with
  | top :: rest => .ok (top, rest)
  | [] => .error .emptyStack

/-- `while (cond) body`, with a number of rounds that must do. -/
def whileLoop (cond : σ → Run Bool) (body : σ → Run σ) : ℕ → σ → Run σ
  | 0, _ => .error .rounds
  | fuel + 1, s => do
    let go ← cond s
    if go then
      let s' ← body s
      whileLoop cond body fuel s'
    else return s

/-- `for (i = 0; i < n; ++i) body`. -/
def forLoop (n : ℕ) (body : σ → ℕ → Run σ) (s : σ) : Run σ := (List.range n).foldlM body s

@[simp] theorem ok_bind {β : Type} (a : α) (f : α → Run β) : ((.ok a : Run α) >>= f) = f a := rfl

theorem load_of_get {a : List α} {i : ℕ} {v : α} (h : a[i]? = some v) : load a i = .ok v := by
  rw [load, h]

theorem store_of_lt {a : List α} {i : ℕ} (h : i < a.length) (v : α) :
    store a i v = .ok (a.set i v) := if_pos h

theorem touch_of_lt {size i : ℕ} (h : i < size) : touch size i = .ok () := if_pos h

theorem push_of_lt {size : ℕ} {a : List α} (h : a.length < size) (v : α) :
    push size a v = .ok (a ++ [v]) := by
  rw [push, touch_of_lt h]
  rfl

/-- A loop whose rounds keep an invariant and lower its bound ends, in any number of rounds
above the bound, in a state of the invariant that fails the condition. -/
theorem whileLoop_ok {cond : σ → Run Bool} {body : σ → Run σ} (I : ℕ → σ → Prop)
    (hstep : ∀ n s, I n s → cond s = .ok false ∨
      ∃ s' m, cond s = .ok true ∧ body s = .ok s' ∧ I m s' ∧ m < n)
    {fuel n : ℕ} {s : σ} (hs : I n s) (hfuel : n < fuel) :
    ∃ s' m, whileLoop cond body fuel s = .ok s' ∧ I m s' ∧ cond s' = .ok false := by
  induction fuel generalizing n s with
  | zero => omega
  | succ fuel ih =>
    rw [whileLoop]
    rcases hstep n s hs with hcond | ⟨s', m, hcond, hbody, hs', hm⟩
    · rw [hcond]
      exact ⟨s, n, rfl, hs, hcond⟩
    · rw [hcond]
      simp only [ok_bind, if_true, hbody]
      exact ih hs' (by omega)

/-- A loop whose rounds do not change what is to come out yields that. -/
theorem whileLoop_eq {cond : σ → Run Bool} {body : σ → Run σ} (I : σ → Prop) (rank : σ → ℕ)
    (result : σ → σ)
    (hstep : ∀ s, I s → (cond s = .ok false ∧ result s = s) ∨
      ∃ s', cond s = .ok true ∧ body s = .ok s' ∧ I s' ∧ rank s' < rank s ∧ result s' = result s)
    {fuel : ℕ} {s : σ} (hs : I s) (hfuel : rank s < fuel) :
    whileLoop cond body fuel s = .ok (result s) := by
  have hend : ∃ s' m, whileLoop cond body fuel s = .ok s' ∧
      (I s' ∧ rank s' = m ∧ result s' = result s) ∧ cond s' = .ok false := by
    refine whileLoop_ok (fun n s' => I s' ∧ rank s' = n ∧ result s' = result s) ?_
      ⟨hs, rfl, rfl⟩ hfuel
    rintro n s' ⟨hs', rfl, hresult⟩
    rcases hstep s' hs' with ⟨hcond, -⟩ | ⟨s'', hcond, hbody, hs'', hrank, hsame⟩
    · exact Or.inl hcond
    · exact Or.inr ⟨s'', rank s'', hcond, hbody, ⟨hs'', rfl, hsame.trans hresult⟩, hrank⟩
  obtain ⟨s', m, hrun, ⟨hs', -, hresult⟩, hcond⟩ := hend
  rw [hrun, ← hresult]
  rcases hstep s' hs' with ⟨-, hdone⟩ | ⟨s'', hgo, -⟩
  · rw [hdone]
  · rw [hcond] at hgo
    contradiction

/-- A counted loop goes from one state to the next. -/
theorem forLoop_eq {n : ℕ} {body : σ → ℕ → Run σ} (state : ℕ → σ)
    (hstep : ∀ i, i < n → body (state i) i = .ok (state (i + 1))) :
    forLoop n body (state 0) = .ok (state n) := by
  induction n with
  | zero => rfl
  | succ n ih =>
    have hfirst := ih fun i hi => hstep i (by omega)
    unfold forLoop at hfirst ⊢
    rw [List.range_succ, List.foldlM_append, hfirst, ok_bind, List.foldlM_cons, hstep n (by omega)]
    rfl

/-- Copying a part of an array behind what another one holds, entry by entry. -/
theorem forLoop_copy {size n start : ℕ} {src : List α} (buf : List α) (hn : buf.length + n ≤ size)
    (hsrc : start + n ≤ src.length) :
    forLoop n (fun buf i => load src (start + i) >>= push size buf) buf =
      .ok (buf ++ (src.drop start).take n) := by
  have hrun : forLoop n (fun buf i => load src (start + i) >>= push size buf)
      (buf ++ (src.drop start).take 0) = .ok (buf ++ (src.drop start).take n) := by
    refine forLoop_eq (fun i => buf ++ (src.drop start).take i) fun i hi => ?_
    have hget : src[start + i]? = some (src.get ⟨start + i, by omega⟩) :=
      List.getElem?_eq_getElem (by omega)
    have hlen : (buf ++ (src.drop start).take i).length = buf.length + i := by
      rw [List.length_append, List.length_take, List.length_drop]
      omega
    rw [load_of_get hget, ok_bind, push_of_lt (by omega), List.take_add_one, List.getElem?_drop,
      hget, List.append_assoc]
    rfl
  rwa [List.take_zero, List.append_nil] at hrun

end CheckedProgram
