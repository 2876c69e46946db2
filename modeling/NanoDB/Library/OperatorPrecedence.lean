import Mathlib.Data.List.Perm.Basic
import Mathlib.Data.Nat.Notation

/-!
Infix expressions over operators of several precedences, all left associative, with
parentheses. `Infix` is the ambiguous grammar, `Derives` the one tree it means,
`yard` the shunting-yard translation and `exec` the stack evaluation of its output.
The translation is the post-order of the tree, and evaluating it is evaluating the tree.
-/
namespace OperatorPrecedence

inductive Kind
  | operand
  | op (prec : ℕ)
  | lparen
  | rparen
  | other
deriving DecidableEq

inductive Tree (τ : Type)
  | leaf (t : τ)
  | node (o : τ) (left right : Tree τ)

variable {τ V : Type}

def Tree.post : Tree τ → List τ
  | leaf t => [t]
  | node o left right => left.post ++ right.post ++ [o]

def Tree.eval (leafVal : τ → V) (opVal : τ → V → V → V) : Tree τ → V
  | leaf t => leafVal t
  | node o left right => opVal o (left.eval leafVal opVal) (right.eval leafVal opVal)

variable (kind : τ → Kind)

/-- The well-formed expressions, with no say on how operators group. -/
inductive Infix : List τ → Prop
  | atom {t : τ} (ht : kind t = .operand) : Infix [t]
  | paren {l r : τ} {ts : List τ} (hl : kind l = .lparen) (hr : kind r = .rparen)
      (hts : Infix ts) : Infix (l :: ts ++ [r])
  | binary {o : τ} {p : ℕ} {ts us : List τ} (ho : kind o = .op p) (hts : Infix ts)
      (hus : Infix us) : Infix (ts ++ o :: us)

/-- The tree of an expression whose operators outside parentheses all bind at least
as tightly as `p`; operators of one precedence group to the left. -/
inductive Derives : ℕ → List τ → Tree τ → Prop
  | leaf (p : ℕ) {t : τ} (ht : kind t = .operand) : Derives p [t] (.leaf t)
  | paren (p : ℕ) {l r : τ} {ts : List τ} {e : Tree τ} (hl : kind l = .lparen)
      (hr : kind r = .rparen) (hts : Derives 0 ts e) : Derives p (l :: ts ++ [r]) e
  | binary {p q : ℕ} {o : τ} {ts us : List τ} {e f : Tree τ} (ho : kind o = .op q)
      (hle : p ≤ q) (hts : Derives q ts e) (hus : Derives (q + 1) us f) :
      Derives p (ts ++ o :: us) (.node o e f)

/-- Pop the operators that bind at least as tightly as `p`. -/
def reduce (p : ℕ) : List τ → List τ → List τ × List τ
  | [], out => ([], out)
  | t :: stack, out =>
    match kind t with
    | .op q => if p ≤ q then reduce p stack (out ++ [t]) else (t :: stack, out)
    | _ => (t :: stack, out)

/-- Pop up to the nearest left parenthesis and discard it. -/
def close : List τ → List τ → List τ × List τ
  | [], out => ([], out)
  | t :: stack, out => if kind t = .lparen then (stack, out) else close stack (out ++ [t])

def shunt (s : List τ × List τ) (t : τ) : List τ × List τ :=
  match kind t with
  | .operand => (s.1, s.2 ++ [t])
  | .lparen => (t :: s.1, s.2)
  | .rparen => close kind s.1 s.2
  | .op p => (t :: (reduce kind p s.1 s.2).1, (reduce kind p s.1 s.2).2)
  | .other => s

def yard (ts : List τ) : List τ :=
  (ts.foldl (shunt kind) ([], [])).2 ++ (ts.foldl (shunt kind) ([], [])).1

/-- Run a postfix sequence on a value stack; an operator without two operands fails,
and what is neither operand nor operator is skipped. -/
def exec (leafVal : τ → V) (opVal : τ → V → V → V) : List τ → List V → Option (List V)
  | [], stack => some stack
  | t :: ts, stack =>
    match kind t with
    | .operand => exec leafVal opVal ts (leafVal t :: stack)
    | .op _ =>
      match stack with
      | right :: left :: rest => exec leafVal opVal ts (opVal t left right :: rest)
      | _ => none
    | _ => exec leafVal opVal ts stack

def isTerm (t : τ) : Bool := kind t ≠ .lparen && kind t ≠ .rparen

section Existence
variable {kind}

/-- A part of an expression that binds tighter than every operator. -/
def Atomic (kind : τ → Kind) (ts : List τ) : Prop := ∀ p, ∃ e, Derives kind p ts e

inductive Flat (kind : τ → Kind) : List τ → Prop
  | atom {ts : List τ} (hts : Atomic kind ts) : Flat kind ts
  | snoc {o : τ} {p : ℕ} {ts us : List τ} (ho : kind o = .op p) (hts : Flat kind ts)
      (hus : Atomic kind us) : Flat kind (ts ++ o :: us)

theorem Derives.mono {p q : ℕ} {ts : List τ} {e : Tree τ} (h : Derives kind p ts e)
    (hle : q ≤ p) : Derives kind q ts e := by
  cases h with
  | leaf _ ht => exact .leaf q ht
  | paren _ hl hr hts => exact .paren q hl hr hts
  | binary ho hpq hts hus => exact .binary ho (Nat.le_trans hle hpq) hts hus

/-- One more operator and atom on the right go to their place on the right spine. -/
theorem Derives.snoc {p q : ℕ} {o : τ} {ts us : List τ} {e : Tree τ} (h : Derives kind p ts e)
    (ho : kind o = .op q) (hle : p ≤ q) (hus : Atomic kind us) :
    ∃ f, Derives kind p (ts ++ o :: us) f := by
  obtain ⟨g, hg⟩ := hus (q + 1)
  induction h with
  | leaf p ht => exact ⟨_, .binary ho hle (.leaf q ht) hg⟩
  | paren p hl hr hts _ => exact ⟨_, .binary ho hle (.paren q hl hr hts) hg⟩
  | @binary p q' o' ts vs e f ho' hle' hts hvs _ ih =>
    by_cases hq : q ≤ q'
    · exact ⟨_, .binary ho hle (.binary ho' hq hts hvs) hg⟩
    · obtain ⟨f', hf'⟩ := ih (by omega)
      refine ⟨.node o' e f', ?_⟩
      rw [List.append_assoc, List.cons_append]
      exact .binary ho' hle' hts hf'

theorem Flat.derives {ts : List τ} (h : Flat kind ts) : ∃ e, Derives kind 0 ts e := by
  induction h with
  | atom hts => exact hts 0
  | snoc ho _ hus ih =>
    obtain ⟨e, he⟩ := ih
    exact he.snoc ho (Nat.zero_le _) hus

theorem Flat.join {o : τ} {p : ℕ} {ts us : List τ} (ho : kind o = .op p) (hts : Flat kind ts)
    (hus : Flat kind us) : Flat kind (ts ++ o :: us) := by
  induction hus with
  | atom hus => exact .snoc ho hts hus
  | @snoc o' p' us vs ho' _ hvs ih =>
    have hassoc : ts ++ o :: (us ++ o' :: vs) = (ts ++ o :: us) ++ o' :: vs := by simp
    rw [hassoc]
    exact .snoc ho' ih hvs

theorem Infix.flat {ts : List τ} (h : Infix kind ts) : Flat kind ts := by
  induction h with
  | atom ht => exact .atom fun p => ⟨_, .leaf p ht⟩
  | paren hl hr _ ih =>
    obtain ⟨e, he⟩ := ih.derives
    exact .atom fun p => ⟨e, .paren p hl hr he⟩
  | binary ho _ _ ihts ihus => exact Flat.join ho ihts ihus

/-- Every well-formed expression has a tree. -/
theorem Infix.derives {ts : List τ} (h : Infix kind ts) : ∃ e, Derives kind 0 ts e :=
  h.flat.derives

theorem Derives.toInfix {p : ℕ} {ts : List τ} {e : Tree τ} (h : Derives kind p ts e) :
    Infix kind ts := by
  induction h with
  | leaf _ ht => exact .atom ht
  | paren _ hl hr _ ih => exact .paren hl hr ih
  | binary ho _ _ _ ihts ihus => exact .binary ho ihts ihus

end Existence

section Translation
variable {kind}

/-- The stack top leaves an operator of precedence `p` alone. -/
def Below (kind : τ → Kind) (p : ℕ) : List τ → Prop
  | [] => True
  | t :: _ => kind t = .lparen ∨ ∃ q, kind t = .op q ∧ q < p

theorem Below.mono {p q : ℕ} {stack : List τ} (h : Below kind p stack) (hle : p ≤ q) :
    Below kind q stack := by
  cases stack with
  | nil => trivial
  | cons t stack =>
    rcases h with hl | ⟨r, ht, hr⟩
    · exact Or.inl hl
    · exact Or.inr ⟨r, ht, by omega⟩

def Tight (kind : τ → Kind) (p : ℕ) (ops : List τ) : Prop :=
  ∀ t ∈ ops, ∃ q, kind t = .op q ∧ p ≤ q

theorem reduce_tight {p : ℕ} {ops stack : List τ} (hops : Tight kind p ops)
    (hstack : Below kind p stack) (out : List τ) :
    reduce kind p (ops ++ stack) out = (stack, out ++ ops) := by
  induction ops generalizing out with
  | nil =>
    cases stack with
    | nil => simp [reduce]
    | cons t stack =>
      rcases hstack with hl | ⟨q, ht, hq⟩
      · simp [reduce, hl]
      · simp [reduce, ht, Nat.not_le.mpr hq]
  | cons t ops ih =>
    obtain ⟨q, ht, hq⟩ := hops t (by simp)
    simp only [List.cons_append, reduce, ht, if_pos hq]
    rw [ih (fun u hu => hops u (List.mem_cons_of_mem t hu))]
    simp

theorem close_tight {p : ℕ} {ops stack : List τ} {l : τ} (hops : Tight kind p ops)
    (hl : kind l = .lparen) (out : List τ) :
    close kind (ops ++ l :: stack) out = (stack, out ++ ops) := by
  induction ops generalizing out with
  | nil => simp [close, hl]
  | cons t ops ih =>
    obtain ⟨q, ht, -⟩ := hops t (by simp)
    simp only [List.cons_append, close, ht, reduceCtorEq, if_false]
    rw [ih (fun u hu => hops u (List.mem_cons_of_mem t hu))]
    simp

/-- Reading an expression leaves a run of its operators on the stack; output and run
together are the post-order of its tree. -/
theorem Derives.shunt {p : ℕ} {ts : List τ} {e : Tree τ} (h : Derives kind p ts e)
    (stack out : List τ) (hstack : Below kind p stack) :
    ∃ ops o, ts.foldl (shunt kind) (stack, out) = (ops ++ stack, out ++ o) ∧
      o ++ ops = e.post ∧ Tight kind p ops := by
  induction h generalizing stack out with
  | leaf p ht => exact ⟨[], [_], by simp [OperatorPrecedence.shunt, ht], rfl, by simp [Tight]⟩
  | @paren p l r ts e hl hr _ ih =>
    obtain ⟨ops, o, hrun, hpost, htight⟩ := ih (l :: stack) out (Or.inl hl)
    refine ⟨[], o ++ ops, ?_, by simp [hpost], by simp [Tight]⟩
    have hopen : OperatorPrecedence.shunt kind (stack, out) l = (l :: stack, out) := by
      simp [OperatorPrecedence.shunt, hl]
    rw [List.cons_append, List.foldl_cons, List.foldl_append, hopen, hrun]
    simp only [List.foldl_cons, List.foldl_nil, OperatorPrecedence.shunt, hr]
    rw [close_tight htight hl]
    simp
  | @binary p q o ts us e f ho hle _ _ ihts ihus =>
    obtain ⟨ops₁, o₁, hrun₁, hpost₁, htight₁⟩ := ihts stack out (hstack.mono hle)
    obtain ⟨ops₂, o₂, hrun₂, hpost₂, htight₂⟩ :=
      ihus (o :: stack) (out ++ e.post) (Or.inr ⟨q, ho, Nat.lt_succ_self q⟩)
    refine ⟨ops₂ ++ [o], e.post ++ o₂, ?_, ?_, ?_⟩
    · have hop : OperatorPrecedence.shunt kind (ops₁ ++ stack, out ++ o₁) o =
          (o :: stack, out ++ e.post) := by
        simp only [OperatorPrecedence.shunt, ho]
        rw [reduce_tight htight₁ (hstack.mono hle), List.append_assoc, hpost₁]
      rw [List.foldl_append, List.foldl_cons, hrun₁, hop, hrun₂]
      simp
    · rw [Tree.post, ← hpost₂]
      simp
    · intro t ht
      rcases List.mem_append.mp ht with ht | ht
      · obtain ⟨r, hr, hqr⟩ := htight₂ t ht
        exact ⟨r, hr, by omega⟩
      · obtain rfl := List.mem_singleton.mp ht
        exact ⟨q, ho, hle⟩

/-- The translation of an expression is the post-order of its tree. -/
theorem Derives.yard_eq {p : ℕ} {ts : List τ} {e : Tree τ} (h : Derives kind p ts e) :
    yard kind ts = e.post := by
  obtain ⟨ops, o, hrun, hpost, -⟩ := h.shunt [] [] trivial
  rw [yard, hrun, ← hpost]
  simp

theorem Tree.post_length_ne_zero (e : Tree τ) : e.post.length ≠ 0 := by
  cases e <;> simp [Tree.post]

/-- The tokens a tree is made of: everything but the parentheses. -/
theorem Derives.post_perm {p : ℕ} {ts : List τ} {e : Tree τ} (h : Derives kind p ts e) :
    e.post.Perm (ts.filter (isTerm kind)) := by
  induction h with
  | leaf _ ht => simp [Tree.post, isTerm, ht]
  | paren _ hl hr _ ih => simpa [isTerm, hl, hr] using ih
  | @binary p q o ts us e f ho _ _ _ ihts ihus =>
    rw [Tree.post, List.append_assoc, List.filter_append,
      List.filter_cons_of_pos (by simp [isTerm, ho])]
    refine ihts.append ?_
    exact (List.perm_append_comm.trans (ihus.cons o))

theorem Derives.post_length_le {p : ℕ} {ts : List τ} {e : Tree τ} (h : Derives kind p ts e) :
    e.post.length ≤ ts.length := by
  rw [h.post_perm.length_eq]
  exact List.length_filter_le _ ts

end Translation

section Evaluation
variable {kind}

def WellKinded (kind : τ → Kind) : Tree τ → Prop
  | .leaf t => kind t = .operand
  | .node o left right => (∃ p, kind o = .op p) ∧ WellKinded kind left ∧ WellKinded kind right

theorem Derives.wellKinded {p : ℕ} {ts : List τ} {e : Tree τ} (h : Derives kind p ts e) :
    WellKinded kind e := by
  induction h with
  | leaf _ ht => exact ht
  | paren _ _ _ _ ih => exact ih
  | binary ho _ _ _ ihts ihus => exact ⟨⟨_, ho⟩, ihts, ihus⟩

/-- Evaluating a post-order pushes the value of its tree. -/
theorem exec_post (kind : τ → Kind) (leafVal : τ → V) (opVal : τ → V → V → V) (e : Tree τ)
    (h : WellKinded kind e) (rest : List τ) (stack : List V) :
    exec kind leafVal opVal (e.post ++ rest) stack =
      exec kind leafVal opVal rest (e.eval leafVal opVal :: stack) := by
  induction e generalizing rest stack with
  | leaf t =>
    have ht : kind t = .operand := h
    simp [Tree.post, exec, ht, Tree.eval]
  | node o left right ihl ihr =>
    obtain ⟨⟨p, ho⟩, hl, hr⟩ := h
    rw [Tree.post, List.append_assoc, List.append_assoc, ihl hl, ihr hr]
    simp [exec, ho, Tree.eval]

/-- A tree is determined by its post-order. -/
theorem post_injective {e f : Tree τ} (he : WellKinded kind e) (hf : WellKinded kind f)
    (heq : e.post = f.post) : e = f := by
  have hrebuild : ∀ g : Tree τ, g.eval Tree.leaf Tree.node = g := by
    intro g
    induction g with
    | leaf t => rfl
    | node o left right ihl ihr => rw [Tree.eval, ihl, ihr]
  have hexec := exec_post kind Tree.leaf Tree.node e he [] []
  rw [heq, exec_post kind Tree.leaf Tree.node f hf, exec, exec, hrebuild, hrebuild] at hexec
  simpa using hexec.symm

/-- An expression has one tree only. -/
theorem Derives.unique {p q : ℕ} {ts : List τ} {e f : Tree τ} (he : Derives kind p ts e)
    (hf : Derives kind q ts f) : e = f :=
  post_injective he.wellKinded hf.wellKinded (he.yard_eq.symm.trans hf.yard_eq)

end Evaluation

section Expansion
variable {σ : Type} {kind} {kind' : σ → Kind} {head : σ → τ} {tokens : σ → List τ}
  {tree : σ → Tree τ}

def Tree.expand (head : σ → τ) (tree : σ → Tree τ) : Tree σ → Tree τ
  | leaf s => tree s
  | node o left right => node (head o) (left.expand head tree) (right.expand head tree)

theorem Tree.eval_expand (leafVal : τ → V) (opVal : τ → V → V → V) (e : Tree σ) :
    (e.expand head tree).eval leafVal opVal =
      e.eval (fun s => (tree s).eval leafVal opVal) (fun o => opVal (head o)) := by
  induction e with
  | leaf s => rfl
  | node o left right ihl ihr => rw [expand, eval, ihl, ihr, eval]

/-- An operand may be written as a part that binds tighter than every operator; any other
entry is one token of its kind. -/
structure Expands (kind : τ → Kind) (kind' : σ → Kind) (head : σ → τ) (tokens : σ → List τ)
    (tree : σ → Tree τ) : Prop where
  operand : ∀ s, kind' s = .operand → ∀ p, Derives kind p (tokens s) (tree s)
  single : ∀ s, kind' s ≠ .operand → kind' s ≠ .other →
    tokens s = [head s] ∧ kind (head s) = kind' s

/-- Writing out the operands of an expression expands its tree. -/
theorem Derives.expand (hx : Expands kind kind' head tokens tree) {p : ℕ} {ss : List σ}
    {e : Tree σ} (h : Derives kind' p ss e) :
    Derives kind p (ss.flatMap tokens) (e.expand head tree) := by
  induction h with
  | leaf p ht =>
    rw [List.flatMap_singleton]
    exact hx.operand _ ht p
  | @paren p l r ts e hl hr _ ih =>
    obtain ⟨hltok, hlkind⟩ := hx.single l (by rw [hl]; exact nofun) (by rw [hl]; exact nofun)
    obtain ⟨hrtok, hrkind⟩ := hx.single r (by rw [hr]; exact nofun) (by rw [hr]; exact nofun)
    rw [List.flatMap_append, List.flatMap_cons, List.flatMap_singleton, hltok, hrtok]
    exact .paren p (hlkind.trans hl) (hrkind.trans hr) ih
  | @binary p q o ts us e f ho hle _ _ ihts ihus =>
    obtain ⟨hotok, hokind⟩ := hx.single o (by rw [ho]; exact nofun) (by rw [ho]; exact nofun)
    rw [List.flatMap_append, List.flatMap_cons, hotok]
    exact .binary (hokind.trans ho) hle ihts ihus

/-- Only the values of the operands matter. -/
theorem Derives.eval_congr {p : ℕ} {ts : List τ} {e : Tree τ} (h : Derives kind p ts e)
    {leafVal leafVal' : τ → V} (opVal : τ → V → V → V)
    (hleaf : ∀ t ∈ ts, kind t = .operand → leafVal t = leafVal' t) :
    e.eval leafVal opVal = e.eval leafVal' opVal := by
  induction h with
  | leaf _ ht => exact hleaf _ (by simp) ht
  | paren _ _ _ _ ih => exact ih fun t ht => hleaf t (by simp [ht])
  | binary _ _ _ _ ihts ihus =>
    rw [Tree.eval, Tree.eval, ihts fun t ht => hleaf t (by simp [ht]),
      ihus fun t ht => hleaf t (by simp [ht])]

theorem Infix.kind_ne_other {ts : List τ} (h : Infix kind ts) : ∀ t ∈ ts, kind t ≠ .other := by
  induction h with
  | atom ht =>
    intro t hmem
    rw [List.mem_singleton.mp hmem, ht]
    exact nofun
  | paren hl hr _ ih =>
    intro t hmem
    simp only [List.cons_append, List.mem_cons, List.mem_append, List.not_mem_nil, or_false] at hmem
    rcases hmem with rfl | hmem | rfl
    · rw [hl]
      exact nofun
    · exact ih t hmem
    · rw [hr]
      exact nofun
  | binary ho _ _ ihts ihus =>
    intro t hmem
    rcases List.mem_append.mp hmem with hmem | hmem
    · exact ihts t hmem
    · rcases List.mem_cons.mp hmem with rfl | hmem
      · rw [ho]
        exact nofun
      · exact ihus t hmem

end Expansion

section Counting

def isOp (t : τ) : Bool :=
  match kind t with
  | .op _ => true
  | _ => false

def isOperand (t : τ) : Bool := kind t = .operand

variable {kind}

/-- A class of tokens that the translation moves but never drops. -/
def Kept (kind : τ → Kind) (P : τ → Bool) : Prop :=
  ∀ t, P t = true → kind t = .operand ∨ ∃ p, kind t = .op p

theorem kept_isOp : Kept kind (isOp kind) := by
  intro t ht
  unfold isOp at ht
  split at ht
  · rename_i p hp
    exact Or.inr ⟨p, hp⟩
  · cases ht

theorem kept_isOperand : Kept kind (isOperand kind) := fun _ ht => Or.inl (of_decide_eq_true ht)

variable (kind) in
theorem countP_reduce (P : τ → Bool) (p : ℕ) (stack out : List τ) :
    (reduce kind p stack out).1.countP P + (reduce kind p stack out).2.countP P =
      stack.countP P + out.countP P := by
  induction stack generalizing out with
  | nil => rfl
  | cons t stack ih =>
    rw [reduce]
    split
    · split
      · rw [ih]
        simp only [List.countP_append, List.countP_cons, List.countP_nil]
        omega
      · rfl
    · rfl

theorem countP_close {P : τ → Bool} (hP : Kept kind P) (stack out : List τ) :
    (close kind stack out).1.countP P + (close kind stack out).2.countP P =
      stack.countP P + out.countP P := by
  induction stack generalizing out with
  | nil => rfl
  | cons t stack ih =>
    rw [close]
    split
    · rename_i hl
      have ht : ¬ P t = true := by
        intro ht
        rcases hP t ht with hk | ⟨p, hk⟩ <;> rw [hl] at hk <;> cases hk
      rw [List.countP_cons_of_neg ht]
    · rw [ih]
      simp only [List.countP_append, List.countP_cons, List.countP_nil]
      omega

theorem countP_shunt {P : τ → Bool} (hP : Kept kind P) (s : List τ × List τ) (t : τ) :
    (shunt kind s t).1.countP P + (shunt kind s t).2.countP P =
      s.1.countP P + s.2.countP P + [t].countP P := by
  have hother : (∀ p, kind t ≠ .op p) → kind t ≠ .operand → [t].countP P = 0 := by
    intro hop hoperand
    refine List.countP_eq_zero.mpr fun u hu hPu => ?_
    rw [List.mem_singleton.mp hu] at hPu
    rcases hP t hPu with hk | ⟨p, hk⟩
    · exact hoperand hk
    · exact hop p hk
  unfold shunt
  cases hk : kind t with
  | operand =>
    simp only [List.countP_append]
    omega
  | op p =>
    have hreduce := countP_reduce kind P p s.1 s.2
    simp only [List.countP_cons (a := t), List.countP_nil]
    omega
  | lparen =>
    have hzero := hother (by simp [hk]) (by simp [hk])
    simp only [List.countP_cons, List.countP_nil] at hzero ⊢
    omega
  | rparen =>
    have hclose := countP_close hP s.1 s.2
    have hzero := hother (by simp [hk]) (by simp [hk])
    dsimp only
    omega
  | other =>
    have hzero := hother (by simp [hk]) (by simp [hk])
    dsimp only
    omega

/-- Operands and operators reach the output, also of a text that is no expression. -/
theorem countP_yard {P : τ → Bool} (hP : Kept kind P) (ts : List τ) :
    (yard kind ts).countP P = ts.countP P := by
  have hrun : ∀ s : List τ × List τ, (ts.foldl (shunt kind) s).1.countP P +
      (ts.foldl (shunt kind) s).2.countP P = s.1.countP P + s.2.countP P + ts.countP P := by
    induction ts with
    | nil => exact fun _ => rfl
    | cons t ts ih =>
      intro s
      have hstep := countP_shunt hP s t
      have hsplit : ([t] ++ ts).countP P = [t].countP P + ts.countP P := List.countP_append
      rw [List.singleton_append] at hsplit
      rw [List.foldl_cons, ih, hsplit]
      omega
  have hempty := hrun ([], [])
  rw [yard, List.countP_append]
  simpa [Nat.add_comm] using hempty

theorem close_length_le (stack out : List τ) :
    (close kind stack out).1.length + (close kind stack out).2.length ≤
      stack.length + out.length := by
  induction stack generalizing out with
  | nil => exact Nat.le_refl _
  | cons t stack ih =>
    rw [close]
    split
    · simp only [List.length_cons]
      omega
    · have hrest := ih (out ++ [t])
      rw [List.length_append, List.length_singleton] at hrest
      rw [List.length_cons]
      omega

variable (kind) in
theorem shunt_length_le (s : List τ × List τ) (t : τ) :
    (shunt kind s t).1.length + (shunt kind s t).2.length ≤ s.1.length + s.2.length + 1 := by
  unfold shunt
  cases kind t with
  | operand => simp only [List.length_append, List.length_singleton]; omega
  | op p =>
    have hreduce := countP_reduce kind (fun _ => true) p s.1 s.2
    simp only [List.countP_true] at hreduce
    simp only [List.length_cons]
    omega
  | lparen => simp only [List.length_cons]; omega
  | rparen => exact Nat.le_succ_of_le (close_length_le s.1 s.2)
  | other => exact Nat.le_succ _

/-- Every token is written once at most. -/
theorem yard_length_le (ts : List τ) : (yard kind ts).length ≤ ts.length := by
  have hrun : ∀ s : List τ × List τ, (ts.foldl (shunt kind) s).1.length +
      (ts.foldl (shunt kind) s).2.length ≤ s.1.length + s.2.length + ts.length := by
    induction ts with
    | nil => exact fun _ => Nat.le_refl _
    | cons t ts ih =>
      intro s
      have hstep := shunt_length_le kind s t
      have hrest := ih (shunt kind s t)
      rw [List.foldl_cons, List.length_cons]
      omega
  have hempty := hrun ([], [])
  rw [yard, List.length_append, Nat.add_comm]
  simpa using hempty

/-- What is no part of an expression is not seen. -/
theorem yard_filter (ts : List τ) :
    yard kind (ts.filter fun t => kind t ≠ .other) = yard kind ts := by
  have hskip : ∀ (s : List τ × List τ) t, kind t = .other → shunt kind s t = s := by
    intro s t ht
    unfold shunt
    rw [ht]
  have hrun : ∀ s : List τ × List τ,
      (ts.filter fun t => kind t ≠ .other).foldl (shunt kind) s = ts.foldl (shunt kind) s := by
    induction ts with
    | nil => exact fun _ => rfl
    | cons t ts ih =>
      intro s
      by_cases ht : kind t = .other
      · rw [List.filter_cons_of_neg (by simp [ht]), List.foldl_cons, hskip s t ht, ih]
      · rw [List.filter_cons_of_pos (by simp [ht]), List.foldl_cons, List.foldl_cons, ih]
  rw [yard, yard, hrun]

theorem Infix.countP_eq {ts : List τ} (h : Infix kind ts) :
    ts.countP (isOperand kind) = ts.countP (isOp kind) + 1 := by
  induction h with
  | atom ht => simp [isOperand, isOp, ht]
  | paren hl hr _ ih => simpa [isOperand, isOp, hl, hr] using ih
  | binary ho _ _ ihts ihus =>
    simp only [List.countP_append, List.countP_cons, ihts, ihus]
    simp [isOperand, isOp, ho]
    omega

/-- Every operator takes one value off the stack. -/
theorem exec_length {leafVal : τ → V} {opVal : τ → V → V → V} {ts : List τ} {stack result : List V}
    (h : exec kind leafVal opVal ts stack = some result) :
    result.length + ts.countP (isOp kind) = stack.length + ts.countP (isOperand kind) ∧
      (0 < stack.length + ts.countP (isOp kind) → 0 < result.length) := by
  induction ts generalizing stack with
  | nil =>
    obtain rfl : stack = result := by simpa [exec] using h
    exact ⟨rfl, fun hpos => hpos⟩
  | cons t ts ih =>
    rw [List.countP_cons, List.countP_cons]
    cases hk : kind t with
    | operand =>
      simp only [exec, hk] at h
      obtain ⟨hlen, hpos⟩ := ih h
      rw [List.length_cons] at hlen hpos
      simp only [isOp, isOperand, hk, decide_true, if_true]
      simp only [Bool.false_eq_true, if_false]
      omega
    | op p =>
      rcases stack with _ | ⟨right, _ | ⟨left, rest⟩⟩
      · simp [exec, hk] at h
      · simp [exec, hk] at h
      · simp only [exec, hk] at h
        obtain ⟨hlen, hpos⟩ := ih h
        rw [List.length_cons] at hlen hpos
        simp only [isOp, isOperand, hk, List.length_cons, if_true, reduceCtorEq, decide_false,
          Bool.false_eq_true, if_false]
        omega
    | lparen =>
      simp only [exec, hk] at h
      simpa [isOp, isOperand, hk] using ih h
    | rparen =>
      simp only [exec, hk] at h
      simpa [isOp, isOperand, hk] using ih h
    | other =>
      simp only [exec, hk] at h
      simpa [isOp, isOperand, hk] using ih h

/-- With as many operators as operands the evaluation runs out of values. -/
theorem exec_underflow {leafVal : τ → V} {opVal : τ → V → V → V} {ts : List τ}
    (hpos : 0 < ts.countP (isOp kind))
    (hle : ts.countP (isOperand kind) ≤ ts.countP (isOp kind)) :
    exec kind leafVal opVal ts [] = none := by
  cases hexec : exec kind leafVal opVal ts [] with
  | none => rfl
  | some result =>
    obtain ⟨hlen, hres⟩ := exec_length hexec
    rw [List.length_nil] at hlen hres
    have hresult := hres (by omega)
    omega

end Counting

end OperatorPrecedence
