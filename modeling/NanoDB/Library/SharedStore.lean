import Mathlib.Data.List.Basic
import Mathlib.Data.List.Infix
import Mathlib.Logic.Function.Basic

/-!
Parties that take turns on one shared value, each with a memory of its own. Parties whose
steps leave the shared value as it is are invisible to the others: another party runs as if
it were alone. What a party remembers of the shared value is what it once was.
-/
namespace SharedStore

variable {P M S E R : Type}

structure World (P M S : Type) where
  memory : P → M
  shared : S

section Alone
variable (step : M → S → E → M × S) (answer : M → S → E → Option R)

def alone (c : M × S) (es : List E) : M × S := es.foldl (fun c e => step c.1 c.2 e) c

def aloneAnswers (c : M × S) : List E → List R
  | [] => []
  | e :: es => (answer c.1 c.2 e).toList ++ aloneAnswers (step c.1 c.2 e) es

variable [DecidableEq P]

def act (w : World P M S) (a : P × E) : World P M S where
  memory := Function.update w.memory a.1 (step (w.memory a.1) w.shared a.2).1
  shared := (step (w.memory a.1) w.shared a.2).2

def interleave (w : World P M S) (as : List (P × E)) : World P M S := as.foldl (act step) w

def own (p : P) (as : List (P × E)) : List E :=
  as.filterMap fun a => if a.1 = p then some a.2 else none

def answers (p : P) (w : World P M S) : List (P × E) → List R
  | [] => []
  | a :: as => (if a.1 = p then answer (w.memory p) w.shared a.2 else none).toList ++
    answers p (act step w a) as

end Alone

variable [DecidableEq P] {step : M → S → E → M × S} {w : World P M S} {p : P} {as : List (P × E)}

theorem own_cons_self (p : P) (e : E) (as : List (P × E)) :
    own p ((p, e) :: as) = e :: own p as := by
  simp [own]

theorem own_cons_of_ne {q : P} (h : q ≠ p) (e : E) (as : List (P × E)) :
    own p ((q, e) :: as) = own p as := by
  simp [own, h]

theorem own_prefix {as' : List (P × E)} (h : as' <+: as) : own p as' <+: own p as := h.filterMap _

theorem memory_act_self (w : World P M S) (a : P × E) :
    (act step w a).memory a.1 = (step (w.memory a.1) w.shared a.2).1 :=
  Function.update_self _ _ _

theorem memory_act_of_ne (w : World P M S) {a : P × E} {q : P} (h : q ≠ a.1) :
    (act step w a).memory q = w.memory q :=
  Function.update_of_ne h _ _

/-- Steps of the calm parties keep their memories calm and the shared value as it is. -/
def Harmless (step : M → S → E → M × S) (calm : M → Prop) (harmless : E → Prop) : Prop :=
  ∀ m s e, calm m → harmless e → calm (step m s e).1 ∧ (step m s e).2 = s

variable {calm : M → Prop} {harmless : E → Prop}

/-- A turn of another party, seen from `p`. -/
theorem act_other (hstep : Harmless step calm harmless) (hcalm : ∀ q, q ≠ p → calm (w.memory q))
    {a : P × E} (ha : a.1 ≠ p) (hharm : harmless a.2) :
    (act step w a).memory p = w.memory p ∧ (act step w a).shared = w.shared ∧
      ∀ q, q ≠ p → calm ((act step w a).memory q) := by
  obtain ⟨hkept, hsame⟩ := hstep (w.memory a.1) w.shared a.2 (hcalm a.1 ha) hharm
  refine ⟨memory_act_of_ne w ha.symm, hsame, fun q hq => ?_⟩
  by_cases hqa : q = a.1
  · rw [hqa, memory_act_self]
    exact hkept
  · rw [memory_act_of_ne w hqa]
    exact hcalm q hq

/-- A turn of `p` itself. -/
theorem act_self (hcalm : ∀ q, q ≠ p → calm (w.memory q)) (e : E) :
    ((act step w (p, e)).memory p, (act step w (p, e)).shared) = step (w.memory p) w.shared e ∧
      ∀ q, q ≠ p → calm ((act step w (p, e)).memory q) := by
  refine ⟨Prod.ext (memory_act_self w (p, e)) rfl, fun q hq => ?_⟩
  rw [memory_act_of_ne w hq]
  exact hcalm q hq

/-- Among harmless parties `p` runs as if it were alone. -/
theorem interleave_own (answer : M → S → E → Option R) (hstep : Harmless step calm harmless)
    (hcalm : ∀ q, q ≠ p → calm (w.memory q)) (hharm : ∀ a ∈ as, a.1 ≠ p → harmless a.2) :
    ((interleave step w as).memory p, (interleave step w as).shared) =
        alone step (w.memory p, w.shared) (own p as) ∧
      answers step answer p w as = aloneAnswers step answer (w.memory p, w.shared) (own p as) ∧
      ∀ q, q ≠ p → calm ((interleave step w as).memory q) := by
  induction as generalizing w with
  | nil => exact ⟨rfl, rfl, hcalm⟩
  | cons a as ih =>
    obtain ⟨q, e⟩ := a
    have hlater : ∀ a ∈ as, a.1 ≠ p → harmless a.2 := fun a ha => hharm a (by simp [ha])
    by_cases hq : q = p
    · subst hq
      obtain ⟨hmine, hothers⟩ := @act_self P M S E _ step w q calm hcalm e
      obtain ⟨hend, hanswers, hkept⟩ := ih hothers hlater
      rw [own_cons_self, answers, if_pos rfl, aloneAnswers, alone, List.foldl_cons]
      rw [hmine] at hend hanswers
      exact ⟨hend, congrArg _ hanswers, hkept⟩
    · obtain ⟨hmine, hshared, hothers⟩ := act_other hstep hcalm hq (hharm (q, e) (by simp) hq)
      obtain ⟨hend, hanswers, hkept⟩ := ih hothers hlater
      rw [own_cons_of_ne hq, answers, if_neg hq]
      rw [hmine, hshared] at hend hanswers
      exact ⟨hend, hanswers, hkept⟩

/-- What a party has seen of the shared value stays among the values the shared value had. -/
theorem interleave_seen (Seen : (S → Prop) → M → Prop) {q : P}
    (hmono : ∀ past past' : S → Prop, (∀ s, past s → past' s) → ∀ m, Seen past m → Seen past' m)
    (hseen : ∀ (past : S → Prop) m s e, calm m → harmless e → past s → Seen past m →
      Seen past (step m s e).1)
    (hstep : Harmless step calm harmless) (hcalm : ∀ r, r ≠ p → calm (w.memory r))
    (hharm : ∀ a ∈ as, a.1 ≠ p → harmless a.2) (hq : q ≠ p)
    (hstart : Seen (fun s => s = w.shared) (w.memory q)) :
    Seen (fun s => ∃ as', as' <+: as ∧ s = (interleave step w as').shared)
      ((interleave step w as).memory q) := by
  induction as using List.reverseRecOn with
  | nil => exact hmono _ _ (fun s hs => ⟨[], List.prefix_refl _, hs⟩) _ hstart
  | append_singleton as a ih =>
    have hbefore : ∀ a ∈ as, a.1 ≠ p → harmless a.2 := fun a ha => hharm a (by simp [ha])
    have hnow := ih hbefore
    obtain ⟨-, -, hkept⟩ := interleave_own (fun _ _ _ => (none : Option Unit)) hstep hcalm hbefore
    have hlonger : ∀ s, (∃ as', as' <+: as ∧ s = (interleave step w as').shared) →
        ∃ as', as' <+: as ++ [a] ∧ s = (interleave step w as').shared := by
      rintro s ⟨as', hpre, hs⟩
      exact ⟨as', hpre.trans (List.prefix_append _ _), hs⟩
    have hlast : interleave step w (as ++ [a]) = act step (interleave step w as) a :=
      List.foldl_append
    rw [hlast]
    by_cases haq : a.1 = q
    · have hnext := hseen _ ((interleave step w as).memory q) (interleave step w as).shared a.2
        (hkept q hq) (hharm a (by simp) (by rw [haq]; exact hq)) ⟨as, List.prefix_refl _, rfl⟩ hnow
      subst haq
      rw [memory_act_self]
      exact hmono _ _ hlonger _ hnext
    · rw [memory_act_of_ne _ (Ne.symm haq)]
      exact hmono _ _ hlonger _ hnow

end SharedStore
