import Mathlib.Algebra.BigOperators.Group.List.Basic
import Mathlib.Algebra.Order.BigOperators.Group.List
import Mathlib.Data.Finset.Card
import Mathlib.Data.Finset.Image
import Mathlib.Data.List.Perm.Subperm
import Mathlib.Logic.Relation
import NanoDB.Library.ParentForest

/-!
Spanning forests of a multigraph, for any types of nodes and edges; an edge list may have
loops and parallel edges. Every edge merges two classes of connected nodes or none, so the
acyclic edge lists are the ones that have an edge for each class they save. The greedy choice
from a list sorted by cost has, up to any cost, as many edges as an acyclic list can have,
and is therefore the cheapest.
-/
namespace SpanningForest

open ParentForest

variable {V E : Type}

def Connected (ends : E → V × V) (es : List E) : V → V → Prop :=
  Relation.EqvGen fun a b => ∃ e ∈ es, ends e = (a, b)

/-- No edge has its ends connected by the other edges. -/
def Acyclic (ends : E → V × V) (es : List E) : Prop :=
  ∀ before e after, es = before ++ e :: after →
    ¬ Connected ends (before ++ after) (ends e).1 (ends e).2

section Connected
variable {ends : E → V × V} {es fs : List E} {a b c : V}

theorem Connected.refl (a : V) : Connected ends es a a := Relation.EqvGen.refl a

theorem Connected.symm (h : Connected ends es a b) : Connected ends es b a :=
  Relation.EqvGen.symm _ _ h

theorem Connected.trans (h : Connected ends es a b) (h' : Connected ends es b c) :
    Connected ends es a c := Relation.EqvGen.trans _ _ _ h h'

theorem connected_of_mem {e : E} (h : e ∈ es) : Connected ends es (ends e).1 (ends e).2 :=
  Relation.EqvGen.rel _ _ ⟨e, h, rfl⟩

/-- What is connected by edges whose ends other edges connect is connected by these. -/
theorem Connected.of_edges (h : Connected ends es a b)
    (hedges : ∀ e ∈ es, Connected ends fs (ends e).1 (ends e).2) : Connected ends fs a b := by
  induction h with
  | rel x y hxy =>
    obtain ⟨e, he, hends⟩ := hxy
    have hconn := hedges e he
    rwa [hends] at hconn
  | refl x => exact Connected.refl x
  | symm x y _ ih => exact ih.symm
  | trans x y z _ _ ihxy ihyz => exact ihxy.trans ihyz

theorem Connected.mono (h : Connected ends es a b) (hsub : es ⊆ fs) : Connected ends fs a b :=
  h.of_edges fun _ he => connected_of_mem (hsub he)

theorem connected_congr (h : ∀ e, e ∈ es ↔ e ∈ fs) :
    Connected ends es a b ↔ Connected ends fs a b :=
  ⟨fun hab => hab.mono fun e he => (h e).mp he, fun hab => hab.mono fun e he => (h e).mpr he⟩

theorem connected_nil : Connected ends [] a b ↔ a = b := by
  constructor
  · intro h
    induction h with
    | rel x y hxy =>
      obtain ⟨e, he, -⟩ := hxy
      contradiction
    | refl x => rfl
    | symm x y _ ih => exact ih.symm
    | trans x y z _ _ ihxy ihyz => exact ihxy.trans ihyz
  · rintro rfl
    exact Connected.refl a

/-- One more edge connects the classes of its ends. -/
theorem connected_cons {e : E} : Connected ends (e :: es) a b ↔ Connected ends es a b ∨
    (Connected ends es a (ends e).1 ∧ Connected ends es b (ends e).2) ∨
      (Connected ends es a (ends e).2 ∧ Connected ends es b (ends e).1) := by
  constructor
  · intro h
    induction h with
    | rel x y hxy =>
      obtain ⟨d, hd, hends⟩ := hxy
      rcases List.mem_cons.mp hd with rfl | hd
      · rw [hends]
        exact Or.inr (Or.inl ⟨Connected.refl x, Connected.refl y⟩)
      · have hconn : Connected ends es (ends d).1 (ends d).2 := connected_of_mem hd
        rw [hends] at hconn
        exact Or.inl hconn
    | refl x => exact Or.inl (Connected.refl x)
    | symm x y _ ih =>
      rcases ih with ih | ⟨hx, hy⟩ | ⟨hx, hy⟩
      · exact Or.inl ih.symm
      · exact Or.inr (Or.inr ⟨hy, hx⟩)
      · exact Or.inr (Or.inl ⟨hy, hx⟩)
    | trans x y z _ _ ihxy ihyz =>
      rcases ihxy with hxy | ⟨hx, hy⟩ | ⟨hx, hy⟩ <;>
        rcases ihyz with hyz | ⟨hy', hz⟩ | ⟨hy', hz⟩
      · exact Or.inl (hxy.trans hyz)
      · exact Or.inr (Or.inl ⟨hxy.trans hy', hz⟩)
      · exact Or.inr (Or.inr ⟨hxy.trans hy', hz⟩)
      · exact Or.inr (Or.inl ⟨hx, hyz.symm.trans hy⟩)
      · exact Or.inr (Or.inl ⟨hx, hz⟩)
      · exact Or.inl (hx.trans hz.symm)
      · exact Or.inr (Or.inr ⟨hx, hyz.symm.trans hy⟩)
      · exact Or.inl (hx.trans hz.symm)
      · exact Or.inr (Or.inr ⟨hx, hz⟩)
  · have hsub : es ⊆ e :: es := fun _ hd => List.mem_cons_of_mem e hd
    have hedge : Connected ends (e :: es) (ends e).1 (ends e).2 :=
      connected_of_mem List.mem_cons_self
    rintro (h | ⟨ha, hb⟩ | ⟨ha, hb⟩)
    · exact h.mono hsub
    · exact (ha.mono hsub).trans (hedge.trans (hb.mono hsub).symm)
    · exact (ha.mono hsub).trans (hedge.symm.trans (hb.mono hsub).symm)

/-- It does not matter where the edge comes. -/
theorem connected_concat {e : E} :
    Connected ends (es ++ [e]) a b ↔ Connected ends (e :: es) a b :=
  connected_congr fun _ => (List.perm_append_singleton e es).mem_iff

/-- An edge between connected nodes adds nothing. -/
theorem connected_cons_of_connected {e : E} (h : Connected ends es (ends e).1 (ends e).2) :
    Connected ends (e :: es) a b ↔ Connected ends es a b := by
  constructor
  · intro hab
    refine hab.of_edges fun d hd => ?_
    rcases List.mem_cons.mp hd with rfl | hd
    · exact h
    · exact connected_of_mem hd
  · exact fun hab => hab.mono fun _ hd => List.mem_cons_of_mem e hd

theorem Acyclic.cons {e : E} (h : Acyclic ends (e :: es)) :
    ¬ Connected ends es (ends e).1 (ends e).2 ∧ Acyclic ends es := by
  refine ⟨h [] e es rfl, ?_⟩
  rintro before d after rfl hconn
  exact h (e :: before) d after rfl (hconn.mono fun _ hd => List.mem_cons_of_mem e hd)

theorem Acyclic.sublist (h : Acyclic ends es) (hsub : fs.Sublist es) : Acyclic ends fs := by
  rintro before e after rfl hconn
  obtain ⟨left, right, rfl, hbefore, hright⟩ := List.append_sublist_iff.mp hsub
  obtain ⟨middle, rest, rfl, hmem, hafter⟩ := List.cons_sublist_iff.mp hright
  obtain ⟨before', after', rfl⟩ := List.append_of_mem hmem
  refine h (left ++ before') e (after' ++ rest) (by simp) (hconn.mono ?_)
  intro d hd
  rcases List.mem_append.mp hd with hd | hd
  · have hd' := hbefore.subset hd
    simp [hd']
  · have hd' := hafter.subset hd
    simp [hd']

end Connected

section Classes
variable [DecidableEq V] (ends : E → V × V) (vs : Finset V)

def roots (es : List E) : V → V := es.foldr (fun e root => joinRoots root (ends e).1 (ends e).2) id

def classes (es : List E) : ℕ := (vs.image (roots ends es)).card

def Within (es : List E) : Prop := ∀ e ∈ es, (ends e).1 ∈ vs ∧ (ends e).2 ∈ vs

variable {ends vs}
variable {es fs : List E}

theorem roots_eq_iff {a b : V} : roots ends es a = roots ends es b ↔ Connected ends es a b := by
  induction es generalizing a b with
  | nil => exact connected_nil.symm
  | cons e es ih =>
    have hcons : roots ends (e :: es) = joinRoots (roots ends es) (ends e).1 (ends e).2 := rfl
    rw [hcons, joinRoots_eq_iff, connected_cons, ih, ih, ih, ih, ih]

/-- A coarser equivalence has no more classes. -/
theorem card_image_le {f g : V → V} (h : ∀ a ∈ vs, ∀ b ∈ vs, f a = f b → g a = g b) :
    (vs.image g).card ≤ (vs.image f).card := by
  have hrep : ∀ c ∈ vs.image g, ∃ a ∈ vs, g a = c := fun c hc => Finset.mem_image.mp hc
  choose! rep hmem hrep using hrep
  refine Finset.card_le_card_of_injOn (fun c => f (rep c)) ?_ ?_
  · intro c hc
    exact Finset.mem_image_of_mem f (hmem c hc)
  · intro c hc d hd heq
    have hg := h _ (hmem c hc) _ (hmem d hd) heq
    rwa [hrep c hc, hrep d hd] at hg

theorem classes_le (h : ∀ a ∈ vs, ∀ b ∈ vs, Connected ends es a b → Connected ends fs a b) :
    classes ends vs fs ≤ classes ends vs es := by
  refine card_image_le fun a ha b hb heq => ?_
  rw [roots_eq_iff] at heq ⊢
  exact h a ha b hb heq

theorem classes_congr (h : ∀ a ∈ vs, ∀ b ∈ vs, Connected ends es a b ↔ Connected ends fs a b) :
    classes ends vs es = classes ends vs fs :=
  le_antisymm (classes_le fun a ha b hb => (h a ha b hb).mpr)
    (classes_le fun a ha b hb => (h a ha b hb).mp)

theorem classes_nil : classes ends vs ([] : List E) = vs.card := by
  change (vs.image id).card = vs.card
  rw [Finset.image_id]

/-- An edge between two classes makes one class of them. -/
theorem classes_cons {e : E} (hfst : (ends e).1 ∈ vs) (hsnd : (ends e).2 ∈ vs)
    (h : ¬ Connected ends es (ends e).1 (ends e).2) :
    classes ends vs (e :: es) + 1 = classes ends vs es := by
  have hne : roots ends es (ends e).1 ≠ roots ends es (ends e).2 := fun heq =>
    h (roots_eq_iff.mp heq)
  have himage : vs.image (roots ends (e :: es)) =
      (vs.image (roots ends es)).erase (roots ends es (ends e).2) := by
    ext c
    rw [Finset.mem_erase, Finset.mem_image, Finset.mem_image]
    have hcons : ∀ x, roots ends (e :: es) x = if roots ends es x = roots ends es (ends e).2 then
        roots ends es (ends e).1 else roots ends es x := fun _ => rfl
    constructor
    · rintro ⟨x, hx, rfl⟩
      rw [hcons]
      split
      · exact ⟨hne, _, hfst, rfl⟩
      · rename_i hx'
        exact ⟨hx', x, hx, rfl⟩
    · rintro ⟨hc, x, hx, rfl⟩
      exact ⟨x, hx, by rw [hcons, if_neg hc]⟩
  unfold classes
  rw [himage]
  exact Finset.card_erase_add_one (Finset.mem_image_of_mem _ hsnd)

/-- An edge saves one class at most. -/
theorem card_le_classes_add_length (h : Within ends vs es) :
    vs.card ≤ classes ends vs es + es.length := by
  induction es with
  | nil => exact le_of_eq classes_nil.symm
  | cons e es ih =>
    have hrest := ih fun d hd => h d (List.mem_cons_of_mem e hd)
    obtain ⟨hfst, hsnd⟩ := h e List.mem_cons_self
    rw [List.length_cons]
    by_cases hconn : Connected ends es (ends e).1 (ends e).2
    · have hsame : classes ends vs (e :: es) = classes ends vs es :=
        classes_congr fun a _ b _ => connected_cons_of_connected hconn
      omega
    · have hless := classes_cons hfst hsnd hconn
      omega

/-- In an acyclic list every edge saves one. -/
theorem Acyclic.classes_add_length (h : Acyclic ends es) (hin : Within ends vs es) :
    classes ends vs es + es.length = vs.card := by
  induction es with
  | nil => exact classes_nil
  | cons e es ih =>
    obtain ⟨hbridge, hrest⟩ := h.cons
    obtain ⟨hfst, hsnd⟩ := hin e List.mem_cons_self
    have hlen := ih hrest fun d hd => hin d (List.mem_cons_of_mem e hd)
    have hless := classes_cons hfst hsnd hbridge
    rw [List.length_cons]
    omega

theorem acyclic_of_classes (hin : Within ends vs es)
    (h : classes ends vs es + es.length = vs.card) : Acyclic ends es := by
  rintro before e after rfl hconn
  have hin' : Within ends vs (before ++ after) := by
    intro d hd
    refine hin d ?_
    rcases List.mem_append.mp hd with hd | hd
    · exact List.mem_append_left _ hd
    · exact List.mem_append_right _ (List.mem_cons_of_mem e hd)
  have hsame : classes ends vs (before ++ e :: after) = classes ends vs (before ++ after) := by
    refine classes_congr fun a _ b _ => ?_
    have hmiddle : Connected ends (before ++ e :: after) a b ↔
        Connected ends (e :: (before ++ after)) a b :=
      connected_congr fun d => List.perm_middle.mem_iff
    rw [hmiddle]
    exact connected_cons_of_connected hconn
  have hle := card_le_classes_add_length hin'
  rw [hsame] at h
  simp only [List.length_append, List.length_cons] at h hle
  omega

/-- One class left, so all nodes are connected. -/
theorem connected_of_classes (h : classes ends vs es ≤ 1) {a b : V} (ha : a ∈ vs) (hb : b ∈ vs) :
    Connected ends es a b :=
  roots_eq_iff.mp (Finset.card_le_one.mp h _ (Finset.mem_image_of_mem _ ha) _
    (Finset.mem_image_of_mem _ hb))

/-- All nodes are connected, so one class is left. -/
theorem classes_of_connected (hne : vs.Nonempty)
    (h : ∀ a ∈ vs, ∀ b ∈ vs, Connected ends es a b) : classes ends vs es = 1 := by
  refine le_antisymm ?_ (Finset.card_pos.mpr (hne.image _))
  refine Finset.card_le_one.mpr fun c hc d hd => ?_
  obtain ⟨a, ha, rfl⟩ := Finset.mem_image.mp hc
  obtain ⟨b, hb, rfl⟩ := Finset.mem_image.mp hd
  exact roots_eq_iff.mpr (h a ha b hb)

end Classes

/-- The greedy choice from a list: an edge is taken if no taken edges connect its ends. -/
inductive Greedy (ends : E → V × V) : List E → List E → Prop
  | nil : Greedy ends [] []
  | skip {es acc : List E} {e : E} (h : Greedy ends es acc)
      (he : Connected ends acc (ends e).1 (ends e).2) : Greedy ends (es ++ [e]) acc
  | take {es acc : List E} {e : E} (h : Greedy ends es acc)
      (he : ¬ Connected ends acc (ends e).1 (ends e).2) : Greedy ends (es ++ [e]) (acc ++ [e])

section Greedy
variable {ends : E → V × V} {es fs acc : List E} {a b : V}

theorem exists_greedy (ends : E → V × V) (es : List E) : ∃ acc, Greedy ends es acc := by
  induction es using List.reverseRecOn with
  | nil => exact ⟨[], .nil⟩
  | append_singleton es e ih =>
    obtain ⟨acc, h⟩ := ih
    by_cases he : Connected ends acc (ends e).1 (ends e).2
    · exact ⟨acc, .skip h he⟩
    · exact ⟨acc ++ [e], .take h he⟩

theorem Greedy.sublist (h : Greedy ends es acc) : acc.Sublist es := by
  induction h with
  | nil => exact List.Sublist.refl []
  | skip _ _ ih => exact ih.trans (List.sublist_append_left _ _)
  | take _ _ ih => exact ih.append (List.Sublist.refl _)

/-- The taken edges connect the ends of every edge. -/
theorem Greedy.connects (h : Greedy ends es acc) :
    ∀ e ∈ es, Connected ends acc (ends e).1 (ends e).2 := by
  induction h with
  | nil => simp
  | @skip es acc e _ he ih =>
    intro d hd
    rcases List.mem_append.mp hd with hd | hd
    · exact ih d hd
    · rw [List.mem_singleton.mp hd]
      exact he
  | @take es acc e _ _ ih =>
    intro d hd
    rcases List.mem_append.mp hd with hd | hd
    · exact (ih d hd).mono (List.subset_append_left _ _)
    · rw [List.mem_singleton.mp hd]
      exact connected_of_mem (List.mem_append_right _ List.mem_cons_self)

theorem Greedy.connected_iff (h : Greedy ends es acc) :
    Connected ends acc a b ↔ Connected ends es a b :=
  ⟨fun hab => hab.mono h.sublist.subset, fun hab => hab.of_edges h.connects⟩

theorem Greedy.classes_add_length [DecidableEq V] {vs : Finset V} (h : Greedy ends es acc)
    (hin : Within ends vs es) : classes ends vs acc + acc.length = vs.card := by
  induction h with
  | nil => exact classes_nil
  | skip _ _ ih => exact ih fun d hd => hin d (List.mem_append_left _ hd)
  | @take es acc e _ he ih =>
    have hlen := ih fun d hd => hin d (List.mem_append_left _ hd)
    obtain ⟨hfst, hsnd⟩ := hin e (List.mem_append_right _ List.mem_cons_self)
    have hless := classes_cons hfst hsnd he
    have hsame : classes ends vs (acc ++ [e]) = classes ends vs (e :: acc) :=
      classes_congr fun a _ b _ => connected_congr fun d =>
        (List.perm_append_singleton e acc).mem_iff
    rw [hsame, List.length_append, List.length_singleton]
    omega

theorem Greedy.acyclic [DecidableEq V] {vs : Finset V} (h : Greedy ends es acc)
    (hin : Within ends vs es) : Acyclic ends acc :=
  acyclic_of_classes (fun e he => hin e (h.sublist.subset he)) (h.classes_add_length hin)

/-- What is taken from the front of the list does not depend on the rest. -/
theorem Greedy.split (h : Greedy ends (es ++ fs) acc) :
    ∃ front rest, acc = front ++ rest ∧ Greedy ends es front ∧ rest.Sublist fs := by
  generalize hall : es ++ fs = all at h
  induction h generalizing es fs with
  | nil =>
    obtain ⟨rfl, rfl⟩ := List.append_eq_nil_iff.mp hall
    exact ⟨[], [], rfl, .nil, List.Sublist.refl []⟩
  | @skip es' acc e hes he ih =>
    rcases List.eq_nil_or_concat fs with rfl | ⟨fs', last, rfl⟩
    · rw [List.append_nil] at hall
      subst hall
      exact ⟨acc, [], (List.append_nil acc).symm, .skip hes he, List.Sublist.refl []⟩
    · rw [List.concat_eq_append] at hall ⊢
      rw [← List.append_assoc] at hall
      obtain ⟨hinit, -⟩ := List.append_inj' hall rfl
      obtain ⟨front, rest, hacc, hfront, hrest⟩ := ih hinit
      exact ⟨front, rest, hacc, hfront, hrest.trans (List.sublist_append_left _ _)⟩
  | @take es' acc e hes he ih =>
    rcases List.eq_nil_or_concat fs with rfl | ⟨fs', last, rfl⟩
    · rw [List.append_nil] at hall
      subst hall
      exact ⟨acc ++ [e], [], (List.append_nil _).symm, .take hes he, List.Sublist.refl []⟩
    · rw [List.concat_eq_append] at hall ⊢
      rw [← List.append_assoc] at hall
      obtain ⟨hinit, hlast⟩ := List.append_inj' hall rfl
      obtain ⟨front, rest, hacc, hfront, hrest⟩ := ih hinit
      refine ⟨front, rest ++ [e], ?_, hfront, ?_⟩
      · rw [hacc, List.append_assoc]
      · rw [hlast]
        exact hrest.append (List.Sublist.refl _)

end Greedy

section Cost
variable {W : Type} [AddCommMonoid W] [LinearOrder W] [IsOrderedAddMonoid W]

omit [AddCommMonoid W] [IsOrderedAddMonoid W] in
theorem exists_max {xs : List W} (hne : xs ≠ []) :
    ∃ a rest, xs.Perm (a :: rest) ∧ ∀ x ∈ rest, x ≤ a := by
  induction xs with
  | nil => exact absurd rfl hne
  | cons x xs ih =>
    by_cases hxs : xs = []
    · exact ⟨x, xs, List.Perm.refl _, by simp [hxs]⟩
    · obtain ⟨a, rest, hperm, hmax⟩ := ih hxs
      rcases le_total x a with hle | hle
      · refine ⟨a, x :: rest, (hperm.cons x).trans (List.Perm.swap a x rest), ?_⟩
        exact List.forall_mem_cons.mpr ⟨hle, hmax⟩
      · refine ⟨x, a :: rest, hperm.cons x, ?_⟩
        exact List.forall_mem_cons.mpr ⟨hle, fun y hy => (hmax y hy).trans hle⟩

/-- A list is no heavier than another one of its length if, up to any bound, it has no fewer
entries. -/
theorem sum_le_of_countP (n : ℕ) (xs ys : List W) (hxs : xs.length = n) (hys : ys.length = n)
    (h : ∀ t, ys.countP (· ≤ t) ≤ xs.countP (· ≤ t)) : xs.sum ≤ ys.sum := by
  induction n generalizing xs ys with
  | zero =>
    rw [List.length_eq_zero_iff.mp hxs, List.length_eq_zero_iff.mp hys]
  | succ n ih =>
    obtain ⟨a, xs', hpx, hmaxx⟩ := exists_max (List.ne_nil_of_length_eq_add_one hxs)
    obtain ⟨b, ys', hpy, hmaxy⟩ := exists_max (List.ne_nil_of_length_eq_add_one hys)
    have hlenx : xs'.length = n := by
      have hlen := hpx.length_eq
      rw [List.length_cons] at hlen
      omega
    have hleny : ys'.length = n := by
      have hlen := hpy.length_eq
      rw [List.length_cons] at hlen
      omega
    have hcount : ∀ t, (b :: ys').countP (· ≤ t) ≤ (a :: xs').countP (· ≤ t) := by
      intro t
      rw [← hpx.countP_eq, ← hpy.countP_eq]
      exact h t
    -- all of `ys` is below `b`, so all of `xs` is
    have hab : a ≤ b := by
      have hall : (b :: ys').countP (· ≤ b) = (b :: ys').length := by
        rw [List.countP_eq_length]
        intro y hy
        rcases List.mem_cons.mp hy with rfl | hy
        · exact decide_eq_true (le_refl y)
        · exact decide_eq_true (hmaxy y hy)
      have hle := hcount b
      rw [hall] at hle
      have hlen : (b :: ys').length = (a :: xs').length := by
        rw [List.length_cons, List.length_cons, hlenx, hleny]
      have hfull := le_antisymm List.countP_le_length (hlen ▸ hle)
      exact of_decide_eq_true (List.countP_eq_length.mp hfull a List.mem_cons_self)
    have hrest : ∀ t, ys'.countP (· ≤ t) ≤ xs'.countP (· ≤ t) := by
      intro t
      by_cases hat : a ≤ t
      · have hfull : xs'.countP (· ≤ t) = xs'.length := by
          rw [List.countP_eq_length]
          exact fun x hx => decide_eq_true ((hmaxx x hx).trans hat)
        rw [hfull, hlenx, ← hleny]
        exact List.countP_le_length
      · have hbt : ¬ b ≤ t := fun hbt => hat (hab.trans hbt)
        have hle := hcount t
        rwa [List.countP_cons_of_neg (by simpa using hbt),
          List.countP_cons_of_neg (by simpa using hat)] at hle
    rw [hpx.sum_eq, hpy.sum_eq, List.sum_cons, List.sum_cons]
    exact add_le_add hab (ih xs' ys' hlenx hleny hrest)

variable {ends : E → V × V} {es acc other : List E} {cost : E → W}

omit [AddCommMonoid W] [IsOrderedAddMonoid W] in
/-- In a sorted list the edges up to a cost come first. -/
theorem split_cost (hsorted : es.Pairwise fun d e => cost d ≤ cost e) (t : W) :
    ∃ low high, es = low ++ high ∧ (∀ e ∈ low, cost e ≤ t) ∧ ∀ e ∈ high, ¬ cost e ≤ t := by
  induction es with
  | nil => exact ⟨[], [], rfl, by simp, by simp⟩
  | cons e es ih =>
    obtain ⟨hfirst, hrest⟩ := List.pairwise_cons.mp hsorted
    by_cases he : cost e ≤ t
    · obtain ⟨low, high, hes, hlow, hhigh⟩ := ih hrest
      refine ⟨e :: low, high, ?_, List.forall_mem_cons.mpr ⟨he, hlow⟩, hhigh⟩
      rw [hes, List.cons_append]
    · refine ⟨[], e :: es, rfl, by simp, List.forall_mem_cons.mpr ⟨he, ?_⟩⟩
      exact fun d hd hle => he ((hfirst d hd).trans hle)

omit [AddCommMonoid W] [IsOrderedAddMonoid W] in
/-- Up to any cost the greedy choice has as many edges as any acyclic choice. -/
theorem Greedy.countP_le [DecidableEq V] {vs : Finset V} (h : Greedy ends es acc)
    (hin : Within ends vs es) (hsorted : es.Pairwise fun d e => cost d ≤ cost e)
    (hother : Acyclic ends other) (hsub : other ⊆ es) (t : W) :
    other.countP (fun e => cost e ≤ t) ≤ acc.countP (fun e => cost e ≤ t) := by
  obtain ⟨low, high, rfl, hlow, hhigh⟩ := split_cost hsorted t
  obtain ⟨front, rest, rfl, hfront, hrest⟩ := h.split
  have hinlow : Within ends vs low := fun e he => hin e (List.mem_append_left _ he)
  have hacc : (front ++ rest).countP (fun e => cost e ≤ t) = front.length := by
    have hfull : front.countP (fun e => cost e ≤ t) = front.length := by
      rw [List.countP_eq_length]
      exact fun e he => decide_eq_true (hlow e (hfront.sublist.subset he))
    have hnone : rest.countP (fun e => cost e ≤ t) = 0 := by
      rw [List.countP_eq_zero]
      intro e he hle
      exact hhigh e (hrest.subset he) (of_decide_eq_true hle)
    rw [List.countP_append, hfull, hnone, Nat.add_zero]
  have hothersub : other.filter (fun e => cost e ≤ t) ⊆ low := by
    intro e he
    obtain ⟨he, hle⟩ := List.mem_filter.mp he
    rcases List.mem_append.mp (hsub he) with he | he
    · exact he
    · exact absurd (of_decide_eq_true hle) (hhigh e he)
  have hclasses := (hother.sublist List.filter_sublist).classes_add_length
    fun e he => hinlow e (hothersub he)
  have hclasses' := hfront.classes_add_length hinlow
  have hle : classes ends vs front ≤
      classes ends vs (other.filter (fun e => cost e ≤ t)) :=
    classes_le fun a _ b _ hab => hfront.connected_iff.mpr (hab.mono hothersub)
  rw [hacc, List.countP_eq_length_filter]
  omega

/-- The greedy choice from a sorted list is the cheapest acyclic list that connects the same
nodes. -/
theorem Greedy.sum_le [DecidableEq V] {vs : Finset V} (h : Greedy ends es acc)
    (hin : Within ends vs es) (hsorted : es.Pairwise fun d e => cost d ≤ cost e)
    (hother : Acyclic ends other) (hsub : other ⊆ es)
    (hconn : ∀ a ∈ vs, ∀ b ∈ vs, Connected ends es a b → Connected ends other a b) :
    (acc.map cost).sum ≤ (other.map cost).sum := by
  have hlen : acc.length = other.length := by
    have hclasses := h.classes_add_length hin
    have hclasses' := hother.classes_add_length fun e he => hin e (hsub he)
    have hsame : classes ends vs acc = classes ends vs other :=
      classes_congr fun a ha b hb =>
        ⟨fun hab => hconn a ha b hb (h.connected_iff.mp hab),
          fun hab => h.connected_iff.mpr (hab.mono hsub)⟩
    omega
  refine sum_le_of_countP acc.length _ _ (List.length_map _) (by rw [List.length_map, hlen]) ?_
  intro t
  rw [List.countP_map, List.countP_map]
  exact h.countP_le hin hsorted hother hsub t

/-- Without negative costs it is the cheapest list at all that connects the same nodes. -/
theorem Greedy.sum_le_of_nonneg [DecidableEq V] {vs : Finset V} (h : Greedy ends es acc)
    (hin : Within ends vs es) (hsorted : es.Pairwise fun d e => cost d ≤ cost e)
    (hsub : other ⊆ es) (hnonneg : ∀ e ∈ other, 0 ≤ cost e)
    (hconn : ∀ a ∈ vs, ∀ b ∈ vs, Connected ends es a b → Connected ends other a b) :
    (acc.map cost).sum ≤ (other.map cost).sum := by
  obtain ⟨forest, hforest⟩ := exists_greedy ends other
  have hacyclic : Acyclic ends forest :=
    hforest.acyclic fun e he => hin e (hsub he)
  have hle := h.sum_le hin hsorted hacyclic (List.Subset.trans hforest.sublist.subset hsub)
    fun a ha b hb hab => hforest.connected_iff.mpr (hconn a ha b hb hab)
  refine hle.trans ?_
  refine List.Sublist.sum_le_sum (hforest.sublist.map cost) ?_
  intro w hw
  obtain ⟨e, he, rfl⟩ := List.mem_map.mp hw
  exact hnonneg e he

end Cost

end SpanningForest
