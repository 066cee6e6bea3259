import Mathlib.Logic.Function.Basic
import Mathlib.Logic.Relation
import Mathlib.Order.WellFounded

/-!
# Chains of parents

A forest is given by the parent of each node.  A node is rooted when its chain of parents ends.  One
node at a time gets another parent; all nodes stay rooted when the new parent is not below the node
that moves.
-/

namespace Framework

open Function

variable {α : Type*}

/-- The chain of parents from a node on ends. -/
abbrev Rooted (par : α → Option α) (a : α) : Prop := Acc (fun b a => par a = some b) a

/-- The chain of parents from the first node on meets the second. -/
abbrev Below (par : α → Option α) : α → α → Prop := Relation.ReflTransGen fun a b => par a = some b

section

variable {par par' : α → Option α} {a b x : α}

/-- The parent of a rooted node is not below it. -/
lemma Rooted.not_below (h : Rooted par a) (hb : par a = some b) : ¬ Below par b a := by
  induction h generalizing b with
  | intro a _ ih =>
    intro hbelow
    rcases hbelow.cases_head with rfl | ⟨c, hc, hrest⟩
    · exact ih b hb hb .refl
    · exact ih b hb hc (hrest.tail hb)

/-- A rooted node is not its own ancestor. -/
lemma Rooted.not_transGen (h : Rooted par a) :
    ¬ Relation.TransGen (fun a b => par a = some b) a a := by
  intro hcycle
  obtain ⟨b, hb, hrest⟩ := Relation.TransGen.head'_iff.mp hcycle
  exact h.not_below hb hrest

/-- The chain of a rooted node ends at a node without a parent. -/
lemma Rooted.exists_root (h : Rooted par a) : ∃ r, Below par a r ∧ par r = none := by
  induction h with
  | intro a _ ih =>
    cases hpar : par a with
    | none => exact ⟨a, .refl, hpar⟩
    | some b =>
      obtain ⟨r, hr, hnone⟩ := ih b hpar
      exact ⟨r, .head hpar hr, hnone⟩

/-- The chain of parents only depends on the parents of the nodes in it. -/
lemma Below.congr (h : Below par a b) (heq : ∀ c, Below par a c → par' c = par c) :
    Below par' a b := by
  induction h with
  | refl => exact .refl
  | tail hac hcb ih => exact ih.tail ((heq _ hac).trans hcb)

lemma below_congr (heq : ∀ c, Below par a c → par' c = par c) : Below par' a b ↔ Below par a b := by
  refine ⟨fun h => ?_, fun h => h.congr heq⟩
  have hsame : ∀ c, Below par' a c → Below par a c ∧ par' c = par c := by
    intro c hc
    induction hc with
    | refl => exact ⟨.refl, heq a .refl⟩
    | tail _ hcb ih =>
      have hbelow : Below par a _ := ih.1.tail (ih.2 ▸ hcb)
      exact ⟨hbelow, heq _ hbelow⟩
  exact (hsame b h).1

end

variable [DecidableEq α] {par : α → Option α} {a b x y p : α} {q : Option α}

/-- A chain does not notice another parent of a node that it does not meet. -/
lemma below_update (h : ¬ Below par a x) : Below (update par x q) a b ↔ Below par a b := by
  refine below_congr fun c hc => update_of_ne ?_ _ _
  rintro rfl
  exact h hc

/-- All nodes stay rooted when one gets a parent that is not below it. -/
lemma rooted_update (h : ∀ a, Rooted par a) (hp : ¬ Below par p x) (a : α) :
    Rooted (update par x (some p)) a := by
  -- First the nodes that are not below the one that moves, and among them its new parent.
  have haway : ∀ a, ¬ Below par a x → Rooted (update par x (some p)) a := by
    intro a
    induction h a with
    | intro a _ ih =>
      intro haway
      refine .intro a fun b hb => ?_
      have hne : a ≠ x := by
        rintro rfl
        exact haway .refl
      rw [update_of_ne hne] at hb
      exact ih b hb fun hbelow => haway (.head hb hbelow)
  have hx : Rooted (update par x (some p)) x := by
    refine .intro x fun b hb => ?_
    rw [update_self, Option.some.injEq] at hb
    exact hb ▸ haway p hp
  induction h a with
  | intro a _ ih =>
    by_cases hax : a = x
    · exact hax ▸ hx
    · refine .intro a fun b hb => ?_
      rw [update_of_ne hax] at hb
      exact ih b hb

/-- All nodes stay rooted when two nodes exchange their parents, neither of which is below the node
that gets it. -/
lemma rooted_exchange (h : ∀ a, Rooted par a) (hx : par x = some p) (hyx : ¬ Below par b x)
    (hpy : ¬ Below par p y) (a : α) :
    Rooted (update (update par x (some b)) y (some p)) a := by
  refine rooted_update (rooted_update h hyx) ?_ a
  rw [below_update ((h x).not_below hx)]
  exact hpy

end Framework
