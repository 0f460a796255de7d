import Mathlib.Data.List.Nodup
import Mathlib.Algebra.Order.Ring.Int

/-!
# Forwarding along a tree

Every node of a tree knows only its own children. What a node receives it hands on to its
children in order, and they do the same. If a child has one parent and a height grows from a
parent to its children, then no node is visited twice, and with enough rounds all nodes below
the first one are visited.
-/
namespace UnifyFS.RootedTrees
open Relation List

variable {α : Type*}

/-- The nodes that are reached within a number of rounds, in the order of the forwarding. -/
def visits (children : α → List α) : ℕ → α → List α
  | 0, _ => []
  | fuel + 1, a => a :: (children a).flatMap (visits children fuel)

/-- The lists of children are those of a forest on some of the nodes. -/
structure Forest (children : α → List α) (nodes : α → Prop) (height : α → ℕ) : Prop where
  closed : ∀ {a c}, nodes a → c ∈ children a → nodes c
  nodup : ∀ {a}, nodes a → (children a).Nodup
  unique : ∀ {a b c}, nodes a → nodes b → c ∈ children a → c ∈ children b → a = b
  grows : ∀ {a c}, nodes a → c ∈ children a → height a < height c

/-- The second node is the first one or a descendant of it. -/
def Below (children : α → List α) (nodes : α → Prop) : α → α → Prop :=
  ReflTransGen fun p c => nodes p ∧ c ∈ children p

namespace Forest
variable {children : α → List α} {nodes : α → Prop} {height : α → ℕ} {a c d x : α}

variable (h : Forest children nodes height)
include h

theorem height_le (hx : Below children nodes a x) : height a ≤ height x := by
  induction hx with
  | refl => exact Nat.le_refl _
  | tail _ hstep ih => exact Nat.le_trans ih (Nat.le_of_lt (h.grows hstep.1 hstep.2))

/-- Two children of a node have no descendant in common. -/
theorem eq_of_below (ha : nodes a) (hc : c ∈ children a) (hd : d ∈ children a)
    (hcx : Below children nodes c x) (hdx : Below children nodes d x) : c = d := by
  have hunique : Relator.RightUnique fun c p => nodes p ∧ c ∈ children p :=
    fun _ _ _ hp hq => h.unique hp.1 hq.1 hp.2 hq.2
  -- a proper descendant of a child that is itself a child would make the node its own descendant
  have hchild : ∀ {c d}, c ∈ children a → d ∈ children a → Below children nodes c d → c = d := by
    intro c d hc hd hcd
    cases hcd with
    | refl => rfl
    | tail hrest hstep =>
      rw [h.unique hstep.1 ha hstep.2 hd] at hrest
      have := h.height_le hrest
      have := h.grows ha hc
      omega
  have hup : ∀ {c}, Below children nodes c x →
      ReflTransGen (fun c p => nodes p ∧ c ∈ children p) x c := fun hcx =>
    reflTransGen_swap.mp hcx
  rcases ReflTransGen.total_of_right_unique hunique (hup hcx) (hup hdx) with hcd | hdc
  · exact (hchild hd hc (reflTransGen_swap.mp hcd)).symm
  · exact hchild hc hd (reflTransGen_swap.mp hdc)

theorem below_of_mem_visits {fuel : ℕ} (ha : nodes a) (hx : x ∈ visits children fuel a) :
    Below children nodes a x := by
  induction fuel generalizing a with
  | zero => cases hx
  | succ fuel ih =>
    rw [visits,mem_cons,mem_flatMap] at hx
    rcases hx with rfl | ⟨c,hc,hx⟩
    · exact .refl
    · exact .head ⟨ha,hc⟩ (ih (h.closed ha hc) hx)

theorem mem_visits {fuel : ℕ} (hx : Below children nodes a x) (hfuel : height x < height a + fuel) :
    x ∈ visits children fuel a := by
  induction hx using ReflTransGen.head_induction_on generalizing fuel with
  | refl =>
    obtain ⟨fuel,rfl⟩ := Nat.exists_eq_succ_of_ne_zero (show fuel ≠ 0 by omega)
    exact mem_cons_self
  | head hstep hrest ih =>
    have hgrows := h.grows hstep.1 hstep.2
    have hle := h.height_le hrest
    obtain ⟨fuel,rfl⟩ := Nat.exists_eq_succ_of_ne_zero (show fuel ≠ 0 by omega)
    exact mem_cons_of_mem _ (mem_flatMap.mpr ⟨_,hstep.2,ih (by omega)⟩)

theorem nodup_visits (fuel : ℕ) (ha : nodes a) : (visits children fuel a).Nodup := by
  induction fuel generalizing a with
  | zero => exact nodup_nil
  | succ fuel ih =>
    rw [visits,nodup_cons,nodup_flatMap]
    refine ⟨fun hmem => ?_,fun c hc => ih (h.closed ha hc),?_⟩
    · obtain ⟨c,hc,hac⟩ := mem_flatMap.mp hmem
      have := h.height_le (h.below_of_mem_visits (h.closed ha hc) hac)
      have := h.grows ha hc
      omega
    · refine (h.nodup ha).pairwise_of_forall_ne fun c hc d hd hne x hx hx' => ?_
      exact hne (h.eq_of_below ha hc hd (h.below_of_mem_visits (h.closed ha hc) hx)
        (h.below_of_mem_visits (h.closed ha hd) hx'))

end Forest
end UnifyFS.RootedTrees
