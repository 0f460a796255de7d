import Mathlib.Algebra.BigOperators.Group.List.Basic
import Mathlib.Data.List.Pairwise
import Mathlib.Algebra.Order.Ring.Int

/-!
# Families of disjoint spans that account for a bit map

A span is a run of consecutive positions. `Covers bit bound l` says that the
set positions of a bit map are exactly those of the spans in `l`, that no two
of them share a position, and that all of them lie below `bound`. The order of
the list is irrelevant, so a span may be removed from any place; empty spans
are allowed and never get in the way. Three changes are supported: a fresh span
is added over clear positions, a member is removed with its positions, and a
member is replaced by spans that partition it.
-/
namespace UnifyFS.Spans
open List

/-- The positions `lo, …, lo + len - 1`; there are none when `len = 0`. -/
structure Span where
  lo : ℕ
  len : ℕ
  deriving DecidableEq, Repr

namespace Span

def Mem (s : Span) (i : ℕ) : Prop := s.lo ≤ i ∧ i < s.lo + s.len

instance (s : Span) (i : ℕ) : Decidable (s.Mem i) := inferInstanceAs (Decidable (_ ∧ _))

def Apart (a b : Span) : Prop := ∀ i, a.Mem i → ¬ b.Mem i

theorem apart_iff {a b : Span} : a.Apart b ↔
    a.len = 0 ∨ b.len = 0 ∨ a.lo + a.len ≤ b.lo ∨ b.lo + b.len ≤ a.lo := by
  constructor
  · intro h
    by_contra hn
    -- The larger of the two starts would be a common position.
    refine h (max a.lo b.lo) ⟨by omega,by omega⟩ ⟨by omega,by omega⟩
  · intro h i hi hb
    unfold Mem at hi hb
    omega

instance (a b : Span) : Decidable (a.Apart b) := decidable_of_iff _ apart_iff.symm

theorem Apart.symm {a b : Span} (h : a.Apart b) : b.Apart a := fun i hb ha => h i ha hb

theorem apart_of_len_zero {a b : Span} (h : b.len = 0) : a.Apart b := by
  intro i _ hb
  unfold Mem at hb
  omega

end Span

/-- The number of positions that pairwise disjoint spans hold together. -/
def total (l : List Span) : ℕ := (l.map Span.len).sum

@[simp] theorem total_cons (s : Span) (l : List Span) : total (s :: l) = s.len + total l := by
  simp [total]

theorem total_perm {l k : List Span} (h : l.Perm k) : total l = total k :=
  (h.map Span.len).sum_eq

structure Covers (bit : ℕ → Bool) (bound : ℕ) (l : List Span) : Prop where
  apart : l.Pairwise Span.Apart
  inside : ∀ s ∈ l, ∀ i, s.Mem i → i < bound
  bits : ∀ i, bit i = true ↔ ∃ s ∈ l, s.Mem i

namespace Covers
variable {bit bit' : ℕ → Bool} {bound : ℕ} {l k : List Span} {s : Span}

theorem nil (h : ∀ i, bit i = false) : Covers bit bound [] :=
  ⟨List.Pairwise.nil,by simp,by simp [h]⟩

section
variable (h : Covers bit bound l)
include h

theorem congr (hb : ∀ i, bit' i = bit i) : Covers bit' bound l :=
  ⟨h.apart,h.inside,fun i => by rw [hb,h.bits]⟩

theorem perm (hp : l.Perm k) : Covers bit bound k where
  apart := (hp.pairwise_iff fun hab => hab.symm).mp h.apart
  inside s hs := h.inside s (hp.mem_iff.mpr hs)
  bits i := by
    rw [h.bits]
    exact ⟨fun ⟨s,hs,hi⟩ => ⟨s,hp.mem_iff.mp hs,hi⟩,fun ⟨s,hs,hi⟩ => ⟨s,hp.mem_iff.mpr hs,hi⟩⟩

theorem bit_of_mem (hs : s ∈ l) {i : ℕ} (hi : s.Mem i) : bit i = true := (h.bits i).mpr ⟨s,hs,hi⟩

theorem apart_of_clear (hc : ∀ i, s.Mem i → bit i = false) : ∀ t ∈ l, s.Apart t := by
  intro t ht i hs hi
  have hset := h.bit_of_mem ht hi
  rw [hc i hs] at hset
  exact Bool.false_ne_true hset

theorem cons (hc : ∀ i, s.Mem i → bit i = false) (hin : s.lo + s.len ≤ bound)
    (hb : ∀ i, bit' i = (decide (s.Mem i) || bit i)) : Covers bit' bound (s :: l) where
  apart := List.Pairwise.cons (h.apart_of_clear hc) h.apart
  inside t ht i hi := by
    rcases mem_cons.mp ht with rfl | ht
    · exact Nat.lt_of_lt_of_le hi.2 hin
    · exact h.inside t ht i hi
  bits i := by
    rw [hb,Bool.or_eq_true,h.bits]
    simp

theorem cons_empty (hs : s.len = 0) : Covers bit bound (s :: l) where
  apart := List.Pairwise.cons (fun _ _ => (Span.apart_of_len_zero hs).symm) h.apart
  inside t ht i hi := by
    rcases mem_cons.mp ht with rfl | ht
    · exact absurd hi (fun hm => by unfold Span.Mem at hm; omega)
    · exact h.inside t ht i hi
  bits i := by
    have hn : ¬ s.Mem i := fun hm => by unfold Span.Mem at hm; omega
    simp [h.bits,hn]

end

theorem tail (h : Covers bit bound (s :: l)) (hb : ∀ i, bit' i = (bit i && !decide (s.Mem i))) :
    Covers bit' bound l where
  apart := (List.pairwise_cons.mp h.apart).2
  inside t ht := h.inside t (List.mem_cons_of_mem _ ht)
  bits i := by
    rw [hb,Bool.and_eq_true,Bool.not_eq_true',decide_eq_false_iff_not,h.bits]
    constructor
    · rintro ⟨⟨t,ht,hi⟩,hn⟩
      rcases mem_cons.mp ht with rfl | ht
      · exact absurd hi hn
      · exact ⟨t,ht,hi⟩
    · rintro ⟨t,ht,hi⟩
      refine ⟨⟨t,mem_cons_of_mem _ ht,hi⟩,fun hs => ?_⟩
      exact (pairwise_cons.mp h.apart).1 t ht i hs hi

theorem refine (h : Covers bit bound (s :: l)) (hk : k.Pairwise Span.Apart)
    (hm : ∀ i, s.Mem i ↔ ∃ t ∈ k, t.Mem i) : Covers bit bound (k ++ l) where
  apart := by
    refine pairwise_append.mpr ⟨hk,(pairwise_cons.mp h.apart).2,?_⟩
    intro t ht u hu i hi
    exact (pairwise_cons.mp h.apart).1 u hu i ((hm i).mpr ⟨t,ht,hi⟩)
  inside t ht i hi := by
    rcases mem_append.mp ht with ht | ht
    · exact h.inside s mem_cons_self i ((hm i).mpr ⟨t,ht,hi⟩)
    · exact h.inside t (mem_cons_of_mem _ ht) i hi
  bits i := by
    rw [h.bits]
    constructor
    · rintro ⟨t,ht,hi⟩
      rcases mem_cons.mp ht with rfl | ht
      · obtain ⟨u,hu,hi⟩ := (hm i).mp hi
        exact ⟨u,mem_append_left _ hu,hi⟩
      · exact ⟨t,mem_append_right _ ht,hi⟩
    · rintro ⟨t,ht,hi⟩
      rcases mem_append.mp ht with ht | ht
      · exact ⟨s,mem_cons_self,(hm i).mpr ⟨t,ht,hi⟩⟩
      · exact ⟨t,mem_cons_of_mem _ ht,hi⟩

end Covers
end UnifyFS.Spans
