import Mathlib.Data.List.Basic
import Mathlib.Algebra.Order.Ring.Int

/-!
# Arrays sorted by a key

What sorting may do to the positions of an array when the sort is not known to
be stable. Entries are compared by what identifies them, which determines the
key. Every sorted arrangement has the entries where they were exactly when the
array was sorted before and entries with one key cannot be told apart.
-/
namespace UnifyFS.SortedArrays
open List

variable {α ι κ : Type*} {key : α → κ} {ident : α → ι} {l p : List α}

theorem map_key_swap {i j : ℕ} (hi : i < l.length) (hj : j < l.length)
    (hkey : key l[i] = key l[j]) : ((l.set i l[j]).set j l[i]).map key = l.map key := by
  apply ext_getElem
  · simp
  · intro k hk _
    simp only [getElem_map,getElem_set]
    split_ifs with hjk hik
    · subst hjk
      exact hkey
    · subst hik
      exact hkey.symm
    · rfl

variable [LinearOrder κ]

def SortedBy (key : α → κ) (l : List α) : Prop := l.Pairwise fun a b => key a ≤ key b

/-- Sorted, where entries with one key cannot be told apart. -/
def Placed (key : α → κ) (ident : α → ι) (l : List α) : Prop :=
  l.Pairwise fun a b => key a < key b ∨ ident a = ident b

theorem sortedBy_iff_map : SortedBy key l ↔ (l.map key).Pairwise (· ≤ ·) :=
  pairwise_map.symm

theorem SortedBy.of_map_eq (hp : SortedBy key p) (h : l.map key = p.map key) : SortedBy key l := by
  rw [sortedBy_iff_map,h]
  exact sortedBy_iff_map.mp hp

theorem map_key_eq (hperm : p.Perm l) (hp : SortedBy key p) (hl : SortedBy key l) :
    p.map key = l.map key := by
  have hanti : ∀ a b, a ∈ p.map key → b ∈ l.map key → a ≤ b → b ≤ a → a = b := by
    intro a b _ _ hab hba
    exact le_antisymm hab hba
  exact List.Perm.eq_of_pairwise hanti (sortedBy_iff_map.mp hp) (sortedBy_iff_map.mp hl)
    (hperm.map key)

theorem Placed.ident_eq_of_key (hl : Placed key ident l) {a b : α} (ha : a ∈ l) (hb : b ∈ l)
    (hab : key a = key b) : ident a = ident b := by
  have hall : ∀ ⦃x⦄, x ∈ l → ∀ ⦃y⦄, y ∈ l → key x = key y → ident x = ident y := by
    apply List.Pairwise.forall_of_forall_of_flip
    · intro x _ _
      rfl
    · apply hl.imp
      intro x y hxy hkey
      exact hxy.resolve_left hkey.not_lt
    · apply hl.imp
      intro x y hxy hkey
      exact (hxy.resolve_left hkey.symm.not_lt).symm
  exact hall ha hb hab

section Identified
variable (hkey : ∀ a b, ident a = ident b → key a = key b)
include hkey

theorem Placed.sortedBy (hl : Placed key ident l) : SortedBy key l := by
  apply hl.imp
  intro a b hab
  cases hab with
  | inl hlt => exact hlt.le
  | inr hsame => exact (hkey a b hsame).le

/-- Sorting a placed array leaves every entry where it was. -/
theorem Placed.map_ident_eq (hl : Placed key ident l) (hperm : p.Perm l)
    (hp : SortedBy key p) : p.map ident = l.map ident := by
  have hkeys := map_key_eq hperm hp (hl.sortedBy hkey)
  apply ext_getElem
  · simp [hperm.length_eq]
  · intro i hip hil
    rw [length_map] at hip hil
    rw [getElem_map,getElem_map]
    apply hl.ident_eq_of_key
    · exact hperm.subset (getElem_mem hip)
    · exact getElem_mem hil
    · have hi := congrArg (fun k => k[i]?) hkeys
      simpa [hip,hil] using hi

theorem exists_misplaced (hl : ¬ Placed key ident l) {q : List α} (hperm : q.Perm l)
    (hq : SortedBy key q) : ∃ p : List α, p.Perm l ∧ SortedBy key p ∧
      ∃ (i : ℕ) (a b : α), p[i]? = some a ∧ l[i]? = some b ∧ ident a ≠ ident b := by
  by_cases hs : SortedBy key l
  · unfold Placed at hl
    rw [pairwise_iff_getElem] at hl
    push Not at hl
    obtain ⟨i,j,hi,hj,hij,hle,hne⟩ := hl
    have hsame : key l[i] = key l[j] := by
      apply le_antisymm _ hle
      exact pairwise_iff_getElem.mp hs i j hi hj hij
    refine ⟨(l.set i l[j]).set j l[i],set_set_perm hi hj,?_,j,l[i],l[j],?_,?_,hne⟩
    · exact hs.of_map_eq (map_key_swap hi hj hsame)
    · simp [hj]
    · simp [hj]
  · refine ⟨q,hperm,hq,?_⟩
    by_contra hno
    push Not at hno
    apply hs
    apply hq.of_map_eq
    apply ext_getElem
    · simp [hperm.length_eq]
    · intro i hil hip
      rw [length_map] at hil hip
      rw [getElem_map,getElem_map]
      symm
      apply hkey
      exact hno i q[i] l[i] (getElem?_eq_getElem hip) (getElem?_eq_getElem hil)

end Identified
end UnifyFS.SortedArrays
