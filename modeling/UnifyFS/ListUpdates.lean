import Mathlib.Data.List.Forall2
import Mathlib.Algebra.Order.Ring.Int

/-!
# Writes to one entry of a list

An array of structures is a list, and a write through a pointer into it is
`List.modify`. What is read back, what the entries are afterwards, and which
views of the entries a write does not change.
-/
namespace UnifyFS.ListUpdates
open List

variable {α β : Type*} {l : List α} {f : α → α} {i j : ℕ} {x : α} {y : α} {l' : List β}
  {P : α → Prop} {γ : Type*} {R : α → β → Prop}

theorem getElem?_modify_ite (l : List α) (f : α → α) (i j : ℕ) :
    (l.modify i f)[j]? = if i = j then (l[j]?).map f else l[j]? := by
  rw [getElem?_modify]
  split
  · rfl
  · cases l[j]? <;> rfl

theorem of_getElem?_modify (h : (l.modify i f)[j]? = some x) :
    l[j]? = some x ∨ i = j ∧ ∃ y, l[j]? = some y ∧ x = f y := by
  rw [getElem?_modify_ite] at h
  split at h
  · next hij =>
    obtain ⟨y,hy,rfl⟩ := Option.map_eq_some_iff.mp h
    exact .inr ⟨hij,y,hy,rfl⟩
  · exact .inl h

theorem modify_congr {g : α → α} (h : ∀ y, l[i]? = some y → f y = g y) :
    l.modify i f = l.modify i g := by
  apply ext_getElem?
  intro j
  rw [getElem?_modify_ite,getElem?_modify_ite]
  split
  · next hij =>
    subst hij
    cases hj : l[i]? with
    | none => rfl
    | some y => exact congrArg some (h y hj)
  · rfl

theorem of_mem_modify (h : x ∈ l.modify i f) : x ∈ l ∨ ∃ y ∈ l, x = f y := by
  obtain ⟨j,hj⟩ := mem_iff_getElem?.mp h
  cases of_getElem?_modify hj with
  | inl hold => exact .inl (mem_of_getElem? hold)
  | inr hnew =>
    obtain ⟨-,y,hy,rfl⟩ := hnew
    exact .inr ⟨y,mem_of_getElem? hy,rfl⟩

theorem forall_mem_modify (h : ∀ y ∈ l, P y) (hf : ∀ y, l[i]? = some y → P (f y)) :
    ∀ y ∈ l.modify i f, P y := by
  intro y hy
  obtain ⟨j,hj⟩ := mem_iff_getElem?.mp hy
  rcases of_getElem?_modify hj with hold | ⟨rfl,z,hz,rfl⟩
  · exact h y (mem_of_getElem? hold)
  · exact hf z hz

theorem map_modify_of_eq {g : α → β} (hg : ∀ y, g (f y) = g y) :
    (l.modify i f).map g = l.map g := by
  apply ext_getElem?
  intro j
  rw [getElem?_map,getElem?_map,getElem?_modify_ite]
  split
  · cases l[j]? with
    | none => rfl
    | some y => exact congrArg some (hg y)
  · rfl

theorem of_getElem?_set (h : (l.set i y)[j]? = some x) :
    i = j ∧ x = y ∨ i ≠ j ∧ l[j]? = some x := by
  rw [getElem?_set] at h
  split_ifs at h with hij hlt
  · exact .inl ⟨hij,(Option.some.inj h).symm⟩
  · exact .inr ⟨hij,h⟩

theorem of_getElem?_concat (h : (l ++ [y])[j]? = some x) :
    l[j]? = some x ∨ j = l.length ∧ x = y := by
  rw [getElem?_append] at h
  split_ifs at h with hj
  · exact .inl h
  · rw [getElem?_singleton] at h
    split_ifs at h with hz
    exact .inr ⟨by omega,(Option.some.inj h).symm⟩

theorem forall_mem_set_iff {C : Prop} (hi : l[i]? = some y) (hx : P x ↔ P y ∧ C) :
    (∀ z ∈ l.set i x, P z) ↔ (∀ z ∈ l, P z) ∧ C := by
  have hlt := (List.getElem?_eq_some_iff.mp hi).1
  constructor
  · intro h
    have hxy := hx.mp (h x (mem_set hlt x))
    refine ⟨?_,hxy.2⟩
    intro z hz
    obtain ⟨j,hj⟩ := mem_iff_getElem?.mp hz
    by_cases hij : i = j
    · subst hij
      rw [hi] at hj
      cases hj
      exact hxy.1
    · apply h
      apply mem_of_getElem?
      rw [getElem?_set_ne hij]
      exact hj
  · intro h z hz
    cases mem_or_eq_of_mem_set hz with
    | inl hold => exact h.1 z hold
    | inr heq =>
      rw [heq]
      exact hx.mpr ⟨h.1 y (mem_of_getElem? hi),h.2⟩

theorem forall₂_modify {R : β → α → Prop} (h : List.Forall₂ R l' l)
    (hf : ∀ y z, l[i]? = some z → R y z → R y (f z)) : List.Forall₂ R l' (l.modify i f) := by
  induction h generalizing i with
  | nil => simp
  | cons hy hrest ih =>
    cases i with
    | zero => exact .cons (hf _ _ rfl hy) hrest
    | succ i => exact .cons hy (ih hf)

theorem forall₂_comp {P : β → γ → Prop} {Q : α → γ → Prop} {l'' : List γ} (h : List.Forall₂ R l l')
    (h' : List.Forall₂ P l' l'') (hQ : ∀ x y z, R x y → P y z → Q x z) : List.Forall₂ Q l l'' := by
  induction h generalizing l'' with
  | nil =>
    cases h'
    exact .nil
  | cons hy _ ih =>
    cases h' with
    | cons hz hrest => exact .cons (hQ _ _ _ hy hz) (ih hrest)

theorem exists_of_mem_right {y : β} (h : List.Forall₂ R l l') (hy : y ∈ l') :
    ∃ x ∈ l, R x y := by
  induction h with
  | nil => cases hy
  | @cons x _ _ _ hx _ ih =>
    rcases mem_cons.mp hy with rfl | hrest
    · exact ⟨x,mem_cons_self,hx⟩
    · obtain ⟨z,hz,hzy⟩ := ih hrest
      exact ⟨z,mem_cons_of_mem _ hz,hzy⟩

theorem map_eq_of_forall₂ {g : α → γ} {g' : β → γ} (h : List.Forall₂ (fun x y => g' y = g x) l l') :
    l'.map g' = l.map g := by
  induction h with
  | nil => rfl
  | cons hy _ ih => rw [map_cons,map_cons,hy,ih]

theorem findIdx?_of_nodup [BEq β] [LawfulBEq β] {key : α → β} (hkeys : (l.map key).Nodup)
    (hi : l[i]? = some x) : l.findIdx? (fun y => key y == key x) = some i := by
  induction l generalizing i with
  | nil => cases hi
  | cons y l ih =>
    rw [map_cons,nodup_cons] at hkeys
    cases i with
    | zero =>
      cases hi
      rw [findIdx?_cons,beq_self_eq_true]
      rfl
    | succ i =>
      have hne : key y ≠ key x := by
        intro hsame
        exact hkeys.1 (hsame ▸ mem_map_of_mem (mem_of_getElem? hi))
      rw [findIdx?_cons,beq_eq_false_iff_ne.mpr hne,ih hkeys.2 hi]
      rfl

theorem countP_modify {p : α → Bool} (hi : l[i]? = some x) :
    (l.modify i f).countP p + (if p x then 1 else 0) = l.countP p + if p (f x) then 1 else 0 := by
  induction l generalizing i with
  | nil => cases hi
  | cons y l ih =>
    cases i with
    | zero =>
      cases hi
      rw [modify_zero_cons,countP_cons,countP_cons,Nat.add_right_comm]
    | succ i =>
      rw [modify_succ_cons,countP_cons,countP_cons,Nat.add_right_comm,ih hi,Nat.add_right_comm]

end UnifyFS.ListUpdates
