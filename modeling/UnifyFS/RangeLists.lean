import Mathlib.Data.List.TakeWhile
import Mathlib.Algebra.Order.Ring.Int

/-!
# Ordered lists of address ranges

A range of addresses carries some information, and `val` says what that
information gives to the address that lies so many places into the range. A list
of ranges in order and without overlap is a partial map from addresses to values.
Two such lists are compared through this map and never entry by entry, so how
the addresses are cut into ranges does not matter.
-/
namespace UnifyFS.RangeLists
open List Option

/-- Both ends belong to the range. -/
structure Range (P : Type*) where
  start : ℕ
  stop : ℕ
  info : P
  deriving DecidableEq, Repr

variable {P V : Type*}

namespace Range

def Holds (n : Range P) (b : ℕ) : Prop := n.start ≤ b ∧ b ≤ n.stop

instance (n : Range P) (b : ℕ) : Decidable (n.Holds b) := inferInstanceAs (Decidable (_ ∧ _))

/-- Two ranges compare as equal when they share an address. -/
def Meets (m n : Range P) : Prop := m.start ≤ n.stop ∧ n.start ≤ m.stop

instance (m n : Range P) : Decidable (m.Meets n) := inferInstanceAs (Decidable (_ ∧ _))

def value (val : P → ℕ → V) (n : Range P) (b : ℕ) : V := val n.info (b - n.start)

def length (n : Range P) : ℕ := n.stop - n.start + 1

theorem Meets.exists_holds {m n : Range P} (h : m.Meets n) (hm : m.start ≤ m.stop)
    (hn : n.start ≤ n.stop) : ∃ b, m.Holds b ∧ n.Holds b := by
  refine ⟨max m.start n.start,?_⟩
  unfold Meets at h
  unfold Holds
  omega

end Range

structure Separate (l : List (Range P)) : Prop where
  ordered : l.Pairwise fun a b => a.stop < b.start
  start_le : ∀ n ∈ l, n.start ≤ n.stop

def contents (val : P → ℕ → V) (l : List (Range P)) (b : ℕ) : Option V :=
  (l.find? fun n => decide (n.Holds b)).map fun n => n.value val b

/-- The range enters the list in order. -/
def place (n : Range P) (l : List (Range P)) : List (Range P) :=
  (l.takeWhile fun m => decide (m.stop < n.start)) ++
    n :: l.dropWhile fun m => decide (m.stop < n.start)

/-- The greatest address of the list, zero when it is empty. -/
def IsTop (l : List (Range P)) (top : ℕ) : Prop :=
  (∀ n ∈ l, n.stop ≤ top) ∧ (l = [] ∧ top = 0 ∨ ∃ n ∈ l, n.stop = top)

section Contents
variable {val : P → ℕ → V} {l l' : List (Range P)} {m n : Range P} {b : ℕ} {v : V}
  {post : List (Range P)}

@[simp] theorem contents_nil (val : P → ℕ → V) (b : ℕ) : contents val [] b = none := rfl

theorem contents_cons (n : Range P) (l : List (Range P)) (b : ℕ) :
    contents val (n :: l) b = if n.Holds b then some (n.value val b) else contents val l b := by
  unfold contents
  by_cases hb : n.Holds b
  · simp [hb]
  · simp [hb]

theorem contents_append (l l' : List (Range P)) (b : ℕ) :
    contents val (l ++ l') b = (contents val l b).or (contents val l' b) := by
  induction l with
  | nil => rfl
  | cons n l ih =>
    rw [cons_append,contents_cons,contents_cons,ih]
    split
    · rfl
    · rfl

theorem contents_eq_none_iff : contents val l b = none ↔ ∀ n ∈ l, ¬ n.Holds b := by
  rw [contents,map_eq_none_iff]
  simp

theorem contents_replace (hholds : m.Holds b ↔ n.Holds b)
    (hvalue : n.Holds b → m.value val b = n.value val b) :
    contents val (l ++ m :: post) b = contents val (l ++ n :: post) b := by
  rw [contents_append,contents_append,contents_cons,contents_cons]
  by_cases hb : n.Holds b
  · rw [if_pos hb,if_pos (hholds.mpr hb),hvalue hb]
  · rw [if_neg hb,if_neg (hholds.not.mpr hb)]

theorem contents_remove (hb : ¬ n.Holds b) :
    contents val (l ++ post) b = contents val (l ++ n :: post) b := by
  rw [contents_append,contents_append,contents_cons,if_neg hb]

theorem exists_holds_iff (val : P → ℕ → V) : (∃ n ∈ l, n.Holds b) ↔ (contents val l b).isSome := by
  rw [contents,isSome_map]
  simp

namespace Separate

theorem nil : Separate ([] : List (Range P)) := ⟨List.Pairwise.nil,by simp⟩

theorem sublist (h : Separate l) (hs : l'.Sublist l) : Separate l' :=
  ⟨h.ordered.sublist hs,fun n hn => h.start_le n (hs.subset hn)⟩

theorem tail (h : Separate (n :: l)) : Separate l := h.sublist (sublist_cons_self n l)

theorem cons (h : Separate l) (hn : n.start ≤ n.stop) (hlt : ∀ m ∈ l, n.stop < m.start) :
    Separate (n :: l) := by
  refine ⟨pairwise_cons.mpr ⟨hlt,h.ordered⟩,?_⟩
  intro m hm
  cases mem_cons.mp hm with
  | inl heq => exact heq ▸ hn
  | inr hm => exact h.start_le m hm

theorem append (h : Separate l) (h' : Separate l')
    (hlt : ∀ m ∈ l, ∀ n ∈ l', m.stop < n.start) : Separate (l ++ l') := by
  refine ⟨pairwise_append.mpr ⟨h.ordered,h'.ordered,hlt⟩,?_⟩
  intro m hm
  cases mem_append.mp hm with
  | inl hm => exact h.start_le m hm
  | inr hm => exact h'.start_le m hm

theorem of_append (h : Separate (l ++ l')) :
    Separate l ∧ Separate l' ∧ ∀ m ∈ l, ∀ n ∈ l', m.stop < n.start :=
  ⟨h.sublist (sublist_append_left l l'),h.sublist (sublist_append_right l l'),
    (pairwise_append.mp h.ordered).2.2⟩

variable {post : List (Range P)}

theorem replace (h : Separate (l ++ n :: post)) (hm : m.start ≤ m.stop) (hlo : n.start ≤ m.start)
    (hhi : m.stop ≤ n.stop) : Separate (l ++ m :: post) := by
  obtain ⟨hl,hpost,hlt⟩ := h.of_append
  apply hl.append (hpost.tail.cons hm ?_)
  · intro k hk r hr
    have hkn := hlt k hk n mem_cons_self
    cases mem_cons.mp hr with
    | inl heq =>
      rw [heq]
      omega
    | inr hr => exact hlt k hk r (mem_cons_of_mem _ hr)
  · intro r hr
    have := rel_of_pairwise_cons hpost.ordered hr
    omega

theorem remove (h : Separate (l ++ n :: post)) : Separate (l ++ post) :=
  h.sublist ((sublist_cons_self n post).append_left l)

theorem eq_of_holds (h : Separate l) (hm : m ∈ l) (hn : n ∈ l) (hmb : m.Holds b)
    (hnb : n.Holds b) : m = n := by
  induction l with
  | nil => cases hm
  | cons k l ih =>
    have hk : ∀ r ∈ l, k.stop < r.start := fun _ => rel_of_pairwise_cons h.ordered
    unfold Range.Holds at hmb hnb
    cases mem_cons.mp hm with
    | inl hmk =>
      cases mem_cons.mp hn with
      | inl hnk => rw [hmk,hnk]
      | inr hn =>
        have := hk n hn
        rw [hmk] at hmb
        omega
    | inr hm =>
      cases mem_cons.mp hn with
      | inl hnk =>
        have := hk m hm
        rw [hnk] at hnb
        omega
      | inr hn => exact ih h.tail hm hn

theorem nodup (h : Separate l) : l.Nodup := by
  refine h.ordered.imp_of_mem ?_
  intro a b ha _ hab heq
  have hle := h.start_le a ha
  rw [heq] at hab hle
  omega

theorem contents_eq_some_iff (h : Separate l) :
    contents val l b = some v ↔ ∃ n ∈ l, n.Holds b ∧ n.value val b = v := by
  constructor
  · intro hv
    obtain ⟨n,hfind,hval⟩ := map_eq_some_iff.mp hv
    exact ⟨n,mem_of_find?_eq_some hfind,by simpa using find?_some hfind,hval⟩
  · rintro ⟨n,hn,hnb,rfl⟩
    have hsome : (l.find? fun n => decide (n.Holds b)).isSome :=
      find?_isSome.mpr ⟨n,hn,decide_eq_true hnb⟩
    obtain ⟨m,hm⟩ := isSome_iff_exists.mp hsome
    have heq := h.eq_of_holds (mem_of_find?_eq_some hm) hn (by simpa using find?_some hm) hnb
    rw [contents,hm,heq,map_some]

theorem contents_of_mem (h : Separate l) (hn : n ∈ l) (hb : n.Holds b) :
    contents val l b = some (n.value val b) := h.contents_eq_some_iff.mpr ⟨n,hn,hb,rfl⟩

theorem contents_tail_eq_none (h : Separate (n :: l)) (hb : n.Holds b) :
    contents val l b = none := by
  rw [contents_eq_none_iff]
  intro m hm hmb
  have hlt := rel_of_pairwise_cons h.ordered hm
  have := hb.2
  have := hmb.1
  omega

theorem contents_congr (h : Separate l) (h' : Separate l')
    (hl : ∀ n ∈ l, n.Holds b → ∃ n' ∈ l', n'.Holds b ∧ n'.value val b = n.value val b)
    (hl' : ∀ n ∈ l', n.Holds b → ∃ m ∈ l, m.Holds b) : contents val l b = contents val l' b := by
  cases hc : contents val l b with
  | none =>
    rw [eq_comm,contents_eq_none_iff]
    intro n hn hb
    obtain ⟨m,hm,hmb⟩ := hl' n hn hb
    exact contents_eq_none_iff.mp hc m hm hmb
  | some v =>
    obtain ⟨n,hn,hb,hv⟩ := h.contents_eq_some_iff.mp hc
    obtain ⟨n',hn',hb',hv'⟩ := hl n hn hb
    rw [eq_comm,h'.contents_eq_some_iff]
    exact ⟨n',hn',hb',hv'.trans hv⟩

end Separate
end Contents

section Place
variable {l : List (Range P)} {m n : Range P}

theorem mem_place : m ∈ place n l ↔ m = n ∨ m ∈ l := by
  have hsplit : m ∈ l ↔ m ∈ (l.takeWhile fun m => decide (m.stop < n.start)) ∨
      m ∈ l.dropWhile fun m => decide (m.stop < n.start) := by
    rw [← mem_append,takeWhile_append_dropWhile]
  rw [place,mem_append,mem_cons,hsplit]
  exact or_left_comm

theorem length_place : (place n l).length = l.length + 1 := by
  have h := congrArg List.length
    (takeWhile_append_dropWhile (p := fun m => decide (m.stop < n.start)) (l := l))
  simp only [place,length_append,length_cons] at h ⊢
  omega

theorem stop_lt_of_mem_takeWhile
    (h : m ∈ l.takeWhile fun m => decide (m.stop < n.start)) : m.stop < n.start := by
  simpa using mem_takeWhile_imp h

theorem le_stop_of_mem_dropWhile {a : ℕ} (hl : Separate l)
    (h : m ∈ l.dropWhile fun m => decide (m.stop < a)) : a ≤ m.stop := by
  induction l with
  | nil => cases h
  | cons k l ih =>
    rw [dropWhile_cons] at h
    split at h
    · exact ih hl.tail h
    · next hk =>
      have hak : a ≤ k.stop := by simpa using hk
      cases mem_cons.mp h with
      | inl heq => exact heq ▸ hak
      | inr hm =>
        have hlt := rel_of_pairwise_cons hl.ordered hm
        have hle := hl.tail.start_le m hm
        omega

theorem lt_start_of_mem_dropWhile (hl : Separate l) (hmeet : ∀ m ∈ l, ¬ m.Meets n)
    (h : m ∈ l.dropWhile fun m => decide (m.stop < n.start)) : n.stop < m.start := by
  have hle := le_stop_of_mem_dropWhile hl h
  have hm := hmeet m (dropWhile_subset _ h)
  unfold Range.Meets at hm
  omega

theorem separate_place (hl : Separate l) (hn : n.start ≤ n.stop)
    (hmeet : ∀ m ∈ l, ¬ m.Meets n) : Separate (place n l) := by
  have hpost : Separate (n :: l.dropWhile fun m => decide (m.stop < n.start)) := by
    apply (hl.sublist (dropWhile_sublist _)).cons hn
    intro m hm
    exact lt_start_of_mem_dropWhile hl hmeet hm
  apply (hl.sublist (takeWhile_sublist _)).append hpost
  intro m hm k hk
  have hlt := stop_lt_of_mem_takeWhile hm
  cases mem_cons.mp hk with
  | inl heq => exact heq ▸ hlt
  | inr hk =>
    have := lt_start_of_mem_dropWhile hl hmeet hk
    omega

theorem contents_place {val : P → ℕ → V} {b : ℕ} (hl : Separate l) (hn : n.start ≤ n.stop)
    (hmeet : ∀ m ∈ l, ¬ m.Meets n) : contents val (place n l) b =
      if n.Holds b then some (n.value val b) else contents val l b := by
  have hplace := separate_place hl hn hmeet
  split
  · next hb => exact hplace.contents_of_mem (mem_place.mpr (.inl rfl)) hb
  · next hb =>
    apply hplace.contents_congr hl
    · intro m hm hmb
      cases mem_place.mp hm with
      | inl heq => exact absurd (heq ▸ hmb) hb
      | inr hm => exact ⟨m,hm,hmb,rfl⟩
    · intro m hm hmb
      exact ⟨m,mem_place.mpr (.inr hm),hmb⟩

end Place

theorem stop_le_iff {l : List (Range P)} {c : ℕ} (val : P → ℕ → V) (hl : Separate l) :
    (∀ n ∈ l, n.stop ≤ c) ↔ ∀ b, (contents val l b).isSome → b ≤ c := by
  constructor
  · intro h b hb
    obtain ⟨n,hn,hnb⟩ := (exists_holds_iff val).mpr hb
    exact Nat.le_trans hnb.2 (h n hn)
  · intro h n hn
    exact h n.stop ((exists_holds_iff val).mp ⟨n,hn,hl.start_le n hn,Nat.le_refl _⟩)

section Top
variable {val : P → ℕ → V} {l l' : List (Range P)} {top : ℕ} {n : Range P} {top' : ℕ}

theorem isTop_nil : IsTop ([] : List (Range P)) 0 := ⟨by simp,.inl ⟨rfl,rfl⟩⟩

theorem IsTop.le_of_holds (h : IsTop l top) {b : ℕ} (hn : n ∈ l) (hb : n.Holds b) :
    b ≤ top := Nat.le_trans hb.2 (h.1 n hn)

theorem isTop_iff (hl : Separate l) : IsTop l top ↔
    (∀ n ∈ l, ∀ b, n.Holds b → b ≤ top) ∧ (top = 0 ∨ ∃ n ∈ l, n.Holds top) := by
  constructor
  · intro h
    refine ⟨fun n hn b hb => h.le_of_holds hn hb,?_⟩
    rcases h.2 with ⟨-,hzero⟩ | ⟨n,hn,rfl⟩
    · exact .inl hzero
    · exact .inr ⟨n,hn,hl.start_le n hn,le_rfl⟩
  · rintro ⟨hle,htop⟩
    have hstop : ∀ n ∈ l, n.stop ≤ top := fun n hn => hle n hn n.stop ⟨hl.start_le n hn,le_rfl⟩
    refine ⟨hstop,?_⟩
    rcases htop with rfl | ⟨n,hn,htop⟩
    · cases l with
      | nil => exact .inl ⟨rfl,rfl⟩
      | cons n l => exact .inr ⟨n,mem_cons_self,Nat.le_zero.mp (hstop n mem_cons_self)⟩
    · exact .inr ⟨n,hn,Nat.le_antisymm (hstop n hn) htop.2⟩

theorem IsTop.le_of_contents (hl : Separate l) (h : IsTop l top) (h' : IsTop l' top')
    (hsame : ∀ b, contents val l b = contents val l' b) : top ≤ top' := by
  rcases ((isTop_iff hl).mp h).2 with rfl | hheld
  · exact Nat.zero_le top'
  · rw [exists_holds_iff val,hsame] at hheld
    obtain ⟨m,hm,hmb⟩ := (exists_holds_iff val).mpr hheld
    exact h'.le_of_holds hm hmb

theorem IsTop.eq_of_contents (hl : Separate l) (hl' : Separate l') (h : IsTop l top)
    (h' : IsTop l' top') (hsame : ∀ b, contents val l b = contents val l' b) : top = top' :=
  Nat.le_antisymm (h.le_of_contents hl h' hsame) (h'.le_of_contents hl' h fun b => (hsame b).symm)

theorem isTop_overwrite (hl : Separate l) (hl' : Separate l') (htop : IsTop l top)
    (hn : n.start ≤ n.stop)
    (h : ∀ b, contents val l' b = if n.Holds b then some (n.value val b) else contents val l b) :
    IsTop l' (max top n.stop) := by
  have hheld : ∀ b, (∃ m ∈ l', m.Holds b) ↔ n.Holds b ∨ ∃ m ∈ l, m.Holds b := by
    intro b
    rw [exists_holds_iff val,exists_holds_iff val,h b]
    by_cases hb : n.Holds b
    · simp [hb]
    · simp [hb]
  refine (isTop_iff hl').mpr ⟨fun m hm b hb => ?_,?_⟩
  · rcases (hheld b).mp ⟨m,hm,hb⟩ with hb | ⟨k,hk,hb⟩
    · exact Nat.le_trans hb.2 (Nat.le_max_right _ _)
    · exact Nat.le_trans (htop.le_of_holds hk hb) (Nat.le_max_left _ _)
  · rw [hheld]
    by_cases hlt : top ≤ n.stop
    · rw [Nat.max_eq_right hlt]
      exact .inr (.inl ⟨hn,Nat.le_refl _⟩)
    · rw [Nat.max_eq_left (by omega)]
      exact ((isTop_iff hl).mp htop).2.imp_right .inr

end Top
end UnifyFS.RangeLists
