import Mathlib.Data.List.GetD
import Mathlib.Algebra.Order.Ring.Int

/-!
# Bit maps packed into words

A bit map is a list of `w`-bit words; bit `i` sits in word `i / w` at position
`i % w`. Reading outside the list yields `false` and writing there changes
nothing. Insertion and deletion of one bit are the usual mask operations, and
the range forms are the left-to-right loops over consecutive positions. Every
operation is characterised by the bits it leaves behind, so that a client
never has to open a word again.
-/
namespace UnifyFS.PackedBits
open List Option

variable {w : ℕ}

def get (m : List (BitVec w)) (i : ℕ) : Bool := (m.getD (i / w) 0#w).getLsbD (i % w)

def insert (m : List (BitVec w)) (i : ℕ) : List (BitVec w) :=
  m.set (i / w) (m.getD (i / w) 0#w ||| (1#w <<< (i % w)))

def erase (m : List (BitVec w)) (i : ℕ) : List (BitVec w) :=
  m.set (i / w) (m.getD (i / w) 0#w &&& ~~~(1#w <<< (i % w)))

/-- The loop that inserts `start, start + 1, …` in this order. -/
def insertRange (m : List (BitVec w)) (start : ℕ) : ℕ → List (BitVec w)
  | 0 => m
  | n + 1 => insertRange (insert m start) (start + 1) n

def eraseRange (m : List (BitVec w)) (start : ℕ) : ℕ → List (BitVec w)
  | 0 => m
  | n + 1 => eraseRange (erase m start) (start + 1) n

@[simp] theorem length_insert (m : List (BitVec w)) (i : ℕ) :
    (insert m i).length = m.length := by simp [insert]

@[simp] theorem length_erase (m : List (BitVec w)) (i : ℕ) :
    (erase m i).length = m.length := by simp [erase]

@[simp] theorem length_insertRange (m : List (BitVec w)) (start n : ℕ) :
    (insertRange m start n).length = m.length := by
  induction n generalizing m start with
  | zero => rfl
  | succ n ih => simp [insertRange,ih]

@[simp] theorem length_eraseRange (m : List (BitVec w)) (start n : ℕ) :
    (eraseRange m start n).length = m.length := by
  induction n generalizing m start with
  | zero => rfl
  | succ n ih => simp [eraseRange,ih]

theorem get_replicate_zero (n i : ℕ) : get (List.replicate n 0#w) i = false := by
  unfold get
  rw [getD_eq_getElem?_getD,getElem?_replicate]
  split_ifs <;> simp

theorem eq_iff_div_mod {i j : ℕ} : i = j ↔ i / w = j / w ∧ i % w = j % w := by
  constructor
  · rintro rfl
    exact ⟨rfl,rfl⟩
  · rintro ⟨hd,hm⟩
    rw [← Nat.div_add_mod i w,← Nat.div_add_mod j w,hd,hm]

private theorem getLsbD_mask (hw : 0 < w) (i j : ℕ) :
    (1#w <<< (i % w)).getLsbD (j % w) = decide (i % w = j % w) := by
  have hj := Nat.mod_lt j hw
  simp only [BitVec.getLsbD_shiftLeft,BitVec.getLsbD_one,hj,decide_true,Bool.true_and]
  by_cases h : i % w = j % w
  · simp [h,hw]
  · by_cases hlt : j % w < i % w
    · simp [h,hlt]
    · have : j % w - i % w ≠ 0 := by omega
      simp [h,this]

theorem get_insert {m : List (BitVec w)} {i : ℕ} (hi : i < m.length * w) (j : ℕ) :
    get (insert m i) j = (decide (i = j) || get m j) := by
  have hw : 0 < w := by
    rcases Nat.eq_zero_or_pos w with rfl | h
    · simp at hi
    · exact h
  have hd := Nat.div_lt_of_lt_mul (by rwa [Nat.mul_comm])
  unfold get insert
  by_cases h : i / w = j / w
  · rw [← h]
    simp only [getD_eq_getElem?_getD,getElem?_set_self hd,getD_some,
      BitVec.getLsbD_or,getLsbD_mask hw]
    rw [Bool.or_comm]
    congr 1
    rw [decide_eq_decide,eq_iff_div_mod (w := w) (i := i)]
    exact ⟨fun hm => ⟨h,hm⟩,And.right⟩
  · have hne : i ≠ j := fun he => h (by rw [he])
    simp [getD_eq_getElem?_getD,getElem?_set_ne h,hne]

theorem get_erase (hw : 0 < w) (m : List (BitVec w)) (i j : ℕ) :
    get (erase m i) j = (get m j && !decide (i = j)) := by
  unfold get erase
  by_cases h : i / w = j / w
  · rw [← h]
    by_cases hd : i / w < m.length
    · simp only [getD_eq_getElem?_getD,getElem?_set_self hd,getD_some,
        BitVec.getLsbD_and,BitVec.getLsbD_not,getLsbD_mask hw,Nat.mod_lt j hw,decide_true,
        Bool.true_and]
      congr 2
      rw [decide_eq_decide,eq_iff_div_mod (w := w) (i := i)]
      exact ⟨fun hm => ⟨h,hm⟩,And.right⟩
    · simp [getD_eq_getElem?_getD,Nat.le_of_not_lt hd]
  · have hne : i ≠ j := fun he => h (by rw [he])
    simp [getD_eq_getElem?_getD,getElem?_set_ne h,hne]

theorem get_insertRange {m : List (BitVec w)} {start n : ℕ} (h : start + n ≤ m.length * w) (j : ℕ) :
    get (insertRange m start n) j = (decide (start ≤ j ∧ j < start + n) || get m j) := by
  induction n generalizing m start with
  | zero =>
    have : ¬ (start ≤ j ∧ j < start + 0) := by omega
    rw [insertRange,decide_eq_false this,Bool.false_or]
  | succ n ih =>
    rw [insertRange,ih (by rw [length_insert]; omega),get_insert (by omega),
      ← Bool.or_assoc,← Bool.decide_or]
    congr 1
    rw [decide_eq_decide]
    omega

theorem get_eraseRange (hw : 0 < w) (m : List (BitVec w)) (start n j : ℕ) :
    get (eraseRange m start n) j = (get m j && !decide (start ≤ j ∧ j < start + n)) := by
  induction n generalizing m start with
  | zero =>
    have : ¬ (start ≤ j ∧ j < start + 0) := by omega
    rw [eraseRange,decide_eq_false this,Bool.not_false,Bool.and_true]
  | succ n ih =>
    rw [eraseRange,ih,get_erase hw,Bool.and_assoc,← Bool.not_or,← Bool.decide_or]
    congr 2
    rw [decide_eq_decide]
    omega

theorem ext_get (hw : 0 < w) {m m' : List (BitVec w)} (hlen : m.length = m'.length)
    (h : ∀ i, get m i = get m' i) : m = m' := by
  refine ext_getElem hlen fun k hk hk' => BitVec.eq_of_getLsbD_eq fun j hj => ?_
  have hbit := h (k * w + j)
  have hdiv : (k * w + j) / w = k := by
    rw [Nat.mul_comm,Nat.mul_add_div hw,Nat.div_eq_of_lt hj,Nat.add_zero]
  have hmod : (k * w + j) % w = j := by rw [Nat.mul_comm,Nat.mul_add_mod,Nat.mod_eq_of_lt hj]
  simpa only [get,hdiv,hmod,getD_eq_getElem,hk,hk'] using hbit

end UnifyFS.PackedBits
