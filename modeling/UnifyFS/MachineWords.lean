import Mathlib.Algebra.Order.Ring.Int

/-!
# Machine words

Counters and sizes are natural numbers. Subtraction may leave the range of a 64-bit
word in the programs at hand and wraps around. Addition and multiplication do so only where the
numbers come from outside; there they are `wordAdd` and `wordMul`. An operation on values of type
`int` has no result outside the range of the type.
Running numbers are reduced to remainders where they index a table.
-/
namespace UnifyFS.MachineWords

def wordSize : ℕ := 2 ^ 64

/-- The C expression `a - b` on two 64-bit unsigned words. -/
def wordSub (a b : ℕ) : ℕ := if b ≤ a then a - b else wordSize - (b - a)

variable {a b : ℕ}

theorem wordSub_of_le (h : b ≤ a) : wordSub a b = a - b := if_pos h

theorem wordSub_of_lt (h : a < b) : wordSub a b = wordSize - (b - a) :=
  if_neg (Nat.not_le.mpr h)

theorem wordSub_ne (hb : 0 < b) (hb' : b < wordSize) : wordSub a b ≠ a := by
  unfold wordSub
  split_ifs <;> omega

/-- The C expression `a + b` on two 64-bit unsigned words. -/
def wordAdd (a b : ℕ) : ℕ := if a + b < wordSize then a + b else a + b - wordSize

theorem wordAdd_of_lt (h : a + b < wordSize) : wordAdd a b = a + b := if_pos h

theorem wordAdd_lt (hb : b < wordSize) (h : wordSize ≤ a + b) : wordAdd a b < a := by
  rw [wordAdd,if_neg (Nat.not_lt.mpr h)]
  omega

/-- The C expression `a * b` on two 64-bit unsigned words. -/
def wordMul (a b : ℕ) : ℕ := a * b % wordSize

theorem wordMul_of_lt (h : a * b < wordSize) : wordMul a b = a * b := Nat.mod_eq_of_lt h

/-- Every remainder is met within one round of consecutive numbers. -/
theorem exists_add_mod_eq (m : ℕ) {p q : ℕ} (hp : p < q) : ∃ k < q, (m + k) % q = p := by
  have hm := Nat.mod_lt m (show 0 < q by omega)
  have hsum : m % q + (p + (q - m % q)) = p + q := by omega
  refine ⟨(p + (q - m % q)) % q,Nat.mod_lt _ (by omega),?_⟩
  rw [Nat.add_mod,Nat.mod_mod,← Nat.add_mod_mod,Nat.mod_mod,Nat.add_mod_mod,hsum,
    Nat.add_mod_right,Nat.mod_eq_of_lt hp]

theorem exists_add_mod_mod_eq (n : ℕ) {p q w : ℕ} (hq : q ≤ w) (hp : p < q) :
    ∃ k < 2 * q, (n + k) % w % q = p := by
  have hm := Nat.mod_lt n (show 0 < w by omega)
  by_cases hroom : n % w + q ≤ w
  · obtain ⟨k,hk,he⟩ := exists_add_mod_eq (n % w) hp
    refine ⟨k,by omega,?_⟩
    rw [Nat.add_mod,Nat.mod_eq_of_lt (show k < w by omega),
      Nat.mod_eq_of_lt (show n % w + k < w by omega)]
    exact he
  · refine ⟨w - n % w + p,by omega,?_⟩
    rw [← Nat.mod_add_mod,← Nat.add_assoc,Nat.add_sub_cancel' (Nat.le_of_lt hm),Nat.add_mod_left,
      Nat.mod_eq_of_lt (show p < w by omega),Nat.mod_eq_of_lt hp]

/-- The number of values of type `unsigned int`. -/
def uintRange : ℕ := 2 ^ 32

def intMax : ℤ := 2 ^ 31 - 1

/-- The result of an operation on values of type `int`, if it is of that type. -/
def asInt (x : ℤ) : Option ℤ := if -intMax - 1 ≤ x ∧ x ≤ intMax then some x else none

theorem asInt_of_mem {x : ℤ} (h : 0 ≤ x ∧ x ≤ intMax) : asInt x = some x := by
  refine if_pos ⟨?_,h.2⟩
  omega

end UnifyFS.MachineWords
