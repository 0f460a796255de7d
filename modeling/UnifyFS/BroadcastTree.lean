import UnifyFS.MachineWords
import UnifyFS.RootedTrees

/-!
# The broadcast tree of the servers

Each rank computes its own place in a tree of a given degree with `unifyfs_tree_init`: ranks
are numbered from the root on, the children of number `q` are the `k` numbers after `q * k`,
and the numbers are rotated back. Nothing is exchanged, so the places must fit together by the
arithmetic alone. The allocation of the list of children succeeds.
-/
namespace UnifyFS.BroadcastTree
open MachineWords RootedTrees List Option

structure Tree where
  rank : ℤ
  ranks : ℤ
  parentRank : ℤ
  childRanks : List ℤ
  deriving DecidableEq, Repr

def distance (rank ranks root : ℤ) : Option ℤ := do
  let rank ← asInt (rank - root)
  if rank < 0 then asInt (rank + ranks) else pure rank

def rotate (ranks root rank : ℤ) : Option ℤ := do
  let rank ← asInt (rank + root)
  pure (if ranks ≤ rank then rank - ranks else rank)

def parentNumber (k rank : ℤ) : ℤ := if 0 < rank then (rank - 1).tdiv k else -1

def rotateParent (ranks root parentRank : ℤ) : Option ℤ :=
  if parentRank ≠ -1 then rotate ranks root parentRank else some parentRank

def childNumbers (left right ranks : ℤ) : List ℤ :=
  if left < ranks then
    let right := if ranks ≤ right then ranks - 1 else right
    (List.range (right - left + 1).toNat).map fun (i : ℕ) => left + i
  else []

def treeInit (rank ranks root k : ℤ) : Option Tree := do
  let rank ← distance rank ranks root
  let left ← asInt (rank * k + 1)
  let right ← asInt (rank * k + k)
  let treeRank ← rotate ranks root rank
  let parentRank ← rotateParent ranks root (parentNumber k rank)
  let childRanks ← (childNumbers left right ranks).mapM (rotate ranks root)
  pure ⟨treeRank,ranks,parentRank,childRanks⟩

/-- The ranks to which a rank forwards a message of the root. -/
def forwardRanks (ranks root k rank : ℤ) : List ℤ :=
  (treeInit rank ranks root k).elim [] Tree.childRanks

section Numbers
variable {n k root : ℤ}

def number (n root r : ℤ) : ℤ := if r < root then r - root + n else r - root

def rankOf (n root q : ℤ) : ℤ := if n ≤ q + root then q + root - n else q + root

structure InTree (n r : ℤ) : Prop where
  nonneg : 0 ≤ r
  lt : r < n

section
variable {r q : ℤ}

theorem rankOf_eq_iff (hq : InTree n q) (hr : InTree n r) :
    rankOf n root q = r ↔ q = number n root r := by
  obtain ⟨hq₀,hq₁⟩ := hq
  obtain ⟨hr₀,hr₁⟩ := hr
  unfold rankOf number
  split <;> split <;> omega

variable (hroot : InTree n root)
include hroot

theorem number_inTree (hr : InTree n r) : InTree n (number n root r) := by
  obtain ⟨hroot₀,hroot₁⟩ := hroot
  obtain ⟨hr₀,hr₁⟩ := hr
  unfold number
  split <;> constructor <;> omega

theorem rankOf_inTree (hq : InTree n q) : InTree n (rankOf n root q) := by
  obtain ⟨hroot₀,hroot₁⟩ := hroot
  obtain ⟨hq₀,hq₁⟩ := hq
  unfold rankOf
  split <;> constructor <;> omega

theorem number_eq_zero_iff (hr : InTree n r) : number n root r = 0 ↔ r = root := by
  obtain ⟨hroot₀,hroot₁⟩ := hroot
  obtain ⟨hr₀,hr₁⟩ := hr
  unfold number
  split <;> omega

theorem number_pos (hr : InTree n r) (hne : r ≠ root) : 0 < number n root r := by
  have hzero := mt (number_eq_zero_iff hroot hr).mp hne
  have hnonneg := (number_inTree hroot hr).nonneg
  omega

theorem distance_eq (hr : InTree n r) (hn : n ≤ intMax) :
    distance r n root = some (number n root r) := by
  obtain ⟨hroot₀,hroot₁⟩ := hroot
  obtain ⟨hr₀,hr₁⟩ := hr
  have hsub : asInt (r - root) = some (r - root) := if_pos ⟨by omega,by omega⟩
  unfold distance number
  rw [hsub]
  change (if r - root < 0 then asInt (r - root + n) else some (r - root)) = _
  split
  · rw [asInt_of_mem ⟨by omega,by omega⟩,if_pos (by omega)]
  · rw [if_neg (by omega)]

theorem rotate_eq (hq : InTree n q) (hfits : root + n - 1 ≤ intMax) :
    rotate n root q = some (rankOf n root q) := by
  obtain ⟨hroot₀,hroot₁⟩ := hroot
  obtain ⟨hq₀,hq₁⟩ := hq
  unfold rotate
  rw [asInt_of_mem ⟨by omega,by omega⟩]
  rfl

end

theorem mem_childNumbers {left right c : ℤ} :
    c ∈ childNumbers left right n ↔ left ≤ c ∧ c ≤ right ∧ c < n := by
  unfold childNumbers
  split
  · simp only [List.mem_map,mem_range]
    constructor
    · rintro ⟨i,hi,rfl⟩
      split at hi <;> omega
    · rintro ⟨hle,hright,hlt⟩
      refine ⟨(c - left).toNat,?_,by omega⟩
      split <;> omega
  · simp only [not_mem_nil,false_iff]
    omega

theorem nodup_childNumbers (left right n : ℤ) : (childNumbers left right n).Nodup := by
  unfold childNumbers
  split
  · refine nodup_range.map fun i j h => ?_
    omega
  · exact nodup_nil

theorem tdiv_eq_iff {p q : ℤ} (hk : 0 < k) (hp : 0 ≤ p) (hq : 0 ≤ q) :
    p * k + 1 ≤ q ∧ q ≤ p * k + k ↔ 0 < q ∧ (q - 1).tdiv k = p := by
  have hpk := Int.mul_nonneg hp (Int.le_of_lt hk)
  constructor
  · intro h
    refine ⟨by omega,?_⟩
    rw [Int.tdiv_eq_ediv_of_nonneg (by omega)]
    apply Int.le_antisymm
    · exact Int.lt_add_one_iff.mp (Int.ediv_lt_of_lt_mul hk (by rw [Int.add_mul]; omega))
    · exact Int.le_ediv_of_mul_le hk (by omega)
  · rintro ⟨hpos,rfl⟩
    rw [Int.tdiv_eq_ediv_of_nonneg (by omega)]
    have hle := Int.ediv_mul_le (q - 1) (Int.ne_of_gt hk)
    have hlt := Int.lt_ediv_add_one_mul_self (q - 1) hk
    rw [Int.add_mul] at hlt
    omega

end Numbers

section Init
variable {n k root : ℤ} {r : ℤ}

/-- The sizes for which the numbers of all ranks and of their children are of type `int`. -/
structure Fits (n k root : ℤ) : Prop where
  inTree : InTree n root
  degree : 0 < k
  children : n * k + k ≤ intMax
  rotated : root + n - 1 ≤ intMax

theorem mapM_eq_some {f : ℤ → Option ℤ} {g : ℤ → ℤ} {l : List ℤ}
    (h : ∀ x ∈ l, f x = some (g x)) : l.mapM f = some (l.map g) := by
  induction l with
  | nil => rfl
  | cons x l ih =>
    rw [mapM_cons,h x mem_cons_self,ih fun y hy => h y (mem_cons_of_mem _ hy)]
    rfl

theorem parentNumber_inTree {q : ℤ} (hk : 0 < k) (hq : InTree n q) (hpos : 0 < q) :
    InTree n (parentNumber k q) := by
  obtain ⟨hq₀,hq₁⟩ := hq
  rw [parentNumber,if_pos hpos,Int.tdiv_eq_ediv_of_nonneg (by omega)]
  exact ⟨Int.ediv_nonneg (by omega) (by omega),by
    have := Int.ediv_le_self k (show 0 ≤ q - 1 by omega)
    omega⟩

theorem rotateParent_eq (hk : 0 < k) (hroot : InTree n root) (hr : InTree n r)
    (hrotated : root + n - 1 ≤ intMax) : rotateParent n root (parentNumber k (number n root r)) =
      some (if r = root then -1 else rankOf n root (parentNumber k (number n root r))) := by
  have hq := number_inTree hroot hr
  have hzero := number_eq_zero_iff hroot hr
  by_cases hpos : 0 < number n root r
  · have hparent := parentNumber_inTree hk hq hpos
    have hnonneg := hparent.nonneg
    rw [rotateParent,if_pos (by omega),rotate_eq hroot hparent hrotated,
      if_neg fun heq => by rw [hzero.mpr heq] at hpos; omega]
  · have hnum : number n root r = 0 := by
      have := hq.nonneg
      omega
    rw [hnum,if_pos (hzero.mp hnum)]
    rfl

def treeAt (n k root r : ℤ) : Tree where
  rank := r
  ranks := n
  parentRank := if r = root then -1 else rankOf n root (parentNumber k (number n root r))
  childRanks := (childNumbers (number n root r * k + 1) (number n root r * k + k) n).map
    (rankOf n root)

theorem treeInit_eq (h : Fits n k root) (hr : InTree n r) :
    treeInit r n root k = some (treeAt n k root r) := by
  have hq := number_inTree h.inTree hr
  obtain ⟨hq₀,hq₁⟩ := hq
  obtain ⟨hroot,hk,hchildren,hrotated⟩ := h
  have hn : n * 1 ≤ n * k := Int.mul_le_mul_of_nonneg_left (by omega) (by omega)
  have hmul : (number n root r + 1) * k ≤ n * k :=
    Int.mul_le_mul_of_nonneg_right (by omega) (by omega)
  have hqk := Int.mul_nonneg hq₀ (Int.le_of_lt hk)
  rw [Int.add_mul] at hmul
  have hself : rotate n root (number n root r) = some r := by
    rw [rotate_eq hroot ⟨hq₀,hq₁⟩ hrotated]
    exact congrArg some ((rankOf_eq_iff ⟨hq₀,hq₁⟩ hr).mpr rfl)
  unfold treeInit
  rw [distance_eq hroot hr (by omega)]
  simp only [bind_eq_bind,bind_some]
  rw [asInt_of_mem ⟨by omega,by omega⟩,bind_some,asInt_of_mem ⟨by omega,by omega⟩,
    bind_some,hself,bind_some,rotateParent_eq hk hroot hr hrotated,
    bind_some,mapM_eq_some]
  · rfl
  · intro c hc
    have := mem_childNumbers.mp hc
    exact rotate_eq hroot ⟨by omega,by omega⟩ hrotated

theorem mem_forwardRanks {c p : ℤ} (h : Fits n k root) (hp : InTree n p) :
    c ∈ forwardRanks n root k p ↔ InTree n c ∧ 0 < number n root c ∧
      parentNumber k (number n root c) = number n root p := by
  have hq := (number_inTree h.inTree hp).nonneg
  rw [forwardRanks,treeInit_eq h hp]
  simp only [elim_some,treeAt,List.mem_map,mem_childNumbers]
  constructor
  · rintro ⟨q,⟨hleft,hright,hlt⟩,rfl⟩
    have hmul := Int.mul_nonneg hq (Int.le_of_lt h.degree)
    have hqTree : InTree n q := ⟨by omega,hlt⟩
    have hc := rankOf_inTree h.inTree hqTree
    rw [← (rankOf_eq_iff hqTree hc).mp rfl]
    have hdiv := (tdiv_eq_iff h.degree hq hqTree.nonneg).mp ⟨hleft,hright⟩
    exact ⟨hc,hdiv.1,(if_pos hdiv.1).trans hdiv.2⟩
  · rintro ⟨hc,hpos,hparent⟩
    have hcTree := number_inTree h.inTree hc
    rw [parentNumber,if_pos hpos] at hparent
    have hrange := (tdiv_eq_iff h.degree hq hcTree.nonneg).mpr ⟨hpos,hparent⟩
    exact ⟨number n root c,⟨hrange.1,hrange.2,hcTree.lt⟩,(rankOf_eq_iff hcTree hc).mpr rfl⟩

theorem parentNumber_lt {q : ℤ} (hpos : 0 < q) : parentNumber k q < q := by
  rw [parentNumber,Int.tdiv_eq_ediv_of_nonneg (by omega)]
  have := Int.ediv_le_self k (show 0 ≤ q - 1 by omega)
  omega

theorem number_injective {r' : ℤ} (hroot : InTree n root) (hr : InTree n r) (hr' : InTree n r')
    (h : number n root r = number n root r') : r = r' := by
  have hq := number_inTree hroot hr
  rw [← (rankOf_eq_iff hq hr).mpr rfl]
  exact (rankOf_eq_iff hq hr').mpr h

theorem forwardRanks_forest (h : Fits n k root) :
    Forest (forwardRanks n root k) (InTree n) fun r => (number n root r).toNat where
  closed hp hc := ((mem_forwardRanks h hp).mp hc).1
  nodup {p} hp := by
    rw [forwardRanks,treeInit_eq h hp]
    refine (nodup_childNumbers ..).map_on fun q hq q' hq' heq => ?_
    have hmul := Int.mul_nonneg (number_inTree h.inTree hp).nonneg (Int.le_of_lt h.degree)
    have hmem := mem_childNumbers.mp hq
    have hmem' := mem_childNumbers.mp hq'
    have hqTree : InTree n q := ⟨by omega,by omega⟩
    have hqTree' : InTree n q' := ⟨by omega,by omega⟩
    have hrank := rankOf_inTree h.inTree hqTree'
    rw [(rankOf_eq_iff hqTree hrank).mp heq]
    exact ((rankOf_eq_iff hqTree' hrank).mp rfl).symm
  unique hp hp' hc hc' := by
    have hnum := ((mem_forwardRanks h hp).mp hc).2.2
    have hnum' := ((mem_forwardRanks h hp').mp hc').2.2
    exact number_injective h.inTree hp hp' (hnum.symm.trans hnum')
  grows {p c} hp hc := by
    obtain ⟨-,hpos,hparent⟩ := (mem_forwardRanks h hp).mp hc
    have hlt := parentNumber_lt (k := k) hpos
    omega

/-- Every rank is below the root, by induction on its number. -/
theorem below_root (h : Fits n k root) (hr : InTree n r) :
    Below (forwardRanks n root k) (InTree n) root r := by
  induction hm : (number n root r).toNat using Nat.strong_induction_on generalizing r with
  | _ m ih =>
    have hq := number_inTree h.inTree hr
    by_cases hpos : 0 < number n root r
    · have hparent := parentNumber_inTree h.degree hq hpos
      have hp := rankOf_inTree h.inTree hparent
      have hnum := (rankOf_eq_iff hparent hp).mp rfl
      have hlt := parentNumber_lt (k := k) hpos
      refine (ih _ ?_ hp rfl).tail ⟨hp,(mem_forwardRanks h hp).mpr ⟨hr,hpos,hnum⟩⟩
      omega
    · have hnonneg := hq.nonneg
      rw [(number_eq_zero_iff h.inTree hr).mp (by omega)]
      exact .refl

theorem parentRank_eq_iff (h : Fits n k root) {c p : ℤ} (hc : InTree n c) (hp : InTree n p) :
    (treeAt n k root c).parentRank = p ↔ c ∈ forwardRanks n root k p := by
  have hzero := number_eq_zero_iff h.inTree hc
  have hp₀ := hp.nonneg
  rw [mem_forwardRanks h hp,treeAt]
  dsimp only
  split
  · next heq =>
    exact iff_of_false (by omega) fun hmem => by omega
  · next hne =>
    have hpos := number_pos h.inTree hc hne
    rw [rankOf_eq_iff (parentNumber_inTree h.degree (number_inTree h.inTree hc) hpos) hp]
    exact ⟨fun heq => ⟨hc,hpos,heq⟩,fun hmem => hmem.2.2⟩

theorem parentRank_eq_neg_one_iff (h : Fits n k root) (hr : InTree n r) :
    (treeAt n k root r).parentRank = -1 ↔ r = root := by
  rw [treeAt]
  dsimp only
  split
  · next heq => exact iff_of_true rfl heq
  · next hne =>
    have hpos := number_pos h.inTree hr hne
    have hparent := parentNumber_inTree h.degree (number_inTree h.inTree hr) hpos
    have hnonneg := (rankOf_inTree h.inTree hparent).nonneg
    exact iff_of_false (by omega) hne

theorem visits_perm {ranks : ℕ} (h : Fits ranks k root) {fuel : ℕ} (hfuel : ranks ≤ fuel) :
    (visits (forwardRanks ranks root k) fuel root).Perm
      ((List.range ranks).map fun (i : ℕ) => (i : ℤ)) := by
  have hforest := forwardRanks_forest h
  rw [perm_ext_iff_of_nodup (hforest.nodup_visits fuel h.inTree)
    (nodup_range.map (f := fun (i : ℕ) => (i : ℤ)) fun i j hij => Int.ofNat.inj hij)]
  intro r
  have hrange : r ∈ (List.range ranks).map (fun (i : ℕ) => (i : ℤ)) ↔ InTree ranks r := by
    rw [List.mem_map]
    constructor
    · rintro ⟨i,hi,rfl⟩
      have := mem_range.mp hi
      exact ⟨by omega,by omega⟩
    · rintro ⟨hr₀,hr₁⟩
      exact ⟨r.toNat,mem_range.mpr (by omega),by omega⟩
  rw [hrange]
  constructor
  · intro hmem
    cases hforest.below_of_mem_visits h.inTree hmem with
    | refl => exact h.inTree
    | tail _ hstep => exact hforest.closed hstep.1 hstep.2
  · intro hr
    refine hforest.mem_visits (below_root h hr) ?_
    have hlt := (number_inTree h.inTree hr).lt
    have hpos := hr.nonneg
    have hr₁ := hr.lt
    omega

/-- The trees that the ranks compute on their own fit together: a rank is a child of another one
exactly if that one is its parent, only the root has no parent, and a message that the root
forwards reaches every rank once. -/
theorem treeInit_consistent {ranks : ℕ} (hk : 1 ≤ k) (hchildren : ranks * k + k ≤ intMax)
    (hroot : 0 ≤ root ∧ root < ranks) (hrotated : root + ranks - 1 ≤ intMax) :
    ∃ tree : ℤ → Tree,
      (∀ r : ℤ, 0 ≤ r → r < ranks →
        treeInit r ranks root k = some (tree r) ∧ (tree r).rank = r) ∧
      (∀ c p : ℤ, 0 ≤ c → c < ranks → 0 ≤ p → p < ranks →
        (c ∈ (tree p).childRanks ↔ (tree c).parentRank = p)) ∧
      (∀ r : ℤ, 0 ≤ r → r < ranks → ((tree r).parentRank = -1 ↔ r = root)) ∧
      ∀ fuel ≥ ranks, (visits (forwardRanks ranks root k) fuel root).Perm
        ((List.range ranks).map fun (i : ℕ) => (i : ℤ)) := by
  have h : Fits ranks k root := ⟨⟨hroot.1,hroot.2⟩,by omega,hchildren,hrotated⟩
  refine ⟨treeAt ranks k root,?_,?_,?_,fun fuel hfuel => visits_perm h hfuel⟩
  · intro r hr₀ hr₁
    exact ⟨treeInit_eq h ⟨hr₀,hr₁⟩,rfl⟩
  · intro c p hc₀ hc₁ hp₀ hp₁
    have hchildRanks : (treeAt ranks k root p).childRanks = forwardRanks ranks root k p := by
      rw [forwardRanks,treeInit_eq h ⟨hp₀,hp₁⟩]
      rfl
    rw [hchildRanks,parentRank_eq_iff h ⟨hc₀,hc₁⟩ ⟨hp₀,hp₁⟩]
  · intro r hr₀ hr₁
    exact parentRank_eq_neg_one_iff h ⟨hr₀,hr₁⟩

/-- Seven ranks in a binary tree with root 5. -/
theorem treeInit_consistent_seven :
    (∃ tree : ℤ → Tree,
      (∀ r : ℤ, 0 ≤ r → r < 7 → treeInit r 7 5 2 = some (tree r) ∧ (tree r).rank = r) ∧
      (∀ c p : ℤ, 0 ≤ c → c < 7 → 0 ≤ p → p < 7 →
        (c ∈ (tree p).childRanks ↔ (tree c).parentRank = p)) ∧
      (∀ r : ℤ, 0 ≤ r → r < 7 → ((tree r).parentRank = -1 ↔ r = 5)) ∧
      ∀ fuel ≥ 7, (visits (forwardRanks 7 5 2) fuel 5).Perm
        ((List.range 7).map fun (i : ℕ) => (i : ℤ))) ∧
    visits (forwardRanks 7 5 2) 3 5 = [5,6,1,2,0,3,4] :=
  ⟨treeInit_consistent (by decide) (by decide) (by decide) (by decide),by decide⟩

/-- With degree 1 a sum of two ranks may leave the range of `int` although the bound on the
numbers of the children holds. -/
theorem treeInit_overflow :
    (2 ^ 30 + 1) * 1 + 1 ≤ intMax ∧ treeInit (2 ^ 30 - 1) (2 ^ 30 + 1) (2 ^ 30) 1 = none := by
  decide

end Init
end UnifyFS.BroadcastTree
