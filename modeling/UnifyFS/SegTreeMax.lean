import UnifyFS.RangeTreeNodes
import UnifyFS.SegTreeOps

/-!
# The cached greatest offset of a segment tree

`seg_tree_max` returns a field of the tree that an addition raises and that clearing a tree with
nodes resets. A removal leaves it alone, so it is wrong from the removal of the greatest offset
on, until an addition reaches it again or a tree with nodes is cleared. Clearing a tree that
removals have emptied does not help.
-/
namespace UnifyFS.SegTreeMax
open GuardedRuns RangeLists RangeTrees SegTreeOps List

def segTreeMax (t : RangeTree LogPtr) : ℕ := t.max

/-- A removal does not reach the greatest offset, or this is zero. -/
def KeepsMax (t : RangeTree LogPtr) : SegOp → Prop
  | .remove _ start stop _ => segTreeMax t = 0 ∨ ¬ (start ≤ segTreeMax t ∧ segTreeMax t ≤ stop)
  | _ => True

instance (t : RangeTree LogPtr) (op : SegOp) : Decidable (KeepsMax t op) := by
  cases op with
  | add S start stop h ptr clientId => exact inferInstanceAs (Decidable True)
  | remove S start stop h => exact inferInstanceAs (Decidable (_ ∨ _))
  | clear => exact inferInstanceAs (Decidable True)

section Remove
variable {S : Picker LogPtr} {t u : RangeTree LogPtr} {start stop c : ℕ}
  {pre post : List (Range LogPtr)} {n : Range LogPtr}

theorem stop_le_closed (n : Range LogPtr) (c : ℕ) : Closed segLayout n fun m => m.stop ≤ c :=
  ⟨fun _ hm hmeet _ hp => (mem_pieces hmeet hp).2.2.1.trans hm,fun _ _ _ hq _ _ => hq⟩

/-- The field is `c` and a bound for all nodes. -/
structure Below (c : ℕ) (t : RangeTree LogPtr) : Prop where
  max_eq : t.max = c
  stop_le : ∀ m ∈ t.nodes, m.stop ≤ c

theorem Below.replace {m : Range LogPtr} (h : Below c t) (hnodes : t.nodes = pre ++ n :: post)
    (hm : m.stop ≤ n.stop) : Below c { t with nodes := pre ++ m :: post } := by
  have hstop := h.stop_le
  rw [hnodes] at hstop
  refine ⟨h.max_eq,fun k hk => ?_⟩
  simp only [mem_append,mem_cons] at hk
  rcases hk with hk | rfl | hk
  · exact hstop k (mem_append_left _ hk)
  · exact hm.trans (hstop n (mem_append_right _ mem_cons_self))
  · exact hstop k (mem_append_right _ (mem_cons_of_mem _ hk))

theorem Below.add (ht : t.Counted) (h : Below c t) (hn : n.start ≤ n.stop) (hc : n.stop ≤ c)
    (hu : t.add segLayout S n = some u) : Below c u := by
  obtain ⟨u',hu',-,hmax,-⟩ := RangeTree.add_spec (S := S) ht hn
  obtain rfl := Option.some.inj (hu'.symm.trans hu)
  refine ⟨?_,RangeTree.add_forall ht (stop_le_closed n c) hu h.stop_le hc⟩
  rw [hmax,h.max_eq,Nat.max_eq_left hc]

theorem Below.removeNode (ht : t.Counted) (h : Below c t) (hnodes : t.nodes = pre ++ n :: post)
    (hmeet : n.Meets (window start stop))
    (hu : removeNode S t start stop pre n post = some u) : Below c u := by
  have hn := h.stop_le n (by simp [hnodes])
  have hmhi : start ≤ n.stop := hmeet.2
  unfold SegTreeOps.removeNode at hu
  split_ifs at hu with hlo hhi hhi
  · cases hu
    refine ⟨h.max_eq,fun k hk => h.stop_le k ?_⟩
    rw [hnodes]
    exact ((sublist_cons_self n post).append_left pre).mem hk
  · cases hu
    exact h.replace hnodes le_rfl
  · cases hu
    exact h.replace hnodes (by dsimp only; omega)
  · have hle : start - 1 ≤ n.stop := by omega
    have hcount := counted_replace (m := ⟨n.start,start - 1,n.info⟩) ht hnodes
      (by dsimp only; omega) le_rfl hle
    exact Below.add (n := ⟨stop + 1,n.stop,_⟩) hcount (h.replace hnodes hle)
      (by dsimp only; omega) hn hu

theorem segTreeRemove_max (ht : t.Counted) (htop : IsTop t.nodes t.max) (hstart : start ≤ stop)
    (hu : segTreeRemove S t start stop = some u) : u.max = t.max :=
  (segTreeRemove_invariant (I := Below t.max)
    (fun _ _ _ _ _ ht hnodes hmeet hu h => h.removeNode ht hnodes hmeet hu)
    ht hstart hu ⟨rfl,htop.1⟩).max_eq

end Remove

section Steps
variable {op : SegOp} {t u : RangeTree LogPtr}

theorem isTop_remove_iff {S : Picker LogPtr} {start stop : ℕ} (ht : t.Counted)
    (htop : IsTop t.nodes t.max) (hle : start ≤ stop) (hu : segTreeRemove S t start stop = some u) :
    IsTop u.nodes u.max ↔ t.max = 0 ∨ ¬ (start ≤ t.max ∧ t.max ≤ stop) := by
  obtain ⟨u',hu',hcounted,hmap,-⟩ := segTreeRemove_spec S ht hle
  obtain rfl := Option.some.inj (hu'.symm.trans hu)
  rw [segTreeRemove_max ht htop hle hu]
  have hheld : ∀ b, (∃ m ∈ u'.nodes, m.Holds b) ↔
      ¬ (start ≤ b ∧ b ≤ stop) ∧ ∃ m ∈ t.nodes, m.Holds b := by
    intro b
    rw [exists_holds_iff LogPtr.val,exists_holds_iff LogPtr.val,hmap b]
    by_cases hb : start ≤ b ∧ b ≤ stop
    · simp [hb]
    · simp [hb]
  obtain ⟨hbound,hzero⟩ := (isTop_iff ht.separate).mp htop
  rw [isTop_iff hcounted.separate,hheld]
  constructor
  · rintro ⟨-,hmax⟩
    exact hmax.imp_right And.left
  · intro hkeep
    constructor
    · intro m hm b hb
      obtain ⟨k,hk,hkb⟩ := ((hheld b).mp ⟨m,hm,hb⟩).2
      exact hbound k hk b hkb
    · rcases hzero with hzero | hmax
      · exact .inl hzero
      · exact hkeep.imp_right fun hout => ⟨hout,hmax⟩

theorem isTop_step_iff (ht : t.Counted) (htop : IsTop t.nodes t.max) (hu : op.apply t = some u) :
    IsTop u.nodes u.max ↔ KeepsMax t op := by
  cases op with
  | add S start stop hle ptr clientId =>
    obtain ⟨u',hu',hcounted,hmax,-,hmap⟩ := RangeTree.add_spec (S := S)
      (n := ⟨start,stop,⟨ptr,clientId⟩⟩) ht hle
    obtain rfl := Option.some.inj (hu'.symm.trans hu)
    refine iff_of_true ?_ trivial
    rw [hmax]
    exact isTop_overwrite ht.separate hcounted.separate htop hle hmap
  | remove S start stop hle => exact isTop_remove_iff ht htop hle hu
  | clear =>
    refine iff_of_true ?_ trivial
    rw [← Option.some.inj hu]
    unfold segTreeClear
    split
    · exact htop
    · exact isTop_nil

end Steps

/-- Every history runs to its end. In each of its states `seg_tree_max` is the greatest offset, or
zero for an empty tree, exactly if no removal of it reaches a greatest offset other than zero. -/
theorem max_cached_iff (ops : List SegOp) : ∃ t,
    Run SegOp.apply (fun _ _ => True) segTreeInit ops t ∧
    ((∀ pre u, pre <+: ops → Run SegOp.apply (fun _ _ => True) segTreeInit pre u →
      IsTop u.nodes (segTreeMax u)) ↔ Run SegOp.apply KeepsMax segTreeInit ops t) := by
  obtain ⟨t,ht,-⟩ := foldlM_apply_spec segTreeInit_counted ops
  have hrun := Run.of_foldlM ht
  refine ⟨t,hrun,hrun.always_iff_guard KeepsMax (I := fun _ u => u.Counted)
    ?_ ?_ segTreeInit_counted isTop_nil⟩
  · intro _ op u v hu hv
    obtain ⟨v',hv',hcounted,-⟩ := op.apply_spec hu
    obtain rfl := Option.some.inj (hv'.symm.trans hv)
    exact hcounted
  · intro _ op u v hu htop hv
    exact isTop_step_iff hu htop hv

def trimmedFile : List SegOp :=
  [.add .first 0 7 (by decide) 0 1,.add .first 10 15 (by decide) 100 1,
    .remove .first 4 12 (by decide),.clear]

theorem max_cached_trimmed : ∃ t, Run SegOp.apply (fun _ _ => True) segTreeInit trimmedFile t ∧
    ∀ pre u, pre <+: trimmedFile → Run SegOp.apply (fun _ _ => True) segTreeInit pre u →
      IsTop u.nodes (segTreeMax u) := by
  have hexec : (exec SegOp.apply (fun t op => decide (KeepsMax t op)) segTreeInit
      trimmedFile).any (fun _ => true) = true := by decide +kernel
  obtain ⟨t',hkeeps,-⟩ := Run.exists_of_exec hexec
  have hkeeps' := hkeeps.weaken fun _ _ hop => of_decide_eq_true hop
  obtain ⟨t,hrun,hiff⟩ := max_cached_iff trimmedFile
  obtain rfl := (hkeeps'.weaken fun _ _ _ => trivial).unique hrun
  exact ⟨t',hrun,hiff.mpr hkeeps'⟩

/-- The only byte is removed and the empty tree is cleared: the maximum stays. -/
theorem max_stays_behind : ∃ t, Run SegOp.apply (fun _ _ => True) segTreeInit
      [.add .first 5 5 (by decide) 0 1,.remove .first 5 5 (by decide),.clear] t ∧
    t.nodes = [] ∧ segTreeMax t = 5 := by
  have hexec : (exec SegOp.apply (fun _ _ => true) segTreeInit
      [.add .first 5 5 (by decide) 0 1,.remove .first 5 5 (by decide),.clear]).any
      (fun t => decide (t.nodes = [] ∧ segTreeMax t = 5)) = true := by decide +kernel
  obtain ⟨t,hrun,htest⟩ := Run.exists_of_exec hexec
  exact ⟨t,hrun.weaken fun _ _ _ => trivial,of_decide_eq_true htest⟩

end UnifyFS.SegTreeMax
