import Mathlib.Data.List.Basic
import Mathlib.Algebra.Order.Ring.Int

/-!
# Segment trees

The extents of one file that a client knows, each with its place in a write log.
The red-black tree is an ordered set of nodes without overlap, so it is the list
of its nodes in order. Only lookup and iteration are embedded here.
-/
namespace UnifyFS
open List

/-- `struct seg_tree_node`; both offsets belong to the segment. -/
structure SegNode where
  start : ℕ
  stop : ℕ
  ptr : ℕ
  clientId : ℕ
  deriving DecidableEq, Repr

structure SegTree where
  nodes : List SegNode
  ordered : nodes.Pairwise fun a b => a.stop < b.start
  start_le : ∀ n ∈ nodes, n.start ≤ n.stop

namespace SegTree

/-- The node that `seg_tree_find_nolock` returns for the range `[start, start]`,
and the nodes that `seg_tree_iter` yields from there on. -/
def iterFrom (t : SegTree) (start : ℕ) : List SegNode :=
  match t.nodes.dropWhile fun n => decide (n.stop < start) with
  | [] => []
  | n :: rest => if n.start ≤ start then n :: rest else []

theorem iterFrom_sublist (t : SegTree) (start : ℕ) : (t.iterFrom start).Sublist t.nodes := by
  have hdrop := dropWhile_sublist (fun n => decide (n.stop < start)) (l := t.nodes)
  unfold iterFrom
  split
  · exact nil_sublist _
  · next n rest hn =>
    rw [hn] at hdrop
    split
    · exact hdrop
    · exact nil_sublist _

theorem le_stop_of_mem_iterFrom {t : SegTree} {start : ℕ} {n : SegNode}
    (h : n ∈ t.iterFrom start) : start ≤ n.stop := by
  have hsub := (t.iterFrom_sublist start).subset h
  unfold iterFrom at h
  split at h
  · cases h
  · next first rest hdrop =>
    split at h
    · have hfirst : start ≤ first.stop := by
        have hhead := head?_dropWhile_not (fun n => decide (n.stop < start)) t.nodes
        rw [hdrop] at hhead
        simpa using hhead
      cases mem_cons.mp h with
      | inl heq =>
        rw [heq]
        exact hfirst
      | inr hrest =>
        have hpair : (first :: rest).Pairwise fun a b => a.stop < b.start := by
          rw [← hdrop]
          exact t.ordered.sublist (dropWhile_sublist _)
        have hlt := rel_of_pairwise_cons hpair hrest
        have hle := t.start_le n hsub
        omega
    · cases h

end SegTree
end UnifyFS
