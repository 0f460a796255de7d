import UnifyFS.ExtentTree
import UnifyFS.RangeTreeFailures
import UnifyFS.ReturnCodes

/-!
# Extents that cannot be added for lack of memory

`extent_tree_add` allocates a node for the new extent, and up to two for every extent that
overlaps it. At the first allocation that fails it returns `ENOMEM`, and keeps the overlapping
extents that it has already removed or trimmed out of the tree.
-/
namespace UnifyFS.ExtentTree
open RangeLists RangeTrees

/-- `extent_tree_add` when `budget` allocations succeed and the next one fails. -/
def extentTreeAddWithin (S : Picker LogLoc) (t : RangeTree LogLoc) (extent : Extent)
    (budget : ℕ) : Option (Rc × RangeTree LogLoc) :=
  match t.addWithin extentLayout S extent budget with
  | none => none
  | some (.ok u) => some (Rc.success,u)
  | some (.error u) => some (Rc.enomem,u)

/-- The allocation that fails is the one for the new extent, or one for the first overlapping
extent that the search meets, or one for the second if the first began before the new extent. -/
def FailsBeforeLoss (S : Picker LogLoc) (t : RangeTree LogLoc) (extent : Extent)
    (budget : ℕ) : Prop :=
  budget = 0 ∨ FailsInTime extentLayout S t extent (budget - 1)

/-- The call returns. With enough memory it is the addition; otherwise it returns `ENOMEM`,
and the file map is the one before the call exactly if it failed before anything was lost. -/
theorem add_enomem_keeps_map_iff (S : Picker LogLoc) (t : RangeTree LogLoc) (ht : Sound t)
    (extent : Extent) (he : extent.start ≤ extent.stop) (budget : ℕ) :
    ∃ rc u, extentTreeAddWithin S t extent budget = some (rc,u) ∧
      (rc = Rc.success ∧ extentTreeAdd S t extent = some u ∨ rc = Rc.enomem ∧
        ((∀ b, contents LogLoc.val u.nodes b = contents LogLoc.val t.nodes b) ↔
          FailsBeforeLoss S t extent budget)) := by
  obtain ⟨r,hr,hok,herror⟩ := RangeTree.addWithin_spec (S := S) ht.toCounted he budget
  rw [extentTreeAddWithin,hr]
  cases r with
  | ok u => exact ⟨_,_,rfl,.inl ⟨rfl,hok u rfl⟩⟩
  | error u => exact ⟨_,_,rfl,.inr ⟨rfl,herror u rfl⟩⟩

def locAt (pos : BitVec 64) : LogLoc := ⟨pos,0,0,0⟩

def gapTree : RangeTree LogLoc := ⟨[⟨0,1,locAt 0⟩,⟨4,9,locAt 2⟩],2,9⟩

theorem gapTree_sound : Sound gapTree := by
  refine ⟨⟨⟨by decide,by decide⟩,rfl⟩,by decide,.inr ?_⟩
  exact ⟨⟨4,9,locAt 2⟩,by decide,rfl⟩

/-- The extent `[6, 7]` cuts the second extent in two. There is memory for one of the parts, so
nothing has changed. -/
theorem add_enomem_keeps_map_split : ∃ u,
    extentTreeAddWithin Picker.first gapTree ⟨6,7,locAt 8⟩ 2 = some (Rc.enomem,u) ∧
      ∀ b, contents LogLoc.val u.nodes b = contents LogLoc.val gapTree.nodes b := by
  obtain ⟨rc,u,hadd,hcase⟩ := add_enomem_keeps_map_iff Picker.first gapTree gapTree_sound
    ⟨6,7,locAt 8⟩ (by decide) 2
  have heval : (extentTreeAddWithin Picker.first gapTree ⟨6,7,locAt 8⟩ 2).all
      (fun r => decide (r.1 = Rc.enomem)) = true := by decide +kernel
  rw [hadd] at heval
  obtain rfl : rc = Rc.enomem := of_decide_eq_true heval
  rcases hcase with ⟨hrc,-⟩ | ⟨-,hiff⟩
  · exact absurd hrc (by decide)
  · refine ⟨u,hadd,hiff.mpr (.inr ⟨⟨4,9,locAt 2⟩,by decide +kernel,.inl ?_⟩)⟩
    decide +kernel

/-- The extent `[0, 5]` covers the first extent and trims the second. The first is deleted
without an allocation, and the node for the rest of the second cannot be allocated. -/
theorem add_enomem_loses_extent : ∃ u,
    extentTreeAddWithin Picker.first gapTree ⟨0,5,locAt 8⟩ 1 = some (Rc.enomem,u) ∧
      contents LogLoc.val gapTree.nodes 0 = some (locAt 0) ∧
      contents LogLoc.val u.nodes 0 = none := by
  refine ⟨⟨[⟨4,9,locAt 2⟩],1,9⟩,by decide +kernel,by decide +kernel,by decide +kernel⟩

end UnifyFS.ExtentTree
