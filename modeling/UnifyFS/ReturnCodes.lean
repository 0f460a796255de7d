import Mathlib.Algebra.Order.Ring.Int

/-!
# Return codes and request states

The functions of the file system return plain integers: zero, a positive errno
value, or one of a few codes of their own. Codes travel unchanged between
clients and servers, so they stay integers here. Requests of the library API
share one enumeration of states.
-/
namespace UnifyFS

abbrev Rc := ℤ

namespace Rc

def success : Rc := 0
def failure : Rc := -1

def enoent : Rc := 2
def eio : Rc := 5
def enxio : Rc := 6
def ebadf : Rc := 9
def eagain : Rc := 11
def enomem : Rc := 12
def ebusy : Rc := 16
def eexist : Rc := 17
def enotdir : Rc := 20
def eisdir : Rc := 21
def einval : Rc := 22
def emfile : Rc := 24
def efbig : Rc := 27
def enospc : Rc := 28
def erofs : Rc := 30
def enametoolong : Rc := 36
def enotempty : Rc := 39
def enodata : Rc := 61
def eoverflow : Rc := 75
def etimedout : Rc := 110
def einprogress : Rc := 115

/-- The project's own errors are numbered after `UNIFYFS_BEGIN_ERRORS = 1000`. -/
def errorMargo : Rc := 1004
def errorNyi : Rc := 1005

def errno (rc : Rc) : Rc :=
  if rc = success then 0
  else if rc = -2 then einval
  else if rc = failure ∨ 1000 < rc ∧ rc < 1010 then eio
  else rc

theorem errno_eq_zero_iff (rc : Rc) : rc.errno = 0 ↔ rc = success := by
  unfold errno
  split_ifs with hzero
  · exact iff_of_true rfl hzero
  · exact iff_of_false (by decide) hzero
  · exact iff_of_false (by decide) hzero
  · exact Iff.rfl

end Rc

inductive ReqState where
  | invalid | inProgress | canceled | completed
  deriving DecidableEq, Repr

end UnifyFS
