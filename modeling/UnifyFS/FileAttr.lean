import UnifyFS.ReturnCodes

/-!
# File attributes

The record that clients and servers exchange about a file. An update copies only
the fields that belong to the operation, and of those only the ones that are not
marked as invalid in the source record.
-/
namespace UnifyFS

structure Timespec where
  sec : ℤ
  nsec : ℤ
  deriving DecidableEq, Repr

structure FileAttr where
  filename : Option String
  gfid : ℤ
  isLaminated : ℤ
  isShared : ℤ
  mode : BitVec 32
  uid : BitVec 32
  gid : BitVec 32
  size : BitVec 64
  atime : Timespec
  mtime : Timespec
  ctime : Timespec
  lastUpdate : ℤ
  deriving DecidableEq, Repr

namespace FileAttr

def invalidGfid : ℤ := 0

def invalid : FileAttr where
  filename := none
  gfid := invalidGfid
  isLaminated := -1
  isShared := -1
  mode := -1
  uid := -1
  gid := -1
  size := -1
  atime := ⟨0,0⟩
  mtime := ⟨0,0⟩
  ctime := ⟨0,0⟩
  lastUpdate := 0

def zero : FileAttr := ⟨none,0,0,0,0,0,0,0,⟨0,0⟩,⟨0,0⟩,⟨0,0⟩,0⟩

def sIfmt : BitVec 32 := 0o170000
def sIfdir : BitVec 32 := 0o040000
def sIfreg : BitVec 32 := 0o100000

def defaultFileMode : BitVec 32 := sIfreg ||| 0o644

def sIsdir (mode : BitVec 32) : Bool := mode &&& sIfmt == sIfdir

inductive Op where
  | invalid | chgrp | chmod | chown | create | data | laminate | truncate | utime
  deriving DecidableEq, Repr

/-- `unifyfs_file_attr_update`, at the time `now`. -/
def update (op : Op) (dst src : FileAttr) (now : ℤ) : Rc × FileAttr :=
  if op = .invalid ∨ src.gfid = invalidGfid then (Rc.einval,dst)
  else
    let take {α : Type} (valid : Bool) (ops : List Op) (new old : α) : α :=
      if valid && ops.contains op then new else old
    (0,{
      gfid := if op = .create then src.gfid else dst.gfid
      lastUpdate := now
      mode := take (src.mode != -1) [.chmod,.create,.laminate] src.mode dst.mode
      uid := take (src.uid != -1) [.chown,.create] src.uid dst.uid
      gid := take (src.gid != -1) [.chgrp,.create] src.gid dst.gid
      size := take (src.size != -1) [.create,.data,.laminate,.truncate] src.size dst.size
      atime := take (src.atime.sec != 0) [.create,.utime] src.atime dst.atime
      mtime := take (src.mtime.sec != 0) [.create,.utime,.data,.laminate,.truncate]
        src.mtime dst.mtime
      ctime := take (src.ctime.sec != 0) [.chgrp,.chmod,.chown,.create,.data,.laminate]
        src.ctime dst.ctime
      isLaminated := take (src.isLaminated != -1) [.create,.laminate]
        src.isLaminated dst.isLaminated
      isShared := take (src.isShared != -1) [.create] src.isShared dst.isShared
      filename := if src.filename.isSome && dst.filename.isNone then src.filename
        else dst.filename })

section Update
variable (dst src : FileAttr) (now : ℤ)

theorem update_gfid {op : Op} (h : op ≠ .create) : (update op dst src now).2.gfid = dst.gfid := by
  unfold update
  split
  · rfl
  · rfl

theorem update_utime : (update .utime dst src now).2.size = dst.size ∧
    (update .utime dst src now).2.mode = dst.mode := by
  unfold update
  split
  · exact ⟨rfl,rfl⟩
  · simp

theorem update_of_access {op : Op} (h : op ∈ [Op.chmod,.chown,.chgrp,.utime]) :
    (update op dst src now).2.size = dst.size ∧
      (update op dst src now).2.isLaminated = dst.isLaminated := by
  simp only [List.mem_cons,List.not_mem_nil,or_false] at h
  unfold update
  split
  · exact ⟨rfl,rfl⟩
  · rcases h with rfl | rfl | rfl | rfl <;> simp

theorem update_laminate (hgfid : src.gfid ≠ invalidGfid) (hsize : src.size ≠ -1)
    (hlam : src.isLaminated = 1) : (update .laminate dst src now).2.size = src.size ∧
      (update .laminate dst src now).2.isLaminated = 1 := by
  unfold update
  simp [hgfid,hlam]
  exact fun h => absurd h hsize

/-- A new record has the fields of its source even where these are marked as invalid, since
it starts from invalid attributes. -/
theorem update_create (h : src.gfid ≠ invalidGfid) :
    (update .create invalid src now).2.gfid = src.gfid ∧
      (update .create invalid src now).2.size = src.size ∧
      (update .create invalid src now).2.mode = src.mode ∧
      (update .create invalid src now).2.isLaminated = src.isLaminated := by
  have htake {α : Type} [BEq α] [LawfulBEq α] (new old : α) :
      (if new != old && true then new else old) = new := by
    by_cases hn : new = old
    · simp [hn]
    · simp [hn]
  unfold update
  rw [if_neg (by simp [h])]
  exact ⟨rfl,htake src.size (-1),htake src.mode (-1),htake src.isLaminated (-1)⟩

end Update

end FileAttr
end UnifyFS
