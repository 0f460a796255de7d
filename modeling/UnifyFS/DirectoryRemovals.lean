import UnifyFS.Renames

/-!
# Removing directories

`unifyfs_fid_is_dir_empty` of `client/src/unifyfs_fid.c` and the removal of files and directories
that calls it. The function is to look for a name in the file list that begins with the path of
the directory. It searches the path for the name instead, and compares the pointer it gets, which
is one into the path, with the address of the name. So pointers are part of the model: a string has
a place in memory, and the path may be any string, a name of the list included.

The two addresses agree only if the path is that very name, and then the next condition of the
function rules the entry out. Every directory is found empty.
-/
namespace UnifyFS.ClientFiles
open ListUpdates RangeTrees SegTreeOps WriteIndex Triples List

/-- The array that a string lies in: one of the caller, or the name of an entry. -/
inductive CharArray where
  | caller
  | filename (i : ℕ)
  deriving DecidableEq, Repr

structure CharPtr where
  array : CharArray
  index : ℕ
  deriving DecidableEq, Repr

def firstMatch (needle : List Char) : List Char → Option ℕ
  | [] => if needle.isEmpty then some 0 else none
  | c :: cs => if needle.isPrefixOf (c :: cs) then some 0 else (firstMatch needle cs).map (· + 1)

def strstr (ptr : CharPtr) (haystack needle : String) : Option CharPtr :=
  (firstMatch needle.toList haystack.toList).map fun k => { ptr with index := ptr.index + k }

structure PathArg (c : Client) where
  ptr : CharPtr
  chars : String
  /-- At the address of a name there is that name. -/
  points : ∀ i s, ptr = ⟨.filename i,0⟩ → c.files[i]? = some s → chars = s.filename

def callerPath (c : Client) (path : String) : PathArg c where
  ptr := ⟨.caller,0⟩
  chars := path
  points _ _ h := nomatch h

def isChild (ptr : CharPtr) (path : String) (i : ℕ) (s : FileSlot) : Bool :=
  s.inUse && decide (strstr ptr path s.filename = some ⟨.filename i,0⟩) &&
    decide (path ≠ s.filename)

/-- `unifyfs_fid_is_dir_empty`; `false` is the return value zero. -/
def fidIsDirEmpty (c : Client) (path : PathArg c) : Bool :=
  !c.files.zipIdx.any fun (s,i) => isChild path.ptr path.chars i s

/-- The path of the directory, a slash and at least one more character. -/
def Below (dir name : String) : Prop :=
  ∃ rest, rest ≠ [] ∧ name.toList = dir.toList ++ '/' :: rest

def HasEntries (c : Client) (dir : String) : Prop :=
  ∃ s ∈ c.files, s.inUse = true ∧ Below dir s.filename

section Empty
variable {c : Client} {path : PathArg c}

theorem strstr_eq_start {ptr : CharPtr} {haystack needle : String} {i : ℕ}
    (h : strstr ptr haystack needle = some ⟨.filename i,0⟩) : ptr = ⟨.filename i,0⟩ := by
  obtain ⟨k,-,hk⟩ := Option.map_eq_some_iff.mp h
  obtain ⟨harray,hindex⟩ := CharPtr.mk.inj hk
  have hzero : ptr.index = 0 := by omega
  rw [← harray,← hzero]

theorem isChild_eq_false {i : ℕ} {s : FileSlot} (hs : c.files[i]? = some s) :
    isChild path.ptr path.chars i s = false := by
  by_contra hchild
  have hfound : s.inUse = true ∧ strstr path.ptr path.chars s.filename = some ⟨.filename i,0⟩ ∧
      path.chars ≠ s.filename := by
    simpa [isChild,and_assoc] using hchild
  have hstart := strstr_eq_start hfound.2.1
  exact hfound.2.2 (path.points i s hstart hs)

theorem fidIsDirEmpty_eq_true (c : Client) (path : PathArg c) : fidIsDirEmpty c path = true := by
  unfold fidIsDirEmpty
  rw [Bool.not_eq_true',List.any_eq_false]
  intro ⟨s,i⟩ hmem
  have hs := mem_zipIdx_iff_getElem?.mp hmem
  simp [isChild_eq_false hs]

/-- A directory is found non-empty exactly if it has entries, only when it has none. -/
theorem fidIsDirEmpty_exact_iff (c : Client) (path : PathArg c) :
    (fidIsDirEmpty c path = false ↔ HasEntries c path.chars) ↔ ¬ HasEntries c path.chars := by
  simp [fidIsDirEmpty_eq_true]

end Empty

def unlinkEntry (fid : ℕ) (reply : Rc) : Prog World Rc := do
  let rc ← fidUnlink fid reply
  pure rc.errno

/-- `_unifyfs_remove` with the mask of the kind of file to be removed. The result is zero or an
errno value. -/
def unifyfsRemove (mountPrefix path : String) (mask : BitVec 32) (r : RemoveReplies) :
    Prog World Rc :=
  if path = mountPrefix then pure Rc.ebusy
  else do
    match ← fidFromPath path with
    | some fid => do
        let isDir ← fidIsDir (some fid)
        if isDir then
          if mask &&& FileAttr.sIfreg ≠ 0 then pure Rc.eisdir
          else do
            let isEmpty ← query fun w => fidIsDirEmpty w.client (callerPath w.client path)
            if isEmpty then unlinkEntry fid r.unlink else pure Rc.enotempty
        else if mask &&& FileAttr.sIfdir ≠ 0 then pure Rc.enotdir
        else unlinkEntry fid r.unlink
    | none =>
      if r.metaget ≠ Rc.success then pure Rc.enoent
      else if r.attr.mode &&& FileAttr.sIfdir ≠ 0 then
        if mask &&& FileAttr.sIfreg ≠ 0 then pure Rc.eisdir else pure r.unlink.errno
      else if mask &&& FileAttr.sIfdir ≠ 0 then pure Rc.enotdir
      else pure r.unlink.errno

/-- For a regular file this is what `unlink` and `rename` call. -/
theorem unifyfsRemove_regular (mountPrefix path : String) (r : RemoveReplies) :
    unifyfsRemove mountPrefix path FileAttr.sIfreg r = removeFile mountPrefix path r := by
  have hregular : FileAttr.sIfreg &&& FileAttr.sIfreg ≠ 0 := by decide
  have hdirectory : ¬ FileAttr.sIfreg &&& FileAttr.sIfdir ≠ 0 := by decide
  refine congrArg (ite _ _) (congrArg (fidFromPath path >>= ·) (funext fun fid => ?_))
  cases fid with
  | none =>
    dsimp only
    rw [if_pos hregular,if_neg hdirectory]
  | some fid =>
    refine congrArg (fidIsDir (some fid) >>= ·) (funext fun isDir => ?_)
    rw [if_pos hregular,if_neg hdirectory]
    rfl

def rmdir (mountPrefix path : String) (r : RemoveReplies) : Prog World Rc :=
  unifyfsRemove mountPrefix path FileAttr.sIfdir r

theorem deleteWith_rc (look : Client → Option FileMeta × Client) (c : Client) (fid : ℕ) :
    (c.deleteWith look fid).1 = Rc.success ∨ (c.deleteWith look fid).1 = Rc.failure := by
  unfold Client.deleteWith
  dsimp only
  split
  · split
    · exact .inl rfl
    · exact .inr rfl
  · exact .inr rfl

theorem unlinkEntry_rc (fid : ℕ) (reply : Rc) :
    Triple (fun _ => True) (unlinkEntry fid reply) fun rc _ => rc = reply.errno ∨ rc = Rc.eio := by
  have hdelete : Triple (fun _ => True) (fidDelete (some fid))
      fun rc _ => rc = Rc.success ∨ rc = Rc.failure := by
    refine Triple.bind .top fun n => ?_
    apply Triple.ite
    · exact fun _ => Triple.step fun w _ => deleteWith_rc _ w.client fid
    · exact fun _ => .fault
  have hunlink : Triple (fun _ => True) (fidUnlink fid reply)
      fun rc _ => rc = reply ∨ rc = Rc.failure := by
    refine Triple.bind .top fun _ => Triple.bind (hdelete.pre fun _ _ => trivial) fun rc => ?_
    apply Triple.ite
    · exact fun hne => .ret fun _ h => .inr (h.resolve_left hne)
    · exact fun _ => .ret fun _ _ => .inl rfl
  refine hunlink.bind fun rc => .ret fun _ h => ?_
  exact h.imp (congrArg Rc.errno) (congrArg Rc.errno)

/-- A directory is never refused because of its entries. -/
theorem rmdir_enotempty (mountPrefix path : String) (r : RemoveReplies) :
    Triple (fun _ => True) (rmdir mountPrefix path r)
      fun rc _ => rc = Rc.enotempty → r.unlink.errno = Rc.enotempty := by
  have hother : ∀ rc : Rc, rc ≠ Rc.enotempty → Triple (fun _ : World => True) _
      fun rc _ => rc = Rc.enotempty → r.unlink.errno = Rc.enotempty :=
    fun rc hrc => .ret fun _ _ heq => absurd heq hrc
  have hentry : ∀ fid, Triple (fun _ => True) (unlinkEntry fid r.unlink)
      fun rc _ => rc = Rc.enotempty → r.unlink.errno = Rc.enotempty := by
    refine fun fid => (unlinkEntry_rc fid r.unlink).post fun rc _ h heq => ?_
    rcases h with hreply | hio
    · rw [← hreply,heq]
    · rw [heq] at hio
      exact absurd hio (by decide)
  have hdirectory : FileAttr.sIfdir &&& FileAttr.sIfdir ≠ 0 := by decide
  have hregular : ¬ FileAttr.sIfdir &&& FileAttr.sIfreg ≠ 0 := by decide
  apply Triple.ite (fun _ => hother _ (by decide))
  intro _
  refine Triple.bind .top fun fid => ?_
  cases fid with
  | none =>
    apply Triple.ite (fun _ => hother _ (by decide))
    intro _
    apply Triple.ite (fun _ => .ret fun _ _ heq => heq)
    exact fun _ => hother _ (by decide)
  | some fid =>
    refine Triple.bind .top fun isDir => ?_
    apply Triple.ite
    · intro _
      refine Triple.bind (Triple.query (Q := fun isEmpty _ => isEmpty = true)
        fun w _ => fidIsDirEmpty_eq_true _ _) fun isEmpty => ?_
      refine Triple.given fun hempty => ?_
      rw [if_pos hempty]
      exact hentry fid
    · exact fun _ => hother _ (by decide)

def oneFileDir : Client where
  files :=
    [{ inUse := true, filename := "/d"
       filemeta := { zeroSlot.filemeta with fid := 0, attrs.mode := FileAttr.sIfdir } },
     { inUse := true, filename := "/d/f", filemeta := { zeroSlot.filemeta with fid := 1 } }]
  freeFidStack := []

/-- The directory counts as empty, and `rmdir` removes it. -/
theorem rmdir_removes_nonempty :
    HasEntries oneFileDir "/d" ∧ fidIsDirEmpty oneFileDir (callerPath oneFileDir "/d") = true ∧
    ∃ w, (rmdir "/mnt" "/d" ⟨0,FileAttr.invalid,0⟩).run ⟨oneFileDir,[]⟩ = some (Rc.success,w) ∧
      w.client.fidFromPath "/d" = none ∧ w.client.fidFromPath "/d/f" = some 1 := by
  refine ⟨⟨_,mem_cons_of_mem _ mem_cons_self,rfl,['f'],by decide,by decide⟩,
    fidIsDirEmpty_eq_true _ _,?_⟩
  have hrun : ((rmdir "/mnt" "/d" ⟨0,FileAttr.invalid,0⟩).run ⟨oneFileDir,[]⟩).any (fun out =>
      decide (out.1 = Rc.success ∧ out.2.client.fidFromPath "/d" = none ∧
        out.2.client.fidFromPath "/d/f" = some 1)) = true := by
    decide +kernel
  rw [Option.any_eq_true] at hrun
  obtain ⟨⟨rc,w⟩,hw,hdone⟩ := hrun
  obtain ⟨rfl,hgone,hleft⟩ := of_decide_eq_true hdone
  exact ⟨w,hw,hgone,hleft⟩

end UnifyFS.ClientFiles
