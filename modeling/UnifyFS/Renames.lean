import UnifyFS.FailedOpens
import UnifyFS.SlotGfids

/-!
# Removing and renaming files

The calls of an application that name a file by its path: opening, unlinking and
renaming it. A rename works on the local table alone. It unlinks what the new path
stands for, if there is a local entry for it, and then writes the new name over the
old one. Paths are those inside the mount point, as the interception of the call has
normalised them. Callbacks come in during these calls as they do during an open.
-/
namespace UnifyFS.ClientFiles
open GuardedRuns ListUpdates RangeTrees SegTreeOps WriteIndex Triples List Option

structure RemoveReplies where
  metaget : Rc
  attr : FileAttr
  unlink : Rc
  deriving DecidableEq, Repr

def fidUnlink (fid : ℕ) (reply : Rc) : Prog World Rc := do
  let _ ← gfidFromFid (some fid)
  let rc ← fidDelete (some fid)
  if rc ≠ Rc.success then pure rc else pure reply

/-- `_unifyfs_remove` with the mask of a regular file, as `unlink` calls it. The result is zero
or an errno value. -/
def removeFile (mountPrefix path : String) (r : RemoveReplies) : Prog World Rc :=
  if path = mountPrefix then pure Rc.ebusy
  else do
    match ← fidFromPath path with
    | some fid => do
        let isDir ← fidIsDir (some fid)
        if isDir then pure Rc.eisdir
        else do
          let rc ← fidUnlink fid r.unlink
          pure rc.errno
    | none =>
      -- the file may be known to the server
      if r.metaget ≠ Rc.success then pure Rc.enoent
      else if r.attr.mode &&& FileAttr.sIfdir ≠ 0 then pure Rc.eisdir
      else pure r.unlink.errno

def FileSlot.rename (name : String) (s : FileSlot) : FileSlot := { s with filename := name }

/-- The name is overwritten, whatever has become of the entry. -/
def setName (fid : ℕ) (name : String) : Prog World Rc := do
  edit fun c => c.modifySlot fid (FileSlot.rename name)
  pure Rc.success

/-- `rename` of a path to another one, both in the file system. -/
def renameFile (mountPrefix old new : String) (r : RemoveReplies) : Prog World Rc := do
  match ← fidFromPath old with
  | none => pure Rc.enoent
  | some fid =>
    if tooLong new then pure Rc.enametoolong
    else do
      match ← fidFromPath new with
      | none => setName fid new
      | some _ => do
          let rc ← removeFile mountPrefix new r
          if rc ≠ Rc.success then pure Rc.ebusy else setName fid new

structure RenameCall where
  old : String
  new : String
  replies : RemoveReplies
  arrivals : List (List Notice)

def RenameCall.run (mountPrefix : String) (m : RenameCall) (c : Client) : Option (Rc × Client) :=
  ((renameFile mountPrefix m.old m.new m.replies).run ⟨c,m.arrivals⟩).map
    fun (rc,w) => (rc,w.client)

/-- The server answers about the file that it was asked for. -/
inductive FileCall (generateGfid : String → ℤ) where
  | opens (o : OpenCall) (answered : o.Answered generateGfid)
  | unlink (path : String) (replies : RemoveReplies) (arrivals : List (List Notice))
  | rename (m : RenameCall)
  | callback (n : Notice)

def callStep (generateGfid : String → ℤ) (mountPrefix : String) (c : Client) :
    FileCall generateGfid → Option Client
  | .opens o _ => (o.run generateGfid c).map Prod.snd
  | .unlink path r arrivals =>
    ((removeFile mountPrefix path r).run ⟨c,arrivals⟩).map fun (_,w) => w.client
  | .rename m => (m.run mountPrefix c).map Prod.snd
  | .callback n => some (c.unlinkCallback n.gfid)

section Frames
variable {mountPrefix path old new : String} {quiet : Notice → Prop} {Ok : ℕ → Prop}
  {E : Client → Prop}

theorem fidUnlink_holding (F : Frame path quiet Ok E) (fid : ℕ) (reply : Rc) :
    Triple (Holding quiet Ok E (some fid)) (fidUnlink fid reply)
      fun _ => Holding quiet Ok E (some fid) := by
  apply ((stable_holding F (some fid)).bind_getMeta _).bind
  intro _
  apply (fidDelete_holding F (some fid)).bind
  intro rc
  exact Triple.ite (fun _ => .keep) fun _ => .keep

theorem removeFile_holding (F : Frame path quiet Ok E) (r : RemoveReplies) :
    Triple (Holding quiet Ok E none) (removeFile mountPrefix path r)
      fun _ => Holding quiet Ok E none := by
  apply Triple.ite (fun _ => .keep)
  intro _
  apply (fidFromPath_holding F).bind
  intro fid
  cases fid with
  | some fid =>
    apply Triple.conseq
      (Q := fun _ => Holding quiet Ok E (some fid)) _ (fun _ h => h.1) fun _ _ h => h.forget
    apply ((stable_holding F (some fid)).bind_getMeta _).bind
    intro isDir
    apply Triple.ite (fun _ => .keep)
    intro _
    apply (fidUnlink_holding F fid r.unlink).bind
    intro rc
    exact .keep
  | none =>
    apply Triple.pre _ fun _ h => h.1
    exact Triple.ite (fun _ => .keep) fun _ => Triple.ite (fun _ => .keep) fun _ => .keep

end Frames

section Names
variable {mountPrefix path old new : String} {Φ : ℕ → String → ℤ → Prop} {c : Client} {i : ℕ}
  {s : FileSlot}

theorem fidUnlink_each (fid : ℕ) (reply : Rc) : Triple (Each Φ) (fidUnlink fid reply)
      fun _ => Each fun k name gfid => Φ k name gfid ∧ some k ≠ some fid := by
  apply ((stable_each (some fid)).bind_getMeta _).bind
  intro _
  apply (fidDelete_each (some fid)).bind
  intro rc
  exact Triple.ite (fun _ => .keep) fun _ => .keep

theorem removeFile_each (r : RemoveReplies) :
    Triple (Each Φ) (removeFile mountPrefix path r) fun _ => Each Φ := by
  apply Triple.ite (fun _ => .keep)
  intro _
  apply ((fidFromPath_each path).post fun fid w h => h.left).bind
  intro fid
  cases fid with
  | some fid =>
    apply ((stable_each (some fid)).bind_getMeta _).bind
    intro isDir
    apply Triple.ite (fun _ => .keep)
    intro _
    apply (fidUnlink_each fid r.unlink).bind
    intro rc
    exact .ret fun w h => h.left
  | none => exact Triple.ite (fun _ => .keep) fun _ => Triple.ite (fun _ => .keep) fun _ => .keep

/-- The table stays well formed, whatever callbacks come in. -/
abbrev Formed : World → Prop := Holding (fun _ => True) (fun _ => True) (fun _ => True) none

theorem formed_of_wf (h : WF c) (arrivals : List (List Notice)) :
    Formed ⟨c,arrivals⟩ := ⟨h,trivial,fun _ _ _ _ => trivial,fun _ hj => by cases hj⟩

theorem fidFromPath_only : Triple Formed (fidFromPath path)
      fun fid w => Formed w ∧ Each (fun k name _ => name = path → some k = fid) w := by
  apply (fidFromPath_holding (frame_wf path fun _ => True)).post
  intro fid w h
  refine ⟨h.1.forget,?_⟩
  intro k s hs hinUse hname
  exact ((h.1.wf.fidFromPath_eq hs hinUse hname).symm.trans h.2)

theorem removeFile_vacant (r : RemoveReplies) : Triple Formed (removeFile mountPrefix path r)
      fun rc w => rc = Rc.success → Vacant path w.client := by
  apply Triple.ite
  · intro _
    exact .ret fun w _ hrc => by cases hrc
  · intro _
    apply (fidFromPath_only.post fun _ _ h => h.2).bind
    intro fid
    cases fid with
    | some fid =>
      apply ((stable_each (some fid)).bind_getMeta _).bind
      intro isDir
      apply Triple.ite
      · intro _
        exact .ret fun w _ hrc => by cases hrc
      · intro _
        apply (fidUnlink_each fid r.unlink).bind
        intro rc
        exact .ret fun w h _ k s hs hinUse hname =>
          (h hs hinUse).2 ((h hs hinUse).1 hname)
    | none =>
      have hvacant : ∀ (rc : Rc) (w : World), Each (fun k name _ => name = path → some k = none) w →
            rc = Rc.success → Vacant path w.client :=
        fun rc w h _ k s hs hinUse hname => by cases h hs hinUse hname
      exact Triple.ite (fun _ => .ret (hvacant _)) fun _ =>
        Triple.ite (fun _ => .ret (hvacant _)) fun _ => .ret (hvacant _)

theorem WF.rename (hwf : WF c) (hvacant : Vacant new c) (fid : ℕ) :
    WF (c.modifySlot fid (FileSlot.rename new)) := by
  have hslot : ∀ {k t}, (c.modifySlot fid (FileSlot.rename new)).files[k]? = some t →
      ∃ u, c.files[k]? = some u ∧ t.inUse = u.inUse ∧ t.filemeta = u.filemeta ∧
        (k = fid ∧ t.filename = new ∨ t.filename = u.filename) := by
    intro k t ht
    rw [Client.getElem?_modifySlot] at ht
    split at ht
    · next hk =>
      obtain ⟨u,hu,rfl⟩ := map_eq_some_iff.mp ht
      exact ⟨u,hu,rfl,rfl,.inl ⟨hk.symm,rfl⟩⟩
    · exact ⟨t,ht,rfl,rfl,.inr rfl⟩
  refine ⟨?_,hwf.nodup,?_⟩
  · intro i j t u hi hj ht hu hname
    obtain ⟨t',hi',htuse,-,htname⟩ := hslot hi
    obtain ⟨u',hj',huuse,-,huname⟩ := hslot hj
    rw [htuse] at ht
    rw [huuse] at hu
    cases htname with
    | inl hti =>
      cases huname with
      | inl huj => rw [hti.1,huj.1]
      | inr huj => exact absurd (huj.symm.trans (hname.symm.trans hti.2)) (hvacant hj' hu)
    | inr hti =>
      cases huname with
      | inl huj => exact absurd (hti.symm.trans (hname.trans huj.2)) (hvacant hi' ht)
      | inr huj => exact hwf.unique hi' hj' ht hu (hti.symm.trans (hname.trans huj))
  · intro i hi
    obtain ⟨u,hu,hout,hfresh⟩ := hwf.free i hi
    rw [Client.getElem?_modifySlot]
    split
    · exact ⟨u.rename new,by rw [hu,map_some],hout,hfresh⟩
    · exact ⟨u,hu,hout,hfresh⟩

theorem setName_wf (fid : ℕ) : Triple (fun w => WF w.client ∧ Vacant new w.client) (setName fid new)
      fun _ w => WF w.client := by
  apply Triple.bind (Q := fun _ w => WF w.client)
  · exact .update fun w h => h.1.rename h.2 fid
  · intro _
    exact .keep

theorem renameFile_wf (r : RemoveReplies) :
    Triple Formed (renameFile mountPrefix old new r) fun _ w => WF w.client := by
  apply (fidFromPath_only.post fun _ _ h => h.1).bind
  intro fid
  cases fid with
  | none => exact .ret fun _ h => h.wf
  | some fid =>
    apply Triple.ite (fun _ => .ret fun _ h => h.wf)
    intro _
    apply fidFromPath_only.bind
    intro found
    cases found with
    | none =>
      apply (setName_wf fid).pre
      intro w h
      exact ⟨h.1.wf,fun hs hinUse hname => by cases h.2 hs hinUse hname⟩
    | some j =>
      apply Triple.bind (((removeFile_holding (frame_wf new fun _ => True) r).and
        (removeFile_vacant r)).pre fun w h => ⟨h.1,h.1⟩)
      intro rc
      apply Triple.ite (fun _ => .ret fun _ h => h.1.wf)
      intro hrc
      exact (setName_wf fid).pre fun w h => ⟨h.1.wf,h.2 (not_not.mp hrc)⟩

theorem setName_each {Ψ : ℕ → String → ℤ → Prop} (fid : ℕ)
    (hother : ∀ k name gfid, k ≠ fid → Φ k name gfid → Ψ k name gfid)
    (hself : ∀ name gfid, Φ fid name gfid → Ψ fid new gfid) :
    Triple (Each Φ) (setName fid new) fun _ => Each Ψ := by
  apply Triple.bind (Q := fun _ => Each Ψ)
  · apply Triple.update
    intro w h
    exact each_modifySlot rfl h hother fun s hs hinUse =>
      hself s.filename s.filemeta.attrs.gfid (h hs hinUse)
  · intro _
    exact .keep

theorem fidFromPath_unless {K : Prop} :
    Triple (fun w => Vacant path w.client ∨ K) (fidFromPath path) fun fid _ => fid = none ∨ K := by
  constructor
  intro w fid w' h hrun
  cases h with
  | inl hvacant => exact .inl (fidFromPath_vacant.holds w fid w' hvacant hrun)
  | inr hK => exact .inr hK

theorem renameFile_each {generateGfid : String → ℤ} (r : RemoveReplies) :
    Triple (fun w => Each (fun _ name gfid => gfid = generateGfid name) w ∧
        (Vacant old w.client ∨ tooLong new = true ∨ generateGfid new = generateGfid old))
      (renameFile mountPrefix old new r)
      fun _ => Each fun _ name gfid => gfid = generateGfid name := by
  apply ((fidFromPath_each old).and fidFromPath_unless).bind
  intro fid
  cases fid with
  | none => exact .ret fun w h => h.1.left
  | some fid =>
    apply Triple.ite
    · intro _
      exact .ret fun w h => h.1.left
    · intro hlong
      apply Triple.pre (P := fun w => generateGfid new = generateGfid old ∧
        Each (fun k name gfid => gfid = generateGfid name ∧ (some fid = some k → name = old)) w)
      · apply Triple.assume
        intro hgfid
        have hset : Triple (Each fun k name gfid => gfid = generateGfid name ∧
            (some fid = some k → name = old)) (setName fid new)
            fun _ => Each fun _ name gfid => gfid = generateGfid name := by
          apply setName_each
          · intro k name gfid _ hk
            exact hk.1
          · intro name gfid hk
            rw [hk.1,hk.2 rfl,hgfid]
        apply ((fidFromPath_each new).post fun _ _ h => h.left).bind
        intro found
        cases found with
        | none => exact hset
        | some j =>
          apply (removeFile_each r).bind
          intro rc
          apply Triple.ite
          · intro _
            exact .ret fun w h => h.left
          · intro _
            exact hset
      · intro w h
        refine ⟨?_,h.1⟩
        cases h.2 with
        | inl hnone => cases hnone
        | inr hkeep => exact hkeep.resolve_left hlong

theorem renameFile_fails (r : RemoveReplies) :
    Triple (fun w => Vacant old w.client ∨ tooLong new = true) (renameFile mountPrefix old new r)
      fun rc _ => rc ≠ Rc.success := by
  apply fidFromPath_unless.bind
  intro fid
  cases fid with
  | none => exact .ret fun _ _ hrc => by cases hrc
  | some fid =>
    apply Triple.ite
    · intro _
      exact .ret fun _ _ hrc => by cases hrc
    · intro hlong
      apply Triple.pre _ fun w h => h.elim (fun hn => by cases hn) hlong
      exact Triple.given fun h => h.elim

/-- A rename that fails has renamed nothing. -/
theorem renameFile_each_failed (r : RemoveReplies) :
    Triple (Each Φ) (renameFile mountPrefix old new r) fun rc w => rc ≠ Rc.success → Each Φ w := by
  have hset : ∀ fid, Triple (Each Φ) (setName fid new) fun rc w => rc ≠ Rc.success → Each Φ w :=
    fun fid => Triple.bind .top fun _ => .ret fun _ _ hrc => absurd rfl hrc
  apply ((fidFromPath_each old).post fun _ _ h => h.left).bind
  intro fid
  cases fid with
  | none => exact .ret fun _ h _ => h
  | some fid =>
    apply Triple.ite (fun _ => .ret fun _ h _ => h)
    intro _
    apply ((fidFromPath_each new).post fun _ _ h => h.left).bind
    intro found
    cases found with
    | none => exact hset fid
    | some j =>
      apply (removeFile_each r).bind
      intro rc
      exact Triple.ite (fun _ => .ret fun _ h _ => h) fun _ => hset fid

section Busy
variable {G : ℤ → Prop} {j : ℕ} {s : FileSlot} {r : RemoveReplies}

theorem getMeta_marked (hmark : s.Marked j) :
    Triple (At G j s) (getMeta (some j)) fun m w => m = none ∧ At G j (s.drop j) w := by
  apply arrive_at.bind
  intro _
  apply Triple.step
  intro w h
  dsimp only
  rw [Client.getMetaFromFid_of_marked h.slot hmark]
  exact ⟨rfl,at_drop h⟩

theorem fidDelete_foreign (hfid : s.filemeta.fid ≠ j) :
    Triple (At G j s) (fidDelete (some j)) fun rc _ => rc ≠ Rc.success := by
  apply Triple.bind (Q := fun _ => At G j s) (.query fun _ h => h)
  intro n
  apply Triple.ite
  · intro _
    apply Triple.step
    intro w h
    have hreleased := Client.getElem?_modifySlot_self FileSlot.release h.slot
    dsimp only
    unfold Client.fidDelete Client.deleteWith
    simp only [Client.getMetaFromFid_of_not_marked hreleased fun hm => hfid hm.1]
    rw [if_neg (show ¬ s.release.filemeta.fid = j from hfid)]
    exact fun hrc => by cases hrc
  · intro _
    exact .fault

/-- What keeps the entry of a name from being removed. -/
def Unremovable (mountPrefix : String) (reply : Rc) (j : ℕ) (s : FileSlot) : Prop :=
  s.filename = mountPrefix ∨ reply ≠ Rc.success ∨ s.Marked j ∨
    s.filemeta.attrs.mode &&& FileAttr.sIfdir ≠ 0

theorem removeFile_busy (hinUse : s.inUse = true) (hbusy : Unremovable mountPrefix r.unlink j s) :
    Triple (At G j s) (removeFile mountPrefix s.filename r) fun rc _ => rc ≠ Rc.success := by
  have herrno : ∀ {P : World → Prop} {p : Prog World Rc}, Triple P p (fun rc _ => rc ≠ Rc.success) →
      Triple P (do let rc ← p; pure rc.errno) fun rc _ => rc ≠ Rc.success :=
    fun hp => hp.bind fun rc => .ret fun _ => mt (Rc.errno_eq_zero_iff rc).mp
  apply Triple.ite (fun _ => .ret fun _ _ hrc => by cases hrc)
  intro hmount
  apply (fidFromPath_at hinUse rfl).bind
  intro fid
  apply Triple.assume
  rintro rfl
  by_cases hmark : s.Marked j
  · -- the look-up for the directory bit deletes the entry
    have hfree : (s.drop j).filemeta.fid ≠ j := by
      unfold FileSlot.drop
      rw [if_pos hmark.1]
      exact fun h => by cases h
    refine Triple.bind (Q := fun _ => At G j (s.drop j))
      ((getMeta_marked hmark).bind fun m => .ret fun _ h => h.2) fun isDir => ?_
    apply Triple.ite (fun _ => .ret fun _ _ hrc => by cases hrc)
    refine fun _ => herrno (Triple.bind (Q := fun _ => At G j (s.drop j))
      ((bind_getMeta_at (fun hm => hfree hm.1) _).post fun _ _ h => h.2) fun _ => ?_)
    refine (fidDelete_foreign hfree).bind fun rc => ?_
    exact Triple.ite (fun hrc => .ret fun _ _ => hrc) fun hrc => .given fun h => absurd h hrc
  · apply (bind_getMeta_at hmark _).bind
    intro isDir
    apply Triple.assume
    rintro rfl
    apply Triple.ite (fun _ => .ret fun _ _ hrc => by cases hrc)
    intro hdir
    have hreply : r.unlink ≠ Rc.success := by
      rcases hbusy with h | h | h | h
      · exact absurd h hmount
      · exact h
      · exact absurd h hmark
      · exact absurd (by simpa using h) hdir
    refine herrno (Triple.bind .top fun _ => Triple.bind .top fun rc => ?_)
    exact Triple.ite (fun hrc => .ret fun _ _ => hrc) fun _ => .ret fun _ _ => hreply

theorem renameFile_busy (hinUse : s.inUse = true) (hbusy : Unremovable mountPrefix r.unlink j s) :
    Triple (At G j s) (renameFile mountPrefix old s.filename r) fun rc _ => rc ≠ Rc.success := by
  refine Triple.bind (Q := fun _ => At G j s) (arrive_at.bind fun _ => .query fun _ h => h)
    fun fid => ?_
  cases fid with
  | none => exact .ret fun _ _ hrc => by cases hrc
  | some fid =>
    apply Triple.ite (fun _ => .ret fun _ _ hrc => by cases hrc)
    intro _
    apply (fidFromPath_at hinUse rfl).bind
    intro found
    apply Triple.assume
    rintro rfl
    apply (removeFile_busy hinUse hbusy).bind
    intro rc
    apply Triple.ite (fun _ => .ret fun _ _ hrc => by cases hrc)
    exact fun hrc => .given fun h => absurd h hrc

end Busy

/-- The entry is there, and no callback to come is about its file. -/
abbrev Undisturbed (i : ℕ) (s : FileSlot) : World → Prop :=
  Holding (fun n => n.gfid ≠ s.filemeta.attrs.gfid) (· ≠ i) (fun c => c.files[i]? = some s) none

theorem setName_undisturbed : Triple (Undisturbed i s) (setName i new)
      fun rc w => rc = Rc.success → w.client.files[i]? = some (s.rename new) := by
  apply Triple.bind (Q := fun _ w => w.client.files[i]? = some (s.rename new))
  · exact .update fun w h => Client.getElem?_modifySlot_self _ h.cond
  · intro _
    exact .ret fun _ h _ => h

/-- A successful rename leaves the entry of the old path where it is, under the new name, unless
a callback for its file comes in. -/
theorem renameFile_moves (hinUse : s.inUse = true) (hname : s.filename = old) (hne : old ≠ new)
    (r : RemoveReplies) :
    Triple (Undisturbed i s) (renameFile mountPrefix old new r)
      fun rc w => rc = Rc.success → w.client.files[i]? = some (s.rename new) := by
  have F : Frame new (fun n => n.gfid ≠ s.filemeta.attrs.gfid) (· ≠ i)
      fun c => c.files[i]? = some s := frame_entry hinUse (fun h => hne (hname.symm.trans h)) rfl
  have hlook : Triple (Undisturbed i s) (fidFromPath old)
      fun fid w => fid = some i ∧ Undisturbed i s w := by
    apply (arrive_holding F none).bind
    intro _
    exact .query fun w h => ⟨h.wf.fidFromPath_eq h.cond hinUse hname,h⟩
  apply hlook.bind
  intro fid
  apply Triple.assume
  rintro rfl
  apply Triple.ite
  · intro _
    exact .ret fun _ _ hrc => by cases hrc
  · intro _
    apply ((fidFromPath_holding F).post fun _ _ h => h.1.forget).bind
    intro found
    cases found with
    | none => exact setName_undisturbed
    | some j =>
      apply (removeFile_holding F r).bind
      intro rc
      apply Triple.ite
      · intro _
        exact .ret fun _ _ hrc => by cases hrc
      · intro _
        exact setName_undisturbed

end Names

def GfidsMatch (generateGfid : String → ℤ) (c : Client) : Prop :=
  ∀ (k : ℕ) (s : FileSlot), c.files[k]? = some s → s.inUse = true →
    s.filemeta.attrs.gfid = generateGfid s.filename

/-- An entry has the new name and cannot be removed, and no callback for its file comes in. -/
def RenameCall.Busy (mountPrefix : String) (c : Client) (m : RenameCall) : Prop :=
  ∃ j s, c.files[j]? = some s ∧ s.inUse = true ∧ s.filename = m.new ∧
    (∀ batch ∈ m.arrivals, ∀ n ∈ batch, n.gfid ≠ s.filemeta.attrs.gfid) ∧
    Unremovable mountPrefix m.replies.unlink j s

/-- There is nothing to rename, the new name does not fit or is taken for good, or it is another
one of the same gfid. -/
def RenameCall.KeepsFile (generateGfid : String → ℤ) (mountPrefix : String) (c : Client)
    (m : RenameCall) : Prop :=
  c.fidFromPath m.old = none ∨ tooLong m.new = true ∨ m.Busy mountPrefix c ∨
    m.old ≠ m.new ∧ generateGfid m.new = generateGfid m.old

/-- No callback for the file comes in during the call. -/
def RenameCall.Quiet (generateGfid : String → ℤ) (m : RenameCall) : Prop :=
  ∀ batch ∈ m.arrivals, ∀ n ∈ batch, n.gfid ≠ generateGfid m.old

def KeepsFiles (generateGfid : String → ℤ) (mountPrefix : String) (c : Client) :
    FileCall generateGfid → Prop
  | .rename m => m.KeepsFile generateGfid mountPrefix c
  | _ => True

section Runs
variable {generateGfid : String → ℤ} {mountPrefix : String} {c d : Client} {m : RenameCall}
  {rc : Rc}

theorem GfidsMatch.each (h : GfidsMatch generateGfid c) (arrivals : List (List Notice)) :
    Each (fun _ name gfid => gfid = generateGfid name) ⟨c,arrivals⟩ :=
  fun k s hs hinUse => h k s hs hinUse

theorem RenameCall.of_run {P : World → Prop} {Q : Rc → World → Prop}
    (h : Triple P (renameFile mountPrefix m.old m.new m.replies) Q) (hP : P ⟨c,m.arrivals⟩)
    (hrun : m.run mountPrefix c = some (rc,d)) : ∃ w, w.client = d ∧ Q rc w := by
  obtain ⟨⟨rc',w⟩,hres,heq⟩ := map_eq_some_iff.mp hrun
  cases heq
  exact ⟨w,rfl,h.holds _ _ _ hP hres⟩

theorem RenameCall.fails_of_busy (hwf : WF c) (hbusy : m.Busy mountPrefix c)
    (hrun : m.run mountPrefix c = some (rc,d)) : rc ≠ Rc.success := by
  obtain ⟨j,s,hs,hinUse,hname,hquiet,hbusy⟩ := hbusy
  rw [RenameCall.run,← hname] at hrun
  obtain ⟨⟨rc',w⟩,hres,heq⟩ := map_eq_some_iff.mp hrun
  cases heq
  exact (renameFile_busy (G := (· = s.filemeta.attrs.gfid)) hinUse hbusy).holds _ _ _
    ⟨hwf,hs,hquiet,fun _ _ => rfl,.inl hinUse⟩ hres

theorem RenameCall.gfidsMatch (hwf : WF c) (hmatch : GfidsMatch generateGfid c)
    (hkeep : m.KeepsFile generateGfid mountPrefix c) (hrun : m.run mountPrefix c = some (rc,d)) :
    GfidsMatch generateGfid d := by
  by_cases hbusy : m.Busy mountPrefix c
  · obtain ⟨w,rfl,hw⟩ := of_run (renameFile_each_failed m.replies) (hmatch.each _) hrun
    exact fun k s hs hinUse => hw (fails_of_busy hwf hbusy hrun) hs hinUse
  · obtain ⟨w,rfl,hw⟩ := of_run (renameFile_each m.replies) ⟨hmatch.each _,
      hkeep.imp fidFromPath_eq_none_iff.mp (Or.imp_right fun h => (h.resolve_left hbusy).2)⟩ hrun
    exact fun k s hs hinUse => hw hs hinUse

theorem RenameCall.wf (hwf : WF c) (hrun : m.run mountPrefix c = some (rc,d)) : WF d := by
  obtain ⟨w,rfl,hw⟩ := of_run (renameFile_wf m.replies) (formed_of_wf hwf _) hrun
  exact hw

/-- The invariant of the table and of the gfids, one call at a time. -/
theorem callStep_gfids {call : FileCall generateGfid} (hwf : WF c)
    (hmatch : GfidsMatch generateGfid c) (hkeep : KeepsFiles generateGfid mountPrefix c call)
    (hstep : callStep generateGfid mountPrefix c call = some d) :
    WF d ∧ GfidsMatch generateGfid d := by
  cases call with
  | opens o answered =>
    obtain ⟨⟨res,d'⟩,hopen,rfl⟩ := map_eq_some_iff.mp hstep
    obtain ⟨w,rfl,hw⟩ := OpenCall.of_run (fidOpen_bound answered o.search o.who o.flags o.mode)
      ((hmatch.each _).mono fun _ _ _ hk => ⟨hk,fun hnone => by cases hnone⟩) hopen
    exact ⟨OpenCall.run_wf hwf hopen,fun k s hs hinUse => (hw hs hinUse).1⟩
  | unlink path r arrivals =>
    obtain ⟨⟨rc,w⟩,hres,rfl⟩ := map_eq_some_iff.mp hstep
    have hformed := (removeFile_holding (frame_wf path fun _ => True) r).holds _ _ _
      (formed_of_wf hwf _) hres
    have heach := (removeFile_each r).holds _ _ _ (hmatch.each _) hres
    exact ⟨hformed.wf,fun k s hs hinUse => heach hs hinUse⟩
  | rename m =>
    obtain ⟨⟨rc,d'⟩,hren,rfl⟩ := map_eq_some_iff.mp hstep
    exact ⟨RenameCall.wf hwf hren,RenameCall.gfidsMatch hwf hmatch hkeep hren⟩
  | callback n =>
    cases hstep
    refine ⟨unlinkCallback_wf hwf n.gfid,?_⟩
    exact fun k s hs hinUse =>
      (thins_unlinkCallback c n.gfid).each (w := ⟨c,[]⟩) (hmatch.each _) [] hs hinUse

theorem run_gfids {maxFiles : ℕ} {calls : List (FileCall generateGfid)}
    (hrun : Run (callStep generateGfid mountPrefix) (KeepsFiles generateGfid mountPrefix)
      (clientInit maxFiles) calls c) : WF c ∧ GfidsMatch generateGfid c := by
  refine hrun.invariant (I := fun c => WF c ∧ GfidsMatch generateGfid c) ?_
    ⟨clientInit_wf maxFiles,?_⟩
  · intro c call d h hkeep hstep
    exact callStep_gfids h.1 h.2 hkeep hstep
  · intro k s hs hinUse
    obtain rfl := eq_of_mem_replicate (mem_of_getElem? hs)
    cases hinUse

theorem RenameCall.opens_renamed (hwf : WF c) (hmatch : GfidsMatch generateGfid c)
    (hkeep : m.KeepsFile generateGfid mountPrefix c) (hquiet : m.Quiet generateGfid)
    (hrename : m.run mountPrefix c = some (Rc.success,d)) {o : OpenCall} (hpath : o.path = m.new)
    (hanswer : o.Answered generateGfid) (hsilent : o.Quiet generateGfid d)
    (hmark : ¬ PathMarked d m.new) {fid : Option ℕ} {pos : ℤ} {d' : Client}
    (hopen : o.run generateGfid d = some (.ok (fid,pos),d')) :
    fid = c.fidFromPath m.old ∧ Denotes generateGfid d' fid m.new := by
  have hdone : ¬ (Vacant m.old c ∨ tooLong m.new = true) := by
    intro h
    obtain ⟨w,-,hw⟩ := of_run (renameFile_fails m.replies) h hrename
    exact hw rfl
  cases hfound : c.fidFromPath m.old with
  | none => exact absurd (.inl (fidFromPath_eq_none_iff.mp hfound)) hdone
  | some i =>
    obtain ⟨s,hs,hinUse,hname⟩ := of_fidFromPath hfound
    have hne : m.old ≠ m.new := by
      cases hkeep with
      | inl h => rw [hfound] at h; cases h
      | inr h =>
        exact ((h.resolve_left fun hlong => hdone (.inr hlong)).resolve_left fun hbusy =>
          fails_of_busy hwf hbusy hrename rfl).1
    have hgfid : s.filemeta.attrs.gfid = generateGfid m.old := hname ▸ hmatch i s hs hinUse
    obtain ⟨w,rfl,hw⟩ := of_run (renameFile_moves hinUse hname hne m.replies)
      ⟨hwf,hs,fun b hb n hn => hgfid ▸ hquiet b hb n hn,fun _ hj => by cases hj⟩ hrename
    have hslot := hw rfl
    have hG : OpenCall.concerns generateGfid w.client o.path (generateGfid o.path) := .inl rfl
    have hunmarked : ¬ (s.rename m.new).Marked i := fun hm => hmark ⟨i,_,hslot,hinUse,rfl,hm⟩
    obtain ⟨w',rfl,hw'⟩ := OpenCall.of_run
      (fidOpen_found (s := s.rename m.new) hinUse hpath.symm hanswer hG hunmarked)
      ⟨RenameCall.wf hwf hrename,hslot,hsilent,
        fun _ _ => .inr ⟨i,_,hslot,hinUse,hpath.symm,rfl⟩,.inl hinUse⟩ hopen
    have hres := hw' fid pos rfl
    exact ⟨hres.1,hpath ▸ hres.2⟩

end Runs

/-- As long as every rename is to another name of the same gfid, or fails at once, every entry in
use has the gfid of its name, and opening the new path of a rename gives the entry of the old
one. -/
theorem run_gfids_of_keepsFiles (generateGfid : String → ℤ) (mountPrefix : String)
    (maxFiles : ℕ) (calls : List (FileCall generateGfid)) (c : Client)
    (hrun : Run (callStep generateGfid mountPrefix) (KeepsFiles generateGfid mountPrefix)
      (clientInit maxFiles) calls c) :
    GfidsMatch generateGfid c ∧
      ∀ (m : RenameCall) (d : Client) (o : OpenCall) (fid : Option ℕ) (pos : ℤ) (d' : Client),
        m.KeepsFile generateGfid mountPrefix c → m.Quiet generateGfid →
        m.run mountPrefix c = some (Rc.success,d) →
        o.path = m.new → o.Answered generateGfid → o.Quiet generateGfid d →
        ¬ PathMarked d m.new → o.run generateGfid d = some (.ok (fid,pos),d') →
        fid = c.fidFromPath m.old ∧ Denotes generateGfid d' fid m.new := by
  obtain ⟨hwf,hmatch⟩ := run_gfids hrun
  refine ⟨hmatch,?_⟩
  intro m d o fid pos d' hkeep hquiet hrename hpath hanswer hsilent hmark hopen
  exact RenameCall.opens_renamed hwf hmatch hkeep hquiet hrename hpath hanswer hsilent hmark hopen

def sampleRename (old new : String) : RenameCall := ⟨old,new,⟨0,FileAttr.invalid,0⟩,[]⟩

/-- Two names of the same gfid: the file is found again under the second one. -/
theorem run_gfids_of_keepsFiles_same : ∃ c d d',
    Run (callStep sampleGfid "/mnt") (KeepsFiles sampleGfid "/mnt") (clientInit 2)
      [.opens (sampleCall "/b" oCreat) fun _ => rfl] c ∧
    (sampleRename "/b" "/c").run "/mnt" c = some (Rc.success,d) ∧
    (sampleCall "/c" 0).run sampleGfid d = some (.ok (some 0,0),d') ∧
    GfidsMatch sampleGfid c ∧ Denotes sampleGfid d' (some 0) "/c" := by
  have hres : (((callStep sampleGfid "/mnt" (clientInit 2)
      (.opens (sampleCall "/b" oCreat) fun _ => rfl)).bind
      ((sampleRename "/b" "/c").run "/mnt")).bind fun p =>
        if p.1 = Rc.success ∧ ∀ s ∈ p.2.files, s.filemeta.pendingUnlink = false then
          (sampleCall "/c" 0).run sampleGfid p.2 else none).map Prod.fst =
        some (.ok (some 0,0)) := by
    decide +kernel
  obtain ⟨⟨res,d'⟩,hall,rfl⟩ := map_eq_some_iff.mp hres
  obtain ⟨⟨rc,d⟩,hboth,hopen⟩ := bind_eq_some_iff.mp hall
  obtain ⟨c,hstep,hrename⟩ := bind_eq_some_iff.mp hboth
  split_ifs at hopen with hd
  obtain ⟨rfl,hplain⟩ := hd
  have hrun : Run (callStep sampleGfid "/mnt") (KeepsFiles sampleGfid "/mnt") (clientInit 2)
      [.opens (sampleCall "/b" oCreat) fun _ => rfl] c := .cons trivial hstep (.nil c)
  have hgood := run_gfids_of_keepsFiles sampleGfid "/mnt" 2 _ c hrun
  refine ⟨c,d,d',hrun,hrename,hopen,hgood.1,?_⟩
  refine (hgood.2 (sampleRename "/b" "/c") d (sampleCall "/c" 0) _ _ d' ?_ ?_ hrename rfl
    (fun _ => rfl) ?_ ?_ hopen).2
  · exact .inr (.inr (.inr ⟨by decide,rfl⟩))
  · intro batch hbatch
    cases hbatch
  · intro batch hbatch
    cases hbatch
  · intro hmarked
    obtain ⟨k,s,hs,-,-,hmark⟩ := hmarked
    exact Bool.false_ne_true ((hplain s (mem_of_getElem? hs)).symm.trans hmark.2)

/-- The server knows the file by its first name only. -/
def forgottenCall (path : String) : OpenCall :=
  { sampleCall path 0 with
    replies := { (sampleCall path 0).replies with metaget := Rc.enoent } }

/-- A file is created and renamed. Its entry keeps the gfid of the old name; opening the new one
fails, and the entry is deleted. -/
theorem renamed_file_lost : ∃ c d,
    Run (callStep sampleGfid "/mnt") (fun _ _ => True) (clientInit 2)
      [.opens (sampleCall "/a" oCreat) fun _ => rfl,.rename (sampleRename "/a" "/b")] c ∧
    ¬ GfidsMatch sampleGfid c ∧ c.fidFromPath "/b" = some 0 ∧
    (forgottenCall "/b").run sampleGfid c = some (.error Rc.enoent,d) ∧
    d.fidFromPath "/b" = none := by
  have hexec : (exec (callStep sampleGfid "/mnt") (fun _ _ => true) (clientInit 2)
      [.opens (sampleCall "/a" oCreat) fun _ => rfl,.rename (sampleRename "/a" "/b")]).any (fun c =>
        (c.files[0]?.any fun s => s.inUse && s.filename == "/b" &&
          s.filemeta.attrs.gfid == 11) && c.fidFromPath "/b" == some 0 &&
        ((forgottenCall "/b").run sampleGfid c).any fun p =>
          decide (p.1 = .error Rc.enoent) && p.2.fidFromPath "/b" == none) = true := by
    decide +kernel
  obtain ⟨c,hrun,hc⟩ := Run.exists_of_exec hexec
  rw [Bool.and_eq_true,Bool.and_eq_true,beq_iff_eq,Option.any_eq_true,Option.any_eq_true] at hc
  obtain ⟨⟨⟨s,hs,hslot⟩,hfound⟩,⟨res,d⟩,hopen,hlost⟩ := hc
  obtain ⟨⟨hinUse,hname⟩,hgfid⟩ : (s.inUse = true ∧ s.filename = "/b") ∧
      s.filemeta.attrs.gfid = 11 := by
    simpa using hslot
  obtain ⟨rfl,hgone⟩ : res = .error Rc.enoent ∧ d.fidFromPath "/b" = none := by
    simpa using hlost
  refine ⟨c,d,hrun.weaken fun _ _ _ => trivial,?_,hfound,hopen,hgone⟩
  intro hmatch
  have hbad := hmatch 0 s hs hinUse
  rw [hname,hgfid] at hbad
  exact absurd hbad (by decide)

end UnifyFS.ClientFiles
