import UnifyFS.InodeSizes

/-!
# The inodes of a server, and what lamination keeps

A server finds its inodes in a tree by gfid. The calls that other modules describe for a
single inode look it up first. No place of the code alone makes a laminated file
immutable: some calls refuse it, creating it again finds that it exists, and the
operations on attributes leave the size and the mark of lamination as they are. Together
they keep the extents and the size until the file is unlinked.
-/
namespace UnifyFS.LaminatedInodes
open GuardedRuns RangeTrees ExtentTree InodeModel Lamination InodeSizes List Option

abbrev InodeTable := ℤ → Option Inode

def unifyfsInodeTreeInsert (tbl : InodeTable) (gfid : ℤ) (ino : Inode) : Rc × InodeTable :=
  if gfid ≠ ino.attr.gfid then (Rc.einval,tbl)
  else if (tbl gfid).isSome then (Rc.eexist,tbl)
  else (Rc.success,Function.update tbl gfid (some ino))

def createInode (tbl : InodeTable) (gfid : ℤ) (attr : Option FileAttr) (now : ℤ) :
    Rc × InodeTable :=
  match attr with
  | none => (Rc.einval,tbl)
  | some attr => unifyfsInodeTreeInsert tbl gfid (unifyfsInodeCreate attr now)

/-- `unifyfs_inode_unlink`. The storage of the extents is not modelled. -/
def unifyfsInodeUnlink (tbl : InodeTable) (gfid : ℤ) : Rc × InodeTable :=
  if (tbl gfid).isNone then (Rc.enoent,tbl) else (Rc.success,Function.update tbl gfid none)

def withInode (tbl : InodeTable) (gfid : ℤ) (f : Inode → Option (Rc × Inode)) :
    Option (Rc × InodeTable) :=
  match tbl gfid with
  | none => some (Rc.enoent,tbl)
  | some ino => (f ino).map fun (rc,ino') => (rc,Function.update tbl gfid (some ino'))

def unifyfsInodeLaminate (ino : Inode) : Rc × Inode :=
  (Rc.success,{ ino with attr.isLaminated := 1 })

/-- `unifyfs_inode_update_attr`. The result of the update is not looked at. -/
def unifyfsInodeUpdateAttr (op : FileAttr.Op) (attr : FileAttr) (now : ℤ) (ino : Inode) :
    Rc × Inode :=
  (Rc.success,{ ino with attr := (FileAttr.update op ino.attr attr now).2 })

def unifyfsInodeMetaset (tbl : InodeTable) (gfid : ℤ) (op : FileAttr.Op) (attr : Option FileAttr)
    (now : ℤ) : Option (Rc × InodeTable) :=
  if op = .create then some (createInode tbl gfid attr now)
  else
    match attr with
    | none => some (Rc.einval,tbl)
    | some attr => withInode tbl gfid fun ino => some (unifyfsInodeUpdateAttr op attr now ino)

inductive InodeCall where
  | truncate (gfid : ℤ) (size : BitVec 64)
  | addExtents (gfid : ℤ) (S : ℕ → Picker LogLoc) (es : List Extent)
  | addPendingExtents (gfid : ℤ) (es : List Extent)
  | laminate (gfid : ℤ)
  | metaset (gfid : ℤ) (op : FileAttr.Op) (attr : Option FileAttr) (now : ℤ)
  | unlink (gfid : ℤ)

def inodeCall (debug : Bool) (tbl : InodeTable) : InodeCall → Option (Rc × InodeTable)
  | .truncate gfid size => withInode tbl gfid fun ino => unifyfsInodeTruncate debug ino size
  | .addExtents gfid S es => withInode tbl gfid fun ino => unifyfsInodeAddExtents S ino es
  | .addPendingExtents gfid es =>
    withInode tbl gfid fun ino => some (unifyfsInodeAddPendingExtents ino es)
  | .laminate gfid => withInode tbl gfid fun ino => some (unifyfsInodeLaminate ino)
  | .metaset gfid op attr now => unifyfsInodeMetaset tbl gfid op attr now
  | .unlink gfid => some (unifyfsInodeUnlink tbl gfid)

def tableStep (debug : Bool) (tbl : InodeTable) (c : InodeCall) : Option InodeTable :=
  (inodeCall debug tbl c).map Prod.snd

/-- The operations on attributes that clients ask for by themselves. -/
def accessOps : List FileAttr.Op := [.create,.chmod,.chown,.chgrp,.utime]

/-- The call does not unlink the file, and does not set the attributes that belong to other
calls. -/
def staysLinked (gfid : ℤ) (_ : InodeTable) : InodeCall → Bool
  | .unlink g => g != gfid
  | .metaset _ op _ _ => accessOps.contains op
  | _ => true

/-- What a laminated inode keeps. -/
structure Kept (ino ino' : Inode) : Prop where
  extents : ino'.extents = ino.extents
  size : ino'.attr.size = ino.attr.size
  laminated : ino'.attr.isLaminated ≠ 0

theorem Kept.trans {ino ino' ino'' : Inode} (h : Kept ino ino') (h' : Kept ino' ino'') :
    Kept ino ino'' :=
  ⟨h'.extents.trans h.extents,h'.size.trans h.size,h'.laminated⟩

section Calls
variable {debug : Bool} {tbl tbl' : InodeTable} {gfid : ℤ} {ino : Inode} {rc : Rc}
  {op : FileAttr.Op} {g : ℤ}

section
variable (hlam : ino.attr.isLaminated ≠ 0) {ino' : Inode}
include hlam

theorem kept_of_same : Kept ino ino := ⟨rfl,rfl,hlam⟩

theorem truncate_kept {size : BitVec 64}
    (h : unifyfsInodeTruncate debug ino size = some (rc,ino')) : Kept ino ino' := by
  rw [unifyfsInodeTruncate,if_pos hlam] at h
  cases h
  exact kept_of_same hlam

theorem addExtents_kept {S : ℕ → Picker LogLoc} {es : List Extent}
    (h : unifyfsInodeAddExtents S ino es = some (rc,ino')) : Kept ino ino' := by
  rw [unifyfsInodeAddExtents,if_pos hlam] at h
  cases h
  exact kept_of_same hlam

theorem addPendingExtents_kept (es : List Extent) :
    Kept ino (unifyfsInodeAddPendingExtents ino es).2 := by
  rw [unifyfsInodeAddPendingExtents,if_pos hlam]
  exact kept_of_same hlam

end

theorem laminate_kept (ino : Inode) : Kept ino (unifyfsInodeLaminate ino).2 :=
  ⟨rfl,rfl,show (1 : ℤ) ≠ 0 by decide⟩

theorem updateAttr_kept (hlam : ino.attr.isLaminated ≠ 0) (hop : op ∈ accessOps)
    (hcreate : op ≠ .create) (attr : FileAttr) (now : ℤ) :
    Kept ino (unifyfsInodeUpdateAttr op attr now ino).2 := by
  have haccess : op ∈ [FileAttr.Op.chmod,.chown,.chgrp,.utime] :=
    (mem_cons.mp hop).resolve_left hcreate
  obtain ⟨hsize,hmark⟩ := FileAttr.update_of_access ino.attr attr now haccess
  exact ⟨rfl,hsize,hmark ▸ hlam⟩

def KeptAt (gfid : ℤ) (ino : Inode) (tbl : InodeTable) : Prop :=
  ∃ ino', tbl gfid = some ino' ∧ Kept ino ino'

variable (htbl : tbl gfid = some ino) (hlam : ino.attr.isLaminated ≠ 0)
include htbl hlam

theorem keptAt_update {o : Option Inode} (ho : g = gfid → ∃ ino', o = some ino' ∧ Kept ino ino') :
    KeptAt gfid ino (Function.update tbl g o) := by
  by_cases hg : g = gfid
  · obtain ⟨ino',rfl,hkept⟩ := ho hg
    subst hg
    exact ⟨ino',Function.update_self _ _ _,hkept⟩
  · refine ⟨ino,?_,kept_of_same hlam⟩
    rw [Function.update_of_ne (Ne.symm hg)]
    exact htbl

theorem withInode_keptAt {f : Inode → Option (Rc × Inode)}
    (hf : ∀ rc ino', f ino = some (rc,ino') → Kept ino ino')
    (h : withInode tbl g f = some (rc,tbl')) : KeptAt gfid ino tbl' := by
  unfold withInode at h
  split at h
  · cases h
    exact ⟨ino,htbl,kept_of_same hlam⟩
  · next found hfound =>
    obtain ⟨⟨rc',ino'⟩,hcall,hout⟩ := map_eq_some_iff.mp h
    cases hout
    refine keptAt_update htbl hlam fun hg => ⟨ino',rfl,hf rc ino' ?_⟩
    rw [hg,htbl] at hfound
    rw [some.inj hfound]
    exact hcall

theorem createInode_keptAt (g : ℤ) (attr : Option FileAttr) (now : ℤ) :
    KeptAt gfid ino (createInode tbl g attr now).2 := by
  have hsame : KeptAt gfid ino tbl := ⟨ino,htbl,kept_of_same hlam⟩
  unfold createInode
  split
  · exact hsame
  · unfold unifyfsInodeTreeInsert
    split_ifs with hgfid hexists
    · exact hsame
    · exact hsame
    · -- there is no new inode in the place of one that is there
      refine keptAt_update htbl hlam fun hg => ?_
      rw [hg,htbl] at hexists
      exact absurd rfl hexists

theorem metaset_keptAt (hop : op ∈ accessOps) {attr : Option FileAttr} {now : ℤ}
    (h : unifyfsInodeMetaset tbl g op attr now = some (rc,tbl')) :
    KeptAt gfid ino tbl' := by
  unfold unifyfsInodeMetaset at h
  split at h
  · have hcreated := createInode_keptAt htbl hlam g attr now
    rw [some.inj h] at hcreated
    exact hcreated
  · next hcreate =>
    cases attr with
    | none =>
      cases h
      exact ⟨ino,htbl,kept_of_same hlam⟩
    | some attr =>
      refine withInode_keptAt htbl hlam (fun rc ino' hcall => ?_) h
      cases hcall
      exact updateAttr_kept hlam hop hcreate attr now

theorem inodeCall_keptAt {c : InodeCall} (hc : staysLinked gfid tbl c = true)
    (h : inodeCall debug tbl c = some (rc,tbl')) : KeptAt gfid ino tbl' := by
  cases c with
  | truncate g size =>
    exact withInode_keptAt htbl hlam (fun _ _ hcall => truncate_kept hlam hcall) h
  | addExtents g S es =>
    exact withInode_keptAt htbl hlam (fun _ _ hcall => addExtents_kept hlam hcall) h
  | addPendingExtents g es =>
    refine withInode_keptAt htbl hlam (fun rc ino' hcall => ?_) h
    have hkept := addPendingExtents_kept hlam es
    rw [some.inj hcall] at hkept
    exact hkept
  | laminate g =>
    refine withInode_keptAt htbl hlam (fun rc ino' hcall => ?_) h
    cases hcall
    exact laminate_kept ino
  | metaset g op attr now => exact metaset_keptAt htbl hlam (contains_iff_mem.mp hc) h
  | unlink g =>
    have hother := bne_iff_ne.mp hc
    rw [inodeCall,unifyfsInodeUnlink] at h
    split_ifs at h
    · cases h
      exact ⟨ino,htbl,kept_of_same hlam⟩
    · cases h
      exact keptAt_update htbl hlam fun hg => absurd hg hother

end Calls

/-- Over every sequence of calls, for whatever files and with whatever results, a laminated
inode keeps its extents, its size and its mark until it is unlinked. -/
theorem laminated_inode_is_kept (debug : Bool) {tbl tbl' : InodeTable} {gfid : ℤ} {ino : Inode}
    {calls : List InodeCall} (htbl : tbl gfid = some ino) (hlam : ino.attr.isLaminated ≠ 0)
    (h : Run (tableStep debug) (fun t c => staysLinked gfid t c = true) tbl calls tbl') :
    ∃ ino', tbl' gfid = some ino' ∧ ino'.extents = ino.extents ∧
      extentMap ino' = extentMap ino ∧ ino'.attr.size = ino.attr.size ∧
      ino'.attr.isLaminated ≠ 0 := by
  have hkept : KeptAt gfid ino tbl' := by
    refine h.invariant ?_ ⟨ino,htbl,kept_of_same hlam⟩
    rintro t c u ⟨ino₁,ht,hkept⟩ hc hstep
    obtain ⟨⟨rc,u'⟩,hcall,rfl⟩ := map_eq_some_iff.mp hstep
    obtain ⟨ino₂,hu,hkept'⟩ := inodeCall_keptAt ht hkept.laminated hc hcall
    exact ⟨ino₂,hu,hkept.trans hkept'⟩
  obtain ⟨ino',htbl',hkept⟩ := hkept
  refine ⟨ino',htbl',hkept.extents,?_,hkept.size,hkept.laminated⟩
  unfold extentMap
  rw [hkept.extents]

def laminatedFile : Inode where
  attr := { newFile with size := 4, isLaminated := 1 }
  extents := { nodes := [fourBytes], count := 1, max := 3 }
  pending := []

def oneFile : InodeTable := fun gfid => if gfid = 9 then some laminatedFile else none

def mixedCalls : List InodeCall :=
  [.truncate 9 2,.metaset 3 .create (some { newFile with gfid := 3 }) 5,
    .addExtents 9 (fun _ => .first) [],.metaset 9 .create (some newFile) 6,
    .addPendingExtents 9 [fourBytes],.unlink 3,
    .metaset 9 .chmod (some { newFile with mode := 0o600 }) 7,.laminate 9]

theorem laminated_file_is_kept : ∃ tbl ino',
    Run (tableStep true) (fun t c => staysLinked 9 t c = true) oneFile mixedCalls tbl ∧
      tbl 9 = some ino' ∧ ino'.attr.mode = 0o600 ∧ ino'.extents = laminatedFile.extents ∧
      extentMap ino' = extentMap laminatedFile ∧ ino'.attr.size = 4 ∧
      ino'.attr.isLaminated ≠ 0 := by
  have hexec : (exec (tableStep true) (staysLinked 9) oneFile mixedCalls).any (fun tbl =>
      (tbl 9).any fun ino => ino.attr.mode == 0o600) = true := by
    decide +kernel
  obtain ⟨tbl,hrun,hmode⟩ := Run.exists_of_exec hexec
  obtain ⟨ino',htbl,hextents,hmap,hsize,hlam⟩ :=
    laminated_inode_is_kept true (show oneFile 9 = some laminatedFile from rfl) (by decide) hrun
  rw [htbl] at hmode
  exact ⟨tbl,ino',hrun,htbl,eq_of_beq hmode,hextents,hmap,hsize,hlam⟩

end UnifyFS.LaminatedInodes
