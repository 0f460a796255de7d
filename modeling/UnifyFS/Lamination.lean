import UnifyFS.Inode
import UnifyFS.ListUpdates

/-!
# Laminating a file on all servers

Each file has an owner among the servers. A client syncs to its own server, which
adds the extents to its inode and then sends them to the owner. When the owner
laminates the file it takes no more extents, and broadcasts its attributes and the
extents it has; every other server merges these into its own inode and takes no more
extents from then on.

The requests to the owner and the deliveries of the broadcast may arrive in any
order. The lamination of the owner's inode and the start of the broadcast are one
step. What belongs to the broadcast tree, to locks and to replies is left out.
-/
namespace UnifyFS.Lamination
open ListUpdates MachineWords RangeLists RangeTrees ExtentTree InodeModel List Option

def offLimit : ℕ := 2 ^ 63

def InRange (e : Extent) : Prop := e.start ≤ e.stop ∧ e.stop < offLimit

instance (e : Extent) : Decidable (InRange e) := inferInstanceAs (Decidable (_ ∧ _))

structure Cast where
  server : ℕ
  attr : FileAttr
  extents : List Extent
  deriving DecidableEq, Repr

/-- What the servers know about a file; not all need to have an inode for it. -/
structure Cluster where
  owner : Inode
  others : List (Option Inode)
  sent : List (List Extent)
  casts : List Cast
  deriving DecidableEq, Repr

def unifyfsInodeCreate (attr : FileAttr) (now : ℤ) : Inode :=
  ⟨(FileAttr.update .create FileAttr.invalid attr now).2,extentTreeInit,[]⟩

/-- `process_laminate_bcast_rpc`. A broadcast without extents does not get so far: the handler
finds no buffer to read them from. -/
def processLaminateBcast (S : ℕ → Picker LogLoc) (now : ℤ) (m : Cast) (ino : Option Inode) :
    Option (Option Inode) :=
  if m.extents.isEmpty then some ino
  else
    let target := ino.getD (unifyfsInodeCreate { m.attr with isLaminated := 0 } now)
    let attr := if ino.isNone then { m.attr with isLaminated := 1 } else m.attr
    (unifyfsInodeAddExtents S target m.extents).map fun r =>
      some { r.2 with attr := (FileAttr.update .laminate r.2.attr attr now).2 }

inductive ClusterEvent where
  | ownerFsync (es : List Extent) (fits : ∀ e ∈ es, InRange e)
  | ownerProcess (S : ℕ → Picker LogLoc)
  | fsync (server : ℕ) (es : List Extent) (fits : ∀ e ∈ es, InRange e)
  | process (server : ℕ) (S : ℕ → Picker LogLoc)
  | addExtents (k : ℕ) (S : ℕ → Picker LogLoc)
  | laminate
  | cast (k : ℕ) (S : ℕ → Picker LogLoc) (now : ℤ)

def smLaminate (s : Cluster) : Cluster :=
  let owner := { s.owner with attr.isLaminated := 1 }
  { s with
    owner := owner
    casts := if owner.attr.isShared = 0 then s.casts else
      s.casts ++ (List.range s.others.length).map fun r => ⟨r,owner.attr,owner.extents.nodes⟩ }

def processAt (s : Cluster) (r : ℕ) (S : ℕ → Picker LogLoc) (ino : Inode) : Option Cluster :=
  (processPendingSync S ino).map fun (rc,ino') =>
    { s with
      others := s.others.set r (some ino')
      sent := if ino.pending.isEmpty = false ∧ rc = Rc.success then s.sent ++ [ino.pending.flatten]
        else s.sent }

/-- A message that is not there is not delivered. -/
def clusterStep (s : Cluster) : ClusterEvent → Option Cluster
  | .ownerFsync es _ => some { s with owner := (unifyfsInodeAddPendingExtents s.owner es).2 }
  | .ownerProcess S => (processPendingSync S s.owner).map fun r => { s with owner := r.2 }
  | .fsync r es _ =>
    match s.others[r]? with
    | some (some ino) =>
      some { s with others := s.others.set r (some (unifyfsInodeAddPendingExtents ino es).2) }
    | _ => some s
  | .process r S =>
    match s.others[r]? with
    | some (some ino) => processAt s r S ino
    | _ => some s
  | .addExtents k S =>
    match s.sent[k]? with
    | some es => (unifyfsInodeAddExtents S s.owner es).map fun r =>
      { s with owner := r.2, sent := s.sent.eraseIdx k }
    | none => some s
  | .laminate => some (smLaminate s)
  | .cast k S now =>
    match s.casts[k]? with
    | some m =>
      match s.others[m.server]? with
      | some o => (processLaminateBcast S now m o).map fun o' =>
        { s with others := s.others.set m.server o', casts := s.casts.eraseIdx k }
      | none => some s
    | none => some s

structure Healthy (ino : Inode) : Prop where
  ok : ino.Ok
  low : ino.extents.max < offLimit
  size : ino.attr.size.toNat ≤ offLimit
  pending : ∀ es ∈ ino.pending, ∀ e ∈ es, InRange e

/-- The parts of an inode that are fixed once it is laminated. -/
structure Frozen (ino ino' : Inode) : Prop where
  isLaminated : ino'.attr.isLaminated = ino.attr.isLaminated
  gfid : ino'.attr.gfid = ino.attr.gfid
  fixed : ino.attr.isLaminated ≠ 0 → ino'.attr = ino.attr ∧ ino'.extents = ino.extents

section Single
variable {ino : Inode} {es : List Extent} {owner ino' : Inode}

theorem InRange.fits {e : Extent} (h : InRange e) : Fits e := by
  refine ⟨h.1,?_⟩
  have := h.2
  unfold offLimit at this
  unfold wordSize
  omega

theorem addExtents_spec (S : ℕ → Picker LogLoc) (es : List Extent) (h : Healthy ino)
    (hes : ∀ e ∈ es, InRange e) :
    ∃ rc ino', unifyfsInodeAddExtents S ino es = some (rc,ino') ∧ Healthy ino' ∧
      ino'.pending = ino.pending ∧ Frozen ino ino' ∧
      (ino.attr.isLaminated = 0 → Added es ino ino') := by
  by_cases hlam : ino.attr.isLaminated = 0
  · obtain ⟨ino',hadd,hadded⟩ := unifyfsInodeAddExtents_spec S es h.ok hlam fun e he =>
      (hes e he).fits
    have hlow := hadded.bounded offLimit h.low fun e he => (hes e he).2
    refine ⟨_,ino',hadd,⟨hadded.ok,hlow,?_,hadded.pending ▸ h.pending⟩,hadded.pending,?_,
      fun _ => hadded⟩
    · have := hadded.size
      have := h.size
      omega
    · exact ⟨hadded.isLaminated,by rw [hadded.attr],fun hne => absurd hlam hne⟩
  · refine ⟨Rc.einval,ino,?_,h,rfl,⟨rfl,rfl,fun _ => ⟨rfl,rfl⟩⟩,fun hzero => absurd hzero hlam⟩
    rw [unifyfsInodeAddExtents,if_pos hlam]

theorem addPending_spec (h : Healthy ino) (hes : ∀ e ∈ es, InRange e) :
    Healthy (unifyfsInodeAddPendingExtents ino es).2 ∧
      Frozen ino (unifyfsInodeAddPendingExtents ino es).2 := by
  unfold unifyfsInodeAddPendingExtents
  split
  · exact ⟨h,rfl,rfl,fun _ => ⟨rfl,rfl⟩⟩
  · refine ⟨⟨⟨h.ok.sound,h.ok.fits⟩,h.low,h.size,?_⟩,rfl,rfl,fun _ => ⟨rfl,rfl⟩⟩
    intro fs hfs
    cases mem_append.mp hfs with
    | inl hold => exact h.pending fs hold
    | inr hnew =>
      rw [mem_singleton.mp hnew]
      exact hes

theorem processPending_spec (S : ℕ → Picker LogLoc) (h : Healthy ino) :
    ∃ rc ino', processPendingSync S ino = some (rc,ino') ∧ Healthy ino' ∧ Frozen ino ino' := by
  unfold processPendingSync
  split
  · exact ⟨_,ino,rfl,h,rfl,rfl,fun _ => ⟨rfl,rfl⟩⟩
  · have hemptied : Healthy { ino with pending := [] } :=
      ⟨⟨h.ok.sound,h.ok.fits⟩,h.low,h.size,fun _ hes => by cases hes⟩
    obtain ⟨rc,ino',hadd,hhealthy,-,hfrozen,-⟩ := addExtents_spec S ino.pending.flatten hemptied (by
        intro e he
        obtain ⟨es,hes,he⟩ := mem_flatten.mp he
        exact h.pending es hes e he)
    exact ⟨rc,ino',hadd,hhealthy,hfrozen.isLaminated,hfrozen.gfid,hfrozen.fixed⟩

def Agrees (owner ino : Inode) : Prop :=
  extentMap ino = extentMap owner ∧ ino.attr.size = owner.attr.size

theorem size_ne_invalid {size : BitVec 64} (h : size.toNat ≤ offLimit) : size ≠ -1 := by
  rintro rfl
  revert h
  decide

theorem create_healthy {attr : FileAttr} (now : ℤ) (hgfid : attr.gfid ≠ FileAttr.invalidGfid)
    (hsize : attr.size.toNat ≤ offLimit) :
    Healthy (unifyfsInodeCreate { attr with isLaminated := 0 } now) ∧
      (unifyfsInodeCreate { attr with isLaminated := 0 } now).attr.isLaminated = 0 := by
  obtain ⟨-,hcreated,-,hlam⟩ := FileAttr.update_create { attr with isLaminated := 0 } now hgfid
  refine ⟨⟨⟨extentTreeInit_sound,?_⟩,?_,?_,fun _ hes => by cases hes⟩,hlam⟩
  · change 0 + 1 < wordSize
    decide
  · change 0 < offLimit
    decide
  · change (FileAttr.update .create FileAttr.invalid _ now).2.size.toNat ≤ offLimit
    rw [hcreated]
    exact hsize

theorem map_merge (howner : Sound owner.extents) (h : Added owner.extents.nodes ino ino') (b : ℕ) :
    extentMap ino' b = (extentMap owner b).or (extentMap ino b) := by
  rw [h.map]
  exact foldl_overwrite_separate howner.separate (extentMap ino) b

theorem map_merge_eq_iff (howner : Sound owner.extents) (h : Added owner.extents.nodes ino ino') :
    extentMap ino' = extentMap owner ↔
      ∀ b, (extentMap ino b).isSome → (extentMap owner b).isSome := by
  constructor
  · intro heq b hb
    have hmap := map_merge howner h b
    rw [heq] at hmap
    cases howner' : extentMap owner b with
    | some v => rfl
    | none =>
      rw [howner',none_or] at hmap
      rw [← hmap] at hb
      cases hb
  · intro hsub
    funext b
    rw [map_merge howner h b]
    cases howner' : extentMap owner b with
    | some v => rfl
    | none =>
      have := hsub b
      rw [howner'] at this
      simpa using this

theorem Healthy.nodes_inRange (h : Healthy ino) : ∀ e ∈ ino.extents.nodes, InRange e := by
  intro e he
  refine ⟨h.ok.sound.separate.start_le e he,?_⟩
  exact Nat.lt_of_le_of_lt (h.ok.sound.isTop.1 e he) h.low

end Single

/-- A server that is done with the broadcast agrees with the owner. -/
def Settled (owner : Inode) (o : Option Inode) : Prop :=
  ∀ ino, o = some ino → ino.attr.isLaminated ≠ 0 → Agrees owner ino

/-- Every byte that the server has an extent for has one at the owner, too. -/
def Clear (owner : Inode) (o : Option Inode) : Prop :=
  ∀ ino, o = some ino → ino.attr.isLaminated = 0 →
    ∀ b, (extentMap ino b).isSome → (extentMap owner b).isSome

/-- What holds of a server at all times. -/
def Sane (owner : Inode) (o : Option Inode) : Prop :=
  ∀ ino, o = some ino → Healthy ino ∧ (ino.attr.isLaminated ≠ 0 → ino.attr.size = owner.attr.size)

section Broadcast
variable {owner : Inode} {m : Cast} {o : Option Inode} {ino : Inode}

/-- What the merge with the attributes of the owner makes of an inode. -/
theorem merged_spec (S : ℕ → Picker LogLoc) (now : ℤ) (howner : Healthy owner)
    (hgfid : owner.attr.gfid ≠ FileAttr.invalidGfid) (hlam : owner.attr.isLaminated = 1)
    (hino : Healthy ino) :
    ∃ rc ino', unifyfsInodeAddExtents S ino owner.extents.nodes = some (rc,ino') ∧
      Healthy { ino' with attr := (FileAttr.update .laminate ino'.attr owner.attr now).2 } ∧
      (FileAttr.update .laminate ino'.attr owner.attr now).2.size = owner.attr.size ∧
      (FileAttr.update .laminate ino'.attr owner.attr now).2.isLaminated = 1 ∧
      (ino.attr.isLaminated = 0 → (extentMap ino' = extentMap owner ↔
        ∀ b, (extentMap ino b).isSome → (extentMap owner b).isSome)) ∧
      (ino.attr.isLaminated ≠ 0 → extentMap ino' = extentMap ino) := by
  obtain ⟨rc,ino',hadd,hhealthy,-,hfrozen,hadded⟩ := addExtents_spec S owner.extents.nodes hino
    howner.nodes_inRange
  obtain ⟨hsize,hdone⟩ := FileAttr.update_laminate ino'.attr _ now hgfid
    (size_ne_invalid howner.size) hlam
  refine ⟨rc,ino',hadd,?_,hsize,hdone,?_,?_⟩
  · refine ⟨⟨hhealthy.ok.sound,hhealthy.ok.fits⟩,hhealthy.low,?_,hhealthy.pending⟩
    rw [hsize]
    exact howner.size
  · intro hzero
    exact map_merge_eq_iff howner.ok.sound (hadded hzero)
  · intro hne
    unfold extentMap
    rw [(hfrozen.fixed hne).2]

theorem settled_some_iff (hlam : ino.attr.isLaminated ≠ 0)
    (hsize : ino.attr.size = owner.attr.size) :
    Settled owner (some ino) ↔ extentMap ino = extentMap owner := by
  constructor
  · intro h
    exact (h ino rfl hlam).1
  · intro h ino' hino' _
    cases hino'
    exact ⟨h,hsize⟩

theorem settled_of_open (hlam : ino.attr.isLaminated = 0) : Settled owner (some ino) := by
  intro ino' hino' hne
  cases hino'
  exact absurd hlam hne

theorem clear_some_iff (hlam : ino.attr.isLaminated = 0) :
    Clear owner (some ino) ↔ ∀ b, (extentMap ino b).isSome → (extentMap owner b).isSome := by
  constructor
  · intro h
    exact h ino rfl hlam
  · intro h ino' hino' _
    cases hino'
    exact h

theorem bcast_spec (S : ℕ → Picker LogLoc) (now : ℤ) (howner : Healthy owner)
    (hgfid : owner.attr.gfid ≠ FileAttr.invalidGfid) (hlam : owner.attr.isLaminated = 1)
    (hattr : m.attr = owner.attr) (hextents : m.extents = owner.extents.nodes) (ho : Sane owner o) :
    ∃ o', processLaminateBcast S now m o = some o' ∧ Sane owner o' ∧
      (Settled owner o' ↔ Settled owner o ∧ (m.extents ≠ [] → Clear owner o)) := by
  unfold processLaminateBcast
  by_cases hempty : m.extents = []
  · refine ⟨o,?_,ho,?_⟩
    · rw [hempty]
      rfl
    · exact ⟨fun h => ⟨h,fun hne => absurd hempty hne⟩,fun h => h.1⟩
  · rw [if_neg (by simpa using hempty),hextents,hattr]
    rw [hextents] at hempty
    cases o with
    | none =>
      obtain ⟨hcreated,hzero⟩ := create_healthy now hgfid howner.size
      have hdone : { owner.attr with isLaminated := 1 } = owner.attr := by rw [← hlam]
      obtain ⟨rc,ino',hadd,hhealthy,hsize,hone,hopen,-⟩ :=
        merged_spec S now howner hgfid hlam hcreated
      dsimp only [getD_none,isNone_none]
      rw [hdone,hadd,map_some]
      refine ⟨_,rfl,?_,?_⟩
      · intro ino hino
        cases hino
        exact ⟨hhealthy,fun _ => hsize⟩
      · apply iff_of_true
        · refine (settled_some_iff (by simp [hone]) hsize).mpr ((hopen hzero).mpr ?_)
          intro b hb
          cases hb
        · exact ⟨(fun _ h => by cases h),fun _ _ h => by cases h⟩
    | some ino =>
      obtain ⟨hino,hsame⟩ := ho ino rfl
      obtain ⟨rc,ino',hadd,hhealthy,hsize,hone,hopen,hclosed⟩ :=
        merged_spec S now howner hgfid hlam hino
      dsimp only [getD_some,isNone_some]
      rw [hadd,map_some]
      refine ⟨_,rfl,?_,?_⟩
      · intro ino₂ hino₂
        cases hino₂
        exact ⟨hhealthy,fun _ => hsize⟩
      · rw [settled_some_iff (by simp [hone]) hsize]
        change extentMap ino' = extentMap owner ↔ _
        by_cases hzero : ino.attr.isLaminated = 0
        · rw [hopen hzero,clear_some_iff hzero]
          exact ⟨fun h => ⟨settled_of_open hzero,fun _ => h⟩,fun h => h.2 hempty⟩
        · rw [hclosed hzero,settled_some_iff hzero (hsame hzero)]
          refine ⟨fun h => ⟨h,fun _ ino₂ hino₂ hopen₂ => ?_⟩,fun h => h.1⟩
          cases hino₂
          exact absurd hopen₂ hzero

end Broadcast

structure Good (s : Cluster) : Prop where
  owner : Healthy s.owner
  gfid : s.owner.attr.gfid ≠ FileAttr.invalidGfid
  others : ∀ o ∈ s.others, Sane s.owner o
  sent : ∀ es ∈ s.sent, ∀ e ∈ es, InRange e
  casts : ∀ m ∈ s.casts, s.owner.attr.isLaminated = 1 ∧ m.attr = s.owner.attr ∧
    m.extents = s.owner.extents.nodes
  early : s.owner.attr.isLaminated = 0 →
    ∀ o ∈ s.others, ∀ ino, o = some ino → ino.attr.isLaminated = 0

/-- Every server that is done with the broadcast agrees with the owner. -/
def Converged (s : Cluster) : Prop := ∀ o ∈ s.others, Settled s.owner o

/-- When a server takes the broadcast it has no bytes of its own. -/
def Covered (s : Cluster) : ClusterEvent → Prop
  | .cast k _ _ => ∀ m ∈ s.casts[k]?, m.extents ≠ [] → ∀ o ∈ s.others[m.server]?, Clear s.owner o
  | _ => True

section Steps
variable {s : Cluster} {r : ℕ} {ino ino' : Inode}

theorem settled_congr {owner owner' : Inode} (hextents : owner'.extents = owner.extents)
    (hsize : owner'.attr.size = owner.attr.size) (o : Option Inode) :
    Settled owner' o ↔ Settled owner o := by
  unfold Settled Agrees extentMap
  rw [hextents,hsize]

variable (h : Good s)
include h

theorem good_owner (hhealthy : Healthy ino') (hfrozen : Frozen s.owner ino') :
    Good { s with owner := ino' } ∧ (Converged { s with owner := ino' } ↔ Converged s) := by
  by_cases hzero : s.owner.attr.isLaminated = 0
  · have hearly := h.early hzero
    have hopen : ∀ owner : Inode, ∀ o ∈ s.others, Settled owner o := by
      intro owner o ho ino hino hne
      exact absurd (hearly o ho ino hino) hne
    refine ⟨⟨hhealthy,hfrozen.gfid ▸ h.gfid,?_,h.sent,?_,fun _ => hearly⟩,
      iff_of_true (hopen ino') (hopen s.owner)⟩
    · intro o ho ino hino
      exact ⟨(h.others o ho ino hino).1,fun hne => absurd (hearly o ho ino hino) hne⟩
    · intro m hm
      have hone := (h.casts m hm).1
      rw [hzero] at hone
      cases hone
  · obtain ⟨hattr,hextents⟩ := hfrozen.fixed hzero
    refine ⟨⟨hhealthy,hfrozen.gfid ▸ h.gfid,?_,h.sent,?_,?_⟩,?_⟩
    · intro o ho ino hino
      have hsane := h.others o ho ino hino
      exact ⟨hsane.1,fun hne => (hsane.2 hne).trans (by rw [hattr])⟩
    · intro m hm
      rw [hattr,hextents]
      exact h.casts m hm
    · intro hlam
      exact absurd (hfrozen.isLaminated.symm.trans hlam) hzero
    · exact forall₂_congr fun o _ => settled_congr hextents (by rw [hattr]) o

theorem good_other (hino : s.others[r]? = some (some ino)) (hhealthy : Healthy ino')
    (hfrozen : Frozen ino ino') : Good { s with others := s.others.set r (some ino') } ∧
      (Converged { s with others := s.others.set r (some ino') } ↔ Converged s) := by
  have hsane := h.others _ (mem_of_getElem? hino) ino rfl
  refine ⟨⟨h.owner,h.gfid,?_,h.sent,h.casts,?_⟩,?_⟩
  · intro o ho
    cases mem_or_eq_of_mem_set ho with
    | inl hold => exact h.others o hold
    | inr hnew =>
      subst hnew
      intro i hi
      cases hi
      refine ⟨hhealthy,fun hne => ?_⟩
      rw [hfrozen.isLaminated] at hne
      rw [(hfrozen.fixed hne).1]
      exact hsane.2 hne
  · intro hlam o ho i hi
    cases mem_or_eq_of_mem_set ho with
    | inl hold => exact h.early hlam o hold i hi
    | inr hnew =>
      obtain rfl := some.inj (hnew.symm.trans hi)
      rw [hfrozen.isLaminated]
      exact h.early hlam _ (mem_of_getElem? hino) ino rfl
  · have hset := forall_mem_set_iff (P := Settled s.owner) (C := True) hino (by
      by_cases hzero : ino.attr.isLaminated = 0
      · exact iff_of_true (settled_of_open (hfrozen.isLaminated.trans hzero))
          ⟨settled_of_open hzero,trivial⟩
      · obtain ⟨hattr,hextents⟩ := hfrozen.fixed hzero
        rw [settled_some_iff hzero (hsane.2 hzero),
          settled_some_iff (by rw [hattr]; exact hzero) (by rw [hattr]; exact hsane.2 hzero)]
        unfold extentMap
        rw [hextents,and_true])
    rw [and_true] at hset
    exact hset

theorem good_laminate : Good (smLaminate s) ∧ (Converged (smLaminate s) ↔ Converged s) := by
  refine ⟨⟨⟨⟨h.owner.ok.sound,h.owner.ok.fits⟩,h.owner.low,h.owner.size,h.owner.pending⟩,h.gfid,
    h.others,h.sent,?_,fun hlam => by cases hlam⟩,?_⟩
  · have hold : ∀ m ∈ s.casts, m.attr = { s.owner.attr with isLaminated := 1 } ∧
        m.extents = s.owner.extents.nodes := by
      intro m hm
      obtain ⟨hone,hattr,hextents⟩ := h.casts m hm
      exact ⟨by rw [hattr,← hone],hextents⟩
    intro m hm
    refine ⟨rfl,?_⟩
    change m ∈ if _ then s.casts else _ at hm
    split at hm
    · exact hold m hm
    · cases mem_append.mp hm with
      | inl hm => exact hold m hm
      | inr hm =>
        obtain ⟨k,-,rfl⟩ := mem_map.mp hm
        exact ⟨rfl,rfl⟩
  · exact forall₂_congr fun o _ => settled_congr rfl rfl o

theorem good_sent {sent : List (List Extent)} (hsent : ∀ es ∈ sent, ∀ e ∈ es, InRange e) :
    Good { s with sent := sent } :=
  ⟨h.owner,h.gfid,h.others,hsent,h.casts,h.early⟩

theorem good_process {r : ℕ} {ino : Inode} (S : ℕ → Picker LogLoc)
    (hino : s.others[r]? = some (some ino)) :
    ∃ s', processAt s r S ino = some s' ∧ Good s' ∧ (Converged s' ↔ Converged s) := by
  have hsane := h.others _ (mem_of_getElem? hino) ino rfl
  obtain ⟨rc,ino',hproc,hhealthy,hfrozen⟩ := processPending_spec S hsane.1
  obtain ⟨hgood,hconv⟩ := good_other h hino hhealthy hfrozen
  have hsent : ∀ es ∈ (if ino.pending.isEmpty = false ∧ rc = Rc.success then
      s.sent ++ [ino.pending.flatten] else s.sent), ∀ e ∈ es, InRange e := by
    split
    · intro es hes e he
      cases mem_append.mp hes with
      | inl hold => exact h.sent es hold e he
      | inr hnew =>
        rw [mem_singleton.mp hnew] at he
        obtain ⟨fs,hfs,he⟩ := mem_flatten.mp he
        exact hsane.1.pending fs hfs e he
    · exact h.sent
  refine ⟨_,?_,good_sent hgood hsent,hconv⟩
  rw [processAt,hproc]
  rfl

/-- The delivery of a broadcast settles a server if it was clear. -/
theorem good_cast {k : ℕ} {m : Cast} {o : Option Inode} (S : ℕ → Picker LogLoc) (now : ℤ)
    (hm : s.casts[k]? = some m) (ho : s.others[m.server]? = some o) :
    ∃ o', processLaminateBcast S now m o = some o' ∧
      Good { s with others := s.others.set m.server o', casts := s.casts.eraseIdx k } ∧
      (Converged { s with others := s.others.set m.server o', casts := s.casts.eraseIdx k } ↔
        Converged s ∧ (m.extents ≠ [] → Clear s.owner o)) := by
  obtain ⟨hone,hattr,hextents⟩ := h.casts m (mem_of_getElem? hm)
  obtain ⟨o',hcast,hsane,hsettled⟩ := bcast_spec S now h.owner h.gfid hone hattr hextents
    (h.others o (mem_of_getElem? ho))
  refine ⟨o',hcast,⟨h.owner,h.gfid,?_,h.sent,?_,?_⟩,forall_mem_set_iff ho hsettled⟩
  · intro x hx
    cases mem_or_eq_of_mem_set hx with
    | inl hold => exact h.others x hold
    | inr hnew => exact hnew ▸ hsane
  · intro n hn
    exact h.casts n (mem_of_mem_eraseIdx hn)
  · intro hzero
    rw [show s.owner.attr.isLaminated = 1 from hone] at hzero
    cases hzero

theorem clusterStep_cast (k : ℕ) (S : ℕ → Picker LogLoc) (now : ℤ) :
    ∃ s', clusterStep s (.cast k S now) = some s' ∧ Good s' ∧
      (Converged s' ↔ Converged s ∧ Covered s (.cast k S now)) := by
  dsimp only [clusterStep,Covered]
  split
  · next m hm =>
    split
    · next o ho =>
      obtain ⟨o',hcast,hgood,hconv⟩ := good_cast h S now hm ho
      refine ⟨_,by rw [hcast]; rfl,hgood,hconv.trans (and_congr_right fun _ => ?_)⟩
      rw [hm]
      constructor
      · intro hclear m' hm' hne o₂ ho₂
        cases hm'
        rw [ho] at ho₂
        cases ho₂
        exact hclear hne
      · intro hclear hne
        exact hclear m rfl hne o ho
    · next hnone =>
      refine ⟨s,rfl,h,(and_iff_left ?_).symm⟩
      intro m' hm' hne o ho
      rw [hm] at hm'
      cases hm'
      rw [hnone] at ho
      cases ho
  · next hnone =>
    refine ⟨s,rfl,h,(and_iff_left ?_).symm⟩
    intro m' hm'
    rw [hnone] at hm'
    cases hm'

theorem clusterStep_spec (ev : ClusterEvent) :
    ∃ s', clusterStep s ev = some s' ∧ Good s' ∧ (Converged s' ↔ Converged s ∧ Covered s ev) := by
  cases ev with
  | ownerFsync es fits =>
    obtain ⟨hhealthy,hfrozen⟩ := addPending_spec h.owner fits
    obtain ⟨hgood,hconv⟩ := good_owner h hhealthy hfrozen
    exact ⟨_,rfl,hgood,hconv.trans (and_iff_left trivial).symm⟩
  | ownerProcess S =>
    obtain ⟨rc,ino',hproc,hhealthy,hfrozen⟩ := processPending_spec S h.owner
    obtain ⟨hgood,hconv⟩ := good_owner h hhealthy hfrozen
    refine ⟨{ s with owner := ino' },?_,hgood,hconv.trans (and_iff_left trivial).symm⟩
    rw [clusterStep,hproc]
    rfl
  | fsync r es fits =>
    dsimp only [clusterStep]
    split
    · next ino hino =>
      have hsane := h.others _ (mem_of_getElem? hino) ino rfl
      obtain ⟨hhealthy,hfrozen⟩ := addPending_spec hsane.1 fits
      obtain ⟨hgood,hconv⟩ := good_other h hino hhealthy hfrozen
      exact ⟨_,rfl,hgood,hconv.trans (and_iff_left trivial).symm⟩
    · exact ⟨s,rfl,h,(and_iff_left trivial).symm⟩
  | process r S =>
    dsimp only [clusterStep]
    split
    · next ino hino =>
      obtain ⟨s',hproc,hgood,hconv⟩ := good_process h S hino
      exact ⟨s',hproc,hgood,hconv.trans (and_iff_left trivial).symm⟩
    · exact ⟨s,rfl,h,(and_iff_left trivial).symm⟩
  | addExtents k S =>
    dsimp only [clusterStep]
    split
    · next es hes =>
      obtain ⟨rc,ino',hadd,hhealthy,-,hfrozen,-⟩ := addExtents_spec S es h.owner
        (h.sent es (mem_of_getElem? hes))
      obtain ⟨hgood,hconv⟩ := good_owner h hhealthy hfrozen
      refine ⟨{ s with owner := ino', sent := s.sent.eraseIdx k },?_,good_sent hgood ?_,
        hconv.trans (and_iff_left trivial).symm⟩
      · rw [hadd]
        rfl
      · intro es hes
        exact h.sent es (mem_of_mem_eraseIdx hes)
    · exact ⟨s,rfl,h,(and_iff_left trivial).symm⟩
  | laminate =>
    obtain ⟨hgood,hconv⟩ := good_laminate h
    exact ⟨_,rfl,hgood,hconv.trans (and_iff_left trivial).symm⟩
  | cast k S now => exact clusterStep_cast h k S now

end Steps

/-- Every step of the run meets the condition in the state that it starts from. -/
def Met : Cluster → List ClusterEvent → Prop
  | _, [] => True
  | s, ev :: events => Covered s ev ∧ ∀ s', clusterStep s ev = some s' → Met s' events

variable {s : Cluster}

theorem foldlM_clusterStep_spec (h : Good s) (events : List ClusterEvent) :
    ∃ s', events.foldlM clusterStep s = some s' ∧ Good s' ∧
      (Converged s' ↔ Converged s ∧ Met s events) := by
  induction events generalizing s with
  | nil => exact ⟨s,rfl,h,(and_iff_left trivial).symm⟩
  | cons ev events ih =>
    obtain ⟨t,ht,hgood,hconv⟩ := clusterStep_spec h ev
    obtain ⟨u,hu,hgood',hconv'⟩ := ih hgood
    refine ⟨u,?_,hgood',?_⟩
    · rw [foldlM_cons,ht]
      exact hu
    · rw [hconv',hconv,and_assoc]
      apply and_congr_right
      intro _
      apply and_congr_right
      intro _
      constructor
      · intro hmet t' ht'
        rw [ht] at ht'
        cases ht'
        exact hmet
      · exact fun hmet => hmet t ht

/-- The broadcast was applied at every server and no message is on its way. -/
def Quiescent (s : Cluster) : Prop :=
  s.sent = [] ∧ s.casts = [] ∧ ∀ o ∈ s.others, ∃ ino, o = some ino ∧ ino.attr.isLaminated ≠ 0

/-- Every run succeeds. When it has come to rest, all servers agree with the owner if and only if
each of them was covered by the owner when it took the broadcast. -/
theorem laminate_converges_iff (s₀ : Cluster) (h₀ : Good s₀)
    (hopen : s₀.owner.attr.isLaminated = 0) (events : List ClusterEvent) :
    ∃ s, events.foldlM clusterStep s₀ = some s ∧ (Quiescent s →
      ((∀ o ∈ s.others, ∃ ino, o = some ino ∧ Agrees s.owner ino) ↔ Met s₀ events)) := by
  obtain ⟨s,hs,-,hconv⟩ := foldlM_clusterStep_spec h₀ events
  refine ⟨s,hs,?_⟩
  intro hquiet
  have hstart : Converged s₀ := by
    intro o ho ino hino hne
    exact absurd (h₀.early hopen o ho ino hino) hne
  rw [and_iff_right hstart] at hconv
  rw [← hconv]
  constructor
  · intro hall o ho ino hino _
    obtain ⟨ino',hino',hagrees⟩ := hall o ho
    rw [hino'] at hino
    cases hino
    exact hagrees
  · intro hall o ho
    obtain ⟨ino,hino,hlam⟩ := hquiet.2.2 o ho
    exact ⟨ino,hino,hall o ho ino hino hlam⟩

def emptyFile : Inode :=
  ⟨{ FileAttr.invalid with gfid := 7, isLaminated := 0, isShared := 1, size := 0 },
    extentTreeInit,[]⟩

def twoServers : Cluster := ⟨emptyFile,[some emptyFile],[],[]⟩

theorem twoServers_good : Good twoServers := by
  have hhealthy : Healthy emptyFile :=
    ⟨⟨extentTreeInit_sound,by decide⟩,by decide,by decide,fun _ hes => by cases hes⟩
  refine ⟨hhealthy,by decide,?_,(fun _ hes => by cases hes),(fun _ hm => by cases hm),?_⟩
  · intro o ho ino hino
    obtain rfl := mem_singleton.mp ho
    cases hino
    exact ⟨hhealthy,fun hne => absurd rfl hne⟩
  · intro _ o ho ino hino
    obtain rfl := mem_singleton.mp ho
    cases hino
    rfl

def rests (s : Cluster) : Bool :=
  s.sent.isEmpty && s.casts.isEmpty &&
    s.others.all fun o => o.any fun ino => ino.attr.isLaminated != 0

theorem quiescent_of_rests (h : rests s = true) : Quiescent s := by
  simp only [rests,Bool.and_eq_true,List.isEmpty_iff,List.all_eq_true] at h
  refine ⟨h.1.1,h.1.2,?_⟩
  intro o ho
  have hany := h.2 o ho
  cases o with
  | none => cases hany
  | some ino => exact ⟨ino,rfl,by simpa using hany⟩

def firstBlock : Extent := ⟨0,9,⟨0,1,1,1⟩⟩

def thirdBlock : Extent := ⟨20,29,⟨10,1,1,1⟩⟩

def syncBefore : List ClusterEvent :=
  [.fsync 0 [firstBlock] (by decide),.process 0 fun _ => .first,.addExtents 0 fun _ => .first,
    .laminate,.cast 0 (fun _ => .first) 1]

theorem laminate_converges_iff_before :
    ∃ s, syncBefore.foldlM clusterStep twoServers = some s ∧ Quiescent s ∧
      ((∀ o ∈ s.others, ∃ ino, o = some ino ∧ Agrees s.owner ino) ↔ Met twoServers syncBefore) := by
  obtain ⟨s,hs,hiff⟩ := laminate_converges_iff twoServers twoServers_good rfl syncBefore
  have hrests : (syncBefore.foldlM clusterStep twoServers).any rests = true := by decide +kernel
  rw [hs] at hrests
  exact ⟨s,hs,quiescent_of_rests hrests,hiff (quiescent_of_rests hrests)⟩

/-- A sync is processed between the lamination and the delivery of the broadcast. -/
def syncBetween : List ClusterEvent :=
  [.ownerFsync [firstBlock] (by decide),.ownerProcess fun _ => .first,.laminate,
    .fsync 0 [thirdBlock] (by decide),.process 0 fun _ => .first,.addExtents 0 fun _ => .first,
    .cast 0 (fun _ => .first) 1]

/-- The owner has turned the extent down, the other server keeps it. -/
theorem laminate_keeps_rejected_extent :
    ∃ s, syncBetween.foldlM clusterStep twoServers = some s ∧ Quiescent s ∧
      ¬ ∀ o ∈ s.others, ∃ ino, o = some ino ∧ Agrees s.owner ino := by
  have hcheck : (syncBetween.foldlM clusterStep twoServers).any (fun s => rests s &&
      s.others.any fun o => o.any fun ino =>
        (extentMap ino 20).isSome && (extentMap s.owner 20).isNone) = true := by
    decide +kernel
  cases hs : syncBetween.foldlM clusterStep twoServers with
  | none =>
    rw [hs] at hcheck
    cases hcheck
  | some s =>
    rw [hs,any_some,Bool.and_eq_true,List.any_eq_true] at hcheck
    obtain ⟨hrests,o,ho,hbyte⟩ := hcheck
    refine ⟨s,rfl,quiescent_of_rests hrests,?_⟩
    intro hall
    obtain ⟨ino,rfl,hmap,-⟩ := hall o ho
    rw [any_some,hmap,Bool.and_eq_true] at hbyte
    cases hb : extentMap s.owner 20 with
    | none =>
      rw [hb] at hbyte
      cases hbyte.1
    | some v =>
      rw [hb] at hbyte
      cases hbyte.2

end UnifyFS.Lamination
