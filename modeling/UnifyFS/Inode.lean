import UnifyFS.ExtentTree
import UnifyFS.FileAttr
import UnifyFS.MachineWords

/-!
# Inodes of a server

What a server knows about one file: its attributes, its extents, and the extents of
client syncs that have not been processed yet. The extents of a call are added one
after another; then the size is raised to the end of the tree.
-/
namespace UnifyFS.InodeModel
open MachineWords RangeLists RangeTrees ExtentTree List

structure Inode where
  attr : FileAttr
  extents : RangeTree LogLoc
  pending : List (List Extent)
  deriving DecidableEq, Repr

/-- The loop of `unifyfs_inode_add_extents`; each search in the tree is one of its own. -/
def addAll (S : ℕ → Picker LogLoc) : ℕ → List Extent → RangeTree LogLoc → Option (RangeTree LogLoc)
  | _, [], t => some t
  | k, e :: es, t => (extentTreeAdd (S k) t e).bind (addAll S (k + 1) es)

def raiseSize (attr : FileAttr) (extentSz : BitVec 64) : FileAttr :=
  if attr.size < extentSz then { attr with size := extentSz } else attr

def unifyfsInodeAddExtents (S : ℕ → Picker LogLoc) (ino : Inode) (es : List Extent) :
    Option (Rc × Inode) :=
  if ino.attr.isLaminated ≠ 0 then some (Rc.einval,ino)
  else
    (addAll S 0 es ino.extents).map fun t =>
      (Rc.success,{ ino with
        extents := t
        attr := raiseSize ino.attr (BitVec.ofNat 64 (t.max + 1)) })

def unifyfsInodeAddPendingExtents (ino : Inode) (es : List Extent) : Rc × Inode :=
  if ino.attr.isLaminated ≠ 0 then (Rc.einval,ino)
  else (Rc.success,{ ino with pending := ino.pending ++ [es] })

/-- The part of `process_pending_sync` that works on the local inode: all syncs that are
pending are applied as one list. -/
def processPendingSync (S : ℕ → Picker LogLoc) (ino : Inode) : Option (Rc × Inode) :=
  if ino.pending.isEmpty then some (Rc.success,ino)
  else unifyfsInodeAddExtents S { ino with pending := [] } ino.pending.flatten

def overwriteExtent (f : ℕ → Option LogLoc) (e : Extent) (b : ℕ) : Option LogLoc :=
  if e.Holds b then some (e.value LogLoc.val b) else f b

theorem overwriteExtent_apply (f : ℕ → Option LogLoc) (e : Extent) (b : ℕ) :
    overwriteExtent f e b = if e.Holds b then some (e.value LogLoc.val b) else f b := rfl

/-- Ranges that do not overlap overwrite a map where they hold, in whatever order. -/
theorem foldl_overwrite_separate {l : List Extent} (hl : Separate l) (f : ℕ → Option LogLoc)
    (b : ℕ) : l.foldl overwriteExtent f b = (contents LogLoc.val l b).or (f b) := by
  induction l generalizing f with
  | nil => rfl
  | cons n l ih =>
    rw [foldl_cons,ih hl.tail,contents_cons]
    by_cases hb : n.Holds b
    · rw [hl.contents_tail_eq_none hb,if_pos hb]
      exact if_pos hb
    · rw [if_neg hb]
      exact congrArg (Option.or _) (if_neg hb)

def extentMap (ino : Inode) : ℕ → Option LogLoc := contents LogLoc.val ino.extents.nodes

/-- The extent may be added and its end counted as a size. -/
def Fits (e : Extent) : Prop := e.start ≤ e.stop ∧ e.stop + 1 < wordSize

structure Inode.Ok (ino : Inode) : Prop where
  sound : Sound ino.extents
  fits : ino.extents.max + 1 < wordSize

section Add
variable {t : RangeTree LogLoc} {es : List Extent} {ino : Inode}

theorem addAll_spec (S : ℕ → Picker LogLoc) (k : ℕ) (ht : Sound t)
    (hfits : t.max + 1 < wordSize) (hes : ∀ e ∈ es, Fits e) :
    ∃ u, addAll S k es t = some u ∧ Sound u ∧ u.max + 1 < wordSize ∧ t.max ≤ u.max ∧
      (∀ c, t.max < c → (∀ e ∈ es, e.stop < c) → u.max < c) ∧
      contents LogLoc.val u.nodes = es.foldl overwriteExtent (contents LogLoc.val t.nodes) := by
  induction es generalizing t k with
  | nil => exact ⟨t,rfl,ht,hfits,Nat.le_refl _,fun _ h _ => h,rfl⟩
  | cons e es ih =>
    obtain ⟨hle,hstop⟩ := hes e mem_cons_self
    obtain ⟨v,hv,hsound,hmax,hmap⟩ := extentTreeAdd_spec (S k) ht hle
    have hvfits : v.max + 1 < wordSize := by
      omega
    obtain ⟨u,hu,husound,hufits,hgrow,hbound,humap⟩ :=
      ih (k + 1) hsound hvfits fun e he => hes e (mem_cons_of_mem _ he)
    refine ⟨u,?_,husound,hufits,?_,?_,?_⟩
    · rw [addAll,hv]
      exact hu
    · omega
    · intro c hc hstops
      have hstop := hstops e mem_cons_self
      exact hbound c (by omega) fun e he => hstops e (mem_cons_of_mem _ he)
    · rw [humap,foldl_cons]
      congr 1
      exact funext hmap

theorem toNat_raiseSize (attr : FileAttr) (n : BitVec 64) :
    (raiseSize attr n).size.toNat = max attr.size.toNat n.toNat := by
  unfold raiseSize
  split
  · next h =>
    rw [BitVec.lt_def] at h
    change n.toNat = _
    omega
  · next h =>
    rw [BitVec.lt_def] at h
    omega

theorem raiseSize_eq (attr : FileAttr) (n : BitVec 64) :
    raiseSize attr n = { attr with size := (raiseSize attr n).size } := by
  unfold raiseSize
  split
  · rfl
  · rfl

structure Added (es : List Extent) (ino ino' : Inode) : Prop where
  ok : ino'.Ok
  attr : ino'.attr = { ino.attr with size := ino'.attr.size }
  pending : ino'.pending = ino.pending
  grows : ino.extents.max ≤ ino'.extents.max
  bounded : ∀ c, ino.extents.max < c → (∀ e ∈ es, e.stop < c) → ino'.extents.max < c
  map : extentMap ino' = es.foldl overwriteExtent (extentMap ino)
  size : ino'.attr.size.toNat = max ino.attr.size.toNat (ino'.extents.max + 1)

theorem Added.isLaminated {ino' : Inode} (h : Added es ino ino') :
    ino'.attr.isLaminated = ino.attr.isLaminated := by rw [h.attr]

theorem unifyfsInodeAddExtents_spec (S : ℕ → Picker LogLoc) (es : List Extent) (hino : ino.Ok)
    (hlam : ino.attr.isLaminated = 0) (hes : ∀ e ∈ es, Fits e) :
    ∃ ino', unifyfsInodeAddExtents S ino es = some (Rc.success,ino') ∧ Added es ino ino' := by
  obtain ⟨u,hu,hsound,hfits,hgrow,hbound,hmap⟩ := addAll_spec S 0 hino.sound hino.fits hes
  unfold unifyfsInodeAddExtents
  rw [if_neg (not_not.mpr hlam),hu]
  refine ⟨_,rfl,⟨hsound,hfits⟩,raiseSize_eq _ _,rfl,hgrow,hbound,hmap,?_⟩
  rw [toNat_raiseSize]
  exact congrArg (max _) (Nat.mod_eq_of_lt hfits)

theorem Added.size_trans {ino₀ ino' : Inode} (h : Added es ino ino')
    (hsize : ino.attr.size = ino₀.attr.size ∨
      ino.attr.size.toNat = max ino₀.attr.size.toNat (ino.extents.max + 1)) :
    ino'.attr.size.toNat = max ino₀.attr.size.toNat (ino'.extents.max + 1) := by
  rw [h.size]
  cases hsize with
  | inl hsame => rw [hsame]
  | inr hmax =>
    have := h.grows
    omega

theorem Added.trans {ino₁ ino₂ : Inode} {es' : List Extent} (h : Added es ino ino₁)
    (h' : Added es' ino₁ ino₂) : Added (es ++ es') ino ino₂ where
  ok := h'.ok
  attr := by rw [h'.attr,h.attr]
  pending := h'.pending.trans h.pending
  grows := Nat.le_trans h.grows h'.grows
  bounded := fun c hc hes => h'.bounded c
    (h.bounded c hc fun e he => hes e (List.mem_append_left _ he))
    fun e he => hes e (List.mem_append_right _ he)
  map := by rw [List.foldl_append,← h.map,h'.map]
  size := h'.size_trans (.inr h.size)

end Add
end UnifyFS.InodeModel
