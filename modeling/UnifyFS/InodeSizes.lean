import UnifyFS.GuardedRuns
import UnifyFS.Lamination

/-!
# The size of an inode

`unifyfs_inode_truncate` sets the size, and `unifyfs_inode_add_extents` raises it to one
past the greatest offset of the extent tree. A tree without extents has the greatest
offset 0, like a tree with an extent of one byte at the beginning of the file. If no
extents are added to an inode without any, the size is therefore raised to one.
-/
namespace UnifyFS.InodeSizes
open GuardedRuns MachineWords RangeLists RangeTrees ExtentTree InodeModel Lamination List Option

/-- `unifyfs_inode_truncate`. There is no result when a debug message of the tree reads through
a null pointer. -/
def unifyfsInodeTruncate (debug : Bool) (ino : Inode) (size : BitVec 64) : Option (Rc × Inode) :=
  if ino.attr.isLaminated ≠ 0 then some (Rc.einval,ino)
  else
    (extentTreeTruncate debug ino.extents size.toNat).map fun t =>
      (Rc.success,{ ino with attr.size := size, extents := t })

inductive SizeCall where
  | truncate (size : BitVec 64)
  | addExtents (S : ℕ → Picker LogLoc) (es : List Extent)
      (words : ∀ e ∈ es, e.start ≤ e.stop ∧ e.stop < wordSize)

def sizeStep (debug : Bool) (ino : Inode) : SizeCall → Option Inode
  | .truncate size => (unifyfsInodeTruncate debug ino size).map Prod.snd
  | .addExtents S es _ => (unifyfsInodeAddExtents S ino es).map Prod.snd

def batchEnd : List Extent → ℕ
  | [] => 0
  | e :: es => max (e.stop + 1) (batchEnd es)

def sizeAfter (size : ℕ) : SizeCall → ℕ
  | .truncate new => new.toNat
  | .addExtents _ es _ => max size (batchEnd es)

/-- The extents do not end at the last offset there is, and if there are none the file is
not empty. -/
def keepsSize (ino : Inode) : SizeCall → Prop
  | .truncate _ => True
  | .addExtents _ es _ =>
    (∀ e ∈ es, e.stop + 1 < wordSize) ∧ (es = [] → ino.attr.size ≠ 0)

theorem batchEnd_lt_iff {es : List Extent} {n : ℕ} (hn : 0 < n) :
    batchEnd es < n ↔ ∀ e ∈ es, e.stop + 1 < n := by
  induction es with
  | nil => simpa [batchEnd] using hn
  | cons e es ih =>
    rw [batchEnd,forall_mem_cons,← ih]
    omega

theorem addAll_max (S : ℕ → Picker LogLoc) (k : ℕ) {t : RangeTree LogLoc} {es : List Extent}
    (ht : Sound t) (hes : ∀ e ∈ es, e.start ≤ e.stop) :
    ∃ u, addAll S k es t = some u ∧ Sound u ∧ u.max + 1 = max (t.max + 1) (batchEnd es) := by
  induction es generalizing t k with
  | nil => exact ⟨t,rfl,ht,by simp [batchEnd]⟩
  | cons e es ih =>
    obtain ⟨he,hes⟩ := forall_mem_cons.mp hes
    obtain ⟨v,hv,hsound,hmax,-⟩ := extentTreeAdd_spec (S k) ht he
    obtain ⟨u,hu,husound,humax⟩ := ih (k + 1) hsound hes
    refine ⟨u,?_,husound,?_⟩
    · rw [addAll,hv]
      exact hu
    · rw [humax,batchEnd]
      omega

/-- The tree does not reach beyond the size that the calls so far give. -/
structure Bounded (size : ℕ) (ino : Inode) : Prop where
  sound : Sound ino.extents
  unlaminated : ino.attr.isLaminated = 0
  below : ino.extents.nodes ≠ [] → ino.extents.max + 1 ≤ size

section Steps
variable {debug : Bool} {ino ino' : Inode} {c : SizeCall} {size : ℕ}

theorem max_eq_zero {t : RangeTree LogLoc} (ht : Sound t) (hnil : t.nodes = []) : t.max = 0 := by
  rcases ht.isTop.2 with hzero | ⟨n,hn,-⟩
  · exact hzero.2
  · rw [hnil] at hn
    cases hn

theorem truncate_eq (hopen : ino.attr.isLaminated = 0) {new : BitVec 64}
    (h : sizeStep debug ino (.truncate new) = some ino') :
    ∃ t, extentTreeTruncate debug ino.extents new.toNat = some t ∧
      ino' = { ino with attr.size := new, extents := t } := by
  obtain ⟨⟨rc,ino₁⟩,hcall,rfl⟩ := map_eq_some_iff.mp h
  rw [unifyfsInodeTruncate,if_neg (not_not.mpr hopen)] at hcall
  obtain ⟨t,ht,hout⟩ := map_eq_some_iff.mp hcall
  cases hout
  exact ⟨t,ht,rfl⟩

theorem addExtents_eq (hopen : ino.attr.isLaminated = 0) {S : ℕ → Picker LogLoc} {es : List Extent}
    {words : ∀ e ∈ es, e.start ≤ e.stop ∧ e.stop < wordSize}
    (h : sizeStep debug ino (.addExtents S es words) = some ino') :
    ∃ t, addAll S 0 es ino.extents = some t ∧ ino' = { ino with
      extents := t
      attr := raiseSize ino.attr (BitVec.ofNat 64 (t.max + 1)) } := by
  obtain ⟨⟨rc,ino₁⟩,hcall,rfl⟩ := map_eq_some_iff.mp h
  rw [unifyfsInodeAddExtents,if_neg (not_not.mpr hopen)] at hcall
  obtain ⟨t,ht,hout⟩ := map_eq_some_iff.mp hcall
  cases hout
  exact ⟨t,ht,rfl⟩

theorem Bounded.step (h : Bounded size ino) (hstep : sizeStep debug ino c = some ino') :
    Bounded (sizeAfter size c) ino' := by
  cases c with
  | truncate new =>
    obtain ⟨t,ht,rfl⟩ := truncate_eq h.unlaminated hstep
    obtain ⟨hsound,hmap⟩ := extentTreeTruncate_spec h.sound ht
    refine ⟨hsound,h.unlaminated,fun hne => ?_⟩
    -- the greatest offset is that of a byte which the truncation has left
    rcases hsound.isTop.2 with ⟨hnil,-⟩ | ⟨n,hn,htop⟩
    · exact absurd hnil hne
    · have hheld : contents LogLoc.val t.nodes n.stop = some (n.value LogLoc.val n.stop) :=
        hsound.separate.contents_of_mem hn ⟨hsound.separate.start_le n hn,le_rfl⟩
      rw [hmap] at hheld
      split_ifs at hheld with hlt
      change t.max + 1 ≤ new.toNat
      omega
  | addExtents S es words =>
    obtain ⟨t,ht,rfl⟩ := addExtents_eq h.unlaminated hstep
    obtain ⟨u,hu,hsound,hmax⟩ := addAll_max S 0 h.sound fun e he => (words e he).1
    obtain rfl := some.inj (ht.symm.trans hu)
    refine ⟨hsound,?_,fun hne => ?_⟩
    · rw [← h.unlaminated]
      rw [raiseSize_eq]
    · change t.max + 1 ≤ max size (batchEnd es)
      by_cases hnil : ino.extents.nodes = []
      · have hzero := max_eq_zero h.sound hnil
        cases es with
        | nil =>
          cases ht
          exact absurd hnil hne
        | cons e es =>
          have hpos : 1 ≤ batchEnd (e :: es) := by
            rw [batchEnd]
            omega
          omega
      · have hbelow := h.below hnil
        omega

theorem raised_iff {attr : FileAttr} {es : List Extent} {m new : ℕ}
    (htop : m + 1 = 1 ∨ m + 1 ≤ attr.size.toNat) (hnew : new + 1 = max (m + 1) (batchEnd es)) :
    (raiseSize attr (BitVec.ofNat 64 (new + 1))).size.toNat = max attr.size.toNat (batchEnd es) ↔
      (∀ e ∈ es, e.stop + 1 < wordSize) ∧ (es = [] → attr.size ≠ 0) := by
  have hzero : attr.size = 0 ↔ attr.size.toNat = 0 := by
    rw [← BitVec.toNat_inj]
    rfl
  by_cases hall : ∀ e ∈ es, e.stop + 1 < wordSize
  · have hend : batchEnd es < 2 ^ 64 := (batchEnd_lt_iff (by decide)).mpr hall
    have hmod : (new + 1) % 2 ^ 64 = new + 1 := Nat.mod_eq_of_lt (by omega)
    rw [toNat_raiseSize,BitVec.toNat_ofNat,hnew,Ne,hzero]
    cases es with
    | nil =>
      have hnone : batchEnd [] = 0 := rfl
      constructor
      · intro hsame
        exact ⟨hall,fun _ => by omega⟩
      · intro hkeeps
        have hsize := hkeeps.2 rfl
        omega
    | cons e es =>
      have hpos : 1 ≤ batchEnd (e :: es) := by
        rw [batchEnd]
        omega
      refine iff_of_true (by omega) ⟨hall,fun h => by cases h⟩
  · -- a size of `2 ^ 64` is no size of an inode
    refine iff_of_false (fun hsame => hall ?_) fun h => hall h.1
    apply (batchEnd_lt_iff (show 0 < wordSize by decide)).mp
    have hlt := (raiseSize attr (BitVec.ofNat 64 (new + 1))).size.isLt
    rw [hsame] at hlt
    exact lt_of_le_of_lt (le_max_right _ _) hlt

theorem size_step_iff (h : Bounded ino.attr.size.toNat ino)
    (hstep : sizeStep debug ino c = some ino') :
    ino'.attr.size.toNat = sizeAfter ino.attr.size.toNat c ↔ keepsSize ino c := by
  cases c with
  | truncate new =>
    obtain ⟨t,-,rfl⟩ := truncate_eq h.unlaminated hstep
    exact iff_of_true rfl trivial
  | addExtents S es words =>
    obtain ⟨t,ht,rfl⟩ := addExtents_eq h.unlaminated hstep
    obtain ⟨u,hu,-,hmax⟩ := addAll_max S 0 h.sound fun e he => (words e he).1
    obtain rfl := some.inj (ht.symm.trans hu)
    have htop : ino.extents.max + 1 = 1 ∨ ino.extents.max + 1 ≤ ino.attr.size.toNat := by
      by_cases hnil : ino.extents.nodes = []
      · exact .inl (by rw [max_eq_zero h.sound hnil])
      · exact .inr (h.below hnil)
    exact raised_iff htop hmax

theorem Bounded.exists_step (h : Bounded size ino) (c : SizeCall) :
    ∃ ino', sizeStep false ino c = some ino' := by
  cases c with
  | truncate new =>
    have hsome : extentTreeTruncate false ino.extents new.toNat ≠ none := by
      rw [Ne,extentTreeTruncate_eq_none_iff h.sound]
      exact fun hnone => absurd hnone.1 (by decide)
    obtain ⟨t,ht⟩ := ne_none_iff_exists'.mp hsome
    refine ⟨{ ino with attr.size := new, extents := t },?_⟩
    rw [sizeStep,unifyfsInodeTruncate,if_neg (not_not.mpr h.unlaminated),ht]
    rfl
  | addExtents S es words =>
    obtain ⟨u,hu,-⟩ := addAll_max S 0 h.sound fun e he => (words e he).1
    rw [sizeStep,unifyfsInodeAddExtents,if_neg (not_not.mpr h.unlaminated),hu]
    exact ⟨_,rfl⟩

end Steps

/-- For an inode created with size 0 and not laminated, the size is all along the one that the
calls give, exactly if no call adds an empty batch at size 0 or an extent up to the last
offset there is. -/
theorem inode_size_iff (debug : Bool) {attr : FileAttr} {now : ℤ}
    (hsize : (unifyfsInodeCreate attr now).attr.size = 0)
    (hopen : (unifyfsInodeCreate attr now).attr.isLaminated = 0) (calls : List SizeCall) :
    (debug = false →
      ∃ ino, Run (sizeStep debug) (fun _ _ => True) (unifyfsInodeCreate attr now) calls ino) ∧
    ∀ ino, Run (sizeStep debug) (fun _ _ => True) (unifyfsInodeCreate attr now) calls ino →
      ((∀ pre t, pre <+: calls →
          Run (sizeStep debug) (fun _ _ => True) (unifyfsInodeCreate attr now) pre t →
          t.attr.size.toNat = pre.foldl sizeAfter 0) ↔
        Run (sizeStep debug) keepsSize (unifyfsInodeCreate attr now) calls ino) := by
  have hstart : Bounded 0 (unifyfsInodeCreate attr now) :=
    ⟨extentTreeInit_sound,hopen,fun hne => absurd rfl hne⟩
  constructor
  · rintro rfl
    have hstep : ∀ pre c t, c ∈ calls → Bounded (pre.foldl sizeAfter 0) t →
        ∃ v, sizeStep false t c = some v ∧ Bounded ((pre ++ [c]).foldl sizeAfter 0) v := by
      intro pre c t _ ht
      obtain ⟨v,hv⟩ := ht.exists_step c
      refine ⟨v,hv,?_⟩
      rw [foldl_append]
      exact ht.step hv
    obtain ⟨ino,hino,-⟩ := exists_foldlM hstep hstart
    exact ⟨ino,.of_foldlM hino⟩
  · intro ino h
    apply h.always_iff_guard keepsSize (I := fun pre t => Bounded (pre.foldl sizeAfter 0) t)
    · intro pre c t v ht hstep
      rw [foldl_append]
      exact ht.step hstep
    · intro pre c t v ht hsame hstep
      rw [foldl_append]
      rw [← hsame] at ht ⊢
      exact size_step_iff ht hstep
    · exact hstart
    · rw [hsize]
      rfl

def newFile : FileAttr := { FileAttr.zero with gfid := 9 }

def fourBytes : Extent := ⟨0,3,⟨0,0,0,1⟩⟩

def noExtents : SizeCall := .addExtents (fun _ => .first) [] (by simp)

def firstFour : SizeCall := .addExtents (fun _ => .first) [fourBytes] (by decide)

/-- Four bytes, a truncation to two and an empty batch. -/
theorem inode_size_after_truncation : ∃ ino,
    Run (sizeStep true) (fun _ _ => True) (unifyfsInodeCreate newFile 0)
      [firstFour,.truncate 2,noExtents] ino ∧ ino.attr.size = 2 ∧
    ((∀ pre t, pre <+: [firstFour,.truncate 2,noExtents] →
        Run (sizeStep true) (fun _ _ => True) (unifyfsInodeCreate newFile 0) pre t →
        t.attr.size.toNat = pre.foldl sizeAfter 0) ↔
      Run (sizeStep true) keepsSize (unifyfsInodeCreate newFile 0)
        [firstFour,.truncate 2,noExtents] ino) := by
  have hexec : (exec (sizeStep true) (fun _ _ => true) (unifyfsInodeCreate newFile 0)
      [firstFour,.truncate 2,noExtents]).any (fun ino => ino.attr.size == 2) = true := by
    decide +kernel
  obtain ⟨ino,hrun,hsize⟩ := Run.exists_of_exec hexec
  have hrun' := hrun.weaken fun _ _ _ => trivial
  exact ⟨ino,hrun',eq_of_beq hsize,(inode_size_iff true (by decide) (by decide) _).2 ino hrun'⟩

/-- An empty batch makes an empty file one byte long. -/
theorem empty_batch_raises_size :
    ((sizeStep false (unifyfsInodeCreate newFile 0) noExtents).map fun ino => ino.attr.size) =
        some 1 ∧
      [noExtents].foldl sizeAfter 0 = 0 := by
  refine ⟨by decide +kernel,rfl⟩

end UnifyFS.InodeSizes
