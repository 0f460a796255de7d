import UnifyFS.GuardedRuns
import UnifyFS.RangeTrees
import UnifyFS.SegTree

/-!
# Changes to a segment tree

A client records its writes to a file in segment trees: `seg_tree_add` overwrites
a range of the file with a place in the write log, `seg_tree_remove` takes a range
out, `seg_tree_clear` takes everything out. The offsets of a node are machine
words whose sums and differences stay in range as long as a node does not end
before it starts, so they are natural numbers. Log pointers wrap around.

A node that is split passes its parts on under the client id of the new segment,
and nodes of two clients are joined when their pointers line up. The map from file
bytes to log pointers does not show either.
-/
namespace UnifyFS.SegTreeOps
open GuardedRuns RangeLists RangeTrees List

structure LogPtr where
  ptr : BitVec 64
  clientId : ℕ
  deriving DecidableEq, Repr

def LogPtr.val (p : LogPtr) (k : ℕ) : BitVec 64 := p.ptr + BitVec.ofNat 64 k

def segLayout : Layout LogPtr (BitVec 64) where
  val := LogPtr.val
  cut new old k := ⟨old.val k,new.clientId⟩
  joins p len q := decide (p.val len = q.ptr)
  val_cut _ old k j := by
    change old.ptr + BitVec.ofNat 64 k + BitVec.ofNat 64 j = old.ptr + BitVec.ofNat 64 (k + j)
    rw [BitVec.ofNat_add,BitVec.add_assoc]
  val_join p len q h j := by
    change q.ptr + BitVec.ofNat 64 j = p.ptr + BitVec.ofNat 64 (len + j)
    rw [← of_decide_eq_true h,LogPtr.val,BitVec.ofNat_add,BitVec.add_assoc]

def segTreeInit : RangeTree LogPtr := ⟨[],0,0⟩

def segTreeAdd (S : Picker LogPtr) (t : RangeTree LogPtr) (start stop : ℕ) (ptr : BitVec 64)
    (clientId : ℕ) : Option (RangeTree LogPtr) :=
  t.add segLayout S ⟨start,stop,⟨ptr,clientId⟩⟩

/-- The first node that overlaps the range, between the nodes before and after it. -/
def segTreeFindNolock (t : RangeTree LogPtr) (start stop : ℕ) :
    Option (List (Range LogPtr) × Range LogPtr × List (Range LogPtr)) :=
  match t.nodes.dropWhile fun n => decide (n.stop < start) with
  | [] => none
  | n :: post =>
    if n.start ≤ stop then some (t.nodes.takeWhile fun n => decide (n.stop < start),n,post)
    else none

/-- The body of the loop of `seg_tree_remove`, for the node that was found. -/
def removeNode (S : Picker LogPtr) (t : RangeTree LogPtr) (start stop : ℕ)
    (pre : List (Range LogPtr)) (n : Range LogPtr) (post : List (Range LogPtr)) :
    Option (RangeTree LogPtr) :=
  if start ≤ n.start then
    if n.stop ≤ stop then some { t with nodes := pre ++ post, count := t.count - 1 }
    else
      some { t with
        nodes := pre ++
          ⟨stop + 1,n.stop,⟨n.info.val (stop + 1 - n.start),n.info.clientId⟩⟩ :: post }
  else
    let t := { t with nodes := pre ++ ⟨n.start,start - 1,n.info⟩ :: post }
    if n.stop ≤ stop then some t
    else segTreeAdd S t (stop + 1) n.stop (n.info.val (stop + 1 - n.start)) n.info.clientId

def removeLoop (S : Picker LogPtr) (start stop : ℕ) :
    ℕ → RangeTree LogPtr → Option (RangeTree LogPtr)
  | 0, _ => none
  | fuel + 1, t =>
    match segTreeFindNolock t start stop with
    | none => some t
    | some (pre,n,post) =>
      (removeNode S t start stop pre n post).bind (removeLoop S start stop fuel)

/-- Every round takes one overlap away, so there are at most as many as nodes. -/
def segTreeRemove (S : Picker LogPtr) (t : RangeTree LogPtr) (start stop : ℕ) :
    Option (RangeTree LogPtr) :=
  removeLoop S start stop (t.nodes.length + 1) t

/-- An empty tree is left as it is. -/
def segTreeClear (t : RangeTree LogPtr) : RangeTree LogPtr :=
  match t.nodes with
  | [] => t
  | _ :: _ => ⟨[],0,0⟩

theorem segTreeInit_counted : segTreeInit.Counted := ⟨Separate.nil,rfl⟩

variable {t : RangeTree LogPtr}

theorem segTreeAdd_spec (S : Picker LogPtr) {start stop : ℕ} (ptr : BitVec 64) (clientId : ℕ)
    (ht : t.Counted) (h : start ≤ stop) :
    ∃ u, segTreeAdd S t start stop ptr clientId = some u ∧ u.Counted ∧
      u.nodes.length ≤ t.nodes.length + 2 ∧ ∀ b, contents LogPtr.val u.nodes b =
        if start ≤ b ∧ b ≤ stop then some (ptr + BitVec.ofNat 64 (b - start))
        else contents LogPtr.val t.nodes b := by
  obtain ⟨u,hu,hcounted,-,hlen,hmap⟩ := RangeTree.add_spec (S := S)
    (n := ⟨start,stop,⟨ptr,clientId⟩⟩) ht h
  exact ⟨u,hu,hcounted,hlen,hmap⟩

theorem segTreeClear_nodes (t : RangeTree LogPtr) : (segTreeClear t).nodes = [] := by
  unfold segTreeClear
  split
  · assumption
  · rfl

theorem segTreeClear_counted (ht : t.Counted) : (segTreeClear t).Counted := by
  unfold segTreeClear
  split
  · exact ht
  · exact segTreeInit_counted

section Remove
variable {S : Picker LogPtr} {t u : RangeTree LogPtr} {start stop : ℕ}
  {pre post : List (Range LogPtr)} {n : Range LogPtr}

def window (start stop : ℕ) : Range LogPtr := ⟨start,stop,⟨0,0⟩⟩

theorem segTreeFindNolock_some (h : segTreeFindNolock t start stop = some (pre,n,post))
    (ht : Separate t.nodes) : t.nodes = pre ++ n :: post ∧ n.Meets (window start stop) := by
  unfold segTreeFindNolock at h
  split at h
  · cases h
  · next m rest hdrop =>
    split at h
    · next hle =>
      simp only [Option.some.injEq,Prod.mk.injEq] at h
      obtain ⟨rfl,rfl,rfl⟩ := h
      have hstop := le_stop_of_mem_dropWhile ht (by rw [hdrop]; exact mem_cons_self)
      refine ⟨?_,hle,hstop⟩
      rw [← hdrop,takeWhile_append_dropWhile]
    · cases h

theorem segTreeFindNolock_none (h : segTreeFindNolock t start stop = none)
    (ht : Separate t.nodes) {m : Range LogPtr} (hm : m ∈ t.nodes) :
    ¬ m.Meets (window start stop) := by
  intro hmeet
  have hmem : m ∈ t.nodes.dropWhile fun n => decide (n.stop < start) := by
    rw [← takeWhile_append_dropWhile (p := fun n => decide (n.stop < start)) (l := t.nodes),
      mem_append] at hm
    cases hm with
    | inl htake =>
      have hlt : m.stop < start := by simpa using mem_takeWhile_imp htake
      exact absurd hmeet.2 (Nat.not_le.mpr hlt)
    | inr hdrop => exact hdrop
  unfold segTreeFindNolock at h
  split at h
  · next hdrop =>
    rw [hdrop] at hmem
    cases hmem
  · next k rest hdrop =>
    split at h
    · cases h
    · next hgt =>
      rw [hdrop] at hmem
      have hle := hmeet.1
      cases mem_cons.mp hmem with
      | inl heq => exact hgt (heq ▸ hle)
      | inr hrest =>
        have hsep := ht.sublist (dropWhile_sublist fun n => decide (n.stop < start))
        rw [hdrop] at hsep
        have hlt := rel_of_pairwise_cons hsep.ordered hrest
        have hk := hsep.start_le k mem_cons_self
        have : m.start ≤ stop := hle
        omega

/-- A node as the reads of a client see it. -/
def segNode (n : Range LogPtr) : SegNode := ⟨n.start,n.stop,n.info.ptr.toNat,n.info.clientId⟩

def readView (t : RangeTree LogPtr) (ht : Separate t.nodes) : SegTree where
  nodes := t.nodes.map segNode
  ordered := pairwise_map.mpr ht.ordered
  start_le := forall_mem_map.mpr ht.start_le

/-- A read starts at the node that is found here and goes on behind it. -/
theorem readView_iterFrom (ht : Separate t.nodes) : (readView t ht).iterFrom start =
    (segTreeFindNolock t start start).elim [] fun r => (r.2.1 :: r.2.2).map segNode := by
  have hdrop : (t.nodes.map segNode).dropWhile (fun n => decide (n.stop < start)) =
      (t.nodes.dropWhile fun n => decide (n.stop < start)).map segNode := dropWhile_map
  unfold SegTree.iterFrom segTreeFindNolock readView
  rw [hdrop]
  cases t.nodes.dropWhile fun n => decide (n.stop < start) with
  | nil => rfl
  | cons n post =>
    change (if n.start ≤ start then (n :: post).map segNode else []) = _
    dsimp only
    split_ifs
    · rfl
    · rfl

/-- What one round does: the bytes of the window that the node holds are gone. -/
structure Removed (start stop : ℕ) (t u : RangeTree LogPtr) : Prop where
  counted : u.Counted
  fewer : u.nodes.countP (fun m => decide (m.Meets (window start stop))) <
    t.nodes.countP fun m => decide (m.Meets (window start stop))
  same : ∀ b, ¬ (window start stop).Holds b →
    contents LogPtr.val u.nodes b = contents LogPtr.val t.nodes b
  bounded : (∀ m ∈ t.nodes, m.stop ≤ stop) →
    u.nodes.length ≤ t.nodes.length ∧ ∀ m ∈ u.nodes, m.stop ≤ stop

theorem counted_replace {m : Range LogPtr} (ht : t.Counted) (hnodes : t.nodes = pre ++ n :: post)
    (hm : m.start ≤ m.stop) (hlo : n.start ≤ m.start) (hhi : m.stop ≤ n.stop) :
    RangeTree.Counted { t with nodes := pre ++ m :: post } := by
  refine ⟨(hnodes ▸ ht.separate).replace hm hlo hhi,?_⟩
  rw [ht.count_eq,hnodes,length_append,length_append]
  rfl

section
variable (ht : t.Counted) (hnodes : t.nodes = pre ++ n :: post)
  (hmeet : n.Meets (window start stop))
include ht hnodes hmeet

theorem Removed.of_shrink {m : Range LogPtr} (hm : m.start ≤ m.stop) (hlo : n.start ≤ m.start)
    (hhi : m.stop ≤ n.stop) (hout : ¬ m.Meets (window start stop))
    (hholds : ∀ b, ¬ (window start stop).Holds b → (m.Holds b ↔ n.Holds b))
    (hvalue : ∀ b, m.Holds b → m.value LogPtr.val b = n.value LogPtr.val b) :
    Removed start stop t { t with nodes := pre ++ m :: post } := by
  refine ⟨counted_replace ht hnodes hm hlo hhi,?_,?_,?_⟩
  · simp [hnodes,countP_append,hmeet,hout]
  · intro b hb
    rw [hnodes]
    exact contents_replace (hholds b hb) fun hnb => hvalue b ((hholds b hb).mpr hnb)
  · intro hbound
    rw [hnodes] at hbound ⊢
    refine ⟨by simp,?_⟩
    intro k hk
    have hn := hbound n (mem_append_right _ mem_cons_self)
    cases mem_append.mp hk with
    | inl hk => exact hbound k (mem_append_left _ hk)
    | inr hk =>
      cases mem_cons.mp hk with
      | inl heq => exact heq ▸ hhi.trans hn
      | inr hk => exact hbound k (mem_append_right _ (mem_cons_of_mem _ hk))

theorem Removed.of_drop (hlo : start ≤ n.start) (hhi : n.stop ≤ stop) :
    Removed start stop t { t with nodes := pre ++ post, count := t.count - 1 } := by
  have hsep := ht.separate
  rw [hnodes] at hsep
  refine ⟨⟨hsep.remove,?_⟩,?_,?_,?_⟩
  · simp [ht.count_eq,hnodes]
  · simp [hnodes,countP_append,hmeet]
  · intro b hb
    rw [hnodes]
    exact contents_remove fun hnb => hb ⟨hlo.trans hnb.1,hnb.2.trans hhi⟩
  · intro hbound
    rw [hnodes] at hbound ⊢
    have hsub := (sublist_cons_self n post).append_left pre
    exact ⟨hsub.length_le,fun m hm => hbound m (hsub.subset hm)⟩

/-- A node that reaches beyond the window on both sides: its end is added again. -/
theorem Removed.of_split {a : Range LogPtr} (hstart : start ≤ stop) (hlo : n.start < start)
    (hafter : a.start = stop + 1) (hstop : a.stop = n.stop) (hhi : stop < n.stop) (hu : u.Counted)
    (hval : ∀ b, a.Holds b → a.value LogPtr.val b = n.value LogPtr.val b)
    (hadd : ∀ b, contents LogPtr.val u.nodes b =
      if a.Holds b then some (a.value LogPtr.val b)
      else contents LogPtr.val (pre ++ ⟨n.start,start - 1,n.info⟩ :: post) b) :
    Removed start stop t u := by
  have hmem : n ∈ t.nodes := by simp [hnodes]
  have hsep := ht.separate
  rw [hnodes] at hsep
  have hgone : ∀ b, (window start stop).Holds b → contents LogPtr.val u.nodes b = none := by
    intro b hb
    have hlow : start ≤ b := hb.1
    have hhigh : b ≤ stop := hb.2
    have hnot : ¬ a.Holds b := fun h => by
      have := h.1
      omega
    rw [hadd b,if_neg hnot,contents_eq_none_iff]
    -- the front of the node ends below the window, and no other node shares a byte with it
    intro m hm hmb
    have hmlo := hmb.1
    have hmhi := hmb.2
    obtain ⟨-,hpost,hlt⟩ := hsep.of_append
    simp only [mem_append,mem_cons] at hm
    rcases hm with hm | hm | hm
    · have := hlt m hm n mem_cons_self
      omega
    · rw [hm] at hmhi
      have : b ≤ start - 1 := hmhi
      omega
    · have := rel_of_pairwise_cons hpost.ordered hm
      omega
  refine ⟨hu,?_,?_,?_⟩
  · have hzero : u.nodes.countP (fun m => decide (m.Meets (window start stop))) = 0 := by
      rw [countP_eq_zero]
      intro m hm hmm
      obtain ⟨b,hmb,hb⟩ := (of_decide_eq_true hmm).exists_holds (hu.separate.start_le m hm) hstart
      exact contents_eq_none_iff.mp (hgone b hb) m hm hmb
    rw [hzero,countP_pos_iff]
    exact ⟨n,hmem,decide_eq_true hmeet⟩
  · intro b hb
    rw [hadd b]
    split
    · next h =>
      have hb' := h.1
      have hn : n.Holds b := ⟨by omega,hstop ▸ h.2⟩
      rw [hval b h,ht.separate.contents_of_mem hmem hn]
    · next h =>
      rw [hnodes]
      apply contents_replace
      · unfold Range.Holds at hb h ⊢
        change n.start ≤ b ∧ b ≤ start - 1 ↔ n.start ≤ b ∧ b ≤ n.stop
        have : ¬ (start ≤ b ∧ b ≤ stop) := hb
        omega
      · intro _
        rfl
  · intro hbound
    exact absurd (hbound n hmem) (by omega)

theorem removeNode_spec (hstart : start ≤ stop) :
    ∃ u, removeNode S t start stop pre n post = some u ∧ Removed start stop t u := by
  have hmlo : n.start ≤ stop := hmeet.1
  have hmhi : start ≤ n.stop := hmeet.2
  have hcut : ∀ {hi b : ℕ}, stop + 1 ≤ b →
      (⟨stop + 1,hi,⟨n.info.val (stop + 1 - n.start),n.info.clientId⟩⟩ : Range LogPtr).value
        LogPtr.val b = n.value LogPtr.val b := fun hb =>
    cut_value (K := segLayout) (Nat.le_succ_of_le hmlo) hb
  unfold removeNode
  split
  · next hlo =>
    split
    · next hhi => exact ⟨_,rfl,.of_drop ht hnodes hmeet hlo hhi⟩
    · next hhi =>
      refine ⟨_,rfl,.of_shrink ht hnodes hmeet (by change stop + 1 ≤ n.stop; omega)
        (Nat.le_succ_of_le hmlo) (Nat.le_refl _) ?_ ?_ fun b hb => hcut hb.1⟩
      · exact fun h => absurd h.1 (Nat.not_succ_le_self stop)
      · intro b hb
        change ¬ (start ≤ b ∧ b ≤ stop) at hb
        change stop + 1 ≤ b ∧ b ≤ n.stop ↔ n.start ≤ b ∧ b ≤ n.stop
        omega
  · next hlo =>
    split
    · next hhi =>
      refine ⟨_,rfl,.of_shrink ht hnodes hmeet (by change n.start ≤ start - 1; omega)
        (Nat.le_refl _) (by change start - 1 ≤ n.stop; omega) ?_ ?_ fun _ _ => rfl⟩
      · intro h
        have : start ≤ start - 1 := h.2
        omega
      · intro b hb
        change ¬ (start ≤ b ∧ b ≤ stop) at hb
        change n.start ≤ b ∧ b ≤ start - 1 ↔ n.start ≤ b ∧ b ≤ n.stop
        omega
    · next hhi =>
      have hcount : RangeTree.Counted
          { t with nodes := pre ++ ⟨n.start,start - 1,n.info⟩ :: post } :=
        counted_replace ht hnodes (by change n.start ≤ start - 1; omega) (Nat.le_refl _)
          (by change start - 1 ≤ n.stop; omega)
      let a : Range LogPtr := ⟨stop + 1,n.stop,⟨n.info.val (stop + 1 - n.start),n.info.clientId⟩⟩
      obtain ⟨u,hu,hcounted,-,-,hadd⟩ := RangeTree.add_spec (S := S) (n := a)
        hcount (show stop + 1 ≤ n.stop by omega)
      exact ⟨u,hu,.of_split (a := a) ht hnodes hmeet hstart (by omega) rfl rfl (by omega)
        hcounted (fun b hb => hcut hb.1) hadd⟩

end

theorem removeLoop_spec (fuel : ℕ) (ht : t.Counted) (hstart : start ≤ stop)
    (hfuel : t.nodes.countP (fun m => decide (m.Meets (window start stop))) < fuel) :
    ∃ u, removeLoop S start stop fuel t = some u ∧ u.Counted ∧ (∀ b, contents LogPtr.val u.nodes b =
        if start ≤ b ∧ b ≤ stop then none else contents LogPtr.val t.nodes b) ∧
      ((∀ m ∈ t.nodes, m.stop ≤ stop) →
        u.nodes.length ≤ t.nodes.length ∧ ∀ m ∈ u.nodes, m.stop ≤ stop) := by
  induction fuel generalizing t with
  | zero => omega
  | succ fuel ih =>
    rw [removeLoop]
    cases hfind : segTreeFindNolock t start stop with
    | none =>
      refine ⟨t,rfl,ht,?_,fun h => ⟨Nat.le_refl _,h⟩⟩
      intro b
      split
      · next hb =>
        rw [contents_eq_none_iff]
        intro m hm hmb
        exact segTreeFindNolock_none hfind ht.separate hm ⟨hmb.1.trans hb.2,hb.1.trans hmb.2⟩
      · rfl
    | some found =>
      obtain ⟨pre,n,post⟩ := found
      obtain ⟨hnodes,hmeet⟩ := segTreeFindNolock_some hfind ht.separate
      obtain ⟨v,hv,hround⟩ := removeNode_spec ht hnodes hmeet hstart
      have hfewer := hround.fewer
      obtain ⟨u,hu,hcounted,hmap,hbound⟩ := ih hround.counted (by omega)
      refine ⟨u,?_,hcounted,?_,?_⟩
      · change (removeNode S t start stop pre n post).bind _ = some u
        rw [hv]
        exact hu
      · intro b
        rw [hmap b]
        split
        · rfl
        · next hb => exact hround.same b hb
      · intro h
        have hfirst := hround.bounded h
        have hrest := hbound hfirst.2
        exact ⟨hrest.1.trans hfirst.1,hrest.2⟩

/-- What every round keeps up, a removal keeps up. -/
theorem segTreeRemove_invariant {I : RangeTree LogPtr → Prop}
    (hround : ∀ t u pre n post, t.Counted → t.nodes = pre ++ n :: post →
      n.Meets (window start stop) → removeNode S t start stop pre n post = some u → I t → I u)
    (ht : t.Counted) (hstart : start ≤ stop) (hu : segTreeRemove S t start stop = some u)
    (hI : I t) : I u := by
  unfold segTreeRemove at hu
  generalize t.nodes.length + 1 = fuel at hu
  induction fuel generalizing t with
  | zero => cases hu
  | succ fuel ih =>
    rw [removeLoop] at hu
    cases hfind : segTreeFindNolock t start stop with
    | none =>
      rw [hfind] at hu
      cases hu
      exact hI
    | some found =>
      obtain ⟨pre,n,post⟩ := found
      rw [hfind] at hu
      obtain ⟨v,hv,hrest⟩ := Option.bind_eq_some_iff.mp hu
      obtain ⟨hnodes,hmeet⟩ := segTreeFindNolock_some hfind ht.separate
      obtain ⟨v',hv',hremoved⟩ := removeNode_spec ht hnodes hmeet hstart
      obtain rfl := Option.some.inj (hv'.symm.trans hv)
      exact ih hremoved.counted (hround t v' pre n post ht hnodes hmeet hv hI) hrest

theorem segTreeRemove_spec (S : Picker LogPtr) (ht : t.Counted) (hstart : start ≤ stop) :
    ∃ u, segTreeRemove S t start stop = some u ∧ u.Counted ∧ (∀ b, contents LogPtr.val u.nodes b =
        if start ≤ b ∧ b ≤ stop then none else contents LogPtr.val t.nodes b) ∧
      ((∀ m ∈ t.nodes, m.stop ≤ stop) →
        u.nodes.length ≤ t.nodes.length ∧ ∀ m ∈ u.nodes, m.stop ≤ stop) :=
  removeLoop_spec _ ht hstart (Nat.lt_succ_of_le countP_le_length)

end Remove

/-- A call on a tree. Each search may run in a tree of another shape. -/
inductive SegOp where
  | add (S : Picker LogPtr) (start stop : ℕ) (h : start ≤ stop) (ptr : BitVec 64) (clientId : ℕ)
  | remove (S : Picker LogPtr) (start stop : ℕ) (h : start ≤ stop)
  | clear

/-- `none` when the call does not return. -/
def SegOp.apply (t : RangeTree LogPtr) : SegOp → Option (RangeTree LogPtr)
  | .add S start stop _ ptr clientId => segTreeAdd S t start stop ptr clientId
  | .remove S start stop _ => segTreeRemove S t start stop
  | .clear => some (segTreeClear t)

/-- The map that a history means: the last writer of a byte, unless it was removed. -/
def SegOp.overwrite (f : ℕ → Option (BitVec 64)) : SegOp → ℕ → Option (BitVec 64)
  | .add _ start stop _ ptr _, b =>
    if start ≤ b ∧ b ≤ stop then some (ptr + BitVec.ofNat 64 (b - start)) else f b
  | .remove _ start stop _, b => if start ≤ b ∧ b ≤ stop then none else f b
  | .clear, _ => none

theorem SegOp.apply_spec (ht : t.Counted) (op : SegOp) : ∃ u, op.apply t = some u ∧ u.Counted ∧
      contents LogPtr.val u.nodes = op.overwrite (contents LogPtr.val t.nodes) := by
  cases op with
  | add S start stop h ptr clientId =>
    obtain ⟨u,hu,hcounted,-,hmap⟩ := segTreeAdd_spec S ptr clientId ht h
    exact ⟨u,hu,hcounted,funext hmap⟩
  | remove S start stop h =>
    obtain ⟨u,hu,hcounted,hmap,-⟩ := segTreeRemove_spec S ht h
    exact ⟨u,hu,hcounted,funext hmap⟩
  | clear =>
    refine ⟨_,rfl,segTreeClear_counted ht,?_⟩
    rw [segTreeClear_nodes]
    rfl

theorem foldlM_apply_spec (ht : t.Counted) (ops : List SegOp) :
    ∃ u, ops.foldlM SegOp.apply t = some u ∧ u.Counted ∧
      contents LogPtr.val u.nodes = ops.foldl SegOp.overwrite (contents LogPtr.val t.nodes) := by
  apply exists_foldlM
  · rintro done op u - ⟨hu,hmap⟩
    obtain ⟨v,hv,hcounted,hvmap⟩ := op.apply_spec hu
    refine ⟨v,hv,hcounted,?_⟩
    rw [foldl_append,← hmap]
    exact hvmap
  · exact ⟨ht,rfl⟩

/-- Every history of a tree runs to its end and leaves an ordered tree without overlap
that maps each byte as its last writer did. -/
theorem segTree_last_writer_wins (ops : List SegOp) :
    ∃ t, ops.foldlM SegOp.apply segTreeInit = some t ∧
      t.nodes.Pairwise (fun a b => a.stop < b.start) ∧ (∀ n ∈ t.nodes, n.start ≤ n.stop) ∧
      (∀ b, contents LogPtr.val t.nodes b = ops.foldl SegOp.overwrite (fun _ => none) b) ∧
      t.count = t.nodes.length := by
  obtain ⟨t,ht,hcounted,hmap⟩ := foldlM_apply_spec segTreeInit_counted ops
  exact ⟨t,ht,hcounted.separate.ordered,hcounted.separate.start_le,congrFun hmap,hcounted.count_eq⟩

end UnifyFS.SegTreeOps
