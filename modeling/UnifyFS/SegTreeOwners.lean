import Mathlib
import UnifyFS.RangeTreeNodes
import UnifyFS.SegTreeOps

/-!
# Whose log a byte of a segment tree is in

Each node of a segment tree has one client id for all its bytes. An addition gives its own id
to the parts of an old node that it cuts, and a node that is joined to another one loses its
id. So an addition changes the id of a byte outside its range, or takes over another id inside
its range, exactly if it touches a node of another client: one that it cuts, or a neighbour
whose log positions go on in its own.

Removals never do any harm. A removal that splits a node adds the end of it again, which would be
joined with the next node if its positions went on there, but then the two would have been
one node all along.
-/
namespace UnifyFS.SegTreeOwners
open GuardedRuns RangeLists RangeTrees SegTreeOps List Option

theorem segLayout_successive : segLayout.Successive (· + 1) where
  step p k := by
    change p.ptr + BitVec.ofNat 64 (k + 1) = p.ptr + BitVec.ofNat 64 k + 1
    rw [BitVec.ofNat_add,BitVec.add_assoc]
    rfl
  joins p len q h := by
    have hzero : q.val 0 = q.ptr := BitVec.add_zero _
    exact decide_eq_true (h.symm.trans hzero)

/-- The client id that the tree records for a byte. -/
def recordedId (t : RangeTree LogPtr) (b : ℕ) : Option ℕ :=
  contents (fun p _ => p.clientId) t.nodes b

/-- The clients that the bytes belong to after a call, when they are `w` before it. -/
def ownersAfter (w : ℕ → Option ℕ) : SegOp → ℕ → Option ℕ
  | .add _ start stop _ _ clientId, b => if start ≤ b ∧ b ≤ stop then some clientId else w b
  | .remove _ start stop _, b => if start ≤ b ∧ b ≤ stop then none else w b
  | .clear, _ => none

/-- The client of the addition that wrote a byte last, unless it was removed. -/
def lastWriter (ops : List SegOp) : ℕ → Option ℕ := ops.foldl ownersAfter fun _ => none

/-- A new node cuts an old one, or log positions go on from one to the other. -/
def Touches (n m : Range LogPtr) : Prop :=
  m.Meets n ∧ (m.start < n.start ∨ n.stop < m.stop) ∨
    m.stop + 1 = n.start ∧ m.info.val m.length = n.info.ptr ∨
    n.stop + 1 = m.start ∧ n.info.val n.length = m.info.ptr

instance (n m : Range LogPtr) : Decidable (Touches n m) := inferInstanceAs (Decidable (_ ∨ _))

/-- An addition touches nodes of its own client only. -/
def KeepsOwners (t : RangeTree LogPtr) : SegOp → Prop
  | .add _ start stop _ ptr clientId =>
    ∀ m ∈ t.nodes, Touches ⟨start,stop,⟨ptr,clientId⟩⟩ m → m.info.clientId = clientId
  | _ => True

/-- Every node has the client of all its bytes. -/
def Owned (w : ℕ → Option ℕ) (l : List (Range LogPtr)) : Prop :=
  ∀ m ∈ l, ∀ b, m.Holds b → w b = some m.info.clientId

/-- Neighbouring bytes whose log positions go on are in one node. -/
def Merged (l : List (Range LogPtr)) : Prop :=
  ∀ b x, contents LogPtr.val l b = some x → contents LogPtr.val l (b + 1) = some (x + 1) →
    Together l b

theorem recordedId_eq_iff {t : RangeTree LogPtr} {w : ℕ → Option ℕ} (ht : Separate t.nodes)
    (hsome : ∀ b, (contents LogPtr.val t.nodes b).isSome = (w b).isSome) :
    recordedId t = w ↔ Owned w t.nodes := by
  constructor
  · intro h m hm b hb
    rw [← h]
    exact ht.contents_of_mem hm hb
  · intro h
    funext b
    cases hw : w b with
    | none =>
      have hnone := hsome b
      rw [hw,isSome_none,isSome_eq_false_iff,isNone_iff_eq_none] at hnone
      exact contents_eq_none_iff.mpr (contents_eq_none_iff.mp hnone)
    | some id =>
      have hheld := hsome b
      rw [hw] at hheld
      obtain ⟨m,hm,hb⟩ := (exists_holds_iff LogPtr.val).mpr hheld
      rw [recordedId,ht.contents_of_mem hm hb,← hw,h m hm b hb]
      rfl

section Add
variable {S : Picker LogPtr} {t u : RangeTree LogPtr} {n : Range LogPtr} {w : ℕ → Option ℕ}
  {v : RangeTree LogPtr} {m : Range LogPtr} {fuel : ℕ} {l : List (Range LogPtr)}

theorem merged_add (ht : t.Counted) (hn : n.start ≤ n.stop) (hm : Merged t.nodes)
    (hu : t.add segLayout S n = some u) : Merged u.nodes := by
  intro b x hb hb'
  refine RangeTree.add_together segLayout_successive ht hn hu hb hb' ?_
  by_cases hnb : n.Holds b
  · exact .inl hnb
  · by_cases hnb' : n.Holds (b + 1)
    · exact .inr (.inl hnb')
    · have hmap := (RangeTree.add_of_eq_some ht hn hu).2
      rw [show contents LogPtr.val u.nodes b = _ from hmap b,if_neg hnb] at hb
      rw [show contents LogPtr.val u.nodes (b + 1) = _ from hmap (b + 1),if_neg hnb'] at hb'
      exact .inr (.inr (hm b x hb hb'))

def overlay (n : Range LogPtr) (w : ℕ → Option ℕ) (b : ℕ) : Option ℕ :=
  if n.Holds b then some n.info.clientId else w b

theorem cleared_of_add (ht : t.Counted)
    (hv : clearConflicts segLayout S n (2 * t.nodes.length + 1) t = some v) :
    v.Counted ∧ ∀ m ∈ v.nodes, ¬ m.Meets n := by
  obtain ⟨v',hv',hvc,-,hclear,-⟩ := clearConflicts_spec (S := S) (n := n)
    (2 * t.nodes.length + 1) ht (Nat.lt_succ_of_le (sum_rounds_le n t.nodes))
  obtain rfl := some.inj (hv'.symm.trans hv)
  exact ⟨hvc,hclear⟩

/-- The nodes when the conflicts are cleared: an old node with its client, or a part of one that
was cut, under the client of the new node. -/
theorem mem_cleared_owner (ht : t.Counted) (hvc : v.Counted) (hclear : ∀ m ∈ v.nodes, ¬ m.Meets n)
    (hv : clearConflicts segLayout S n fuel t = some v) (hm : m ∈ v.nodes) :
    m ∈ t.nodes ∨ m.info.clientId = n.info.clientId ∧
      ∃ c ∈ t.nodes, Touches n c ∧ c.start ≤ m.start ∧ m.stop ≤ c.stop := by
  rcases mem_cleared fuel ht hv m hm with hm' | ⟨c,hc,hmeet,hlo,hhi,old,k,hcut⟩
  · exact .inl hm'
  · refine .inr ⟨by rw [hcut]; rfl,c,hc,.inl ⟨hmeet,?_⟩,hlo,hhi⟩
    have hout := hclear m hm
    have hle := hvc.separate.start_le m hm
    unfold Range.Meets at hout
    omega

/-- The list is in order for the new node: its nodes belong to their clients after the addition,
and those that the new node is going to be joined with belong to its own client. -/
structure Ready (w : ℕ → Option ℕ) (n : Range LogPtr) (l : List (Range LogPtr)) : Prop where
  start_le : ∀ m ∈ l, m.start ≤ m.stop
  owned : Owned (overlay n w) l
  touched : ∀ m ∈ l, Touches n m → m.info.clientId = n.info.clientId

theorem ready_cleared (ht : t.Counted) (hvc : v.Counted) (hclear : ∀ m ∈ v.nodes, ¬ m.Meets n)
    (hv : clearConflicts segLayout S n fuel t = some v) (how : Owned w t.nodes)
    (hown : ∀ m ∈ t.nodes, Touches n m → m.info.clientId = n.info.clientId) :
    Ready w n v.nodes := by
  refine ⟨hvc.separate.start_le,?_,?_⟩
  · intro m hm b hb
    have hout : ¬ n.Holds b := fun hnb => hclear m hm ⟨hb.1.trans hnb.2,hnb.1.trans hb.2⟩
    rw [overlay,if_neg hout]
    rcases mem_cleared_owner ht hvc hclear hv hm with hm' | ⟨hid,c,hc,htouch,hlo,hhi⟩
    · exact how m hm' b hb
    · rw [hid,← hown c hc htouch]
      exact how c hc b ⟨hlo.trans hb.1,hb.2.trans hhi⟩
  · intro m hm htouch
    rcases mem_cleared_owner ht hvc hclear hv hm with hm' | ⟨hid,-⟩
    · exact hown m hm' htouch
    · exact hid

/-- A node of the new client that ends with the new node and goes on in the same place. -/
structure Fused (w : ℕ → Option ℕ) (n target : Range LogPtr) : Prop where
  stop_eq : target.stop = n.stop
  val_eq : target.info.val target.length = n.info.val n.length
  clientId_eq : target.info.clientId = n.info.clientId
  owned : ∀ b, target.Holds b → overlay n w b = some n.info.clientId

theorem Ready.fused (h : Ready w n l) (hn : n.start ≤ n.stop) {p : Range LogPtr} (hp : p ∈ l)
    (hadj : p.stop + 1 = n.start) (hjoin : segLayout.joins p.info p.length n.info = true) :
    Fused w n { p with stop := n.stop } := by
  have hle := h.start_le p hp
  have hid := h.touched p hp (.inr (.inl ⟨hadj,of_decide_eq_true hjoin⟩))
  refine ⟨rfl,?_,hid,?_⟩
  · have hlen : ({ p with stop := n.stop } : Range LogPtr).length = p.length + n.length := by
      unfold Range.length
      dsimp only
      omega
    rw [hlen]
    exact (segLayout.val_join p.info p.length n.info hjoin n.length).symm
  · intro b hb
    by_cases hbp : b ≤ p.stop
    · rw [← hid]
      exact h.owned p hp b ⟨hb.1,hbp⟩
    · exact if_pos ⟨by omega,hb.2⟩

theorem owned_add (ht : t.Counted) (hn : n.start ≤ n.stop) (how : Owned w t.nodes)
    (hown : ∀ m ∈ t.nodes, Touches n m → m.info.clientId = n.info.clientId)
    (hu : t.add segLayout S n = some u) : Owned (overlay n w) u.nodes := by
  obtain ⟨v,hv,target,htarget,hnodes⟩ := RangeTree.mem_add hu
  obtain ⟨hvc,hclear⟩ := cleared_of_add ht hv
  have hready := ready_cleared ht hvc hclear hv how hown
  have hnew : Fused w n target := by
    rcases htarget with rfl | ⟨p,hp,hadj,hjoin,rfl⟩
    · exact ⟨rfl,rfl,rfl,fun b hb => if_pos hb⟩
    · exact hready.fused hn hp hadj hjoin
  intro m hm b hb
  rcases hnodes m hm with hm | rfl | ⟨q,hq,hadj,hjoin,rfl⟩
  · exact hready.owned m hm b hb
  · rw [hnew.clientId_eq]
    exact hnew.owned b hb
  · have hid :=
      hready.touched q hq (.inr (.inr ⟨hadj,hnew.val_eq.symm.trans (of_decide_eq_true hjoin)⟩))
    rw [hnew.clientId_eq]
    by_cases hbt : b ≤ target.stop
    · exact hnew.owned b ⟨hb.1,hbt⟩
    · rw [← hid]
      rw [hnew.stop_eq] at hbt
      exact hready.owned q hq b ⟨by omega,hb.2⟩

theorem mem_add_cases (ht : t.Counted) (hn : n.start ≤ n.stop) (hu : t.add segLayout S n = some u)
    (hm : m ∈ u.nodes) : m.Holds n.start ∨ m ∈ t.nodes ∨ m.info.clientId = n.info.clientId := by
  obtain ⟨v,hv,target,htarget,hnodes⟩ := RangeTree.mem_add hu
  obtain ⟨hvc,hclear⟩ := cleared_of_add ht hv
  have hnew : target.Holds n.start ∧ target.stop = n.stop := by
    rcases htarget with rfl | ⟨p,hp,hadj,-,rfl⟩
    · exact ⟨⟨le_rfl,hn⟩,rfl⟩
    · have := hvc.separate.start_le p hp
      exact ⟨⟨by dsimp only; omega,hn⟩,rfl⟩
  rcases hnodes m hm with hm | rfl | ⟨q,hq,hadj,-,rfl⟩
  · rcases mem_cleared_owner ht hvc hclear hv hm with hm' | ⟨hid,-⟩
    · exact .inr (.inl hm')
    · exact .inr (.inr hid)
  · exact .inl hnew.1
  · have := hvc.separate.start_le q hq
    exact .inl ⟨hnew.1.1,by dsimp only; omega⟩

theorem Owned.eq_of_together {b i j : ℕ} (h : Owned w l) (hl : Together l b) (hb : w b = some i)
    (hb' : w (b + 1) = some j) : i = j := by
  obtain ⟨m,hm,hmb,hmb'⟩ := hl
  have hi := hb.symm.trans (h m hm b hmb)
  have hj := hb'.symm.trans (h m hm (b + 1) hmb')
  exact (some.inj hi).trans (some.inj hj).symm

theorem val_length (m : Range LogPtr) : m.info.val m.length = m.value LogPtr.val m.stop + 1 :=
  segLayout_successive.step m.info (m.stop - m.start)

theorem value_start (m : Range LogPtr) : m.value LogPtr.val m.start = m.info.ptr := by
  rw [Range.value,Nat.sub_self]
  exact BitVec.add_zero _

variable (ht : t.Counted) (hn : n.start ≤ n.stop) (how : Owned w t.nodes)
  (hu : t.add segLayout S n = some u)
include ht hn how hu

theorem touched_of_owned_add (how' : Owned (overlay n w) u.nodes) (hm : m ∈ t.nodes)
    (htouch : Touches n m) : m.info.clientId = n.info.clientId := by
  have hle := ht.separate.start_le m hm
  have hin : ∀ b, n.Holds b → overlay n w b = some n.info.clientId ∧
      contents LogPtr.val u.nodes b = some (n.value LogPtr.val b) := fun b hb =>
    ⟨if_pos hb,((RangeTree.add_of_eq_some ht hn hu).2 b).trans (if_pos hb)⟩
  have hout : ∀ b, m.Holds b → ¬ n.Holds b → overlay n w b = some m.info.clientId ∧
      contents LogPtr.val u.nodes b = some (m.value LogPtr.val b) := fun b hb hnb =>
    ⟨(if_neg hnb).trans (how m hm b hb),(((RangeTree.add_of_eq_some ht hn hu).2 b).trans
      (if_neg hnb)).trans (ht.separate.contents_of_mem hm hb)⟩
  rcases htouch with ⟨hmeet,hover⟩ | ⟨hadj,hval⟩ | ⟨hadj,hval⟩
  · -- a byte of the node outside the new range, and one inside
    obtain ⟨b,hmb,hnb⟩ : ∃ b, m.Holds b ∧ ¬ n.Holds b := by
      unfold Range.Meets at hmeet
      unfold Range.Holds
      rcases hover with hlo | hhi
      · exact ⟨m.start,by omega⟩
      · exact ⟨m.stop,by omega⟩
    obtain ⟨c,hmc,hnc⟩ := hmeet.exists_holds hle hn
    obtain ⟨k,hk,hkb⟩ := (exists_holds_iff LogPtr.val).mpr (isSome_of_eq_some (hout b hmb hnb).2)
    have hkm := some.inj ((hout b hmb hnb).1.symm.trans (how' k hk b hkb))
    rw [hkm]
    rcases mem_add_cases ht hn hu hk with hks | hkt | hid
    · exact some.inj ((how' k hk _ hks).symm.trans (hin _ ⟨le_rfl,hn⟩).1)
    · obtain rfl := ht.separate.eq_of_holds hkt hm hkb hmb
      exact some.inj ((how' k hk c hmc).symm.trans (hin c hnc).1)
    · exact hid
  · have hlast := hout m.stop ⟨hle,le_rfl⟩ fun h => by have := h.1; omega
    have hfirst := hin (m.stop + 1) ⟨by omega,by omega⟩
    refine how'.eq_of_together (RangeTree.add_together segLayout_successive ht hn hu hlast.2 ?_
      (.inr (.inl ⟨by omega,by omega⟩))) hlast.1 hfirst.1
    refine hfirst.2.trans (congrArg some ?_)
    rw [hadj,value_start,← hval,val_length]
  · have hlast := hin n.stop ⟨hn,le_rfl⟩
    have hfirst := hout (n.stop + 1) ⟨by omega,by omega⟩ fun h => by have := h.2; omega
    refine (how'.eq_of_together (RangeTree.add_together segLayout_successive ht hn hu hlast.2 ?_
      (.inl ⟨hn,le_rfl⟩)) hlast.1 hfirst.1).symm
    refine hfirst.2.trans (congrArg some ?_)
    rw [hadj,value_start,← hval,val_length]

theorem owned_add_iff : Owned (overlay n w) u.nodes ↔
      ∀ m ∈ t.nodes, Touches n m → m.info.clientId = n.info.clientId :=
  ⟨fun how' _ => touched_of_owned_add ht hn how hu how',fun hown => owned_add ht hn how hown hu⟩

end Add

section Remove
variable {S : Picker LogPtr} {t u : RangeTree LogPtr} {start stop : ℕ} {w : ℕ → Option ℕ}
  {pre post : List (Range LogPtr)} {n m : Range LogPtr} {l : List (Range LogPtr)}

structure Kept (w : ℕ → Option ℕ) (l : List (Range LogPtr)) : Prop where
  merged : Merged l
  owned : Owned w l

theorem Kept.replace {l' : List (Range LogPtr)} (h : Kept w l) (hl : Separate l) (hl' : Separate l')
    (hn : n ∈ l) (hnew : ∀ k ∈ l', k ∈ l ∨ k = m) (hold : ∀ k ∈ l, k ∈ l' ∨ k = n)
    (hlo : n.start ≤ m.start) (hhi : m.stop ≤ n.stop) (hid : m.info.clientId = n.info.clientId)
    (hvalue : ∀ b, m.Holds b → m.value LogPtr.val b = n.value LogPtr.val b) : Kept w l' := by
  have hpart : ∀ b, m.Holds b → n.Holds b := fun b hb => ⟨hlo.trans hb.1,hb.2.trans hhi⟩
  have hsame : ∀ b x, contents LogPtr.val l' b = some x → contents LogPtr.val l b = some x := by
    intro b x hx
    obtain ⟨k,hk,hkb,hkx⟩ := hl'.contents_eq_some_iff.mp hx
    rcases hnew k hk with hk | rfl
    · exact hl.contents_eq_some_iff.mpr ⟨k,hk,hkb,hkx⟩
    · exact hl.contents_eq_some_iff.mpr ⟨n,hn,hpart b hkb,(hvalue b hkb).symm.trans hkx⟩
  refine ⟨fun b x hb hb' => ?_,fun k hk b hb => ?_⟩
  · obtain ⟨k,hk,hkb,hkb'⟩ := h.merged b x (hsame b x hb) (hsame (b + 1) (x + 1) hb')
    rcases hold k hk with hk' | rfl
    · exact ⟨k,hk',hkb,hkb'⟩
    · -- both bytes were in the old node: they are in what is left of it
      obtain ⟨p,hp,hpb,-⟩ := hl'.contents_eq_some_iff.mp hb
      obtain ⟨q,hq,hqb,-⟩ := hl'.contents_eq_some_iff.mp hb'
      rcases hnew p hp with hpl | rfl
      · obtain rfl := hl.eq_of_holds hpl hn hpb hkb
        exact ⟨p,hp,hpb,hkb'⟩
      · rcases hnew q hq with hql | rfl
        · obtain rfl := hl.eq_of_holds hql hn hqb hkb'
          exact ⟨q,hq,hkb,hqb⟩
        · exact ⟨q,hq,hpb,hqb⟩
  · rcases hnew k hk with hk | rfl
    · exact h.owned k hk b hb
    · rw [hid]
      exact h.owned n hn b (hpart b hb)

theorem Kept.shrink (h : Kept w t.nodes) (ht : t.Counted) (hnodes : t.nodes = pre ++ n :: post)
    (hm : m.start ≤ m.stop) (hlo : n.start ≤ m.start) (hhi : m.stop ≤ n.stop)
    (hid : m.info.clientId = n.info.clientId)
    (hvalue : ∀ b, m.Holds b → m.value LogPtr.val b = n.value LogPtr.val b) :
    Kept w (pre ++ m :: post) := by
  refine h.replace ht.separate (counted_replace ht hnodes hm hlo hhi).separate ?_ ?_ ?_
    hlo hhi hid hvalue
  · simp [hnodes]
  · intro k hk
    simp only [hnodes,mem_append,mem_cons] at hk ⊢
    tauto
  · intro k hk
    simp only [hnodes,mem_append,mem_cons] at hk ⊢
    tauto

theorem Merged.val_ne (h : Merged l) (hl : Separate l) (hn : n ∈ l) (hm : m ∈ l)
    (hadj : n.stop + 1 = m.start) : n.info.val n.length ≠ m.info.ptr := by
  intro hval
  have hnb : n.Holds n.stop := ⟨hl.start_le n hn,le_rfl⟩
  have hmb : m.Holds (n.stop + 1) := ⟨hadj.ge,hadj ▸ hl.start_le m hm⟩
  have hx : contents LogPtr.val l (n.stop + 1) = some (n.value LogPtr.val n.stop + 1) := by
    rw [hl.contents_of_mem hm hmb,hadj,value_start,← hval,val_length]
  obtain ⟨k,hk,hkb,hkb'⟩ := h n.stop _ (hl.contents_of_mem hn hnb) hx
  obtain rfl := hl.eq_of_holds hk hn hkb hnb
  have := hkb'.2
  omega

/-- The end of a node behind `stop`, as a node of its own. -/
def tailOf (n : Range LogPtr) (stop : ℕ) : Range LogPtr :=
  ⟨stop + 1,n.stop,⟨n.info.val (stop + 1 - n.start),n.info.clientId⟩⟩

theorem holds_of_tailOf {b : ℕ} (hlo : n.start ≤ stop) (hb : (tailOf n stop).Holds b) :
    n.Holds b := by
  have hlow : stop + 1 ≤ b := hb.1
  exact ⟨by omega,hb.2⟩

theorem val_length_tailOf (hlo : n.start ≤ stop) (hhi : stop < n.stop) :
    (tailOf n stop).info.val (tailOf n stop).length = n.info.val n.length := by
  refine (segLayout.val_cut n.info n.info (stop + 1 - n.start) (tailOf n stop).length).trans ?_
  change n.info.val _ = n.info.val _
  congr 1
  change stop + 1 - n.start + (n.stop - (stop + 1) + 1) = n.stop - n.start + 1
  omega

theorem eq_of_touches_tailOf {k : Range LogPtr} (ht : t.Counted) (h : Merged t.nodes)
    (hn : n ∈ t.nodes) (hlo : n.start ≤ stop) (hhi : stop < n.stop) (hk : k ∈ t.nodes)
    (htouch : Touches (tailOf n stop) k) : k = n := by
  rcases htouch with ⟨hmeet,-⟩ | ⟨hadj,-⟩ | ⟨hadj,hval⟩
  · obtain ⟨b,hkb,hab⟩ := hmeet.exists_holds (ht.separate.start_le k hk) hhi
    exact ht.separate.eq_of_holds hk hn hkb (holds_of_tailOf hlo hab)
  · obtain hkstop : k.stop = stop := Nat.succ.inj hadj
    have hkb : k.Holds stop := ⟨hkstop ▸ ht.separate.start_le k hk,hkstop.ge⟩
    exact ht.separate.eq_of_holds hk hn hkb ⟨hlo,hhi.le⟩
  · -- the next node would have been joined with this one
    exact absurd ((val_length_tailOf hlo hhi).symm.trans hval) (h.val_ne ht.separate hn hk hadj)

theorem kept_split (ht : t.Counted) (h : Kept w t.nodes) (hnodes : t.nodes = pre ++ n :: post)
    (hstart : start ≤ stop) (hlo : n.start < start) (hhi : stop < n.stop)
    (hu : segTreeAdd S { t with nodes := pre ++ ⟨n.start,start - 1,n.info⟩ :: post } (stop + 1)
      n.stop (n.info.val (stop + 1 - n.start)) n.info.clientId = some u) : Kept w u.nodes := by
  have hn : n ∈ t.nodes := by simp [hnodes]
  have hm : n.start ≤ start - 1 := by omega
  have hle : start - 1 ≤ n.stop := by omega
  have hns : n.start ≤ stop := by omega
  have hfront := h.shrink (m := ⟨n.start,start - 1,n.info⟩) ht hnodes hm le_rfl hle rfl
    fun _ _ => rfl
  have hcount := counted_replace (m := ⟨n.start,start - 1,n.info⟩) ht hnodes hm le_rfl hle
  have hover : overlay (tailOf n stop) w = w := by
    funext b
    rw [overlay]
    split
    · next hb => exact (h.owned n hn b (holds_of_tailOf hns hb)).symm
    · rfl
  refine ⟨merged_add (n := tailOf n stop) hcount hhi hfront.merged hu,?_⟩
  rw [← hover]
  refine owned_add hcount hhi hfront.owned (fun k hk htouch => ?_) hu
  have hk' : k ∈ t.nodes ∨ k = ⟨n.start,start - 1,n.info⟩ := by
    simp only [hnodes,mem_append,mem_cons] at hk ⊢
    tauto
  rcases hk' with hk | rfl
  · rw [eq_of_touches_tailOf ht h.merged hn hns hhi hk htouch]
    rfl
  · rfl

theorem kept_removeNode (ht : t.Counted) (h : Kept w t.nodes)
    (hnodes : t.nodes = pre ++ n :: post) (hmeet : n.Meets (window start stop))
    (hstart : start ≤ stop) (hu : removeNode S t start stop pre n post = some u) :
    Kept w u.nodes := by
  have hmlo := hmeet.1
  have hmhi : start ≤ n.stop := hmeet.2
  unfold removeNode at hu
  split_ifs at hu with hlo hhi hhi
  · cases hu
    have hsep := hnodes ▸ ht.separate
    refine h.replace (m := n) ht.separate hsep.remove (by simp [hnodes]) ?_ ?_ le_rfl
      le_rfl rfl fun _ _ => rfl
    · intro k hk
      simp only [hnodes,mem_append,mem_cons] at hk ⊢
      tauto
    · intro k hk
      simp only [hnodes,mem_append,mem_cons] at hk ⊢
      tauto
  · cases hu
    exact h.shrink ht hnodes (by dsimp only; omega) (Nat.le_succ_of_le hmlo) le_rfl rfl
      fun b hb => cut_value (K := segLayout) (Nat.le_succ_of_le hmlo) hb.1
  · cases hu
    exact h.shrink ht hnodes (by dsimp only; omega) le_rfl (by dsimp only; omega) rfl fun _ _ => rfl
  · exact kept_split ht h hnodes hstart (by omega) (by omega) hu

theorem kept_segTreeRemove (ht : t.Counted) (h : Kept w t.nodes) (hstart : start ≤ stop)
    (hu : segTreeRemove S t start stop = some u) : Kept w u.nodes :=
  segTreeRemove_invariant (I := fun t => Kept w t.nodes)
    (fun _ _ _ _ _ ht hnodes hmeet hu h => kept_removeNode ht h hnodes hmeet hstart hu)
    ht hstart hu h

end Remove

/-- What holds of a tree after a history, whatever its client ids are. -/
structure Regular (ops : List SegOp) (t : RangeTree LogPtr) : Prop where
  counted : t.Counted
  merged : Merged t.nodes
  written : ∀ b, (contents LogPtr.val t.nodes b).isSome = (lastWriter ops b).isSome

theorem lastWriter_concat (ops : List SegOp) (op : SegOp) :
    lastWriter (ops ++ [op]) = ownersAfter (lastWriter ops) op := by
  rw [lastWriter,foldl_append]
  rfl

theorem merged_nil : Merged [] := fun _ _ h => by cases h

theorem regular_init : Regular [] segTreeInit := ⟨segTreeInit_counted,merged_nil,fun _ => rfl⟩

section Steps
variable {ops : List SegOp} {op : SegOp} {t u : RangeTree LogPtr}

theorem owned_recordedId (ht : Separate t.nodes) : Owned (recordedId t) t.nodes :=
  fun _ hm _ hb => ht.contents_of_mem hm hb

theorem Regular.step (h : Regular ops t) (hu : op.apply t = some u) : Regular (ops ++ [op]) u := by
  obtain ⟨u',hu',hcounted,hmap⟩ := op.apply_spec h.counted
  obtain rfl := some.inj (hu'.symm.trans hu)
  refine ⟨hcounted,?_,fun b => ?_⟩
  · cases op with
    | add S start stop hle ptr clientId => exact merged_add h.counted hle h.merged hu
    | remove S start stop hle =>
      have hkept : Kept (recordedId t) t.nodes := ⟨h.merged,owned_recordedId h.counted.separate⟩
      exact (kept_segTreeRemove h.counted hkept hle hu).merged
    | clear =>
      rw [← some.inj hu,segTreeClear_nodes]
      exact merged_nil
  · have hw := h.written b
    rw [lastWriter_concat,hmap]
    cases op with
    | add S start stop hle ptr clientId =>
      simp only [SegOp.overwrite,ownersAfter]
      split
      · rfl
      · exact hw
    | remove S start stop hle =>
      simp only [SegOp.overwrite,ownersAfter]
      split
      · rfl
      · exact hw
    | clear => rfl

/-- A call leaves the clients right exactly if it is not an addition that touches a node of
another client. -/
theorem Regular.owned_step_iff (h : Regular ops t) (how : Owned (lastWriter ops) t.nodes)
    (hu : op.apply t = some u) : Owned (lastWriter (ops ++ [op])) u.nodes ↔ KeepsOwners t op := by
  rw [lastWriter_concat]
  cases op with
  | add S start stop hle ptr clientId =>
    exact owned_add_iff h.counted hle how hu
  | remove S start stop hle =>
    refine iff_of_true (fun m hm b hb => ?_) trivial
    have hkept := kept_segTreeRemove h.counted ⟨h.merged,how⟩ hle hu
    obtain ⟨u',hu',-,hmap,-⟩ := segTreeRemove_spec S h.counted hle
    obtain rfl := some.inj (hu'.symm.trans hu)
    -- no node holds a byte of the range that was removed
    have hout : ¬ (start ≤ b ∧ b ≤ stop) := by
      intro hin
      have hnone := hmap b
      rw [if_pos hin] at hnone
      exact contents_eq_none_iff.mp hnone m hm hb
    exact (if_neg hout).trans (hkept.owned m hm b hb)
  | clear =>
    rw [← some.inj hu,segTreeClear_nodes]
    exact iff_of_true (fun _ hm => by cases hm) trivial

end Steps

/-- Every history runs to its end. In each of its states the recorded client ids are those of the
last writers exactly if every addition of it touches nodes of its own client only. -/
theorem recorded_ids_iff (ops : List SegOp) : ∃ t,
    Run SegOp.apply (fun _ _ => True) segTreeInit ops t ∧
    ((∀ pre u, pre <+: ops → Run SegOp.apply (fun _ _ => True) segTreeInit pre u →
      recordedId u = lastWriter pre) ↔ Run SegOp.apply KeepsOwners segTreeInit ops t) := by
  obtain ⟨t,ht,-⟩ := foldlM_apply_spec segTreeInit_counted ops
  have hrun := Run.of_foldlM ht
  have hall := hrun.always_iff_guard KeepsOwners (fun _ _ _ _ h hv => h.step hv)
    (fun _ _ _ _ h how hv => h.owned_step_iff how hv) regular_init fun _ hm => by cases hm
  refine ⟨t,hrun,Iff.trans ?_ hall⟩
  refine forall₂_congr fun pre u => forall₂_congr fun _ hpre => ?_
  have hregular := hpre.history (fun _ _ _ _ h _ hv => h.step hv) regular_init
  exact recordedId_eq_iff hregular.counted.separate hregular.written

instance (t : RangeTree LogPtr) : (op : SegOp) → Decidable (KeepsOwners t op)
  | .add _ _ _ _ _ clientId =>
    inferInstanceAs (Decidable (∀ m ∈ t.nodes, _ → m.info.clientId = clientId))
  | .remove .. => inferInstanceAs (Decidable True)
  | .clear => inferInstanceAs (Decidable True)

/-- Two clients write side by side, one of them overwrites a part of its own, and a part of the
other's is removed. -/
def sideBySide : List SegOp :=
  [.add .first 0 7 (Nat.le_add_left 0 7) 0 1,.add .first 8 15 (by decide) 100 2,
    .add .first 2 3 (by decide) 50 1,.remove .first 9 10 (by decide)]

theorem recorded_ids_side_by_side : ∃ t,
    Run SegOp.apply (fun _ _ => True) segTreeInit sideBySide t ∧
    ∀ pre u, pre <+: sideBySide → Run SegOp.apply (fun _ _ => True) segTreeInit pre u →
      recordedId u = lastWriter pre := by
  have hexec : (exec SegOp.apply (fun t op => decide (KeepsOwners t op)) segTreeInit
      sideBySide).any (fun _ => true) = true := by decide +kernel
  obtain ⟨t',hkeeps,-⟩ := Run.exists_of_exec hexec
  have hkeeps' := hkeeps.weaken fun _ _ hop => of_decide_eq_true hop
  obtain ⟨t,hrun,hiff⟩ := recorded_ids_iff sideBySide
  obtain rfl := (hkeeps'.weaken fun _ _ _ => trivial).unique hrun
  exact ⟨t',hrun,hiff.mpr hkeeps'⟩

/-- Client 2 overwrites the middle of what client 1 wrote: the first byte is now recorded under
client 2. -/
theorem cut_changes_owner : ∃ t,
    Run SegOp.apply (fun _ _ => True) segTreeInit
      [.add .first 0 3 (by decide) 0 1,.add .first 1 2 (by decide) 100 2] t ∧
    recordedId t 0 = some 2 ∧
    lastWriter [.add .first 0 3 (by decide) 0 1,.add .first 1 2 (by decide) 100 2] 0 = some 1 := by
  have hexec : (exec SegOp.apply (fun _ _ => true) segTreeInit
      [.add .first 0 3 (by decide) 0 1,.add .first 1 2 (by decide) 100 2]).any
      (fun t => decide (recordedId t 0 = some 2)) = true := by decide +kernel
  obtain ⟨t,hrun,hid⟩ := Run.exists_of_exec hexec
  exact ⟨t,hrun.weaken fun _ _ _ => trivial,of_decide_eq_true hid,by decide⟩

end UnifyFS.SegTreeOwners
