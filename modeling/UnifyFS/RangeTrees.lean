import UnifyFS.RangeLists
import Mathlib.Algebra.BigOperators.Group.List.Basic

/-!
# Search trees of ranges that are overwritten

A search tree whose comparison calls overlapping ranges equal is an ordered set
of ranges without overlap. A new range is inserted by clearing its conflicts one
at a time: the search stops at some range that overlaps the new one, which is
removed, and the parts of it that stick out come back as ranges of their own. The
range that was inserted is then joined with its neighbours where the information
of both continues. Which conflict a search meets first depends on the shape of
the tree, so it is left open here, for each insertion anew.
-/
namespace UnifyFS.RangeTrees
open RangeLists List

/-- What a tree stores about its ranges. `cut new old k` is the information for the
part of a range with information `old` that starts `k` places into it, when a
range with information `new` makes the cut; `joins p len q` is the test whether
`q` continues `p` after `len` places. -/
structure Layout (P V : Type*) where
  val : P → ℕ → V
  cut : P → P → ℕ → P
  joins : P → ℕ → P → Bool
  val_cut : ∀ new old k j, val (cut new old k) j = val old (k + j)
  val_join : ∀ p len q, joins p len q = true → ∀ j, val q j = val p (len + j)

/-- A search for a range in a tree: it finds an overlapping range if there is one. -/
structure Picker (P : Type*) where
  pick : List (Range P) → Range P → Option (Range P)
  meets : ∀ l n c, Separate l → pick l n = some c → c ∈ l ∧ c.Meets n
  exhausts : ∀ l n, Separate l → pick l n = none → ∀ c ∈ l, ¬ c.Meets n

structure RangeTree (P : Type*) where
  nodes : List (Range P)
  count : ℕ
  max : ℕ
  deriving DecidableEq, Repr

variable {P V : Type*}

def Picker.first : Picker P where
  pick l n := l.find? fun c => decide (c.Meets n)
  meets _ _ _ _ h := ⟨List.mem_of_find?_eq_some h,by simpa using List.find?_some h⟩
  exhausts _ _ _ h := by simpa using h

/-- A range is not inserted where the search meets a conflict. -/
def Picker.insert (S : Picker P) (l : List (Range P)) (n : Range P) : List (Range P) :=
  match S.pick l n with
  | some _ => l
  | none => place n l

/-- The first part of `[start1, end1]` outside `[start2, end2]`, given that they overlap. -/
def getNonOverlappingRange (start1 end1 start2 end2 : ℕ) : Option (ℕ × ℕ) :=
  if start1 < start2 then some (start1,start2 - 1)
  else if end2 < end1 then some (end2 + 1,end1)
  else none

section Add
variable (K : Layout P V) (S : Picker P)

/-- The ranges that replace the conflict `c` of a new range `n`: the first part of `c`
outside `n`, and if this is the front of `c`, the whole remainder, which is looked
at again. -/
def pieces (n c : Range P) : List (Range P) :=
  match getNonOverlappingRange c.start c.stop n.start n.stop with
  | none => []
  | some (lo,hi) =>
    let kept : Range P := ⟨lo,hi,K.cut n.info c.info (lo - c.start)⟩
    if hi < c.stop then
      [kept,⟨hi + 1,c.stop,K.cut n.info c.info (hi + 1 - c.start)⟩]
    else [kept]

def resolve [DecidableEq P] (n c : Range P) (t : RangeTree P) : RangeTree P :=
  { t with
    nodes := (pieces K n c).foldl S.insert (t.nodes.erase c)
    count := t.count - 1 + (pieces K n c).length }

/-- The loop around the insertion; `none` when it has not ended after so many rounds. -/
def clearConflicts [DecidableEq P] (n : Range P) : ℕ → RangeTree P → Option (RangeTree P)
  | 0, _ => none
  | fuel + 1, t =>
    match S.pick t.nodes n with
    | none => some t
    | some c => clearConflicts n fuel (resolve K S n c t)

def joinPrev (pre : List (Range P)) (n : Range P) (count : ℕ) :
    List (Range P) × Range P × ℕ :=
  match pre.getLast? with
  | none => (pre,n,count)
  | some p =>
    if p.stop + 1 = n.start ∧ K.joins p.info p.length n.info = true then
      (pre.dropLast,{ p with stop := n.stop },count - 1)
    else (pre,n,count)

def joinNext (n : Range P) (post : List (Range P)) (count : ℕ) : List (Range P) × ℕ :=
  match post with
  | [] => ([n],count)
  | q :: rest =>
    if n.stop + 1 = q.start ∧ K.joins n.info n.length q.info = true then
      ({ n with stop := q.stop } :: rest,count - 1)
    else (n :: q :: rest,count)

def RangeTree.add [DecidableEq P] (t : RangeTree P) (n : Range P) : Option (RangeTree P) :=
  match clearConflicts K S n (2 * t.nodes.length + 1) t with
  | none => none
  | some t =>
    let pre := t.nodes.takeWhile fun m => decide (m.stop < n.start)
    let post := t.nodes.dropWhile fun m => decide (m.stop < n.start)
    let (pre,target,count) := joinPrev K pre n (t.count + 1)
    let (rest,count) := joinNext K target post count
    some { nodes := pre ++ rest, count := count, max := Max.max t.max n.stop }

end Add

variable {K : Layout P V} {S : Picker P} {l : List (Range P)} {n c p : Range P} {b : ℕ}

theorem pieces_cases (hmeet : c.Meets n) : (c.start < n.start ∧ pieces K n c =
      [⟨c.start,n.start - 1,K.cut n.info c.info 0⟩,
        ⟨n.start,c.stop,K.cut n.info c.info (n.start - c.start)⟩]) ∨
    (n.start ≤ c.start ∧ n.stop < c.stop ∧ pieces K n c =
      [⟨n.stop + 1,c.stop,K.cut n.info c.info (n.stop + 1 - c.start)⟩]) ∨
    (n.start ≤ c.start ∧ c.stop ≤ n.stop ∧ pieces K n c = []) := by
  unfold Range.Meets at hmeet
  unfold pieces getNonOverlappingRange
  by_cases hlead : c.start < n.start
  · left
    have hone : n.start - 1 + 1 = n.start := by omega
    have hlt : n.start - 1 < c.stop := by omega
    refine ⟨hlead,?_⟩
    simp only [if_pos hlead,if_pos hlt,hone,Nat.sub_self]
  · right
    by_cases htrail : n.stop < c.stop
    · left
      refine ⟨Nat.le_of_not_lt hlead,htrail,?_⟩
      simp only [if_neg hlead,if_pos htrail,Nat.lt_irrefl,if_false]
    · right
      refine ⟨Nat.le_of_not_lt hlead,Nat.le_of_not_lt htrail,?_⟩
      simp only [if_neg hlead,if_neg htrail]

theorem cut_value {lo hi : ℕ} (hlo : c.start ≤ lo) (hb : lo ≤ b) :
    (⟨lo,hi,K.cut n.info c.info (lo - c.start)⟩ : Range P).value K.val b = c.value K.val b := by
  simp only [Range.value]
  rw [K.val_cut]
  congr 1
  omega

theorem mem_pieces (hmeet : c.Meets n) (hp : p ∈ pieces K n c) :
    c.start ≤ p.start ∧ p.start ≤ p.stop ∧ p.stop ≤ c.stop ∧
      ∀ b, p.Holds b → p.value K.val b = c.value K.val b := by
  have hm := hmeet
  unfold Range.Meets at hm
  rcases pieces_cases hmeet with ⟨hlead,heq⟩ | ⟨hlead,htrail,heq⟩ | ⟨-,-,heq⟩
  · rw [heq,mem_cons,mem_singleton] at hp
    cases hp with
    | inl hp =>
      subst hp
      refine ⟨Nat.le_refl _,?_,?_,?_⟩
      · change c.start ≤ n.start - 1
        omega
      · change n.start - 1 ≤ c.stop
        omega
      · intro b hb
        have hcut : (⟨c.start,n.start - 1,K.cut n.info c.info (c.start - c.start)⟩ :
            Range P).value K.val b = c.value K.val b := cut_value (Nat.le_refl _) hb.1
        rwa [Nat.sub_self] at hcut
    | inr hp =>
      subst hp
      exact ⟨Nat.le_of_lt hlead,hm.2,Nat.le_refl _,fun b hb => cut_value (Nat.le_of_lt hlead) hb.1⟩
  · rw [heq,mem_singleton] at hp
    subst hp
    have hle : c.start ≤ n.stop + 1 := by omega
    exact ⟨hle,htrail,Nat.le_refl _,fun b hb => cut_value hle hb.1⟩
  · rw [heq] at hp
    cases hp

theorem pieces_separate (hmeet : c.Meets n) : Separate (pieces K n c) := by
  have hmem : ∀ p ∈ pieces K n c, p.start ≤ p.stop := fun p hp => (mem_pieces hmeet hp).2.1
  refine ⟨?_,hmem⟩
  rcases pieces_cases hmeet with ⟨hlead,heq⟩ | ⟨-,-,heq⟩ | ⟨-,-,heq⟩
  · rw [heq,pairwise_pair]
    change n.start - 1 < n.start
    omega
  · rw [heq]
    exact pairwise_singleton _ _
  · rw [heq]
    exact List.Pairwise.nil

theorem pieces_hold (hmeet : c.Meets n) (hb : c.Holds b) (hnb : ¬ n.Holds b) :
    ∃ p ∈ pieces K n c, p.Holds b := by
  unfold Range.Holds at hb hnb
  rcases pieces_cases hmeet with ⟨hlead,heq⟩ | ⟨hlead,htrail,heq⟩ | ⟨hlead,htrail,heq⟩
  · rw [heq]
    by_cases hlt : b < n.start
    · refine ⟨_,mem_cons_self,hb.1,?_⟩
      change b ≤ n.start - 1
      omega
    · exact ⟨_,mem_cons_of_mem _ mem_cons_self,Nat.le_of_not_lt hlt,hb.2⟩
  · rw [heq]
    refine ⟨_,mem_cons_self,?_,hb.2⟩
    change n.stop + 1 ≤ b
    omega
  · omega

section Resolve

theorem perm_place (n : Range P) (l : List (Range P)) : (place n l).Perm (n :: l) := by
  have h := takeWhile_append_dropWhile (p := fun m => decide (m.stop < n.start)) (l := l)
  refine perm_middle.trans (List.Perm.cons n ?_)
  rw [h]

theorem insert_eq_place (hl : Separate l) (hmeet : ∀ m ∈ l, ¬ m.Meets n) :
    S.insert l n = place n l := by
  unfold Picker.insert
  split
  · next c hc =>
    have := S.meets _ _ _ hl hc
    exact absurd this.2 (hmeet c this.1)
  · rfl

theorem foldl_insert (ps : List (Range P)) (hl : Separate l) (hps : Separate ps)
    (hmeet : ∀ p ∈ ps, ∀ m ∈ l, ¬ m.Meets p) :
    Separate (ps.foldl S.insert l) ∧ (ps.foldl S.insert l).Perm (ps ++ l) := by
  induction ps generalizing l with
  | nil => exact ⟨hl,List.Perm.refl _⟩
  | cons p ps ih =>
    have hp := hmeet p mem_cons_self
    have hlt : ∀ q ∈ ps, p.stop < q.start := fun _ => rel_of_pairwise_cons hps.ordered
    have hpl := separate_place hl (hps.start_le p mem_cons_self) hp
    have hrest : ∀ q ∈ ps, ∀ m ∈ place p l, ¬ m.Meets q := by
      intro q hq m hm
      cases mem_place.mp hm with
      | inl heq =>
        have := hlt q hq
        unfold Range.Meets
        rw [heq]
        omega
      | inr hm => exact hmeet q (mem_cons_of_mem _ hq) m hm
    obtain ⟨hsep,hperm⟩ := ih hpl hps.tail hrest
    rw [foldl_cons,insert_eq_place hl hp]
    refine ⟨hsep,hperm.trans ?_⟩
    exact ((perm_place p l).append_left ps).trans perm_middle

variable [DecidableEq P] {t : RangeTree P}

section
variable (hl : Separate t.nodes) (hc : c ∈ t.nodes) (hmeet : c.Meets n)
include hl hc hmeet

theorem resolve_spec : Separate (resolve K S n c t).nodes ∧
      (resolve K S n c t).nodes.Perm (pieces K n c ++ t.nodes.erase c) := by
  apply foldl_insert (pieces K n c) (hl.sublist erase_sublist) (pieces_separate hmeet)
  intro p hp m hm hmp
  obtain ⟨hne,hm⟩ := hl.nodup.mem_erase_iff.mp hm
  obtain ⟨hlo,hle,hhi,-⟩ := mem_pieces hmeet hp
  -- an address that `m` shares with the piece is one that it shares with `c`
  obtain ⟨b,hmb,hpb⟩ := hmp.exists_holds (hl.start_le m hm) hle
  exact hne (hl.eq_of_holds hm hc hmb ⟨hlo.trans hpb.1,hpb.2.trans hhi⟩)

theorem mem_resolve {m : Range P} :
    m ∈ (resolve K S n c t).nodes ↔ m ∈ pieces K n c ∨ m ≠ c ∧ m ∈ t.nodes := by
  rw [(resolve_spec (S := S) hl hc hmeet).2.mem_iff,mem_append,hl.nodup.mem_erase_iff]

theorem contents_resolve_of_kept (hkept : c.Holds b → ∃ p ∈ pieces K n c, p.Holds b) :
    contents K.val (resolve K S n c t).nodes b = contents K.val t.nodes b := by
  apply (resolve_spec (S := S) hl hc hmeet).1.contents_congr hl
  · intro m hm hmb
    cases (mem_resolve hl hc hmeet).mp hm with
    | inl hp =>
      obtain ⟨hlo,-,hhi,hval⟩ := mem_pieces hmeet hp
      have hcb : c.Holds b := ⟨hlo.trans hmb.1,hmb.2.trans hhi⟩
      exact ⟨c,hc,hcb,(hval b hmb).symm⟩
    | inr hm => exact ⟨m,hm.2,hmb,rfl⟩
  · intro m hm hmb
    by_cases heq : m = c
    · obtain ⟨p,hp,hpb⟩ := hkept (heq ▸ hmb)
      exact ⟨p,(mem_resolve hl hc hmeet).mpr (.inl hp),hpb⟩
    · exact ⟨m,(mem_resolve hl hc hmeet).mpr (.inr ⟨heq,hm⟩),hmb⟩

theorem contents_resolve (hb : ¬ n.Holds b) :
    contents K.val (resolve K S n c t).nodes b = contents K.val t.nodes b :=
  contents_resolve_of_kept hl hc hmeet fun hcb => pieces_hold hmeet hcb hb

end

theorem sum_resolve (g : Range P → ℕ) (hl : Separate t.nodes) (hc : c ∈ t.nodes)
    (hmeet : c.Meets n) : ((resolve K S n c t).nodes.map g).sum + g c =
      (t.nodes.map g).sum + ((pieces K n c).map g).sum := by
  have hnew := ((resolve_spec (K := K) (S := S) hl hc hmeet).2.map g).sum_eq
  have hold := ((perm_cons_erase hc).map g).sum_eq
  rw [map_append,sum_append] at hnew
  rw [map_cons,sum_cons] at hold
  omega

end Resolve

section Clear

/-- The rounds that a range still needs: two when it begins before the new range. -/
def rounds (n m : Range P) : ℕ :=
  if m.Meets n then if m.start < n.start then 2 else 1 else 0

/-- A range counts, and counts twice as long as it may still be split. -/
def room (n m : Range P) : ℕ := if m.Meets n ∧ m.start < n.start then 2 else 1

theorem rounds_pieces (hmeet : c.Meets n) : ((pieces K n c).map (rounds n)).sum < rounds n c := by
  have hm := hmeet
  unfold Range.Meets at hm
  rcases pieces_cases (K := K) hmeet with ⟨hlead,heq⟩ | ⟨hlead,htrail,heq⟩ | ⟨hlead,htrail,heq⟩
  · have hkept : ¬ n.start ≤ n.start - 1 := by omega
    simp only [heq,rounds,Range.Meets,map_cons,map_nil,sum_cons,sum_nil,hlead,
      hkept,hm,and_self,and_false,if_true,if_false,Nat.lt_irrefl]
    split <;> omega
  · have hout : ¬ n.stop + 1 ≤ n.stop := by omega
    simp [heq,rounds,Range.Meets,Nat.not_lt.mpr hlead,hm,hout]
  · simp [heq,rounds,Range.Meets,Nat.not_lt.mpr hlead,hm]

theorem room_pieces (hmeet : c.Meets n) : ((pieces K n c).map (room n)).sum ≤ room n c := by
  have hm := hmeet
  unfold Range.Meets at hm
  rcases pieces_cases (K := K) hmeet with ⟨hlead,heq⟩ | ⟨hlead,htrail,heq⟩ | ⟨hlead,htrail,heq⟩
  · have hkept : ¬ n.start ≤ n.start - 1 := by omega
    simp [heq,room,Range.Meets,hlead,hkept,hm]
  · have hout : ¬ n.stop + 1 ≤ n.stop := by omega
    simp [heq,room,Range.Meets,Nat.not_lt.mpr hlead,hout]
  · simp [heq]

theorem sum_rounds_le (n : Range P) (l : List (Range P)) :
    (l.map (rounds n)).sum ≤ 2 * l.length := by
  induction l with
  | nil => exact Nat.le_refl _
  | cons m l ih =>
    have hm : rounds n m ≤ 2 := by
      unfold rounds
      split_ifs <;> omega
    rw [map_cons,sum_cons,length_cons]
    omega

theorem length_le_sum_room (n : Range P) (l : List (Range P)) :
    l.length ≤ (l.map (room n)).sum := by
  induction l with
  | nil => exact Nat.le_refl _
  | cons m l ih =>
    have hm : 1 ≤ room n m := by
      unfold room
      split_ifs <;> omega
    rw [map_cons,sum_cons,length_cons]
    omega

/-- Only one range of the list can begin before the new range and reach into it. -/
theorem sum_room_le (hl : Separate l) : (l.map (room n)).sum ≤ l.length + 1 := by
  induction l with
  | nil => exact Nat.zero_le _
  | cons m l ih =>
    rw [map_cons,sum_cons,length_cons]
    by_cases hm : m.Meets n ∧ m.start < n.start
    · have hrest : l.map (room n) = l.map fun _ => 1 := by
        apply map_congr_left
        intro k hk
        have hlt := rel_of_pairwise_cons hl.ordered hk
        have hmeet := hm.1.2
        exact if_neg fun hk => by omega
      have hsum : (l.map (room n)).sum = l.length := by
        rw [hrest]
        simp
      have hroom : room n m = 2 := if_pos hm
      omega
    · have hroom : room n m = 1 := if_neg hm
      have := ih hl.tail
      omega

variable [DecidableEq P] {t : RangeTree P}

structure RangeTree.Counted (t : RangeTree P) : Prop where
  separate : Separate t.nodes
  count_eq : t.count = t.nodes.length

theorem RangeTree.Counted.resolve (ht : t.Counted) (hc : c ∈ t.nodes) (hmeet : c.Meets n) :
    (resolve K S n c t).Counted := by
  obtain ⟨hsep,hperm⟩ := resolve_spec (K := K) (S := S) ht.separate hc hmeet
  refine ⟨hsep,?_⟩
  rw [hperm.length_eq,length_append,length_erase_of_mem hc,← ht.count_eq]
  exact Nat.add_comm _ _

/-- The loop ends. It leaves no conflict, nothing outside the new range has
changed, and at most one range more is there than before. -/
theorem clearConflicts_spec (fuel : ℕ) (ht : t.Counted)
    (hfuel : (t.nodes.map (rounds n)).sum < fuel) :
    ∃ u, clearConflicts K S n fuel t = some u ∧ u.Counted ∧ u.max = t.max ∧
      (∀ m ∈ u.nodes, ¬ m.Meets n) ∧ u.nodes.length ≤ (t.nodes.map (room n)).sum ∧
      ∀ b, ¬ n.Holds b → contents K.val u.nodes b = contents K.val t.nodes b := by
  induction fuel generalizing t with
  | zero => omega
  | succ fuel ih =>
    rw [clearConflicts]
    cases hpick : S.pick t.nodes n with
    | none =>
      exact ⟨t,rfl,ht,rfl,S.exhausts _ _ ht.separate hpick,length_le_sum_room n t.nodes,
        fun _ _ => rfl⟩
    | some c =>
      obtain ⟨hc,hmeet⟩ := S.meets _ _ _ ht.separate hpick
      have hrounds := sum_resolve (K := K) (S := S) (rounds n) ht.separate hc hmeet
      have hroom := sum_resolve (K := K) (S := S) (room n) ht.separate hc hmeet
      have hless := rounds_pieces (K := K) hmeet
      have hmore := room_pieces (K := K) hmeet
      obtain ⟨u,hu,hcounted,hmax,hclear,hlen,hsame⟩ :=
        ih (ht.resolve (K := K) (S := S) hc hmeet) (by omega)
      refine ⟨u,hu,hcounted,hmax,hclear,by omega,?_⟩
      intro b hb
      rw [hsame b hb,contents_resolve ht.separate hc hmeet hb]

end Clear

section Join
variable {pre post : List (Range P)}

theorem contents_join (hp : p.start ≤ p.stop) (hn : n.start ≤ n.stop) (hadj : p.stop + 1 = n.start)
    (hjoin : K.joins p.info p.length n.info = true) (l : List (Range P)) (b : ℕ) :
    contents K.val ({ p with stop := n.stop } :: l) b = contents K.val (p :: n :: l) b := by
  have hsplit : ({ p with stop := n.stop } : Range P).Holds b ↔ p.Holds b ∨ n.Holds b := by
    change p.start ≤ b ∧ b ≤ n.stop ↔ (p.start ≤ b ∧ b ≤ p.stop) ∨ n.start ≤ b ∧ b ≤ n.stop
    omega
  rw [contents_cons,contents_cons,contents_cons]
  by_cases hpb : p.Holds b
  · rw [if_pos hpb,if_pos (hsplit.mpr (.inl hpb))]
    rfl
  · rw [if_neg hpb]
    by_cases hnb : n.Holds b
    · rw [if_pos hnb,if_pos (hsplit.mpr (.inr hnb))]
      -- `b` lies `b - n.start` places after the length of `p`
      have hplace : b - p.start = p.length + (b - n.start) := by
        have := hnb.1
        unfold Range.length
        omega
      change some (K.val p.info (b - p.start)) = some (K.val n.info (b - n.start))
      rw [hplace,K.val_join _ _ _ hjoin]
    · rw [if_neg hnb,if_neg (hsplit.not.mpr (not_or.mpr ⟨hpb,hnb⟩))]

theorem Separate.join {l : List (Range P)} (h : Separate (p :: n :: l)) :
    Separate ({ p with stop := n.stop } :: l) := by
  have hp := h.start_le p mem_cons_self
  have hn := h.start_le n (mem_cons_of_mem _ mem_cons_self)
  have hpn := rel_of_pairwise_cons h.ordered (mem_cons_self (l := l))
  apply h.tail.tail.cons
  · change p.start ≤ n.stop
    omega
  · intro m hm
    exact rel_of_pairwise_cons h.tail.ordered hm

/-- What joining must leave: the order, the map, the count. -/
structure Joined (K : Layout P V) (old new : List (Range P)) (before after : ℕ) : Prop where
  separate : Separate new
  same : ∀ b, contents K.val new b = contents K.val old b
  count_eq : before = old.length → after = new.length
  length_le : new.length ≤ old.length

theorem Joined.trans {l₁ l₂ l₃ : List (Range P)} {c₁ c₂ c₃ : ℕ} (h : Joined K l₁ l₂ c₁ c₂)
    (h' : Joined K l₂ l₃ c₂ c₃) : Joined K l₁ l₃ c₁ c₃ where
  separate := h'.separate
  same b := (h'.same b).trans (h.same b)
  count_eq hc := h'.count_eq (h.count_eq hc)
  length_le := h'.length_le.trans h.length_le

theorem Joined.refl {l : List (Range P)} (h : Separate l) (count : ℕ) : Joined K l l count count :=
  ⟨h,fun _ => rfl,id,Nat.le_refl _⟩

theorem joined_of_joins (count : ℕ) (h : Separate (pre ++ p :: n :: post))
    (hadj : p.stop + 1 = n.start) (hjoin : K.joins p.info p.length n.info = true) :
    Joined K (pre ++ p :: n :: post) (pre ++ { p with stop := n.stop } :: post)
      count (count - 1) := by
  obtain ⟨hpre,hrest,hlt⟩ := h.of_append
  have hp := hrest.start_le p mem_cons_self
  have hn := hrest.start_le n (mem_cons_of_mem _ mem_cons_self)
  refine ⟨hpre.append (Separate.join hrest) ?_,?_,?_,?_⟩
  · intro m hm k hk
    cases mem_cons.mp hk with
    | inl heq =>
      rw [heq]
      exact hlt m hm p mem_cons_self
    | inr hk => exact hlt m hm k (mem_cons_of_mem _ (mem_cons_of_mem _ hk))
  · intro b
    rw [contents_append,contents_append,contents_join hp hn hadj hjoin]
  · intro hcount
    simp only [hcount,length_append,length_cons]
    omega
  · simp only [length_append,length_cons]
    omega

theorem joinPrev_spec (count : ℕ) (h : Separate (pre ++ n :: post)) : Joined K (pre ++ n :: post)
      ((joinPrev K pre n count).1 ++ (joinPrev K pre n count).2.1 :: post)
      count (joinPrev K pre n count).2.2 := by
  unfold joinPrev
  split
  · exact .refl h count
  · next p hlast =>
    split
    · next hjoin =>
      have hpre : pre ++ n :: post = pre.dropLast ++ p :: n :: post := by
        rw [← dropLast_append_getLast? p hlast,dropLast_concat,append_assoc]
        rfl
      rw [hpre] at h ⊢
      exact joined_of_joins count h hjoin.1 hjoin.2
    · exact .refl h count

theorem joinNext_spec (count : ℕ) (h : Separate (pre ++ n :: post)) :
    Joined K (pre ++ n :: post) (pre ++ (joinNext K n post count).1)
      count (joinNext K n post count).2 := by
  unfold joinNext
  split
  · exact .refl h count
  · split
    · next hjoin => exact joined_of_joins count h hjoin.1 hjoin.2
    · exact .refl h count

end Join

section Add
variable [DecidableEq P] {t : RangeTree P}

/-- The insertion ends, and the new range overwrites what was there. It adds at most
two ranges: itself, and the end of a range that it splits. -/
theorem RangeTree.add_spec (ht : t.Counted) (hn : n.start ≤ n.stop) :
    ∃ u, t.add K S n = some u ∧ u.Counted ∧ u.max = Max.max t.max n.stop ∧
      u.nodes.length ≤ t.nodes.length + 2 ∧ ∀ b, contents K.val u.nodes b =
        if n.Holds b then some (n.value K.val b) else contents K.val t.nodes b := by
  obtain ⟨u,hu,hcounted,hmax,hclear,hlen,hsame⟩ :=
    clearConflicts_spec (S := S) (n := n) (2 * t.nodes.length + 1) ht
      (Nat.lt_succ_of_le (sum_rounds_le n t.nodes))
  have hroom := sum_room_le (n := n) ht.separate
  have hplaced := separate_place hcounted.separate hn hclear
  have hprev := joinPrev_spec (K := K) (u.count + 1) hplaced
  have hall := hprev.trans (joinNext_spec _ hprev.separate)
  rw [RangeTree.add,hu]
  refine ⟨_,rfl,⟨hall.separate,?_⟩,?_,?_,?_⟩
  · apply hall.count_eq
    rw [hcounted.count_eq]
    exact length_place.symm
  · exact congrArg (Max.max · n.stop) hmax
  · have hplace : (place n u.nodes).length ≤ t.nodes.length + 2 := by
      rw [length_place]
      omega
    exact hall.length_le.trans hplace
  · intro b
    refine (hall.same b).trans ((contents_place hcounted.separate hn hclear).trans ?_)
    split
    · rfl
    · next hb => exact hsame b hb

theorem RangeTree.add_of_eq_some {u : RangeTree P} (ht : t.Counted) (hn : n.start ≤ n.stop)
    (h : t.add K S n = some u) : u.Counted ∧ ∀ b, contents K.val u.nodes b =
      if n.Holds b then some (n.value K.val b) else contents K.val t.nodes b := by
  obtain ⟨v,hv,hcounted,-,-,hmap⟩ := RangeTree.add_spec (S := S) ht hn
  obtain rfl : v = u := Option.some.inj (hv.symm.trans h)
  exact ⟨hcounted,hmap⟩

end Add
end UnifyFS.RangeTrees
