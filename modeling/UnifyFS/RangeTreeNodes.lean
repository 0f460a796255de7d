import UnifyFS.RangeTrees

/-!
# The single ranges of a search tree

The map that a tree stands for says nothing about how it is divided into ranges.
Two facts about the division: a property of ranges that survives cutting and
joining holds of all ranges after an insertion if it held of all before; and
neighbouring addresses whose values follow each other end up in one range when one
of them is inserted.
-/
namespace UnifyFS.RangeTrees
open RangeLists List

variable {P V : Type*} {K : Layout P V} {S : Picker P}

/-- The ranges in front of the place of `n`, and those behind it. -/
def front (n : Range P) (l : List (Range P)) : List (Range P) :=
  l.takeWhile fun m => decide (m.stop < n.start)

def back (n : Range P) (l : List (Range P)) : List (Range P) :=
  l.dropWhile fun m => decide (m.stop < n.start)

theorem front_sublist (n : Range P) (l : List (Range P)) : (front n l).Sublist l :=
  takeWhile_sublist _

theorem back_sublist (n : Range P) (l : List (Range P)) : (back n l).Sublist l :=
  dropWhile_sublist _

section Origins
variable {n c p : Range P} {pre post : List (Range P)}

theorem cut_of_mem_pieces (hmeet : c.Meets n) (hp : p ∈ pieces K n c) :
    ∃ k, p.info = K.cut n.info c.info k := by
  rcases pieces_cases hmeet with ⟨-,heq⟩ | ⟨-,-,heq⟩ | ⟨-,-,heq⟩
  · rw [heq,mem_cons,mem_singleton] at hp
    rcases hp with rfl | rfl
    · exact ⟨_,rfl⟩
    · exact ⟨_,rfl⟩
  · rw [heq,mem_singleton] at hp
    rw [hp]
    exact ⟨_,rfl⟩
  · rw [heq] at hp
    cases hp

theorem joinPrev_stop (count : ℕ) : (joinPrev K pre n count).2.1.stop = n.stop := by
  unfold joinPrev
  split
  · rfl
  · split <;> rfl

theorem joinPrev_origin (pre : List (Range P)) (n : Range P) (count : ℕ) :
    (∀ m ∈ (joinPrev K pre n count).1, m ∈ pre) ∧
    ((joinPrev K pre n count).2.1 = n ∨ ∃ p ∈ pre, p.stop + 1 = n.start ∧
      K.joins p.info p.length n.info = true ∧
      (joinPrev K pre n count).2.1 = { p with stop := n.stop }) := by
  unfold joinPrev
  split
  · exact ⟨fun _ => id,.inl rfl⟩
  · next p hlast =>
    split
    · next h =>
      exact ⟨fun m hm => (dropLast_sublist pre).mem hm,.inr ⟨p,mem_of_getLast? hlast,h.1,h.2,rfl⟩⟩
    · exact ⟨fun _ => id,.inl rfl⟩

theorem joinNext_origin (count : ℕ) : ∀ m ∈ (joinNext K n post count).1, m = n ∨ m ∈ post ∨
    ∃ q ∈ post, n.stop + 1 = q.start ∧ K.joins n.info n.length q.info = true ∧
      m = { n with stop := q.stop } := by
  unfold joinNext
  split
  · exact fun m hm => .inl (mem_singleton.mp hm)
  · next q rest =>
    split
    · next h =>
      intro m hm
      cases mem_cons.mp hm with
      | inl heq => exact .inr (.inr ⟨q,mem_cons_self,h.1,h.2,heq⟩)
      | inr hm => exact .inr (.inl (mem_cons_of_mem q hm))
    · intro m hm
      cases mem_cons.mp hm with
      | inl heq => exact .inl heq
      | inr hm => exact .inr (.inl hm)

variable [DecidableEq P] {t u : RangeTree P}

theorem clearConflicts_forall {Q : Range P → Prop} (fuel : ℕ) (ht : t.Counted)
    (hcut : ∀ c, Q c → c.Meets n → ∀ p ∈ pieces K n c, Q p)
    (hu : clearConflicts K S n fuel t = some u) (hall : ∀ m ∈ t.nodes, Q m) :
    ∀ m ∈ u.nodes, Q m := by
  induction fuel generalizing t with
  | zero => cases hu
  | succ fuel ih =>
    rw [clearConflicts] at hu
    split at hu
    · cases hu
      exact hall
    · next c hpick =>
      obtain ⟨hc,hmeet⟩ := S.meets _ _ _ ht.separate hpick
      apply ih (ht.resolve hc hmeet) hu
      intro m hm
      cases (mem_resolve ht.separate hc hmeet).mp hm with
      | inl hp => exact hcut c (hall c hc) hmeet m hp
      | inr hm => exact hall m hm.2

theorem mem_cleared (fuel : ℕ) (ht : t.Counted) (hu : clearConflicts K S n fuel t = some u) :
    ∀ m ∈ u.nodes, m ∈ t.nodes ∨ ∃ c ∈ t.nodes, c.Meets n ∧ c.start ≤ m.start ∧ m.stop ≤ c.stop ∧
      ∃ old k, m.info = K.cut n.info old k := by
  refine clearConflicts_forall fuel ht ?_ hu fun m hm => .inl hm
  intro c hc hmeet p hp
  obtain ⟨hlo,-,hhi,-⟩ := mem_pieces hmeet hp
  obtain ⟨k,hcut⟩ := cut_of_mem_pieces hmeet hp
  rcases hc with hc | ⟨d,hd,hdn,hlo',hhi',-⟩
  · exact .inr ⟨c,hc,hmeet,hlo,hhi,_,k,hcut⟩
  · exact .inr ⟨d,hd,hdn,hlo'.trans hlo,hhi.trans hhi',_,k,hcut⟩

theorem RangeTree.add_nodes (hu : t.add K S n = some u) :
    ∃ v, clearConflicts K S n (2 * t.nodes.length + 1) t = some v ∧
      let prev := joinPrev K (front n v.nodes) n (v.count + 1)
      u.nodes = prev.1 ++ (joinNext K prev.2.1 (back n v.nodes) prev.2.2).1 := by
  rw [RangeTree.add] at hu
  split at hu
  · cases hu
  · next v hv => exact ⟨v,hv,congrArg RangeTree.nodes (Option.some.inj hu).symm⟩

/-- After an insertion a range was there when the conflicts were cleared, or it is the new range,
possibly joined with the range before it and the range after it. -/
theorem RangeTree.mem_add (hu : t.add K S n = some u) :
    ∃ v, clearConflicts K S n (2 * t.nodes.length + 1) t = some v ∧ ∃ target,
      (target = n ∨ ∃ p ∈ v.nodes, p.stop + 1 = n.start ∧
        K.joins p.info p.length n.info = true ∧ target = { p with stop := n.stop }) ∧
      ∀ m ∈ u.nodes, m ∈ v.nodes ∨ m = target ∨ ∃ q ∈ v.nodes, n.stop + 1 = q.start ∧
        K.joins target.info target.length q.info = true ∧ m = { target with stop := q.stop } := by
  obtain ⟨v,hv,hnodes⟩ := RangeTree.add_nodes hu
  obtain ⟨hpre,htarget⟩ := joinPrev_origin (front n v.nodes) n (v.count + 1)
  refine ⟨v,hv,(joinPrev K (front n v.nodes) n (v.count + 1)).2.1,?_,fun m hm => ?_⟩
  · rcases htarget with htarget | ⟨p,hp,hjoin⟩
    · exact .inl htarget
    · exact .inr ⟨p,(front_sublist n v.nodes).mem hp,hjoin⟩
  · rw [hnodes,mem_append] at hm
    rcases hm with hm | hm
    · exact .inl ((front_sublist n v.nodes).mem (hpre m hm))
    · rcases joinNext_origin _ m hm with heq | hm | ⟨q,hq,hadj,hjoin,heq⟩
      · exact .inr (.inl heq)
      · exact .inl ((back_sublist n v.nodes).mem hm)
      · rw [joinPrev_stop] at hadj
        exact .inr (.inr ⟨q,(back_sublist n v.nodes).mem hq,hadj,hjoin,heq⟩)

end Origins

/-- Cutting with `n` and joining keep the property. -/
structure Closed (K : Layout P V) (n : Range P) (Q : Range P → Prop) : Prop where
  cut : ∀ c, Q c → c.Meets n → ∀ p ∈ pieces K n c, Q p
  join : ∀ p q, Q p → Q q → p.stop + 1 = q.start → K.joins p.info p.length q.info = true →
    Q { p with stop := q.stop }

theorem RangeTree.add_forall [DecidableEq P] {t u : RangeTree P} {n : Range P}
    {Q : Range P → Prop} (ht : t.Counted) (hclosed : Closed K n Q) (hu : t.add K S n = some u)
    (hall : ∀ m ∈ t.nodes, Q m) (hn : Q n) : ∀ m ∈ u.nodes, Q m := by
  obtain ⟨v,hv,target,htarget,hnodes⟩ := RangeTree.mem_add hu
  have hcleared := clearConflicts_forall _ ht hclosed.cut hv hall
  have hboth : Q target ∧ target.stop = n.stop := by
    rcases htarget with rfl | ⟨p,hp,hadj,hjoin,rfl⟩
    · exact ⟨hn,rfl⟩
    · exact ⟨hclosed.join p n (hcleared p hp) hn hadj hjoin,rfl⟩
  intro m hm
  rcases hnodes m hm with hm | rfl | ⟨q,hq,hadj,hjoin,rfl⟩
  · exact hcleared m hm
  · exact hboth.1
  · exact hclosed.join target q hboth.1 (hcleared q hq) (by rw [hboth.2]; exact hadj) hjoin

/-- One range has both the address and the next one. -/
def Together (l : List (Range P)) (b : ℕ) : Prop := ∃ m ∈ l, m.Holds b ∧ m.Holds (b + 1)

/-- Every range of the one list lies in one of the other. -/
def Coarser (l l' : List (Range P)) : Prop :=
  ∀ m ∈ l, ∃ m' ∈ l', m'.start ≤ m.start ∧ m.stop ≤ m'.stop

theorem Coarser.refl (l : List (Range P)) : Coarser l l :=
  fun m hm => ⟨m,hm,Nat.le_refl _,Nat.le_refl _⟩

theorem Coarser.trans {l₁ l₂ l₃ : List (Range P)} (h : Coarser l₁ l₂) (h' : Coarser l₂ l₃) :
    Coarser l₁ l₃ := by
  intro m hm
  obtain ⟨m',hm',hlo,hhi⟩ := h m hm
  obtain ⟨m'',hm'',hlo',hhi'⟩ := h' m' hm'
  exact ⟨m'',hm'',hlo'.trans hlo,hhi.trans hhi'⟩

theorem Together.coarser {l l' : List (Range P)} {b : ℕ} (h : Together l b) (hc : Coarser l l') :
    Together l' b := by
  obtain ⟨m,hm,hb,hb'⟩ := h
  obtain ⟨m',hm',hlo,hhi⟩ := hc m hm
  exact ⟨m',hm',⟨hlo.trans hb.1,hb.2.trans hhi⟩,⟨hlo.trans hb'.1,hb'.2.trans hhi⟩⟩

section Joins
variable {pre post : List (Range P)} {n : Range P}

theorem coarser_join {p : Range P} (h : Separate (pre ++ p :: n :: post))
    (hadj : p.stop + 1 = n.start) :
    Coarser (pre ++ p :: n :: post) (pre ++ { p with stop := n.stop } :: post) := by
  have hrest := h.of_append.2.1
  have hp := hrest.start_le p mem_cons_self
  have hn := hrest.start_le n (mem_cons_of_mem _ mem_cons_self)
  have hnew : ({ p with stop := n.stop } : Range P) ∈ pre ++ { p with stop := n.stop } :: post :=
    mem_append_right _ mem_cons_self
  intro m hm
  simp only [mem_append,mem_cons] at hm
  rcases hm with hm | rfl | rfl | hm
  · exact ⟨m,mem_append_left _ hm,Nat.le_refl _,Nat.le_refl _⟩
  · exact ⟨_,hnew,Nat.le_refl _,by change m.stop ≤ n.stop; omega⟩
  · exact ⟨_,hnew,by change p.start ≤ m.start; omega,Nat.le_refl _⟩
  · exact ⟨m,mem_append_right _ (mem_cons_of_mem _ hm),Nat.le_refl _,Nat.le_refl _⟩

theorem joinPrev_coarser (count : ℕ) (h : Separate (pre ++ n :: post)) : Coarser (pre ++ n :: post)
      ((joinPrev K pre n count).1 ++ (joinPrev K pre n count).2.1 :: post) := by
  unfold joinPrev
  split
  · exact .refl _
  · next p hlast =>
    split
    · next hjoin =>
      have hpre : pre ++ n :: post = pre.dropLast ++ p :: n :: post := by
        rw [← dropLast_append_getLast? p hlast,dropLast_concat,append_assoc]
        rfl
      rw [hpre] at h ⊢
      exact coarser_join h hjoin.1
    · exact .refl _

theorem joinNext_coarser (count : ℕ) (h : Separate (pre ++ n :: post)) :
    Coarser (pre ++ n :: post) (pre ++ (joinNext K n post count).1) := by
  unfold joinNext
  split
  · exact .refl _
  · split
    · next hjoin => exact coarser_join h hjoin.1
    · exact .refl _

end Joins

section Together
variable [DecidableEq P] {t u : RangeTree P} {n : Range P} {b : ℕ}

omit [DecidableEq P] in
/-- A piece keeps the neighbours that the new range leaves alone. -/
theorem together_pieces {c : Range P} (hn : n.start ≤ n.stop) (hmeet : c.Meets n) (hc : c.Holds b)
    (hc' : c.Holds (b + 1)) (hb : ¬ n.Holds b) (hb' : ¬ n.Holds (b + 1)) :
    Together (pieces K n c) b := by
  unfold Range.Holds at hc hc' hb hb'
  rcases pieces_cases hmeet with ⟨hlead,heq⟩ | ⟨hlead,htrail,heq⟩ | ⟨hlead,htrail,heq⟩
  · rw [heq]
    by_cases hlt : b < n.start
    · refine ⟨_,mem_cons_self,⟨hc.1,?_⟩,⟨hc'.1,?_⟩⟩
      · change b ≤ n.start - 1
        omega
      · change b + 1 ≤ n.start - 1
        omega
    · refine ⟨_,mem_cons_of_mem _ mem_cons_self,⟨?_,hc.2⟩,⟨?_,hc'.2⟩⟩
      · change n.start ≤ b
        omega
      · change n.start ≤ b + 1
        omega
  · rw [heq]
    refine ⟨_,mem_cons_self,⟨?_,hc.2⟩,⟨?_,hc'.2⟩⟩
    · change n.stop + 1 ≤ b
      omega
    · change n.stop + 1 ≤ b + 1
      omega
  · omega

theorem clearConflicts_together (fuel : ℕ) (ht : t.Counted) (hn : n.start ≤ n.stop)
    (hu : clearConflicts K S n fuel t = some u) (h : Together t.nodes b) (hb : ¬ n.Holds b)
    (hb' : ¬ n.Holds (b + 1)) : Together u.nodes b := by
  induction fuel generalizing t with
  | zero => cases hu
  | succ fuel ih =>
    rw [clearConflicts] at hu
    split at hu
    · cases hu
      exact h
    · next c hpick =>
      obtain ⟨hc,hmeet⟩ := S.meets _ _ _ ht.separate hpick
      apply ih (ht.resolve hc hmeet) hu
      obtain ⟨m,hm,hmb,hmb'⟩ := h
      by_cases heq : m = c
      · subst heq
        obtain ⟨p,hp,hpb⟩ := together_pieces hn hmeet hmb hmb' hb hb'
        exact ⟨p,(mem_resolve ht.separate hc hmeet).mpr (.inl hp),hpb⟩
      · exact ⟨m,(mem_resolve ht.separate hc hmeet).mpr (.inr ⟨heq,hm⟩),hmb,hmb'⟩

end Together

/-- Values follow each other, and ranges are joined wherever they do. -/
structure Layout.Successive (K : Layout P V) (succ : V → V) : Prop where
  step : ∀ p k, K.val p (k + 1) = succ (K.val p k)
  joins : ∀ p len q, K.val q 0 = K.val p len → K.joins p len q = true

section Successive
variable {succ : V → V} {x : V} {b : ℕ} {n : Range P} {pre post : List (Range P)}

theorem Layout.Successive.joins_of_value {p q : Range P} (hK : K.Successive succ)
    (hx : p.value K.val p.stop = x) (hq : q.value K.val q.start = succ x) :
    K.joins p.info p.length q.info = true := by
  apply hK.joins
  unfold Range.value at hx hq
  rw [Nat.sub_self] at hq
  rw [hq,Range.length,hK.step,hx]

theorem joinPrev_of_joins {p : Range P} (count : ℕ) (hadj : p.stop + 1 = n.start)
    (hjoin : K.joins p.info p.length n.info = true) :
    joinPrev K (pre ++ [p]) n count = (pre,{ p with stop := n.stop },count - 1) := by
  simp only [joinPrev,getLast?_concat,hadj,hjoin,and_self,if_true,dropLast_concat]

theorem joinPrev_together (hK : K.Successive succ) (count : ℕ) (h : Separate (pre ++ n :: post))
    (hstart : n.start = b + 1) (hb : contents K.val (pre ++ n :: post) b = some x)
    (hnext : n.value K.val n.start = succ x) :
    Together ((joinPrev K pre n count).1 ++ (joinPrev K pre n count).2.1 :: post) b := by
  obtain ⟨hpre,hrest,hlt⟩ := h.of_append
  have hn := hrest.start_le n mem_cons_self
  obtain ⟨p,hp,hpb,hpx⟩ := h.contents_eq_some_iff.mp hb
  have hlo := hpb.1
  have hhi := hpb.2
  have hmem : p ∈ pre := by
    rcases mem_append.mp hp with hp | hp
    · exact hp
    · rcases mem_cons.mp hp with rfl | hp
      · omega
      · have := rel_of_pairwise_cons hrest.ordered hp
        omega
  have hstop : p.stop = b := by
    have := hlt p hmem n mem_cons_self
    omega
  -- no range lies between `p` and `n`
  obtain ⟨init,rfl⟩ : ∃ init, pre = init ++ [p] := by
    rcases eq_nil_or_concat pre with rfl | ⟨init,q,rfl⟩
    · cases hmem
    · rw [concat_eq_append] at hpre hlt hmem ⊢
      have hq := hpre.start_le q (mem_append_right _ mem_cons_self)
      have hqn := hlt q (mem_append_right _ mem_cons_self) n mem_cons_self
      rcases mem_append.mp hmem with hp | hp
      · have := hpre.of_append.2.2 p hp q mem_cons_self
        omega
      · exact ⟨init,by rw [mem_singleton.mp hp]⟩
  rw [joinPrev_of_joins count (by omega) (hK.joins_of_value (by rw [hstop]; exact hpx) hnext)]
  refine ⟨_,mem_append_right _ mem_cons_self,⟨hlo,?_⟩,⟨?_,?_⟩⟩
  · change b ≤ n.stop
    omega
  · change p.start ≤ b + 1
    omega
  · change b + 1 ≤ n.stop
    omega

theorem joinNext_together (hK : K.Successive succ) (count : ℕ) (h : Separate (pre ++ n :: post))
    (hstop : n.stop = b) (hb : contents K.val (pre ++ n :: post) b = some x)
    (hb' : contents K.val (pre ++ n :: post) (b + 1) = some (succ x)) :
    Together (pre ++ (joinNext K n post count).1) b := by
  obtain ⟨hpre,hrest,hlt⟩ := h.of_append
  have hn := hrest.start_le n mem_cons_self
  have hnx : n.value K.val n.stop = x := by
    rw [h.contents_of_mem (mem_append_right _ mem_cons_self) ⟨by omega,hstop.ge⟩] at hb
    rw [hstop]
    exact Option.some.inj hb
  obtain ⟨q,hq,hqb,hqx⟩ := h.contents_eq_some_iff.mp hb'
  have hlo := hqb.1
  have hhi := hqb.2
  have hmem : q ∈ post := by
    rcases mem_append.mp hq with hq | hq
    · have := hlt q hq n mem_cons_self
      omega
    · rcases mem_cons.mp hq with rfl | hq
      · omega
      · exact hq
  -- no range lies between `n` and `q`
  obtain ⟨rest,rfl⟩ : ∃ rest, post = q :: rest := by
    cases post with
    | nil => cases hmem
    | cons r rest =>
      have hr := hrest.tail.start_le r mem_cons_self
      have hnr := rel_of_pairwise_cons hrest.ordered (mem_cons_self (a := r))
      rcases mem_cons.mp hmem with rfl | hq
      · exact ⟨rest,rfl⟩
      · have := rel_of_pairwise_cons hrest.tail.ordered hq
        omega
  have hnq := rel_of_pairwise_cons hrest.ordered (mem_cons_self (a := q))
  have hstart : q.start = b + 1 := by omega
  rw [joinNext,if_pos ⟨by omega,hK.joins_of_value hnx (by rw [hstart]; exact hqx)⟩]
  refine ⟨_,mem_append_right _ mem_cons_self,⟨?_,?_⟩,⟨?_,hhi⟩⟩
  · change n.start ≤ b
    omega
  · change b ≤ q.stop
    omega
  · change n.start ≤ b + 1
    omega

/-- Neighbours with values that follow each other are in one range after an insertion of
one of them, and stay in one range. -/
theorem RangeTree.add_together [DecidableEq P] {t u : RangeTree P} (hK : K.Successive succ)
    (ht : t.Counted) (hn : n.start ≤ n.stop) (hu : t.add K S n = some u)
    (hb : contents K.val u.nodes b = some x) (hb' : contents K.val u.nodes (b + 1) = some (succ x))
    (h : n.Holds b ∨ n.Holds (b + 1) ∨ Together t.nodes b) : Together u.nodes b := by
  obtain ⟨v,hv,hnodes⟩ := RangeTree.add_nodes hu
  obtain ⟨v',hv',hcounted,-,hclear,-⟩ := clearConflicts_spec (S := S) (n := n)
    (2 * t.nodes.length + 1) ht (Nat.lt_succ_of_le (sum_rounds_le n t.nodes))
  obtain rfl : v' = v := Option.some.inj (hv'.symm.trans hv)
  have hplaced : Separate (front n v'.nodes ++ n :: back n v'.nodes) :=
    separate_place hcounted.separate hn hclear
  have hprev := joinPrev_spec (K := K) (v'.count + 1) hplaced
  have hnext := joinNext_spec (K := K) (joinPrev K (front n v'.nodes) n (v'.count + 1)).2.2
    hprev.separate
  have hcoarse := joinNext_coarser (K := K)
    (joinPrev K (front n v'.nodes) n (v'.count + 1)).2.2 hprev.separate
  have hcoarse' := (joinPrev_coarser (v'.count + 1) hplaced).trans hcoarse
  rw [hnodes] at hb hb' ⊢
  rw [hnext.same] at hb hb'
  by_cases hnb : n.Holds b
  · by_cases hnb' : n.Holds (b + 1)
    · exact Together.coarser ⟨n,mem_append_right _ mem_cons_self,hnb,hnb'⟩ hcoarse'
    · apply joinNext_together hK _ hprev.separate _ hb hb'
      rw [joinPrev_stop]
      have := hnb.1
      have := hnb.2
      unfold Range.Holds at hnb'
      omega
  · by_cases hnb' : n.Holds (b + 1)
    · have hstart : n.start = b + 1 := by
        have := hnb'.1
        have := hnb'.2
        unfold Range.Holds at hnb
        omega
      rw [hprev.same] at hb hb'
      refine (joinPrev_together hK _ hplaced hstart hb ?_).coarser hcoarse
      rw [hplaced.contents_of_mem (mem_append_right _ mem_cons_self) hnb'] at hb'
      rw [hstart]
      exact Option.some.inj hb'
    · have hold := (h.resolve_left hnb).resolve_left hnb'
      refine (clearConflicts_together _ ht hn hv hold hnb hnb').coarser (Coarser.trans ?_ hcoarse')
      intro m hm
      exact ⟨m,mem_place.mpr (.inr hm),Nat.le_refl _,Nat.le_refl _⟩

end Successive

end UnifyFS.RangeTrees
