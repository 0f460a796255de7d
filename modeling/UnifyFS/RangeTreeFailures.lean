import UnifyFS.RangeTrees

/-!
# Insertions that run out of memory

An insertion into a tree of ranges needs memory for the new range and for the pieces of every
conflict. Here the number of ranges that can be allocated is given. When a piece cannot be
allocated the insertion stops, with the conflicts before it already cleared and the new range
not inserted.

A conflict that begins before the new range is first cut in two, and the map is the same
as before. Every other conflict loses an address when it is cleared. So the map
survives a failure exactly if it happens at the first conflict, or at the second after
such a cut.
-/
namespace UnifyFS.RangeTrees
open RangeLists List Option

variable {P V : Type*} [DecidableEq P] (K : Layout P V) (S : Picker P)

/-- The loop around the insertion. `error` holds the tree at the allocation that failed. -/
def clearWithin (n : Range P) :
    ℕ → ℕ → RangeTree P → Option (Except (RangeTree P) (RangeTree P))
  | 0, _, _ => none
  | fuel + 1, budget, t =>
    match S.pick t.nodes n with
    | none => some (.ok t)
    | some c =>
      if (pieces K n c).length ≤ budget then
        clearWithin n fuel (budget - (pieces K n c).length) (resolve K S n c t)
      else some (.error t)

/-- The tree with a range that has no conflict, joined with its neighbours. -/
def RangeTree.insertJoined (t : RangeTree P) (n : Range P) : RangeTree P :=
  let pre := t.nodes.takeWhile fun m => decide (m.stop < n.start)
  let post := t.nodes.dropWhile fun m => decide (m.stop < n.start)
  let (pre,target,count) := joinPrev K pre n (t.count + 1)
  let (rest,count) := joinNext K target post count
  { nodes := pre ++ rest, count := count, max := Max.max t.max n.stop }

/-- An insertion for which `budget` ranges can be allocated, the new one first. -/
def RangeTree.addWithin (t : RangeTree P) (n : Range P) :
    ℕ → Option (Except (RangeTree P) (RangeTree P))
  | 0 => some (.error t)
  | budget + 1 =>
    match clearWithin K S n (2 * t.nodes.length + 1) budget t with
    | none => none
    | some (.error u) => some (.error u)
    | some (.ok u) => some (.ok (u.insertJoined K n))

/-- The allocation that fails is one for the first conflict, or it is one for the second and
the first began before the new range. -/
def FailsInTime (t : RangeTree P) (n : Range P) (budget : ℕ) : Prop :=
  ∃ c, S.pick t.nodes n = some c ∧ (budget < (pieces K n c).length ∨
    c.start < n.start ∧ ∃ c', S.pick (resolve K S n c t).nodes n = some c' ∧
      budget - (pieces K n c).length < (pieces K n c').length)

variable {K : Layout P V} {S : Picker P} {t u : RangeTree P} {n c : Range P} {b fuel budget : ℕ}

theorem RangeTree.add_eq (t : RangeTree P) (n : Range P) : t.add K S n =
    (clearConflicts K S n (2 * t.nodes.length + 1) t).map fun u => u.insertJoined K n := by
  unfold RangeTree.add
  split
  · next h => rw [h,map_none]
  · next u h =>
    rw [h]
    rfl

theorem clearWithin_ok (h : clearWithin K S n fuel budget t = some (.ok u)) :
    clearConflicts K S n fuel t = some u := by
  induction fuel generalizing budget t with
  | zero => cases h
  | succ fuel ih =>
    rw [clearWithin] at h
    rw [clearConflicts]
    cases hpick : S.pick t.nodes n with
    | none =>
      simp only [hpick] at h ⊢
      cases h
      rfl
    | some c =>
      simp only [hpick] at h ⊢
      split_ifs at h
      · exact ih h
      · cases h

theorem clearWithin_isSome (budget : ℕ) (h : (clearConflicts K S n fuel t).isSome = true) :
    (clearWithin K S n fuel budget t).isSome = true := by
  induction fuel generalizing budget t with
  | zero => cases h
  | succ fuel ih =>
    rw [clearConflicts] at h
    rw [clearWithin]
    cases hpick : S.pick t.nodes n with
    | none => rfl
    | some c =>
      simp only [hpick] at h ⊢
      split_ifs
      · exact ih _ h
      · rfl

section
variable (hl : Separate t.nodes) (hc : c ∈ t.nodes) (hmeet : c.Meets n)
include hl hc hmeet

theorem contents_resolve_front (hfront : c.start < n.start) (b : ℕ) :
    contents K.val (resolve K S n c t).nodes b = contents K.val t.nodes b := by
  apply contents_resolve_of_kept hl hc hmeet
  intro hb
  by_cases hnb : n.Holds b
  · rcases pieces_cases hmeet with ⟨-,heq⟩ | ⟨hlead,-⟩ | ⟨hlead,-⟩
    · rw [heq]
      exact ⟨_,mem_cons_of_mem _ mem_cons_self,hnb.1,hb.2⟩
    · omega
    · omega
  · exact pieces_hold hmeet hb hnb

theorem contents_resolve_inside (hinside : n.start ≤ c.start) :
    contents K.val (resolve K S n c t).nodes c.start = none := by
  have hcs : c.Holds c.start := ⟨le_rfl,hl.start_le c hc⟩
  rw [contents_eq_none_iff]
  intro m hm hmb
  cases (mem_resolve hl hc hmeet).mp hm with
  | inl hp =>
    have hstop := hmeet.1
    rcases pieces_cases hmeet with ⟨hlead,-⟩ | ⟨-,-,heq⟩ | ⟨-,-,heq⟩
    · omega
    · rw [heq,mem_singleton] at hp
      have hlo := hmb.1
      rw [hp] at hlo
      change n.stop + 1 ≤ c.start at hlo
      omega
    · rw [heq] at hp
      cases hp
  | inr hm => exact hm.1 (hl.eq_of_holds hm.2 hc hmb hcs)

theorem contents_resolve_none (hb : contents K.val t.nodes b = none) :
    contents K.val (resolve K S n c t).nodes b = none := by
  have hfree := contents_eq_none_iff.mp hb
  rw [contents_eq_none_iff]
  intro m hm hmb
  cases (mem_resolve hl hc hmeet).mp hm with
  | inl hp =>
    obtain ⟨hlo,-,hhi,-⟩ := mem_pieces hmeet hp
    exact hfree c hc ⟨hlo.trans hmb.1,hmb.2.trans hhi⟩
  | inr hm => exact hfree m hm.2 hmb

end

theorem clearWithin_error_none (ht : t.Counted) (hb : contents K.val t.nodes b = none)
    (h : clearWithin K S n fuel budget t = some (.error u)) : contents K.val u.nodes b = none := by
  induction fuel generalizing budget t with
  | zero => cases h
  | succ fuel ih =>
    rw [clearWithin] at h
    cases hpick : S.pick t.nodes n with
    | none =>
      simp only [hpick] at h
      cases h
    | some c =>
      obtain ⟨hc,hmeet⟩ := S.meets _ _ _ ht.separate hpick
      simp only [hpick] at h
      split_ifs at h
      · exact ih (ht.resolve hc hmeet) (contents_resolve_none ht.separate hc hmeet hb) h
      · cases h
        exact hb

theorem le_start_of_resolve_front (hl : Separate t.nodes) (hc : c ∈ t.nodes) (hmeet : c.Meets n)
    (hfront : c.start < n.start) {m : Range P} (hm : m ∈ (resolve K S n c t).nodes)
    (hmn : m.Meets n) : n.start ≤ m.start := by
  have hmstop := hmn.2
  cases (mem_resolve hl hc hmeet).mp hm with
  | inl hp =>
    rcases pieces_cases hmeet with ⟨-,heq⟩ | ⟨hlead,-⟩ | ⟨hlead,-⟩
    · rw [heq,mem_cons,mem_singleton] at hp
      rcases hp with rfl | rfl
      · change n.start ≤ n.start - 1 at hmstop
        omega
      · exact le_rfl
    · omega
    · omega
  | inr hm =>
    by_contra hlt
    have hmb : m.Holds n.start := ⟨by omega,hmstop⟩
    exact hm.1 (hl.eq_of_holds hm.2 hc hmb ⟨Nat.le_of_lt hfront,hmeet.2⟩)

theorem clearWithin_error_cases (ht : t.Counted)
    (h : clearWithin K S n (fuel + 1) budget t = some (.error u)) :
    ∃ c, S.pick t.nodes n = some c ∧ c ∈ t.nodes ∧ c.Meets n ∧
      (budget < (pieces K n c).length ∧ u = t ∨
        (pieces K n c).length ≤ budget ∧ clearWithin K S n fuel (budget - (pieces K n c).length)
          (resolve K S n c t) = some (.error u)) := by
  rw [clearWithin] at h
  cases hpick : S.pick t.nodes n with
  | none =>
    simp only [hpick] at h
    cases h
  | some c =>
    obtain ⟨hc,hmeet⟩ := S.meets _ _ _ ht.separate hpick
    refine ⟨c,rfl,hc,hmeet,?_⟩
    simp only [hpick] at h
    split_ifs at h with hle
    · exact .inr ⟨hle,h⟩
    · cases h
      exact .inl ⟨by omega,rfl⟩

theorem contents_ne_of_cleared (ht : t.Counted) (hc : c ∈ t.nodes) (hmeet : c.Meets n)
    (hinside : n.start ≤ c.start)
    (h : clearWithin K S n fuel budget (resolve K S n c t) = some (.error u)) :
    contents K.val u.nodes c.start ≠ contents K.val t.nodes c.start := by
  have hlost := clearWithin_error_none (ht.resolve hc hmeet)
    (contents_resolve_inside ht.separate hc hmeet hinside) h
  have hheld : contents K.val t.nodes c.start = some (c.value K.val c.start) :=
    ht.separate.contents_of_mem hc ⟨le_rfl,ht.separate.start_le c hc⟩
  rw [hlost,hheld]
  exact (some_ne_none _).symm

theorem same_contents_iff_of_inside (ht : t.Counted)
    (hinside : ∀ m ∈ t.nodes, m.Meets n → n.start ≤ m.start)
    (h : clearWithin K S n (fuel + 1) budget t = some (.error u)) :
    (∀ b, contents K.val u.nodes b = contents K.val t.nodes b) ↔
      ∃ c, S.pick t.nodes n = some c ∧ budget < (pieces K n c).length := by
  obtain ⟨c,hpick,hc,hmeet,⟨hlt,rfl⟩ | ⟨hle,hrest⟩⟩ := clearWithin_error_cases ht h
  · exact iff_of_true (fun _ => rfl) ⟨c,hpick,hlt⟩
  · apply iff_of_false
    · intro hsame
      exact contents_ne_of_cleared ht hc hmeet (hinside c hc hmeet) hrest (hsame c.start)
    · rintro ⟨c',hpick',hlt⟩
      obtain rfl := some.inj (hpick.symm.trans hpick')
      omega

/-- The map survives a failure of the loop exactly if it comes in time. -/
theorem same_contents_iff (ht : t.Counted)
    (h : clearWithin K S n (fuel + 2) budget t = some (.error u)) :
    (∀ b, contents K.val u.nodes b = contents K.val t.nodes b) ↔ FailsInTime K S t n budget := by
  obtain ⟨c,hpick,hc,hmeet,⟨hlt,rfl⟩ | ⟨hle,hrest⟩⟩ := clearWithin_error_cases ht h
  · exact iff_of_true (fun _ => rfl) ⟨c,hpick,.inl hlt⟩
  · have hone : ∀ c', S.pick t.nodes n = some c' → c' = c := fun c' hc' =>
      (some.inj (hpick.symm.trans hc')).symm
    by_cases hfront : c.start < n.start
    · have hsplit := contents_resolve_front (K := K) (S := S) ht.separate hc hmeet hfront
      have hiff := same_contents_iff_of_inside (ht.resolve (S := S) hc hmeet)
        (fun m hm => le_start_of_resolve_front ht.separate hc hmeet hfront hm) hrest
      simp only [hsplit] at hiff
      rw [hiff]
      constructor
      · rintro ⟨c',hpick',hlt⟩
        exact ⟨c,hpick,.inr ⟨hfront,c',hpick',hlt⟩⟩
      · rintro ⟨c',hpick',hlt | ⟨-,hlater⟩⟩
        · obtain rfl := hone c' hpick'
          omega
        · obtain rfl := hone c' hpick'
          exact hlater
    · apply iff_of_false
      · intro hsame
        exact contents_ne_of_cleared ht hc hmeet (by omega) hrest (hsame c.start)
      · rintro ⟨c',hpick',hlt | ⟨hfront',-⟩⟩
        · obtain rfl := hone c' hpick'
          omega
        · obtain rfl := hone c' hpick'
          exact hfront hfront'

/-- The insertion ends. If it succeeds, it is the insertion without a bound on the memory. If it
fails, the map is unchanged exactly if the new range had no memory or the loop failed in time. -/
theorem RangeTree.addWithin_spec (ht : t.Counted) (hn : n.start ≤ n.stop) (budget : ℕ) :
    ∃ r, t.addWithin K S n budget = some r ∧ (∀ u, r = .ok u → t.add K S n = some u) ∧
      ∀ u, r = .error u → ((∀ b, contents K.val u.nodes b = contents K.val t.nodes b) ↔
        budget = 0 ∨ FailsInTime K S t n (budget - 1)) := by
  cases budget with
  | zero =>
    refine ⟨_,rfl,fun u hu => (by cases hu),fun u hu => ?_⟩
    cases hu
    exact iff_of_true (fun _ => rfl) (.inl rfl)
  | succ budget =>
    obtain ⟨v,hv,-⟩ := RangeTree.add_spec (S := S) ht hn
    rw [RangeTree.add_eq] at hv
    obtain ⟨w,hw,-⟩ := map_eq_some_iff.mp hv
    obtain ⟨r,hr⟩ := isSome_iff_exists.mp (clearWithin_isSome budget (isSome_of_eq_some hw))
    rw [RangeTree.addWithin,hr]
    cases r with
    | ok u =>
      refine ⟨_,rfl,fun u' hu' => ?_,fun u' hu' => by cases hu'⟩
      cases hu'
      rw [RangeTree.add_eq,clearWithin_ok hr,map_some]
    | error u =>
      refine ⟨_,rfl,fun u' hu' => (by cases hu'),fun u' hu' => ?_⟩
      cases hu'
      -- a loop that fails has met a conflict, so there is a range and fuel for two rounds
      obtain ⟨c,-,hc,-⟩ := clearWithin_error_cases ht hr
      have hlen := length_pos_of_mem hc
      obtain ⟨k,hk⟩ : ∃ k, 2 * t.nodes.length + 1 = k + 2 := ⟨2 * t.nodes.length - 1,by omega⟩
      rw [hk] at hr
      rw [same_contents_iff ht hr,Nat.add_sub_cancel,or_iff_right (Nat.succ_ne_zero budget)]

end UnifyFS.RangeTrees
