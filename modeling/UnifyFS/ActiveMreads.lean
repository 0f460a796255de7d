import UnifyFS.Arraylist
import UnifyFS.GfidReads
import UnifyFS.GuardedRuns

/-!
# The active mreads of a client

`client_create_mread_request`, `client_remove_mread_request` and
`client_get_mread_status` of `client/src/client_read.c`. An mread has the slot of the list of
active mreads that its id falls on, and the generator skips the ids whose slot is taken. The
list holds pointers. The structures behind them are the heap, which has an mread from its
creation to its removal.

Whether the list is full is decided by its size, which is one more than the last slot in use. So
while there is an mread in the last slot no other can be created, however many slots are free.
With reads one after another, every mread whose id falls on the last slot is such an mread.

The calls hold the mutex of the client, and allocations succeed: the address of a new mread is
part of the event.
-/
namespace UnifyFS.ActiveMreads
open ClientRead GfidReads GuardedRuns MachineWords Option

structure MreadClient where
  activeMreads : Arraylist ℕ
  mreadIdGenerator : ℕ
  /-- The mreads that were created and not removed, by their addresses. -/
  heap : ℕ → Option ClientMread

namespace MreadClient

def start : MreadClient := ⟨.create clientMaxReadCount,0,fun _ => none⟩

def idToListIndex (c : MreadClient) (id : ℕ) : ℕ := id % c.activeMreads.capacity

/-- The id search of `client_create_mread_request`: the id found and the next value of the
generator, which is an `unsigned int`. -/
def findMreadId (c : MreadClient) : ℕ → ℕ → Option (ℕ × ℕ) :=
  c.activeMreads.findFree c.idToListIndex fun n => (n + 1) % uintRange

/-- `free`, for what `arraylist_insert` finds in place of a new element. -/
def release (heap : ℕ → Option ClientMread) : Option ℕ → ℕ → Option ClientMread
  | none => heap
  | some ptr => Function.update heap ptr none

/-- Returns the new mread, or null if the list is taken for full. Twice the capacity is enough
fuel for the search, by `findMreadId_of_free`. -/
def clientCreateMreadRequest (c : MreadClient) (ptr : ℕ) (reqs : List ReadReq) :
    Option (Option ℕ × MreadClient) :=
  let active := c.activeMreads
  if active.size = active.capacity then some (none,c)
  else (c.findMreadId (2 * active.capacity) c.mreadIdGenerator).map fun found =>
    let index := c.idToListIndex found.1
    let heap := Function.update c.heap ptr (some ⟨found.1,reqs,0,0⟩)
    (some ptr,⟨active.insert index ptr,found.2,release heap (active.slot index)⟩)

/-- There is no result if the pointer dangles. If the list has another mread in the slot, this is
dropped from the list all the same. -/
def clientRemoveMreadRequest (c : MreadClient) : Option ℕ → Option (Rc × MreadClient)
  | none => some (Rc.einval,c)
  | some ptr => (c.heap ptr).map fun mread =>
    let index := c.idToListIndex mread.id
    let active := c.activeMreads.remove index
    if c.activeMreads.get index = some ptr then
      (Rc.success,{ c with activeMreads := active, heap := Function.update c.heap ptr none })
    else (Rc.failure,{ c with activeMreads := active })

/-- Returns a pointer or null; there is no result if the pointer in the list dangles. -/
def clientGetMreadStatus (c : MreadClient) (id : ℕ) : Option (Option ℕ) :=
  match c.activeMreads.get (c.idToListIndex id) with
  | none => some none
  | some ptr => (c.heap ptr).map fun status => if status.id ≠ id then none else some ptr

end MreadClient

open MreadClient

inductive MreadEvent where
  | create (ptr : ℕ) (reqs : List ReadReq)
  | remove (mread : Option ℕ)

def step (c : MreadClient) : MreadEvent → Option MreadClient
  | .create ptr reqs => (c.clientCreateMreadRequest ptr reqs).map Prod.snd
  | .remove mread => (c.clientRemoveMreadRequest mread).map Prod.snd

/-- A new mread has an address of its own, and only active mreads are removed. -/
def Allowed (c : MreadClient) : MreadEvent → Prop
  | .create ptr _ => c.heap ptr = none
  | .remove mread => ∀ ptr, mread = some ptr → c.heap ptr ≠ none

/-- Every mread is in the slot of its id, and there is nothing else in the list. -/
structure Listed (c : MreadClient) : Prop where
  tight : c.activeMreads.Tight
  capacity_le : c.activeMreads.capacity ≤ uintRange
  generator_lt : c.mreadIdGenerator < uintRange
  placed : ∀ p m, c.heap p = some m → c.activeMreads.slot (c.idToListIndex m.id) = some p
  owned : ∀ k p, c.activeMreads.slot k = some p → ∃ m, c.heap p = some m ∧ c.idToListIndex m.id = k

section Calls
variable {c : MreadClient} {ptr : ℕ} {reqs : List ReadReq} {m : ClientMread}

theorem capacity_start : start.activeMreads.capacity = clientMaxReadCount :=
  Arraylist.capacity_create (by decide)

theorem listed_start : Listed start where
  tight := Arraylist.tight_create _
  capacity_le := by
    rw [capacity_start]
    decide
  generator_lt := by decide
  placed p m h := by cases h
  owned k p h := by
    rw [show start.activeMreads.slot k = none from Arraylist.slot_create _ _] at h
    cases h

theorem idToListIndex_lt (c : MreadClient) (id : ℕ) :
    c.idToListIndex id < c.activeMreads.capacity :=
  Nat.mod_lt _ c.activeMreads.capacity_pos

theorem findMreadId_of_free {k : ℕ} : ∀ {fuel n : ℕ}, k < fuel → n < uintRange →
    c.activeMreads.get (c.idToListIndex ((n + k) % uintRange)) = none →
      c.findMreadId fuel n ≠ none := by
  induction k with
  | zero =>
    intro fuel n hf hn hfree
    obtain ⟨fuel,rfl⟩ := Nat.exists_eq_add_of_lt hf
    rw [Nat.add_zero,Nat.mod_eq_of_lt hn] at hfree
    simp [findMreadId,Arraylist.findFree,hfree]
  | succ k ih =>
    intro fuel n hf hn hfree
    cases fuel with
    | zero => omega
    | succ fuel =>
      rw [findMreadId,Arraylist.findFree]
      split
      · exact some_ne_none _
      · apply ih (by omega) (Nat.mod_lt _ (by decide))
        rwa [Nat.mod_add_mod,Nat.add_assoc,Nat.add_comm 1]

theorem findMreadId_spec {fuel n : ℕ} {found : ℕ × ℕ} (h : c.findMreadId fuel n = some found) :
    c.activeMreads.get (c.idToListIndex found.1) = none ∧ found.2 < uintRange := by
  obtain ⟨hfree,hnext⟩ := Arraylist.findFree_spec h
  rw [hnext]
  exact ⟨hfree,Nat.mod_lt _ (by decide)⟩

theorem clientCreateMreadRequest_cases (h : Listed c) (ptr : ℕ) (reqs : List ReadReq) :
    (c.activeMreads.slot (c.activeMreads.capacity - 1) ≠ none ∧
      c.clientCreateMreadRequest ptr reqs = some (none,c)) ∨
    (c.activeMreads.slot (c.activeMreads.capacity - 1) = none ∧
      ∃ id next, c.activeMreads.slot (c.idToListIndex id) = none ∧ next < uintRange ∧
        c.clientCreateMreadRequest ptr reqs =
          some (some ptr,⟨c.activeMreads.insert (c.idToListIndex id) ptr,next,
            Function.update c.heap ptr (some ⟨id,reqs,0,0⟩)⟩)) := by
  unfold clientCreateMreadRequest
  dsimp only
  by_cases hfull : c.activeMreads.size = c.activeMreads.capacity
  · exact .inl ⟨h.tight.size_eq_capacity_iff.mp hfull,if_pos hfull⟩
  · have hlast : c.activeMreads.slot (c.activeMreads.capacity - 1) = none := by
      by_contra hne
      exact hfull (h.tight.size_eq_capacity_iff.mpr hne)
    have hpos : 0 < c.activeMreads.capacity := c.activeMreads.capacity_pos
    obtain ⟨k,hk,hindex⟩ := exists_add_mod_mod_eq c.mreadIdGenerator h.capacity_le
      (show c.activeMreads.capacity - 1 < c.activeMreads.capacity by omega)
    obtain ⟨found,hfound⟩ : ∃ found, c.findMreadId (2 * c.activeMreads.capacity)
        c.mreadIdGenerator = some found := by
      apply ne_none_iff_exists'.mp
      apply findMreadId_of_free hk h.generator_lt
      rw [h.tight.get_eq,idToListIndex,hindex,hlast]
    obtain ⟨hfree,hnext⟩ := findMreadId_spec hfound
    rw [h.tight.get_eq] at hfree
    refine .inr ⟨hlast,found.1,found.2,hfree,hnext,?_⟩
    rw [if_neg hfull,hfound,map_some,hfree]
    rfl

theorem clientRemoveMreadRequest_eq (h : Listed c) (hm : c.heap ptr = some m) :
    c.clientRemoveMreadRequest (some ptr) = some (Rc.success,{ c with
        activeMreads := c.activeMreads.remove (c.idToListIndex m.id)
        heap := Function.update c.heap ptr none }) := by
  have hget : c.activeMreads.get (c.idToListIndex m.id) = some ptr := by
    rw [h.tight.get_eq]
    exact h.placed ptr m hm
  rw [clientRemoveMreadRequest,hm,map_some]
  rw [if_pos hget]

theorem Listed.insert (h : Listed c) (hptr : c.heap ptr = none) {id next : ℕ}
    (hfree : c.activeMreads.slot (c.idToListIndex id) = none) (hnext : next < uintRange) :
    Listed ⟨c.activeMreads.insert (c.idToListIndex id) ptr,next,
      Function.update c.heap ptr (some ⟨id,reqs,0,0⟩)⟩ := by
  have hlt := idToListIndex_lt c id
  have hcap : (c.activeMreads.insert (c.idToListIndex id) ptr).capacity = c.activeMreads.capacity :=
    Arraylist.capacity_insert hlt
  refine ⟨h.tight.insert,hcap ▸ h.capacity_le,hnext,fun p m hp => ?_,fun k p hk => ?_⟩
  · change (c.activeMreads.insert _ ptr).slot (m.id % (c.activeMreads.insert _ ptr).capacity) = _
    rw [hcap,Arraylist.slot_insert]
    dsimp only at hp
    by_cases heq : p = ptr
    · rw [heq,Function.update_self] at hp
      cases hp
      rw [heq]
      exact if_pos rfl
    · rw [Function.update_of_ne heq] at hp
      have hslot : c.activeMreads.slot (m.id % _) = some p := h.placed p m hp
      rw [if_neg]
      · exact hslot
      · intro hsame
        rw [← hsame,hfree] at hslot
        cases hslot
  · rw [Arraylist.slot_insert] at hk
    split at hk
    · next heq =>
      cases hk
      exact ⟨_,Function.update_self _ _ _,(congrArg _ hcap).trans heq⟩
    · obtain ⟨m,hm,hindex⟩ := h.owned k p hk
      refine ⟨m,?_,(congrArg _ hcap).trans hindex⟩
      dsimp only
      rw [Function.update_of_ne]
      · exact hm
      · rintro rfl
        rw [hptr] at hm
        cases hm

theorem Listed.remove (h : Listed c) (hm : c.heap ptr = some m) : Listed { c with
      activeMreads := c.activeMreads.remove (c.idToListIndex m.id)
      heap := Function.update c.heap ptr none } := by
  have hcap : (c.activeMreads.remove (c.idToListIndex m.id)).capacity = c.activeMreads.capacity :=
    Arraylist.capacity_remove
  have hptr := h.placed ptr m hm
  refine ⟨h.tight.remove,hcap ▸ h.capacity_le,h.generator_lt,fun p m' hp => ?_,fun k p hk => ?_⟩
  · change (c.activeMreads.remove _).slot (m'.id % (c.activeMreads.remove _).capacity) = _
    rw [hcap,h.tight.slot_remove]
    dsimp only at hp
    have hne : p ≠ ptr := by
      rintro rfl
      rw [Function.update_self] at hp
      cases hp
    rw [Function.update_of_ne hne] at hp
    have hslot : c.activeMreads.slot (m'.id % _) = some p := h.placed p m' hp
    rw [if_neg]
    · exact hslot
    · intro hsame
      rw [← hsame,hptr] at hslot
      exact hne (some.inj hslot).symm
  · rw [h.tight.slot_remove] at hk
    split at hk
    · cases hk
    · next hne =>
      obtain ⟨m',hm',hindex⟩ := h.owned k p hk
      refine ⟨m',?_,(congrArg _ hcap).trans hindex⟩
      dsimp only
      rw [Function.update_of_ne]
      · exact hm'
      · rintro rfl
        rw [hm] at hm'
        cases hm'
        exact hne hindex

end Calls

def Full (c : MreadClient) : Prop :=
  ∀ k < c.activeMreads.capacity, ∃ p m, c.activeMreads.slot k = some p ∧ c.heap p = some m

def LastFree (c : MreadClient) : Prop :=
  c.activeMreads.slot (c.activeMreads.capacity - 1) = none

/-- Calls return, no two active mreads share a slot, and an id leads to the active mread that has
it and to nothing else. -/
structure Exact (c : MreadClient) : Prop where
  returns : ∀ e, Allowed c e → ∃ u, step c e = some u
  distinct : ∀ p q m m', c.heap p = some m → c.heap q = some m' → p ≠ q →
    c.idToListIndex m.id ≠ c.idToListIndex m'.id
  found : ∀ p m, c.heap p = some m → c.clientGetMreadStatus m.id = some (some p)
  missed : ∀ id, (∀ p m, c.heap p = some m → m.id ≠ id) → c.clientGetMreadStatus id = some none

section Runs
variable {c u : MreadClient} {e : MreadEvent} {es : List MreadEvent}

theorem Listed.step (h : Listed c) (hallowed : Allowed c e) :
    ∃ u, step c e = some u ∧ Listed u := by
  cases e with
  | create ptr reqs =>
    rcases clientCreateMreadRequest_cases h ptr reqs with ⟨-,hcall⟩ | ⟨-,id,next,hfree,hnext,hcall⟩
    · exact ⟨c,by rw [ActiveMreads.step,hcall]; rfl,h⟩
    · exact ⟨_,by rw [ActiveMreads.step,hcall]; rfl,h.insert hallowed hfree hnext⟩
  | remove mread =>
    cases mread with
    | none => exact ⟨c,rfl,h⟩
    | some ptr =>
      obtain ⟨m,hm⟩ := ne_none_iff_exists'.mp (hallowed ptr rfl)
      exact ⟨_,by rw [ActiveMreads.step,clientRemoveMreadRequest_eq h hm]; rfl,h.remove hm⟩

theorem listed_of_run (h : Run step Allowed start es u) : Listed u := by
  refine h.invariant (fun s e v hs hallowed hstep => ?_) listed_start
  obtain ⟨w,hw,hlisted⟩ := hs.step hallowed
  obtain rfl := some.inj (hw.symm.trans hstep)
  exact hlisted

theorem Listed.exact (h : Listed c) : Exact c where
  returns e hallowed := (h.step hallowed).imp fun _ hu => hu.1
  distinct p q m m' hp hq hne hsame := by
    have hslot := h.placed p m hp
    rw [hsame,h.placed q m' hq] at hslot
    exact hne (some.inj hslot).symm
  found p m hp := by
    unfold clientGetMreadStatus
    rw [h.tight.get_eq,h.placed p m hp]
    dsimp only
    rw [hp,map_some,if_neg (not_not.mpr rfl)]
  missed id hid := by
    unfold clientGetMreadStatus
    rw [h.tight.get_eq]
    cases hslot : c.activeMreads.slot (c.idToListIndex id) with
    | none => rfl
    | some p =>
      obtain ⟨m,hm,-⟩ := h.owned _ p hslot
      dsimp only
      rw [hm,map_some,if_pos (hid p m hm)]

theorem Listed.create_none_iff (h : Listed c) (ptr : ℕ) (reqs : List ReadReq) :
    (∃ v, c.clientCreateMreadRequest ptr reqs = some (none,v)) ↔ ¬ LastFree c := by
  rcases clientCreateMreadRequest_cases h ptr reqs with ⟨hlast,hcall⟩ | ⟨hlast,_,_,-,-,hcall⟩
  · exact iff_of_true ⟨c,hcall⟩ hlast
  · refine iff_of_false ?_ (not_not.mpr hlast)
    rintro ⟨v,hv⟩
    cases hcall.symm.trans hv

/-- Along every run the ids are exact. Creations fail only when all slots are taken if and only if
each of them finds the last slot free or all slots taken. -/
theorem activeMreads_exact_iff (es : List MreadEvent) :
    (∀ pre t, pre <+: es → Run step Allowed start pre t → Exact t ∧
      ∀ ptr reqs v, pre ++ [.create ptr reqs] <+: es →
        t.clientCreateMreadRequest ptr reqs = some (none,v) → Full t) ↔
    ∀ pre t ptr reqs, pre ++ [.create ptr reqs] <+: es → Run step Allowed start pre t →
      LastFree t ∨ Full t := by
  constructor
  · intro h pre t ptr reqs hpre hrun
    by_cases hlast : LastFree t
    · exact .inl hlast
    · obtain ⟨v,hv⟩ := ((listed_of_run hrun).create_none_iff ptr reqs).mpr hlast
      have hprefix := (List.prefix_append pre _).trans hpre
      exact .inr ((h pre t hprefix hrun).2 ptr reqs v hpre hv)
  · intro h pre t _ hrun
    have hlisted := listed_of_run hrun
    refine ⟨hlisted.exact,fun ptr reqs v hpre hv => ?_⟩
    have hlast := (hlisted.create_none_iff ptr reqs).mp ⟨v,hv⟩
    exact (h pre t ptr reqs hpre hrun).resolve_left hlast

end Runs

def idle (n : ℕ) : MreadClient := ⟨.create clientMaxReadCount,n,fun _ => none⟩

def busy (n : ℕ) : MreadClient :=
  ⟨(Arraylist.create clientMaxReadCount).insert n 0,n + 1,
    Function.update (fun _ => none) 0 (some ⟨n,[],0,0⟩)⟩

def sequential : ℕ → List MreadEvent
  | 0 => []
  | n + 1 => sequential n ++ [.create 0 [],.remove (some 0)]

section Sequential
variable {n : ℕ}

theorem idToListIndex_idle (hn : n < clientMaxReadCount) : (idle n).idToListIndex n = n :=
  (congrArg (n % ·) capacity_start).trans (Nat.mod_eq_of_lt hn)

theorem slot_idle (n k : ℕ) : (idle n).activeMreads.slot k = none := Arraylist.slot_create _ _

theorem listed_idle (hn : n < clientMaxReadCount) : Listed (idle n) where
  tight := listed_start.tight
  capacity_le := listed_start.capacity_le
  generator_lt := Nat.lt_trans hn (by decide)
  placed := listed_start.placed
  owned := listed_start.owned

theorem create_idle (hn : n < clientMaxReadCount) :
    (idle n).clientCreateMreadRequest 0 [] = some (some 0,busy n) := by
  have hlisted := listed_idle hn
  have hfuel : 2 * (idle n).activeMreads.capacity = 1999 + 1 :=
    congrArg _ capacity_start
  have hfound : (idle n).findMreadId (2 * (idle n).activeMreads.capacity) n = some (n,n + 1) := by
    have hfree : ((idle n).activeMreads.get ((idle n).idToListIndex n)).isNone := by
      rw [hlisted.tight.get_eq,slot_idle]
      rfl
    have hnext : n + 1 < uintRange := Nat.lt_of_le_of_lt hn (by decide)
    rw [hfuel,findMreadId,Arraylist.findFree,if_pos hfree,Nat.mod_eq_of_lt hnext]
  unfold clientCreateMreadRequest
  rw [if_neg,show (idle n).mreadIdGenerator = n from rfl,hfound,map_some]
  · dsimp only
    rw [slot_idle,idToListIndex_idle hn]
    rfl
  · intro hfull
    exact hlisted.tight.size_eq_capacity_iff.mp hfull (slot_idle n _)

theorem remove_busy (hn : n < clientMaxReadCount) :
    step (busy n) (.remove (some 0)) = some (idle (n + 1)) := by
  have hlt := Nat.lt_of_lt_of_eq hn capacity_start.symm
  have hlisted : Listed (busy n) := by
    have hnew : Listed ⟨(idle n).activeMreads.insert ((idle n).idToListIndex n) 0,n + 1,
        Function.update (idle n).heap 0 (some ⟨n,[],0,0⟩)⟩ :=
      (listed_idle hn).insert rfl (slot_idle n _) (Nat.lt_of_le_of_lt hn (by decide))
    rwa [idToListIndex_idle hn] at hnew
  have hindex : (busy n).idToListIndex n = n := by
    have hcap : (busy n).activeMreads.capacity = (idle n).activeMreads.capacity :=
      Arraylist.capacity_insert hlt
    exact (congrArg (n % ·) hcap).trans (idToListIndex_idle hn)
  have hlist : (busy n).activeMreads.remove n = (idle n).activeMreads :=
    (listed_idle hn).tight.insert_remove hlt (slot_idle n n)
  have hheap : Function.update (busy n).heap 0 none = fun _ => none := by
    unfold busy
    rw [Function.update_idem,Function.update_eq_self]
  rw [step,clientRemoveMreadRequest_eq hlisted rfl,hindex,hlist,hheap]
  rfl

theorem run_sequential (hn : n ≤ clientMaxReadCount) :
    Run step Allowed start (sequential n) (idle n) := by
  induction n with
  | zero => exact .nil _
  | succ n ih =>
    have hstep : step (idle n) (.create 0 []) = some (busy n) := by
      rw [step,create_idle hn]
      rfl
    have hbefore := ih (Nat.le_of_succ_le hn)
    refine hbefore.append (.cons rfl hstep (.cons ?_ (remove_busy hn) (.nil _)))
    intro ptr hptr
    cases hptr
    exact some_ne_none _

end Sequential

/-- After 999 reads one after another the next mread is in the last slot. While it is active no
other can be created, although all other slots are free. -/
theorem create_refused :
    ∃ t, Run step Allowed start (sequential 999 ++ [.create 0 []]) t ∧
      Allowed t (.create 1 []) ∧ t.clientCreateMreadRequest 1 [] = some (none,t) ∧
      t.activeMreads.slot 0 = none ∧ ¬ Full t := by
  have hlt : 999 < (idle 999).activeMreads.capacity :=
    Nat.lt_of_lt_of_eq (by decide) capacity_start.symm
  have hrun : Run step Allowed start (sequential 999 ++ [.create 0 []]) (busy 999) := by
    refine (run_sequential (by decide)).append (.cons rfl ?_ (.nil _))
    rw [step,create_idle (by decide)]
    rfl
  have hcap : (busy 999).activeMreads.capacity = clientMaxReadCount :=
    (Arraylist.capacity_insert hlt).trans capacity_start
  have hslot : ∀ k, (busy 999).activeMreads.slot k = if 999 = k then some 0 else none := by
    intro k
    rw [← slot_idle 999]
    exact Arraylist.slot_insert k
  have hfirst := hslot 0
  refine ⟨busy 999,hrun,rfl,?_,hfirst,fun hfull => ?_⟩
  · rcases clientCreateMreadRequest_cases (listed_of_run hrun) 1 [] with ⟨-,hcall⟩ | ⟨hlast,-⟩
    · exact hcall
    · rw [hcap,hslot] at hlast
      cases hlast
  · obtain ⟨p,m,hp,-⟩ := hfull 0 (by rw [hcap]; decide)
    rw [hfirst] at hp
    cases hp

end UnifyFS.ActiveMreads
