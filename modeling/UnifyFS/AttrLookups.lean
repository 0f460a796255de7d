import UnifyFS.FileAttr
import UnifyFS.GuardedRuns
import UnifyFS.ListUpdates
import Mathlib.Data.List.Nodup

/-!
# Looking up attributes at the owner of a file

A server that is asked for the attributes or the size of a file it does not own
forwards the request to the owner, stores the reply in its own inode and answers.
While a lookup is pending, further requests for the same file wait for it and then
read the local inode; a request for the attributes may also be answered from the
local inode while that is recent.

The requests run concurrently. A step of the model is one access to what they share:
the inodes, the list of pending lookups, or a message to or from the owner. Whatever
else changes an inode, here or at the owner, is a step of its own. Locks, allocation
failures and the copies of the file name are left out.
-/
namespace UnifyFS.AttrLookups
open GuardedRuns List Option

/-- The attributes by gfid. The tree takes an inode only under the gfid in its attributes. -/
structure Table where
  attr : ℤ → Option FileAttr
  gfid_eq : ∀ g a, attr g = some a → a.gfid = g

namespace Table

def empty : Table := ⟨fun _ => none,fun _ _ h => by cases h⟩

def put (t : Table) (a : FileAttr) : Table where
  attr := Function.update t.attr a.gfid (some a)
  gfid_eq g b h := by
    by_cases hg : g = a.gfid
    · subst hg
      rw [Function.update_self] at h
      rw [some.inj h]
    · rw [Function.update_of_ne hg] at h
      exact t.gfid_eq g b h

def remove (t : Table) (g : ℤ) : Table where
  attr := Function.update t.attr g none
  gfid_eq k b h := by
    by_cases hk : k = g
    · subst hk
      rw [Function.update_self] at h
      cases h
    · rw [Function.update_of_ne hk] at h
      exact t.gfid_eq k b h

@[simp] theorem put_self (t : Table) (a : FileAttr) : (t.put a).attr a.gfid = some a :=
  Function.update_self ..

theorem put_of_ne (t : Table) {a : FileAttr} {g : ℤ} (h : g ≠ a.gfid) :
    (t.put a).attr g = t.attr g := Function.update_of_ne h ..

theorem remove_of_ne (t : Table) {g k : ℤ} (h : g ≠ k) : (t.remove k).attr g = t.attr g :=
  Function.update_of_ne h ..

end Table

/-- What any other operation does to an inode. -/
inductive Change where
  | put (a : FileAttr)
  | remove (g : ℤ)

def Change.gfid : Change → ℤ
  | .put a => a.gfid
  | .remove g => g

def Change.apply : Change → Table → Table
  | .put a, t => t.put a
  | .remove g, t => t.remove g

def smGetFileattr (t : Table) (g : ℤ) (attrs : FileAttr) : Rc × FileAttr :=
  match t.attr g with
  | some a => (Rc.success,a)
  | none => (Rc.enoent,attrs)

def unifyfsInodeCreate (t : Table) (g : ℤ) (attr : FileAttr) (now : ℤ) : Rc × Table :=
  let a := (FileAttr.update .create FileAttr.invalid attr now).2
  if g ≠ a.gfid then (Rc.einval,t)
  else if (t.attr g).isSome then (Rc.eexist,t)
  else (Rc.success,t.put a)

def unifyfsInodeUpdateAttr (t : Table) (g : ℤ) (op : FileAttr.Op) (attr : FileAttr) (now : ℤ) :
    Rc × Table :=
  match t.attr g with
  | none => (Rc.enoent,t)
  | some a => (Rc.success,t.put (FileAttr.update op a attr now).2)

def unifyfsInodeMetaset (t : Table) (g : ℤ) (op : FileAttr.Op) (attr : FileAttr) (now : ℤ) :
    Rc × Table :=
  if op = .create then unifyfsInodeCreate t g attr now
  else unifyfsInodeUpdateAttr t g op attr now

/-- `sm_set_fileattr` at a server that is not the owner: there is nothing to broadcast. -/
def smSetFileattr (t : Table) (g : ℤ) (op : FileAttr.Op) (attr : FileAttr) (now : ℤ) :
    Rc × Table :=
  unifyfsInodeMetaset t g op attr now

def addPendingMetaget (pending : List ℤ) (g : ℤ) : Rc × List ℤ :=
  if g ∈ pending then (Rc.eexist,pending) else (Rc.success,pending ++ [g])

def checkPendingMetaget (pending : List ℤ) (g : ℤ) : Bool := decide (g ∈ pending)

def clearPendingMetaget (pending : List ℤ) (g : ℤ) : Rc × List ℤ :=
  if g ∈ pending then (Rc.success,pending.erase g) else (Rc.failure,pending)

inductive Kind where
  | metaget | filesize
  deriving DecidableEq, Repr

/-- What a request hands back besides its return code. -/
inductive Output where
  | attrs (a : FileAttr)
  | size (n : BitVec 64)
  deriving DecidableEq, Repr

def Kind.output : Kind → FileAttr → Output
  | .metaget, a => .attrs a
  | .filesize, a => .size a.size

/-- The output when the owner could not be asked: the size is left at zero, the
attributes at what the local lookup found. -/
def Kind.failed : Kind → FileAttr → Output
  | .metaget, a => .attrs a
  | .filesize, _ => .size 0

structure MetagetOut where
  ret : Rc
  attr : FileAttr
  deriving DecidableEq, Repr

/-- Where a request is. It has looked at the local inode; waits for another request's
lookup; has seen that lookup end; has asked the owner; has the reply; has stored it. -/
inductive Phase where
  | checked (needLocalMetadata : Bool)
  | waiting
  | released
  | asking (needLocalMetadata : Bool)
  | replied (needLocalMetadata : Bool) (reply : MetagetOut)
  | clearing (ret : Rc) (out : Output)
  | done
  deriving DecidableEq, Repr

structure Call where
  kind : Kind
  gfid : ℤ
  attrs : FileAttr
  phase : Phase
  deriving DecidableEq, Repr

structure Answer where
  kind : Kind
  gfid : ℤ
  fromLocal : Bool
  ret : Rc
  out : Output
  deriving DecidableEq, Repr

/-- A server and, for each gfid, the attributes at the owner of that file. -/
structure Server where
  glbPmiRank : ℤ
  glbPmiSize : ℤ
  inodes : Table
  owners : Table
  pendingMetagets : List ℤ
  calls : List Call
  answers : List Answer

def metadataCacheSeconds : ℤ := 5

def hashGfidToServer (s : Server) (g : ℤ) : ℤ := g.tmod s.glbPmiSize

def localAnswer (t : Table) (kind : Kind) (g : ℤ) (attrs : FileAttr) : Answer :=
  let r := smGetFileattr t g attrs
  ⟨kind,g,true,r.1,kind.output r.2⟩

namespace Server

def setPhase (s : Server) (i : ℕ) (c : Call) (p : Phase) : Server :=
  { s with calls := s.calls.set i { c with phase := p } }

def answerLocal (s : Server) (kind : Kind) (g : ℤ) (attrs : FileAttr) : Server :=
  { s with answers := s.answers ++ [localAnswer s.inodes kind g attrs] }

end Server

/-- The common start of both requests: the local lookup, and what is answered from it. -/
def invokeLookup (s : Server) (kind : Kind) (g : ℤ) (buf : FileAttr) (cached : FileAttr → Bool) :
    Server :=
  let r := smGetFileattr s.inodes g buf
  if hashGfidToServer s g = s.glbPmiRank then s.answerLocal kind g buf
  else if r.1 = Rc.success ∧ (r.2.isLaminated ≠ 0 ∨ cached r.2) then s.answerLocal kind g buf
  else { s with calls := s.calls ++ [⟨kind,g,r.2,.checked (decide (r.1 = Rc.enoent))⟩] }

def unifyfsInvokeMetagetRpc (s : Server) (g : ℤ) (attrs : FileAttr) (now : ℤ) : Server :=
  invokeLookup s .metaget g attrs fun a => decide (now ≤ a.lastUpdate + metadataCacheSeconds)

/-- Explicit lookups of the size do not use recent local attributes. -/
def unifyfsInvokeFilesizeRpc (s : Server) (g : ℤ) : Server :=
  invokeLookup s .filesize g FileAttr.zero fun _ => false

/-- The call of `add_pending_metaget` and what the request does next. -/
def enlist (s : Server) (i : ℕ) (c : Call) (need : Bool) : Server :=
  let r := addPendingMetaget s.pendingMetagets c.gfid
  { s.setPhase i c (if r.1 = Rc.eexist then .waiting else .asking need) with
    pendingMetagets := r.2 }

/-- `process_metaget_rpc` at the owner. -/
def processMetagetRpc (t : Table) (g : ℤ) : MetagetOut :=
  let r := smGetFileattr t g FileAttr.invalid
  ⟨r.1,r.2⟩

/-- The reply is stored only if the owner found the file. -/
def store (s : Server) (i : ℕ) (c : Call) (need : Bool) (reply : MetagetOut) (now : ℤ) : Server :=
  if reply.ret = Rc.success then
    { s.setPhase i c (.clearing reply.ret (c.kind.output reply.attr)) with
      inodes := (smSetFileattr s.inodes c.gfid (if need then .create else .utime)
        reply.attr now).2 }
  else s.setPhase i c (.clearing reply.ret (c.kind.failed c.attrs))

def clear (s : Server) (i : ℕ) (c : Call) (ret : Rc) (out : Output) : Server :=
  { s.setPhase i c .done with
    pendingMetagets := (clearPendingMetaget s.pendingMetagets c.gfid).2
    answers := s.answers ++ [⟨c.kind,c.gfid,false,ret,out⟩] }

/-- What a request does next, or what happens to the message it has sent. -/
inductive Action where
  | enlist
  | serve
  | lose (rc : Rc)
  | store (now : ℤ)
  | clear
  | release
  | fetch
  deriving DecidableEq, Repr

def callStep (s : Server) (i : ℕ) (c : Call) (a : Action) : Option Server :=
  match c.phase, a with
  | .checked need, .enlist => some (enlist s i c need)
  | .asking need, .serve =>
    some (s.setPhase i c (.replied need (processMetagetRpc s.owners c.gfid)))
  | .asking _, .lose rc =>
    if rc = Rc.success then none
    else some (s.setPhase i c (.clearing rc (c.kind.failed c.attrs)))
  | .replied need reply, .store now => some (store s i c need reply now)
  | .clearing ret out, .clear => some (clear s i c ret out)
  | .waiting, .release =>
    if checkPendingMetaget s.pendingMetagets c.gfid then none
    else some (s.setPhase i c .released)
  | .released, .fetch => some ((s.setPhase i c .done).answerLocal c.kind c.gfid c.attrs)
  | _, _ => none

inductive Event where
  | metaget (g : ℤ) (attrs : FileAttr) (now : ℤ)
  | filesize (g : ℤ)
  | act (i : ℕ) (a : Action)
  | localChange (c : Change)
  | ownerChange (c : Change)

def step (s : Server) : Event → Option Server
  | .metaget g attrs now => some (unifyfsInvokeMetagetRpc s g attrs now)
  | .filesize g => some (unifyfsInvokeFilesizeRpc s g)
  | .act i a => s.calls[i]?.bind fun c => callStep s i c a
  | .localChange c => some { s with inodes := c.apply s.inodes }
  | .ownerChange c => some { s with owners := c.apply s.owners }

/-- The table has a copy of the size and the mode of `A`. -/
def Copied (A : FileAttr) (t : Table) (g : ℤ) : Prop :=
  ∃ a, t.attr g = some a ∧ a.size = A.size ∧ a.mode = A.mode

section Stored
variable {t : Table} {g now : ℤ} {A : FileAttr}

theorem copied_create (hA : A.gfid = g) (hg : g ≠ FileAttr.invalidGfid) :
    Copied A (smSetFileattr t g .create A now).2 g ↔ t.attr g = none ∨ Copied A t g := by
  have hnew := FileAttr.update_create A now (hA ▸ hg)
  simp only [smSetFileattr,unifyfsInodeMetaset,if_true,unifyfsInodeCreate,hnew.1,hA,ne_eq,
    not_true_eq_false,if_false]
  cases ht : t.attr g with
  | some a => simp
  | none =>
    have hput := t.put_self (FileAttr.update .create FileAttr.invalid A now).2
    rw [hnew.1,hA] at hput
    simpa using ⟨_,hput,hnew.2.1,hnew.2.2.1⟩

theorem copied_utime : Copied A (smSetFileattr t g .utime A now).2 g ↔ Copied A t g := by
  simp only [smSetFileattr,unifyfsInodeMetaset,reduceCtorEq,if_false,unifyfsInodeUpdateAttr]
  cases ht : t.attr g with
  | none => rfl
  | some a =>
    have hsame := FileAttr.update_utime a A now
    have hput := t.put_self (FileAttr.update .utime a A now).2
    rw [FileAttr.update_gfid a A now (by simp),t.gfid_eq g a ht] at hput
    simp only [Copied,hput,ht,some.injEq,exists_eq_left',hsame]

end Stored

def Phase.Forwarded : Phase → Prop
  | .asking _ | .replied _ _ | .clearing _ _ => True
  | _ => False

/-- Of all requests for a file at most one is forwarded at a time, and meanwhile the
file is on the list. What the owner replies is about the file asked for. -/
structure Orderly (pending : List ℤ) (calls : List Call) : Prop where
  nodup : pending.Nodup
  listed : ∀ (i : ℕ) (c : Call), calls[i]? = some c → c.phase.Forwarded → c.gfid ∈ pending
  single : ∀ (i j : ℕ) (c d : Call), calls[i]? = some c → calls[j]? = some d →
    c.phase.Forwarded → d.phase.Forwarded → c.gfid = d.gfid → i = j
  reply : ∀ (i : ℕ) (c : Call) need r, calls[i]? = some c → c.phase = .replied need r →
    r.ret = Rc.success → r.attr.gfid = c.gfid

namespace Orderly
variable {pending : List ℤ} {calls : List Call} {i : ℕ} {c : Call} {p : Phase}

variable (h : Orderly pending calls)
include h

theorem push {need : Bool} (hc : c.phase = .checked need) : Orderly pending (calls ++ [c]) := by
  have hold : ∀ (j : ℕ) (d : Call), (calls ++ [c])[j]? = some d → d.phase ≠ .checked need →
      calls[j]? = some d := by
    intro j d hd hne
    cases ListUpdates.of_getElem?_concat hd with
    | inl hd => exact hd
    | inr hd => exact absurd (hd.2 ▸ hc) hne
  have hne : ∀ d : Call, d.phase.Forwarded → d.phase ≠ .checked need := by
    intro d hd heq
    rw [heq] at hd
    exact hd
  constructor
  · exact h.nodup
  · intro j d hd hf
    exact h.listed j d (hold j d hd (hne d hf)) hf
  · intro j k d e hd he hf hf'
    exact h.single j k d e (hold j d hd (hne d hf)) (hold k e he (hne e hf')) hf hf'
  · intro j d n r hd hr
    exact h.reply j d n r (hold j d hd (by simp [hr])) hr

theorem move (hc : calls[i]? = some c) (hp : p.Forwarded → c.phase.Forwarded)
    (hr : ∀ need r, p = .replied need r → r.ret = Rc.success → r.attr.gfid = c.gfid) :
    Orderly pending (calls.set i { c with phase := p }) := by
  have hold : ∀ (j : ℕ) (d : Call), (calls.set i { c with phase := p })[j]? = some d →
      d.phase.Forwarded → ∃ b : Call, calls[j]? = some b ∧ b.phase.Forwarded ∧ b.gfid = d.gfid := by
    intro j d hd hf
    rcases ListUpdates.of_getElem?_set hd with ⟨rfl,rfl⟩ | ⟨_,hd⟩
    · exact ⟨c,hc,hp hf,rfl⟩
    · exact ⟨d,hd,hf,rfl⟩
  constructor
  · exact h.nodup
  · intro j d hd hf
    obtain ⟨b,hb,hbf,hbg⟩ := hold j d hd hf
    exact hbg ▸ h.listed j b hb hbf
  · intro j k d e hd he hf hf' hg
    obtain ⟨b,hb,hbf,hbg⟩ := hold j d hd hf
    obtain ⟨b',hb',hbf',hbg'⟩ := hold k e he hf'
    exact h.single j k b b' hb hb' hbf hbf' (by rw [hbg,hbg',hg])
  · intro j d need r hd hdr
    rcases ListUpdates.of_getElem?_set hd with ⟨rfl,rfl⟩ | ⟨_,hd⟩
    · exact hr need r hdr
    · exact h.reply j d need r hd hdr

theorem enlist (hg : c.gfid ∉ pending) (need : Bool) :
    Orderly (pending ++ [c.gfid]) (calls.set i { c with phase := .asking need }) := by
  constructor
  · rw [← concat_eq_append]
    exact List.Nodup.concat hg h.nodup
  · intro j d hd hf
    rw [mem_append]
    rcases ListUpdates.of_getElem?_set hd with ⟨_,rfl⟩ | ⟨_,hd⟩
    · exact .inr (mem_singleton.mpr rfl)
    · exact .inl (h.listed j d hd hf)
  · -- a request that was forwarded before is for a file on the old list
    intro j k d e hd he hf hf' heq
    rcases ListUpdates.of_getElem?_set hd with ⟨rfl,rfl⟩ | ⟨_,hd⟩
    · rcases ListUpdates.of_getElem?_set he with ⟨rfl,rfl⟩ | ⟨_,he⟩
      · rfl
      · exact absurd (heq ▸ h.listed k e he hf') hg
    · rcases ListUpdates.of_getElem?_set he with ⟨rfl,rfl⟩ | ⟨_,he⟩
      · exact absurd (heq ▸ h.listed j d hd hf) hg
      · exact h.single j k d e hd he hf hf' heq
  · intro j d n r hd hr
    rcases ListUpdates.of_getElem?_set hd with ⟨_,rfl⟩ | ⟨_,hd⟩
    · cases hr
    · exact h.reply j d n r hd hr

theorem clear (hc : calls[i]? = some c) (hf : c.phase.Forwarded) :
    Orderly (pending.erase c.gfid) (calls.set i { c with phase := .done }) := by
  have hmove : Orderly pending (calls.set i { c with phase := .done }) :=
    h.move hc (fun hp => hp.elim) (fun _ _ hr => by cases hr)
  constructor
  · exact h.nodup.erase _
  · intro j d hd hdf
    refine (mem_erase_of_ne ?_).mpr (hmove.listed j d hd hdf)
    intro heq
    rcases ListUpdates.of_getElem?_set hd with ⟨_,rfl⟩ | ⟨hne,hd⟩
    · exact hdf
    · exact hne (h.single i j c d hc hd hf hdf heq.symm)
  · exact hmove.single
  · exact hmove.reply

end Orderly

variable {s u : Server} {i : ℕ} {c : Call} {A : FileAttr} {t : Table} {g : ℤ} {ret : Rc}
  {out : Output}

section
variable (h : Orderly s.pendingMetagets s.calls)
include h

theorem invokeLookup_orderly (kind : Kind) (g : ℤ) (buf : FileAttr) (cached : FileAttr → Bool) :
    Orderly (invokeLookup s kind g buf cached).pendingMetagets
      (invokeLookup s kind g buf cached).calls := by
  unfold invokeLookup
  dsimp only
  split_ifs
  · exact h
  · exact h
  · exact h.push rfl

theorem callStep_orderly (hc : s.calls[i]? = some c) {a : Action}
    (hstep : callStep s i c a = some u) : Orderly u.pendingMetagets u.calls := by
  unfold callStep at hstep
  split at hstep
  · next need _ =>
    cases hstep
    unfold enlist addPendingMetaget
    by_cases hg : c.gfid ∈ s.pendingMetagets
    · simp only [hg,if_true]
      exact h.move hc (fun hp => hp.elim) (fun _ _ hr => by cases hr)
    · simp only [hg,if_false]
      exact h.enlist hg need
  · next need hphase =>
    cases hstep
    refine h.move hc (fun _ => by rw [hphase]; trivial) ?_
    intro _ r hr hret
    cases hr
    unfold processMetagetRpc smGetFileattr at hret ⊢
    split at hret
    · next a ha => exact s.owners.gfid_eq _ _ ha
    · cases hret
  · next _ _ hphase =>
    split_ifs at hstep
    cases hstep
    exact h.move hc (fun _ => by rw [hphase]; trivial) (fun _ _ hr => by cases hr)
  · next _ _ _ hphase =>
    cases hstep
    unfold store
    split
    · exact h.move hc (fun _ => by rw [hphase]; trivial) (fun _ _ hr => by cases hr)
    · exact h.move hc (fun _ => by rw [hphase]; trivial) (fun _ _ hr => by cases hr)
  · next _ _ hphase =>
    cases hstep
    have hf : c.phase.Forwarded := by rw [hphase]; trivial
    unfold clear clearPendingMetaget
    rw [if_pos (h.listed i c hc hf)]
    exact h.clear hc hf
  · split_ifs at hstep
    cases hstep
    exact h.move hc (fun hp => hp.elim) (fun _ _ hr => by cases hr)
  · cases hstep
    exact h.move hc (fun hp => hp.elim) (fun _ _ hr => by cases hr)
  · cases hstep

theorem step_orderly {e : Event} (hstep : step s e = some u) :
    Orderly u.pendingMetagets u.calls := by
  cases e with
  | metaget g attrs now =>
    cases hstep
    exact invokeLookup_orderly h ..
  | filesize g =>
    cases hstep
    exact invokeLookup_orderly h ..
  | act i a =>
    obtain ⟨c,hc,hstep⟩ := bind_eq_some_iff.mp hstep
    exact callStep_orderly h hc hstep
  | localChange c =>
    cases hstep
    exact h
  | ownerChange c =>
    cases hstep
    exact h

end

/-- The answers given between two states of a run. -/
def Server.since (s u : Server) : List Answer := u.answers.drop s.answers.length

def Output.Reports (A : FileAttr) : Output → Prop
  | .attrs a => a.size = A.size ∧ a.mode = A.mode
  | .size n => n = A.size

def Answer.Reports (A : FileAttr) (x : Answer) : Prop := x.ret = Rc.success ∧ x.out.Reports A

instance (A : FileAttr) (o : Output) : Decidable (o.Reports A) :=
  match o with
  | .attrs _ => inferInstanceAs (Decidable (_ ∧ _))
  | .size _ => inferInstanceAs (Decidable (_ = _))

instance (A : FileAttr) (x : Answer) : Decidable (x.Reports A) :=
  inferInstanceAs (Decidable (_ ∧ _))

theorem Copied.reports (h : Copied A t g) (kind : Kind) (buf : FileAttr) :
    (localAnswer t kind g buf).Reports A := by
  obtain ⟨a,ha,hsize,hmode⟩ := h
  unfold localAnswer smGetFileattr
  rw [ha]
  cases kind with
  | metaget => exact ⟨rfl,hsize,hmode⟩
  | filesize => exact ⟨rfl,hsize⟩

theorem copied_of_reports {buf : FileAttr} (h : (localAnswer t .metaget g buf).Reports A) :
    Copied A t g := by
  unfold localAnswer smGetFileattr at h
  cases ha : t.attr g with
  | some a =>
    rw [ha] at h
    exact ⟨a,ha,h.2⟩
  | none =>
    rw [ha] at h
    exact absurd (show Rc.enoent = Rc.success from h.1) (by decide)

def Call.stores (c : Call) (g : ℤ) : Bool :=
  match c.phase with
  | .replied _ r => decide (c.gfid = g ∧ r.ret = Rc.success)
  | _ => false

/-- The event does not update the local inode of the file `g`. -/
def keeps (g : ℤ) (s : Server) : Event → Bool
  | .localChange c => c.gfid != g
  | .act i (.store _) => !s.calls[i]?.any fun c => c.stores g
  | _ => true

theorem smSetFileattr_of_ne {k now : ℤ} {op : FileAttr.Op} (h : k ≠ g) :
    (smSetFileattr t g op A now).2.attr k = t.attr k := by
  unfold smSetFileattr unifyfsInodeMetaset
  split_ifs with hop
  · unfold unifyfsInodeCreate
    dsimp only
    split_ifs with hg
    · rfl
    · rfl
    · exact t.put_of_ne fun hk => h (hk.trans (not_ne_iff.mp hg).symm)
  · unfold unifyfsInodeUpdateAttr
    split
    · rfl
    · next a ha =>
      refine t.put_of_ne fun hk => h ?_
      rw [hk,FileAttr.update_gfid a A now hop,t.gfid_eq g a ha]

theorem Change.apply_of_ne {c : Change} (h : c.gfid ≠ g) : (c.apply t).attr g = t.attr g := by
  cases c with
  | put a => exact t.put_of_ne h.symm
  | remove k => exact t.remove_of_ne h.symm

/-- What a step does to the local inode of `g` and which answer it gives. -/
structure Stepped (g : ℤ) (s u : Server) : Prop where
  inode : u.inodes.attr g = s.inodes.attr g
  answer : u.answers = s.answers ∨ ∃ x, u.answers = s.answers ++ [x] ∧
    (x.fromLocal = true → ∃ kind buf, x = localAnswer s.inodes kind x.gfid buf)

theorem invokeLookup_stepped (g : ℤ) (s : Server) (kind : Kind) (k : ℤ) (buf : FileAttr)
    (cached : FileAttr → Bool) : Stepped g s (invokeLookup s kind k buf cached) := by
  unfold invokeLookup
  dsimp only
  split_ifs
  · exact ⟨rfl,.inr ⟨_,rfl,fun _ => ⟨kind,buf,rfl⟩⟩⟩
  · exact ⟨rfl,.inr ⟨_,rfl,fun _ => ⟨kind,buf,rfl⟩⟩⟩
  · exact ⟨rfl,.inl rfl⟩

theorem callStep_stepped {a : Action} (hkeep : ∀ now, a = .store now → c.stores g = false)
    (h : callStep s i c a = some u) : Stepped g s u := by
  unfold callStep at h
  split at h
  · cases h
    exact ⟨rfl,.inl rfl⟩
  · cases h
    exact ⟨rfl,.inl rfl⟩
  · split_ifs at h
    cases h
    exact ⟨rfl,.inl rfl⟩
  · next need r now hphase =>
    cases h
    have hne := hkeep now rfl
    simp only [Call.stores,hphase,decide_eq_false_iff_not,not_and] at hne
    unfold store
    split
    · next hret => exact ⟨smSetFileattr_of_ne fun hg => hne hg.symm hret,.inl rfl⟩
    · exact ⟨rfl,.inl rfl⟩
  · cases h
    exact ⟨rfl,.inr ⟨_,rfl,fun hx => by cases hx⟩⟩
  · split_ifs at h
    cases h
    exact ⟨rfl,.inl rfl⟩
  · cases h
    exact ⟨rfl,.inr ⟨_,rfl,fun _ => ⟨c.kind,c.attrs,rfl⟩⟩⟩
  · cases h

theorem step_stepped {e : Event} (hkeep : keeps g s e = true) (h : step s e = some u) :
    Stepped g s u := by
  cases e with
  | metaget k attrs now =>
    cases h
    exact invokeLookup_stepped g s ..
  | filesize k =>
    cases h
    exact invokeLookup_stepped g s ..
  | act i a =>
    obtain ⟨c,hc,h⟩ := bind_eq_some_iff.mp h
    refine callStep_stepped ?_ h
    rintro now rfl
    simpa [keeps,hc] using hkeep
  | localChange c =>
    cases h
    exact ⟨Change.apply_of_ne (bne_iff_ne.mp hkeep),.inl rfl⟩
  | ownerChange c =>
    cases h
    exact ⟨rfl,.inl rfl⟩

/-- A run without another update of the local inode of `g`. -/
abbrev KeepRun (g : ℤ) : Server → List Event → Server → Prop :=
  Run step fun s e => keeps g s e = true

/-- From here on, until the inode is updated again, every answer about `g` that comes from
the local inode has the size and the mode of `A`. -/
def Serves (s : Server) (g : ℤ) (A : FileAttr) : Prop :=
  ∀ es u, KeepRun g s es u → ∀ x ∈ s.since u, x.gfid = g → x.fromLocal = true → x.Reports A

theorem Copied.serves (h : Copied A s.inodes g) : Serves s g A := by
  intro es u hrun
  have hinv : Copied A u.inodes g ∧ ∃ later, u.answers = s.answers ++ later ∧
      ∀ x ∈ later, x.gfid = g → x.fromLocal = true → x.Reports A := by
    refine hrun.invariant (I := fun u => Copied A u.inodes g ∧ ∃ later,
      u.answers = s.answers ++ later ∧
        ∀ x ∈ later, x.gfid = g → x.fromLocal = true → x.Reports A) ?_ ⟨h,[],by simp,by simp⟩
    rintro v e w ⟨hcopy,later,hlater,hgood⟩ hkeep hstep
    have hstepped := step_stepped hkeep hstep
    refine ⟨by simpa only [Copied,hstepped.inode] using hcopy,?_⟩
    rcases hstepped.answer with hsame | ⟨x,hx,hlocal⟩
    · exact ⟨later,hsame.trans hlater,hgood⟩
    · refine ⟨later ++ [x],by rw [hx,hlater,append_assoc],fun y hy => ?_⟩
      rcases mem_append.mp hy with hy | hy
      · exact hgood y hy
      · rw [mem_singleton.mp hy]
        intro hg hfrom
        obtain ⟨kind,buf,heq⟩ := hlocal hfrom
        rw [heq,hg]
        exact hcopy.reports kind buf
  obtain ⟨-,later,hlater,hgood⟩ := hinv
  intro x hx
  rw [Server.since,hlater,drop_left] at hx
  exact hgood x hx

theorem step_act (hc : s.calls[i]? = some c) (a : Action) :
    step s (.act i a) = callStep s i c a := by
  simp only [step,hc,bind_some]

theorem setPhase_self (hc : s.calls[i]? = some c) (d : Call) (p : Phase) :
    (s.setPhase i d p).calls[i]? = some { d with phase := p } :=
  getElem?_set_self (List.getElem?_eq_some_iff.mp hc).1

theorem setPhase_ne {j : ℕ} (h : i ≠ j) (d : Call) (p : Phase) :
    (s.setPhase i d p).calls[j]? = s.calls[j]? := getElem?_set_ne h

section
variable (ho : Orderly s.pendingMetagets s.calls) (hi : s.calls[i]? = some c)
  (hc : c.phase = .clearing ret out)
include ho hi hc

/-- A request that finds the lookup of another one pending is answered from the local
inode once that one is done. -/
theorem waiting_answered {n : ℕ} {w : Call} {need : Bool} (hn : s.calls[n]? = some w)
    (hw : w.phase = .checked need) (hg : w.gfid = c.gfid) :
    ∃ u, KeepRun c.gfid s [.act n .enlist,.act i .clear,.act n .release,.act n .fetch] u ∧
      u.answers = s.answers ++ [⟨c.kind,c.gfid,false,ret,out⟩,
        localAnswer s.inodes w.kind w.gfid w.attrs] := by
  have hlisted := ho.listed i c hi (by rw [hc]; trivial)
  have hne : n ≠ i := by
    rintro rfl
    rw [hi] at hn
    rw [← some.inj hn,hc] at hw
    cases hw
  have henlist : step s (.act n .enlist) = some (s.setPhase n w .waiting) := by
    rw [step_act hn]
    simp only [callStep,hw,enlist,addPendingMetaget,hg,hlisted,if_true]
    rfl
  have hi₁ : (s.setPhase n w .waiting).calls[i]? = some c := (setPhase_ne hne ..).trans hi
  have hn₁ := setPhase_self hn w .waiting
  have hclear := (step_act hi₁ .clear).trans
    (by simp only [callStep,hc] : _ = some (clear (s.setPhase n w .waiting) i c ret out))
  have hn₂ : (clear (s.setPhase n w .waiting) i c ret out).calls[n]? = _ :=
    (setPhase_ne hne.symm c .done).trans hn₁
  have hgone : w.gfid ∉ (clear (s.setPhase n w .waiting) i c ret out).pendingMetagets := by
    change w.gfid ∉ (clearPendingMetaget s.pendingMetagets c.gfid).2
    rw [clearPendingMetaget,if_pos hlisted,hg]
    exact ho.nodup.not_mem_erase
  have hrelease := step_act hn₂ .release
  simp only [callStep,checkPendingMetaget,hgone,decide_false,Bool.false_eq_true,if_false]
    at hrelease
  have hfetch := step_act (setPhase_self hn₂ { w with phase := .waiting } .released) .fetch
  refine ⟨_,.cons rfl henlist (.cons rfl hclear (.cons rfl hrelease (.cons rfl hfetch (.nil _)))),
    ?_⟩
  exact append_assoc ..

theorem exists_local_answer :
    ∃ es u buf, KeepRun c.gfid s es u ∧ localAnswer s.inodes .metaget c.gfid buf ∈ s.since u := by
  have hstart : step s (.metaget c.gfid FileAttr.zero 0) =
      some (unifyfsInvokeMetagetRpc s c.gfid FileAttr.zero 0) := rfl
  by_cases hnow : unifyfsInvokeMetagetRpc s c.gfid FileAttr.zero 0 =
      s.answerLocal .metaget c.gfid FileAttr.zero
  · rw [hnow] at hstart
    refine ⟨_,_,FileAttr.zero,.cons rfl hstart (.nil _),?_⟩
    simp [Server.since,Server.answerLocal]
  · -- neither the owner, nor laminated, nor recent: the request joins the list of calls
    let r := smGetFileattr s.inodes c.gfid FileAttr.zero
    let w : Call := ⟨.metaget,c.gfid,r.2,.checked (decide (r.1 = Rc.enoent))⟩
    have hcall : unifyfsInvokeMetagetRpc s c.gfid FileAttr.zero 0 =
        { s with calls := s.calls ++ [w] } := by
      unfold unifyfsInvokeMetagetRpc invokeLookup at hnow ⊢
      dsimp only at hnow ⊢
      split_ifs at hnow ⊢
      · exact absurd rfl hnow
      · exact absurd rfl hnow
      · rfl
    rw [hcall] at hstart
    have hi' : (s.calls ++ [w])[i]? = some c := by
      rw [getElem?_append_left (List.getElem?_eq_some_iff.mp hi).1]
      exact hi
    obtain ⟨u,hrun,hans⟩ := waiting_answered (step_orderly ho hstart) hi' hc
      getElem?_concat_length rfl rfl
    refine ⟨_,u,r.2,.cons rfl hstart hrun,?_⟩
    rw [Server.since,hans]
    simp [w]

theorem serves_iff : Serves s c.gfid A ↔ Copied A s.inodes c.gfid := by
  constructor
  · intro h
    obtain ⟨es,u,buf,hrun,hmem⟩ := exists_local_answer ho hi hc
    exact copied_of_reports (h es u hrun _ hmem rfl rfl)
  · exact Copied.serves

end

/-- A request for the attributes or the size of a file gets the attributes `A` from the owner.
Then the local inode stands in for them until it is updated again if and only if there
was no inode, neither when the request looked nor when the reply is stored, or the inode
has the size and the mode of `A` already: an inode that exists keeps its own. -/
theorem stored_reply_served_iff {s₀ s s' : Server} {es : List Event} {i : ℕ} {now : ℤ} {c : Call}
    {need : Bool} {A : FileAttr} (hcalls : s₀.calls = []) (hpending : s₀.pendingMetagets = [])
    (hrun : Run step (fun _ _ => True) s₀ es s) (hc : s.calls[i]? = some c)
    (hreply : c.phase = .replied need ⟨Rc.success,A⟩) (hg : c.gfid ≠ FileAttr.invalidGfid)
    (hstep : step s (.act i (.store now)) = some s') :
    Serves s' c.gfid A ↔
      s.inodes.attr c.gfid = none ∧ need = true ∨ Copied A s.inodes c.gfid := by
  have hinit : Orderly s₀.pendingMetagets s₀.calls := by
    rw [hcalls,hpending]
    constructor <;> simp
  have ho := hrun.invariant (fun _ _ _ h _ hs => step_orderly h hs) hinit
  have ho' := step_orderly ho hstep
  rw [step_act hc] at hstep
  simp only [callStep,hreply,store,if_true,some.injEq] at hstep
  subst hstep
  rw [serves_iff ho' (setPhase_self hc c _) rfl]
  cases need with
  | true =>
    simpa using copied_create (ho.reply i c true _ hc hreply rfl) hg
  | false =>
    simpa using copied_utime

def exampleAttr (size : BitVec 64) : FileAttr :=
  { FileAttr.zero with gfid := 5, isShared := 1, mode := FileAttr.defaultFileMode, size := size }

/-- Server 0 of two; the file 5 belongs to the other one and has ten bytes there. -/
def exampleServer (t : Table) : Server where
  glbPmiRank := 0
  glbPmiSize := 2
  inodes := t
  owners := Table.empty.put (exampleAttr 10)
  pendingMetagets := []
  calls := []
  answers := []

def exampleLookup : List Event :=
  [.metaget 5 FileAttr.zero 100,.act 0 .enlist,.act 0 .serve]

theorem stored_reply_served_iff_first :
    ∃ s s', Run step (fun _ _ => True) (exampleServer Table.empty) exampleLookup s ∧
      step s (.act 0 (.store 100)) = some s' ∧ Serves s' 5 (exampleAttr 10) := by
  have hexec : (exec step (fun _ _ => true) (exampleServer Table.empty) exampleLookup).any
      (fun s => decide (s.calls[0]? = some ⟨.metaget,5,FileAttr.zero,
        .replied true ⟨Rc.success,exampleAttr 10⟩⟩ ∧ s.inodes.attr 5 = none)) = true := by
    decide +kernel
  obtain ⟨s,hrun,htest⟩ := Run.exists_of_exec hexec
  obtain ⟨hc,hnone⟩ := of_decide_eq_true htest
  have hrun' := hrun.weaken fun _ _ _ => trivial
  exact ⟨s,_,hrun',step_act hc _,(stored_reply_served_iff rfl rfl hrun' hc rfl (by decide)
    (step_act hc _)).mpr (.inl ⟨hnone,rfl⟩)⟩

/-- An inode of the same file without bytes, out of date: the reply is stored, and the next
request for the attributes is told that the file is empty. -/
theorem stored_reply_keeps_size :
    ∃ s s', Run step (fun _ _ => True) (exampleServer (Table.empty.put (exampleAttr 0)))
        exampleLookup s ∧
      s.calls[0]? = some ⟨.metaget,5,exampleAttr 0,.replied false ⟨Rc.success,exampleAttr 10⟩⟩ ∧
      step s (.act 0 (.store 100)) = some s' ∧ ¬ Serves s' 5 (exampleAttr 10) := by
  have hexec : (exec step (fun _ _ => true) (exampleServer (Table.empty.put (exampleAttr 0)))
      exampleLookup).any (fun s => decide (s.calls[0]? = some ⟨.metaget,5,exampleAttr 0,
        .replied false ⟨Rc.success,exampleAttr 10⟩⟩) &&
        (step s (.act 0 (.store 100))).any fun s' =>
          (exec step (keeps 5) s' [.metaget 5 FileAttr.zero 101]).any fun u =>
            decide (∃ x ∈ s'.since u, x.gfid = 5 ∧ x.fromLocal = true ∧
              ¬ x.Reports (exampleAttr 10))) = true := by
    decide +kernel
  obtain ⟨s,hrun,htest⟩ := Run.exists_of_exec hexec
  obtain ⟨hc,htest⟩ := Bool.and_eq_true_iff.mp htest
  obtain ⟨hsome,htest⟩ := (any_eq_true_iff_get _ _).mp htest
  obtain ⟨u,hrun',htest⟩ := Run.exists_of_exec htest
  obtain ⟨x,hx,hg,hlocal,hbad⟩ := of_decide_eq_true htest
  exact ⟨s,_,hrun.weaken fun _ _ _ => trivial,of_decide_eq_true hc,(some_get hsome).symm,
    fun h => hbad (h _ u hrun' x hx hg hlocal)⟩

end UnifyFS.AttrLookups
