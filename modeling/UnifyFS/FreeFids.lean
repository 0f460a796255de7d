import UnifyFS.ClientEntries
import UnifyFS.FreeStack
import Mathlib.Data.List.Perm.Subperm

/-!
# Free entries of the file table

The file table of a client with the stack of free entries as it is in memory: an array that takes no
more entries than there are files. The functions are those of `client/src/unifyfs_fid.c` again, and
on the list of the free entries they do what their counterparts in `UnifyFS.ClientFiles` do, as long
as no entry is pushed on a full stack.

An entry can be deleted by two ways, by a call of `unifyfs_fid_delete` and by a look-up of its
metadata after an unlink callback, and the call makes such a look-up itself. The lock of the client
is recursive. Whichever way is taken, the entry goes to the stack once: the deletion within takes
the fid out of the metadata, and the one around it finds no metadata.
-/
namespace UnifyFS.FreeFids
open ClientFiles GuardedRuns ListUpdates WriteIndex List Option

/-- The tables of the client, with the free stack in memory. -/
structure FileTable where
  files : List FileSlot
  freeFidStack : FreeStack
  deriving DecidableEq, Repr

namespace FileTable

def view (t : FileTable) : Client := ⟨t.files,t.freeFidStack.items⟩

def modifySlot (t : FileTable) (fid : ℕ) (f : FileSlot → FileSlot) : FileTable :=
  { t with files := t.files.modify fid f }

def modifyMeta (t : FileTable) (fid : ℕ) (f : FileMeta → FileMeta) : FileTable :=
  t.modifySlot fid (FileSlot.editMeta f)

/-- `unifyfs_fid_alloc`. No fid is the code -EMFILE. -/
def fidAlloc (t : FileTable) : Option ℕ × FileTable :=
  (t.freeFidStack.pop.1,{ t with freeFidStack := t.freeFidStack.pop.2 })

def fidFree (t : FileTable) (fid : ℕ) : FileTable :=
  { t with freeFidStack := t.freeFidStack.push fid }

def deleteWith (look : FileTable → Option FileMeta × FileTable) (t : FileTable) (fid : ℕ) :
    Rc × FileTable :=
  match look (t.modifySlot fid FileSlot.release) with
  | (some m,t) =>
    if m.fid = fid then (Rc.success,(t.modifyMeta fid Client.freeStorage).fidFree fid)
    else (Rc.failure,t)
  | (none,t) => (Rc.failure,t)

def deletePlain (t : FileTable) (fid : ℕ) : Rc × FileTable :=
  deleteWith (fun t => (t.files[fid]?.map FileSlot.filemeta,t)) t fid

def getMetaFromFid (t : FileTable) (fid : ℕ) : Option FileMeta × FileTable :=
  match t.files[fid]? with
  | none => (none,t)
  | some s =>
    if s.Marked fid then (none,(deletePlain (t.modifyMeta fid (setMark false)) fid).2)
    else (some s.filemeta,t)

def fidDelete (t : FileTable) (fid : ℕ) : Rc × FileTable :=
  deleteWith (fun t => t.getMetaFromFid fid) t fid

def unlinkCallback (t : FileTable) (gfid : ℤ) : FileTable :=
  match t.view.fidFromGfid gfid with
  | none => t
  | some fid =>
    match t.getMetaFromFid fid with
    | (some m,t) => if m.fid = fid then t.modifyMeta fid (setMark true) else t
    | (none,t) => t

def claim (t : FileTable) (fid : ℕ) (path : String) : FileTable :=
  t.modifySlot fid fun s => { s with inUse := true, filename := path }

/-- `unifyfs_fid_create_file`. The callbacks come in before the metadata are looked up; the call
does not return if there are none. -/
def fidCreateFile (generateGfid : String → ℤ) (t : FileTable) (who : Caller) (path : String)
    (isPrivate : Bool) (callbacks : List ℤ) : Option (Except Rc ℕ × FileTable) :=
  if tooLong path then some (.error Rc.enametoolong,t)
  else
    match t.fidAlloc with
    | (none,t) => some (.error Rc.emfile,t)
    | (some fid,t) =>
      match (callbacks.foldl unlinkCallback (t.claim fid path)).getMetaFromFid fid with
      | (none,_) => none
      | (some _,t) =>
        some (.ok fid,t.modifyMeta fid (newMeta generateGfid who path isPrivate fid))

end FileTable

def tableInit (maxFiles : ℕ) : FileTable :=
  ⟨List.replicate maxFiles zeroSlot,FreeStack.init maxFiles⟩

inductive FidOp where
  | create (who : Caller) (path : String) (isPrivate : Bool) (callbacks : List ℤ)
  | delete (fid : ℕ)
  | callback (gfid : ℤ)
  | lookup (fid : ℕ)

/-- Entries are deleted while they are in use. -/
def fidStep (generateGfid : String → ℤ) (t : FileTable) : FidOp → Option FileTable
  | .create who path isPrivate callbacks =>
    (t.fidCreateFile generateGfid who path isPrivate callbacks).map Prod.snd
  | .delete fid => if t.files[fid]?.any FileSlot.inUse then some (t.fidDelete fid).2 else none
  | .callback gfid => some (t.unlinkCallback gfid)
  | .lookup fid => some (t.getMetaFromFid fid).2

namespace FileTable
variable {t : FileTable} {fid : ℕ} {s : FileSlot} {look : FileTable → Option FileMeta × FileTable}

def Room (t : FileTable) : Prop := t.freeFidStack.last < t.freeFidStack.size

def seen {α : Type} (out : α × FileTable) : α × Client := (out.1,out.2.view)

theorem view_fidFree (h : t.Room) :
    (t.fidFree fid).view = { t.view with freeFidStack := fid :: t.view.freeFidStack } :=
  congrArg (Client.mk t.files) (FreeStack.items_push h)

theorem view_fidAlloc (t : FileTable) : t.fidAlloc.1 = t.view.freeFidStack.head? ∧
      t.fidAlloc.2.view = { t.view with freeFidStack := t.view.freeFidStack.tail } := by
  obtain ⟨htop,hrest⟩ := t.freeFidStack.pop_eq
  exact ⟨htop,congrArg (Client.mk t.files) hrest⟩

theorem seen_deleteWith {look' : Client → Option FileMeta × Client}
    (hlook : seen (look (t.modifySlot fid FileSlot.release)) =
      look' (t.view.modifySlot fid FileSlot.release))
    (hroom : ∀ m, (look (t.modifySlot fid FileSlot.release)).1 = some m → m.fid = fid →
      (look (t.modifySlot fid FileSlot.release)).2.Room) :
    seen (deleteWith look t fid) = Client.deleteWith look' t.view fid := by
  unfold deleteWith Client.deleteWith
  dsimp only
  rw [← hlook]
  generalize look (t.modifySlot fid FileSlot.release) = out at hroom ⊢
  obtain ⟨found,u⟩ := out
  cases found with
  | none => rfl
  | some m =>
    dsimp only [seen]
    split_ifs with hfid
    · exact congrArg (Prod.mk _) (view_fidFree (hroom m rfl hfid))
    · rfl

theorem seen_deletePlain (hroom : t.Room) (fid : ℕ) :
    seen (t.deletePlain fid) = t.view.deletePlain fid :=
  seen_deleteWith rfl fun _ _ _ => hroom

theorem seen_getMetaFromFid
    (hroom : ∀ s : FileSlot, t.files[fid]? = some s → s.Marked fid → t.Room) :
    seen (t.getMetaFromFid fid) = t.view.getMetaFromFid fid := by
  change seen (match t.files[fid]? with | none => _ | some s => _) = match t.files[fid]? with
    | none => _
    | some s => _
  cases hs : t.files[fid]? with
  | none => rfl
  | some s =>
    dsimp only
    split_ifs with hmark
    · have hroom' : (t.modifyMeta fid (setMark false)).Room := hroom s hs hmark
      have hplain := seen_deletePlain hroom' fid
      exact congrArg (Prod.mk none) (congrArg Prod.snd hplain)
    · rfl

theorem seen_fidDelete (hroom : t.Room) : seen (t.fidDelete fid) = t.view.fidDelete fid := by
  apply seen_deleteWith
  · exact seen_getMetaFromFid fun _ _ _ => hroom
  · intro m hm _
    unfold getMetaFromFid at hm ⊢
    cases hs : (t.modifySlot fid FileSlot.release).files[fid]? with
    | none => exact hroom
    | some s =>
      simp only [hs] at hm ⊢
      split_ifs at hm ⊢
      exact hroom

theorem view_unlinkCallback (hroom : ∀ (j : ℕ) (s : FileSlot), t.files[j]? = some s →
    s.inUse = true → t.Room) (gfid : ℤ) :
    (t.unlinkCallback gfid).view = t.view.unlinkCallback gfid := by
  unfold unlinkCallback Client.unlinkCallback
  cases hfound : t.view.fidFromGfid gfid with
  | none => rfl
  | some fid =>
    obtain ⟨s,hs,hp⟩ := mem_of_findIdx? hfound
    have hinUse := (Bool.and_eq_true_iff.mp hp).1
    dsimp only
    rw [← seen_getMetaFromFid fun _ _ _ => hroom fid s hs hinUse]
    obtain ⟨found,u⟩ := t.getMetaFromFid fid
    cases found with
    | none => rfl
    | some m =>
      dsimp only [seen]
      split_ifs <;> rfl

/-! The size of the array does not change. -/

theorem size_deleteWith (hlook : ∀ t, (look t).2.freeFidStack.size = t.freeFidStack.size) :
    (deleteWith look t fid).2.freeFidStack.size = t.freeFidStack.size := by
  have h : (look (t.modifySlot fid FileSlot.release)).2.freeFidStack.size =
      t.freeFidStack.size := hlook (t.modifySlot fid FileSlot.release)
  rw [← h]
  unfold deleteWith
  obtain ⟨found,u⟩ := look (t.modifySlot fid FileSlot.release)
  cases found with
  | none => rfl
  | some m =>
    dsimp only
    split_ifs
    · exact FreeStack.size_push u.freeFidStack fid
    · rfl

theorem size_getMetaFromFid (t : FileTable) (fid : ℕ) :
    (t.getMetaFromFid fid).2.freeFidStack.size = t.freeFidStack.size := by
  unfold getMetaFromFid
  cases t.files[fid]? with
  | none => rfl
  | some s =>
    dsimp only
    split_ifs
    · exact size_deleteWith fun _ => rfl
    · rfl

theorem size_fidDelete (t : FileTable) (fid : ℕ) :
    (t.fidDelete fid).2.freeFidStack.size = t.freeFidStack.size :=
  size_deleteWith fun u => u.size_getMetaFromFid fid

theorem size_unlinkCallback (t : FileTable) (gfid : ℤ) :
    (t.unlinkCallback gfid).freeFidStack.size = t.freeFidStack.size := by
  unfold unlinkCallback
  cases t.view.fidFromGfid gfid with
  | none => rfl
  | some fid =>
    rw [← t.size_getMetaFromFid fid]
    dsimp only
    obtain ⟨found,u⟩ := t.getMetaFromFid fid
    cases found with
    | none => rfl
    | some m =>
      dsimp only
      split_ifs <;> rfl

end FileTable

/-- The entries on the stack are those not in use, each once. The metadata of an entry in use have
its fid, except for one entry that is being created; an entry not in use is not marked. -/
structure Accounted (maxFiles : ℕ) (created : Option ℕ) (c : Client) : Prop where
  length : c.files.length = maxFiles
  nodup : c.freeFidStack.Nodup
  mem : ∀ i, i ∈ c.freeFidStack ↔ ∃ s : FileSlot, c.files[i]? = some s ∧ s.inUse = false
  own : ∀ {i : ℕ} {s : FileSlot}, c.files[i]? = some s → s.inUse = true → created ≠ some i →
    s.filemeta.fid = i
  unmarked : ∀ {i : ℕ} {s : FileSlot}, c.files[i]? = some s → s.inUse = false → ¬ s.Marked i

namespace Accounted
variable {n : ℕ} {created created' : Option ℕ} {c c' : Client} {fid : ℕ} {s : FileSlot}
  {path : String}

section
variable (h : Accounted n created c) (hs : c.files[fid]? = some s)
include h hs

theorem mem_iff : fid ∈ c.freeFidStack ↔ s.inUse = false := by
  rw [h.mem,hs]
  simp

theorem inUse_of_marked (hmark : s.Marked fid) : s.inUse = true := by
  by_contra hout
  exact h.unmarked hs (by simpa using hout) hmark

theorem length_lt (hinUse : s.inUse = true) : c.freeFidStack.length < n := by
  have hnot : fid ∉ c.freeFidStack := by simp [h.mem_iff hs,hinUse]
  have hsub : fid :: c.freeFidStack ⊆ List.range n := by
    intro i hi
    rw [mem_range,← h.length]
    cases mem_cons.mp hi with
    | inl heq =>
      subst heq
      exact (List.getElem?_eq_some_iff.mp hs).1
    | inr hmem =>
      obtain ⟨t,ht,-⟩ := (h.mem i).mp hmem
      exact (List.getElem?_eq_some_iff.mp ht).1
  have hle := (subperm_of_subset (nodup_cons.mpr ⟨hnot,h.nodup⟩) hsub).length_le
  rwa [length_range] at hle

theorem update {f : FileSlot → FileSlot} (hfiles : c'.files = c.files.modify fid f)
    (hnodup : c'.freeFidStack.Nodup)
    (hmem : ∀ i, i ≠ fid → (i ∈ c'.freeFidStack ↔ i ∈ c.freeFidStack))
    (hself : fid ∈ c'.freeFidStack ↔ (f s).inUse = false)
    (hcreated : ∀ i, i ≠ fid → created = some i → created' = some i)
    (hown : (f s).inUse = true → created' ≠ some fid → (f s).filemeta.fid = fid)
    (hunmarked : (f s).inUse = false → ¬ (f s).Marked fid) : Accounted n created' c' := by
  have hnew : c'.files[fid]? = some (f s) := by
    rw [hfiles,getElem?_modify_ite,if_pos rfl,hs,map_some]
  have hother : ∀ i, i ≠ fid → c'.files[i]? = c.files[i]? := by
    intro i hi
    rw [hfiles,getElem?_modify_ite,if_neg (Ne.symm hi)]
  refine ⟨?_,hnodup,?_,?_,?_⟩
  · rw [hfiles,length_modify]
    exact h.length
  · intro i
    by_cases hi : i = fid
    · subst hi
      simp [hself,hnew]
    · rw [hmem i hi,hother i hi]
      exact h.mem i
  · intro i u hu hinUse hne
    by_cases hi : i = fid
    · subst hi
      obtain rfl := some.inj (hnew.symm.trans hu)
      exact hown hinUse hne
    · rw [hother i hi] at hu
      exact h.own hu hinUse fun hc => hne (hcreated i hi hc)
  · intro i u hu hout
    by_cases hi : i = fid
    · subst hi
      obtain rfl := some.inj (hnew.symm.trans hu)
      exact hunmarked hout
    · rw [hother i hi] at hu
      exact h.unmarked hu hout

theorem drop (hinUse : s.inUse = true) (hfid : s.filemeta.fid = fid) :
    Accounted n created (c.drop fid) := by
  have hstack : (c.drop fid).freeFidStack = fid :: c.freeFidStack := by
    simp [Client.drop,hs,hfid]
  have hnot : fid ∉ c.freeFidStack := by simp [h.mem_iff hs,hinUse]
  apply h.update hs rfl
  · rw [hstack]
    exact nodup_cons.mpr ⟨hnot,h.nodup⟩
  · intro i hi
    simp [hstack,hi]
  · simp [hstack,FileSlot.drop]
  · exact fun _ _ hc => hc
  · intro hin
    exact absurd hin Bool.false_ne_true
  · intro _ hmark
    exact fid_drop_ne fid s hmark.1

theorem mark (hinUse : s.inUse = true) : Accounted n created (c.modifyMeta fid (setMark true)) := by
  have hself := h.mem_iff hs
  have hown := h.own hs hinUse
  apply h.update hs rfl
  · exact h.nodup
  · exact fun _ _ => Iff.rfl
  · exact hself
  · exact fun _ _ hc => hc
  · exact fun _ hne => hown hne
  · intro hout
    exact absurd (hout.symm.trans hinUse) Bool.false_ne_true

end

theorem claim (h : Accounted n none c) (hhead : c.freeFidStack.head? = some fid) :
    Accounted n (some fid) (c.claim fid path) := by
  obtain ⟨rest,hstack⟩ := head?_eq_some_iff.mp hhead
  have hnodup := h.nodup
  rw [hstack,nodup_cons] at hnodup
  obtain ⟨s,hs,-⟩ := (h.mem fid).mp (mem_of_mem_head? hhead)
  have hrest : (c.claim fid path).freeFidStack = rest := congrArg List.tail hstack
  apply h.update hs rfl
  · rw [hrest]
    exact hnodup.2
  · intro i hi
    simp [hrest,hstack,hi]
  · simp [hrest,hnodup.1]
  · exact fun _ _ hc => absurd hc.symm (some_ne_none _)
  · exact fun _ hne => absurd rfl hne
  · exact fun hout => absurd hout.symm Bool.false_ne_true

theorem create {generateGfid : String → ℤ} {who : Caller} {isPrivate : Bool}
    (h : Accounted n (some fid) c) (hs : c.files[fid]? = some s) :
    Accounted n none (c.modifyMeta fid (newMeta generateGfid who path isPrivate fid)) := by
  have hself := h.mem_iff hs
  apply h.update hs rfl
  · exact h.nodup
  · exact fun _ _ => Iff.rfl
  · exact hself
  · exact fun i hi hc => absurd (some.inj hc).symm hi
  · exact fun _ _ => rfl
  · exact fun _ hmark => Bool.false_ne_true hmark.2

theorem getMetaFromFid (h : Accounted n created c) (fid : ℕ) :
    Accounted n created (c.getMetaFromFid fid).2 := by
  cases hs : c.files[fid]? with
  | none =>
    rw [Client.getMetaFromFid_of_none hs]
    exact h
  | some s =>
    by_cases hmark : s.Marked fid
    · rw [Client.getMetaFromFid_of_marked hs hmark]
      exact h.drop hs (h.inUse_of_marked hs hmark) hmark.1
    · rw [Client.getMetaFromFid_of_not_marked hs hmark]
      exact h

theorem unlinkCallback (h : Accounted n created c) (gfid : ℤ) :
    Accounted n created (c.unlinkCallback gfid) := by
  unfold Client.unlinkCallback
  cases hfound : c.fidFromGfid gfid with
  | none => exact h
  | some fid =>
    obtain ⟨s,hs,hp⟩ := mem_of_findIdx? hfound
    have hinUse := (Bool.and_eq_true_iff.mp hp).1
    dsimp only
    by_cases hmark : s.Marked fid
    · rw [Client.getMetaFromFid_of_marked hs hmark]
      exact h.drop hs hinUse hmark.1
    · rw [Client.getMetaFromFid_of_not_marked hs hmark]
      dsimp only
      split_ifs
      · exact h.mark hs hinUse
      · exact h

end Accounted

theorem accounted_init (n : ℕ) : Accounted n none (tableInit n).view := by
  have hslot : ∀ {i : ℕ} {s : FileSlot}, (tableInit n).view.files[i]? = some s →
      i < n ∧ s = zeroSlot := by
    intro i s hs
    change (List.replicate n zeroSlot)[i]? = some s at hs
    rw [getElem?_replicate] at hs
    split_ifs at hs with hi
    exact ⟨hi,(some.inj hs).symm⟩
  have hstack : (tableInit n).view.freeFidStack = List.range n := FreeStack.items_init n
  refine ⟨length_replicate,?_,?_,?_,?_⟩
  · rw [hstack]
    exact nodup_range
  · intro i
    rw [hstack,mem_range]
    constructor
    · intro hi
      exact ⟨zeroSlot,by simp [FileTable.view,tableInit,hi],rfl⟩
    · rintro ⟨s,hs,-⟩
      exact (hslot hs).1
  · intro i s hs hinUse
    rw [(hslot hs).2] at hinUse
    exact absurd hinUse Bool.false_ne_true
  · intro i s hs _ hmark
    rw [(hslot hs).2] at hmark
    exact Bool.false_ne_true hmark.2

variable {generateGfid : String → ℤ} {n : ℕ} {t : FileTable}

theorem run_fidCreateFile {who : Caller} {path : String} {isPrivate : Bool} (c : Client)
    (batch : List Notice) :
    (ClientFiles.fidCreateFile generateGfid who path isPrivate).run ⟨c,[batch]⟩ =
      if tooLong path then some (.error Rc.enametoolong,⟨c,[batch]⟩)
      else
        match c.freeFidStack.head? with
        | none => some (.error Rc.emfile,⟨c,[batch]⟩)
        | some fid =>
          if fid < c.files.length then
            match ((c.claim fid path).deliver batch).getMetaFromFid fid with
            | (none,_) => none
            | (some _,c) =>
              some (.ok fid,⟨c.modifyMeta fid (newMeta generateGfid who path isPrivate fid),[]⟩)
          else none := by
  unfold ClientFiles.fidCreateFile
  split_ifs
  · rfl
  · change (match c.freeFidStack.head? with | none => _ | some fid => _ : Triples.Prog World _)
      ⟨c,[batch]⟩ = _
    cases c.freeFidStack.head? with
    | none => rfl
    | some fid =>
      change (if fid < c.files.length then _ else _ : Triples.Prog World _) ⟨c,[batch]⟩ = _
      dsimp only
      split_ifs
      · change (if (((c.claim fid path).deliver batch).getMetaFromFid fid).1.isSome then _
          else _ : Triples.Prog World _)
            ⟨(((c.claim fid path).deliver batch).getMetaFromFid fid).2,[]⟩ = _
        generalize ((c.claim fid path).deliver batch).getMetaFromFid fid = found
        obtain ⟨m,c⟩ := found
        cases m <;> rfl
      · rfl

/-- The array has room for every file, and its entries are accounted for. -/
structure Sound (maxFiles : ℕ) (created : Option ℕ) (t : FileTable) : Prop where
  size : t.freeFidStack.size = maxFiles
  accounted : Accounted maxFiles created t.view

namespace Sound
variable {n : ℕ} {created : Option ℕ} {t t' : FileTable} {fid : ℕ} {s : FileSlot}

section
variable (h : Sound n created t)
include h

theorem room (hs : t.files[fid]? = some s) (hinUse : s.inUse = true) : t.Room := by
  have hlt := h.accounted.length_lt hs hinUse
  unfold FileTable.Room
  rw [h.size]
  simpa [FileTable.view] using hlt

theorem seen_getMetaFromFid (fid : ℕ) :
    FileTable.seen (t.getMetaFromFid fid) = t.view.getMetaFromFid fid :=
  FileTable.seen_getMetaFromFid fun _ hs hmark =>
    h.room hs (h.accounted.inUse_of_marked hs hmark)

theorem getMetaFromFid (fid : ℕ) : Sound n created (t.getMetaFromFid fid).2 := by
  refine ⟨(t.size_getMetaFromFid fid).trans h.size,?_⟩
  have hview : (t.getMetaFromFid fid).2.view = (t.view.getMetaFromFid fid).2 :=
    congrArg Prod.snd (h.seen_getMetaFromFid fid)
  rw [hview]
  exact h.accounted.getMetaFromFid fid

theorem unlinkCallback (gfid : ℤ) : Sound n created (t.unlinkCallback gfid) := by
  refine ⟨(t.size_unlinkCallback gfid).trans h.size,?_⟩
  rw [FileTable.view_unlinkCallback fun _ _ => h.room]
  exact h.accounted.unlinkCallback gfid

theorem callbacks (gfids : List ℤ) : Sound n created (gfids.foldl FileTable.unlinkCallback t) := by
  induction gfids generalizing t with
  | nil => exact h
  | cons gfid gfids ih => exact ih (h.unlinkCallback gfid)

end

theorem fidDelete (h : Sound n none t) (hs : t.files[fid]? = some s) (hinUse : s.inUse = true) :
    Sound n none (t.fidDelete fid).2 := by
  refine ⟨(t.size_fidDelete fid).trans h.size,?_⟩
  have hview : (t.fidDelete fid).2.view = (t.view.fidDelete fid).2 :=
    congrArg Prod.snd (FileTable.seen_fidDelete (h.room hs hinUse))
  rw [hview,Client.fidDelete_snd hs]
  exact h.accounted.drop hs hinUse (h.accounted.own hs hinUse (some_ne_none _).symm)

theorem view_callbacks (h : Sound n created t) (gfids : List ℤ) :
    (gfids.foldl FileTable.unlinkCallback t).view = gfids.foldl Client.unlinkCallback t.view := by
  induction gfids generalizing t with
  | nil => rfl
  | cons gfid gfids ih =>
    rw [foldl_cons,foldl_cons,ih (h.unlinkCallback gfid),
      FileTable.view_unlinkCallback fun _ _ => h.room]

theorem view_claim (htop : t.fidAlloc.1 = some fid) (path : String) :
    t.view.freeFidStack.head? = some fid ∧
      (t.fidAlloc.2.claim fid path).view = t.view.claim fid path := by
  obtain ⟨hhead,hrest⟩ := t.view_fidAlloc
  have hitems : t.fidAlloc.2.freeFidStack.items = t.view.freeFidStack.tail :=
    congrArg Client.freeFidStack hrest
  refine ⟨hhead.symm.trans htop,?_⟩
  unfold FileTable.claim FileTable.view FileTable.modifySlot
  rw [hitems]
  rfl

theorem claim (h : Sound n none t) (htop : t.fidAlloc.1 = some fid) (path : String) :
    Sound n (some fid) (t.fidAlloc.2.claim fid path) := by
  obtain ⟨hhead,hview⟩ := view_claim htop path
  refine ⟨(FreeStack.size_pop _).trans h.size,?_⟩
  rw [hview]
  exact h.accounted.claim hhead

theorem fidAlloc_none (h : Sound n none t) (htop : t.fidAlloc.1 = none) :
    Sound n none t.fidAlloc.2 ∧ t.fidAlloc.2.view = t.view := by
  obtain ⟨hhead,hrest⟩ := t.view_fidAlloc
  have hnil := head?_eq_none_iff.mp (hhead.symm.trans htop)
  have hsame : t.fidAlloc.2.view = t.view := by
    rw [hrest,hnil]
    exact congrArg (Client.mk t.files) hnil.symm
  exact ⟨⟨(FreeStack.size_pop _).trans h.size,hsame ▸ h.accounted⟩,hsame⟩

theorem fid_lt (h : Sound n none t) (htop : t.fidAlloc.1 = some fid) : fid < n := by
  obtain ⟨hhead,-⟩ := view_claim htop ""
  obtain ⟨s,hs,-⟩ := (h.accounted.mem fid).mp (mem_of_mem_head? hhead)
  rw [← h.accounted.length]
  exact (List.getElem?_eq_some_iff.mp hs).1

variable {generateGfid : String → ℤ} {who : Caller} {path : String} {isPrivate : Bool}

theorem fidCreateFile {gfids : List ℤ} {out : Except Rc ℕ} (h : Sound n none t)
    (hout : t.fidCreateFile generateGfid who path isPrivate gfids = some (out,t')) :
    Sound n none t' := by
  unfold FileTable.fidCreateFile at hout
  split_ifs at hout
  · obtain ⟨-,rfl⟩ := Prod.mk.inj (some.inj hout)
    exact h
  · rw [← Prod.eta t.fidAlloc] at hout
    cases htop : t.fidAlloc.1 with
    | none =>
      rw [htop] at hout
      obtain ⟨-,rfl⟩ := Prod.mk.inj (some.inj hout)
      exact (h.fidAlloc_none htop).1
    | some fid =>
      have hlater := ((h.claim htop path).callbacks gfids).getMetaFromFid fid
      rw [htop] at hout
      dsimp only at hout
      generalize FileTable.getMetaFromFid _ fid = found at hlater hout
      obtain ⟨m,v⟩ := found
      cases m with
      | none => cases hout
      | some m =>
        obtain ⟨-,rfl⟩ := Prod.mk.inj (some.inj hout)
        have hlt : fid < v.files.length := by
          rw [show v.files.length = n from hlater.accounted.length]
          exact h.fid_lt htop
        exact ⟨hlater.size,hlater.accounted.create (getElem?_eq_getElem hlt)⟩

/-- A creation is that of the client with the free entries as a list. -/
theorem seen_fidCreateFile (h : Sound n none t) (batch : List Notice) :
    (t.fidCreateFile generateGfid who path isPrivate (batch.map Notice.gfid)).map FileTable.seen =
      ((ClientFiles.fidCreateFile generateGfid who path isPrivate).run ⟨t.view,[batch]⟩).map
        fun out => (out.1,out.2.client) := by
  rw [run_fidCreateFile]
  unfold FileTable.fidCreateFile
  split_ifs
  · rfl
  · rw [← Prod.eta t.fidAlloc]
    cases htop : t.fidAlloc.1 with
    | none =>
      have hhead := t.view_fidAlloc.1.symm.trans htop
      rw [hhead]
      exact congrArg (fun c => some (Except.error Rc.emfile,c)) (h.fidAlloc_none htop).2
    | some fid =>
      obtain ⟨hhead,hview⟩ := view_claim htop path
      have hlater := (h.claim htop path).callbacks (batch.map Notice.gfid)
      have hmeta := hlater.seen_getMetaFromFid fid
      rw [(h.claim htop path).view_callbacks,hview] at hmeta
      have hlt : fid < t.view.files.length := by
        rw [h.accounted.length]
        exact h.fid_lt htop
      rw [hhead]
      dsimp only
      rw [if_pos hlt,Client.deliver,← foldl_map (f := Notice.gfid),← hmeta]
      generalize FileTable.getMetaFromFid _ fid = found
      obtain ⟨m,v⟩ := found
      cases m <;> rfl

end Sound

theorem sound_tableInit (n : ℕ) : Sound n none (tableInit n) :=
  ⟨by simp [tableInit,FreeStack.init,FreeStack.size],accounted_init n⟩

theorem sound_step {t' : FileTable} {op : FidOp} (h : Sound n none t)
    (hstep : fidStep generateGfid t op = some t') : Sound n none t' := by
  cases op with
  | create who path isPrivate gfids =>
    obtain ⟨⟨out,u⟩,hout,rfl⟩ := map_eq_some_iff.mp hstep
    exact h.fidCreateFile hout
  | delete fid =>
    rw [fidStep] at hstep
    split_ifs at hstep with hinUse
    cases hstep
    rw [Option.any_eq_true] at hinUse
    obtain ⟨s,hs,hinUse⟩ := hinUse
    exact h.fidDelete hs hinUse
  | callback gfid =>
    cases hstep
    exact h.unlinkCallback gfid
  | lookup fid =>
    cases hstep
    exact h.getMetaFromFid fid

theorem sound_foldlM {ops : List FidOp}
    (h : ops.foldlM (fidStep generateGfid) (tableInit n) = some t) : Sound n none t :=
  foldlM_invariant (fun _ _ _ _ hs => sound_step hs) h (sound_tableInit n)

/-- After every sequence of calls from a fresh client, the free stack has no duplicates and holds
the entries that are not in use, which are all files together with those in use. -/
theorem free_stack_exact (generateGfid : String → ℤ) (maxFiles : ℕ) (ops : List FidOp)
    (t : FileTable) (h : ops.foldlM (fidStep generateGfid) (tableInit maxFiles) = some t) :
    t.freeFidStack.items.Nodup ∧
      (∀ i, i ∈ t.freeFidStack.items ↔ ∃ s : FileSlot, t.files[i]? = some s ∧ s.inUse = false) ∧
      ∀ i, i < maxFiles ↔ i ∈ t.freeFidStack.items ∨
        ∃ s : FileSlot, t.files[i]? = some s ∧ s.inUse = true := by
  have hsound := sound_foldlM h
  have hmem := hsound.accounted.mem
  refine ⟨hsound.accounted.nodup,hmem,?_⟩
  intro i
  have hlen := hsound.accounted.length
  constructor
  · intro hi
    rw [← hlen] at hi
    cases hinUse : t.files[i].inUse with
    | true => exact .inr ⟨t.files[i],getElem?_eq_getElem hi,hinUse⟩
    | false => exact .inl ((hmem i).mpr ⟨t.files[i],getElem?_eq_getElem hi,hinUse⟩)
  · intro hi
    rw [← hlen]
    cases hi with
    | inl hfree =>
      obtain ⟨s,hs,-⟩ := (hmem i).mp hfree
      exact (List.getElem?_eq_some_iff.mp hs).1
    | inr hused =>
      obtain ⟨s,hs,-⟩ := hused
      exact (List.getElem?_eq_some_iff.mp hs).1

/-- The second file is deleted by a call that meets the mark of a callback. -/
def unlinkedOps : List FidOp :=
  [.create ⟨0,0,⟨0,0⟩⟩ "a" false [],.create ⟨0,0,⟨0,0⟩⟩ "b" false [],.callback 1,.lookup 0,
    .callback 2,.delete 1,.create ⟨0,0,⟨0,0⟩⟩ "a" true [1]]

theorem free_stack_exact_unlinked : ∃ t,
    unlinkedOps.foldlM (fidStep fun path => if path = "a" then 1 else 2) (tableInit 3) = some t ∧
      t.freeFidStack.items.Nodup ∧
      (∀ i, i ∈ t.freeFidStack.items ↔ ∃ s : FileSlot, t.files[i]? = some s ∧ s.inUse = false) ∧
      ∀ i, i < 3 ↔ i ∈ t.freeFidStack.items ∨
        ∃ s : FileSlot, t.files[i]? = some s ∧ s.inUse = true := by
  have hsome : (unlinkedOps.foldlM (fidStep fun path => if path = "a" then 1 else 2)
      (tableInit 3)).isSome = true := by
    decide +kernel
  obtain ⟨t,ht⟩ := isSome_iff_exists.mp hsome
  exact ⟨t,ht,free_stack_exact _ 3 unlinkedOps t ht⟩

def threeGfids (path : String) : ℤ := if path = "a" then 1 else if path = "b" then 2 else 3

/-- Two entries are in use, the first is marked, and the second is while the third is created. -/
theorem seen_fidCreateFile_third : ∃ t,
    (unlinkedOps.take 3).foldlM (fidStep threeGfids) (tableInit 3) = some t ∧
      (t.fidCreateFile threeGfids ⟨0,0,⟨0,0⟩⟩ "c" false [2]).map FileTable.seen =
        ((ClientFiles.fidCreateFile threeGfids ⟨0,0,⟨0,0⟩⟩ "c" false).run
          ⟨t.view,[[⟨2,by decide⟩]]⟩).map fun out => (out.1,out.2.client) := by
  have hsome : ((unlinkedOps.take 3).foldlM (fidStep threeGfids) (tableInit 3)).isSome = true := by
    decide +kernel
  obtain ⟨t,ht⟩ := isSome_iff_exists.mp hsome
  exact ⟨t,ht,(sound_foldlM ht).seen_fidCreateFile [⟨2,by decide⟩]⟩

end UnifyFS.FreeFids
