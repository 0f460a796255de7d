import UnifyFS.SyncRefinement

/-!
# Syncs of several clients

The syncs of all clients of a server meet in one list of pending extents of the inode, in
the order of their arrival, and are applied whenever the server gets to it. Where clients
write apart from one another, the file does not depend on how their syncs interleave.
-/
namespace UnifyFS.SyncOrders
open GuardedRuns RangeLists ExtentTree InodeModel WriteIndex SyncRefinement List

/-- An event at the server, and the log of the client that it comes from. -/
abbrev ClientSync := LogId × SyncEvent

namespace ClientSync

def step (ino : Inode) (ev : ClientSync) : Option Inode := syncStep ev.1 ino ev.2

def extents (ev : ClientSync) : Option (List Extent) := ev.2.request.map (map (decodeIndex ev.1))

end ClientSync

def owner (e : Extent) : LogId := ⟨e.info.svrRank,e.info.appId,e.info.cliId⟩

theorem owner_decodeIndex (id : LogId) (entry : IndexEntry) : owner (decodeIndex id entry) = id :=
  rfl

theorem foldl_overwriteExtent_apply (l : List Extent) (f : ℕ → Option LogLoc) (b : ℕ) :
    l.foldl overwriteExtent f b =
      ((l.filter (·.Holds b)).getLast?.map fun e => e.value LogLoc.val b).or (f b) := by
  induction l using reverseRecOn with
  | nil => rfl
  | append_singleton l e ih =>
    rw [foldl_append,foldl_cons,foldl_nil,overwriteExtent_apply,ih,filter_append]
    by_cases hb : e.Holds b
    · simp [hb]
    · simp [hb]

section
variable {l l' : List Extent} (hsame : ∀ id, l.filter (owner · = id) = l'.filter (owner · = id))
include hsame

theorem mem_of_sameOrders {e : Extent} (he : e ∈ l') : e ∈ l := by
  have hown : e ∈ l'.filter (owner · = owner e) := mem_filter.mpr ⟨he,by simp⟩
  rw [← hsame] at hown
  exact mem_of_mem_filter hown

/-- At each byte only the extents of one client count, and their order is the same. -/
theorem foldl_overwriteExtent_interleaved
    (hapart : ∀ d ∈ l, ∀ e ∈ l, d.Meets e → owner d = owner e) (f : ℕ → Option LogLoc) :
    l.foldl overwriteExtent f = l'.foldl overwriteExtent f := by
  funext b
  have hone : ∃ id, ∀ e ∈ l, e.Holds b → owner e = id := by
    by_cases hheld : ∃ e ∈ l, e.Holds b
    · obtain ⟨d,hd,hdb⟩ := hheld
      exact ⟨owner d,fun e he heb => hapart e he d hd ⟨heb.1.trans hdb.2,hdb.1.trans heb.2⟩⟩
    · exact ⟨⟨0,0,0⟩,fun e he heb => absurd ⟨e,he,heb⟩ hheld⟩
  obtain ⟨id,hid⟩ := hone
  have hfilter : ∀ k ⊆ l, k.filter (·.Holds b) = (k.filter (owner · = id)).filter (·.Holds b) := by
    intro k hk
    rw [filter_filter]
    refine filter_congr fun e he => ?_
    by_cases heb : e.Holds b
    · simp [heb,hid e (hk he) heb]
    · simp [heb]
  rw [foldl_overwriteExtent_apply,foldl_overwriteExtent_apply,hfilter l (Subset.refl l),
    hfilter l' fun _ => mem_of_sameOrders hsame,hsame]

end

section
variable {ino u v : Inode} {reqs reqs' : List (List Extent)}

theorem foldlM_step_applied (h : Applied ino [] ino) (evs : List ClientSync)
    (hreqs : ∀ es ∈ evs.filterMap ClientSync.extents, es ≠ [] ∧ ∀ e ∈ es, Fits e) :
    ∃ u, evs.foldlM ClientSync.step ino = some u ∧
      Applied ino (evs.filterMap ClientSync.extents) u := by
  apply exists_foldlM
  · intro done ev t hev happlied
    obtain ⟨u,hu,hdone⟩ := syncStep_applied happlied ev.2 fun entries he => by
      obtain ⟨hne,hfits⟩ := hreqs (entries.map (decodeIndex ev.1))
        (mem_filterMap.mpr ⟨ev,hev,by rw [ClientSync.extents,he]; rfl⟩)
      exact ⟨fun hnil => hne (map_eq_nil_iff.mpr hnil),
        fun entry hentry => hfits _ (mem_map_of_mem hentry)⟩
    refine ⟨u,hu,?_⟩
    have hreq : [ev].filterMap ClientSync.extents =
        ev.2.request.toList.map (map (decodeIndex ev.1)) := by
      obtain ⟨id,e⟩ := ev
      cases e <;> rfl
    rw [filterMap_append,hreq]
    exact hdone
  · exact h

theorem eq_nil_iff_flatten (hne : ∀ es ∈ reqs, es ≠ []) : reqs = [] ↔ reqs.flatten = [] := by
  rw [flatten_eq_nil_iff]
  exact ⟨fun h es hes => by simp [h] at hes,
    fun h => eq_nil_iff_forall_not_mem.mpr fun es hes => hne es hes (h es hes)⟩

/-- Requests that make the same map make the same file. -/
theorem same_file (h : Applied ino reqs u) (h' : Applied ino reqs' v)
    (hdone : u.pending = []) (hdone' : v.pending = []) (hnil : reqs = [] ↔ reqs' = [])
    (hmap : reqs.flatten.foldl overwriteExtent (extentMap ino) =
      reqs'.flatten.foldl overwriteExtent (extentMap ino)) :
    extentMap u = extentMap v ∧ u.attr.size = v.attr.size := by
  have hu := h.map
  have hv := h'.map
  rw [hdone] at hu
  rw [hdone'] at hv
  have hsame : extentMap u = extentMap v := hu.trans (hmap.trans hv.symm)
  have htop := h.ok.sound.isTop.eq_of_contents h.ok.sound.separate h'.ok.sound.separate
    h'.ok.sound.isTop (congrFun hsame)
  refine ⟨hsame,?_⟩
  have hsize := h.size
  have hsize' := h'.size
  rw [hdone] at hsize
  rw [hdone'] at hsize'
  cases hsize with
  | inl hold =>
    cases hsize' with
    | inl hold' => exact hold.2.trans hold'.2.symm
    | inr hnew' => exact absurd (hnil.mp hold.1.symm) hnew'.1
  | inr hnew =>
    cases hsize' with
    | inl hold' => exact absurd (hnil.mpr hold'.1.symm) hnew.1
    | inr hnew' =>
      apply BitVec.eq_of_toNat_eq
      rw [hnew.2,hnew'.2,htop]

end

/-- Two servers that get the same syncs of each client, interleaved and applied in different
ways, have the same file at the end if no two clients wrote to one byte. -/
theorem interleaved_syncs_same_file (ino : Inode) (hino : ino.Ok)
    (hlam : ino.attr.isLaminated = 0) (hpending : ino.pending = []) (evs evs' : List ClientSync)
    (hreqs : ∀ es ∈ evs.filterMap ClientSync.extents, es ≠ [] ∧ ∀ e ∈ es, Fits e)
    (hreqs' : ∀ es ∈ evs'.filterMap ClientSync.extents, es ≠ [])
    (hsame : ∀ id, (evs.filterMap ClientSync.extents).flatten.filter (owner · = id) =
      (evs'.filterMap ClientSync.extents).flatten.filter (owner · = id))
    (hapart : ∀ d ∈ (evs.filterMap ClientSync.extents).flatten,
      ∀ e ∈ (evs.filterMap ClientSync.extents).flatten, d.Meets e → owner d = owner e) :
    ∃ u v, evs.foldlM ClientSync.step ino = some u ∧ evs'.foldlM ClientSync.step ino = some v ∧
      (u.pending = [] → v.pending = [] →
        extentMap u = extentMap v ∧ u.attr.size = v.attr.size) := by
  have hstart : Applied ino [] ino :=
    ⟨hino,hlam,by simp [hpending],by rw [hpending],.inl ⟨hpending,rfl⟩⟩
  obtain ⟨u,hu,happlied⟩ := foldlM_step_applied hstart evs hreqs
  obtain ⟨v,hv,happlied'⟩ := foldlM_step_applied hstart evs' fun es hes => ⟨hreqs' es hes,by
    intro e he
    obtain ⟨ds,hds,he⟩ := mem_flatten.mp (mem_of_sameOrders hsame (mem_flatten.mpr ⟨es,hes,he⟩))
    exact (hreqs ds hds).2 e he⟩
  refine ⟨u,v,hu,hv,fun hdone hdone' => same_file happlied happlied' hdone hdone' ?_
    (foldl_overwriteExtent_interleaved hsame hapart _)⟩
  rw [eq_nil_iff_flatten fun es hes => (hreqs es hes).1,eq_nil_iff_flatten hreqs',
    eq_nil_iff_forall_not_mem,eq_nil_iff_forall_not_mem]
  exact ⟨fun h e he => h e (mem_of_sameOrders hsame he),
    fun h e he => h e (mem_of_sameOrders (fun id => (hsame id).symm) he)⟩

def otherLog : LogId := ⟨0,1,2⟩

def alternating : List ClientSync :=
  [(myLog,.fsync [⟨0,0,4,7⟩]),(otherLog,.fsync [⟨4,0,4,7⟩]),(myLog,.process fun _ => .first),
    (myLog,.fsync [⟨2,4,2,7⟩]),(myLog,.process fun _ => .first)]

def oneByOne : List ClientSync :=
  [(otherLog,.fsync [⟨4,0,4,7⟩]),(myLog,.fsync [⟨0,0,4,7⟩]),(myLog,.fsync [⟨2,4,2,7⟩]),
    (myLog,.process fun _ => .first)]

/-- The first client overwrites its own bytes, next to those of the second. -/
theorem interleaved_syncs_two_clients : ∃ u v,
    alternating.foldlM ClientSync.step emptyInode = some u ∧
      oneByOne.foldlM ClientSync.step emptyInode = some v ∧
      extentMap u = extentMap v ∧ u.attr.size = v.attr.size := by
  obtain ⟨u,v,hu,hv,hall⟩ := interleaved_syncs_same_file emptyInode emptyInode_ok rfl rfl
    alternating oneByOne (by unfold Fits; decide) (by decide) (by
      intro id
      by_cases hmine : myLog = id
      · subst hmine
        decide
      · by_cases hother : otherLog = id
        · subst hother
          decide
        · simp [alternating,oneByOne,filterMap_cons,ClientSync.extents,SyncEvent.request,
            owner_decodeIndex,hmine,hother]) (by decide)
  have hpending : (alternating.foldlM ClientSync.step emptyInode).map Inode.pending = some [] := by
    decide +kernel
  have hpending' : (oneByOne.foldlM ClientSync.step emptyInode).map Inode.pending = some [] := by
    decide +kernel
  rw [hu] at hpending
  rw [hv] at hpending'
  exact ⟨u,v,hu,hv,hall (Option.some.inj hpending) (Option.some.inj hpending')⟩

end UnifyFS.SyncOrders
