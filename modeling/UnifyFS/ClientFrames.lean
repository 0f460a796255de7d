import UnifyFS.ClientEntries

/-!
# What opening a file leaves alone

An open works on the entry of its own path: one that is in use under that name, or
one that it takes from the free stack. Callbacks that come in meanwhile work on the
entries of their files. A condition on the table that withstands these is kept by
the whole call. The invariant of the table is kept along with it.
-/
namespace UnifyFS.ClientFiles
open ListUpdates RangeTrees SegTreeOps WriteIndex Triples List

/-- The write leaves the metadata to the same file, which stays marked or laminated if it was. -/
structure SameMeta (m m' : FileMeta) : Prop where
  fid : m'.fid = m.fid
  gfid : m'.attrs.gfid = m.attrs.gfid
  mark : m'.pendingUnlink = m.pendingUnlink
  laminated : m'.attrs.isLaminated = m.attrs.isLaminated

/-- The condition survives a look-up of the metadata of the fid and writes to them that leave
them to the same file. -/
structure Stable (P : World → Prop) (fid : Option ℕ) : Prop where
  look : Triple P (getMeta fid) fun _ => P
  edit : ∀ {f : FileMeta → FileMeta}, (∀ m, SameMeta m (f m)) → Triple P (editMeta fid f) fun _ => P

namespace Stable
variable {P : World → Prop} {fid : Option ℕ}

section
variable (h : Stable P fid)
include h

theorem bind_getMeta {α : Type} (g : Option FileMeta → α) :
    Triple P (do let m ← getMeta fid; pure (g m)) fun _ => P := by
  apply h.look.bind
  intro m
  exact .keep

theorem fidSyncExtents (reply : Rc) : Triple P (fidSyncExtents fid reply) fun _ => P := by
  have hsame : ∀ m, SameMeta m (syncExtents m reply).2.1 := by
    intro m
    rw [syncExtents_meta]
    split <;> exact ⟨rfl,rfl,rfl,rfl⟩
  apply h.look.bind
  intro m
  cases m with
  | none => exact .keep
  | some m =>
    apply Triple.ite
    · intro _
      apply (h.edit hsame).bind
      intro _
      exact .keep
    · intro _
      exact .keep

theorem fidTruncate (S : Picker LogPtr) (length : ℕ) (r : Replies) :
    Triple P (fidTruncate S fid length r) fun _ => P := by
  apply h.look.bind
  intro m
  cases m with
  | none => exact .fault
  | some m =>
    dsimp only
    apply Triple.ite (fun _ => .keep)
    intro _
    apply Triple.ite (fun _ => .keep)
    intro _
    apply Triple.ite (fun _ => .keep)
    intro _
    split
    · exact .fault
    · refine Triple.bind (h.edit fun _ => ⟨rfl,rfl,rfl,rfl⟩) fun _ => ?_
      apply (h.fidSyncExtents r.sync).bind
      intro rc
      apply Triple.ite (fun _ => .keep)
      intro _
      refine Triple.bind (h.edit fun _ => ⟨rfl,rfl,rfl,rfl⟩) fun _ => ?_
      apply (h.bind_getMeta _).bind
      intro _
      exact .keep

theorem fidLogicalSize (r : Replies) : Triple P (fidLogicalSize fid r) fun _ => P := by
  apply (h.bind_getMeta _).bind
  intro laminated
  apply Triple.ite (fun _ => h.bind_getMeta _)
  intro _
  apply (h.fidSyncExtents r.sync).bind
  intro _
  apply (h.bind_getMeta _).bind
  intro _
  exact .keep

theorem openFinish (S : Picker LogPtr) (flags : BitVec 32) (r : Replies) :
    Triple P (openFinish S fid flags r) fun _ => P := by
  apply Triple.bind (Triple.ite (fun _ => h.fidTruncate S 0 r) fun _ => .keep)
  intro rc
  apply Triple.ite (fun _ => .keep)
  intro _
  apply Triple.bind (Triple.ite (fun _ => h.fidLogicalSize r) fun _ => .keep)
  intro pos
  exact .keep

end

theorem failWith (hdel : Triple P (fidDelete fid) fun _ => P) (rc : Rc) :
    Triple P (failWith fid rc) fun _ => P := by
  apply hdel.bind
  intro _
  exact .keep

theorem fidStorageAlloc {fid : ℕ} (h : Stable P (some fid)) :
    Triple P (fidStorageAlloc fid) fun _ => P := by
  apply h.look.bind
  intro m
  cases m with
  | none => exact .keep
  | some m =>
    apply Triple.ite
    · intro _
      refine Triple.bind (h.edit fun _ => ⟨rfl,rfl,rfl,rfl⟩) fun _ => ?_
      exact .keep
    · intro _
      exact .keep

/-- The checks of an open, for the fid that the look-up of the path gives. -/
theorem openFetched {P₀ : World → Prop} {P : Option ℕ → World → Prop} {path : String}
    (hpath : Triple P₀ (fidFromPath path) P) (h : ∀ fid, Stable (P fid) fid)
    (hdel : ∀ fid, Triple (P fid) (fidDelete fid) fun _ => P fid) (S : Picker LogPtr)
    (flags mode : BitVec 32) (r : Replies) :
    Triple P₀ (openFetched S path flags mode r) fun _ w => ∃ fid, P fid w := by
  apply hpath.bind
  intro fid
  apply Triple.post _ fun _ _ hw => ⟨fid,hw⟩
  apply ((h fid).bind_getMeta _).bind
  intro isDir
  apply Triple.ite (fun _ => failWith (hdel fid) _)
  intro _
  apply Triple.ite (fun _ => failWith (hdel fid) _)
  intro _
  apply ((h fid).bind_getMeta _).bind
  intro laminated
  apply Triple.ite (fun _ => failWith (hdel fid) _)
  intro _
  exact (h fid).openFinish S flags r

end Stable

/-- The condition `E` withstands changes of the entries `Ok`, and these are all that an open of
`path` and callbacks with `quiet` touch. -/
structure Frame (path : String) (quiet : Notice → Prop) (Ok : ℕ → Prop) (E : Client → Prop) :
    Prop where
  found : ∀ {c fid}, WF c → E c → c.fidFromPath path = some fid → Ok fid
  popped : ∀ {c fid}, WF c → E c → fid ∈ c.freeFidStack → Ok fid
  hit : ∀ {c fid s n}, WF c → E c → quiet n → c.files[fid]? = some s → s.inUse = true →
    s.filemeta.attrs.gfid = n.gfid → Ok fid
  changes : ∀ {c c' fid}, Ok fid → E c → Changes fid c c' → E c'
  claim : ∀ {c fid}, Ok fid → E c → E (c.claim fid path)

section Frames
variable {path : String} {quiet : Notice → Prop} {Ok : ℕ → Prop} {E : Client → Prop}

/-- The table and the condition on it, with a fid in hand. -/
structure Holding (quiet : Notice → Prop) (Ok : ℕ → Prop) (E : Client → Prop) (fid : Option ℕ)
    (w : World) : Prop where
  wf : WF w.client
  cond : E w.client
  arrivals : ∀ batch ∈ w.arrivals, ∀ n ∈ batch, quiet n
  ok : ∀ j, fid = some j → Ok j ∧ Held j w.client

theorem Holding.forget {fid : Option ℕ} {w : World} (h : Holding quiet Ok E fid w) :
    Holding quiet Ok E none w := ⟨h.wf,h.cond,h.arrivals,fun _ hj => by cases hj⟩

theorem Holding.changes {w : World} {j : ℕ} {c' : Client} (F : Frame path quiet Ok E)
    (h : Holding quiet Ok E (some j) w) (hc : Changes j w.client c') :
    Holding quiet Ok E (some j) { w with client := c' } := by
  obtain ⟨hok,hheld⟩ := h.ok j rfl
  refine ⟨hc.wf h.wf hheld,F.changes hok h.cond hc,h.arrivals,?_⟩
  intro k hk
  cases hk
  exact ⟨hok,hc.held hheld⟩

theorem Frame.unlinkCallback (F : Frame path quiet Ok E) {c : Client} {n : Notice} (hwf : WF c)
    (hE : E c) (hn : quiet n) : E (c.unlinkCallback n.gfid) := by
  cases unlinkCallback_cases c n.gfid with
  | inl hsame =>
    rw [hsame]
    exact hE
  | inr hhit =>
    obtain ⟨j,s,hs,hinUse,hgfid,-,hchanges⟩ := hhit
    exact F.changes (F.hit hwf hE hn hs hinUse hgfid) hE hchanges

theorem mem_headD {α : Type} {l : List (List α)} {x : α} (h : x ∈ l.headD []) : ∃ b ∈ l, x ∈ b := by
  cases l with
  | nil => cases h
  | cons b l => exact ⟨b,mem_cons_self,h⟩

section
variable (F : Frame path quiet Ok E) (fid : Option ℕ)
include F fid

theorem arrive_holding :
    Triple (Holding quiet Ok E fid) arrive fun _ => Holding quiet Ok E fid := by
  apply Triple.update
  intro w h
  have hquiet : ∀ n ∈ w.arrivals.headD [], quiet n := by
    intro n hn
    obtain ⟨b,hb,hmem⟩ := mem_headD hn
    exact h.arrivals b hb n hmem
  have hall := deliver_induct (P := fun c => WF c ∧ E c ∧ ∀ j, fid = some j → Ok j ∧ Held j c) _
    ⟨h.wf,h.cond,h.ok⟩ fun c n hn hc =>
      ⟨unlinkCallback_wf hc.1 _,F.unlinkCallback hc.1 hc.2.1 (hquiet n hn),
        fun j hj => ⟨(hc.2.2 j hj).1,unlinkCallback_held (hc.2.2 j hj).2 _⟩⟩
  exact ⟨hall.1,hall.2.1,fun b hb => h.arrivals b (mem_of_mem_tail hb),hall.2.2⟩

theorem getMeta_holding :
    Triple (Holding quiet Ok E fid) (getMeta fid) fun _ => Holding quiet Ok E fid := by
  cases fid with
  | none =>
    apply (arrive_holding F none).bind
    intro _
    exact .keep
  | some j =>
    apply (arrive_holding F _).bind
    intro _
    apply Triple.step
    intro w h
    exact h.changes F (changes_getMetaFromFid w.client j)

theorem editMeta_holding {f : FileMeta → FileMeta} (hf : ∀ m, (f m).fid = m.fid) :
    Triple (Holding quiet Ok E fid) (editMeta fid f) fun _ => Holding quiet Ok E fid := by
  apply Triple.update
  intro w h
  cases fid with
  | none => exact h
  | some j =>
    obtain ⟨s,hs,-⟩ := (h.ok j rfl).2
    exact h.changes F (changes_modifyMeta hs (hf _))

theorem fidDelete_holding :
    Triple (Holding quiet Ok E fid) (fidDelete fid) fun _ => Holding quiet Ok E fid := by
  cases fid with
  | none => exact .fault
  | some j =>
    apply Triple.bind (Q := fun _ => Holding quiet Ok E (some j)) (.query fun _ h => h)
    intro n
    apply Triple.ite
    · intro _
      apply Triple.step
      intro w h
      obtain ⟨s,hs,-⟩ := (h.ok j rfl).2
      rw [Client.fidDelete_snd hs]
      exact h.changes F (changes_drop w.client j)
    · intro _
      exact .fault

theorem stable_holding : Stable (Holding quiet Ok E fid) fid :=
  ⟨getMeta_holding F fid,fun hf => editMeta_holding F fid fun m => (hf m).fid⟩

end

/-- The entry was taken from the free stack and its metadata are those of an earlier file, or
were never written. -/
def Claimed (path : String) (fid : ℕ) (w : World) : Prop :=
  ∃ s, w.client.files[fid]? = some s ∧ s.inUse = true ∧ s.filename = path ∧
    (s.filemeta.fid = fid →
      s.filemeta.attrs.gfid = FileAttr.invalidGfid ∧ s.filemeta.pendingUnlink = false)

/-- The entry belongs to the path and is not marked. -/
def Named (path : String) (gfid : ℤ) (fid : ℕ) (w : World) : Prop :=
  ∃ s, w.client.files[fid]? = some s ∧ s.inUse = true ∧ s.filename = path ∧
    s.filemeta.fid = fid ∧ s.filemeta.pendingUnlink = false ∧ s.filemeta.attrs.gfid = gfid

theorem changes_newMeta {generateGfid : String → ℤ} {who : Caller} {isPrivate : Bool} {c : Client}
    {fid : ℕ} {s : FileSlot} (hs : c.files[fid]? = some s) (hinUse : s.inUse = true) :
    Changes fid c (c.modifyMeta fid (newMeta generateGfid who path isPrivate fid)) := by
  refine ⟨⟨_,rfl,?_⟩,.inl rfl⟩
  intro t ht
  rw [hs] at ht
  cases ht
  exact ⟨fun h => ⟨h,rfl⟩,fun _ => .inl hinUse⟩

theorem claim_holding (F : Frame path quiet Ok E) (fid : ℕ) :
    Triple (fun w => w.client.freeFidStack.head? = some fid ∧ Vacant path w.client ∧
        Holding quiet Ok E none w) (edit fun c => c.claim fid path)
      fun _ w => Holding quiet Ok E (some fid) w ∧ Claimed path fid w := by
  apply Triple.update
  intro w h
  obtain ⟨hhead,hvacant,h⟩ := h
  have hmem := mem_of_mem_head? hhead
  have hok := F.popped h.wf h.cond hmem
  obtain ⟨s,hs,-,hfresh⟩ := h.wf.free fid hmem
  have hs' : (w.client.claim fid path).files[fid]? =
      some { s with inUse := true, filename := path } :=
    Client.getElem?_modifySlot_self _ hs
  refine ⟨⟨h.wf.claim hhead hvacant,F.claim hok h.cond,h.arrivals,?_⟩,_,hs',rfl,rfl,hfresh⟩
  intro j hj
  cases hj
  exact ⟨hok,_,hs',.inl rfl⟩

theorem arrive_claimed (path : String) (fid : ℕ) :
    Triple (Claimed path fid) arrive fun _ => Claimed path fid := by
  apply Triple.update
  intro w h
  obtain ⟨s,hs,hrest⟩ := h
  refine ⟨s,?_,hrest⟩
  apply deliver_induct (P := fun c => c.files[fid]? = some s) _ hs
  intro c n _ hc
  apply unlinkCallback_slot hc
  intro _ hfid
  rw [(hrest.2.2 hfid).1]
  exact n.valid

variable (F : Frame path quiet Ok E)
include F

theorem getMeta_claimed (fid : ℕ) :
    Triple (fun w => Holding quiet Ok E (some fid) w ∧ Claimed path fid w) (getMeta (some fid))
      fun _ w => Holding quiet Ok E (some fid) w ∧ Claimed path fid w := by
  apply ((arrive_holding F _).and (arrive_claimed path fid)).bind
  intro _
  apply Triple.step
  intro w h
  obtain ⟨s,hs,hinUse,hname,hfresh⟩ := h.2
  have hmark : ¬ s.Marked fid := by
    intro hmark
    exact Bool.false_ne_true ((hfresh hmark.1).2.symm.trans hmark.2)
  dsimp only
  rw [Client.getMetaFromFid_of_not_marked hs hmark]
  exact h

theorem fidFromPath_holding : Triple (Holding quiet Ok E none) (fidFromPath path)
      fun fid w => Holding quiet Ok E fid w ∧ w.client.fidFromPath path = fid := by
  apply (arrive_holding F none).bind
  intro _
  apply Triple.query
  intro w h
  refine ⟨⟨h.wf,h.cond,h.arrivals,?_⟩,rfl⟩
  intro j hj
  obtain ⟨s,hs,hp⟩ := mem_of_findIdx? hj
  obtain ⟨hinUse,-⟩ : s.inUse = true ∧ s.filename = path := by simpa using hp
  exact ⟨F.found h.wf h.cond hj,s,hs,.inl hinUse⟩

theorem openFetched_holding (S : Picker LogPtr) (flags mode : BitVec 32) (r : Replies) :
    Triple (Holding quiet Ok E none) (openFetched S path flags mode r)
      fun _ => Holding quiet Ok E none := by
  have hpath := (fidFromPath_holding F).post fun fid w h => h.1
  apply (Stable.openFetched hpath (stable_holding F) (fidDelete_holding F) S flags mode r).post
  intro _ w h
  obtain ⟨fid,h⟩ := h
  exact h.forget

theorem fidCreateFile_holding (generateGfid : String → ℤ) (who : Caller) (isPrivate : Bool) :
    Triple (fun w => Vacant path w.client ∧ Holding quiet Ok E none w)
      (fidCreateFile generateGfid who path isPrivate) fun r w => Holding quiet Ok E r.toOption w ∧
        ∀ fid, r = .ok fid → Named path (generateGfid path) fid w := by
  apply Triple.ite
  · intro _
    exact .ret fun w h => ⟨h.2,fun _ hr => by cases hr⟩
  · intro _
    apply Triple.bind (Triple.query (Q := fun top w => w.client.freeFidStack.head? = top ∧
      Vacant path w.client ∧ Holding quiet Ok E none w) fun w h => ⟨rfl,h⟩)
    intro top
    cases top with
    | none => exact .ret fun w h => ⟨h.2.2,fun _ hr => by cases hr⟩
    | some fid =>
      apply Triple.bind (Q := fun _ w => w.client.freeFidStack.head? = some fid ∧
        Vacant path w.client ∧ Holding quiet Ok E none w) (.query fun _ h => h)
      intro n
      apply Triple.ite
      · intro _
        apply (claim_holding F fid).bind
        intro _
        apply (getMeta_claimed F fid).bind
        intro m
        apply Triple.ite
        · intro _
          apply Triple.bind (Q := fun _ w => Holding quiet Ok E _ w ∧ Named path _ fid w)
          · apply Triple.update
            intro w h
            obtain ⟨h,s,hs,hinUse,hname,-⟩ := h
            exact ⟨h.changes F (changes_newMeta hs hinUse),_,
              Client.getElem?_modifySlot_self _ hs,hinUse,hname,rfl,rfl,rfl⟩
          · intro _
            apply Triple.ret
            intro w h
            refine ⟨h.1,?_⟩
            intro j hj
            cases hj
            exact h.2
        · intro _
          exact .fault
      · intro _
        exact .fault

theorem fetchEntry_holding (generateGfid : String → ℤ) (who : Caller) (isPrivate : Bool)
    (fid : Option ℕ) : Triple (fun w => Holding quiet Ok E fid w ∧ w.client.fidFromPath path = fid)
      (fetchEntry generateGfid who path isPrivate fid)
      fun r w => Holding quiet Ok E r.toOption w := by
  cases fid with
  | some fid => exact .ret fun w h => h.1
  | none =>
    apply Triple.bind ((fidCreateFile_holding F generateGfid who isPrivate).pre fun w h =>
      ⟨fidFromPath_eq_none_iff.mp h.2,h.1⟩)
    intro r
    cases r with
    | error rc => exact .ret fun w h => h.1
    | ok fid =>
      apply Triple.bind ((stable_holding F _).fidStorageAlloc.pre fun w h => h.1)
      intro rc
      apply Triple.ite
      · intro _
        exact .ret fun w h => h
      · intro _
        apply (fidDelete_holding F _).bind
        intro _
        exact .ret fun w h => h.forget

theorem fidUpdateFileMeta_holding (fid : Option ℕ) (attr : FileAttr) :
    Triple (Holding quiet Ok E fid) (fidUpdateFileMeta fid attr)
      fun _ => Holding quiet Ok E fid := by
  apply (getMeta_holding F fid).bind
  intro m
  apply Triple.ite
  · intro _
    refine Triple.bind (editMeta_holding F fid fun _ => rfl) fun _ => ?_
    exact .keep
  · intro _
    exact .keep

theorem fidFetch_holding (generateGfid : String → ℤ) (who : Caller) (r : Replies) :
    Triple (Holding quiet Ok E none) (fidFetch generateGfid who path r)
      fun _ => Holding quiet Ok E none := by
  apply Triple.ite (fun _ => .keep)
  intro _
  apply (fidFromPath_holding F).bind
  intro fid
  apply Triple.ite
  · intro _
    apply Triple.ite
    · intro _
      apply Triple.bind ((fidDelete_holding F fid).pre fun w h => h.1)
      intro _
      exact .ret fun w h => h.forget
    · intro _
      exact .ret fun w h => h.1.forget
  · intro _
    apply (fetchEntry_holding F generateGfid who _ fid).bind
    intro res
    cases res with
    | error rc => exact .ret fun w h => h.forget
    | ok fid =>
      apply (fidUpdateFileMeta_holding F _ r.attr).bind
      intro _
      exact .ret fun w h => h.forget

theorem fidOpen_holding (generateGfid : String → ℤ) (S : Picker LogPtr) (who : Caller)
    (flags mode : BitVec 32) (r : Replies) :
    Triple (Holding quiet Ok E none) (fidOpen generateGfid S who path flags mode r)
      fun _ => Holding quiet Ok E none := by
  apply Triple.ite (fun _ => .keep)
  intro _
  apply (fidFetch_holding F generateGfid who r).bind
  intro rc
  apply Triple.ite (fun _ => .keep)
  intro _
  exact openFetched_holding F S flags mode r

end Frames
end UnifyFS.ClientFiles
