import UnifyFS.ClientFrames

/-!
# Opening a file

An open fetches the attributes of the file and puts them into the local entry, then
checks the entry against the flags. Where a check fails it deletes the entry, and so
it does when the server answers with an error, whoever else uses the entry.

The entry of a path is followed through the call exactly. The callbacks that come in
during the call are about other files.
-/
namespace UnifyFS.ClientFiles
open GuardedRuns ListUpdates RangeTrees SegTreeOps WriteIndex Triples List Option

/-- The entry of the fid; no callback to come is about a file in `G`, which its file is in. -/
structure At (G : ℤ → Prop) (fid : ℕ) (s : FileSlot) (w : World) : Prop where
  wf : WF w.client
  slot : w.client.files[fid]? = some s
  quiet : ∀ batch ∈ w.arrivals, ∀ n ∈ batch, ¬ G n.gfid
  told : s.inUse = true → s.filemeta.fid = fid → G s.filemeta.attrs.gfid
  held : s.inUse = true ∨ s.filemeta.fid ≠ fid

section Following
variable {G : ℤ → Prop} {fid : ℕ} {s s' : FileSlot} {w : World} {path : String}

theorem At.changes {c' : Client} (h : At G fid s w) (hc : Changes fid w.client c')
    (hs' : c'.files[fid]? = some s')
    (htold : s'.inUse = true → s'.filemeta.fid = fid → G s'.filemeta.attrs.gfid) :
    At G fid s' { w with client := c' } := by
  refine ⟨hc.wf h.wf ⟨s,h.slot,h.held⟩,hs',h.quiet,htold,?_⟩
  obtain ⟨t,ht,hheld⟩ := hc.held ⟨s,h.slot,h.held⟩
  rw [hs'] at ht
  cases ht
  exact hheld

theorem arrive_at : Triple (At G fid s) arrive fun _ => At G fid s := by
  apply Triple.update
  intro w h
  have hall := deliver_induct (P := fun c => WF c ∧ c.files[fid]? = some s)
    (w.arrivals.headD []) ⟨h.wf,h.slot⟩ fun c n hn hc => by
      refine ⟨unlinkCallback_wf hc.1 _,unlinkCallback_slot hc.2 ?_⟩
      intro hinUse hfid heq
      obtain ⟨b,hb,hmem⟩ := mem_headD hn
      exact h.quiet b hb n hmem (heq ▸ h.told hinUse hfid)
  exact ⟨hall.1,hall.2,fun b hb => h.quiet b (mem_of_mem_tail hb),h.told,h.held⟩

theorem getMeta_at (hmark : ¬ s.Marked fid) :
    Triple (At G fid s) (getMeta (some fid)) fun m w => m = some s.filemeta ∧ At G fid s w := by
  apply arrive_at.bind
  intro _
  apply Triple.step
  intro w h
  dsimp only
  rw [Client.getMetaFromFid_of_not_marked h.slot hmark]
  exact ⟨rfl,h⟩

theorem bind_getMeta_at {α : Type} (hmark : ¬ s.Marked fid) (g : Option FileMeta → α) :
    Triple (At G fid s) (do let m ← getMeta (some fid); pure (g m))
      fun a w => a = g (some s.filemeta) ∧ At G fid s w := by
  apply (getMeta_at hmark).bind
  intro m
  apply Triple.assume
  rintro rfl
  exact .ret fun w h => ⟨rfl,h⟩

theorem at_drop (h : At G fid s w) :
    At G fid (s.drop fid) { w with client := w.client.drop fid } := by
  apply h.changes (changes_drop w.client fid)
  · change (w.client.files.modify fid _)[fid]? = _
    rw [getElem?_modify_ite,if_pos rfl,h.slot,map_some]
  · intro hinUse
    cases hinUse

theorem vacant_drop (h : At G fid s w) (hinUse : s.inUse = true) (hname : s.filename = path) :
    Vacant path (w.client.drop fid) := by
  intro k t ht htuse htname
  obtain ⟨u,hu,huuse,huname⟩ := (changes_drop w.client fid).inUse_of_slot ht htuse
  obtain rfl := h.wf.unique h.slot hu hinUse huuse (hname.trans (htname.symm.trans huname))
  have hgone := (at_drop h).slot
  rw [ht] at hgone
  cases hgone
  cases htuse

theorem fidDelete_at :
    Triple (At G fid s) (fidDelete (some fid)) fun _ => At G fid (s.drop fid) := by
  apply Triple.bind (Q := fun _ => At G fid s) (.query fun _ h => h)
  intro n
  apply Triple.ite
  · intro _
    apply Triple.step
    intro w h
    rw [Client.fidDelete_snd h.slot]
    exact at_drop h
  · intro _
    exact .fault

theorem editMeta_at {f : FileMeta → FileMeta} (hf : (f s.filemeta).fid = s.filemeta.fid)
    (htold : s.inUse = true → s.filemeta.fid = fid → G (f s.filemeta).attrs.gfid) :
    Triple (At G fid s) (editMeta (some fid) f) fun _ => At G fid (s.editMeta f) := by
  apply Triple.update
  intro w h
  apply h.changes (changes_modifyMeta h.slot hf) (Client.getElem?_modifySlot_self _ h.slot)
  intro hinUse hfid
  exact htold hinUse (hf.symm.trans hfid)

theorem fidFromPath_at (hinUse : s.inUse = true) (hname : s.filename = path) :
    Triple (At G fid s) (fidFromPath path) fun r w => r = some fid ∧ At G fid s w := by
  apply arrive_at.bind
  intro _
  apply Triple.query
  intro w h
  exact ⟨h.wf.fidFromPath_eq h.slot hinUse hname,h⟩

def FileSlot.unsynced (s : FileSlot) : List (RangeLists.Range LogPtr) :=
  if s.filemeta.needsWritesSync then s.filemeta.extentsSync.nodes else []

structure SameFile (s s' : FileSlot) : Prop where
  inUse : s'.inUse = s.inUse
  filename : s'.filename = s.filename
  fid : s'.filemeta.fid = s.filemeta.fid
  gfid : s'.filemeta.attrs.gfid = s.filemeta.attrs.gfid
  mark : s'.filemeta.pendingUnlink = s.filemeta.pendingUnlink

theorem SameFile.refl (s : FileSlot) : SameFile s s := ⟨rfl,rfl,rfl,rfl,rfl⟩

theorem SameFile.trans {t : FileSlot} (h : SameFile s s') (h' : SameFile s' t) : SameFile s t :=
  ⟨h'.inUse.trans h.inUse,h'.filename.trans h.filename,h'.fid.trans h.fid,h'.gfid.trans h.gfid,
    h'.mark.trans h.mark⟩

theorem SameFile.not_marked (h : SameFile s s') (hmark : ¬ s.Marked fid) : ¬ s'.Marked fid :=
  fun hm => hmark ⟨h.fid.symm.trans hm.1,h.mark.symm.trans hm.2⟩

theorem editMeta_same {f : FileMeta → FileMeta} (h : SameFile s (s.editMeta f)) :
    Triple (At G fid s) (editMeta (some fid) f) fun _ => At G fid (s.editMeta f) := by
  constructor
  intro w a w' hw hrun
  refine (editMeta_at h.fid ?_).holds w a w' hw hrun
  intro hinUse hfid
  have hgfid : (f s.filemeta).attrs.gfid = s.filemeta.attrs.gfid := h.gfid
  exact hgfid ▸ hw.told hinUse hfid

theorem syncExtents_same (s : FileSlot) (reply : Rc) :
    SameFile s (s.editMeta fun m => (syncExtents m reply).2.1) := by
  unfold FileSlot.editMeta
  dsimp only
  rw [syncExtents_meta]
  split <;> exact ⟨rfl,rfl,rfl,rfl,rfl⟩

theorem fidSyncExtents_at (hmark : ¬ s.Marked fid) (reply : Rc) :
    Triple (At G fid s) (fidSyncExtents (some fid) reply)
      fun _ w => ∃ s', (SameFile s s' ∧ (s.filemeta.extentsSync.nodes = [] →
        s'.filemeta.extentsSync.nodes = [])) ∧ At G fid s' w := by
  apply (getMeta_at hmark).bind
  intro m
  apply Triple.assume
  rintro rfl
  apply Triple.ite
  · intro _
    apply (editMeta_same (syncExtents_same s reply)).bind
    intro _
    exact .ret fun w h =>
      ⟨_,⟨syncExtents_same s reply,fun hnil => syncExtents_nodes (fun _ => hnil) _⟩,h⟩
  · intro _
    exact .ret fun w h => ⟨s,⟨.refl s,fun h => h⟩,h⟩

theorem FileSlot.unsynced_of_nodes (h : s.filemeta.extentsSync.nodes = []) : s.unsynced = [] := by
  unfold FileSlot.unsynced
  rw [h]
  split
  · rfl
  · rfl

/-- What a truncation to nothing leaves of an entry. -/
structure Truncated (s s' : FileSlot) : Prop where
  same : SameFile s s'
  unsynced : s.filemeta.attrs.isLaminated = 0 → s'.unsynced =
    if FileAttr.sIsdir s.filemeta.attrs.mode = false ∧ s.filemeta.storage = .logio then []
    else s.unsynced

theorem fidTruncate_at (hmark : ¬ s.Marked fid) (S : Picker LogPtr) (r : Replies) :
    Triple (At G fid s) (fidTruncate S (some fid) 0 r)
      fun _ w => ∃ s', Truncated s s' ∧ At G fid s' w := by
  apply (getMeta_at hmark).bind
  intro m
  apply Triple.assume
  rintro rfl
  apply Triple.ite
  · intro hdir
    have hsame : Truncated s s := ⟨.refl s,fun _ => (if_neg (by simp [hdir])).symm⟩
    exact .ret fun w h => ⟨s,hsame,h⟩
  · intro hdir
    apply Triple.ite
    · intro hlam
      exact .ret fun w h => ⟨s,⟨.refl s,fun hl => absurd hl hlam⟩,h⟩
    · intro _
      apply Triple.ite
      · intro hstorage
        have hsame : Truncated s s := ⟨.refl s,fun _ => (if_neg fun h => hstorage h.2).symm⟩
        exact .ret fun w h => ⟨s,hsame,h⟩
      · intro hstorage
        have hdone : ∀ t : FileSlot, SameFile s t → t.filemeta.extentsSync.nodes = [] →
            Truncated s t := by
          intro t hsame hnodes
          refine ⟨hsame,fun _ => ?_⟩
          rw [if_pos ⟨by simpa using hdir,not_not.mp hstorage⟩,FileSlot.unsynced_of_nodes hnodes]
        have hclear : SameFile s (s.editMeta fun m =>
            { m with extentsSync := segTreeClear s.filemeta.extentsSync }) := ⟨rfl,rfl,rfl,rfl,rfl⟩
        apply (editMeta_same hclear).bind
        intro _
        apply (fidSyncExtents_at (hclear.not_marked hmark) r.sync).bind
        intro rc
        apply Triple.exists_pre
        intro t
        apply Triple.assume
        intro ht
        have hsame := hclear.trans ht.1
        have hnodes := ht.2 (segTreeClear_nodes _)
        apply Triple.ite
        · intro _
          exact .ret fun w h => ⟨t,hdone t hsame hnodes,h⟩
        · intro _
          have hsize : SameFile t (t.editMeta fun m =>
              { m with attrs.size := BitVec.ofNat 64 0 }) := ⟨rfl,rfl,rfl,rfl,rfl⟩
          apply (editMeta_same hsize).bind
          intro _
          apply (bind_getMeta_at (hsize.not_marked (hsame.not_marked hmark)) _).bind
          intro _
          exact .ret fun w h => ⟨_,hdone _ (hsame.trans hsize) hnodes,h.2⟩

theorem openPosition_at (hmark : ¬ s.Marked fid) (flags : BitVec 32) (r : Replies) :
    Triple (At G fid s) (openPosition (some fid) flags r)
      fun _ w => ∃ s', SameFile s s' ∧ At G fid s' w := by
  apply Triple.ite
  · intro _
    apply (bind_getMeta_at hmark _).bind
    intro laminated
    apply Triple.assume
    intro _
    apply Triple.ite
    · intro _
      exact (bind_getMeta_at hmark _).post fun _ w h => ⟨s,.refl s,h.2⟩
    · intro _
      apply (fidSyncExtents_at hmark r.sync).bind
      intro _
      apply Triple.exists_pre
      intro t
      apply Triple.assume
      intro ht
      apply (bind_getMeta_at (ht.1.not_marked hmark) _).bind
      intro _
      exact .ret fun w h => ⟨t,ht.1,h.2⟩
  · intro _
    exact .ret fun w h => ⟨s,.refl s,h⟩

/-- What the last part of an open returns and leaves of the entry. An error comes from the
truncation. -/
structure Finished (flags : BitVec 32) (fid : ℕ) (s : FileSlot)
    (res : Except Rc (Option ℕ × ℤ)) (s' : FileSlot) : Prop where
  same : SameFile s s'
  ok : ∀ r, res = .ok r → r.1 = some fid
  error : ∀ rc, res = .error rc → flags &&& oTrunc ≠ 0 ∧ Truncated s s'

theorem openFinish_at (hmark : ¬ s.Marked fid) (S : Picker LogPtr) (flags : BitVec 32)
    (r : Replies) : Triple (At G fid s) (openFinish S (some fid) flags r)
      fun res w => ∃ s', Finished flags fid s res s' ∧ At G fid s' w := by
  apply Triple.bind (Q := fun rc w => ∃ t, (SameFile s t ∧ (rc ≠ Rc.success →
    flags &&& oTrunc ≠ 0 ∧ Truncated s t)) ∧ At G fid t w)
  · apply Triple.ite
    · intro htrunc
      exact (fidTruncate_at hmark S r).post fun _ w h =>
        ⟨h.choose,⟨h.choose_spec.1.same,fun _ => ⟨htrunc.1,h.choose_spec.1⟩⟩,h.choose_spec.2⟩
    · intro _
      exact .ret fun w h => ⟨s,⟨.refl s,fun hne => absurd rfl hne⟩,h⟩
  · intro rc
    apply Triple.exists_pre
    intro t
    apply Triple.assume
    intro ht
    apply Triple.ite
    · intro hne
      exact .ret fun w h => ⟨t,⟨ht.1,(fun _ hres => by cases hres),fun _ _ => ht.2 hne⟩,h⟩
    · intro _
      apply (openPosition_at (ht.1.not_marked hmark) flags r).bind
      intro pos
      apply Triple.exists_pre
      intro u
      apply Triple.assume
      intro hu
      apply Triple.ret
      intro w h
      refine ⟨u,⟨ht.1.trans hu,?_,?_⟩,h⟩
      · intro res hres
        cases hres
        rfl
      · intro rc hres
        cases hres

def Refused (flags mode : BitVec 32) (fid : ℕ) (m : FileMeta) : Prop :=
  flags &&& oDirectory ≠ 0 ∧ m.attrs.mode &&& FileAttr.sIfdir = 0 ∨
  flags &&& oDirectory = 0 ∧ m.attrs.mode &&& FileAttr.sIfdir ≠ 0 ∨
  (m.fid = fid ∧ m.attrs.isLaminated ≠ 0) ∧ wantsWrite flags mode = true

theorem wantsWrite_of_bit {flags mode bit : BitVec 32}
    (hbit : (oCreat ||| oTrunc ||| oAppend ||| oWronly) &&& bit = bit) (h : flags &&& bit ≠ 0) :
    wantsWrite flags mode = true := by
  apply decide_eq_true
  left
  intro hnone
  apply h
  rw [← hbit,← BitVec.and_assoc,hnone]
  exact BitVec.zero_and

theorem failWith_at (rc : Rc) : Triple (At G fid s) (failWith (some fid) rc)
      fun res w => res = .error rc ∧ At G fid (s.drop fid) w := by
  apply fidDelete_at.bind
  intro _
  exact .ret fun w h => ⟨rfl,h⟩

/-- The checks delete an entry that they refuse. -/
theorem openFetched_at (hinUse : s.inUse = true) (hname : s.filename = path)
    (hmark : ¬ s.Marked fid) (S : Picker LogPtr) (flags mode : BitVec 32) (r : Replies) :
    Triple (At G fid s) (openFetched S path flags mode r)
      fun res w => (Refused flags mode fid s.filemeta →
          (∃ rc, res = .error rc) ∧ At G fid (s.drop fid) w) ∧
        (¬ Refused flags mode fid s.filemeta →
          ∃ s', Finished flags fid s res s' ∧ At G fid s' w) := by
  apply (fidFromPath_at hinUse hname).bind
  intro found
  apply Triple.assume
  rintro rfl
  apply (bind_getMeta_at hmark _).bind
  intro isDir
  apply Triple.assume
  intro hdir
  have hfail : ∀ rc, Refused flags mode fid s.filemeta →
      Triple (At G fid s) (failWith (some fid) rc) fun res w => (Refused flags mode fid s.filemeta →
            (∃ rc, res = .error rc) ∧ At G fid (s.drop fid) w) ∧
          (¬ Refused flags mode fid s.filemeta →
            ∃ s', Finished flags fid s res s' ∧ At G fid s' w) := by
    intro rc href
    exact (failWith_at rc).post fun res w h => ⟨fun _ => ⟨⟨rc,h.1⟩,h.2⟩,fun hn => absurd href hn⟩
  apply Triple.ite
  · intro h
    apply hfail
    left
    simpa [hdir] using h
  · intro hnotdir
    apply Triple.ite
    · intro h
      apply hfail
      right
      left
      simpa [hdir] using h
    · intro hisdir
      apply (bind_getMeta_at hmark _).bind
      intro laminated
      apply Triple.assume
      intro hlam
      apply Triple.ite
      · intro h
        apply hfail
        right
        right
        simpa [hlam,owns] using h
      · intro hnotlam
        have hpass : ¬ Refused flags mode fid s.filemeta := by
          intro href
          cases href with
          | inl h => exact hnotdir (by simpa [hdir] using h)
          | inr h =>
            cases h with
            | inl h => exact hisdir (by simpa [hdir] using h)
            | inr h => exact hnotlam (by simpa [hlam,owns] using h)
        exact (openFinish_at hmark S flags r).post fun res w h =>
          ⟨fun href => absurd href hpass,fun _ => h⟩

theorem vacant_deliver {c : Client} (h : Vacant path c) (batch : List Notice) :
    Vacant path (c.deliver batch) := by
  apply deliver_induct (P := Vacant path) batch h
  intro c n _ hc k s hs hinUse hname
  obtain ⟨t,ht,htuse,htname⟩ := unlinkCallback_inUse hs hinUse
  exact hc ht htuse (htname.symm.trans hname)

theorem fidFromPath_vacant :
    Triple (fun w => Vacant path w.client) (fidFromPath path) fun r _ => r = none := by
  apply Triple.bind (Q := fun _ w => Vacant path w.client) (.update fun w h => vacant_deliver h _)
  intro _
  exact .query fun w h => fidFromPath_eq_none_iff.mpr h

theorem getMeta_none : Triple (fun _ => True) (getMeta none) fun m _ => m = none := by
  apply Triple.bind (Q := fun _ _ => True) (.update fun _ _ => trivial)
  intro _
  exact .ret fun _ _ => rfl

theorem bind_getMeta_none {α : Type} (g : Option FileMeta → α) :
    Triple (fun _ => True) (do let m ← getMeta none; pure (g m)) fun a _ => a = g none := by
  apply getMeta_none.bind
  intro m
  exact .ret fun _ h => congrArg g h

theorem openFinish_none (S : Picker LogPtr) (flags : BitVec 32) (r : Replies) :
    Triple (fun _ => True) (openFinish S none flags r)
      fun res _ => ∃ pos, res = .ok (none,pos) := by
  apply Triple.bind (Q := fun rc _ => rc = Rc.success)
  · apply Triple.ite
    · intro _
      apply getMeta_none.bind
      intro m
      apply Triple.given
      rintro rfl
      exact .fault
    · intro _
      exact .ret fun _ _ => rfl
  · intro rc
    apply Triple.given
    rintro rfl
    apply Triple.ite
    · intro hne
      exact absurd rfl hne
    · intro _
      apply Triple.top.bind
      intro pos
      exact .ret fun _ _ => ⟨pos,rfl⟩

theorem openFetched_vacant (S : Picker LogPtr) (flags mode : BitVec 32) (r : Replies) :
    Triple (fun w => Vacant path w.client) (openFetched S path flags mode r)
      fun res _ => ∃ pos, res = .ok (none,pos) := by
  apply fidFromPath_vacant.bind
  intro fid
  apply Triple.given
  rintro rfl
  apply (bind_getMeta_none _).bind
  intro isDir
  apply Triple.given
  rintro rfl
  apply Triple.ite
  · intro _
    exact Triple.fault.bind fun _ => .ret fun _ h => False.elim h
  · intro _
    apply Triple.ite
    · intro h
      cases h.2
    · intro _
      apply (bind_getMeta_none _).bind
      intro laminated
      apply Triple.given
      rintro rfl
      apply Triple.ite
      · intro h
        cases h.1
      · intro _
        exact openFinish_none S flags r

def setAttrs (attr : FileAttr) (m : FileMeta) : FileMeta := { m with attrs := attr }

theorem fidUpdateFileMeta_at (hmark : ¬ s.Marked fid) {attr : FileAttr} (hattr : G attr.gfid) :
    Triple (At G fid s) (fidUpdateFileMeta (some fid) attr)
      fun _ => At G fid (s.editMeta (setAttrs attr)) := by
  apply (getMeta_at hmark).bind
  intro m
  apply Triple.assume
  rintro rfl
  apply Triple.ite
  · intro _
    apply Triple.bind (editMeta_at rfl fun _ _ => hattr)
    intro _
    exact .keep
  · intro h
    exact absurd rfl h

theorem fidUpdateFileMeta_marked (hmark : s.Marked fid) (hinUse : s.inUse = true)
    (hname : s.filename = path) (attr : FileAttr) :
    Triple (At G fid s) (fidUpdateFileMeta (some fid) attr) fun _ w => Vacant path w.client := by
  apply Triple.bind (Q := fun m w => m = none ∧ Vacant path w.client)
  · apply arrive_at.bind
    intro _
    apply Triple.step
    intro w h
    dsimp only
    rw [Client.getMetaFromFid_of_marked h.slot hmark]
    exact ⟨rfl,vacant_drop h hinUse hname⟩
  · intro m
    apply Triple.assume
    rintro rfl
    exact .keep

variable {generateGfid : String → ℤ} {who : Caller} {r : Replies}

/-- The outcome of a fetch for the entry of the path. -/
structure Fetched (G : ℤ → Prop) (path : String) (fid : ℕ) (s : FileSlot) (r : Replies) (rc : Rc)
    (w : World) : Prop where
  rc_eq : rc = r.metaget
  failed : r.metaget ≠ Rc.success → At G fid (s.drop fid) w
  marked : r.metaget = Rc.success → s.Marked fid → Vacant path w.client
  updated : r.metaget = Rc.success → ¬ s.Marked fid → At G fid (s.editMeta (setAttrs r.attr)) w

theorem fidFetch_at (hlong : tooLong path = false) (hinUse : s.inUse = true)
    (hname : s.filename = path) (hattr : r.metaget = Rc.success → G r.attr.gfid) :
    Triple (At G fid s) (fidFetch generateGfid who path r) (Fetched G path fid s r) := by
  apply Triple.ite
  · intro h
    exact absurd (hlong.symm.trans h) Bool.false_ne_true
  · intro _
    apply (fidFromPath_at hinUse hname).bind
    intro found
    apply Triple.assume
    rintro rfl
    apply Triple.ite
    · intro hfail
      apply fidDelete_at.bind
      intro _
      exact .ret fun w h => ⟨rfl,fun _ => h,fun hok => absurd hok hfail,fun hok => absurd hok hfail⟩
    · intro hok
      have hok := not_not.mp hok
      apply Triple.bind (Q := fun res w => res = .ok fid ∧ At G fid s w) (.ret fun w h => ⟨rfl,h⟩)
      intro res
      apply Triple.assume
      rintro rfl
      by_cases hmark : s.Marked fid
      · apply (fidUpdateFileMeta_marked hmark hinUse hname r.attr).bind
        intro _
        exact .ret fun w h => ⟨hok.symm,fun hne => absurd hok hne,fun _ _ => h,
          fun _ hn => absurd hmark hn⟩
      · apply (fidUpdateFileMeta_at hmark (hattr hok)).bind
        intro _
        exact .ret fun w h => ⟨hok.symm,fun hne => absurd hok hne,fun _ hm => absurd hm hmark,
          fun _ _ => h⟩

/-- The entry belongs to the path and has no mark. -/
structure Entry (path : String) (fid : ℕ) (s : FileSlot) : Prop where
  inUse : s.inUse = true
  filename : s.filename = path
  not_marked : ¬ s.Marked fid

theorem frame_wf (path : String) (quiet : Notice → Prop) :
    Frame path quiet (fun _ => True) fun _ => True :=
  ⟨fun _ _ _ => trivial,fun _ _ _ => trivial,fun _ _ _ _ _ _ => trivial,fun _ _ _ => trivial,
    fun _ _ => trivial⟩

theorem SameFile.entry {j : ℕ} (h : SameFile s s') (hs : Entry path j s) : Entry path j s' :=
  ⟨h.inUse.trans hs.inUse,h.filename.trans hs.filename,h.not_marked hs.not_marked⟩

/-- The fid is one in use for the path and its file. -/
def Denotes (generateGfid : String → ℤ) (c : Client) (fid : Option ℕ) (path : String) : Prop :=
  ∃ i s, fid = some i ∧ c.files[i]? = some s ∧ s.inUse = true ∧ s.filename = path ∧
    s.filemeta.attrs.gfid = generateGfid path

section Success
variable {S : Picker LogPtr} {flags mode : BitVec 32}

/-- The checks do not touch a path's entry that they accept. -/
theorem openFetched_entry {j : ℕ} (hs : Entry path j s)
    (hgfid : s.filemeta.attrs.gfid = generateGfid path) :
    Triple (At G j s) (openFetched S path flags mode r)
      fun res w => ∀ fid pos, res = .ok (fid,pos) →
        fid = some j ∧ Denotes generateGfid w.client fid path := by
  apply (openFetched_at hs.inUse hs.filename hs.not_marked S flags mode r).post
  intro res w h fid pos hres
  by_cases href : Refused flags mode j s.filemeta
  · obtain ⟨⟨rc,hrc⟩,-⟩ := h.1 href
    rw [hres] at hrc
    cases hrc
  · obtain ⟨t,hfin,hat⟩ := h.2 href
    have hfid := hfin.ok _ hres
    exact ⟨hfid,j,t,hfid,hat.slot,hfin.same.inUse.trans hs.inUse,
      hfin.same.filename.trans hs.filename,hfin.same.gfid.trans hgfid⟩

theorem openCreate_tooLong (h : openCreate path flags mode r.create = Rc.success) :
    tooLong path = false := by
  unfold openCreate at h
  split at h
  · cases h
  · next hlong => simpa using hlong

theorem fidOpen_found (hinUse : s.inUse = true) (hname : s.filename = path)
    (hanswer : r.metaget = Rc.success → r.attr.gfid = generateGfid path)
    (hG : G (generateGfid path)) (hmark : ¬ s.Marked fid) :
    Triple (At G fid s) (fidOpen generateGfid S who path flags mode r)
      fun res w => ∀ fd pos, res = .ok (fd,pos) →
        fd = some fid ∧ Denotes generateGfid w.client fd path := by
  apply Triple.ite
  · intro _
    exact .ret fun w h fd pos hres => by cases hres
  · intro hcreate
    have hlong := openCreate_tooLong (not_not.mp hcreate)
    apply (fidFetch_at hlong hinUse hname fun hok => (hanswer hok).symm ▸ hG).bind
    intro rc
    apply Triple.ite
    · intro _
      exact .ret fun w h fd pos hres => by cases hres
    · intro hrc
      have hrc := not_not.mp hrc
      by_cases hok : r.metaget = Rc.success
      · have hentry : Entry path fid (s.editMeta (setAttrs r.attr)) := ⟨hinUse,hname,hmark⟩
        exact (openFetched_entry hentry (hanswer hok)).pre fun w h => h.updated hok hmark
      · exact ⟨fun w res w' h _ => absurd (h.rc_eq.symm.trans hrc) hok⟩

end Success
end Following

namespace OpenCall

/-- The server answers about the file it was asked for. -/
def Answered (generateGfid : String → ℤ) (o : OpenCall) : Prop :=
  o.replies.metaget = Rc.success → o.replies.attr.gfid = generateGfid o.path

/-- The file of the path, and that of its entry if it is another one. -/
def concerns (generateGfid : String → ℤ) (c : Client) (path : String) (gfid : ℤ) : Prop :=
  gfid = generateGfid path ∨ ∃ (i : ℕ) (s : FileSlot), c.files[i]? = some s ∧ s.inUse = true ∧
    s.filename = path ∧ gfid = s.filemeta.attrs.gfid

def Quiet (generateGfid : String → ℤ) (c : Client) (o : OpenCall) : Prop :=
  ∀ batch ∈ o.arrivals, ∀ n ∈ batch, ¬ concerns generateGfid c o.path n.gfid

variable {generateGfid : String → ℤ} {o : OpenCall} {c c' : Client}
  {res : Except Rc (Option ℕ × ℤ)}

theorem of_run {P : World → Prop} {Q : Except Rc (Option ℕ × ℤ) → World → Prop}
    (h : Triple P (fidOpen generateGfid o.search o.who o.path o.flags o.mode o.replies) Q)
    (hP : P ⟨c,o.arrivals⟩) (hrun : o.run generateGfid c = some (res,c')) :
    ∃ w, w.client = c' ∧ Q res w := by
  obtain ⟨⟨res',w⟩,hres,heq⟩ := map_eq_some_iff.mp hrun
  cases heq
  exact ⟨w,rfl,h.holds _ _ _ hP hres⟩

theorem run_wf (hwf : WF c) (hrun : o.run generateGfid c = some (res,c')) : WF c' := by
  obtain ⟨w,rfl,hw⟩ := of_run (fidOpen_holding (frame_wf o.path fun _ => True) generateGfid
    o.search o.who o.flags o.mode o.replies)
    ⟨hwf,trivial,fun _ _ _ _ => trivial,fun _ hj => by cases hj⟩ hrun
  exact hw.wf

end OpenCall

theorem clientInit_wf (maxFiles : ℕ) : WF (clientInit maxFiles) := by
  refine ⟨?_,nodup_range,?_⟩
  · intro i j s t hs _ hinUse
    obtain rfl := eq_of_mem_replicate (mem_of_getElem? hs)
    cases hinUse
  · intro i hi
    exact ⟨zeroSlot,getElem?_replicate_of_lt (mem_range.mp hi),rfl,fun _ => ⟨rfl,rfl⟩⟩

theorem foldlM_clientStep_wf {generateGfid : String → ℤ} {c c' : Client} (hwf : WF c)
    (events : List ClientEvent) (hrun : events.foldlM (clientStep generateGfid) c = some c') :
    WF c' := by
  refine foldlM_invariant ?_ hrun hwf
  intro d event d' _ hd hstep
  cases event with
  | opens o =>
    obtain ⟨⟨res,d''⟩,hopen,rfl⟩ := map_eq_some_iff.mp hstep
    exact OpenCall.run_wf hd hopen
  | callback n =>
    cases hstep
    exact unlinkCallback_wf hd n.gfid

def PathMarked (c : Client) (path : String) : Prop :=
  ∃ (i : ℕ) (s : FileSlot), c.files[i]? = some s ∧ s.inUse = true ∧ s.filename = path ∧ s.Marked i

def sampleGfid (path : String) : ℤ := if path = "/a" then 11 else 12

def sampleCall (path : String) (flags : BitVec 32) : OpenCall where
  path := path
  flags := flags
  mode := 0o644
  who := ⟨0,0,⟨0,0⟩⟩
  replies := ⟨0,0,{ FileAttr.invalid with
    gfid := sampleGfid path
    mode := FileAttr.defaultFileMode
    isLaminated := 0 },0,0,(0,0)⟩
  arrivals := []
  search := .first

end UnifyFS.ClientFiles
