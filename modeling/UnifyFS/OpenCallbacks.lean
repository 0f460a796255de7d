import UnifyFS.FileOpens
import UnifyFS.SlotGfids

/-!
# Callbacks during an open

An unlink callback marks the entry of its file, and a second one deletes it. The look-ups of an
open delete a marked entry as well, without noticing. So whether the open returns an entry that is
still there depends on the callbacks that come in from the look-up on that finds the entry, or
after which a new entry has its gfid.

Whether the path will have an entry without mark when all callbacks to come have been delivered is
not changed by the steps of the call that follow: a look-up changes an entry only if it has a mark,
and no write touches what callbacks look at.
-/
namespace UnifyFS.ClientFiles
open ListUpdates RangeTrees SegTreeOps WriteIndex Triples List Option

/-- What a callback makes of the entry that it finds. -/
def FileSlot.hit (fid : ℕ) (s : FileSlot) : FileSlot :=
  if s.Marked fid then s.drop fid
  else if s.filemeta.fid = fid then s.editMeta (setMark true) else s

/-- What callbacks look at. -/
def FileSlot.key (s : FileSlot) : Bool × String × ℤ × ℤ × Bool :=
  (s.inUse,s.filename,s.filemeta.fid,s.filemeta.attrs.gfid,s.filemeta.pendingUnlink)

def SameFiles (c c' : Client) : Prop := c'.files.map FileSlot.key = c.files.map FileSlot.key

/-- The path has an entry without mark. -/
def Live (path : String) (c : Client) : Prop := ∃ fid s, c.files[fid]? = some s ∧ Entry path fid s

section Replays
variable {c c' : Client} {path : String} {s s' : FileSlot} {gfid : ℤ} {k : ℕ}

theorem unlinkCallback_files (h : c.fidFromGfid gfid = some k) :
    (c.unlinkCallback gfid).files = c.files.modify k (FileSlot.hit k) := by
  obtain ⟨s,hs,-⟩ := mem_of_findIdx? h
  have hself : ∀ {f : FileSlot → FileSlot}, f s = s.hit k →
      c.files.modify k f = c.files.modify k (FileSlot.hit k) := by
    intro f hf
    apply modify_congr
    intro t ht
    rw [hs] at ht
    cases ht
    exact hf
  unfold Client.unlinkCallback
  simp only [h]
  by_cases hmark : s.Marked k
  · rw [Client.getMetaFromFid_of_marked hs hmark]
    exact hself (if_pos hmark).symm
  · rw [Client.getMetaFromFid_of_not_marked hs hmark]
    dsimp only
    split_ifs with hfid
    · exact hself (by rw [FileSlot.hit,if_neg hmark,if_pos hfid])
    · rw [← hself (f := id) (by rw [FileSlot.hit,if_neg hmark,if_neg hfid]; rfl),modify_id]

theorem getElem?_unlinkCallback (c : Client) (gfid : ℤ) (k : ℕ) :
    (c.unlinkCallback gfid).files[k]? =
      if c.fidFromGfid gfid = some k then (c.files[k]?).map (FileSlot.hit k) else c.files[k]? := by
  cases h : c.fidFromGfid gfid with
  | none =>
    unfold Client.unlinkCallback
    simp only [h]
    exact (if_neg (by simp)).symm
  | some j =>
    rw [unlinkCallback_files h,getElem?_modify_ite]
    by_cases hj : j = k
    · rw [if_pos hj,if_pos (congrArg some hj),hj]
    · rw [if_neg hj,if_neg fun h => hj (some.inj h)]

theorem hit_inUse (h : (s.hit k).inUse = true) : s.inUse = true ∧ ¬ s.Marked k ∧
    (s.hit k).filename = s.filename := by
  unfold FileSlot.hit at h ⊢
  split_ifs at h ⊢ with hmark hfid
  · cases h
  · exact ⟨h,hmark,rfl⟩
  · exact ⟨h,hmark,rfl⟩

theorem key_eq_iff : s'.key = s.key ↔ SameFile s s' := by
  constructor
  · intro h
    simp only [FileSlot.key,Prod.mk.injEq] at h
    exact ⟨h.1,h.2.1,h.2.2.1,h.2.2.2.1,h.2.2.2.2⟩
  · intro h
    rw [FileSlot.key,h.inUse,h.filename,h.fid,h.gfid,h.mark]
    rfl

theorem SameFile.hit (h : SameFile s s') (k : ℕ) : SameFile (s.hit k) (s'.hit k) := by
  unfold FileSlot.hit
  by_cases hmark : s.Marked k
  · have hmark' : s'.Marked k := ⟨h.fid.trans hmark.1,h.mark.trans hmark.2⟩
    rw [if_pos hmark,if_pos hmark']
    unfold FileSlot.drop
    rw [if_pos hmark.1,if_pos hmark'.1]
    exact ⟨rfl,rfl,rfl,h.gfid,rfl⟩
  · rw [if_neg hmark,if_neg (h.not_marked hmark),h.fid]
    split_ifs
    · exact ⟨h.inUse,h.filename,h.fid,h.gfid,rfl⟩
    · exact h

theorem SameFiles.getElem? (h : SameFiles c c') (k : ℕ) :
    (c'.files[k]?).map FileSlot.key = (c.files[k]?).map FileSlot.key := by
  rw [← getElem?_map,← getElem?_map,h]

theorem SameFiles.unlinkCallback (h : SameFiles c c') (gfid : ℤ) :
    SameFiles (c.unlinkCallback gfid) (c'.unlinkCallback gfid) := by
  have hkey : ∀ d : Client, d.fidFromGfid gfid =
      (d.files.map FileSlot.key).findIdx? fun x => x.1 && x.2.2.2.1 == gfid := by
    intro d
    rw [findIdx?_map]
    rfl
  apply ext_getElem?
  intro k
  have hk := h.getElem? k
  rw [getElem?_map,getElem?_map,getElem?_unlinkCallback,getElem?_unlinkCallback,hkey,hkey,h]
  split_ifs
  · cases hs : c.files[k]? with
    | none =>
      rw [hs,map_none,map_eq_none_iff] at hk
      rw [hk]
    | some s =>
      rw [hs,map_some] at hk
      obtain ⟨s',hs',hsame⟩ := map_eq_some_iff.mp hk
      rw [hs']
      exact congrArg some (key_eq_iff.mpr ((key_eq_iff.mp hsame).hit k))
  · exact hk

theorem SameFiles.deliver (h : SameFiles c c') (batch : List Notice) :
    SameFiles (c.deliver batch) (c'.deliver batch) := by
  induction batch generalizing c c' with
  | nil => exact h
  | cons n batch ih => exact ih (h.unlinkCallback n.gfid)

theorem SameFiles.live (h : SameFiles c c') (hlive : Live path c) : Live path c' := by
  obtain ⟨k,s,hs,hentry⟩ := hlive
  have hk := h.getElem? k
  rw [hs,map_some] at hk
  obtain ⟨s',hs',hsame⟩ := map_eq_some_iff.mp hk
  exact ⟨k,s',hs',(key_eq_iff.mp hsame).entry hentry⟩

theorem live_of_deliver (batch : List Notice) (h : Live path (c.deliver batch)) : Live path c := by
  revert h
  apply deliver_induct (P := fun d => Live path d → Live path c) batch id
  intro d n _ hd hlive
  apply hd
  obtain ⟨k,t,ht,hentry⟩ := hlive
  rw [getElem?_unlinkCallback] at ht
  split_ifs at ht
  · obtain ⟨s,hs,rfl⟩ := map_eq_some_iff.mp ht
    obtain ⟨huse,hmark,hname⟩ := hit_inUse hentry.inUse
    exact ⟨k,s,hs,huse,hname.symm.trans hentry.filename,hmark⟩
  · exact ⟨k,t,ht,hentry⟩

theorem drop_inUse (hs : c.files[k]? = some s) (hs' : (c.drop k).files[k]? = some s') :
    s'.inUse = false := by
  change (c.modifySlot k _).files[k]? = some s' at hs'
  rw [Client.getElem?_modifySlot_self _ hs] at hs'
  cases hs'
  rfl

end Replays

/-- The entry of the path that an open has found gets the attributes, after a batch of callbacks. -/
def Client.refresh (c : Client) (batch : List Notice) (fid : ℕ) (attr : FileAttr) : Client :=
  (c.deliver batch).modifyMeta fid (setAttrs attr)

/-- An open makes an entry for the path, and a batch of callbacks comes in before it is complete. -/
def Client.create (generateGfid : String → ℤ) (who : Caller) (path : String) (isPrivate : Bool)
    (c : Client) (batch : List Notice) (fid : ℕ) : Client :=
  ((c.claim fid path).deliver batch).modifyMeta fid (newMeta generateGfid who path isPrivate fid)

/-- Entries of the path are that of the fid and have its gfid. Whether there will be one without
mark when the callbacks to come are delivered is what `C` says. -/
structure Fated (C : Prop) (path : String) (gfid : ℤ) (fid : Option ℕ) (w : World) : Prop where
  only : Each (fun k name g => name = path → fid = some k ∧ g = gfid) w
  fate : C ↔ Live path (w.client.deliver w.arrivals.flatten)

/-- No entry of the path has a mark. -/
structure Decided (C : Prop) (path : String) (gfid : ℤ) (fid : Option ℕ) (w : World) : Prop
    extends Fated C path gfid fid w where
  unmarked : ¬ Live path w.client → Vacant path w.client

section Running
variable {C : Prop} {path : String} {gfid : ℤ} {fid : Option ℕ} {w : World} {c : Client}

theorem arrive_fated :
    Triple (Fated C path gfid fid) arrive fun _ => Fated C path gfid fid := by
  apply Triple.update
  intro w h
  refine ⟨(thins_deliver w.client _).each h.only _,h.fate.trans ?_⟩
  cases harrivals : w.arrivals with
  | nil => rfl
  | cons batch rest =>
    rw [flatten_cons,Client.deliver,foldl_append]
    rfl

/-- An entry of the path that is not there any more when it is looked up is never there again. -/
theorem decided_vacant (hC : C → Live path c) (hdead : ¬ Live path c)
    (hvacant : Vacant path w.client) : Decided C path gfid fid w := by
  refine ⟨⟨fun _ _ hs hinUse hname => absurd hname (hvacant hs hinUse),?_⟩,fun _ => hvacant⟩
  refine iff_of_false (fun h => hdead (hC h)) fun hlive => ?_
  obtain ⟨k,s,hs,hentry⟩ := live_of_deliver _ hlive
  exact hvacant hs hentry.inUse hentry.filename

theorem getMeta_fated :
    Triple (Fated C path gfid fid) (getMeta fid) fun _ => Decided C path gfid fid := by
  cases fid with
  | none =>
    apply arrive_fated.bind
    intro _
    refine .ret fun w h => ⟨h,fun _ k s hs hinUse hname => ?_⟩
    exact nomatch (h.only hs hinUse hname).1
  | some j =>
    apply arrive_fated.bind
    intro _
    apply Triple.step
    intro w h
    have hthins := thins_getMetaFromFid w.client j
    by_cases hlive : Live path w.client
    · obtain ⟨k,s,hs,hentry⟩ := hlive
      obtain ⟨hk,-⟩ := h.only hs hentry.inUse hentry.filename
      cases hk
      dsimp only
      rw [Client.getMetaFromFid_of_not_marked hs hentry.not_marked]
      exact ⟨h,fun hdead => absurd ⟨j,s,hs,hentry⟩ hdead⟩
    · refine decided_vacant (fun hC => live_of_deliver _ (h.fate.mp hC)) hlive ?_
      intro k s hs hinUse hname
      obtain ⟨t,ht,htuse,htname,-⟩ := hthins hs hinUse
      have htname := htname.symm.trans hname
      obtain ⟨hk,-⟩ := h.only ht htuse htname
      cases hk
      have hmark : t.Marked j := by
        by_contra hmark
        exact hlive ⟨j,t,ht,htuse,htname,hmark⟩
      change (w.client.getMetaFromFid j).2.files[j]? = some s at hs
      rw [Client.getMetaFromFid_of_marked ht hmark] at hs
      exact Bool.false_ne_true ((drop_inUse ht hs).symm.trans hinUse)

theorem editMeta_fated {f : FileMeta → FileMeta} (hfid : ∀ m, (f m).fid = m.fid)
    (hgfid : ∀ m, m.attrs.gfid = gfid → (f m).attrs.gfid = gfid)
    (hmark : ∀ m, (f m).pendingUnlink = m.pendingUnlink) :
    Triple (Decided C path gfid fid) (editMeta fid f) fun _ => Decided C path gfid fid := by
  apply Triple.update
  cases fid with
  | none => exact fun w h => h
  | some j =>
    intro w h
    have hslot : ∀ k, (w.client.modifyMeta j f).files[k]? = if j = k then
        (w.client.files[k]?).map (FileSlot.editMeta f) else w.client.files[k]? :=
      fun k => Client.getElem?_modifySlot ..
    by_cases hlive : Live path w.client
    · obtain ⟨k,s,hs,hentry⟩ := hlive
      obtain ⟨hk,hg⟩ := h.only hs hentry.inUse hentry.filename
      cases hk
      have hsame : SameFiles w.client (w.client.modifyMeta j f) := by
        refine ext_getElem? fun k => ?_
        rw [getElem?_map,getElem?_map,hslot]
        split_ifs with hk
        · rw [← hk,hs]
          exact congrArg some (key_eq_iff.mpr ⟨rfl,rfl,hfid _,(hgfid _ hg).trans hg.symm,hmark _⟩)
        · rfl
      have hback : SameFiles (w.client.modifyMeta j f) w.client := hsame.symm
      refine ⟨⟨?_,h.fate.trans ⟨(hsame.deliver _).live,(hback.deliver _).live⟩⟩,
        fun hdead => absurd (hsame.live ⟨j,s,hs,hentry⟩) hdead⟩
      apply each_modifySlot rfl h.only fun _ _ _ _ h => h
      exact fun t ht hinUse hname => ⟨rfl,hgfid _ (h.only ht hinUse hname).2⟩
    · refine decided_vacant (fun hC => live_of_deliver _ (h.fate.mp hC)) hlive ?_
      intro k s hs hinUse hname
      change (w.client.modifyMeta j f).files[k]? = some s at hs
      rw [hslot] at hs
      split_ifs at hs
      · obtain ⟨t,ht,rfl⟩ := map_eq_some_iff.mp hs
        exact h.unmarked hlive ht hinUse hname
      · exact h.unmarked hlive hs hinUse hname

theorem stable_decided : Stable (Decided C path gfid fid) fid :=
  ⟨getMeta_fated.pre fun _ h => h.toFated,fun hf => editMeta_fated (fun m => (hf m).fid)
    (fun m hg => (hf m).gfid.trans hg) fun m => (hf m).mark⟩

theorem fidFromPath_fated : Triple (Fated C path gfid fid) (fidFromPath path)
      fun found => Fated C path gfid found := by
  apply arrive_fated.bind
  intro _
  refine .query fun w h => ⟨fun k s hs hinUse hname => ⟨?_,(h.only hs hinUse hname).2⟩,h.fate⟩
  cases hf : w.client.fidFromPath path with
  | none => exact absurd hname (fidFromPath_eq_none_iff.mp hf hs hinUse)
  | some j =>
    obtain ⟨t,ht,htuse,htname⟩ := of_fidFromPath hf
    exact (h.only ht htuse htname).1.symm.trans (h.only hs hinUse hname).1

theorem Decided.denotes_iff {generateGfid : String → ℤ}
    (h : Decided C path (generateGfid path) fid w) (hrest : w.arrivals = []) :
    Denotes generateGfid w.client fid path ↔ C := by
  rw [h.fate,hrest]
  constructor
  · rintro ⟨i,s,-,hs,hinUse,hname,-⟩
    by_contra hdead
    exact h.unmarked hdead hs hinUse hname
  · rintro ⟨k,s,hs,hentry⟩
    obtain ⟨hk,hg⟩ := h.only hs hentry.inUse hentry.filename
    exact ⟨k,s,hk,hs,hentry.inUse,hentry.filename,hg⟩

theorem openFinish_fid (S : Picker LogPtr) (flags : BitVec 32) (r : Replies) :
    Triple (fun _ => True) (openFinish S fid flags r) fun res _ =>
      ∀ fd pos, res = .ok (fd,pos) → fd = fid := by
  apply Triple.top.bind
  intro rc
  refine Triple.ite (fun _ => .ret fun _ _ fd pos hres => by cases hres) fun _ => ?_
  apply Triple.top.bind
  intro pos
  refine .ret fun _ _ fd pos hres => ?_
  cases hres
  rfl

theorem openFetched_fated (S : Picker LogPtr) (flags mode : BitVec 32) (r : Replies) :
    Triple (Decided C path gfid fid) (openFetched S path flags mode r) fun res w =>
      ∀ fd pos, res = .ok (fd,pos) → Decided C path gfid fd w := by
  apply Triple.bind (fidFromPath_fated.pre fun w h => h.toFated)
  intro found
  have hfail : ∀ {P : World → Prop} rc, Triple P (failWith found rc) fun res w =>
      ∀ fd pos, res = .ok (fd,pos) → Decided C path gfid fd w := by
    intro P rc
    apply Triple.top.bind
    intro _
    exact .ret fun w _ fd pos hres => by cases hres
  apply Triple.bind (Q := fun _ => Decided C path gfid found)
  · apply getMeta_fated.bind
    intro _
    exact .keep
  intro isDir
  refine Triple.ite (fun _ => hfail _) fun _ => ?_
  refine Triple.ite (fun _ => hfail _) fun _ => ?_
  apply (stable_decided.bind_getMeta _).bind
  intro laminated
  refine Triple.ite (fun _ => hfail _) fun _ => ?_
  apply ((stable_decided.openFinish S flags r).and (openFinish_fid S flags r)).conseq
    fun w h => ⟨h,trivial⟩
  intro res w h fd pos hres
  rw [h.2 fd pos hres]
  exact h.1

end Running

section Opening
variable {C : Prop} {path : String} {gfid : ℤ} {c : Client} {rest : List (List Notice)} {j : ℕ}

theorem fidUpdateFileMeta_fated {attr : FileAttr} (hattr : attr.gfid = gfid) {fid : Option ℕ} :
    Triple (Decided C path gfid fid) (fidUpdateFileMeta fid attr)
      fun _ => Decided C path gfid fid := by
  apply Triple.bind (getMeta_fated.pre fun w h => h.toFated)
  intro m
  refine Triple.ite (fun _ => ?_) fun _ => .keep
  apply Triple.bind (editMeta_fated (f := setAttrs attr) (fun _ => rfl) (fun _ _ => hattr)
    fun _ => rfl)
  intro _
  exact .keep

/-- The entry that the call finds gets the attributes, unless a callback has marked it. -/
theorem fidUpdateFileMeta_found (attr : FileAttr)
    (honly : ∀ {k s}, c.files[k]? = some s → s.inUse = true → s.filename = path → k = j) :
    Triple (fun w => w = ⟨c,rest⟩) (fidUpdateFileMeta (some j) attr)
      fun _ => Decided (Live path ((c.refresh (rest.headD []) j attr).deliver rest.tail.flatten))
        path attr.gfid (some j) := by
  unfold Client.refresh
  generalize hd : c.deliver (rest.headD []) = d
  have honly' : ∀ {k s}, d.files[k]? = some s → s.inUse = true → s.filename = path → k = j := by
    intro k s hs hinUse hname
    obtain ⟨t,ht,htuse,htname,-⟩ := thins_deliver c (rest.headD []) (hd ▸ hs) hinUse
    exact honly ht htuse (htname.symm.trans hname)
  have hnamed : ∀ {k s}, (d.modifyMeta j (setAttrs attr)).files[k]? = some s → s.inUse = true →
      s.filename = path → k = j ∧ ∃ t, d.files[j]? = some t ∧ s = t.editMeta (setAttrs attr) := by
    intro k s hs hinUse hname
    change (d.modifySlot j _).files[k]? = some s at hs
    rw [Client.getElem?_modifySlot] at hs
    split_ifs at hs with hk
    · obtain ⟨t,ht,rfl⟩ := map_eq_some_iff.mp hs
      exact ⟨hk.symm,t,hk ▸ ht,rfl⟩
    · exact absurd (honly' hs hinUse hname).symm hk
  have hlook : Triple (fun w => w = ⟨c,rest⟩) (getMeta (some j)) fun m w =>
      m = (d.getMetaFromFid j).1 ∧ w = ⟨(d.getMetaFromFid j).2,rest.tail⟩ := by
    apply Triple.bind (Q := fun _ w => w = ⟨d,rest.tail⟩)
    · exact .update fun w h => by rw [h,hd]
    · intro _
      exact .step fun w h => ⟨by rw [h],by rw [h]⟩
  apply hlook.bind
  intro m
  apply Triple.assume
  rintro rfl
  by_cases hmark : ∃ t, d.files[j]? = some t ∧ ¬ t.Marked j
  · obtain ⟨t,ht,hmark⟩ := hmark
    rw [Client.getMetaFromFid_of_not_marked ht hmark]
    apply Triple.bind (Q := fun _ w => w = ⟨d.modifyMeta j (setAttrs attr),rest.tail⟩)
      (.update fun w h => by rw [h]; rfl)
    intro _
    apply Triple.ret
    rintro w rfl
    refine ⟨⟨fun k s hs hinUse hname => ?_,Iff.rfl⟩,fun hdead k s hs hinUse hname => hdead ?_⟩
    · obtain ⟨rfl,t,-,rfl⟩ := hnamed hs hinUse hname
      exact ⟨rfl,rfl⟩
    · obtain ⟨rfl,t',ht',rfl⟩ := hnamed hs hinUse hname
      rw [ht] at ht'
      cases ht'
      exact ⟨k,_,hs,hinUse,hname,hmark⟩
  · have hgone : (d.getMetaFromFid j).1 = none ∧ Vacant path (d.getMetaFromFid j).2 := by
      cases ht : d.files[j]? with
      | none =>
        rw [Client.getMetaFromFid_of_none ht]
        refine ⟨rfl,fun {k s} hs hinUse hname => ?_⟩
        rw [honly' hs hinUse hname,ht] at hs
        cases hs
      | some t =>
        have hmark : t.Marked j := by
          by_contra hm
          exact hmark ⟨t,ht,hm⟩
        rw [Client.getMetaFromFid_of_marked ht hmark]
        refine ⟨rfl,fun {k s} hs hinUse hname => ?_⟩
        obtain ⟨u,hu,huuse,huname,-⟩ := thins_drop d j hs hinUse
        rw [honly' hu huuse (huname.symm.trans hname)] at hs
        exact Bool.false_ne_true ((drop_inUse ht hs).symm.trans hinUse)
    rw [hgone.1]
    apply Triple.ret
    rintro w rfl
    refine decided_vacant (live_of_deliver _) ?_ hgone.2
    rintro ⟨k,s,hs,hentry⟩
    obtain ⟨rfl,t,ht,rfl⟩ := hnamed hs hentry.inUse hentry.filename
    exact hmark ⟨t,ht,hentry.not_marked⟩

theorem claimed_deliver (path : String) (hwf : WF c) (hj : c.freeFidStack.head? = some j)
    (batch : List Notice) : ∃ s, ((c.claim j path).deliver batch).files[j]? = some s ∧
      s.inUse = true ∧ s.filename = path ∧ ¬ s.Marked j := by
  obtain ⟨s,hs,-,hfresh⟩ := hwf.free j (mem_of_mem_head? hj)
  have hclaimed : Claimed path j ⟨c.claim j path,[batch]⟩ :=
    ⟨_,Client.getElem?_modifySlot_self _ hs,rfl,rfl,hfresh⟩
  obtain ⟨t,ht,hinUse,hname,hfree⟩ := (arrive_claimed path j).holds _ () _ hclaimed rfl
  exact ⟨t,ht,hinUse,hname,fun hm => Bool.false_ne_true ((hfree hm.1).2.symm.trans hm.2)⟩

variable (generateGfid : String → ℤ) (who : Caller) (isPrivate : Bool)

theorem create_decided (hwf : WF c) (hvacant : Vacant path c)
    (hj : c.freeFidStack.head? = some j) (batch : List Notice) :
    Decided (Live path ((c.create generateGfid who path isPrivate batch j).deliver rest.flatten))
      path (generateGfid path) (some j)
      ⟨c.create generateGfid who path isPrivate batch j,rest⟩ := by
  obtain ⟨s,hs,hinUse,hname,-⟩ := claimed_deliver path hwf hj batch
  have hclaim : Each (fun k name _ => name = path → k = j) ⟨c.claim j path,rest⟩ :=
    each_modifySlot (w := ⟨c,rest⟩) (Φ := fun _ name _ => name ≠ path) rfl
      (fun _ _ hs hinUse => hvacant hs hinUse) (fun _ _ _ _ hne heq => absurd heq hne)
      fun _ _ _ _ => rfl
  refine ⟨⟨?_,Iff.rfl⟩,fun hdead => absurd ?_ hdead⟩
  · refine each_modifySlot rfl ((thins_deliver _ batch).each hclaim rest) ?_
      fun _ _ _ _ => ⟨rfl,rfl⟩
    intro k name g hk h hname
    exact absurd (h hname) hk
  · exact ⟨j,_,Client.getElem?_modifySlot_self _ hs,hinUse,hname,fun hm => nomatch hm.2⟩

/-- What comes out of the creation of an entry. -/
structure Created (path : String) (c : Client) (rest : List (List Notice)) (res : Except Rc ℕ)
    (w : World) : Prop where
  error : ∀ rc, res = .error rc → rc ≠ Rc.success
  ok : ∀ j, res = .ok j → c.freeFidStack.head? = some j ∧
    w = ⟨c.create generateGfid who path isPrivate (rest.headD []) j,rest.tail⟩

theorem created_error {rc : Rc} {P : World → Prop} (hrc : rc ≠ Rc.success) :
    Triple P (pure (.error rc)) (Created generateGfid who isPrivate path c rest) := by
  refine .ret fun w _ => ⟨fun rc' h => ?_,nofun⟩
  cases h
  exact hrc

theorem fidCreateFile_created (hwf : WF c) : Triple (fun w => w = ⟨c,rest⟩)
      (fidCreateFile generateGfid who path isPrivate)
      (Created generateGfid who isPrivate path c rest) := by
  refine Triple.ite (fun _ => created_error _ _ _ (by decide)) fun _ => ?_
  refine Triple.bind (Q := fun top w => top = c.freeFidStack.head? ∧ w = ⟨c,rest⟩)
    (.query fun w h => ⟨by rw [h],h⟩) fun top => ?_
  apply Triple.assume
  intro htop
  cases top with
  | none => exact created_error _ _ _ (by decide)
  | some j =>
    refine Triple.bind (Q := fun _ w => w = ⟨c,rest⟩) (.query fun _ h => h) fun n => ?_
    refine Triple.ite (fun _ => ?_) fun _ => .fault
    refine Triple.bind (Q := fun _ w => w = ⟨c.claim j path,rest⟩)
      (.update fun w h => by rw [h]) fun _ => ?_
    apply Triple.bind (Q := fun m w => w = ⟨(c.claim j path).deliver (rest.headD []),rest.tail⟩)
    · refine Triple.bind (Q := fun _ w => w = ⟨(c.claim j path).deliver (rest.headD []),rest.tail⟩)
        (.update fun w h => by rw [h]) fun _ => ?_
      obtain ⟨s,hs,-,-,hmark⟩ := claimed_deliver path hwf htop.symm (rest.headD [])
      refine .step fun w h => ?_
      rw [h]
      dsimp only
      rw [Client.getMetaFromFid_of_not_marked hs hmark]
    · intro m
      refine Triple.ite (fun _ => ?_) fun _ => .fault
      refine Triple.bind (Q := fun _ w =>
        w = ⟨c.create generateGfid who path isPrivate (rest.headD []) j,rest.tail⟩)
        (.update fun w h => by rw [h]; rfl) fun _ => ?_
      refine .ret fun w h => ⟨nofun,fun k hk => ?_⟩
      cases hk
      exact ⟨htop.symm,h⟩

end Opening

namespace OpenCall
variable (generateGfid : String → ℤ) (o : OpenCall) (c : Client)

/-- The table after the second look-up of the call, in which the path has its entry. -/
def entered : Option Client :=
  let c₀ := c.deliver (o.arrivals.headD [])
  let batch := o.arrivals.tail.headD []
  match c₀.fidFromPath o.path with
  | some fid => some (c₀.refresh batch fid o.replies.attr)
  | none => c₀.freeFidStack.head?.map fun fid =>
      c₀.create generateGfid o.who o.path (o.replies.attr.isShared = 0) batch fid

/-- The entry of the path is in use and not marked after all callbacks from then on. -/
def Undisturbed : Prop :=
  ∃ d, o.entered generateGfid c = some d ∧ Live o.path (d.deliver o.arrivals.tail.tail.flatten)

variable {generateGfid o c}

theorem undisturbed_iff {d : Client} (h : o.entered generateGfid c = some d) :
    o.Undisturbed generateGfid c ↔ Live o.path (d.deliver o.arrivals.tail.tail.flatten) := by
  unfold Undisturbed
  rw [h]
  simp

theorem fetchEntry_fated {c₀ : Client} (hwf : WF c₀) (hc₀ : c.deliver (o.arrivals.headD []) = c₀)
    (hfound : c₀.fidFromPath o.path = none) :
    Triple (fun w => w = ⟨c₀,o.arrivals.tail⟩)
      (fetchEntry generateGfid o.who o.path (o.replies.attr.isShared = 0) none) fun res w =>
        (∀ rc, res = .error rc → rc ≠ Rc.success) ∧ ∀ j, res = .ok j →
          Decided (o.Undisturbed generateGfid c) o.path (generateGfid o.path) (some j) w := by
  apply (fidCreateFile_created generateGfid o.who _ hwf).bind
  intro res
  cases res with
  | error rc =>
    refine .ret fun w h => ⟨fun rc' hrc => ?_,nofun⟩
    cases hrc
    exact h.error rc rfl
  | ok j =>
    apply Triple.pre _ fun w h => h.ok j rfl
    apply Triple.assume
    intro hj
    have hentered : o.Undisturbed generateGfid c ↔ _ :=
      undisturbed_iff (by simp only [entered,hc₀,hfound,hj,map_some]; rfl)
    apply Triple.bind (stable_decided.fidStorageAlloc.pre ?_)
    · intro rc
      apply Triple.ite
      · intro _
        refine .ret fun w h => ⟨nofun,fun k hk => ?_⟩
        cases hk
        exact h
      · intro _
        apply Triple.top.bind
        intro _
        refine .ret fun w _ => ⟨fun rc' hrc => ?_,nofun⟩
        cases hrc
        decide
    · rintro w rfl
      rw [hentered]
      exact create_decided generateGfid o.who _ hwf (fidFromPath_eq_none_iff.mp hfound) hj _

theorem fidFetch_fated (hwf : WF c) (hanswer : o.Answered generateGfid) :
    Triple (fun w => w = ⟨c,o.arrivals⟩) (fidFetch generateGfid o.who o.path o.replies)
      fun rc w => rc = Rc.success → ∃ fid,
        Decided (o.Undisturbed generateGfid c) o.path (generateGfid o.path) fid w := by
  have hwf₀ : WF (c.deliver (o.arrivals.headD [])) :=
    deliver_induct _ hwf fun _ _ _ h => unlinkCallback_wf h _
  refine Triple.ite (fun _ => .ret fun w h hrc => by cases hrc) fun _ => ?_
  generalize hc₀ : c.deliver (o.arrivals.headD []) = c₀ at hwf₀
  apply Triple.bind (Q := fun found w => found = c₀.fidFromPath o.path ∧ w = ⟨c₀,o.arrivals.tail⟩)
  · refine Triple.bind (Q := fun _ w => w = ⟨c₀,o.arrivals.tail⟩)
      (.update fun w h => by rw [h,hc₀]) fun _ => ?_
    exact .query fun w h => ⟨by rw [h],h⟩
  intro found
  apply Triple.assume
  intro hfound
  apply Triple.ite
  · intro hfail
    refine Triple.ite (fun _ => ?_) fun _ => .ret fun w _ hrc => absurd hrc hfail
    apply Triple.top.bind
    intro _
    exact .ret fun w _ hrc => absurd hrc hfail
  · intro hok
    have hgfid := hanswer (not_not.mp hok)
    cases found with
    | some i =>
      refine Triple.bind (Q := fun res w => res = .ok i ∧ w = ⟨c₀,o.arrivals.tail⟩)
        (.ret fun w h => ⟨rfl,h⟩) fun res => ?_
      apply Triple.assume
      rintro rfl
      have honly : ∀ {k s}, c₀.files[k]? = some s → s.inUse = true → s.filename = o.path →
          k = i := by
        intro k s hs hinUse hname
        exact some.inj ((hwf₀.fidFromPath_eq hs hinUse hname).symm.trans hfound.symm)
      apply (fidUpdateFileMeta_found o.replies.attr honly).bind
      intro _
      refine .ret fun w h _ => ⟨some i,?_⟩
      rw [undisturbed_iff (by simp only [entered,hc₀,← hfound]; rfl),← hgfid]
      exact h
    | none =>
      apply (fetchEntry_fated hwf₀ hc₀ hfound.symm).bind
      intro res
      cases res with
      | error rc => exact .ret fun w h hrc => absurd hrc (h.1 rc rfl)
      | ok j =>
        apply Triple.bind ((fidUpdateFileMeta_fated hgfid).pre fun w h => h.2 j rfl)
        intro _
        exact .ret fun w h _ => ⟨some j,h⟩

end OpenCall

/-- A successful open during which the given callbacks come in, one batch at each look-up, returns
a fid that stands for the path and its file if and only if the callbacks leave the entry alone:
those from the look-up on that finds it, or after which the new entry is complete. -/
theorem fidOpen_denotes_iff (generateGfid : String → ℤ) (c : Client) (hwf : WF c) (o : OpenCall)
    (hanswer : o.Answered generateGfid) (fid : Option ℕ) (pos : ℤ) (c' : Client)
    (hrun : (fidOpen generateGfid o.search o.who o.path o.flags o.mode o.replies).run
      ⟨c,o.arrivals⟩ = some (.ok (fid,pos),⟨c',[]⟩)) :
    Denotes generateGfid c' fid o.path ↔ o.Undisturbed generateGfid c := by
  have hopen : Triple (fun w => w = ⟨c,o.arrivals⟩)
      (fidOpen generateGfid o.search o.who o.path o.flags o.mode o.replies) fun res w =>
        ∀ fid pos, res = .ok (fid,pos) →
          Decided (o.Undisturbed generateGfid c) o.path (generateGfid o.path) fid w := by
    refine Triple.ite (fun _ => .ret fun w h fid pos hres => by cases hres) fun _ => ?_
    apply (OpenCall.fidFetch_fated hwf hanswer).bind
    intro rc
    refine Triple.ite (fun _ => .ret fun w h fid pos hres => by cases hres) fun hrc => ?_
    apply Triple.pre _ fun w h => h (not_not.mp hrc)
    apply Triple.exists_pre
    intro fid
    exact openFetched_fated o.search o.flags o.mode o.replies
  exact (hopen.holds _ _ _ rfl hrun fid pos rfl).denotes_iff rfl

/-- Callbacks for the file that come in before its entry is complete, and one for another file
afterwards, do no harm. -/
theorem fidOpen_denotes_early_callbacks :
    ∃ (c c' : Client) (o : OpenCall), [ClientEvent.opens (sampleCall "/b" oCreat)].foldlM
        (clientStep sampleGfid) (clientInit 2) = some c ∧
      o = { sampleCall "/a" oCreat with
        arrivals := [[⟨11,by decide⟩],[⟨11,by decide⟩],[⟨12,by decide⟩]] } ∧
      (fidOpen sampleGfid o.search o.who o.path o.flags o.mode o.replies).run ⟨c,o.arrivals⟩ =
        some (.ok (some 1,0),⟨c',[]⟩) ∧ Denotes sampleGfid c' (some 1) "/a" := by
  generalize ho : ({ sampleCall "/a" oCreat with
    arrivals := [[⟨11,by decide⟩],[⟨11,by decide⟩],[⟨12,by decide⟩]] } : OpenCall) = o
  have hres : (([ClientEvent.opens (sampleCall "/b" oCreat)].foldlM (clientStep sampleGfid)
      (clientInit 2)).bind fun c =>
      ((fidOpen sampleGfid o.search o.who o.path o.flags o.mode o.replies).run
        ⟨c,o.arrivals⟩).bind fun x => (o.entered sampleGfid c).bind fun d =>
          ((d.deliver o.arrivals.tail.tail.flatten).files[1]?).map fun s =>
            (x.1,x.2.arrivals.length,s.inUse,s.filename,s.filemeta.pendingUnlink)) =
      some (.ok (some 1,0),0,true,"/a",false) := by
    rw [← ho]
    decide +kernel
  obtain ⟨c,hc,hres⟩ := bind_eq_some_iff.mp hres
  obtain ⟨⟨res,c',rest⟩,hrun,hres⟩ := bind_eq_some_iff.mp hres
  obtain ⟨d,hd,hres⟩ := bind_eq_some_iff.mp hres
  obtain ⟨s,hs,hres⟩ := map_eq_some_iff.mp hres
  simp only [Prod.mk.injEq,length_eq_zero_iff] at hres
  obtain ⟨rfl,rfl,hinUse,hname,hmark⟩ := hres
  subst ho
  refine ⟨c,c',_,hc,rfl,hrun,(fidOpen_denotes_iff sampleGfid c
    (foldlM_clientStep_wf (clientInit_wf 2) _ hc) _ (fun _ => rfl) _ _ c' hrun).mpr ?_⟩
  exact ⟨d,hd,1,s,hs,hinUse,hname,fun hm => Bool.false_ne_true (hmark.symm.trans hm.2)⟩

/-- The file was opened and unlinked by someone else: opening it again returns no fid. -/
theorem fidOpen_marked_no_fid :
    ∃ c c', [ClientEvent.opens (sampleCall "/a" oCreat),.callback ⟨11,by decide⟩].foldlM
        (clientStep sampleGfid) (clientInit 2) = some c ∧
      (sampleCall "/a" oCreat).run sampleGfid c = some (.ok (none,0),c') ∧
      ¬ Denotes sampleGfid c' none "/a" := by
  have hres : (([ClientEvent.opens (sampleCall "/a" oCreat),.callback ⟨11,by decide⟩].foldlM
      (clientStep sampleGfid) (clientInit 2)).bind ((sampleCall "/a" oCreat).run sampleGfid)).map
        Prod.fst = some (.ok (none,0)) := by
    decide +kernel
  obtain ⟨⟨res,c'⟩,hboth,rfl⟩ := map_eq_some_iff.mp hres
  obtain ⟨c,hc,hrun⟩ := bind_eq_some_iff.mp hboth
  refine ⟨c,c',hc,hrun,?_⟩
  intro hden
  obtain ⟨i,-,hi,-⟩ := hden
  cases hi

end UnifyFS.ClientFiles
