import UnifyFS.ClientFrames

/-!
# The gfids of the entries in use

The name of an entry and the gfid in its metadata are written by different functions.
Look-ups, deletions and callbacks write neither of them: an entry that is in use
afterwards was in use before, under the same name and with the same gfid. What holds
of the names and gfids of all entries in use is therefore kept by everything except
the creation of an entry and the update from the attributes of the server.
-/
namespace UnifyFS.ClientFiles
open ListUpdates RangeTrees SegTreeOps WriteIndex Triples Option

/-- A condition on the fid, the name and the gfid of every entry in use. -/
def Each (Φ : ℕ → String → ℤ → Prop) (w : World) : Prop :=
  ∀ ⦃k : ℕ⦄ ⦃s : FileSlot⦄, w.client.files[k]? = some s → s.inUse = true →
    Φ k s.filename s.filemeta.attrs.gfid

/-- Entries go out of use; those in use keep their names and gfids. -/
def Thins (c c' : Client) : Prop :=
  ∀ ⦃k : ℕ⦄ ⦃s : FileSlot⦄, c'.files[k]? = some s → s.inUse = true →
    ∃ t, c.files[k]? = some t ∧ t.inUse = true ∧ s.filename = t.filename ∧
      s.filemeta.attrs.gfid = t.filemeta.attrs.gfid

section Thinning
variable {c c' : Client} {fid : ℕ} {Φ Ψ : ℕ → String → ℤ → Prop} {w : World}

theorem Thins.refl (c : Client) : Thins c c := fun _ _ hs hinUse => ⟨_,hs,hinUse,rfl,rfl⟩

theorem Thins.each (h : Thins w.client c') (hw : Each Φ w) (arrivals : List (List Notice)) :
    Each Φ ⟨c',arrivals⟩ := by
  intro k s hs hinUse
  obtain ⟨t,ht,htuse,hname,hgfid⟩ := h hs hinUse
  rw [hname,hgfid]
  exact hw ht htuse

theorem Each.mono (hw : Each Φ w) (h : ∀ k name gfid, Φ k name gfid → Ψ k name gfid) :
    Each Ψ w := fun _ _ hs hinUse => h _ _ _ (hw hs hinUse)

theorem Each.left (hw : Each (fun k name gfid => Φ k name gfid ∧ Ψ k name gfid) w) : Each Φ w :=
  hw.mono fun _ _ _ h => h.1

theorem each_modifySlot {f : FileSlot → FileSlot} {w' : World}
    (hfiles : w'.client.files = w.client.files.modify fid f) (hw : Each Φ w)
    (hother : ∀ k name gfid, k ≠ fid → Φ k name gfid → Ψ k name gfid)
    (hself : ∀ s, w.client.files[fid]? = some s → (f s).inUse = true →
      Ψ fid (f s).filename (f s).filemeta.attrs.gfid) : Each Ψ w' := by
  intro k s hs hinUse
  rw [hfiles,getElem?_modify_ite] at hs
  split at hs
  · next hk =>
    subst hk
    obtain ⟨t,ht,rfl⟩ := map_eq_some_iff.mp hs
    exact hself t ht hinUse
  · next hk => exact hother _ _ _ (Ne.symm hk) (hw hs hinUse)

theorem thins_modifyMeta {f : FileMeta → FileMeta} (hf : ∀ m, (f m).attrs.gfid = m.attrs.gfid) :
    Thins c (c.modifyMeta fid f) := by
  intro k s hs hinUse
  unfold Client.modifyMeta at hs
  rw [Client.getElem?_modifySlot] at hs
  split at hs
  · obtain ⟨t,ht,rfl⟩ := map_eq_some_iff.mp hs
    exact ⟨t,ht,hinUse,rfl,hf t.filemeta⟩
  · exact ⟨s,hs,hinUse,rfl,rfl⟩

theorem thins_drop (c : Client) (fid : ℕ) : Thins c (c.drop fid) := by
  intro k s hs hinUse
  change (c.modifySlot fid _).files[k]? = some s at hs
  rw [Client.getElem?_modifySlot] at hs
  split at hs
  · obtain ⟨t,-,rfl⟩ := map_eq_some_iff.mp hs
    cases hinUse
  · exact ⟨s,hs,hinUse,rfl,rfl⟩

theorem thins_getMetaFromFid (c : Client) (fid : ℕ) : Thins c (c.getMetaFromFid fid).2 := by
  cases hs : c.files[fid]? with
  | none =>
    rw [Client.getMetaFromFid_of_none hs]
    exact .refl c
  | some s =>
    by_cases hmark : s.Marked fid
    · rw [Client.getMetaFromFid_of_marked hs hmark]
      exact thins_drop c fid
    · rw [Client.getMetaFromFid_of_not_marked hs hmark]
      exact .refl c

theorem Thins.trans {c'' : Client} (h : Thins c c') (h' : Thins c' c'') : Thins c c'' := by
  intro k s hs hinUse
  obtain ⟨t,ht,htuse,hname,hgfid⟩ := h' hs hinUse
  obtain ⟨u,hu,huuse,hname',hgfid'⟩ := h ht htuse
  exact ⟨u,hu,huuse,hname.trans hname',hgfid.trans hgfid'⟩

theorem thins_unlinkCallback (c : Client) (gfid : ℤ) : Thins c (c.unlinkCallback gfid) := by
  unfold Client.unlinkCallback
  cases c.fidFromGfid gfid with
  | none => exact .refl c
  | some fid =>
    have hlook := thins_getMetaFromFid c fid
    dsimp only
    split
    · next m c' heq =>
      rw [heq] at hlook
      split
      · exact hlook.trans (thins_modifyMeta fun _ => rfl)
      · exact hlook
    · next c' heq =>
      rw [heq] at hlook
      exact hlook

theorem thins_deliver (c : Client) (batch : List Notice) : Thins c (c.deliver batch) :=
  deliver_induct (P := Thins c) batch (.refl c) fun c' n _ h =>
    h.trans (thins_unlinkCallback c' n.gfid)

end Thinning

section Keeping
variable {Φ : ℕ → String → ℤ → Prop}

theorem arrive_each : Triple (Each Φ) arrive fun _ => Each Φ :=
  .update fun w h => (thins_deliver w.client _).each h _

theorem getMeta_each (fid : Option ℕ) : Triple (Each Φ) (getMeta fid) fun _ => Each Φ := by
  cases fid with
  | none =>
    apply arrive_each.bind
    intro _
    exact .keep
  | some j =>
    apply arrive_each.bind
    intro _
    exact .step fun w h => (thins_getMetaFromFid w.client j).each h _

theorem editMeta_each (fid : Option ℕ) {f : FileMeta → FileMeta}
    (hf : ∀ m, (f m).attrs.gfid = m.attrs.gfid) :
    Triple (Each Φ) (editMeta fid f) fun _ => Each Φ := by
  apply Triple.update
  intro w h
  cases fid with
  | none => exact h
  | some j => exact (thins_modifyMeta hf).each h _

theorem fidDelete_each (fid : Option ℕ) : Triple (Each Φ) (fidDelete fid)
      fun _ => Each fun k name gfid => Φ k name gfid ∧ some k ≠ fid := by
  cases fid with
  | none => exact .fault
  | some j =>
    apply Triple.bind (Q := fun n w => Each Φ w ∧ w.client.files.length = n)
      (.query fun _ h => ⟨h,rfl⟩)
    intro n
    apply Triple.ite
    · intro hj
      apply Triple.step
      intro w h k s hs hinUse
      obtain ⟨t,ht⟩ : ∃ t, w.client.files[j]? = some t :=
        ⟨_,List.getElem?_eq_getElem (h.2.symm ▸ hj)⟩
      rw [Client.fidDelete_snd ht] at hs
      refine ⟨(thins_drop w.client j).each h.1 w.arrivals hs hinUse,?_⟩
      rintro ⟨⟩
      change (w.client.modifySlot j _).files[j]? = some s at hs
      rw [Client.getElem?_modifySlot_self _ ht] at hs
      cases hs
      cases hinUse
    · intro _
      exact .fault

theorem fidFromPath_each (path : String) : Triple (Each Φ) (fidFromPath path)
      fun fid => Each fun k name gfid => Φ k name gfid ∧ (fid = some k → name = path) := by
  apply arrive_each.bind
  intro _
  apply Triple.query
  intro w h k s hs hinUse
  refine ⟨h hs hinUse,?_⟩
  intro hk
  obtain ⟨t,ht,-,hname⟩ := of_fidFromPath hk
  rw [hs] at ht
  cases ht
  exact hname

theorem stable_each (fid : Option ℕ) : Stable (Each Φ) fid :=
  ⟨getMeta_each fid,fun hf => editMeta_each fid fun m => (hf m).gfid⟩

theorem openFetched_each (S : Picker LogPtr) (path : String) (flags mode : BitVec 32)
    (r : Replies) : Triple (Each Φ) (openFetched S path flags mode r) fun _ => Each Φ := by
  have hpath : Triple (Each Φ) (fidFromPath path) fun _ => Each Φ :=
    (fidFromPath_each path).post fun _ _ h => h.left
  apply (Stable.openFetched hpath stable_each
    (fun fid => (fidDelete_each fid).post fun _ _ h => h.left) S flags mode r).post
  intro _ w h
  obtain ⟨-,h⟩ := h
  exact h

end Keeping

section Writing
variable {generateGfid : String → ℤ} {path : String}

/-- The gfid is that of the name, and the fid in hand is one for the path. -/
def Bound (generateGfid : String → ℤ) (path : String) (fid : Option ℕ) (k : ℕ) (name : String)
    (gfid : ℤ) : Prop :=
  gfid = generateGfid name ∧ (fid = some k → name = path)

theorem Each.forget {fid : Option ℕ} {w : World} (h : Each (Bound generateGfid path fid) w) :
    Each (Bound generateGfid path none) w :=
  h.mono fun _ _ _ hk => ⟨hk.1,fun hnone => by cases hnone⟩

theorem fidDelete_bound (fid : Option ℕ) :
    Triple (Each (Bound generateGfid path fid)) (fidDelete fid)
      fun _ => Each (Bound generateGfid path none) :=
  (fidDelete_each fid).post fun _ _ h => h.left.forget

/-- Between the claim of an entry and the write of its metadata the entry may have the gfid of
an earlier file. -/
theorem fidCreateFile_bound (who : Caller) (isPrivate : Bool) :
    Triple (Each (Bound generateGfid path none)) (fidCreateFile generateGfid who path isPrivate)
      fun r => Each (Bound generateGfid path r.toOption) := by
  refine Triple.ite (fun _ => .ret fun _ h => h) ?_
  intro _
  apply Triple.bind (Q := fun _ => Each (Bound generateGfid path none)) (.query fun _ h => h)
  intro top
  cases top with
  | none => exact .ret fun _ h => h
  | some fid =>
    apply Triple.bind (Q := fun _ => Each (Bound generateGfid path none)) (.query fun _ h => h)
    intro n
    apply Triple.ite
    · intro _
      apply Triple.bind (Q := fun _ => Each fun k name gfid =>
        (k ≠ fid → gfid = generateGfid name) ∧ (k = fid → name = path))
      · apply Triple.update
        intro w h
        refine each_modifySlot rfl h ?_ ?_
        · intro k name gfid hk hbound
          exact ⟨fun _ => hbound.1,fun heq => absurd heq hk⟩
        · intro s _ _
          exact ⟨fun hne => absurd rfl hne,fun _ => rfl⟩
      · intro _
        apply (getMeta_each (some fid)).bind
        intro m
        apply Triple.ite
        · intro _
          apply Triple.bind (Q := fun _ => Each (Bound generateGfid path (some fid)))
          · apply Triple.update
            intro w h
            refine each_modifySlot rfl h ?_ ?_
            · intro k name gfid hk hclaimed
              exact ⟨hclaimed.1 hk,fun heq => absurd (some.inj heq).symm hk⟩
            · intro s hs hinUse
              have hname := (h hs hinUse).2 rfl
              exact ⟨congrArg generateGfid hname.symm,fun _ => hname⟩
          · intro _
            exact .ret fun _ h => h
        · intro _
          exact .fault
    · intro _
      exact .fault

theorem fetchEntry_bound (who : Caller) (isPrivate : Bool) (fid : Option ℕ) :
    Triple (Each (Bound generateGfid path fid)) (fetchEntry generateGfid who path isPrivate fid)
      fun r => Each (Bound generateGfid path r.toOption) := by
  cases fid with
  | some fid => exact .ret fun _ h => h
  | none =>
    apply (fidCreateFile_bound who isPrivate).bind
    intro r
    cases r with
    | error rc => exact .ret fun _ h => h
    | ok fid =>
      apply (stable_each (some fid)).fidStorageAlloc.bind
      intro rc
      apply Triple.ite
      · intro _
        exact .ret fun _ h => h
      · intro _
        apply (fidDelete_bound (some fid)).bind
        intro _
        exact .ret fun _ h => h

theorem fidUpdateFileMeta_bound {attr : FileAttr} (hattr : attr.gfid = generateGfid path)
    (fid : ℕ) :
    Triple (Each (Bound generateGfid path (some fid))) (fidUpdateFileMeta (some fid) attr)
      fun _ => Each (Bound generateGfid path (some fid)) := by
  apply (getMeta_each (some fid)).bind
  intro m
  apply Triple.ite
  · intro _
    apply Triple.bind (Q := fun _ => Each (Bound generateGfid path (some fid)))
    · apply Triple.update
      intro w h
      refine each_modifySlot rfl h ?_ ?_
      · intro k name gfid _ hbound
        exact hbound
      · intro s hs hinUse
        have hname := (h hs hinUse).2 rfl
        exact ⟨hattr.trans (congrArg generateGfid hname.symm),fun _ => hname⟩
    · intro _
      exact .keep
  · intro _
    exact .keep

theorem fidFetch_bound {r : Replies}
    (hanswer : r.metaget = Rc.success → r.attr.gfid = generateGfid path) (who : Caller) :
    Triple (Each (Bound generateGfid path none)) (fidFetch generateGfid who path r)
      fun _ => Each (Bound generateGfid path none) := by
  apply Triple.ite (fun _ => .keep)
  intro _
  apply Triple.bind (Q := fun fid => Each (Bound generateGfid path fid))
  · exact (fidFromPath_each path).post fun fid w h => h.mono fun _ _ _ hk => ⟨hk.1.1,hk.2⟩
  intro fid
  apply Triple.ite
  · intro _
    apply Triple.ite
    · intro _
      apply (fidDelete_bound fid).bind
      intro _
      exact .keep
    · intro _
      exact .ret fun w h => h.forget
  · intro hok
    apply (fetchEntry_bound who _ fid).bind
    intro res
    cases res with
    | error rc => exact .ret fun _ h => h
    | ok fid =>
      apply (fidUpdateFileMeta_bound (hanswer (not_not.mp hok)) fid).bind
      intro _
      exact .ret fun w h => h.forget

theorem fidOpen_bound {r : Replies}
    (hanswer : r.metaget = Rc.success → r.attr.gfid = generateGfid path) (S : Picker LogPtr)
    (who : Caller) (flags mode : BitVec 32) :
    Triple (Each (Bound generateGfid path none)) (fidOpen generateGfid S who path flags mode r)
      fun _ => Each (Bound generateGfid path none) := by
  apply Triple.ite (fun _ => .keep)
  intro _
  apply (fidFetch_bound hanswer who).bind
  intro rc
  apply Triple.ite (fun _ => .keep)
  intro _
  exact openFetched_each S path flags mode r

end Writing
end UnifyFS.ClientFiles
