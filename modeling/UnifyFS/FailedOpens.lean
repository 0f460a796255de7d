import UnifyFS.FileOpens

/-!
# Opens that fail

A descriptor refers to a file through its fid. When a second open of the same path
fails after the entry was looked up, the entry is deleted under the descriptor, and
the next open of another file may take its place. This module says for which failing
opens the entry and its unsynced writes survive, whatever is opened afterwards.
-/
namespace UnifyFS.ClientFiles
open GuardedRuns ListUpdates RangeTrees SegTreeOps WriteIndex Triples List Option

section Others
variable {i : ℕ} {s : FileSlot} {path other : String} {gfid : ℤ}

theorem frame_entry (hinUse : s.inUse = true) (hname : s.filename ≠ other)
    (hgfid : s.filemeta.attrs.gfid = gfid) :
    Frame other (fun n => n.gfid ≠ gfid) (· ≠ i) fun c => c.files[i]? = some s where
  found := by
    rintro c fid - hs hfound rfl
    obtain ⟨t,ht,-,htname⟩ := of_fidFromPath hfound
    rw [hs] at ht
    cases ht
    exact hname htname
  popped := by
    rintro c fid hwf hs hmem rfl
    obtain ⟨t,ht,hout,-⟩ := hwf.free fid hmem
    rw [hs] at ht
    cases ht
    exact Bool.false_ne_true (hout.symm.trans hinUse)
  hit := by
    rintro c fid t n - hs hn ht - heq rfl
    rw [hs] at ht
    cases ht
    exact hn (heq.symm.trans hgfid)
  changes := fun hne hs hc => (hc.other (Ne.symm hne)).trans hs
  claim := by
    intro c fid hne hs
    change (c.modifySlot fid _).files[i]? = some s
    rw [Client.getElem?_modifySlot,if_neg hne]
    exact hs

theorem frame_lost (hne : other ≠ path) :
    Frame other (fun n => n.gfid ≠ gfid) (fun _ => True) fun c =>
      ∀ s, c.files[i]? = some s → s.inUse = true → s.filename ≠ path where
  found := fun _ _ _ => trivial
  popped := fun _ _ _ => trivial
  hit := fun _ _ _ _ _ _ => trivial
  changes := by
    intro c c' fid _ hlost hc s hs hinUse hname
    obtain ⟨t,ht,htuse,htname⟩ := hc.inUse_of_slot hs hinUse
    exact hlost t ht htuse (htname.symm.trans hname)
  claim := by
    intro c fid _ hlost s hs hinUse hname
    change (c.modifySlot fid _).files[i]? = some s at hs
    rw [Client.getElem?_modifySlot] at hs
    split at hs
    · obtain ⟨t,-,rfl⟩ := map_eq_some_iff.mp hs
      exact hne hname
    · exact hlost s hs hinUse hname

end Others

theorem foldlM_opens_frame {generateGfid : String → ℤ} {quiet : Notice → Prop} {Ok : ℕ → Prop}
    {E : Client → Prop} {c c' : Client} (later : List OpenCall)
    (hframe : ∀ o ∈ later, Frame o.path quiet Ok E ∧ ∀ batch ∈ o.arrivals, ∀ n ∈ batch, quiet n)
    (hwf : WF c) (hE : E c)
    (hrun : (later.map ClientEvent.opens).foldlM (clientStep generateGfid) c = some c') : E c' := by
  rw [foldlM_map] at hrun
  refine (foldlM_invariant (I := fun c => WF c ∧ E c) ?_ hrun ⟨hwf,hE⟩).2
  rintro d o d' ho ⟨hd,hEd⟩ hstep
  obtain ⟨⟨res,d''⟩,hopen,rfl⟩ := map_eq_some_iff.mp hstep
  obtain ⟨F,hquiet⟩ := hframe o ho
  obtain ⟨w,rfl,hw⟩ := OpenCall.of_run (fidOpen_holding F generateGfid o.search o.who o.flags
    o.mode o.replies) ⟨hd,hEd,hquiet,fun _ hj => by cases hj⟩ hopen
  exact ⟨hw.wf,hw.cond⟩

namespace OpenCall

/-- The failure comes before the entry is looked up, or only from the truncation that was asked
for. In the latter case there was nothing to lose, or the truncation refused the entry. -/
def Spares (o : OpenCall) (fid : ℕ) (s : FileSlot) : Prop :=
  openCreate o.path o.flags o.mode o.replies.create ≠ Rc.success ∨
  o.replies.metaget = Rc.success ∧
    ¬ Refused o.flags o.mode fid (setAttrs o.replies.attr s.filemeta) ∧
    (s.unsynced = [] ∨ s.filemeta.storage ≠ .logio ∨
      FileAttr.sIsdir o.replies.attr.mode = true)

def NotAbout (o : OpenCall) (gfid : ℤ) : Prop := ∀ batch ∈ o.arrivals, ∀ n ∈ batch, n.gfid ≠ gfid

end OpenCall

section Failing
variable {generateGfid : String → ℤ} {G : ℤ → Prop} {i : ℕ} {s : FileSlot}

/-- What a failed open has made of the entry. -/
structure Outcome (o : OpenCall) (i : ℕ) (s t : FileSlot) : Prop where
  spared : o.Spares i s → SameFile s t ∧ t.unsynced = s.unsynced
  lost : ¬ o.Spares i s → t.inUse = false ∨ SameFile s t ∧ t.unsynced ≠ s.unsynced

theorem drop_unspared {o : OpenCall} (h : ¬ o.Spares i s) : Outcome o i s (s.drop i) :=
  ⟨fun hs => absurd hs h,fun _ => .inl rfl⟩

theorem outcome_of_truncated {o : OpenCall} {t : FileSlot}
    (hcreate : openCreate o.path o.flags o.mode o.replies.create = Rc.success)
    (hok : o.replies.metaget = Rc.success) (hgfid : o.replies.attr.gfid = s.filemeta.attrs.gfid)
    (hfid : s.filemeta.fid = i)
    (hpass : ¬ Refused o.flags o.mode i (setAttrs o.replies.attr s.filemeta))
    (htrunc : o.flags &&& oTrunc ≠ 0) (ht : Truncated (s.editMeta (setAttrs o.replies.attr)) t) :
    Outcome o i s t := by
  have hattrs : SameFile s (s.editMeta (setAttrs o.replies.attr)) := ⟨rfl,rfl,rfl,hgfid,rfl⟩
  have hlam : o.replies.attr.isLaminated = 0 := by
    by_contra hne
    exact hpass (.inr (.inr ⟨⟨hfid,hne⟩,wantsWrite_of_bit rfl htrunc⟩))
  have hunsynced : t.unsynced = if FileAttr.sIsdir o.replies.attr.mode = false ∧
      s.filemeta.storage = .logio then [] else s.unsynced := ht.unsynced hlam
  have hsame := hattrs.trans ht.same
  constructor
  · intro hspares
    refine ⟨hsame,?_⟩
    cases hspares with
    | inl hne => exact absurd hcreate hne
    | inr h =>
      rw [hunsynced]
      cases h.2.2 with
      | inl hnone =>
        rw [hnone]
        split <;> rfl
      | inr h =>
        cases h with
        | inl hstorage => rw [if_neg fun hc => hstorage hc.2]
        | inr hdir => rw [if_neg fun hc => Bool.false_ne_true (hc.1.symm.trans hdir)]
  · intro hspares
    right
    refine ⟨hsame,?_⟩
    intro heq
    apply hspares
    right
    refine ⟨hok,hpass,?_⟩
    by_cases hc : FileAttr.sIsdir o.replies.attr.mode = false ∧ s.filemeta.storage = .logio
    · rw [hunsynced,if_pos hc] at heq
      exact .inl heq.symm
    · right
      by_cases hstorage : s.filemeta.storage = .logio
      · right
        simpa using fun hdir => hc ⟨hdir,hstorage⟩
      · exact .inl hstorage

theorem fidOpen_error {o : OpenCall} (hinUse : s.inUse = true) (hname : s.filename = o.path)
    (hfid : s.filemeta.fid = i) (hgfid : s.filemeta.attrs.gfid = generateGfid o.path)
    (hanswer : o.Answered generateGfid) (hG : G (generateGfid o.path)) :
    Triple (At G i s) (fidOpen generateGfid o.search o.who o.path o.flags o.mode o.replies)
      fun res w => ∀ rc, res = .error rc → ∃ t, Outcome o i s t ∧ At G i t w := by
  apply Triple.ite
  · intro hcreate
    exact .ret fun w h rc _ => ⟨s,⟨fun _ => ⟨.refl s,rfl⟩,fun hn => absurd (.inl hcreate) hn⟩,h⟩
  · intro hcreate
    have hcreate := not_not.mp hcreate
    apply (fidFetch_at (openCreate_tooLong hcreate) hinUse hname fun hok =>
      (hanswer hok).symm ▸ hG).bind
    intro rc
    apply Triple.ite
    · intro hrc
      apply Triple.ret
      intro w h rc' _
      have hfail : o.replies.metaget ≠ Rc.success := h.rc_eq ▸ hrc
      refine ⟨s.drop i,drop_unspared ?_,h.failed hfail⟩
      intro hspares
      cases hspares with
      | inl hne => exact hne hcreate
      | inr h => exact hfail h.1
    · intro hrc
      have hrc := not_not.mp hrc
      by_cases hok : o.replies.metaget = Rc.success
      · by_cases hmark : s.Marked i
        · apply (openFetched_vacant o.search o.flags o.mode o.replies).conseq fun w h =>
            h.marked hok hmark
          intro res w h rc hres
          obtain ⟨pos,hpos⟩ := h
          rw [hres] at hpos
          cases hpos
        · apply (openFetched_at (s := s.editMeta (setAttrs o.replies.attr)) hinUse hname hmark
            o.search o.flags o.mode o.replies).conseq fun w h => h.updated hok hmark
          intro res w h rc hres
          by_cases href : Refused o.flags o.mode i (setAttrs o.replies.attr s.filemeta)
          · refine ⟨_,⟨?_,fun _ => .inl rfl⟩,(h.1 href).2⟩
            intro hspares
            cases hspares with
            | inl hne => exact absurd hcreate hne
            | inr h => exact absurd href h.2.1
          · obtain ⟨t,hfin,hat⟩ := h.2 href
            obtain ⟨htrunc,ht⟩ := hfin.error rc hres
            exact ⟨t,outcome_of_truncated hcreate hok ((hanswer hok).trans hgfid.symm) hfid href
              htrunc ht,hat⟩
      · exact ⟨fun w res w' h _ => absurd (h.rc_eq.symm.trans hrc) hok⟩

end Failing

/-- An open of a path fails while its entry is in use, and any other files are opened after it:
the fid still stands for the path and the unsynced writes are still there if and only if the
failed call was one that spares the entry. -/
theorem failed_open_spares_iff (generateGfid : String → ℤ) (c : Client) (hwf : WF c) (i : ℕ)
    (s : FileSlot) (hs : c.files[i]? = some s) (hinUse : s.inUse = true)
    (hfid : s.filemeta.fid = i) (hgfid : s.filemeta.attrs.gfid = generateGfid s.filename)
    (o : OpenCall) (hpath : o.path = s.filename) (hanswer : o.Answered generateGfid)
    (habout : o.NotAbout (generateGfid s.filename)) (rc : Rc) (c₁ : Client)
    (hfail : o.run generateGfid c = some (.error rc,c₁)) (later : List OpenCall)
    (hlater : ∀ p ∈ later, p.path ≠ s.filename ∧ p.NotAbout (generateGfid s.filename))
    (c₂ : Client)
    (hrun : (later.map ClientEvent.opens).foldlM (clientStep generateGfid) c₁ = some c₂) :
    (Denotes generateGfid c₂ (some i) s.filename ∧
      (c₂.files[i]?).map FileSlot.unsynced = some s.unsynced) ↔ o.Spares i s := by
  have hgfid' : s.filemeta.attrs.gfid = generateGfid o.path := by rw [hgfid,hpath]
  obtain ⟨w,rfl,hw⟩ := OpenCall.of_run
    (fidOpen_error (G := (· = generateGfid s.filename)) hinUse hpath.symm hfid hgfid' hanswer
      (congrArg generateGfid hpath))
    ⟨hwf,hs,habout,fun _ _ => hgfid,.inl hinUse⟩ hfail
  obtain ⟨t,hout,hat⟩ := hw rc rfl
  -- an entry that is still that of the file stays as it is
  have hkept : SameFile s t → c₂.files[i]? = some t := by
    intro hsame
    refine foldlM_opens_frame later (fun p hp => ⟨frame_entry (hsame.inUse.trans hinUse) ?_
      (hsame.gfid.trans hgfid),(hlater p hp).2⟩) hat.wf hat.slot hrun
    rw [hsame.filename]
    exact (hlater p hp).1.symm
  constructor
  · intro hstill
    by_contra hspares
    cases hout.lost hspares with
    | inl hgone =>
      have hlost := foldlM_opens_frame later
        (fun p hp => ⟨frame_lost (hlater p hp).1,(hlater p hp).2⟩) hat.wf
        (fun s' hs' huse => by
          rw [hat.slot] at hs'
          cases hs'
          exact absurd (hgone.symm.trans huse) Bool.false_ne_true) hrun
      obtain ⟨j,u,hj,hu,huse,hname,-⟩ := hstill.1
      cases hj
      exact hlost u hu huse hname
    | inr hchanged =>
      have hsynced := hstill.2
      rw [hkept hchanged.1] at hsynced
      exact hchanged.2 (some.inj hsynced)
  · intro hspares
    obtain ⟨hsame,hunsynced⟩ := hout.spared hspares
    have hslot := hkept hsame
    refine ⟨⟨i,t,rfl,hslot,hsame.inUse.trans hinUse,hsame.filename,hsame.gfid.trans hgfid⟩,?_⟩
    rw [hslot,map_some,hunsynced]

def openedClient : Option Client :=
  [ClientEvent.opens (sampleCall "/a" oCreat)].foldlM (clientStep sampleGfid) (clientInit 2)

/-- An exclusive creation of the file, which is there already. -/
def exclusiveCall : OpenCall :=
  { sampleCall "/a" (oCreat ||| oExcl) with
    replies := { (sampleCall "/a" oCreat).replies with create := Rc.eexist } }

theorem failed_open_spares_iff_exclusive :
    ∃ c s c₁ c₂, openedClient = some c ∧ c.files[0]? = some s ∧
      exclusiveCall.run sampleGfid c = some (.error Rc.eexist,c₁) ∧
      ([sampleCall "/b" oCreat].map ClientEvent.opens).foldlM (clientStep sampleGfid) c₁ = some c₂ ∧
      ((Denotes sampleGfid c₂ (some 0) s.filename ∧
        (c₂.files[0]?).map FileSlot.unsynced = some s.unsynced) ↔ exclusiveCall.Spares 0 s) := by
  have hall : (openedClient.bind fun c => (c.files[0]?).bind fun s =>
      (exclusiveCall.run sampleGfid c).bind fun r =>
        (([sampleCall "/b" oCreat].map ClientEvent.opens).foldlM (clientStep sampleGfid) r.2).map
          fun _ => decide (s.inUse = true ∧ s.filename = "/a" ∧ s.filemeta.fid = 0 ∧
            s.filemeta.attrs.gfid = 11 ∧ r.1 = .error Rc.eexist)) = some true := by
    decide +kernel
  obtain ⟨c,hc,hall⟩ := bind_eq_some_iff.mp hall
  obtain ⟨s,hs,hall⟩ := bind_eq_some_iff.mp hall
  obtain ⟨⟨res,c₁⟩,hfail,hall⟩ := bind_eq_some_iff.mp hall
  obtain ⟨c₂,hrun,heq⟩ := map_eq_some_iff.mp hall
  obtain ⟨hinUse,hname,hfid,hgfid,rfl⟩ := of_decide_eq_true heq
  refine ⟨c,s,c₁,c₂,hc,hs,hfail,hrun,failed_open_spares_iff sampleGfid c
    (foldlM_clientStep_wf (clientInit_wf 2) _ hc) 0 s hs hinUse hfid ?_ exclusiveCall hname.symm
    (fun _ => rfl) ?_ Rc.eexist c₁ hfail _ ?_ c₂ hrun⟩
  · rw [hgfid,hname]
    rfl
  · intro batch hbatch
    cases hbatch
  · intro p hp
    obtain rfl := mem_singleton.mp hp
    refine ⟨?_,fun batch hbatch => by cases hbatch⟩
    rw [hname]
    decide

/-- The file is opened again as a directory. The call fails, and the next file that is created
takes the entry of the first one. -/
theorem failed_open_loses_entry :
    ∃ c c₁ c₂, openedClient = some c ∧ Denotes sampleGfid c (some 0) "/a" ∧
      (sampleCall "/a" oDirectory).run sampleGfid c = some (.error Rc.enotdir,c₁) ∧
      (sampleCall "/b" oCreat).run sampleGfid c₁ = some (.ok (some 0,0),c₂) ∧
      ¬ Denotes sampleGfid c₂ (some 0) "/a" := by
  have hall : (openedClient.bind fun c => (c.files[0]?).bind fun s =>
      ((sampleCall "/a" oDirectory).run sampleGfid c).bind fun r =>
        ((sampleCall "/b" oCreat).run sampleGfid r.2).bind fun r' => (r'.2.files[0]?).map fun s' =>
          decide (s.inUse = true ∧ s.filename = "/a" ∧ s.filemeta.attrs.gfid = 11 ∧
            r.1 = .error Rc.enotdir ∧ r'.1 = .ok (some 0,0) ∧ s'.filename = "/b")) =
      some true := by
    decide +kernel
  obtain ⟨c,hc,hall⟩ := bind_eq_some_iff.mp hall
  obtain ⟨s,hs,hall⟩ := bind_eq_some_iff.mp hall
  obtain ⟨⟨res,c₁⟩,hfail,hall⟩ := bind_eq_some_iff.mp hall
  obtain ⟨⟨res',c₂⟩,hopen,hall⟩ := bind_eq_some_iff.mp hall
  obtain ⟨s',hs',heq⟩ := map_eq_some_iff.mp hall
  obtain ⟨hinUse,hname,hgfid,rfl,rfl,hname'⟩ := of_decide_eq_true heq
  refine ⟨c,c₁,c₂,hc,⟨0,s,rfl,hs,hinUse,hname,hgfid.trans rfl⟩,hfail,hopen,?_⟩
  intro hden
  obtain ⟨j,u,hj,hu,-,huname,-⟩ := hden
  cases hj
  rw [hs'] at hu
  cases hu
  rw [hname'] at huname
  exact absurd huname (by decide)

end UnifyFS.ClientFiles
