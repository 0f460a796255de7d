import UnifyFS.ClientFiles
import UnifyFS.ListUpdates

/-!
# What can happen to an entry

Look-ups, deletions, callbacks and writes to the metadata touch one entry of the
table at a time. The entry keeps its name or goes out of use, and only a deletion
puts it on the free stack. From this follow the invariant of the table and the
frame conditions of everything that is built from these functions.
-/
namespace UnifyFS.ClientFiles
open ListUpdates RangeTrees SegTreeOps WriteIndex Triples List Option

def FileSlot.drop (fid : ℕ) (s : FileSlot) : FileSlot where
  inUse := false
  filename := ""
  filemeta :=
    if s.filemeta.fid = fid then Client.freeStorage (setMark false s.filemeta) else s.filemeta

theorem setMark_self {mark : Bool} {m : FileMeta} (h : m.pendingUnlink = mark) :
    setMark mark m = m := by
  subst h
  rfl

namespace Client
variable {c c' : Client} {fid : ℕ} {s : FileSlot}

def drop (c : Client) (fid : ℕ) : Client where
  files := c.files.modify fid (FileSlot.drop fid)
  freeFidStack :=
    if c.files[fid]?.any fun s => s.filemeta.fid = (fid : ℤ) then fid :: c.freeFidStack
    else c.freeFidStack

theorem getElem?_modifySlot (c : Client) (fid k : ℕ) (f : FileSlot → FileSlot) :
    (c.modifySlot fid f).files[k]? = if fid = k then (c.files[k]?).map f else c.files[k]? :=
  getElem?_modify_ite c.files f fid k

theorem getElem?_modifySlot_self (f : FileSlot → FileSlot) (hs : c.files[fid]? = some s) :
    (c.modifySlot fid f).files[fid]? = some (f s) := by
  rw [getElem?_modifySlot,if_pos rfl,hs,map_some]

theorem modifySlot_drop (f : FileSlot → FileSlot) (hs : c.files[fid]? = some s)
    (hfid : (f s).filemeta.fid = s.filemeta.fid) (hdrop : (f s).drop fid = s.drop fid) :
    (c.modifySlot fid f).drop fid = c.drop fid := by
  unfold drop
  rw [getElem?_modifySlot_self f hs,hs,any_some,hfid]
  unfold modifySlot
  congr 1
  rw [modify_modify_eq]
  apply modify_congr
  intro t ht
  rw [hs] at ht
  cases ht
  exact hdrop

theorem deletePlain_snd (hs : c.files[fid]? = some s) (hmark : ¬ s.Marked fid) :
    (c.deletePlain fid).2 = c.drop fid := by
  unfold deletePlain deleteWith
  simp only [getElem?_modifySlot_self FileSlot.release hs,map_some]
  unfold drop
  rw [hs,any_some]
  split
  · next hfid =>
    have hfid : s.filemeta.fid = fid := hfid
    rw [if_pos (decide_eq_true hfid)]
    simp only [modifyMeta,modifySlot,modify_modify_eq]
    congr 1
    apply modify_congr
    intro t ht
    rw [hs] at ht
    cases ht
    rw [FileSlot.drop,if_pos hfid,setMark_self (by simpa using fun h => hmark ⟨hfid,h⟩)]
    rfl
  · next hfid =>
    have hfid : s.filemeta.fid ≠ fid := hfid
    rw [if_neg (by simpa using hfid)]
    unfold modifySlot
    dsimp only
    congr 1
    apply modify_congr
    intro t ht
    rw [hs] at ht
    cases ht
    rw [FileSlot.drop,if_neg hfid]
    rfl

theorem getMetaFromFid_of_marked (hs : c.files[fid]? = some s) (hmark : s.Marked fid) :
    c.getMetaFromFid fid = (none,c.drop fid) := by
  unfold getMetaFromFid
  simp only [hs]
  rw [if_pos hmark]
  unfold modifyMeta
  have hclear : ¬ (s.editMeta (setMark false)).Marked fid := fun h => Bool.false_ne_true h.2
  rw [deletePlain_snd (getElem?_modifySlot_self _ hs) hclear,modifySlot_drop _ hs rfl]
  unfold FileSlot.drop
  rw [if_pos hmark.1]
  exact congrArg _ (if_pos hmark.1)

theorem getMetaFromFid_of_not_marked (hs : c.files[fid]? = some s) (hmark : ¬ s.Marked fid) :
    c.getMetaFromFid fid = (some s.filemeta,c) := by
  unfold getMetaFromFid
  simp only [hs]
  rw [if_neg hmark]

theorem getMetaFromFid_of_none (hs : c.files[fid]? = none) : c.getMetaFromFid fid = (none,c) := by
  unfold getMetaFromFid
  simp only [hs]

theorem fidDelete_snd (hs : c.files[fid]? = some s) : (c.fidDelete fid).2 = c.drop fid := by
  have hreleased := getElem?_modifySlot_self FileSlot.release hs
  by_cases hmark : s.Marked fid
  · unfold fidDelete deleteWith
    simp only [getMetaFromFid_of_marked hreleased hmark]
    exact modifySlot_drop _ hs rfl rfl
  · rw [← deletePlain_snd hs hmark]
    unfold fidDelete deletePlain deleteWith
    simp only [getMetaFromFid_of_not_marked hreleased hmark,hreleased,map_some]

end Client

/-- The entry keeps its name or goes out of use, and its metadata get a fid of their own only
while it is in use. -/
def Fades (fid : ℕ) (s s' : FileSlot) : Prop :=
  (s'.inUse = true → s.inUse = true ∧ s'.filename = s.filename) ∧
    (s'.filemeta.fid = fid → s'.inUse = true ∨ s.inUse = false ∧ s.filemeta.fid = fid)

/-- One entry fades; if it goes to the free stack, its metadata had that fid until then. -/
structure Changes (fid : ℕ) (c c' : Client) : Prop where
  files : ∃ f, c'.files = c.files.modify fid f ∧ ∀ s, c.files[fid]? = some s → Fades fid s (f s)
  stack : c'.freeFidStack = c.freeFidStack ∨ c'.freeFidStack = fid :: c.freeFidStack ∧
    ∃ s, c.files[fid]? = some s ∧ s.filemeta.fid = fid ∧
      ∃ s', c'.files[fid]? = some s' ∧ s'.inUse = false ∧ s'.filemeta.fid ≠ fid

section Changing
variable {c c' : Client} {fid : ℕ} {s : FileSlot} {k : ℕ} {path : String}

theorem Fades.of_meta {f : FileMeta → FileMeta} (hf : (f s.filemeta).fid = s.filemeta.fid) :
    Fades fid s (s.editMeta f) := by
  refine ⟨fun h => ⟨h,rfl⟩,?_⟩
  intro hfid
  have hold := hf.symm.trans hfid
  cases hinUse : s.inUse with
  | true => exact .inl hinUse
  | false => exact .inr ⟨rfl,hold⟩

theorem fid_drop_ne (fid : ℕ) (s : FileSlot) : (s.drop fid).filemeta.fid ≠ fid := by
  unfold FileSlot.drop
  split
  · change (-1 : ℤ) ≠ fid
    omega
  · next h => exact h

theorem Changes.refl (fid : ℕ) (c : Client) : Changes fid c c := by
  refine ⟨⟨id,by rw [modify_id],?_⟩,.inl rfl⟩
  intro s hs
  exact Fades.of_meta (f := id) rfl

theorem changes_modifyMeta {f : FileMeta → FileMeta} (hs : c.files[fid]? = some s)
    (hf : (f s.filemeta).fid = s.filemeta.fid) : Changes fid c (c.modifyMeta fid f) := by
  refine ⟨⟨FileSlot.editMeta f,rfl,?_⟩,.inl rfl⟩
  intro t ht
  rw [hs] at ht
  cases ht
  exact Fades.of_meta hf

theorem changes_drop (c : Client) (fid : ℕ) : Changes fid c (c.drop fid) := by
  refine ⟨⟨FileSlot.drop fid,rfl,?_⟩,?_⟩
  · intro s hs
    exact ⟨fun h => absurd h Bool.false_ne_true,fun h => absurd h (fid_drop_ne fid s)⟩
  · unfold Client.drop
    cases hs : c.files[fid]? with
    | none => exact .inl rfl
    | some s =>
      split
      · next hfid =>
        refine .inr ⟨rfl,s,rfl,of_decide_eq_true hfid,s.drop fid,?_,rfl,fid_drop_ne fid s⟩
        rw [getElem?_modify_ite,if_pos rfl,hs,map_some]
      · exact .inl rfl

theorem changes_getMetaFromFid (c : Client) (fid : ℕ) : Changes fid c (c.getMetaFromFid fid).2 := by
  cases hs : c.files[fid]? with
  | none =>
    rw [Client.getMetaFromFid_of_none hs]
    exact .refl fid c
  | some s =>
    by_cases hmark : s.Marked fid
    · rw [Client.getMetaFromFid_of_marked hs hmark]
      exact changes_drop c fid
    · rw [Client.getMetaFromFid_of_not_marked hs hmark]
      exact .refl fid c

theorem mem_of_findIdx? {α : Type} {p : α → Bool} {l : List α} {i : ℕ} (h : l.findIdx? p = some i) :
    ∃ x, l[i]? = some x ∧ p x = true := by
  obtain ⟨hi,hp,-⟩ := findIdx?_eq_some_iff_getElem.mp h
  exact ⟨l[i],getElem?_eq_getElem hi,hp⟩

/-- A callback works on an entry in use that belongs to its file, if on any. -/
theorem unlinkCallback_cases (c : Client) (gfid : ℤ) :
    c.unlinkCallback gfid = c ∨ ∃ (fid : ℕ) (s : FileSlot), c.files[fid]? = some s ∧
      s.inUse = true ∧ s.filemeta.attrs.gfid = gfid ∧ s.filemeta.fid = fid ∧
      Changes fid c (c.unlinkCallback gfid) := by
  unfold Client.unlinkCallback
  cases hfound : c.fidFromGfid gfid with
  | none => exact .inl rfl
  | some fid =>
    obtain ⟨s,hs,hp⟩ := mem_of_findIdx? hfound
    obtain ⟨hinUse,hgfid⟩ : s.inUse = true ∧ s.filemeta.attrs.gfid = gfid := by simpa using hp
    dsimp only
    by_cases hmark : s.Marked fid
    · rw [Client.getMetaFromFid_of_marked hs hmark]
      exact .inr ⟨fid,s,hs,hinUse,hgfid,hmark.1,changes_drop c fid⟩
    · rw [Client.getMetaFromFid_of_not_marked hs hmark]
      dsimp only
      split
      · next hfid =>
        exact .inr ⟨fid,s,hs,hinUse,hgfid,hfid,changes_modifyMeta hs rfl⟩
      · exact .inl rfl

namespace Changes

variable {k : ℕ}

theorem other (h : Changes fid c c') (hk : k ≠ fid) : c'.files[k]? = c.files[k]? := by
  obtain ⟨f,hf,-⟩ := h.files
  rw [hf,getElem?_modify_ite,if_neg (Ne.symm hk)]

theorem of_slot (h : Changes fid c c') (hs : c'.files[k]? = some s) :
    k ≠ fid ∧ c.files[k]? = some s ∨ k = fid ∧ ∃ t, c.files[fid]? = some t ∧ Fades fid t s := by
  by_cases hk : k = fid
  · subst hk
    obtain ⟨f,hf,hfades⟩ := h.files
    rw [hf,getElem?_modify_ite,if_pos rfl] at hs
    obtain ⟨t,ht,rfl⟩ := map_eq_some_iff.mp hs
    exact .inr ⟨rfl,t,ht,hfades t ht⟩
  · rw [h.other hk] at hs
    exact .inl ⟨hk,hs⟩

theorem inUse_of_slot (h : Changes fid c c') (hs : c'.files[k]? = some s)
    (hinUse : s.inUse = true) :
    ∃ t, c.files[k]? = some t ∧ t.inUse = true ∧ s.filename = t.filename := by
  cases h.of_slot hs with
  | inl hold => exact ⟨s,hold.2,hinUse,rfl⟩
  | inr hnew =>
    obtain ⟨rfl,t,ht,hfades⟩ := hnew
    obtain ⟨hold,hname⟩ := hfades.1 hinUse
    exact ⟨t,ht,hold,hname⟩

theorem mem_stack (h : Changes fid c c') (hk : k ∈ c'.freeFidStack) :
    k ∈ c.freeFidStack ∨ k = fid := by
  cases h.stack with
  | inl hsame => exact .inl (hsame ▸ hk)
  | inr hpush =>
    rw [hpush.1] at hk
    cases mem_cons.mp hk with
    | inl heq => exact .inr heq
    | inr hold => exact .inl hold

end Changes

/-- Names are unique. A free entry is not in use; unless its metadata were never written, they
do not have the fid of the entry. -/
structure WF (c : Client) : Prop where
  unique : ∀ {i j : ℕ} {s t : FileSlot}, c.files[i]? = some s → c.files[j]? = some t →
    s.inUse = true → t.inUse = true → s.filename = t.filename → i = j
  nodup : c.freeFidStack.Nodup
  free : ∀ i ∈ c.freeFidStack, ∃ s, c.files[i]? = some s ∧ s.inUse = false ∧
    (s.filemeta.fid = i →
      s.filemeta.attrs.gfid = FileAttr.invalidGfid ∧ s.filemeta.pendingUnlink = false)

/-- The entry was in use at some time since the fid was looked up. -/
def Held (fid : ℕ) (c : Client) : Prop :=
  ∃ s, c.files[fid]? = some s ∧ (s.inUse = true ∨ s.filemeta.fid ≠ fid)

theorem Changes.held (h : Changes fid c c') (hheld : Held k c) : Held k c' := by
  obtain ⟨s,hs,hcase⟩ := hheld
  by_cases hk : k = fid
  · subst hk
    obtain ⟨f,hf,hfades⟩ := h.files
    have hs' : c'.files[k]? = some (f s) := by
      rw [hf,getElem?_modify_ite,if_pos rfl,hs,map_some]
    refine ⟨f s,hs',?_⟩
    by_cases hfid : (f s).filemeta.fid = k
    · cases (hfades s hs).2 hfid with
      | inl hinUse => exact .inl hinUse
      | inr hold =>
        cases hcase with
        | inl hinUse => exact absurd (hold.1.symm.trans hinUse) Bool.false_ne_true
        | inr hne => exact absurd hold.2 hne
    · exact .inr hfid
  · exact ⟨s,(h.other hk).trans hs,hcase⟩

theorem Changes.wf (h : Changes fid c c') (hwf : WF c) (hheld : Held fid c) : WF c' := by
  obtain ⟨s,hs,hcase⟩ := hheld
  refine ⟨?_,?_,?_⟩
  · intro i j t u hi hj ht hu hname
    obtain ⟨t',hi',ht',htname⟩ := h.inUse_of_slot hi ht
    obtain ⟨u',hj',hu',huname⟩ := h.inUse_of_slot hj hu
    exact hwf.unique hi' hj' ht' hu' (by rw [← htname,← huname,hname])
  · cases h.stack with
    | inl hsame =>
      rw [hsame]
      exact hwf.nodup
    | inr hpush =>
      rw [hpush.1]
      refine nodup_cons.mpr ⟨?_,hwf.nodup⟩
      intro hmem
      -- an entry on the stack is not in use, so its metadata had another fid
      obtain ⟨u,hu,hout,-⟩ := hwf.free fid hmem
      obtain ⟨v,hv,hfid,-⟩ := hpush.2
      rw [hs] at hu hv
      cases hu
      cases hv
      cases hcase with
      | inl hinUse => exact Bool.false_ne_true (hout.symm.trans hinUse)
      | inr hne => exact hne hfid
  · intro i hi
    by_cases hk : i = fid
    · subst hk
      obtain ⟨s',hs',hcase'⟩ := h.held ⟨s,hs,hcase⟩
      have hout : s'.inUse = false := by
        cases h.stack with
        | inl hsame =>
          obtain ⟨u,hu,hout,-⟩ := hwf.free i (hsame ▸ hi)
          by_contra hinUse
          obtain ⟨v,hv,hin,-⟩ := h.inUse_of_slot hs' (by simpa using hinUse)
          rw [hu] at hv
          cases hv
          exact Bool.false_ne_true (hout.symm.trans hin)
        | inr hpush =>
          obtain ⟨-,-,-,-,u,hu,hout,-⟩ := hpush
          rw [hs'] at hu
          cases hu
          exact hout
      refine ⟨s',hs',hout,?_⟩
      intro hfid
      cases hcase' with
      | inl hinUse => exact absurd (hout.symm.trans hinUse) Bool.false_ne_true
      | inr hne => exact absurd hfid hne
    · cases h.mem_stack hi with
      | inl hold =>
        rw [h.other hk]
        exact hwf.free i hold
      | inr heq => exact absurd heq hk

theorem unlinkCallback_wf (hwf : WF c) (gfid : ℤ) : WF (c.unlinkCallback gfid) := by
  cases unlinkCallback_cases c gfid with
  | inl hsame =>
    rw [hsame]
    exact hwf
  | inr hhit =>
    obtain ⟨j,t,ht,hinUse,-,-,hchanges⟩ := hhit
    exact hchanges.wf hwf ⟨t,ht,.inl hinUse⟩

theorem unlinkCallback_held (hheld : Held k c) (gfid : ℤ) : Held k (c.unlinkCallback gfid) := by
  cases unlinkCallback_cases c gfid with
  | inl hsame =>
    rw [hsame]
    exact hheld
  | inr hhit =>
    obtain ⟨j,t,ht,hinUse,-,-,hchanges⟩ := hhit
    exact hchanges.held hheld

theorem unlinkCallback_slot {gfid : ℤ} (hs : c.files[fid]? = some s)
    (htold : s.inUse = true → s.filemeta.fid = fid → gfid ≠ s.filemeta.attrs.gfid) :
    (c.unlinkCallback gfid).files[fid]? = some s := by
  cases unlinkCallback_cases c gfid with
  | inl hsame =>
    rw [hsame]
    exact hs
  | inr hhit =>
    obtain ⟨j,t,ht,hinUse,hgfid,hfid,hchanges⟩ := hhit
    by_cases hj : fid = j
    · subst hj
      rw [hs] at ht
      cases ht
      exact absurd hgfid.symm (htold hinUse hfid)
    · exact (hchanges.other hj).trans hs

theorem unlinkCallback_inUse {gfid : ℤ} (hs : (c.unlinkCallback gfid).files[k]? = some s)
    (hinUse : s.inUse = true) :
    ∃ t, c.files[k]? = some t ∧ t.inUse = true ∧ s.filename = t.filename := by
  cases unlinkCallback_cases c gfid with
  | inl hsame =>
    rw [hsame] at hs
    exact ⟨s,hs,hinUse,rfl⟩
  | inr hhit =>
    obtain ⟨j,t,ht,-,-,-,hchanges⟩ := hhit
    exact hchanges.inUse_of_slot hs hinUse

def Vacant (path : String) (c : Client) : Prop :=
  ∀ {k : ℕ} {s : FileSlot}, c.files[k]? = some s → s.inUse = true → s.filename ≠ path

theorem fidFromPath_eq_none_iff : c.fidFromPath path = none ↔ Vacant path c := by
  unfold Client.fidFromPath
  rw [findIdx?_eq_none_iff]
  constructor
  · intro h k s hs hinUse hname
    have := h s (mem_of_getElem? hs)
    simp [hinUse,hname] at this
  · intro h s hs
    obtain ⟨k,hk⟩ := mem_iff_getElem?.mp hs
    rw [Bool.eq_false_iff]
    intro hp
    obtain ⟨hinUse,hname⟩ : s.inUse = true ∧ s.filename = path := by simpa using hp
    exact h hk hinUse hname

theorem of_fidFromPath (h : c.fidFromPath path = some fid) :
    ∃ s, c.files[fid]? = some s ∧ s.inUse = true ∧ s.filename = path := by
  obtain ⟨s,hs,hp⟩ := mem_of_findIdx? h
  obtain ⟨hinUse,hname⟩ : s.inUse = true ∧ s.filename = path := by simpa using hp
  exact ⟨s,hs,hinUse,hname⟩

theorem WF.fidFromPath_eq (hwf : WF c) (hs : c.files[fid]? = some s) (hinUse : s.inUse = true)
    (hname : s.filename = path) : c.fidFromPath path = some fid := by
  cases hfound : c.fidFromPath path with
  | none => exact absurd hname (fidFromPath_eq_none_iff.mp hfound hs hinUse)
  | some j =>
    obtain ⟨t,ht,htuse,htname⟩ := of_fidFromPath hfound
    rw [hwf.unique hs ht hinUse htuse (hname.trans htname.symm)]

/-- A free entry comes into use under a name that nobody has. -/
theorem WF.claim (hwf : WF c) (hhead : c.freeFidStack.head? = some fid) (hvacant : Vacant path c) :
    WF (c.claim fid path) := by
  obtain ⟨rest,hstack⟩ : ∃ rest, c.freeFidStack = fid :: rest := by
    cases hc : c.freeFidStack with
    | nil =>
      rw [hc] at hhead
      cases hhead
    | cons k rest =>
      rw [hc] at hhead
      cases hhead
      exact ⟨rest,rfl⟩
  have hnodup := hwf.nodup
  rw [hstack,nodup_cons] at hnodup
  have hrest : (c.claim fid path).freeFidStack = rest := congrArg List.tail hstack
  have hslot : ∀ {k t}, (c.claim fid path).files[k]? = some t →
      k = fid ∧ t.filename = path ∨ k ≠ fid ∧ c.files[k]? = some t := by
    intro k t ht
    change (c.modifySlot fid _).files[k]? = some t at ht
    rw [Client.getElem?_modifySlot] at ht
    split at ht
    · next hk =>
      obtain ⟨u,-,rfl⟩ := map_eq_some_iff.mp ht
      exact .inl ⟨hk.symm,rfl⟩
    · next hk => exact .inr ⟨Ne.symm hk,ht⟩
  refine ⟨?_,?_,?_⟩
  · intro i j t u hi hj ht hu hname
    cases hslot hi with
    | inl hti =>
      cases hslot hj with
      | inl huj => rw [hti.1,huj.1]
      | inr huj => exact absurd (hname.symm.trans hti.2) (hvacant huj.2 hu)
    | inr hti =>
      cases hslot hj with
      | inl huj => exact absurd (hname.trans huj.2) (hvacant hti.2 ht)
      | inr huj => exact hwf.unique hti.2 huj.2 ht hu hname
  · rw [hrest]
    exact hnodup.2
  · intro i hi
    rw [hrest] at hi
    have hne : i ≠ fid := fun h => hnodup.1 (h ▸ hi)
    change ∃ s, (c.modifySlot fid _).files[i]? = some s ∧ _
    rw [Client.getElem?_modifySlot,if_neg (Ne.symm hne)]
    exact hwf.free i (hstack ▸ mem_cons_of_mem fid hi)

end Changing

theorem deliver_induct {P : Client → Prop} {c : Client} (batch : List Notice) (hc : P c)
    (hstep : ∀ c, ∀ n ∈ batch, P c → P (c.unlinkCallback n.gfid)) : P (c.deliver batch) := by
  induction batch generalizing c with
  | nil => exact hc
  | cons n batch ih =>
    apply ih (hstep c n mem_cons_self hc)
    intro c' m hm
    exact hstep c' m (mem_cons_of_mem n hm)

end UnifyFS.ClientFiles
