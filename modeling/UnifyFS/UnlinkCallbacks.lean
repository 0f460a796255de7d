import UnifyFS.GuardedRuns
import UnifyFS.Inode
import Mathlib.Data.List.Sort

/-!
# Callbacks of an unlink

When an inode is destroyed, the server tells its own clients that have data of the file.
`unifyfs_inode_destroy` walks over the extents and collects the ids of the clients. They are
sorted, and each id gets one callback. An id is unique within one application only, but all
callbacks carry the application of the first extent.

Allocations succeed. The walk also frees the space of the extents in the logs, which is not
modelled here. A sorted array of integers is unique, so `qsort` is a sort of lists.
-/
namespace UnifyFS.UnlinkCallbacks
open GuardedRuns RangeLists RangeTrees ExtentTree InodeModel List Option

/-- A client of the server, as far as it matters here: whether its log is attached. -/
structure AppClient where
  hasLogio : Bool
  deriving DecidableEq, Repr

/-- `app_configs`: the array of clients of each application. -/
abbrev AppConfigs := ℤ → Option (List (Option AppClient))

/-- `get_app_client`: the array has the client with an id at the index before it. -/
def getAppClient (apps : AppConfigs) (appId clientId : ℤ) : Option AppClient :=
  (apps appId).bind fun clients =>
    if clientId ≤ 0 ∨ clientId > clients.length then none
    else clients.getD (clientId - 1).toNat none

structure UnlinkCallback where
  appId : ℤ
  clientId : ℤ
  gfid : ℤ
  deriving DecidableEq, Repr

structure Walk where
  localClients : List ℤ
  lastClient : ℤ
  cbAppId : ℤ
  deriving DecidableEq, Repr

section Destroy
variable (apps : AppConfigs) (glbPmiRank : ℤ)

/-- One extent of the walk. There is no result if the array of clients is full. -/
def visitExtent (maxClients : ℕ) (w : Walk) (curr : Extent) : Option Walk :=
  if curr.info.svrRank = glbPmiRank then
    match getAppClient apps curr.info.appId curr.info.cliId with
    | none => some w
    | some client =>
      if client.hasLogio then
        let cbAppId := if w.cbAppId = -1 then curr.info.appId else w.cbAppId
        if w.lastClient ≠ curr.info.cliId then
          if w.localClients.length < maxClients then
            some ⟨w.localClients ++ [curr.info.cliId],curr.info.cliId,cbAppId⟩
          else none
        else some ⟨w.localClients,curr.info.cliId,cbAppId⟩
      else some w
  else some w

def walkExtents (tree : RangeTree LogLoc) : Option Walk :=
  tree.nodes.foldlM (visitExtent apps glbPmiRank tree.count) ⟨[],-1,-1⟩

/-- The loop over the sorted array takes an id that is not the last one. -/
def skipRepeated : ℤ → List ℤ → List ℤ
  | _, [] => []
  | lastClient, c :: cs =>
    if c = lastClient then skipRepeated lastClient cs else c :: skipRepeated c cs

/-- `rm_submit_client_callback_request`: the callbacks that are submitted after one more. -/
def rmSubmitClientCallbackRequest (submitted : List UnlinkCallback) (cb : UnlinkCallback) :
    List UnlinkCallback :=
  match getAppClient apps cb.appId cb.clientId with
  | none => submitted
  | some _ => submitted ++ [cb]

/-- `unifyfs_inode_destroy`: the callbacks that it submits. -/
def unifyfsInodeDestroy (gfid : ℤ) (ino : Inode) : Option (List UnlinkCallback) :=
  (walkExtents apps glbPmiRank ino.extents).map fun w =>
    (skipRepeated (-1) (w.localClients.insertionSort (· ≤ ·))).foldl
      (fun submitted c => rmSubmitClientCallbackRequest apps submitted ⟨w.cbAppId,c,gfid⟩) []

/-- The extent is a local one of a client with a log. -/
def Tracked (e : Extent) : Prop :=
  e.info.svrRank = glbPmiRank ∧
    ∃ client, getAppClient apps e.info.appId e.info.cliId = some client ∧ client.hasLogio = true

/-- The client with data in the file that should be told. -/
def Holder (ino : Inode) (appId clientId : ℤ) : Prop :=
  ∃ e ∈ ino.extents.nodes, Tracked apps glbPmiRank e ∧ e.info.appId = appId ∧
    e.info.cliId = clientId

end Destroy

section Walks
variable {apps : AppConfigs} {glbPmiRank : ℤ}

theorem getAppClient_pos {appId clientId : ℤ} {client : AppClient}
    (h : getAppClient apps appId clientId = some client) : 0 < clientId := by
  obtain ⟨clients,-,hclient⟩ := bind_eq_some_iff.mp h
  by_contra hle
  rw [if_pos (.inl (by omega))] at hclient
  cases hclient

variable (apps glbPmiRank) {maxClients : ℕ} {w : Walk} {e : Extent} {seen : List Extent} in
structure Walked (seen : List Extent) (w : Walk) : Prop where
  length_le : w.localClients.length ≤ seen.length
  mem_iff : ∀ c, c ∈ w.localClients ↔ ∃ e ∈ seen, Tracked apps glbPmiRank e ∧ e.info.cliId = c
  last : w.lastClient = -1 ∨ w.lastClient ∈ w.localClients
  app : (w.cbAppId ≠ -1 ∨ ∃ e ∈ seen, Tracked apps glbPmiRank e) →
    ∃ e ∈ seen, Tracked apps glbPmiRank e ∧ e.info.appId = w.cbAppId

theorem visitExtent_tracked (h : Tracked apps glbPmiRank e) :
    visitExtent apps glbPmiRank maxClients w e =
      if w.lastClient ≠ e.info.cliId then
        if w.localClients.length < maxClients then
          some ⟨w.localClients ++ [e.info.cliId],e.info.cliId,
            if w.cbAppId = -1 then e.info.appId else w.cbAppId⟩
        else none
      else some ⟨w.localClients,e.info.cliId,
        if w.cbAppId = -1 then e.info.appId else w.cbAppId⟩ := by
  obtain ⟨hrank,client,hclient,hlog⟩ := h
  unfold visitExtent
  rw [if_pos hrank,hclient]
  dsimp only
  rw [if_pos hlog]

theorem visitExtent_not_tracked (h : ¬ Tracked apps glbPmiRank e) :
    visitExtent apps glbPmiRank maxClients w e = some w := by
  unfold visitExtent
  by_cases hrank : e.info.svrRank = glbPmiRank
  · rw [if_pos hrank]
    cases hclient : getAppClient apps e.info.appId e.info.cliId with
    | none => rfl
    | some client =>
      exact if_neg fun hlog => h ⟨hrank,client,hclient,hlog⟩
  · rw [if_neg hrank]

theorem exists_concat {P : Extent → Prop} :
    (∃ e' ∈ seen ++ [e], P e') ↔ (∃ e' ∈ seen, P e') ∨ P e := by
  simp [or_and_right,exists_or]

theorem Walked.app_concat (hw : Walked apps glbPmiRank seen w) (he : Tracked apps glbPmiRank e) :
    ∃ e' ∈ seen ++ [e], Tracked apps glbPmiRank e' ∧
      e'.info.appId = if w.cbAppId = -1 then e.info.appId else w.cbAppId := by
  rw [exists_concat]
  by_cases hfirst : w.cbAppId = -1
  · rw [if_pos hfirst]
    exact .inr ⟨he,rfl⟩
  · rw [if_neg hfirst]
    exact .inl (hw.app (.inl hfirst))

theorem Walked.skip (hw : Walked apps glbPmiRank seen w) (he : ¬ Tracked apps glbPmiRank e) :
    Walked apps glbPmiRank (seen ++ [e]) w := by
  refine ⟨?_,?_,hw.last,?_⟩
  · rw [length_append]
    exact Nat.le_add_right_of_le hw.length_le
  · intro c
    rw [hw.mem_iff,exists_concat]
    exact ⟨.inl,fun h => h.resolve_right fun h => he h.1⟩
  · simp only [exists_concat]
    intro h
    exact .inl (hw.app (h.imp_right fun h => h.resolve_right he))

theorem Walked.visit (hw : Walked apps glbPmiRank seen w) (hmax : seen.length < maxClients) :
    ∃ v, visitExtent apps glbPmiRank maxClients w e = some v ∧
      Walked apps glbPmiRank (seen ++ [e]) v := by
  by_cases he : Tracked apps glbPmiRank e
  · rw [visitExtent_tracked he]
    by_cases hlast : w.lastClient = e.info.cliId
    · rw [if_neg (not_not.mpr hlast)]
      -- the id is no `-1`, so it has been added with the last extent
      have hmem : e.info.cliId ∈ w.localClients := by
        obtain ⟨-,client,hclient,-⟩ := he
        have hpos := getAppClient_pos hclient
        exact hlast ▸ hw.last.resolve_left (by omega)
      refine ⟨_,rfl,?_,?_,.inr hmem,fun _ => hw.app_concat he⟩
      · rw [length_append]
        exact Nat.le_add_right_of_le hw.length_le
      · intro c
        rw [exists_concat,← hw.mem_iff]
        refine ⟨.inl,fun h => h.elim id ?_⟩
        rintro ⟨-,rfl⟩
        exact hmem
    · rw [if_pos hlast,if_pos (Nat.lt_of_le_of_lt hw.length_le hmax)]
      refine ⟨_,rfl,?_,?_,.inr mem_concat_self,fun _ => hw.app_concat he⟩
      · rw [length_append,length_append]
        exact Nat.add_le_add_right hw.length_le 1
      · intro c
        rw [exists_concat,← hw.mem_iff,mem_append,mem_singleton]
        exact or_congr_right ⟨fun h => ⟨he,h.symm⟩,fun h => h.2.symm⟩
  · exact ⟨w,visitExtent_not_tracked he,hw.skip he⟩

variable (apps glbPmiRank) in
theorem walkExtents_spec {tree : RangeTree LogLoc} (hcount : tree.count = tree.nodes.length) :
    ∃ w, walkExtents apps glbPmiRank tree = some w ∧ Walked apps glbPmiRank tree.nodes w := by
  refine exists_foldlM_of_prefix (fun pre e w hpre hw => hw.visit ?_) ?_
  · have hlen := hpre.length_le
    rw [length_append,length_singleton] at hlen
    omega
  · exact ⟨Nat.le_refl _,by simp,.inl rfl,by simp⟩

end Walks

theorem skipRepeated_spec {l : List ℤ} {last : ℤ} (hl : l.Pairwise (· ≤ ·))
    (hlast : ∀ c ∈ l, last ≤ c) :
    (skipRepeated last l).Nodup ∧ ∀ c, c ∈ skipRepeated last l ↔ c ∈ l ∧ c ≠ last := by
  induction l generalizing last with
  | nil => exact ⟨.nil,by simp [skipRepeated]⟩
  | cons d l ih =>
    rw [pairwise_cons] at hl
    rw [forall_mem_cons] at hlast
    rw [skipRepeated]
    by_cases hd : d = last
    · rw [if_pos hd]
      obtain ⟨hnodup,hmem⟩ := ih hl.2 hlast.2
      refine ⟨hnodup,fun c => ?_⟩
      rw [hmem,mem_cons,hd]
      exact ⟨fun h => ⟨.inr h.1,h.2⟩,fun h => ⟨h.1.resolve_left h.2,h.2⟩⟩
    · rw [if_neg hd]
      obtain ⟨hnodup,hmem⟩ := ih hl.2 hl.1
      refine ⟨nodup_cons.mpr ⟨fun h => ((hmem d).mp h).2 rfl,hnodup⟩,fun c => ?_⟩
      rw [mem_cons,mem_cons,hmem]
      constructor
      · rintro (rfl | ⟨hc,-⟩)
        · exact ⟨.inl rfl,hd⟩
        · refine ⟨.inr hc,?_⟩
          have hle := hl.1 c hc
          omega
      · rintro ⟨hc | hc,-⟩
        · exact .inl hc
        · exact (eq_or_ne c d).imp_right fun hne => ⟨hc,hne⟩

section Callbacks
variable {apps : AppConfigs} {glbPmiRank gfid : ℤ} {ino : Inode}

theorem foldl_submit (appId : ℤ) (cs : List ℤ) (submitted : List UnlinkCallback) :
    cs.foldl (fun submitted c => rmSubmitClientCallbackRequest apps submitted ⟨appId,c,gfid⟩)
        submitted = submitted ++ (cs.filter fun c => (getAppClient apps appId c).isSome).map
        fun c => ⟨appId,c,gfid⟩ := by
  induction cs generalizing submitted with
  | nil => exact (append_nil submitted).symm
  | cons c cs ih =>
    rw [foldl_cons,ih,rmSubmitClientCallbackRequest]
    cases hclient : getAppClient apps appId c with
    | none => rw [filter_cons_of_neg (by simp [hclient])]
    | some client =>
      rw [filter_cons_of_pos (by simp [hclient]),map_cons,append_assoc,singleton_append]

theorem Walked.distinct {seen : List Extent} {w : Walk} (hw : Walked apps glbPmiRank seen w) :
    (skipRepeated (-1) (w.localClients.insertionSort (· ≤ ·))).Nodup ∧
      ∀ c, c ∈ skipRepeated (-1) (w.localClients.insertionSort (· ≤ ·)) ↔
        ∃ e ∈ seen, Tracked apps glbPmiRank e ∧ e.info.cliId = c := by
  have hpos : ∀ c ∈ w.localClients, 0 < c := by
    intro c hc
    obtain ⟨e,-,⟨-,client,hclient,-⟩,rfl⟩ := (hw.mem_iff c).mp hc
    exact getAppClient_pos hclient
  have hlast : ∀ c ∈ w.localClients.insertionSort (· ≤ ·), -1 ≤ c := by
    intro c hc
    have := hpos c ((mem_insertionSort (· ≤ ·)).mp hc)
    omega
  obtain ⟨hnodup,hmem⟩ := skipRepeated_spec (pairwise_insertionSort (· ≤ ·) w.localClients) hlast
  refine ⟨hnodup,fun c => ?_⟩
  rw [hmem,mem_insertionSort,← hw.mem_iff]
  refine and_iff_left_of_imp fun hc => ?_
  have := hpos c hc
  omega

theorem unifyfsInodeDestroy_spec (hcount : ino.extents.count = ino.extents.nodes.length) :
    ∃ submitted appId, unifyfsInodeDestroy apps glbPmiRank gfid ino = some submitted ∧
      submitted.Nodup ∧
      ((∃ a c, Holder apps glbPmiRank ino a c) → ∃ c, Holder apps glbPmiRank ino appId c) ∧
      ∀ cb, cb ∈ submitted ↔ cb.gfid = gfid ∧ cb.appId = appId ∧
        (getAppClient apps appId cb.clientId).isSome = true ∧
        ∃ a, Holder apps glbPmiRank ino a cb.clientId := by
  obtain ⟨w,hw,hwalked⟩ := walkExtents_spec apps glbPmiRank hcount
  obtain ⟨hnodup,hmem⟩ := hwalked.distinct
  refine ⟨_,w.cbAppId,by rw [unifyfsInodeDestroy,hw,map_some,foldl_submit],?_,?_,?_⟩
  · refine (hnodup.filter _).map ?_
    intro c c' hc
    exact congrArg UnlinkCallback.clientId hc
  · rintro ⟨a,c,e,he,htracked,-⟩
    obtain ⟨e',he',htracked',happ⟩ := hwalked.app (.inr ⟨e,he,htracked⟩)
    exact ⟨e'.info.cliId,e',he',htracked',happ,rfl⟩
  · intro cb
    rw [nil_append,List.mem_map]
    constructor
    · rintro ⟨c,hc,rfl⟩
      obtain ⟨hc,hclient⟩ := mem_filter.mp hc
      obtain ⟨e,he,htracked,hcli⟩ := (hmem c).mp hc
      exact ⟨rfl,rfl,hclient,e.info.appId,e,he,htracked,rfl,hcli⟩
    · obtain ⟨a,c,g⟩ := cb
      rintro ⟨rfl,rfl,hclient,a',e,he,htracked,-,hcli⟩
      exact ⟨c,mem_filter.mpr ⟨(hmem c).mpr ⟨e,he,htracked,hcli⟩,hclient⟩,rfl⟩

theorem Holder.getAppClient_isSome {appId clientId : ℤ}
    (h : Holder apps glbPmiRank ino appId clientId) :
    (getAppClient apps appId clientId).isSome = true := by
  obtain ⟨e,-,⟨-,client,hclient,-⟩,rfl,rfl⟩ := h
  rw [hclient]
  rfl

/-- Every client with data in the file gets one callback, and no other client does, if and only if
all these clients belong to one application. -/
theorem unifyfsInodeDestroy_callbacks_iff
    (hcount : ino.extents.count = ino.extents.nodes.length) :
    ∃ submitted, unifyfsInodeDestroy apps glbPmiRank gfid ino = some submitted ∧
      (submitted.Nodup ∧ (∀ cb, cb ∈ submitted ↔
          cb.gfid = gfid ∧ Holder apps glbPmiRank ino cb.appId cb.clientId) ↔
        ∀ a c a' c', Holder apps glbPmiRank ino a c →
          Holder apps glbPmiRank ino a' c' → a = a') := by
  obtain ⟨submitted,appId,hdestroy,hnodup,happ,hmem⟩ := unifyfsInodeDestroy_spec hcount
  refine ⟨submitted,hdestroy,?_⟩
  constructor
  · rintro ⟨-,hexact⟩ a c a' c' hholder hholder'
    have hall : ∀ b d, Holder apps glbPmiRank ino b d → b = appId := by
      intro b d hd
      exact ((hmem ⟨b,d,gfid⟩).mp ((hexact ⟨b,d,gfid⟩).mpr ⟨rfl,hd⟩)).2.1
    rw [hall a c hholder,hall a' c' hholder']
  · intro hone
    refine ⟨hnodup,fun cb => (hmem cb).trans (and_congr_right fun _ => ?_)⟩
    constructor
    · rintro ⟨rfl,-,a,ha⟩
      obtain ⟨c,hc⟩ := happ ⟨a,_,ha⟩
      exact hone a _ _ c ha hc ▸ ha
    · intro hholder
      obtain ⟨c,hc⟩ := happ ⟨_,_,hholder⟩
      have hsame := hone _ _ _ _ hholder hc
      exact ⟨hsame,hsame ▸ hholder.getAppClient_isSome,_,hholder⟩

end Callbacks

def twoApps (appId : ℤ) : Option (List (Option AppClient)) :=
  if appId = 5 ∨ appId = 7 then some [some ⟨true⟩,some ⟨true⟩] else none

def twoExtents (app client app' client' : ℤ) : Inode where
  attr := { FileAttr.zero with gfid := 3 }
  extents := ⟨[⟨0,9,⟨0,0,app,client⟩⟩,⟨10,19,⟨0,0,app',client'⟩⟩],2,19⟩
  pending := []

/-- Client 2 of application 7 has written to the file, but client 2 of application 5 is told. -/
theorem unifyfsInodeDestroy_two_apps :
    unifyfsInodeDestroy twoApps 0 3 (twoExtents 5 1 7 2) = some [⟨5,1,3⟩,⟨5,2,3⟩] ∧
      Holder twoApps 0 (twoExtents 5 1 7 2) 7 2 :=
  ⟨by decide,_,mem_cons_of_mem _ mem_cons_self,⟨rfl,_,rfl,rfl⟩,rfl,rfl⟩

/-- Two clients of one application. -/
theorem unifyfsInodeDestroy_one_app :
    ∃ submitted, unifyfsInodeDestroy twoApps 0 3 (twoExtents 5 2 5 1) = some submitted ∧
      (submitted.Nodup ∧ (∀ cb, cb ∈ submitted ↔
          cb.gfid = 3 ∧ Holder twoApps 0 (twoExtents 5 2 5 1) cb.appId cb.clientId) ↔
        ∀ a c a' c', Holder twoApps 0 (twoExtents 5 2 5 1) a c →
          Holder twoApps 0 (twoExtents 5 2 5 1) a' c' → a = a') :=
  unifyfsInodeDestroy_callbacks_iff rfl

end UnifyFS.UnlinkCallbacks
