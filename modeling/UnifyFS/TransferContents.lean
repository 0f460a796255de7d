import UnifyFS.Inode
import UnifyFS.ListUpdates
import UnifyFS.ServerTransfer
import Mathlib.Data.List.Induction

/-!
# What a transfer by all servers leaves in the destination

Every server knows the extents that its own clients have synced, and the owner of the file knows
those of all servers. In a transfer each server writes the extents in its own inode that it
stores itself. Data that a client of another server has overwritten are gone from the inode of
the owner, but not from the inode of the server that stores them, so the order in which the
servers write decides which data the destination has.

Syncs come one after another and succeed. A sync goes to the server of the client, which adds
the extents to its inode and then sends them to the owner. What is read from the logs is an
argument, and so are the results of the writes as long as all data are written in the end.
-/
namespace UnifyFS.TransferContents
open ListUpdates RangeLists RangeTrees ExtentTree InodeModel ServerTransfer List Option

abbrev Destination := ℕ → Option UInt8

def applyWrite (f : Destination) (w : FileWrite) : Destination := fun b =>
  if w.offset ≤ b ∧ b < w.offset + w.data.length then w.data[b - w.offset]? else f b

def applyWrites (f : Destination) (ws : List FileWrite) : Destination := ws.foldl applyWrite f

theorem applyWrites_append (f : Destination) (ws ws' : List FileWrite) :
    applyWrites f (ws ++ ws') = applyWrites (applyWrites f ws) ws' := foldl_append

variable {data : List UInt8} {maxWrite : ℕ} {ws : List FileWrite} {exts es : List Extent}
  {ino : Inode} {map : ℕ → Option LogLoc} {order : List ℕ}

theorem applyWrite_split (f : Destination) (offset : ℕ) {m : ℕ} (hm : m < data.length) (b : ℕ) :
    applyWrite (applyWrite f ⟨offset,data.take m⟩) ⟨offset + m,data.drop m⟩ b =
      applyWrite f ⟨offset,data⟩ b := by
  simp only [applyWrite,length_drop,length_take]
  by_cases hsecond : offset + m ≤ b ∧ b < offset + m + (data.length - m)
  · rw [if_pos hsecond,if_pos (by omega),getElem?_drop]
    congr 1
    omega
  · rw [if_neg hsecond]
    by_cases hfirst : offset ≤ b ∧ b < offset + min m data.length
    · rw [if_pos hfirst,if_pos (by omega),getElem?_take_of_lt (by omega)]
    · rw [if_neg hfirst,if_neg (by omega)]

theorem applyWrites_chunk {offset : ℕ} {results : List PwriteResult}
    (h : writeTransferChunk maxWrite offset data results = some (Rc.success,ws)) (f : Destination)
    (b : ℕ) :
    applyWrites f ws b = applyWrite f ⟨offset,data⟩ b := by
  induction results generalizing offset data ws f with
  | nil => cases h
  | cons r results ih =>
    cases r with
    | error err nonzero =>
      rw [writeTransferChunk] at h
      split at h
      · exact absurd (congrArg Prod.fst (some.inj h)) nonzero
      · split at h
        · next hempty =>
          cases h
          rw [isEmpty_iff.mp hempty]
          exact (if_neg (by simp)).symm
        · exact ih h f
    | wrote n =>
      rw [writeTransferChunk] at h
      generalize min n (min data.length maxWrite) = m at h
      split at h
      · next hempty =>
        cases h
        have hle := drop_eq_nil_iff.mp (isEmpty_iff.mp hempty)
        rw [take_of_length_le hle]
        rfl
      · next hempty =>
        obtain ⟨⟨rc,rest⟩,hrest,heq⟩ := map_eq_some_iff.mp h
        cases heq
        change applyWrites (applyWrite f ⟨offset,data.take m⟩) rest b = _
        rw [ih hrest]
        have hlt : m < data.length := by
          by_contra hle
          exact hempty (isEmpty_iff.mpr (drop_eq_nil_of_le (by omega)))
        exact applyWrite_split f offset hlt b

/-- The bytes that an address of a log stands for. -/
abbrev LogData := LogLoc → UInt8

theorem applyWrite_extent (f : Destination) (log : LogData) {ext : Extent}
    (hle : ext.start ≤ ext.stop) (b : ℕ) :
    applyWrite f ⟨ext.start,(List.range ext.length).map fun k => log (ext.info.val k)⟩ b =
      if ext.Holds b then some (log (ext.value LogLoc.val b)) else f b := by
  have hiff : (ext.start ≤ b ∧ b < ext.start + ext.length) ↔ ext.Holds b := by
    unfold Range.Holds Range.length
    omega
  simp only [applyWrite,length_map,length_range,hiff]
  split
  · next hb =>
    obtain ⟨hge,hlt⟩ := hiff.mpr hb
    rw [getElem?_map,getElem?_range (by omega)]
    rfl
  · rfl

/-- The reads of a thread give what the logs hold. -/
def ReadsLogs (log : LogData) (env : ThreadEnv) (i : ℕ) (exts : List Extent) : Prop :=
  ∀ j ext, exts[j]? = some ext → (env.readExtent (i + j)).2 = fun k => log (ext.info.val k)

variable {log : LogData} {s₀ s : FileServers} {history : List SyncCall}

theorem applyWrites_copied {env : ThreadEnv} {i : ℕ} (hlog : ReadsLogs log env i exts)
    (hsep : Separate exts) (h : Copied env maxWrite i exts ws) (f : Destination) (b : ℕ) :
    applyWrites f ws b = ((contents LogLoc.val exts b).map log).or (f b) := by
  induction exts generalizing i ws f with
  | nil =>
    rw [copied_nil.mp h]
    rfl
  | cons ext exts ih =>
    obtain ⟨w,rest,-,hwrite,hrest,rfl⟩ := h
    have hread : (env.readExtent i).2 = fun k => log (ext.info.val k) := hlog 0 ext rfl
    rw [applyWrites_append,ih (fun j e he => by rw [← hlog (j + 1) e he]; congr 2; omega)
      hsep.tail hrest,applyWrites_chunk hwrite,contents_cons]
    have hchunk : applyWrite f ⟨ext.start,(readLocalExtent env i ext).2.data⟩ b =
        if ext.Holds b then some (log (ext.value LogLoc.val b)) else f b := by
      rw [readLocalExtent,hread]
      exact applyWrite_extent f log (hsep.start_le ext mem_cons_self) b
    rw [hchunk]
    by_cases hb : ext.Holds b
    · rw [if_pos hb,if_pos hb,hsep.contents_tail_eq_none hb]
      rfl
    · rw [if_neg hb,if_neg hb]

/-- A sync that arrives at a server, with the searches in the trees of the server and of the
owner. -/
structure SyncCall where
  server : ℕ
  extents : List Extent
  search : ℕ → Picker LogLoc
  ownerSearch : ℕ → Picker LogLoc

structure FileServers where
  owner : ℕ
  inodes : List Inode

def syncInode (S : ℕ → Picker LogLoc) (ino : Inode) (es : List Extent) : Option (Rc × Inode) :=
  let r := unifyfsInodeAddPendingExtents ino es
  if r.1 ≠ Rc.success then some r else processPendingSync S r.2

/-- `process_pending_sync` for a sync that succeeds. A sync that fails has no result. -/
def processSync (s : FileServers) (c : SyncCall) : Option FileServers := do
  let ino ← s.inodes[c.server]?
  let (rc,ino) ← syncInode c.search ino c.extents
  let inodes := s.inodes.set c.server ino
  if rc ≠ Rc.success then none
  else if c.server = s.owner then some { s with inodes := inodes }
  else do
    let own ← inodes[s.owner]?
    let (rc,own) ← unifyfsInodeAddExtents c.ownerSearch own c.extents
    if rc ≠ Rc.success then none else some { s with inodes := inodes.set s.owner own }

/-- The clients of a server store their data there. -/
def SyncCall.Valid (c : SyncCall) : Prop :=
  ∀ e ∈ c.extents, Fits e ∧ e.info.svrRank = c.server

def lastSync (history : List SyncCall) : ℕ → Option LogLoc :=
  (history.flatMap SyncCall.extents).foldl overwriteExtent fun _ => none

/-- What the syncs that have arrived at one server have left. -/
def lastSyncAt (history : List SyncCall) (r : ℕ) : ℕ → Option LogLoc :=
  lastSync (history.filter fun c => c.server = r)

/-- What a server knows of a history: the owner all of it. -/
def knownMap (owner : ℕ) (history : List SyncCall) (r : ℕ) : ℕ → Option LogLoc :=
  if r = owner then lastSync history else lastSyncAt history r

section Maps
variable {history : List SyncCall} {r b : ℕ} {loc : LogLoc}

theorem foldl_overwriteExtent_or (es : List Extent) (f : ℕ → Option LogLoc) (b : ℕ) :
    es.foldl overwriteExtent f b = (es.foldl overwriteExtent (fun _ => none) b).or (f b) := by
  induction es using reverseRecOn with
  | nil => rfl
  | append_singleton es e ih =>
    simp only [foldl_append,foldl_cons,foldl_nil,overwriteExtent_apply,ih]
    split
    · rfl
    · rfl

theorem lastSync_snoc (history : List SyncCall) (c : SyncCall) :
    lastSync (history ++ [c]) = c.extents.foldl overwriteExtent (lastSync history) := by
  unfold lastSync
  rw [flatMap_append,foldl_append,flatMap_singleton]

theorem lastSync_singleton (c : SyncCall) :
    lastSync [c] = c.extents.foldl overwriteExtent fun _ => none := lastSync_snoc [] c

theorem lastSyncAt_snoc (history : List SyncCall) (c : SyncCall) (r : ℕ) :
    lastSyncAt (history ++ [c]) r =
      if c.server = r then c.extents.foldl overwriteExtent (lastSyncAt history r)
      else lastSyncAt history r := by
  unfold lastSyncAt
  rw [filter_append]
  split
  · next hc => rw [filter_cons_of_pos (by simpa using hc),filter_nil,lastSync_snoc]
  · next hc =>
    rw [filter_cons_of_neg (by simpa using hc),filter_nil,append_nil]

theorem lastSync_concat (history : List SyncCall) (c : SyncCall) (b : ℕ) :
    lastSync (history ++ [c]) b = (lastSync [c] b).or (lastSync history b) := by
  rw [lastSync_snoc,foldl_overwriteExtent_or,lastSync_singleton]

theorem exists_of_foldl_overwriteExtent {es : List Extent}
    (h : es.foldl overwriteExtent (fun _ => none) b = some loc) :
    ∃ e ∈ es, loc.svrRank = e.info.svrRank := by
  induction es using reverseRecOn with
  | nil => cases h
  | append_singleton es e ih =>
    rw [foldl_append,foldl_cons,foldl_nil,overwriteExtent_apply] at h
    split at h
    · cases h
      exact ⟨e,mem_concat_self,rfl⟩
    · obtain ⟨e',he',hrank⟩ := ih h
      exact ⟨e',mem_append_left _ he',hrank⟩

theorem lastSyncAt_concat (history : List SyncCall) (c : SyncCall) (r b : ℕ) :
    lastSyncAt (history ++ [c]) r b =
      if c.server = r then (lastSync [c] b).or (lastSyncAt history r b)
      else lastSyncAt history r b := by
  rw [lastSyncAt_snoc]
  split
  · rw [foldl_overwriteExtent_or,lastSync_singleton]
  · rfl

theorem lastSync_server (hvalid : ∀ c ∈ history, c.Valid) (h : lastSync history b = some loc) :
    ∃ c ∈ history, loc.svrRank = c.server := by
  obtain ⟨e,he,hrank⟩ := exists_of_foldl_overwriteExtent h
  obtain ⟨c,hc,hec⟩ := mem_flatMap.mp he
  exact ⟨c,hc,hrank.trans (hvalid c hc e hec).2⟩

theorem lastSyncAt_server (hvalid : ∀ c ∈ history, c.Valid)
    (h : lastSyncAt history r b = some loc) : loc.svrRank = r := by
  obtain ⟨c,hc,hrank⟩ := lastSync_server (fun c hc => hvalid c (mem_of_mem_filter hc)) h
  rw [hrank]
  exact_mod_cast of_decide_eq_true (mem_filter.mp hc).2

theorem lastSyncAt_of_lastSync (hvalid : ∀ c ∈ history, c.Valid)
    (h : lastSync history b = some loc) (hrank : loc.svrRank = r) :
    lastSyncAt history r b = some loc := by
  induction history using reverseRecOn with
  | nil => cases h
  | append_singleton history c ih =>
    have hpre : ∀ c ∈ history, c.Valid := fun c hc => hvalid c (mem_append_left _ hc)
    rw [lastSync_concat] at h
    rw [lastSyncAt_concat]
    cases hlast : lastSync [c] b with
    | none =>
      rw [hlast] at h
      split
      · exact ih hpre h
      · exact ih hpre h
    | some l =>
      rw [hlast] at h
      cases h
      obtain ⟨c',hc',hserver⟩ := lastSync_server
        (fun c' hc' => hvalid c' (mem_append_right _ hc')) hlast
      rw [mem_singleton.mp hc'] at hserver
      rw [if_pos (by omega)]
      rfl

end Maps

/-- The file has been created on every server, and nothing has been synced. -/
structure Fresh (s : FileServers) : Prop where
  owner : s.owner < s.inodes.length
  inodes : ∀ ino ∈ s.inodes, ino.extents = extentTreeInit ∧ ino.pending = [] ∧
    ino.attr.isLaminated = 0

structure Ready (ino : Inode) (map : ℕ → Option LogLoc) : Prop where
  ok : ino.Ok
  isLaminated : ino.attr.isLaminated = 0
  pending : ino.pending = []
  map : extentMap ino = map

theorem Ready.added {ino' : Inode} (h : Ready ino map) (hadded : Added es ino ino') :
    Ready ino' (es.foldl overwriteExtent map) :=
  ⟨hadded.ok,hadded.isLaminated.trans h.isLaminated,hadded.pending.trans h.pending,
    hadded.map.trans (by rw [h.map])⟩

theorem syncInode_spec (S : ℕ → Picker LogLoc) (h : Ready ino map) (hes : ∀ e ∈ es, Fits e) :
    ∃ ino', syncInode S ino es = some (Rc.success,ino') ∧
      Ready ino' (es.foldl overwriteExtent map) := by
  obtain ⟨ino',hadd,hadded⟩ := unifyfsInodeAddExtents_spec S es h.ok h.isLaminated hes
  refine ⟨ino',?_,h.added hadded⟩
  have hpending : unifyfsInodeAddPendingExtents ino es =
      (Rc.success,{ ino with pending := [es] }) := by
    rw [unifyfsInodeAddPendingExtents,if_neg (not_not.mpr h.isLaminated),h.pending]
    rfl
  have hsame : ({ ino with pending := [] } : Inode) = ino := by
    rw [← h.pending]
  rw [syncInode,hpending]
  change processPendingSync S { ino with pending := [es] } = _
  rw [processPendingSync,if_neg (by simp)]
  simp only [flatten_cons,flatten_nil,append_nil]
  rw [hsame,hadd]

/-- The inodes agree with the syncs so far. -/
structure Follows (s₀ : FileServers) (history : List SyncCall) (s : FileServers) : Prop where
  owner : s.owner = s₀.owner
  length : s.inodes.length = s₀.inodes.length
  servers : ∀ c ∈ history, c.server < s₀.inodes.length
  ready : ∀ r ino, s.inodes[r]? = some ino → Ready ino (knownMap s₀.owner history r)

theorem Fresh.follows (h : Fresh s₀) : Follows s₀ [] s₀ where
  owner := rfl
  length := rfl
  servers := nofun
  ready r ino hino := by
    obtain ⟨htree,hpending,hlam⟩ := h.inodes ino (mem_of_getElem? hino)
    refine ⟨⟨?_,?_⟩,hlam,hpending,?_⟩
    · rw [htree]
      exact extentTreeInit_sound
    · rw [htree]
      decide
    · rw [extentMap,htree]
      unfold knownMap
      split
      · rfl
      · rfl

theorem knownMap_concat (owner : ℕ) (history : List SyncCall) (c : SyncCall) (r : ℕ) :
    knownMap owner (history ++ [c]) r =
      if r = owner ∨ c.server = r then
        c.extents.foldl overwriteExtent (knownMap owner history r)
      else knownMap owner history r := by
  unfold knownMap
  by_cases howner : r = owner
  · rw [if_pos howner,if_pos howner,if_pos (.inl howner),lastSync_snoc]
  · rw [if_neg howner,if_neg howner,lastSyncAt_snoc]
    simp only [howner,false_or]

theorem Follows.step {s' : FileServers} {c : SyncCall} (h : Follows s₀ history s) (hvalid : c.Valid)
    (hs : processSync s c = some s') : Follows s₀ (history ++ [c]) s' := by
  have hfits : ∀ e ∈ c.extents, Fits e := fun e he => (hvalid e he).1
  unfold processSync at hs
  cases hino : s.inodes[c.server]? with
  | none =>
    rw [hino] at hs
    cases hs
  | some ino =>
    obtain ⟨hlt,-⟩ := List.getElem?_eq_some_iff.mp hino
    obtain ⟨ino',hsync,hready⟩ := syncInode_spec c.search (h.ready _ _ hino) hfits
    have hservers : ∀ c' ∈ history ++ [c], c'.server < s₀.inodes.length := by
      intro c' hc'
      rcases mem_append.mp hc' with hc' | hc'
      · exact h.servers c' hc'
      · rw [mem_singleton.mp hc',← h.length]
        exact hlt
    simp only [hino,hsync,bind_eq_bind,bind_some,ne_eq,not_true_eq_false,if_false] at hs
    -- the server of the sync has it, and so has the owner
    split at hs
    · next howner =>
      cases hs
      refine ⟨h.owner,(length_set ..).trans h.length,hservers,fun r ino₁ hr => ?_⟩
      rw [knownMap_concat]
      rcases of_getElem?_set hr with ⟨heq,rfl⟩ | ⟨hne,hold⟩
      · rw [if_pos (.inr heq),← heq]
        exact hready
      · rw [if_neg (by rw [← h.owner]; omega)]
        exact h.ready r ino₁ hold
    · next howner =>
      have hkeep : (s.inodes.set c.server ino')[s.owner]? = s.inodes[s.owner]? :=
        getElem?_set_ne howner
      rw [hkeep] at hs
      cases hown : s.inodes[s.owner]? with
      | none =>
        rw [hown] at hs
        cases hs
      | some own =>
        have hownReady := h.ready _ _ hown
        obtain ⟨own',hadd,hadded⟩ := unifyfsInodeAddExtents_spec c.ownerSearch c.extents
          hownReady.ok hownReady.isLaminated hfits
        simp only [hown,hadd,bind_some,not_true_eq_false,if_false] at hs
        cases hs
        refine ⟨h.owner,?_,hservers,fun r ino₁ hr => ?_⟩
        · rw [length_set,length_set]
          exact h.length
        · rw [knownMap_concat]
          rcases of_getElem?_set hr with ⟨heq,rfl⟩ | ⟨hne,hold⟩
          · rw [if_pos (.inl (heq.symm.trans h.owner)),← heq]
            exact hownReady.added hadded
          · rcases of_getElem?_set hold with ⟨heq,rfl⟩ | ⟨hne',hold⟩
            · rw [if_pos (.inr heq),← heq]
              exact hready
            · rw [if_neg (by rw [← h.owner]; omega)]
              exact h.ready r ino₁ hold

theorem Follows.of_run (hfresh : Fresh s₀) (hvalid : ∀ c ∈ history, c.Valid)
    (hs : history.foldlM processSync s₀ = some s) : Follows s₀ history s := by
  induction history using reverseRecOn generalizing s with
  | nil =>
    cases hs
    exact hfresh.follows
  | append_singleton history c ih =>
    rw [foldlM_append] at hs
    obtain ⟨t,ht,hstep⟩ := bind_eq_some_iff.mp hs
    have hpre := ih (fun c hc => hvalid c (mem_append_left _ hc)) ht
    refine hpre.step (hvalid c mem_concat_self) ?_
    simpa using hstep

/-- What a server writes: the thread for its own extents has ended with success. -/
def TransferWrites (log : LogData) (s : FileServers) (r : ℕ) (writes : List FileWrite) : Prop :=
  ∃ ino sizes env allocated, s.inodes[r]? = some ino ∧
    ReadsLogs log env 0 (ownExtents r ino.extents.nodes) ∧
    transferLocalData sizes env (createLocalTransfers r (.ok ino.extents.nodes) allocated).2 =
      some (.ok (Rc.success,writes))

/-- The address that a server copies for a byte. -/
def ownLoc (owner : ℕ) (history : List SyncCall) (r b : ℕ) : Option LogLoc :=
  (knownMap owner history r b).filter fun loc => loc.svrRank == r

theorem contents_ownExtents (r : ℤ) (hsep : Separate exts) (b : ℕ) :
    contents LogLoc.val (ownExtents r exts) b =
      (contents LogLoc.val exts b).filter fun loc => loc.svrRank == r := by
  unfold ownExtents
  induction exts with
  | nil => rfl
  | cons ext exts ih =>
    have hvalue : (ext.value LogLoc.val b).svrRank = ext.info.svrRank := rfl
    rw [contents_cons]
    by_cases hown : (ext.info.svrRank == r) = true
    · rw [filter_cons,if_pos hown,contents_cons,ih hsep.tail]
      by_cases hb : ext.Holds b
      · rw [if_pos hb,if_pos hb]
        rw [filter_some,hvalue,if_pos hown]
      · rw [if_neg hb,if_neg hb]
    · rw [filter_cons,if_neg hown,ih hsep.tail]
      by_cases hb : ext.Holds b
      · rw [if_pos hb,hsep.contents_tail_eq_none hb]
        rw [filter_some,hvalue,if_neg hown]
        rfl
      · rw [if_neg hb]

theorem applyWrites_transfer {r : ℕ} {writes : List FileWrite} (h : Follows s₀ history s)
    (hwrites : TransferWrites log s r writes) (f : Destination) (b : ℕ) :
    applyWrites f writes b = ((ownLoc s₀.owner history r b).map log).or (f b) := by
  obtain ⟨ino,sizes,env,allocated,hino,hlog,hthread⟩ := hwrites
  have hready := h.ready r ino hino
  have hsep := hready.ok.sound.separate
  have hown : contents LogLoc.val (ownExtents r ino.extents.nodes) b =
      ownLoc s₀.owner history r b := by
    rw [contents_ownExtents _ hsep,ownLoc,← hready.map]
    rfl
  rw [← hown]
  rcases (transferLocalData_localArgs ..).mp hthread with ⟨hnil,rfl⟩ | ⟨-,-,-,-,-,hcopied⟩
  · rw [hnil]
    rfl
  · exact applyWrites_copied hlog (hsep.sublist filter_sublist) hcopied f b

/-- A byte that several servers write has the value of the last one. -/
theorem applyWrites_order {writes : ℕ → List FileWrite} (h : Follows s₀ history s)
    (hwrites : ∀ r ∈ order, TransferWrites log s r (writes r)) (f : Destination) (b : ℕ) :
    applyWrites f (order.flatMap writes) b =
      order.foldl (fun v r => ((ownLoc s₀.owner history r b).map log).or v) (f b) := by
  induction order generalizing f with
  | nil => rfl
  | cons r order ih =>
    rw [flatMap_cons,applyWrites_append,ih fun r hr => hwrites r (mem_cons_of_mem _ hr),
      applyWrites_transfer h (hwrites r mem_cons_self),foldl_cons]

theorem foldl_or_eq {g : ℕ → Option UInt8} {v₀ : Option UInt8} {v : UInt8}
    (hsame : ∀ r ∈ order, ∀ w, g r = some w → w = v)
    (hsome : v₀ = some v ∨ ∃ r ∈ order, g r = some v) :
    order.foldl (fun v r => (g r).or v) v₀ = some v := by
  induction order generalizing v₀ with
  | nil => exact hsome.resolve_right nofun
  | cons r order ih =>
    rw [foldl_cons]
    refine ih (fun r hr => hsame r (mem_cons_of_mem _ hr)) ?_
    cases hr : g r with
    | some w =>
      rw [hsame r mem_cons_self w hr]
      exact .inl rfl
    | none =>
      rcases hsome with h | ⟨r',hr',hv⟩
      · exact .inl h
      · refine .inr ⟨r',(mem_cons.mp hr').resolve_left fun heq => ?_,hv⟩
        rw [heq,hr] at hv
        cases hv

section OwnLoc
variable {owner : ℕ} {history : List SyncCall} {r b : ℕ}

theorem ownLoc_of_ne (hvalid : ∀ c ∈ history, c.Valid) (hr : r ≠ owner) :
    ownLoc owner history r b = lastSyncAt history r b := by
  unfold ownLoc knownMap
  rw [if_neg hr]
  cases hloc : lastSyncAt history r b with
  | none => rfl
  | some loc => exact filter_some_pos (by simpa using lastSyncAt_server hvalid hloc)

theorem ownLoc_owner : ownLoc owner history owner b =
    (lastSync history b).filter fun loc => loc.svrRank == (owner : ℤ) := by
  unfold ownLoc knownMap
  rw [if_pos rfl]

theorem exists_ownLoc {loc : LogLoc} (hvalid : ∀ c ∈ history, c.Valid)
    (h : lastSync history b = some loc) :
    ∃ c ∈ history, ownLoc owner history c.server b = some loc := by
  obtain ⟨c,hc,hrank⟩ := lastSync_server hvalid h
  refine ⟨c,hc,?_⟩
  by_cases howner : c.server = owner
  · rw [howner,ownLoc_owner,h]
    exact filter_some_pos (by simpa [howner] using hrank)
  · rw [ownLoc_of_ne hvalid howner]
    exact lastSyncAt_of_lastSync hvalid h hrank

end OwnLoc

/-- After a transfer by all servers, in any order, the destination has the data that the owner
knows exactly if no other server still knows different data for a byte that was synced again. -/
theorem local_transfer_contents_iff {s₀ s : FileServers} {history : List SyncCall} (log : LogData)
    {writes : ℕ → List FileWrite} (f : Destination) {own : Inode} (hfresh : Fresh s₀)
    (hvalid : ∀ c ∈ history, c.Valid) (hs : history.foldlM processSync s₀ = some s)
    (hown : s.inodes[s.owner]? = some own)
    (hwrites : ∀ r < s.inodes.length, TransferWrites log s r (writes r)) :
    (∀ order : List ℕ, order.Perm (List.range s.inodes.length) → ∀ b loc,
      extentMap own b = some loc → applyWrites f (order.flatMap writes) b = some (log loc)) ↔
    ∀ b loc, lastSync history b = some loc → ∀ r < s₀.inodes.length, r ≠ s₀.owner →
      ∀ stale, lastSyncAt history r b = some stale → log stale = log loc := by
  have h := Follows.of_run hfresh hvalid hs
  have hmap : extentMap own = lastSync history := by
    rw [(h.ready _ _ hown).map,knownMap,if_pos h.owner]
  simp only [hmap]
  have hrun : ∀ order : List ℕ, order.Perm (List.range s.inodes.length) → ∀ b,
      applyWrites f (order.flatMap writes) b =
        order.foldl (fun v r => ((ownLoc s₀.owner history r b).map log).or v) (f b) :=
    fun order hperm b => applyWrites_order h
      (fun r hr => hwrites r (mem_range.mp (hperm.mem_iff.mp hr))) f b
  constructor
  · intro hall b loc hloc r hr hne stale hstale
    -- the server with the old data comes last
    have hmem : r ∈ List.range s.inodes.length := mem_range.mpr (h.length ▸ hr)
    have hperm := (perm_append_singleton ..).trans (perm_cons_erase hmem).symm
    have hlast := hall _ hperm b loc hloc
    rw [hrun _ hperm,foldl_append,foldl_cons,ownLoc_of_ne hvalid hne,hstale] at hlast
    exact some.inj hlast
  · intro hcond order hperm b loc hloc
    rw [hrun order hperm b]
    refine foldl_or_eq (fun r hr v hv => ?_) (.inr ?_)
    · obtain ⟨loc',hloc',rfl⟩ := map_eq_some_iff.mp hv
      by_cases hne : r = s₀.owner
      · rw [hne,ownLoc_owner,hloc] at hloc'
        rw [some.inj (filter_eq_some_iff.mp hloc').1]
      · rw [ownLoc_of_ne hvalid hne] at hloc'
        exact hcond b loc hloc r (h.length ▸ mem_range.mp (hperm.mem_iff.mp hr)) hne _ hloc'
    · obtain ⟨c,hc,hcopy⟩ := exists_ownLoc hvalid hloc
      refine ⟨c.server,hperm.mem_iff.mpr (mem_range.mpr (h.length ▸ h.servers c hc)),?_⟩
      rw [hcopy]
      rfl

section TwoServers

def freshServers : FileServers :=
  ⟨0,[⟨FileAttr.zero,extentTreeInit,[]⟩,⟨FileAttr.zero,extentTreeInit,[]⟩]⟩

theorem freshServers_fresh : Fresh freshServers where
  owner := by decide
  inodes := by decide

def firstByte (server : ℕ) : Extent := ⟨0,0,⟨0,server,1,1⟩⟩

def syncFirst (server : ℕ) : SyncCall :=
  ⟨server,[firstByte server],fun _ => .first,fun _ => .first⟩

theorem syncFirst_valid (servers : List ℕ) : ∀ c ∈ servers.map syncFirst, c.Valid := by
  rw [List.forall_mem_map]
  intro server _ e he
  rw [mem_singleton.mp he]
  exact ⟨⟨Nat.le_refl 0,show 0 + 1 < MachineWords.wordSize by decide⟩,rfl⟩

def knowsFirst (server : ℕ) : Inode :=
  ⟨{ FileAttr.zero with size := 1 },⟨[firstByte server],1,0⟩,[]⟩

def serverByte : LogData := fun loc => UInt8.ofNat loc.svrRank.toNat

theorem ownExtents_first (r server : ℕ) : ownExtents r (knowsFirst server).extents.nodes =
    if server = r then [firstByte server] else [] := by
  have hrank : (firstByte server).info.svrRank = server := rfl
  simp only [ownExtents,knowsFirst,filter_cons,hrank,beq_iff_eq,Int.natCast_inj,filter_nil]

theorem transferWrites_first {s : FileServers} {r : ℕ} (server : ℕ)
    (h : s.inodes[r]? = some (knowsFirst server)) : TransferWrites serverByte s r
      (if server = r then [⟨0,[serverByte (firstByte server).info]⟩] else []) := by
  refine ⟨_,⟨1,1⟩,⟨Rc.success,true,true,
    fun _ => (Rc.success,fun k => serverByte ((firstByte server).info.val k)),
    fun _ => [.wrote 1]⟩,true,h,?_,(transferLocalData_localArgs ..).mpr ?_⟩
  · rw [ownExtents_first]
    split
    · intro j ext hext
      rw [mem_singleton.mp (mem_of_getElem? hext)]
    · nofun
  · rw [ownExtents_first]
    split
    · exact .inr ⟨cons_ne_nil _ _,rfl,rfl,rfl,rfl,_,[],rfl,rfl,rfl,rfl⟩
    · exact .inl ⟨rfl,rfl⟩

/-- A client of the other server writes after a client of the owner. -/
theorem local_transfer_contents_ordered :
    ([0,1].map syncFirst).foldlM processSync freshServers =
      some ⟨0,[knowsFirst 1,knowsFirst 1]⟩ ∧
    ∀ order : List ℕ, order.Perm (List.range 2) → ∀ b loc,
      extentMap (knowsFirst 1) b = some loc →
      applyWrites (fun _ => none) (order.flatMap fun r =>
        if 1 = r then [⟨0,[serverByte (firstByte 1).info]⟩] else []) b = some (serverByte loc) := by
  have hrun : ([0,1].map syncFirst).foldlM processSync freshServers =
      some ⟨0,[knowsFirst 1,knowsFirst 1]⟩ := by rfl
  refine ⟨hrun,(local_transfer_contents_iff serverByte _ freshServers_fresh
    (syncFirst_valid [0,1]) hrun rfl ?_).mpr ?_⟩
  · intro r hr
    match r, hr with
    | 0, _ => exact transferWrites_first 1 rfl
    | 1, _ => exact transferWrites_first 1 rfl
  · intro b loc hloc r hr hne stale hstale
    obtain rfl : r = 1 := by
      have : r < 2 := hr
      have : r ≠ 0 := hne
      omega
    have hlast : lastSync ([0,1].map syncFirst) b =
        (lastSyncAt ([0,1].map syncFirst) 1 b).or (lastSync [syncFirst 0] b) :=
      lastSync_concat [syncFirst 0] (syncFirst 1) b
    rw [hstale,hloc] at hlast
    rw [some.inj hlast]

/-- A client of the owner writes last, but the other server is the last one in the transfer. -/
theorem local_transfer_stale :
    Fresh freshServers ∧ (∀ c ∈ [1,0].map syncFirst, c.Valid) ∧
    ([1,0].map syncFirst).foldlM processSync freshServers =
      some ⟨0,[knowsFirst 0,knowsFirst 1]⟩ ∧
    extentMap (knowsFirst 0) 0 = some (firstByte 0).info ∧
    TransferWrites serverByte ⟨0,[knowsFirst 0,knowsFirst 1]⟩ 0 [⟨0,[0]⟩] ∧
    TransferWrites serverByte ⟨0,[knowsFirst 0,knowsFirst 1]⟩ 1 [⟨0,[1]⟩] ∧
    applyWrites (fun _ => none) ([⟨0,[0]⟩] ++ [⟨0,[1]⟩]) 0 = some 1 ∧
    serverByte (firstByte 0).info = 0 :=
  ⟨freshServers_fresh,syncFirst_valid [1,0],rfl,rfl,transferWrites_first 0 rfl,
    transferWrites_first 1 rfl,rfl,rfl⟩

end TwoServers

end UnifyFS.TransferContents
