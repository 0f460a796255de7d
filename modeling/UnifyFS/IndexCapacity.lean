import UnifyFS.WriteIndex

/-!
# The write index never overflows

The only guard of the write index is the test before a write that the tree of
unsynced extents is at least two nodes below the capacity. It suffices: one write
adds at most two nodes, a truncation adds none, and a tree that is not empty is
always marked as in need of a sync, so that the sync before a write does empty it.
-/
namespace UnifyFS.IndexCapacity
open MachineWords RangeLists RangeTrees SegTreeOps WriteIndex GuardedRuns List Option

def sizeofIndex : ℕ := 32

/-- `write_index.index_size`; the entries begin one page into the region. -/
def indexSize (cfg : ClientConfig) (pageSize : ℕ) : ℕ :=
  pageSize + cfg.maxWriteIndexEntries * sizeofIndex

structure FileHistory where
  entry : FileMeta
  rewrites : List (List IndexEntry)

inductive FileEvent where
  | write (S : Picker LogPtr) (log : Except Rc LogWrite) (reply reply' : Rc)
  | sync (reply : Rc)
  | truncate (S : Picker LogPtr) (length : ℕ) (h : length ≤ ulongMax) (reply : Rc)

def fileStep (cfg : ClientConfig) (s : FileHistory) : FileEvent → Option FileHistory
  | .write S log reply reply' =>
    (fidWrite cfg S s.entry log reply reply').map fun (_,m,more) => ⟨m,s.rewrites ++ more⟩
  | .sync reply =>
    let (_,m,more) := syncExtents s.entry reply
    some ⟨m,s.rewrites ++ more⟩
  | .truncate S length _ reply =>
    (fidTruncateLocal S s.entry length reply).map fun (_,m,more) => ⟨m,s.rewrites ++ more⟩

/-- An entry whose next rewrite of the index fits. -/
structure Roomy (cfg : ClientConfig) (m : FileMeta) : Prop where
  counted : m.extentsSync.Counted
  small : m.extentsSync.nodes.length < cfg.maxWriteIndexEntries
  stop_le : ∀ n ∈ m.extentsSync.nodes, n.stop ≤ ulongMax
  marked : m.extentsSync.nodes ≠ [] → m.needsWritesSync = true

def Fresh (m : FileMeta) : Prop := m.extentsSync = segTreeInit

section Steps
variable {cfg : ClientConfig} {m : FileMeta}

theorem Fresh.roomy (h : Fresh m) (hcfg : 3 ≤ cfg.maxWriteIndexEntries) : Roomy cfg m := by
  have hnodes : m.extentsSync.nodes = [] := by
    rw [show m.extentsSync = segTreeInit from h]
    rfl
  refine ⟨?_,?_,?_,?_⟩
  · rw [show m.extentsSync = segTreeInit from h]
    exact segTreeInit_counted
  · rw [hnodes]
    exact Nat.lt_of_lt_of_le (by decide) hcfg
  · simp [hnodes]
  · simp [hnodes]

theorem Roomy.empty (hcounted : m.extentsSync.Counted) (hnil : m.extentsSync.nodes = [])
    (hcfg : 3 ≤ cfg.maxWriteIndexEntries) : Roomy cfg m := by
  refine ⟨hcounted,?_,by simp [hnil],by simp [hnil]⟩
  rw [hnil]
  exact Nat.lt_of_lt_of_le (by decide) hcfg

theorem syncExtents_spec (hm : Roomy cfg m) (reply : Rc) :
    (syncExtents m reply).2.1.extentsSync.Counted ∧
      (syncExtents m reply).2.1.extentsSync.nodes = [] ∧
      ∀ entries ∈ (syncExtents m reply).2.2, entries.length ≤ m.extentsSync.nodes.length := by
  refine ⟨?_,syncExtents_nodes (fun hneeds => ?_) reply,?_⟩
  · rw [syncExtents_meta]
    split
    · exact segTreeClear_counted hm.counted
    · exact hm.counted
  · by_contra hne
    exact Bool.false_ne_true (hneeds.symm.trans (hm.marked hne))
  · have hlen : (rewriteIndexFromSegTree m).1.length = m.extentsSync.nodes.length := length_map ..
    unfold syncExtents
    dsimp only
    split_ifs <;> simp [hlen]

theorem Roomy.sync (hm : Roomy cfg m) (hcfg : 3 ≤ cfg.maxWriteIndexEntries) (reply : Rc) :
    Roomy cfg (syncExtents m reply).2.1 ∧
      ∀ entries ∈ (syncExtents m reply).2.2, entries.length ≤ cfg.maxWriteIndexEntries := by
  obtain ⟨hcounted,hnil,hlen⟩ := syncExtents_spec hm reply
  refine ⟨.empty hcounted hnil hcfg,?_⟩
  intro entries he
  exact (hlen entries he).trans (Nat.le_of_lt hm.small)

theorem room_for_two (hm : Roomy cfg m) (hcfg : 3 ≤ cfg.maxWriteIndexEntries) (reply : Rc) :
    let r := if m.extentsSync.count ≥ wordSub cfg.maxWriteIndexEntries 2
      then (syncExtents m reply).2 else (m,[])
    Roomy cfg r.1 ∧ r.1.extentsSync.nodes.length + 2 < cfg.maxWriteIndexEntries ∧
      ∀ entries ∈ r.2, entries.length ≤ cfg.maxWriteIndexEntries := by
  split
  · obtain ⟨hroomy,hlen⟩ := hm.sync hcfg reply
    obtain ⟨-,hnil,-⟩ := syncExtents_spec hm reply
    refine ⟨hroomy,?_,hlen⟩
    rw [hnil]
    exact hcfg
  · next hlt =>
    rw [wordSub_of_le (by omega),hm.counted.count_eq] at hlt
    have hroom : m.extentsSync.nodes.length + 2 < cfg.maxWriteIndexEntries := by omega
    exact ⟨hm,hroom,by simp⟩

theorem addWriteMetaToIndex_spec (S : Picker LogPtr) (hm : Roomy cfg m)
    (hcfg : 3 ≤ cfg.maxWriteIndexEntries) (w : LogWrite) (reply : Rc) :
    ∃ m' rewritten, addWriteMetaToIndex cfg S m w reply = some (m',rewritten) ∧
      Roomy cfg { m' with needsWritesSync := true } ∧
      ∀ entries ∈ rewritten, entries.length ≤ cfg.maxWriteIndexEntries := by
  obtain ⟨hroomy,hroom,hlen⟩ := room_for_two hm hcfg reply
  unfold addWriteMetaToIndex
  generalize (if m.extentsSync.count ≥ wordSub cfg.maxWriteIndexEntries 2
    then (syncExtents m reply).2 else (m,[])) = r at hroomy hroom hlen ⊢
  obtain ⟨m₁,rewritten⟩ := r
  have hone := w.one_le
  have hfits := w.fits
  obtain ⟨t,ht,hcounted,hgrow,hmap⟩ := segTreeAdd_spec S w.logOff cfg.clientId hroomy.counted
    (show w.pos ≤ w.pos + w.nwritten - 1 by omega)
  refine ⟨{ m₁ with extentsSync := t },rewritten,congrArg (Option.map _) ht,
    ⟨hcounted,?_,?_,fun _ => rfl⟩,hlen⟩
  · exact Nat.lt_of_le_of_lt hgrow hroom
  · change ∀ n ∈ t.nodes, n.stop ≤ ulongMax
    rw [stop_le_iff LogPtr.val hcounted.separate]
    intro b hb
    rw [hmap b] at hb
    split at hb
    · next hin =>
      unfold ulongMax
      omega
    · exact (stop_le_iff LogPtr.val hroomy.counted.separate).mp hroomy.stop_le b hb

def Kept (cfg : ClientConfig) (m : FileMeta) (rewritten : List (List IndexEntry)) : Prop :=
  Roomy cfg m ∧ ∀ entries ∈ rewritten, entries.length ≤ cfg.maxWriteIndexEntries

theorem Roomy.unchanged (hm : Roomy cfg m) : Kept cfg m [] := ⟨hm,by simp⟩

section
variable (S : Picker LogPtr) (hm : Roomy cfg m) (hcfg : 3 ≤ cfg.maxWriteIndexEntries)
include hm hcfg

theorem fidWrite_kept (log : Except Rc LogWrite) (reply reply' : Rc) :
    ∃ rc m' more, fidWrite cfg S m log reply reply' = some (rc,m',more) ∧ Kept cfg m' more := by
  unfold fidWrite
  split
  · exact ⟨_,_,_,rfl,hm.unchanged⟩
  · split
    · exact ⟨_,_,_,rfl,hm.unchanged⟩
    · split
      · exact ⟨_,_,_,rfl,hm.unchanged⟩
      · next w =>
        obtain ⟨m',rewritten,hadd,hroomy,hlen⟩ := addWriteMetaToIndex_spec S hm hcfg w reply
        rw [hadd]
        dsimp only
        split
        · obtain ⟨hsync,hmore⟩ := hroomy.sync hcfg reply'
          refine ⟨_,_,_,rfl,hsync,?_⟩
          intro entries he
          cases mem_append.mp he with
          | inl he => exact hlen entries he
          | inr he => exact hmore entries he
        · exact ⟨_,_,_,rfl,hroomy,hlen⟩

theorem fidTruncateWriteMeta_roomy {length : ℕ} (hlength : length ≤ ulongMax) :
    ∃ m', fidTruncateWriteMeta S m length = some m' ∧ Roomy cfg m' := by
  unfold fidTruncateWriteMeta
  split
  · exact ⟨_,rfl,.empty (segTreeClear_counted hm.counted) (segTreeClear_nodes _) hcfg⟩
  · obtain ⟨t,ht,hcounted,hmap,hbound⟩ := segTreeRemove_spec S hm.counted hlength
    obtain ⟨hle,hstop⟩ := hbound hm.stop_le
    have hsmall := hm.small
    refine ⟨{ m with extentsSync := t },by rw [ht]; rfl,hcounted,?_,hstop,?_⟩
    · change t.nodes.length < _
      omega
    · intro hne
      apply hm.marked
      intro hnil
      rw [hnil] at hle
      exact hne (eq_nil_of_length_eq_zero (Nat.le_zero.mp hle))

theorem fidTruncateLocal_kept {length : ℕ} (hlength : length ≤ ulongMax) (reply : Rc) :
    ∃ rc m' more, fidTruncateLocal S m length reply = some (rc,m',more) ∧ Kept cfg m' more := by
  unfold fidTruncateLocal
  split
  · exact ⟨_,_,_,rfl,hm.unchanged⟩
  · split
    · exact ⟨_,_,_,rfl,hm.unchanged⟩
    · split
      · exact ⟨_,_,_,rfl,hm.unchanged⟩
      · obtain ⟨m',htrunc,hroomy⟩ := fidTruncateWriteMeta_roomy S hm hcfg hlength
        obtain ⟨hsync,hlen⟩ := hroomy.sync hcfg reply
        rw [htrunc,map_some]
        dsimp only
        split
        · exact ⟨_,_,_,rfl,hsync,hlen⟩
        · exact ⟨_,_,_,rfl,⟨hsync.counted,hsync.small,hsync.stop_le,hsync.marked⟩,hlen⟩

end

theorem fileStep_kept {s : FileHistory} (hs : Kept cfg s.entry s.rewrites)
    (hcfg : 3 ≤ cfg.maxWriteIndexEntries) (ev : FileEvent) :
    ∃ s', fileStep cfg s ev = some s' ∧ Kept cfg s'.entry s'.rewrites := by
  have happend : ∀ {m : FileMeta} {more : List (List IndexEntry)}, Kept cfg m more →
      Kept cfg m (s.rewrites ++ more) := by
    intro m more hmore
    refine ⟨hmore.1,?_⟩
    intro entries he
    cases mem_append.mp he with
    | inl he => exact hs.2 entries he
    | inr he => exact hmore.2 entries he
  cases ev with
  | write S log reply reply' =>
    obtain ⟨rc,m,more,hw,hkept⟩ := fidWrite_kept S hs.1 hcfg log reply reply'
    exact ⟨⟨m,s.rewrites ++ more⟩,by rw [fileStep,hw]; rfl,happend hkept⟩
  | sync reply => exact ⟨_,rfl,happend (hs.1.sync hcfg reply)⟩
  | truncate S length h reply =>
    obtain ⟨rc,m,more,ht,hkept⟩ := fidTruncateLocal_kept S hs.1 hcfg h reply
    exact ⟨⟨m,s.rewrites ++ more⟩,by rw [fileStep,ht]; rfl,happend hkept⟩

theorem foldlM_fileStep_kept {s : FileHistory} (hs : Kept cfg s.entry s.rewrites)
    (hcfg : 3 ≤ cfg.maxWriteIndexEntries) (events : List FileEvent) :
    ∃ s', events.foldlM (fileStep cfg) s = some s' ∧ Kept cfg s'.entry s'.rewrites := by
  exact exists_foldlM (R := fun _ (s : FileHistory) => Kept cfg s.entry s.rewrites)
    (fun _ ev _ _ hkept => fileStep_kept hkept hcfg ev) hs

end Steps

/-- Whatever is written, synced and truncated, with whatever replies, all that was ever
written to the index fits into its region. -/
theorem rewrites_fit (cfg : ClientConfig) (hcfg : 3 ≤ cfg.maxWriteIndexEntries) (pageSize : ℕ)
    (m : FileMeta) (hm : Fresh m) (events : List FileEvent) :
    ∃ s, events.foldlM (fileStep cfg) ⟨m,[]⟩ = some s ∧ ∀ entries ∈ s.rewrites,
      entries.length ≤ cfg.maxWriteIndexEntries ∧
      pageSize + entries.length * sizeofIndex ≤ indexSize cfg pageSize := by
  obtain ⟨s,hs,-,hlen⟩ := foldlM_fileStep_kept (s := ⟨m,[]⟩) (hm.roomy hcfg).unchanged hcfg events
  refine ⟨s,hs,?_⟩
  intro entries he
  refine ⟨hlen entries he,?_⟩
  exact Nat.add_le_add_left (Nat.mul_le_mul_right _ (hlen entries he)) pageSize

def newEntry : FileMeta := ⟨0,.logio,false,false,true,segTreeInit,{ FileAttr.invalid with
  gfid := 7, isLaminated := 0 }⟩

def twoWrites : List FileEvent :=
  [.write .first (.ok ⟨0,0,4,by decide,by decide⟩) 0 0,
    .write .first (.ok ⟨10,4,4,by decide,by decide⟩) 0 0,.sync 0]

/-- The second write syncs first. -/
theorem rewrites_fit_two_writes :
    ∃ s, twoWrites.foldlM (fileStep ⟨1,3,false⟩) ⟨newEntry,[]⟩ = some s ∧
      s.rewrites = [[⟨0,0,4,7⟩],[⟨10,4,4,7⟩]] ∧ ∀ entries ∈ s.rewrites,
        entries.length ≤ 3 ∧ 4096 + entries.length * sizeofIndex ≤ indexSize ⟨1,3,false⟩ 4096 := by
  obtain ⟨s,hs,hfit⟩ := rewrites_fit ⟨1,3,false⟩ (by decide) 4096 newEntry rfl twoWrites
  have hrewrites : (twoWrites.foldlM (fileStep ⟨1,3,false⟩) ⟨newEntry,[]⟩).map
      FileHistory.rewrites = some [[⟨0,0,4,7⟩],[⟨10,4,4,7⟩]] := by
    decide +kernel
  rw [hs] at hrewrites
  exact ⟨s,hs,some.inj hrewrites,hfit⟩

end UnifyFS.IndexCapacity
