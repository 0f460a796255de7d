import UnifyFS.TransferContents

/-!
# Transfers make progress

The calls of `pwrite` for one extent give an endless sequence of results, of which the thread uses
as many as it needs. A call may write fewer bytes than asked for, none at all, or be interrupted.
If again and again a call writes something or fails for good, the thread gets to its end, whatever
the limit of the copy buffer is. If nothing fails, the data of each extent are written piece by
piece, one piece after the other.
-/
namespace UnifyFS.TransferProgress
open ExtentTree RangeLists ServerTransfer TransferContents MachineWords ListUpdates List Option

def transferMaxWrite : ℕ := 16 * 1048576

def Fails : PwriteResult → Prop
  | .wrote _ => False
  | .error err _ => err ≠ eintr ∧ err ≠ eagain

def Progresses : PwriteResult → Prop
  | .wrote n => 0 < n
  | .error _ _ => False

def firstCalls (c : ℕ → PwriteResult) (n : ℕ) : List PwriteResult := (List.range n).map c

/-- The thread with the first results of the calls for each extent. -/
def withCalls (env : ThreadEnv) (calls : ℕ → ℕ → PwriteResult) (n : ℕ) : ThreadEnv :=
  { env with pwrites := fun i => firstCalls (calls i) n }

/-- The writes put the data behind an offset, one piece after the other. -/
def Pieces : ℕ → List UInt8 → List FileWrite → Prop
  | _, data, [] => data = []
  | offset, data, w :: ws => w.offset = offset ∧ w.data <+: data ∧
      Pieces (offset + w.data.length) (data.drop w.data.length) ws

def extentData (log : LogData) (ext : Extent) : List UInt8 :=
  (List.range ext.length).map fun k => log (ext.info.val k)

/-- The writes are those of the data of each extent at its offset, once each. -/
def WrittenOnce (log : LogData) (exts : List Extent) (writes : List FileWrite) : Prop :=
  ∃ pieces : List (List FileWrite), writes = pieces.flatten ∧
    List.Forall₂ (fun ext ws => Pieces ext.start (extentData log ext) ws) exts pieces

section Chunk
variable {maxWrite offset : ℕ} {data : List UInt8} {c : ℕ → PwriteResult}
  {results : List PwriteResult} {out : Rc × List FileWrite}

theorem firstCalls_succ (c : ℕ → PwriteResult) (n : ℕ) :
    firstCalls c (n + 1) = c 0 :: firstCalls (fun j => c (j + 1)) n := by
  rw [firstCalls,range_succ_eq_map,map_cons,List.map_map]
  rfl

theorem firstCalls_prefix (c : ℕ → PwriteResult) {n m : ℕ} (h : n ≤ m) :
    firstCalls c n <+: firstCalls c m := by
  obtain ⟨k,rfl⟩ := Nat.exists_eq_add_of_le h
  rw [firstCalls,firstCalls,range_add,map_append]
  exact prefix_append _ _

theorem writeTransferChunk_cons (maxWrite offset : ℕ) (data : List UInt8) (x : PwriteResult) :
    (∃ out, ∀ l, writeTransferChunk maxWrite offset data (x :: l) = some out) ∨
    ¬ Fails x ∧ ∃ n ws, data.drop n ≠ [] ∧ (Progresses x → 0 < maxWrite → 0 < n) ∧
      ∀ l, writeTransferChunk maxWrite offset data (x :: l) =
        (writeTransferChunk maxWrite (offset + n) (data.drop n) l).map fun r =>
          (r.1,ws ++ r.2) := by
  cases x with
  | error err nonzero =>
    by_cases hfail : err ≠ eintr ∧ err ≠ eagain
    · exact .inl ⟨_,fun l => by rw [writeTransferChunk,if_pos hfail]⟩
    · by_cases hempty : data.isEmpty = true
      · exact .inl ⟨_,fun l => by rw [writeTransferChunk,if_neg hfail,if_pos hempty]⟩
      · refine .inr ⟨hfail,0,[],?_,fun h => h.elim,fun l => ?_⟩
        · rwa [ne_eq,← List.isEmpty_iff]
        · rw [writeTransferChunk,if_neg hfail,if_neg hempty]
          simp
  | wrote n =>
    by_cases hempty : (data.drop (min n (min data.length maxWrite))).isEmpty = true
    · exact .inl ⟨_,fun l => by rw [writeTransferChunk,if_pos hempty]⟩
    · have hrest : data.drop (min n (min data.length maxWrite)) ≠ [] := by
        rwa [ne_eq,← List.isEmpty_iff]
      have hlen := length_pos_iff.mpr hrest
      rw [length_drop] at hlen
      refine .inr ⟨id,_,[⟨offset,data.take (min n (min data.length maxWrite))⟩],hrest,
        fun hn hmax => ?_,fun l => ?_⟩
      · have hpos : 0 < n := hn
        omega
      · rw [writeTransferChunk,if_neg hempty]
        rfl

theorem writeTransferChunk_append (h : writeTransferChunk maxWrite offset data results = some out)
    (more : List PwriteResult) :
    writeTransferChunk maxWrite offset data (results ++ more) = some out := by
  induction results generalizing offset data out with
  | nil => cases h
  | cons x results ih =>
    rcases writeTransferChunk_cons maxWrite offset data x with ⟨out',hout⟩ | ⟨-,n,ws,-,-,hnext⟩
    · rw [hout] at h
      rw [cons_append,hout,h]
    · rw [hnext] at h
      obtain ⟨r,hr,rfl⟩ := map_eq_some_iff.mp h
      rw [cons_append,hnext,ih hr,map_some]

/-- The loop ends if again and again a call fails or makes progress. The induction is on the bytes
that are left, and then on the calls up to the next one that counts. -/
theorem exists_writeTransferChunk (hmax : 0 < maxWrite)
    (h : ∀ j, ∃ k ≥ j, Fails (c k) ∨ Progresses (c k)) :
    ∃ n out, writeTransferChunk maxWrite offset data (firstCalls c n) = some out := by
  obtain ⟨k,-,hk⟩ := h 0
  induction hlen : data.length using Nat.strong_induction_on generalizing data offset c k with
  | _ len ih =>
    induction k using Nat.strong_induction_on generalizing c with
    | _ k ihk =>
      rcases writeTransferChunk_cons maxWrite offset data (c 0) with ⟨out,hout⟩ |
        ⟨hfail,n,ws,hrest,hprogress,hnext⟩
      · exact ⟨1,out,by rw [firstCalls_succ]; exact hout _⟩
      · have hshift : ∀ j, ∃ k ≥ j, Fails (c (k + 1)) ∨ Progresses (c (k + 1)) := by
          intro j
          obtain ⟨k,hk,hc⟩ := h (j + 1)
          exact ⟨k - 1,by omega,by rwa [Nat.sub_add_cancel (by omega)]⟩
        obtain ⟨m,out,hout⟩ : ∃ m out, writeTransferChunk maxWrite (offset + n) (data.drop n)
            (firstCalls (fun j => c (j + 1)) m) = some out := by
          by_cases hn : n = 0
          · have hpos : k ≠ 0 := by
              rintro rfl
              have := hprogress (hk.resolve_left hfail) hmax
              omega
            rw [hn,drop_zero]
            exact ihk (k - 1) (by omega) hshift (by rwa [Nat.sub_add_cancel (by omega)])
          · obtain ⟨k',-,hk'⟩ := hshift 0
            have hpos := length_pos_iff.mpr hrest
            rw [length_drop] at hpos
            exact ih (data.drop n).length (by rw [length_drop]; omega) hshift k' hk' rfl
        exact ⟨m + 1,_,by rw [firstCalls_succ,hnext,hout,map_some]⟩

theorem writeTransferChunk_success (h : writeTransferChunk maxWrite offset data results = some out)
    (hno : ∀ x ∈ results, ¬ Fails x) : out.1 = Rc.success := by
  induction results generalizing offset data out with
  | nil => cases h
  | cons x results ih =>
    rw [forall_mem_cons] at hno
    cases x with
    | error err nonzero =>
      have hretry : ¬ (err ≠ eintr ∧ err ≠ eagain) := hno.1
      rw [writeTransferChunk,if_neg hretry] at h
      split at h
      · exact congrArg Prod.fst (some.inj h).symm
      · exact ih h hno.2
    | wrote n =>
      rw [writeTransferChunk] at h
      split at h
      · exact congrArg Prod.fst (some.inj h).symm
      · obtain ⟨r,hr,rfl⟩ := map_eq_some_iff.mp h
        change r.1 = Rc.success
        exact ih hr hno.2

theorem pieces_of_success {ws : List FileWrite}
    (h : writeTransferChunk maxWrite offset data results = some (Rc.success,ws)) :
    Pieces offset data ws := by
  induction results generalizing offset data ws with
  | nil => cases h
  | cons x results ih =>
    cases x with
    | error err nonzero =>
      rw [writeTransferChunk] at h
      split at h
      · exact absurd (congrArg Prod.fst (some.inj h)) nonzero
      · split at h
        · next hempty =>
          cases h
          exact isEmpty_iff.mp hempty
        · exact ih h
    | wrote n =>
      rw [writeTransferChunk] at h
      generalize hm : min n (min data.length maxWrite) = m at h
      have hlen : (data.take m).length = m := by
        rw [length_take]
        omega
      have hhead := take_prefix m data
      split at h
      · next hempty =>
        cases h
        refine ⟨rfl,hhead,?_⟩
        rw [hlen]
        exact isEmpty_iff.mp hempty
      · obtain ⟨⟨rc,rest⟩,hrest,heq⟩ := map_eq_some_iff.mp h
        cases heq
        refine ⟨rfl,hhead,?_⟩
        rw [hlen]
        exact ih hrest

end Chunk

section Loop
variable {env env' : ThreadEnv} {maxWrite bufSz : ℕ} {exts : List Extent} {i : ℕ}
  {out : Rc × List FileWrite} {calls : ℕ → ℕ → PwriteResult}
  {first next : Option (Rc × List FileWrite)} {rounds n m : ℕ} {log : LogData}
  {writes : List FileWrite}

def chunksOf (env : ThreadEnv) : ℕ → List Extent → List TransferChunk
  | _, [] => []
  | i, ext :: exts => (readLocalExtent env i ext).2 :: chunksOf env (i + 1) exts

theorem length_chunksOf (env : ThreadEnv) (i : ℕ) (exts : List Extent) :
    (chunksOf env i exts).length = exts.length := by
  induction exts generalizing i with
  | nil => rfl
  | cons ext exts ih => rw [chunksOf,length_cons,length_cons,ih]

def takeFitting (bufSz : ℕ) : ℕ → List Extent → List Extent
  | _, [] => []
  | copySz, ext :: exts =>
    if copySz + ext.length ≤ bufSz then ext :: takeFitting bufSz (copySz + ext.length) exts
    else []

theorem takeFitting_ne_nil {ext : Extent} (h : ext.length ≤ bufSz) :
    takeFitting bufSz 0 (ext :: exts) ≠ [] := by
  rw [takeFitting,if_pos (by omega)]
  exact cons_ne_nil _ _

theorem fillBuffer_chunks (env : ThreadEnv) (bufSz copySz i : ℕ) (exts : List Extent)
    (h : (fillBuffer env bufSz copySz i exts).1 = Rc.success) :
    (fillBuffer env bufSz copySz i exts).2.1 = chunksOf env i (takeFitting bufSz copySz exts) ∧
      exts = takeFitting bufSz copySz exts ++ (fillBuffer env bufSz copySz i exts).2.2 := by
  induction exts generalizing copySz i with
  | nil => exact ⟨rfl,rfl⟩
  | cons ext exts ih =>
    rw [fillBuffer] at h ⊢
    rw [takeFitting]
    by_cases hfits : copySz + ext.length ≤ bufSz
    · rw [if_pos hfits] at h ⊢
      by_cases hread : (readLocalExtent env i ext).1 = Rc.success
      · rw [if_neg (not_not.mpr hread)] at h ⊢
        obtain ⟨hchunks,hsplit⟩ := ih (copySz + ext.length) (i + 1) h
        rw [if_pos hfits,chunksOf]
        exact ⟨congrArg _ hchunks,congrArg _ hsplit⟩
      · rw [if_pos hread] at h
        exact absurd h hread
    · rw [if_neg hfits,if_neg hfits]
      exact ⟨rfl,rfl⟩

/-- The calls for each extent come to an end. -/
def Settled (env : ThreadEnv) (maxWrite : ℕ) : ℕ → List Extent → Prop
  | _, [] => True
  | i, ext :: exts =>
    (∃ out, writeTransferChunk maxWrite ext.start (readLocalExtent env i ext).2.data
      (env.pwrites i) = some out) ∧ Settled env maxWrite (i + 1) exts

theorem settled_append {exts' : List Extent} : Settled env maxWrite i (exts ++ exts') ↔
    Settled env maxWrite i exts ∧ Settled env maxWrite (i + exts.length) exts' := by
  induction exts generalizing i with
  | nil => simp [Settled]
  | cons ext exts ih =>
    rw [cons_append,Settled,Settled,ih,length_cons,and_assoc,
      show i + 1 + exts.length = i + (exts.length + 1) by omega]

theorem exists_andThen (hfirst : ∃ out, first = some out) (hnext : ∃ out, next = some out) :
    ∃ out, andThen first next = some out := by
  obtain ⟨r,rfl⟩ := hfirst
  obtain ⟨r',rfl⟩ := hnext
  rw [andThen,bind_some]
  split
  · exact ⟨_,rfl⟩
  · exact ⟨_,rfl⟩

theorem exists_writeChunks (h : Settled env maxWrite i exts) :
    ∃ out, writeChunks env maxWrite (chunksOf env i exts) = some out := by
  induction exts generalizing i with
  | nil => exact ⟨_,rfl⟩
  | cons ext exts ih => exact exists_andThen h.1 (ih h.2)

theorem exists_copyLoop (hfits : ∀ ext ∈ exts, ext.length ≤ bufSz) (hne : exts ≠ [])
    (hrounds : exts.length ≤ rounds) (h : Settled env maxWrite i exts) :
    ∃ out, copyLoop env maxWrite bufSz rounds i exts = some out := by
  induction rounds generalizing i exts with
  | zero => exact absurd (eq_nil_of_length_eq_zero (by omega)) hne
  | succ rounds ih =>
    rw [copyLoop]
    by_cases hrc : (fillBuffer env bufSz 0 i exts).1 = Rc.success
    · obtain ⟨hchunks,hsplit⟩ := fillBuffer_chunks env bufSz 0 i exts hrc
      have htaken : takeFitting bufSz 0 exts ≠ [] := by
        cases exts with
        | nil => exact absurd rfl hne
        | cons ext exts => exact takeFitting_ne_nil (hfits ext mem_cons_self)
      have hpos := length_pos_iff.mpr htaken
      rw [if_neg (not_not.mpr hrc),hchunks,length_chunksOf]
      generalize takeFitting bufSz 0 exts = taken at hsplit hpos ⊢
      generalize (fillBuffer env bufSz 0 i exts).2.2 = rest at hsplit ⊢
      subst hsplit
      obtain ⟨hhead,htail⟩ := settled_append.mp h
      refine exists_andThen (exists_writeChunks hhead) ?_
      by_cases hrest : rest = []
      · exact ⟨_,if_pos (isEmpty_iff.mpr hrest)⟩
      · rw [if_neg (by rwa [List.isEmpty_iff])]
        rw [length_append] at hrounds
        exact ih (fun e he => hfits e (mem_append_right _ he)) hrest (by omega) htail
    · rw [if_pos hrc]
      exact ⟨_,rfl⟩

/-! More results of calls do not change what the thread has done. -/

theorem fillBuffer_withCalls (calls : ℕ → ℕ → PwriteResult) (n bufSz copySz i : ℕ)
    (exts : List Extent) : fillBuffer (withCalls env calls n) bufSz copySz i exts =
      fillBuffer env bufSz copySz i exts := by
  induction exts generalizing copySz i with
  | nil => rfl
  | cons ext exts ih =>
    rw [fillBuffer,ih]
    rfl

theorem andThen_mono {first' next' : Option (Rc × List FileWrite)}
    (hfirst : ∀ out, first = some out → first' = some out)
    (hnext : ∀ out, next = some out → next' = some out) (h : andThen first next = some out) :
    andThen first' next' = some out := by
  obtain ⟨r,hr,hrest⟩ := bind_eq_some_iff.mp h
  rw [andThen,hfirst r hr,bind_some]
  split at hrest
  · next hrc => rw [if_pos hrc,hrest]
  · next hrc =>
    obtain ⟨r',hr',rfl⟩ := map_eq_some_iff.mp hrest
    rw [if_neg hrc,hnext r' hr',map_some]

theorem writeChunks_mono (hle : n ≤ m) {chunks : List TransferChunk}
    (h : writeChunks (withCalls env calls n) maxWrite chunks = some out) :
    writeChunks (withCalls env calls m) maxWrite chunks = some out := by
  induction chunks generalizing out with
  | nil => exact h
  | cons chk chunks ih =>
    refine andThen_mono (fun out hout => ?_) (fun out => ih) h
    obtain ⟨more,hmore⟩ := firstCalls_prefix (calls chk.index) hle
    change writeTransferChunk _ _ _ (firstCalls (calls chk.index) m) = some out
    rw [← hmore]
    exact writeTransferChunk_append hout more

theorem copyLoop_mono (hle : n ≤ m)
    (h : copyLoop (withCalls env calls n) maxWrite bufSz rounds i exts = some out) :
    copyLoop (withCalls env calls m) maxWrite bufSz rounds i exts = some out := by
  induction rounds generalizing i exts out with
  | zero => cases h
  | succ rounds ih =>
    rw [copyLoop,fillBuffer_withCalls] at h ⊢
    split at h
    · next hrc => rw [if_pos hrc,h]
    · next hrc =>
      rw [if_neg hrc]
      refine andThen_mono (fun out => writeChunks_mono hle) (fun out hout => ?_) h
      split at hout
      · next hempty => rw [if_pos hempty,hout]
      · next hempty => rw [if_neg hempty,ih hout]

theorem exists_settled (hmax : 0 < maxWrite)
    (h : ∀ i j, ∃ k ≥ j, Fails (calls i k) ∨ Progresses (calls i k)) (i : ℕ) (exts : List Extent) :
    ∃ n, ∀ m ≥ n, Settled (withCalls env calls m) maxWrite i exts := by
  induction exts generalizing i with
  | nil => exact ⟨0,fun _ _ => trivial⟩
  | cons ext exts ih =>
    obtain ⟨n,out,hout⟩ : ∃ n out, writeTransferChunk maxWrite ext.start
        (readLocalExtent env i ext).2.data (firstCalls (calls i) n) = some out :=
      exists_writeTransferChunk hmax (h i)
    obtain ⟨n',hn'⟩ := ih (i + 1)
    refine ⟨max n n',fun m hm => ⟨⟨out,?_⟩,hn' m (by omega)⟩⟩
    obtain ⟨more,hmore⟩ := firstCalls_prefix (calls i) (show n ≤ m by omega)
    change writeTransferChunk _ _ _ (firstCalls (calls i) m) = some out
    rw [← hmore]
    exact writeTransferChunk_append hout more

theorem Settled.copied (h : Settled env maxWrite i exts)
    (hread : ∀ j < exts.length, (env.readExtent (i + j)).1 = Rc.success)
    (hno : ∀ i, ∀ x ∈ env.pwrites i, ¬ Fails x) : ∃ writes, Copied env maxWrite i exts writes := by
  induction exts generalizing i with
  | nil => exact ⟨[],rfl⟩
  | cons ext exts ih =>
    obtain ⟨⟨out,hout⟩,hrest⟩ := h
    obtain ⟨writes,hwrites⟩ := ih hrest fun j hj => by
      rw [← hread (j + 1) (by rw [length_cons]; omega)]
      congr 2
      omega
    have hrc := writeTransferChunk_success hout (hno i)
    refine ⟨out.2 ++ writes,out.2,writes,hread 0 (by simp),?_,hwrites,rfl⟩
    rw [hout,← hrc]

theorem writtenOnce_of_copied (hlog : ReadsLogs log env i exts)
    (h : Copied env maxWrite i exts writes) :
    WrittenOnce log exts writes := by
  induction exts generalizing i writes with
  | nil =>
    rw [copied_nil.mp h]
    exact ⟨[],rfl,.nil⟩
  | cons ext exts ih =>
    obtain ⟨ws,rest,-,hwrite,hrest,rfl⟩ := h
    have hread : (env.readExtent i).2 = fun k => log (ext.info.val k) := hlog 0 ext rfl
    obtain ⟨pieces,rfl,hpieces⟩ := ih (fun j e he => by
      rw [← hlog (j + 1) e he]
      congr 2
      omega) hrest
    refine ⟨ws :: pieces,rfl,.cons ?_ hpieces⟩
    have hdata : (readLocalExtent env i ext).2.data = extentData log ext := by
      rw [readLocalExtent,hread]
      rfl
    exact hdata ▸ pieces_of_success hwrite

theorem Pieces.stop_le {offset : ℕ} {data : List UInt8} {ws : List FileWrite}
    (h : Pieces offset data ws) : ∀ w ∈ ws, w.offset + w.data.length ≤ offset + data.length := by
  induction ws generalizing offset data with
  | nil => exact fun w hw => nomatch hw
  | cons w ws ih =>
    obtain ⟨rfl,hhead,hrest⟩ := h
    have hlen := hhead.length_le
    refine forall_mem_cons.mpr ⟨by omega,fun v hv => ?_⟩
    have hv := ih hrest v hv
    rw [length_drop] at hv
    omega

theorem WrittenOnce.stop_le {limit : ℕ} (h : WrittenOnce log exts writes)
    (hexts : ∀ ext ∈ exts, ext.start + ext.length ≤ limit) :
    ∀ w ∈ writes, w.offset + w.data.length ≤ limit := by
  obtain ⟨pieces,rfl,hpieces⟩ := h
  intro w hw
  obtain ⟨ws,hws,hw⟩ := mem_flatten.mp hw
  obtain ⟨ext,hext,hpiece⟩ := exists_of_mem_right hpieces hws
  have hle := hpiece.stop_le w hw
  rw [extentData,length_map,length_range] at hle
  exact hle.trans (hexts ext hext)

end Loop

variable {env : ThreadEnv} {bufSz : ℕ} {exts : List Extent}

/-- With both allocations, the thread goes through the batching loop. -/
theorem copyExtents_eq_copyLoop {sizes : Sizes} {args : ThreadArgs}
    (hchunks : env.chunksAllocated = true) (hbuffer : env.bufferAllocated = true)
    (hbuf : copyBufferSize sizes args = some bufSz) (hexts : args.localExtents = some exts) :
    copyExtents sizes env args = copyLoop env sizes.maxWrite bufSz exts.length 0 exts := by
  simp [copyExtents,hchunks,hbuffer,hbuf,hexts]

theorem exists_copyLoop_calls {maxWrite : ℕ} {calls : ℕ → ℕ → PwriteResult} (hmax : 0 < maxWrite)
    (hfits : ∀ ext ∈ exts, ext.length ≤ bufSz) (hne : exts ≠ [])
    (hcalls : ∀ i j, ∃ k ≥ j, Fails (calls i k) ∨ Progresses (calls i k)) : ∃ n out, (∀ m ≥ n,
        copyLoop (withCalls env calls m) maxWrite bufSz exts.length 0 exts = some out) ∧
      Settled (withCalls env calls n) maxWrite 0 exts := by
  obtain ⟨n,hn⟩ := exists_settled hmax hcalls 0 exts
  obtain ⟨out,hout⟩ := exists_copyLoop hfits hne (Nat.le_refl _) (hn n (Nat.le_refl _))
  exact ⟨n,out,fun m hm => copyLoop_mono hm hout,hn n (Nat.le_refl _)⟩

/-- The batching loop ends for every limit of the copy buffer. If nothing fails, it has written
the data of every extent once. The sum of the lengths is a word, and no position goes beyond what
an `off_t` can hold. -/
theorem copyExtents_progress {exts : List Extent} (hne : exts ≠ [])
    (hsum : (exts.map Range.length).sum < wordSize)
    (hpos : ∀ ext ∈ exts, ext.start + ext.length ≤ wordSize / 2) (maxBuffer : ℕ)
    (env : ThreadEnv) (hchunks : env.chunksAllocated = true) (hbuffer : env.bufferAllocated = true)
    (calls : ℕ → ℕ → PwriteResult)
    (hcalls : ∀ i j, ∃ k ≥ j, Fails (calls i k) ∨ Progresses (calls i k)) :
    ∃ n out, (∀ m ≥ n, copyExtents ⟨maxBuffer,transferMaxWrite⟩ (withCalls env calls m)
        ⟨some exts,(exts.map Range.length).sum % wordSize⟩ = some out) ∧
      ∀ log : LogData, ReadsLogs log env 0 exts →
        (∀ i < exts.length, (env.readExtent i).1 = Rc.success) → (∀ i j, ¬ Fails (calls i j)) →
        out.1 = Rc.success ∧ WrittenOnce log exts out.2 ∧
          ∀ w ∈ out.2, w.offset + w.data.length ≤ wordSize / 2 := by
  rw [Nat.mod_eq_of_lt hsum]
  obtain ⟨bufSz,hbuf⟩ := exists_copyBufferSize ⟨maxBuffer,transferMaxWrite⟩ exts
    (exts.map Range.length).sum
  have hfits := copyBufferSize_fits hbuf
  obtain ⟨n,out,hout,hsettled⟩ : ∃ n out, (∀ m ≥ n, copyLoop (withCalls env calls m)
        transferMaxWrite bufSz exts.length 0 exts = some out) ∧
      Settled (withCalls env calls n) transferMaxWrite 0 exts :=
    exists_copyLoop_calls (by decide) hfits hne hcalls
  refine ⟨n,out,fun m hm => ?_,fun log hlog hread hno => ?_⟩
  · refine (copyExtents_eq_copyLoop ?_ ?_ hbuf rfl).trans (hout m hm)
    · exact hchunks
    · exact hbuffer
  · have hcallsNo : ∀ i, ∀ x ∈ (withCalls env calls n).pwrites i, ¬ Fails x := by
      intro i x hx
      obtain ⟨j,-,rfl⟩ := mem_map.mp hx
      exact hno i j
    have hlogs : ReadsLogs log (withCalls env calls n) 0 exts := hlog
    obtain ⟨writes,hcopied⟩ := hsettled.copied
      (fun j hj => by rw [Nat.zero_add]; exact hread j hj) hcallsNo
    have hsuccess := (copyLoop_eq_success hfits hne (Nat.le_refl _)).mpr hcopied
    obtain rfl := some.inj ((hout n (Nat.le_refl _)).symm.trans hsuccess)
    have honce := writtenOnce_of_copied hlogs hcopied
    exact ⟨rfl,honce,honce.stop_le hpos⟩

def oneByteLog : LogData := fun _ => 7

def twoLocalExtents : List Extent := [⟨0,4,⟨0,0,1,1⟩⟩,⟨10,12,⟨5,0,1,1⟩⟩]

def readingThread : ThreadEnv where
  openErr := Rc.success
  chunksAllocated := true
  bufferAllocated := true
  readExtent _ := (Rc.success,fun _ => 7)
  pwrites _ := []

/-- Every other call is interrupted, and the others write two bytes at most. -/
def interruptedCalls (_ j : ℕ) : PwriteResult :=
  if j % 2 = 0 then .error eintr (by decide) else .wrote 2

theorem interruptedCalls_not_fails (i j : ℕ) : ¬ Fails (interruptedCalls i j) := by
  unfold interruptedCalls
  split
  · exact fun h => h.1 rfl
  · exact id

theorem interruptedCalls_progress (i j : ℕ) :
    ∃ k ≥ j, Fails (interruptedCalls i k) ∨ Progresses (interruptedCalls i k) := by
  refine ⟨2 * j + 1,by omega,.inr ?_⟩
  rw [interruptedCalls,if_neg (by omega)]
  exact Nat.two_pos

/-- With a limit of four bytes for the buffer. -/
theorem copyExtents_progress_two :
    ∃ n out, (∀ m ≥ n, copyExtents ⟨4,transferMaxWrite⟩
        (withCalls readingThread interruptedCalls m)
        ⟨some twoLocalExtents,(twoLocalExtents.map Range.length).sum % wordSize⟩ = some out) ∧
      out.1 = Rc.success ∧ WrittenOnce oneByteLog twoLocalExtents out.2 ∧
        ∀ w ∈ out.2, w.offset + w.data.length ≤ wordSize / 2 := by
  have hne : twoLocalExtents ≠ [] := nofun
  obtain ⟨n,out,hrun,hresult⟩ := copyExtents_progress hne (by decide) (by decide) 4 readingThread
    rfl rfl interruptedCalls interruptedCalls_progress
  exact ⟨n,out,hrun,hresult oneByteLog (fun _ _ _ => rfl) (fun _ _ => rfl)
    interruptedCalls_not_fails⟩

end UnifyFS.TransferProgress
