import UnifyFS.LocalReads

/-!
# Which requests are served locally

`service_local_reqs` once more, now with sums of 64-bit words: a request comes from the
user with any offset, so `req->offset + req->length` may wrap around. Without that the
loops are those of `GfidReads`. A request goes on the local list if and only if the tree of
its file maps its whole range, and its buffer is filled from the logs.

Trees are valid: no node reaches the largest word, so `next->end + 1` is a word. The search
for the first node always finds memory for its key.
-/
namespace UnifyFS.LocalService
open MachineWords ByteBuffers ClientRead GfidReads LocalReads List Option

def reqEnd (req : ReadReq) : ℕ := wordAdd req.offset req.length

def visitedWords (t : SegTree) (req : ReadReq) : List SegNode :=
  (t.iterFrom req.offset).takeWhile fun n => decide (n.start < reqEnd req)

def haveLocalWords (t : SegTree) (req : ReadReq) : Bool :=
  (expectedStart req.offset (visitedWords t req)).any fun e => decide (reqEnd req ≤ e)

/-- `get_extent_coverage`; no result stands for the null pointer and for a failed
assertion. -/
def getExtentCoverageWords (req : ReadReq) (extentFileOffset extentLength : ℕ) :
    Option (ℕ × ℕ × ℕ) :=
  let reqStart := req.offset
  let reqEnd := wordSub (wordAdd req.offset req.length) 1
  let extStart := extentFileOffset
  let extEnd := wordSub (wordAdd extStart extentLength) 1
  if extEnd < reqStart ∨ extStart > reqEnd then none
  else
    let start := if reqStart > extStart then reqStart else extStart
    let stop := if reqEnd < extEnd then reqEnd else extEnd
    let coverLength := wordAdd (wordSub stop start) 1
    let reqByteOffset := wordSub start reqStart
    let extByteOffset := wordSub start extStart
    if wordAdd reqByteOffset coverLength ≤ req.length then
      some (reqByteOffset,extByteOffset,coverLength)
    else none

def serveExtentWords (c : ReadClient) (logRead : ℕ → ℕ → ℕ → Rc × List UInt8) (req : ReadReq)
    (n : SegNode) : Option ReadReq :=
  (getExtentCoverageWords req n.start (n.stop + 1 - n.start)).map
    fun (reqOffset,extOffset,len) =>
      if c.logAvailable n.clientId then
        let out := logRead n.clientId (n.ptr + extOffset) len
        if out.1 = Rc.success then
          updateReadReqCoverage (req.putBytes reqOffset out.2) reqOffset out.2.length
        else { req with errcode := out.1 }
      else req

def serveLocalWords (c : ReadClient) (logRead : ℕ → ℕ → ℕ → Rc × List UInt8) :
    List SegNode → ReadReq → Option ReadReq
  | [], req => some req
  | n :: rest, req => (serveExtentWords c logRead req n).bind (serveLocalWords c logRead rest)

/-- `service_local_reqs`. A file without a local file id has no tree. -/
def serviceLocalReqsWords (c : ReadClient) (env : ReadEnv) : ℕ → List ReadReq → Option Served
  | _, [] => some ⟨[],[],[]⟩
  | i, req :: rest =>
    match (c.extents req.gfid).filter fun t => haveLocalWords t req with
    | some t =>
      (serveLocalWords c (env.logRead i) (visitedWords t req) req).bind fun done =>
        (serviceLocalReqsWords c env (i + 1) rest).map fun s =>
          ⟨done :: s.inReqs,done :: s.localReqs,s.serverReqs⟩
    | none => (serviceLocalReqsWords c env (i + 1) rest).map fun s =>
      ⟨req :: s.inReqs,s.localReqs,req :: s.serverReqs⟩

section Fits
variable {c : ReadClient} {logRead : ℕ → ℕ → ℕ → Rc × List UInt8} {req : ReadReq} {t : SegTree}

section
variable (h : req.offset + req.length < wordSize)
include h

theorem visitedWords_eq : visitedWords t req = visited t req := by
  rw [visitedWords,reqEnd,wordAdd_of_lt h,visited]

theorem haveLocalWords_eq : haveLocalWords t req = haveLocal t req := by
  rw [haveLocalWords,visitedWords_eq h,reqEnd,wordAdd_of_lt h,haveLocal]

theorem getExtentCoverageWords_eq {n : SegNode} (hlen : 0 < req.length) (hn : n.stop + 1 < wordSize)
    (hmeets : Meets req n) : getExtentCoverageWords req n.start (n.stop + 1 - n.start) =
      getExtentCoverage req n.start (n.stop + 1 - n.start) := by
  obtain ⟨hle,hoff,hstart⟩ := hmeets
  have hsum : n.start + (n.stop + 1 - n.start) = n.stop + 1 := by omega
  have hreq : wordSub (req.offset + req.length) 1 = req.offset + req.length - 1 :=
    wordSub_of_le (by omega)
  have hext : wordSub (n.stop + 1) 1 = n.stop := wordSub_of_le (by omega)
  -- the ends of the overlap, and that they lie in this order
  have hoverlap : ∀ lo hi, req.offset ≤ lo → n.start ≤ lo → lo ≤ hi → hi < req.offset + req.length →
      (if wordAdd (wordSub lo req.offset) (wordAdd (wordSub hi lo) 1) ≤ req.length then
        some (wordSub lo req.offset,wordSub lo n.start,wordAdd (wordSub hi lo) 1) else none) =
      some (lo - req.offset,lo - n.start,hi + 1 - lo) := by
    intro lo hi h1 h2 h3 h4
    rw [wordSub_of_le h1,wordSub_of_le h2,wordSub_of_le h3,wordAdd_of_lt (b := 1) (by omega),
      wordAdd_of_lt (by omega),if_pos (by omega),show hi - lo + 1 = hi + 1 - lo by omega]
  have hstop : wordAdd n.start (n.stop + 1 - n.start) = n.stop + 1 := by
    rw [wordAdd_of_lt (by omega),hsum]
  have hmiss : ¬ (n.stop < req.offset ∨ n.start > req.offset + req.length - 1) := by omega
  unfold getExtentCoverageWords getExtentCoverage
  dsimp only
  rw [wordAdd_of_lt h,hstop,hsum,hreq,hext,if_neg hmiss,if_neg hmiss]
  apply hoverlap <;> split_ifs <;> omega

theorem serveLocalWords_eq {segs : List SegNode} (hlen : 0 < req.length)
    (hvalid : ∀ n ∈ segs, n.stop + 1 < wordSize) (hmeets : ∀ n ∈ segs, Meets req n) :
    serveLocalWords c logRead segs req = serveLocal c logRead segs req := by
  induction segs generalizing req with
  | nil => rfl
  | cons n rest ih =>
    rw [forall_mem_cons] at hvalid hmeets
    have hstep : serveExtentWords c logRead req n = serveExtent c logRead req n := by
      rw [serveExtentWords,getExtentCoverageWords_eq h hlen hvalid.1 hmeets.1,serveExtent]
    rw [serveLocalWords,hstep]
    refine bind_congr fun u hu => ?_
    have hident := serveExtent_ident hu
    have hsame : u.offset = req.offset ∧ u.length = req.length := by
      simp only [ReadReq.ident,Prod.mk.injEq] at hident
      exact ⟨hident.2.1,hident.2.2.1⟩
    exact ih (by omega) (by omega) hvalid.2 fun m hm => (hmeets.2 m hm).of_ident hident

end

theorem serveLocalWords_segments (ht : c.extents req.gfid = some t)
    (hvalid : ∀ n ∈ t.nodes, n.stop + 1 < wordSize) (hlen : 0 < req.length)
    (h : req.offset + req.length < wordSize) : serveLocalWords c logRead (visitedWords t req) req =
      serveLocal c logRead (c.segments req) req := by
  have hsegs : c.segments req = visited t req := by
    rw [ReadClient.segments,ht]
    rfl
  have hmeets : ∀ n ∈ visited t req, Meets req n := by
    rw [← hsegs]
    exact fun n hn => meets_of_mem_segments hn
  rw [visitedWords_eq h,hsegs]
  exact serveLocalWords_eq h hlen (fun n hn => hvalid n (mem_nodes_of_mem_visited hn)) hmeets

/-- Without wraparound these are the lists that `process_gfid_reads` goes on with. -/
theorem serviceLocalReqsWords_eq {env : ReadEnv} {i : ℕ} {reqs : List ReadReq}
    (hattempts : c.attempts = true)
    (hvalid : ∀ g t, c.extents g = some t → ∀ n ∈ t.nodes, n.stop + 1 < wordSize)
    (hlen : ∀ r ∈ reqs, 0 < r.length) (hfits : ∀ r ∈ reqs, r.offset + r.length < wordSize) :
    serviceLocalReqsWords c env i reqs = serviceLocalReqs c env i reqs := by
  induction reqs generalizing i with
  | nil => rfl
  | cons r rest ih =>
    rw [forall_mem_cons] at hlen hfits
    rw [serviceLocalReqsWords,serviceLocalReqs,ih hlen.2 hfits.2,ReadClient.servesLocally,
      hattempts,Bool.true_and]
    cases ht : c.extents r.gfid with
    | none => rfl
    | some t =>
      rw [filter_some,any_some,haveLocalWords_eq hfits.1]
      by_cases hlocal : haveLocal t r = true
      · rw [if_pos hlocal,if_pos hlocal]
        dsimp only
        rw [serveLocalWords_segments ht (hvalid _ t ht) hlen.1 hfits.1]
      · rw [if_neg hlocal,if_neg hlocal]

end Fits

theorem expectedStart_of_covered {l : List SegNode} {e stop : ℕ}
    (hord : l.Pairwise fun a b => a.stop < b.start) (hle : ∀ n ∈ l, n.start ≤ n.stop)
    (hlow : ∀ n ∈ l, e ≤ n.start)
    (hcov : ∀ b, e ≤ b → b < stop → ∃ n ∈ l, n.start ≤ b ∧ b ≤ n.stop) :
    ∃ x, expectedStart e (l.takeWhile fun n => decide (n.start < stop)) = some x ∧ stop ≤ x := by
  induction l generalizing e with
  | nil =>
    refine ⟨e,rfl,?_⟩
    by_contra hlt
    obtain ⟨n,hn,-⟩ := hcov e (le_refl e) (by omega)
    cases hn
  | cons n rest ih =>
    have hfirst : e < stop → n.start ≤ e := by
      intro he
      obtain ⟨m,hm,hme⟩ := hcov e (le_refl e) he
      rcases mem_cons.mp hm with rfl | hm
      · exact hme.1
      · have := rel_of_pairwise_cons hord hm
        have := hle n mem_cons_self
        omega
    by_cases hn : n.start < stop
    · have hen := hlow n mem_cons_self
      rw [takeWhile_cons_of_pos (by simpa using hn),expectedStart,if_pos (hfirst (by omega))]
      refine ih hord.of_cons (fun m hm => hle m (mem_cons_of_mem _ hm))
        (fun m hm => rel_of_pairwise_cons hord hm) fun b hlo hhi => ?_
      obtain ⟨m,hm,hmb⟩ := hcov b (by have := hle n mem_cons_self; omega) hhi
      rcases mem_cons.mp hm with rfl | hm
      · omega
      · exact ⟨m,hm,hmb⟩
    · rw [takeWhile_cons_of_neg (by simpa using hn)]
      refine ⟨e,rfl,?_⟩
      by_contra hlt
      omega

variable {t : SegTree} {req : ReadReq}

theorem iterFrom_of_mapped {start : ℕ} {m : SegNode} (hm : m ∈ t.nodes) (hlo : m.start ≤ start)
    (hhi : start ≤ m.stop) :
    ∃ before after, t.nodes = before ++ m :: after ∧ t.iterFrom start = m :: after := by
  obtain ⟨before,after,hsplit⟩ := append_of_mem hm
  refine ⟨before,after,hsplit,?_⟩
  have hord := t.ordered
  rw [hsplit,pairwise_append] at hord
  have hbefore : ∀ n ∈ before, decide (n.stop < start) = true := by
    intro n hn
    have := hord.2.2 n hn m mem_cons_self
    exact decide_eq_true (by omega)
  have hdrop : t.nodes.dropWhile (fun n => decide (n.stop < start)) = m :: after := by
    rw [hsplit,dropWhile_append_of_pos hbefore,dropWhile_cons_of_neg (by simpa using hhi)]
  rw [SegTree.iterFrom,hdrop]
  exact if_pos hlo

def Covers (t : SegTree) (req : ReadReq) : Prop :=
  ∀ b, req.offset ≤ b → b < req.offset + req.length → ∃ n ∈ t.nodes, n.start ≤ b ∧ b ≤ n.stop

/-- The walk over adjacent nodes decides whether the tree maps the whole range. -/
theorem haveLocal_iff (hlen : 0 < req.length) : haveLocal t req = true ↔ Covers t req := by
  constructor
  · intro h b hlo hhi
    obtain ⟨n,hn,hnb⟩ := exists_visited_of_haveLocal h hlo hhi
    exact ⟨n,mem_nodes_of_mem_visited hn,hnb⟩
  · intro h
    obtain ⟨m,hm,hlo,hhi⟩ := h req.offset (le_refl _) (by omega)
    obtain ⟨before,after,hsplit,hiter⟩ := iterFrom_of_mapped hm hlo hhi
    have hord := t.ordered
    rw [hsplit,pairwise_append] at hord
    have hafter : ∀ n ∈ after, n ∈ t.nodes := fun n hn => by simp [hsplit,hn]
    have hcov : ∀ b, m.stop + 1 ≤ b → b < req.offset + req.length →
        ∃ n ∈ after, n.start ≤ b ∧ b ≤ n.stop := by
      intro b hb hend
      obtain ⟨n,hn,hnb⟩ := h b (by omega) hend
      rw [hsplit,mem_append,mem_cons] at hn
      rcases hn with hn | rfl | hn
      · have := hord.2.2 n hn m mem_cons_self
        omega
      · omega
      · exact ⟨n,hn,hnb⟩
    obtain ⟨x,hx,hle⟩ := expectedStart_of_covered hord.2.1.of_cons
      (fun n hn => t.start_le n (hafter n hn))
      (fun n hn => rel_of_pairwise_cons hord.2.1 hn) hcov
    have hm' : m.start < req.offset + req.length := by omega
    rw [haveLocal,visited,hiter,takeWhile_cons_of_pos (by simpa using hm'),expectedStart,
      if_pos hlo,hx]
    exact decide_eq_true hle

theorem haveLocalWords_of_wraps (hlen : req.length < wordSize)
    (h : wordSize ≤ req.offset + req.length) : haveLocalWords t req = true := by
  have hend : reqEnd req < req.offset := wordAdd_lt hlen h
  have hreach : ∀ (segs : List SegNode) (e : ℕ), req.offset ≤ e →
      (∀ n ∈ segs, n.start ≤ req.offset ∧ req.offset ≤ n.stop) →
      ∃ x, expectedStart e segs = some x ∧ req.offset ≤ x := by
    intro segs
    induction segs with
    | nil => exact fun e he _ => ⟨e,rfl,he⟩
    | cons n rest ih =>
      intro e he hsegs
      rw [forall_mem_cons] at hsegs
      rw [expectedStart,if_pos (by omega)]
      exact ih _ (by omega) hsegs.2
  obtain ⟨x,hx,hle⟩ := hreach (visitedWords t req) req.offset (le_refl _) fun n hn => by
    have hstart : n.start < reqEnd req := by simpa using mem_takeWhile_imp hn
    have hstop := t.le_stop_of_mem_iterFrom ((takeWhile_sublist _).subset hn)
    exact ⟨by omega,hstop⟩
  rw [haveLocalWords,hx]
  exact decide_eq_true (by omega)

theorem not_covers_of_wraps (hvalid : ∀ n ∈ t.nodes, n.stop + 1 < wordSize) (hpos : 0 < req.length)
    (h : wordSize ≤ req.offset + req.length) : ¬ Covers t req := by
  intro hcov
  obtain ⟨n,hn,-,hstop⟩ := hcov (req.offset + req.length - 1) (by omega) (by omega)
  have := hvalid n hn
  omega

def mappedByte (log : ℕ → BitVec 64 → UInt8) (t : SegTree) (b : ℕ) : Option UInt8 :=
  (t.nodes.find? fun n => decide (n.start ≤ b ∧ b ≤ n.stop)).map fun n => nodeByte log n b

theorem mappedByte_of_mem {log : ℕ → BitVec 64 → UInt8} {n : SegNode} {b : ℕ} (hn : n ∈ t.nodes)
    (hlo : n.start ≤ b) (hhi : b ≤ n.stop) : mappedByte log t b = some (nodeByte log n b) := by
  obtain ⟨before,after,hsplit⟩ := append_of_mem hn
  have hord := t.ordered
  rw [hsplit,pairwise_append] at hord
  have hbefore : before.find? (fun m => decide (m.start ≤ b ∧ b ≤ m.stop)) = none := by
    rw [find?_eq_none]
    intro m hm
    have := hord.2.2 m hm n mem_cons_self
    simp only [decide_eq_true_eq]
    omega
  rw [mappedByte,hsplit,find?_append,hbefore,none_or,
    find?_cons_of_pos (by simp [hlo,hhi]),map_some]

/-- The request with its whole buffer filled from the logs. -/
structure Filled (log : ℕ → BitVec 64 → UInt8) (t : SegTree) (req done : ReadReq) : Prop where
  same : done.ident = req.ident
  whole : done.buf.length = req.length
  bytes : ∀ k < req.length, done.buf[k]? = mappedByte log t (req.offset + k)

/-- The requests split in order into those that the trees map, filled, and the others,
unchanged. -/
inductive Split (c : ReadClient) (log : ℕ → BitVec 64 → UInt8) :
    List ReadReq → List ReadReq → List ReadReq → Prop
  | nil : Split c log [] [] []
  | toLocal {req done : ReadReq} {t : SegTree} {reqs ls ss : List ReadReq} :
      c.extents req.gfid = some t → Covers t req → Filled log t req done →
      Split c log reqs ls ss → Split c log (req :: reqs) (done :: ls) ss
  | toServer {req : ReadReq} {reqs ls ss : List ReadReq} :
      (∀ t, c.extents req.gfid = some t → ¬ Covers t req) →
      Split c log reqs ls ss → Split c log (req :: reqs) ls (req :: ss)

section Lists
variable {c : ReadClient} {env : ReadEnv} {log : ℕ → BitVec 64 → UInt8} {i : ℕ}
  {reqs ls ss : List ReadReq} {req : ReadReq}

theorem Split.mem_server (h : Split c log reqs ls ss) (hreq : req ∈ reqs)
    (hnot : ∀ t, c.extents req.gfid = some t → ¬ Covers t req) : req ∈ ss := by
  induction h with
  | nil => cases hreq
  | toLocal ht hcov _ _ ih =>
    rcases mem_cons.mp hreq with rfl | hmem
    · exact absurd hcov (hnot _ ht)
    · exact ih hmem
  | toServer _ _ ih =>
    rcases mem_cons.mp hreq with rfl | hmem
    · exact mem_cons_self
    · exact mem_cons_of_mem _ (ih hmem)

theorem not_haveLocalWords_of_mem {s : Served} {t : SegTree}
    (h : serviceLocalReqsWords c env i reqs = some s) (hreq : req ∈ s.serverReqs)
    (ht : c.extents req.gfid = some t) : haveLocalWords t req = false := by
  induction reqs generalizing i s with
  | nil =>
    cases h
    cases hreq
  | cons r rest ih =>
    rw [serviceLocalReqsWords] at h
    split at h
    · obtain ⟨done,-,hrest⟩ := bind_eq_some_iff.mp h
      obtain ⟨u,hu,rfl⟩ := map_eq_some_iff.mp hrest
      exact ih hu hreq
    · next hnone =>
      obtain ⟨u,hu,rfl⟩ := map_eq_some_iff.mp h
      rcases mem_cons.mp hreq with rfl | hmem
      · rw [ht,filter_some] at hnone
        split at hnone
        · cases hnone
        · next hfalse => exact Bool.eq_false_iff.mpr hfalse
      · exact ih hu hmem

theorem serveLocalWords_filled {logRead : ℕ → ℕ → ℕ → Rc × List UInt8} {t : SegTree}
    (ht : c.extents req.gfid = some t) (hvalid : ∀ n ∈ t.nodes, n.stop + 1 < wordSize)
    (hlog : ∀ n ∈ t.nodes, ReadsLog c logRead log n.clientId) (hlen : 0 < req.length)
    (hbuf : req.buf.length = req.length) (hfits : req.offset + req.length < wordSize)
    (hlocal : haveLocal t req = true) :
    ∃ done, serveLocalWords c logRead (visitedWords t req) req = some done ∧
      Filled log t req done := by
  obtain ⟨done,hdone,hwhole,hbytes⟩ := haveLocal_bytes hlog ht hlocal hlen hbuf
    fun n hn b hlo hhi => (mappedByte_of_mem hn hlo hhi).symm
  refine ⟨done,?_,serveLocal_ident hdone,hwhole,hbytes⟩
  rw [serveLocalWords_segments ht hvalid hlen hfits]
  exact hdone

theorem serviceLocalReqsWords_split
    (hvalid : ∀ g t, c.extents g = some t → ∀ n ∈ t.nodes, n.stop + 1 < wordSize)
    (hlog : ∀ i g t, c.extents g = some t → ∀ n ∈ t.nodes,
      ReadsLog c (env.logRead i) log n.clientId)
    (hreqs : ∀ r ∈ reqs, 0 < r.length ∧ r.buf.length = r.length)
    (hfits : ∀ r ∈ reqs, r.offset + r.length < wordSize ∨ c.extents r.gfid = none) :
    ∃ s, serviceLocalReqsWords c env i reqs = some s ∧
      Split c log reqs s.localReqs s.serverReqs := by
  induction reqs generalizing i with
  | nil => exact ⟨_,rfl,.nil⟩
  | cons r rest ih =>
    rw [forall_mem_cons] at hreqs hfits
    obtain ⟨s,hs,hsplit⟩ := ih hreqs.2 hfits.2
    rw [serviceLocalReqsWords,hs]
    cases ht : c.extents r.gfid with
    | none =>
      refine ⟨_,rfl,.toServer (fun t h => ?_) hsplit⟩
      rw [ht] at h
      cases h
    | some t =>
      have hfit : r.offset + r.length < wordSize := by
        refine hfits.1.resolve_right fun hnone => ?_
        rw [ht] at hnone
        cases hnone
      rw [filter_some,haveLocalWords_eq hfit]
      by_cases hlocal : haveLocal t r = true
      · obtain ⟨done,hdone,hfilled⟩ := serveLocalWords_filled ht (hvalid _ t ht)
          (hlog i _ t ht) hreqs.1.1 hreqs.1.2 hfit hlocal
        rw [if_pos hlocal]
        dsimp only
        rw [hdone]
        exact ⟨_,rfl,.toLocal ht ((haveLocal_iff hreqs.1.1).mp hlocal) hfilled hsplit⟩
      · rw [if_neg hlocal]
        refine ⟨_,rfl,.toServer (fun u hu hcov => hlocal ?_) hsplit⟩
        obtain rfl : t = u := some.inj (ht.symm.trans hu)
        exact (haveLocal_iff hreqs.1.1).mpr hcov

/-- The lists are right if and only if no end of a request for a known file wraps around. -/
theorem serviceLocalReqsWords_split_iff
    (hvalid : ∀ g t, c.extents g = some t → ∀ n ∈ t.nodes, n.stop + 1 < wordSize)
    (hlog : ∀ i g t, c.extents g = some t → ∀ n ∈ t.nodes,
      ReadsLog c (env.logRead i) log n.clientId)
    (hreqs : ∀ r ∈ reqs, 0 < r.length ∧ r.length < wordSize ∧ r.buf.length = r.length) :
    (∃ s, serviceLocalReqsWords c env i reqs = some s ∧
      Split c log reqs s.localReqs s.serverReqs) ↔
      ∀ r ∈ reqs, r.offset + r.length < wordSize ∨ c.extents r.gfid = none := by
  constructor
  · rintro ⟨s,hs,hsplit⟩ r hr
    rw [or_iff_not_imp_left]
    intro hwraps
    obtain ⟨hpos,hlen,-⟩ := hreqs r hr
    cases ht : c.extents r.gfid with
    | none => rfl
    | some t =>
      have hserver := hsplit.mem_server hr fun u hu =>
        not_covers_of_wraps (hvalid _ u hu) hpos (by omega)
      have hfalse := not_haveLocalWords_of_mem hs hserver ht
      rw [haveLocalWords_of_wraps hlen (by omega)] at hfalse
      cases hfalse
  · exact serviceLocalReqsWords_split hvalid hlog fun r hr =>
      ⟨(hreqs r hr).1,(hreqs r hr).2.2⟩

end Lists

/-! A file of ten bytes in two extents, the second in the log of client 2. -/

def tenBytes : SegTree where
  nodes := [⟨0,3,100,1⟩,⟨4,9,20,2⟩]
  ordered := by decide
  start_le := by decide

/-- Every log holds the low byte of each position. -/
def countingLog (_ : ℕ) (pos : BitVec 64) : UInt8 := UInt8.ofNat pos.toNat

def tenBytesClient : ReadClient := ⟨true,false,fun g => if g = 7 then some tenBytes else none,
  fun _ => true⟩

def countingEnv : ReadEnv where
  reqsAllocated := true
  mreadCreated := true
  bufferAllocated := true
  logRead := fun _ cl off len =>
    (Rc.success,(List.range len).map fun k => countingLog cl (BitVec.ofNat 64 (off + k)))
  sort := id
  readRc := Rc.success
  messages := []
  localSize := fun _ => 10
  serverSize := fun _ => 10

theorem tenBytesClient_valid (g : ℤ) (t : SegTree) (h : tenBytesClient.extents g = some t) :
    ∀ n ∈ t.nodes, n.stop + 1 < wordSize := by
  simp only [tenBytesClient] at h
  split at h
  · cases h
    decide
  · cases h

theorem serviceLocalReqsWords_eq_ten :
    serviceLocalReqsWords tenBytesClient countingEnv 0 [.start 7 2 3 [0,0,0],.start 7 8 1 [0]] =
      serviceLocalReqs tenBytesClient countingEnv 0 [.start 7 2 3 [0,0,0],.start 7 8 1 [0]] :=
  serviceLocalReqsWords_eq rfl tenBytesClient_valid (by decide) (by decide)

/-- Bytes 2 to 6 lie in both extents; byte 10 is not mapped; file 8 is not known. -/
theorem serviceLocalReqsWords_ten :
    ∃ s, serviceLocalReqsWords tenBytesClient countingEnv 0
        [.start 7 2 5 [0,0,0,0,0],.start 7 8 3 [0,0,0],.start 8 0 1 [0]] = some s ∧
      Split tenBytesClient countingLog
        [.start 7 2 5 [0,0,0,0,0],.start 7 8 3 [0,0,0],.start 8 0 1 [0]]
        s.localReqs s.serverReqs :=
  (serviceLocalReqsWords_split_iff tenBytesClient_valid
    (fun _ _ _ _ _ _ => ⟨rfl,fun _ _ => rfl⟩) (by decide)).mpr
    (by
      intro r hr
      left
      revert r
      decide)

/-- One byte at the offset `-1`: the end of the request is zero, so the test finds nothing
missing. The request is put on the local list and its buffer is left as it was. -/
theorem serviceLocalReqsWords_minus_one :
    (serviceLocalReqsWords tenBytesClient countingEnv 0
      [.start 7 (2 ^ 64 - 1) 1 [0]]).map Served.localReqs =
        some [.start 7 (2 ^ 64 - 1) 1 [0]] ∧
      ¬ Covers tenBytes (.start 7 (2 ^ 64 - 1) 1 [0]) := by
  refine ⟨by decide,fun h => ?_⟩
  obtain ⟨n,hn,-,hstop⟩ := h (2 ^ 64 - 1) (by decide) (by decide)
  have hvalid : ∀ n ∈ tenBytes.nodes, n.stop < 10 := by decide
  have := hvalid n hn
  omega

end UnifyFS.LocalService
