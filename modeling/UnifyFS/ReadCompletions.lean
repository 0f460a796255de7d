import UnifyFS.ReadSystem
import Mathlib.Data.List.Perm.Subperm
import Mathlib.Data.List.Nodup

/-!
# One completion for each read

The server completes a read when the responses of all its servers have been
handled, and the client counts completions until it has as many as it has reads.
`send_data_to_client` also sends a completion for every chunk whose log read
failed, so a read with a failed chunk is completed more than once, and the client
can stop waiting while another read is still open: `failed_chunk_completes_twice`.
-/
namespace UnifyFS.ReadCompletions
open ClientRead ChunkReads ReadRequests ReadSystem GuardedRuns List Option

def completed (l : List Sent) : List (ℕ × ℕ) :=
  (l.filter fun x => !x.msg.isData).map fun x => x.msg.read

/-- A completion that reaches the client and names a read of its mread. -/
def counts (m : ClientMread) (x : Sent) : Bool :=
  !x.msg.isData && x.outcome.delivered && x.msg.read.1 == m.id && decide (x.msg.read.2 < m.nReads)

def counted (m : ClientMread) (l : List Sent) : List ℕ :=
  (l.filter (counts m)).map fun x => x.msg.read.2

/-- At most one completion has been sent for each read, and a client whose counter
stands at the number of its reads has received one for each of them. -/
structure CompletedOnce (s : System) : Prop where
  once : (completed s.sent).Nodup
  all : s.client.nComplete = s.client.nReads →
    ∀ n < s.client.nReads, n ∈ counted s.client s.sent

/-- The response to be handled has no chunk whose log read failed. -/
def noFailedChunk (s : System) : ReadOp → Bool
  | .handle i j _ =>
    (s.rm.readReqs[i]?).all fun q => (q.remoteReads[j]?).all fun r => r.resp.all fun resp =>
      resp.resps.all fun c => decide (0 ≤ c.readRc)
  | _ => true

theorem completed_append (l₁ l₂ : List Sent) :
    completed (l₁ ++ l₂) = completed l₁ ++ completed l₂ := by
  simp [completed]

theorem completed_of_data {l : List Sent} (h : ∀ x ∈ l, x.msg.isData = true) :
    completed l = [] := by
  have hnone : (l.filter fun x => !x.msg.isData) = [] := by
    apply filter_eq_nil_iff.mpr
    intro x hx
    simp [h x hx]
  rw [completed,hnone]
  rfl

theorem mem_completed {l : List Sent} {r : ℕ × ℕ} (h : r ∈ completed l) :
    ∃ x ∈ l, x.msg.isData = false ∧ x.msg.read = r := by
  obtain ⟨x,hx,rfl⟩ := mem_map.mp h
  have hmem := mem_filter.mp hx
  exact ⟨x,hmem.1,by simpa using hmem.2,rfl⟩

section Client
variable (m : ClientMread)

theorem receive_eq (x : Sent) : (receive m x).id = m.id ∧ (receive m x).nReads = m.nReads ∧
      (receive m x).nComplete = m.nComplete + if counts m x then 1 else 0 := by
  unfold receive
  cases hx : x.msg with
  | data mread readNdx offset bytes => simp [counts,hx,ToClient.isData]
  | complete mread readNdx error =>
    have hcounts : counts m x = true ↔
        (x.outcome.delivered = true ∧ mread = m.id) ∧ readNdx < m.nReads := by
      simp [counts,hx,ToClient.isData,ToClient.read]
    dsimp only
    unfold mreadReqCompleteRpc clientUpdateMreadRequest
    by_cases hto : x.outcome.delivered = true ∧ mread = m.id
    · by_cases hn : readNdx < m.nReads
      · rw [if_pos hn,if_pos rfl,if_pos (hcounts.mpr ⟨hto,hn⟩)]
        split_ifs <;> simp [ClientMread.nReads]
      · rw [if_pos hto,if_neg hn,if_neg fun h => hn (hcounts.mp h).2]
        exact ⟨rfl,rfl,rfl⟩
    · rw [if_neg hto,if_neg fun h => hto (hcounts.mp h).1]
      exact ⟨rfl,rfl,rfl⟩

theorem foldl_receive (l : List Sent) :
    (l.foldl receive m).id = m.id ∧ (l.foldl receive m).nReads = m.nReads ∧
      (l.foldl receive m).nComplete = m.nComplete + (counted m l).length := by
  induction l generalizing m with
  | nil => exact ⟨rfl,rfl,rfl⟩
  | cons x l ih =>
    have hx := receive_eq m x
    have hl := ih (receive m x)
    have hcounts : counts (receive m x) = counts m := by
      funext y
      simp only [counts,hx.1,hx.2.1]
    rw [foldl_cons,hl.1,hl.2.1,hl.2.2,hx.1,hx.2.1,hx.2.2]
    refine ⟨rfl,rfl,?_⟩
    simp only [counted,hcounts,length_map,filter_cons]
    split_ifs
    · rw [length_cons]
      omega
    · rfl

end Client

def IsCompletion (msg : ToClient) : Prop := msg.isData = false

section Steps
variable {s u : System} {e : ReadOp}

/-- Without failed chunks, only data is sent for the chunks of a response. -/
theorem not_completion_of_guard (hg : noFailedChunk s e = true) :
    ∀ i j rpc q r resp, e = .handle i j rpc → s.rm.readReqs[i]? = some q →
      q.remoteReads[j]? = some r → r.resp = some resp →
      ∀ msg, FromChunks q.toReadTarget resp.resps msg → ¬ IsCompletion msg := by
  intro i j rpc q r resp he hq hr hresp msg hmsg hcomplete
  rw [he,noFailedChunk,hq,all_some,hr,all_some,hresp,all_some,List.all_eq_true] at hg
  rcases hmsg.2 with hdata | ⟨c,hc,hneg,-⟩
  · rw [IsCompletion,hdata] at hcomplete
    cases hcomplete
  · have hpos := of_decide_eq_true (hg c hc)
    omega

theorem nodup_append_singleton {l : List (ℕ × ℕ)} {r : ℕ × ℕ} (hl : l.Nodup) (hr : r ∉ l) :
    (l ++ [r]).Nodup := by
  rw [nodup_append]
  refine ⟨hl,nodup_singleton r,?_⟩
  intro a ha b hb hab
  rw [hab,mem_singleton.mp hb] at ha
  exact hr ha

theorem nodup_step (h : Tracked IsCompletion s) (hn : (completed s.sent).Nodup)
    (hg : noFailedChunk s e = true) (hs : readStep s e = some u) : (completed u.sent).Nodup := by
  rcases readStep_log hs with ⟨hsent,-⟩ | ⟨m,o,-,rfl⟩ | ⟨i,j,rpc,q,ret,q',sent,rfl,hi,huse,hh,rfl⟩
  · rw [hsent]
    exact hn
  · change (completed (s.sent ++ [_])).Nodup
    rw [completed_append]
    apply nodup_append_singleton hn
    intro hmem
    obtain ⟨x,hx,-,hread⟩ := mem_completed hmem
    have hsaid := h.said x hx
    rw [hread] at hsaid
    exact Nat.lt_irrefl _ hsaid
  · change (completed (s.sent ++ sent)).Nodup
    rw [completed_append]
    rcases rmHandleChunkReadResponses_cases hh with
      ⟨-,rfl,-⟩ | ⟨r,resp,rc,sents,hr,hresp,hstarted,-,hsend,hend⟩
    · exact (append_nil _).symm ▸ hn
    · have hdata : completed sents.flatten = [] := by
        apply completed_of_data
        intro x hx
        have hnot := not_completion_of_guard hg i j rpc q r resp rfl hi hr hresp x.msg
          ((sendChunks_spec hsend).1 x hx)
        exact Bool.ne_false_iff.mp hnot
      rcases hend with ⟨-,-,o,rfl⟩ | ⟨-,-,rfl⟩
      · rw [completed_append,hdata]
        apply nodup_append_singleton hn
        intro hmem
        obtain ⟨x,hx,hcomplete,hread⟩ := mem_completed hmem
        have hmemq := mem_of_getElem? hi
        have hopen := (h.sound.sound q hmemq).isOpen huse hr (by rw [hstarted]; decide)
        exact h.silent q hmemq hopen x hx hread hcomplete
      · rw [hdata,append_nil]
        exact hn

theorem counter_step (hc : s.client.nComplete = (counted s.client s.sent).length)
    (hs : readStep s e = some u) : u.client.nComplete = (counted u.client u.sent).length := by
  have hdeliver : ∀ t : System, t.client = s.client → t.sent = s.sent → ∀ l,
      (t.deliver l).client.nComplete =
        (counted (t.deliver l).client (t.deliver l).sent).length := by
    intro t hclient hsent l
    have hfold := foldl_receive s.client l
    have hcounts : counts (l.foldl receive s.client) = counts s.client := by
      funext y
      simp only [counts,hfold.1,hfold.2.1]
    simp only [System.deliver,hclient,hsent,counted,hcounts,length_map,filter_append,length_append]
    rw [hfold.2.2,hc]
    simp only [counted,length_map]
  rcases readStep_log hs with ⟨hsent,hclient⟩ | ⟨m,o,-,rfl⟩ | ⟨_,_,_,_,_,_,_,-,-,-,-,rfl⟩
  · rw [hsent,hclient]
    exact hc
  · exact hdeliver _ rfl rfl _
  · exact hdeliver _ rfl rfl _

end Steps

theorem mem_counted {m : ClientMread} {l : List Sent} (hn : (completed l).Nodup)
    (hlen : (counted m l).length = m.nReads) : ∀ n < m.nReads, n ∈ counted m l := by
  have hsub : ((l.filter (counts m)).map fun x => x.msg.read).Sublist (completed l) := by
    apply List.Sublist.map
    apply monotone_filter_right
    intro x hx
    simp only [counts,Bool.and_eq_true] at hx
    exact hx.1.1.1
  have hnodup : (counted m l).Nodup := by
    have hreads := hn.sublist hsub
    rw [counted]
    have hpair : (l.filter (counts m)).map (fun x => x.msg.read) =
        ((l.filter (counts m)).map fun x => x.msg.read.2).map fun n => (m.id,n) := by
      rw [List.map_map]
      apply map_congr_left
      intro x hx
      have hcounts := (mem_filter.mp hx).2
      simp only [counts,Bool.and_eq_true,beq_iff_eq] at hcounts
      exact Prod.ext hcounts.1.2 rfl
    rw [hpair] at hreads
    exact hreads.of_map _
  have hrange : counted m l ⊆ List.range m.nReads := by
    intro n hnl
    obtain ⟨x,hx,rfl⟩ := mem_map.mp hnl
    have hcounts := (mem_filter.mp hx).2
    simp only [counts,Bool.and_eq_true,decide_eq_true_eq] at hcounts
    exact mem_range.mpr hcounts.2
  have hperm := (subperm_of_subset hnodup hrange).perm_of_length_le (by rw [hlen,length_range])
  intro n hlt
  exact hperm.mem_iff.mpr (mem_range.mpr hlt)

structure CompletionInv (s : System) : Prop where
  tracked : Tracked IsCompletion s
  once : (completed s.sent).Nodup
  counter : s.client.nComplete = (counted s.client s.sent).length

/-- In every run in which no handled response has a chunk whose log read failed, each
read is completed at most once, and the client stops waiting only when all of its
reads are completed. -/
theorem completed_once {maxReads : ℕ} {client : ClientMread} {es : List ReadOp} {u : System}
    (hclient : client.nComplete = 0)
    (h : Run readStep (fun s e => noFailedChunk s e = true) (.init maxReads client) es u) :
    CompletedOnce u := by
  have hinv : CompletionInv u := by
    refine h.invariant ?_ ⟨Tracked.init _ maxReads client,nodup_nil,hclient⟩
    intro s e v hs hg hstep
    constructor
    · exact hs.tracked.step hstep (not_completion_of_guard hg)
    · exact nodup_step hs.tracked hs.once hg hstep
    · exact counter_step hs.counter hstep
  constructor
  · exact hinv.once
  · intro hall
    exact mem_counted hinv.once (hinv.counter.symm.trans hall)

def twoReads : ClientMread := ⟨1,[.start 1 0 2 [0,0],.start 1 2 2 [0,0]],0,0⟩

def chunkOf (offset : ℕ) (readRc : ℤ) : ChunkReadResp := ⟨1,offset,2,readRc⟩

/-- The first read is spread over two servers, the second has no data. -/
def cleanHistory : List ReadOp :=
  [.submit 1 0 [(0,1),(3,1)],.noData 1 .ok,.start,
    .post 0 3 33 ⟨[chunkOf 1 1],[8]⟩,.handle 0 1 fun _ => .ok,
    .post 0 0 33 ⟨[chunkOf 0 1],[7]⟩,.handle 0 0 fun _ => .ok,.release 0]

theorem completed_once_clean_history :
    ∃ u, Run readStep (fun s e => noFailedChunk s e = true) (.init 4 twoReads) cleanHistory u ∧
      u.client.nComplete = 2 ∧ CompletedOnce u := by
  have hrun : (exec readStep noFailedChunk (.init 4 twoReads) cleanHistory).any
      (fun u => u.client.nComplete == 2) = true := by
    decide +kernel
  obtain ⟨u,hu,hcount⟩ := Run.exists_of_exec hrun
  exact ⟨u,hu,beq_iff_eq.mp hcount,completed_once rfl hu⟩

/-- The log read of the only chunk of the first read fails. -/
def failedHistory : List ReadOp :=
  [.submit 1 0 [(0,2)],.submit 1 2 [(0,2)],.start,
    .post 0 0 34 ⟨[chunkOf 0 (-Rc.eio)],[0,0]⟩,.handle 0 0 fun _ => .ok]

/-- The first read is completed twice, once with the error of its chunk and once
without error. The client then stands at two of two while the second read is open. -/
theorem failed_chunk_completes_twice :
    ∃ u, Run readStep (fun _ _ => True) (.init 4 twoReads) failedHistory u ∧
      completed u.sent = [(1,0),(1,0)] ∧ u.client.nComplete = u.client.nReads ∧
      1 ∉ counted u.client u.sent ∧ ¬ CompletedOnce u := by
  have hrun : (exec readStep (fun _ _ => true) (.init 4 twoReads) failedHistory).any
      (fun u => decide (completed u.sent = [(1,0),(1,0)] ∧
        u.client.nComplete = u.client.nReads ∧ 1 ∉ counted u.client u.sent)) = true := by
    decide +kernel
  obtain ⟨u,hu,htest⟩ := Run.exists_of_exec hrun
  obtain ⟨htwice,hcount,hmissing⟩ := of_decide_eq_true htest
  refine ⟨u,hu.weaken fun _ _ _ => trivial,htwice,hcount,hmissing,?_⟩
  intro honce
  have hnodup := honce.once
  rw [htwice] at hnodup
  exact absurd hnodup (by decide)

end UnifyFS.ReadCompletions
