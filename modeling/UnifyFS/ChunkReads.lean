import UnifyFS.PackedSlots
import UnifyFS.ReturnCodes

/-!
# Chunk reads and their packed responses

A server that is asked for chunks of a file reads each chunk from a client log
and packs the outcomes in one buffer: a response for every chunk, then the data.
The server that asked unpacks the buffer and forwards the data to its client, in
messages of bounded size. The buffer is a list of responses and a list of bytes.

A log read is an outcome here: the client or its log context is missing, or
`unifyfs_logio_read` returned a code and some bytes. It returns an error only if
it read nothing, its errors are positive errno values, and it never reads more
than it was asked for. RPCs to the client have arbitrary outcomes.
-/
namespace UnifyFS.ChunkReads
open UnifyFS.ByteBuffers UnifyFS.PackedSlots List Option

structure ChunkReadReq where
  gfid : ℤ
  nbytes : ℕ
  offset : ℕ
  logOffset : ℕ
  logAppId : ℤ
  logClientId : ℤ
  deriving DecidableEq, Repr

/-- `chunk_read_resp_t`: `readRc` is the number of bytes or a negative error. -/
structure ChunkReadResp where
  gfid : ℤ
  offset : ℕ
  nbytes : ℕ
  readRc : ℤ
  deriving DecidableEq, Repr

inductive LogRead where
  | noClient
  | noContext
  | done (rc : Rc) (bytes : List UInt8)
  deriving DecidableEq, Repr

namespace LogRead

def bytes : LogRead → List UInt8
  | .done _ bytes => bytes
  | _ => []

def readRc : LogRead → ℤ
  | .done rc bytes => if rc = Rc.success then bytes.length else -rc
  | _ => -Rc.einval

/-- What the log read of `nbytes` may return. -/
def Conforming (nbytes : ℕ) : LogRead → Prop
  | .done rc bytes => 0 ≤ rc ∧ bytes.length ≤ nbytes ∧ (rc ≠ Rc.success → bytes = [])
  | _ => True

instance (nbytes : ℕ) : DecidablePred (Conforming nbytes)
  | .done rc bytes =>
    inferInstanceAs (Decidable (0 ≤ rc ∧ bytes.length ≤ nbytes ∧ (rc ≠ Rc.success → bytes = [])))
  | .noClient => .isTrue trivial
  | .noContext => .isTrue trivial

end LogRead

/-- A request for a chunk with the outcome of its log read. -/
structure ChunkRead where
  req : ChunkReadReq
  log : LogRead
  conforming : log.Conforming req.nbytes

namespace ChunkRead

theorem length_le (c : ChunkRead) : c.log.bytes.length ≤ c.req.nbytes := by
  have h := c.conforming
  cases hlog : c.log with
  | noClient => exact Nat.zero_le _
  | noContext => exact Nat.zero_le _
  | done rc bytes =>
    rw [hlog] at h
    exact h.2.1

theorem readRc_toNat (c : ChunkRead) : c.log.readRc.toNat = c.log.bytes.length := by
  have h := c.conforming
  cases hlog : c.log with
  | noClient => rfl
  | noContext => rfl
  | done rc bytes =>
    rw [hlog] at h
    unfold LogRead.readRc
    dsimp only
    split_ifs with hrc
    · exact Int.toNat_natCast _
    · have hpos := h.1
      rw [h.2.2 hrc]
      exact Int.toNat_of_nonpos (Int.neg_nonpos_of_nonneg hpos)

def slot (c : ChunkRead) : Slot UInt8 := ⟨c.req.nbytes,c.log.bytes,c.length_le⟩

/-- The response that `sm_issue_chunk_reads` records for a chunk. -/
def resp (c : ChunkRead) : ChunkReadResp :=
  ⟨c.req.gfid,c.req.offset,c.req.nbytes,c.log.readRc⟩

end ChunkRead

/-- The loop of `sm_issue_chunk_reads`: the cursor moves on by the size asked for. -/
def issueChunkReads : ℕ → List UInt8 → List ChunkRead → List ChunkReadResp × List UInt8
  | _, databuf, [] => ([],databuf)
  | bufCursor, databuf, c :: cs =>
    let databuf := overwrite 0 databuf bufCursor c.log.bytes
    let out := issueChunkReads (bufCursor + c.req.nbytes) databuf cs
    (c.resp :: out.1,out.2)

/-- The size that the asking server sends along: the sum over the chunks. -/
def totalDataSz (cs : List ChunkRead) : ℕ := (cs.map fun c => c.req.nbytes).sum

/-- The packed buffer, which `calloc` has cleared. -/
def smIssueChunkReads (cs : List ChunkRead) : List ChunkReadResp × List UInt8 :=
  issueChunkReads 0 (List.replicate (totalDataSz cs) 0) cs

theorem issueChunkReads_eq (front : List UInt8) (cs : List ChunkRead) :
    issueChunkReads front.length (front ++ List.replicate (totalDataSz cs) 0) cs =
      (cs.map ChunkRead.resp,front ++ pack 0 (cs.map ChunkRead.slot)) := by
  induction cs generalizing front with
  | nil => rfl
  | cons c cs ih =>
    have hcursor : front.length + c.req.nbytes = (front ++ c.slot.cells 0).length := by
      have hfits := c.length_le
      simp only [Slot.cells,ChunkRead.slot,length_append,length_replicate]
      omega
    have hwrite : overwrite 0 (front ++ List.replicate (totalDataSz (c :: cs)) 0) front.length
        c.log.bytes = (front ++ c.slot.cells 0) ++ List.replicate (totalDataSz cs) 0 :=
      overwrite_slot 0 c.slot front _
    rw [issueChunkReads,hwrite,hcursor,ih]
    simp only [map_cons,pack_cons,append_assoc]

/-- The buffer has a slot for every chunk, filled with what was read. -/
theorem smIssueChunkReads_eq (cs : List ChunkRead) :
    smIssueChunkReads cs = (cs.map ChunkRead.resp,pack 0 (cs.map ChunkRead.slot)) :=
  issueChunkReads_eq [] cs

/-- An RPC to the client: its code, and whether the client has handled it. It may
have been handled even though its answer was lost. -/
structure RpcOutcome where
  rc : Rc
  delivered : Bool
  delivered_of_success : rc = Rc.success → delivered = true
  deriving DecidableEq, Repr

namespace RpcOutcome

def ok : RpcOutcome := ⟨Rc.success,true,fun _ => rfl⟩

def lost : RpcOutcome := ⟨Rc.errorMargo,false,by decide⟩

end RpcOutcome

/-- The messages of a server to its client about one read of an mread. -/
inductive ToClient where
  | data (mread readNdx offset : ℕ) (bytes : List UInt8)
  | complete (mread readNdx : ℕ) (error : Rc)
  deriving DecidableEq, Repr

namespace ToClient

def read : ToClient → ℕ × ℕ
  | .data mread readNdx _ _ => (mread,readNdx)
  | .complete mread readNdx _ => (mread,readNdx)

def isData : ToClient → Bool
  | .data _ _ _ _ => true
  | .complete _ _ _ => false

end ToClient

structure Sent where
  msg : ToClient
  outcome : RpcOutcome
  deriving DecidableEq, Repr

/-- The part of a server read request that names the client's read. -/
structure ReadTarget where
  clientMread : ℕ
  clientReadNdx : ℕ
  extentOffset : ℕ
  deriving DecidableEq, Repr

def ReadTarget.read (t : ReadTarget) : ℕ × ℕ := (t.clientMread,t.clientReadNdx)

def serverMaxDataTxSize : ℕ := 4194304

section Send
-- the outcomes of the RPCs of one call, in order, and the read it is for
variable (rpc : ℕ → RpcOutcome) (t : ReadTarget)

/-- The loop of `send_data_to_client` over the pieces of a chunk, `k` messages into
the call. A failed piece does not stop it. -/
def sendPieces : (fuel k sendSz bytesLeft offset : ℕ) → List UInt8 → Rc → Rc × List Sent
  | 0, _, _, _, _, _, ret => (ret,[])
  | fuel + 1, k, sendSz, bytesLeft, offset, buf, ret =>
    if 0 < bytesLeft then
      let sendSz := if bytesLeft < sendSz then bytesLeft else sendSz
      let msg := ToClient.data t.clientMread t.clientReadNdx offset (buf.take sendSz)
      let ret := if (rpc k).rc ≠ Rc.success then (rpc k).rc else ret
      let out := sendPieces fuel (k + 1) sendSz (bytesLeft - sendSz) (offset + sendSz)
        (buf.drop sendSz) ret
      (out.1,⟨msg,rpc k⟩ :: out.2)
    else (ret,[])

/-- Returns the code, the number of bytes processed and the messages. There is no
result if the chunk begins before the requested extent. -/
def sendDataToClient (k : ℕ) (resp : ChunkReadResp) (data : List UInt8) :
    Option (Rc × ℕ × List Sent) :=
  if resp.readRc < 0 then
    let errcode := -resp.readRc
    some ((rpc k).rc,0,[⟨.complete t.clientMread t.clientReadNdx errcode,rpc k⟩])
  else if resp.offset < t.extentOffset then none
  else
    let dataSize := resp.readRc.toNat
    let out := sendPieces rpc t dataSize k serverMaxDataTxSize dataSize
      (resp.offset - t.extentOffset) data Rc.success
    some (out.1,dataSize,out.2)

/-- The loop of `rm_handle_chunk_read_responses`: its code and the messages sent for
every chunk. The data pointer moves on by the number of bytes processed. -/
def sendChunks : ℕ → List ChunkReadResp → List UInt8 → Rc → Option (Rc × List (List Sent))
  | _, [], _, ret => some (ret,[])
  | k, resp :: resps, dataBuf, ret =>
    (sendDataToClient rpc t k resp dataBuf).bind fun (rc,processed,sent) =>
      let ret := if rc ≠ Rc.success then rc else ret
      (sendChunks (k + sent.length) resps (dataBuf.drop processed) ret).map fun out =>
        (out.1,sent :: out.2)

end Send

def payload (sent : List Sent) : List UInt8 :=
  sent.flatMap fun s => match s.msg with
    | .data _ _ _ bytes => bytes
    | .complete _ _ _ => []

section Pieces
variable {rpc : ℕ → RpcOutcome} {t : ReadTarget} {fuel k sendSz bytesLeft offset : ℕ}
  {buf : List UInt8} {ret : Rc}

theorem sendPieces_payload (hfuel : bytesLeft ≤ fuel) (hsz : 0 < sendSz) :
    payload (sendPieces rpc t fuel k sendSz bytesLeft offset buf ret).2 = buf.take bytesLeft := by
  induction fuel generalizing k sendSz bytesLeft offset buf ret with
  | zero =>
    rw [Nat.le_zero.mp hfuel]
    rfl
  | succ fuel ih =>
    rw [sendPieces]
    split
    · next hleft =>
      set size := if bytesLeft < sendSz then bytesLeft else sendSz with hsize
      have hpos : 0 < size ∧ size ≤ bytesLeft := by
        rw [hsize]
        split_ifs <;> omega
      have hfuel' : bytesLeft - size ≤ fuel := by omega
      change buf.take size ++ payload _ = _
      rw [ih hfuel' hpos.1,← take_add,Nat.add_sub_of_le hpos.2]
    · next hleft =>
      rw [Nat.eq_zero_of_not_pos hleft]
      rfl

theorem sendPieces_msg : ∀ x ∈ (sendPieces rpc t fuel k sendSz bytesLeft offset buf ret).2,
      x.msg.read = t.read ∧ x.msg.isData = true := by
  induction fuel generalizing k sendSz bytesLeft offset buf ret with
  | zero => simp [sendPieces]
  | succ fuel ih =>
    rw [sendPieces]
    split
    · intro x hx
      rcases mem_cons.mp hx with rfl | hx
      · exact ⟨rfl,rfl⟩
      · exact ih x hx
    · simp

theorem sendPieces_ret : (sendPieces rpc t fuel k sendSz bytesLeft offset buf ret).1 = Rc.success ↔
      ret = Rc.success ∧ ∀ x ∈ (sendPieces rpc t fuel k sendSz bytesLeft offset buf ret).2,
        x.outcome.rc = Rc.success := by
  induction fuel generalizing k sendSz bytesLeft offset buf ret with
  | zero => simp [sendPieces]
  | succ fuel ih =>
    rw [sendPieces]
    split
    · dsimp only
      rw [ih]
      by_cases hrc : (rpc k).rc = Rc.success
      · simp [hrc]
      · simp [hrc]
    · simp

end Pieces

/-- What may be sent for a list of chunks: data, and a completion for every chunk
whose log read failed. -/
def FromChunks (t : ReadTarget) (resps : List ChunkReadResp) (msg : ToClient) : Prop :=
  msg.read = t.read ∧ (msg.isData = true ∨ ∃ r ∈ resps, r.readRc < 0 ∧
    msg = .complete t.clientMread t.clientReadNdx (-r.readRc))

theorem FromChunks.mono {t : ReadTarget} {resps resps' : List ChunkReadResp} {msg : ToClient}
    (h : FromChunks t resps msg) (hsub : resps ⊆ resps') : FromChunks t resps' msg := by
  refine ⟨h.1,h.2.imp_right ?_⟩
  rintro ⟨r,hr,hneg⟩
  exact ⟨r,hsub hr,hneg⟩

section Chunks
variable (rpc : ℕ → RpcOutcome) {t : ReadTarget}

/-- A chunk of the extent gets a result, and its messages carry the first bytes of
the data that is left, as many as its log read returned. -/
theorem sendDataToClient_payload (k : ℕ) {resp : ChunkReadResp} (data : List UInt8)
    (hoff : t.extentOffset ≤ resp.offset) :
    ∃ rc sent, sendDataToClient rpc t k resp data = some (rc,resp.readRc.toNat,sent) ∧
      payload sent = data.take resp.readRc.toNat := by
  unfold sendDataToClient
  split
  · next hneg =>
    rw [Int.toNat_of_nonpos (Int.le_of_lt hneg)]
    exact ⟨_,_,rfl,rfl⟩
  · rw [if_neg (Nat.not_lt.mpr hoff)]
    refine ⟨_,_,rfl,?_⟩
    apply sendPieces_payload (Nat.le_refl _)
    decide

theorem sendChunks_payload (k : ℕ) {resps : List ChunkReadResp} (dataBuf : List UInt8) (ret : Rc)
    (hoff : ∀ r ∈ resps, t.extentOffset ≤ r.offset) :
    ∃ rc sents, sendChunks rpc t k resps dataBuf ret = some (rc,sents) ∧
      sents.map payload = unpack (resps.map fun r => r.readRc.toNat) dataBuf := by
  induction resps generalizing k dataBuf ret with
  | nil => exact ⟨_,_,rfl,rfl⟩
  | cons r rs ih =>
    obtain ⟨rc,sent,hsend,hpay⟩ := sendDataToClient_payload rpc k dataBuf (hoff r mem_cons_self)
    obtain ⟨ret',sents,hrest,hpays⟩ := ih _ _ (if rc ≠ Rc.success then rc else ret)
        (fun q hq => hoff q (mem_cons_of_mem r hq))
    refine ⟨ret',sent :: sents,?_,?_⟩
    · rw [sendChunks,hsend,bind_some]
      dsimp only
      rw [hrest]
      rfl
    · rw [map_cons,hpay,hpays]
      rfl

variable {rpc} {k processed : ℕ} {resp : ChunkReadResp} {resps : List ChunkReadResp}
  {data : List UInt8} {rc ret : Rc} {sent : List Sent} {sents : List (List Sent)}

theorem sendDataToClient_spec (h : sendDataToClient rpc t k resp data = some (rc,processed,sent)) :
    (∀ x ∈ sent, FromChunks t [resp] x.msg) ∧
      (rc = Rc.success ↔ ∀ x ∈ sent, x.outcome.rc = Rc.success) := by
  unfold sendDataToClient at h
  split at h
  · next hneg =>
    cases h
    constructor
    · intro x hx
      rw [mem_singleton.mp hx]
      exact ⟨rfl,.inr ⟨resp,mem_singleton_self resp,hneg,rfl⟩⟩
    · simp
  · split at h
    · cases h
    · cases h
      constructor
      · intro x hx
        have hmsg := sendPieces_msg x hx
        exact ⟨hmsg.1,.inl hmsg.2⟩
      · exact sendPieces_ret.trans (and_iff_right rfl)

theorem sendChunks_spec (h : sendChunks rpc t k resps data ret = some (rc,sents)) :
    (∀ x ∈ sents.flatten, FromChunks t resps x.msg) ∧
      (rc = Rc.success ↔ ret = Rc.success ∧ ∀ x ∈ sents.flatten, x.outcome.rc = Rc.success) := by
  induction resps generalizing k data ret sents with
  | nil =>
    cases h
    simp
  | cons r rs ih =>
    obtain ⟨⟨rc₁,processed,sent⟩,hsend,hrest⟩ := bind_eq_some_iff.mp h
    obtain ⟨⟨rc₂,sents'⟩,htail,hout⟩ := map_eq_some_iff.mp hrest
    cases hout
    have hone := sendDataToClient_spec hsend
    have hall := ih htail
    rw [flatten_cons,forall_mem_append,forall_mem_append,hall.2]
    refine ⟨⟨?_,?_⟩,?_⟩
    · intro x hx
      exact (hone.1 x hx).mono (cons_subset_cons r (nil_subset rs))
    · intro x hx
      exact (hall.1 x hx).mono (subset_cons_self r rs)
    · rw [← hone.2]
      split_ifs with hrc
      · simp [hrc]
      · simp [not_not.mp hrc]

end Chunks

/-- The sender and the receiver of the packed buffer agree: whatever becomes of the
messages, those sent for a chunk carry the bytes read for it. -/
def Decodes (cs : List ChunkRead) : Prop :=
  ∀ (rpc : ℕ → RpcOutcome) (t : ReadTarget), (∀ c ∈ cs, t.extentOffset ≤ c.req.offset) →
    ∃ rc sents, sendChunks rpc t 0 (smIssueChunkReads cs).1 (smIssueChunkReads cs).2 Rc.success =
        some (rc,sents) ∧
      sents.map payload = cs.map fun c => c.log.bytes

/-- The same requests and outcomes, up to the contents of the logs. -/
def ChunkRead.shape (c : ChunkRead) : ChunkReadReq × ℤ × ℕ :=
  (c.req,c.log.readRc,c.log.bytes.length)

/-- Every chunk of which some bytes were read comes after chunks read in full. -/
def ReadInFull (cs : List ChunkRead) : Prop :=
  cs.Pairwise fun a b => 0 < b.log.bytes.length → a.log.bytes.length = a.req.nbytes

theorem decodes_iff_unpack (cs : List ChunkRead) :
    Decodes cs ↔ unpack ((cs.map ChunkRead.slot).map fun s => s.data.length)
      (pack 0 (cs.map ChunkRead.slot)) = (cs.map ChunkRead.slot).map Slot.data := by
  have hlens : ((cs.map ChunkRead.resp).map fun r => r.readRc.toNat) =
      (cs.map ChunkRead.slot).map fun s => s.data.length := by
    rw [List.map_map,List.map_map]
    exact map_congr_left fun c _ => c.readRc_toNat
  have hbytes : (cs.map fun c => c.log.bytes) = (cs.map ChunkRead.slot).map Slot.data := by
    rw [List.map_map]
    rfl
  unfold Decodes
  rw [smIssueChunkReads_eq,hbytes,← hlens]
  constructor
  · intro h
    have hoff : ∀ r ∈ cs.map ChunkRead.resp, (⟨0,0,0⟩ : ReadTarget).extentOffset ≤ r.offset :=
      fun r _ => Nat.zero_le r.offset
    obtain ⟨rc,sents,hsend,hpays⟩ := h (fun _ => .ok) ⟨0,0,0⟩ (fun _ _ => Nat.zero_le _)
    obtain ⟨rc',sents',hsend',hpays'⟩ := sendChunks_payload (fun _ => .ok) 0 _ Rc.success hoff
    have hsame := (Prod.mk.inj (some.inj (hsend'.symm.trans hsend))).2
    rw [← hpays',hsame,hpays]
  · intro h rpc t hoff
    rw [← h]
    apply sendChunks_payload
    exact forall_mem_map.mpr hoff

theorem aligned_iff_readInFull (cs : List ChunkRead) :
    Aligned (cs.map ChunkRead.slot) ↔ ReadInFull cs := by
  unfold Aligned ReadInFull
  rw [pairwise_map]
  simp only [ChunkRead.slot,length_pos_iff]

theorem readInFull_of_shape {cs ds : List ChunkRead}
    (h : ds.map ChunkRead.shape = cs.map ChunkRead.shape) (hd : ReadInFull ds) : ReadInFull cs := by
  have hshape : (ds.map ChunkRead.shape).Pairwise fun a b => 0 < b.2.2 → a.2.2 = a.1.nbytes :=
    pairwise_map.mpr hd
  rw [h] at hshape
  exact pairwise_map.mp hshape

def LogRead.ones : LogRead → LogRead
  | .done rc bytes => .done rc (List.replicate bytes.length 1)
  | log => log

theorem LogRead.ones_eq (log : LogRead) :
    log.ones.readRc = log.readRc ∧ log.ones.bytes = List.replicate log.bytes.length 1 := by
  cases log with
  | noClient => exact ⟨rfl,rfl⟩
  | noContext => exact ⟨rfl,rfl⟩
  | done rc bytes => exact ⟨by simp [ones,readRc],rfl⟩

theorem LogRead.Conforming.ones {nbytes : ℕ} {log : LogRead} (h : log.Conforming nbytes) :
    log.ones.Conforming nbytes := by
  cases log with
  | noClient => trivial
  | noContext => trivial
  | done rc bytes =>
    refine ⟨h.1,?_,?_⟩
    · rw [length_replicate]
      exact h.2.1
    · intro hrc
      rw [h.2.2 hrc]
      rfl

def ChunkRead.ones (c : ChunkRead) : ChunkRead := ⟨c.req,c.log.ones,c.conforming.ones⟩

theorem ChunkRead.shape_ones (c : ChunkRead) : c.ones.shape = c.shape := by
  have hlog := c.log.ones_eq
  unfold ChunkRead.shape ChunkRead.ones
  rw [hlog.1,hlog.2,length_replicate]

/-- Sender and receiver agree, whatever the logs contain, exactly if every chunk of
which some bytes were read comes after chunks that were read in full. -/
theorem decodes_iff_readInFull (cs : List ChunkRead) :
    (∀ ds : List ChunkRead, ds.map ChunkRead.shape = cs.map ChunkRead.shape → Decodes ds) ↔
      ReadInFull cs := by
  constructor
  · intro h
    have hshape : (cs.map ChunkRead.ones).map ChunkRead.shape = cs.map ChunkRead.shape := by
      rw [List.map_map]
      exact map_congr_left fun c _ => c.shape_ones
    have hunpack := (decodes_iff_unpack _).mp (h _ hshape)
    apply readInFull_of_shape hshape
    apply (aligned_iff_readInFull _).mp
    apply aligned_of_unpack _ hunpack
    -- the cleared part of a slot cannot pass for data that has no zero
    intro s hs hzero
    obtain ⟨d,hd,rfl⟩ := mem_map.mp hs
    obtain ⟨c,-,rfl⟩ := mem_map.mp hd
    change (0 : UInt8) ∈ c.log.ones.bytes at hzero
    rw [c.log.ones_eq.2] at hzero
    exact absurd (eq_of_mem_replicate hzero) (by decide)
  · intro h ds hds
    apply (decodes_iff_unpack ds).mpr
    apply unpack_pack
    exact (aligned_iff_readInFull ds).mpr (readInFull_of_shape hds.symm h)

def pairAt (offset : ℕ) : ChunkReadReq := ⟨1,2,offset,offset,1,1⟩

/-- The log read of the first of three chunks fails. The second chunk is sent to the
client with the cleared bytes of the first, and the third with the bytes of the
second. -/
theorem failed_chunk_shifts_data :
    ∃ c₁ c₂ c₃ : ChunkRead, c₁.log = .done Rc.eio [] ∧ c₂.log = .done Rc.success [7,8] ∧
      c₃.log = .done Rc.success [9,10] ∧
      ((sendChunks (fun _ => .ok) ⟨0,0,0⟩ 0 (smIssueChunkReads [c₁,c₂,c₃]).1
        (smIssueChunkReads [c₁,c₂,c₃]).2 Rc.success).map fun out => out.2.map payload) =
          some [[],[0,0],[7,8]] ∧
      ¬ Decodes [c₁,c₂,c₃] := by
  refine ⟨⟨pairAt 0,.done Rc.eio [],by decide⟩,⟨pairAt 2,.done Rc.success [7,8],by decide⟩,
    ⟨pairAt 4,.done Rc.success [9,10],by decide⟩,rfl,rfl,rfl,
    by decide +kernel,?_⟩
  rw [decodes_iff_unpack]
  decide

end UnifyFS.ChunkReads
