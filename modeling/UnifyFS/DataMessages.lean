import UnifyFS.ChunkReads
import UnifyFS.ChunkWords
import UnifyFS.ClientRead

/-!
# The data messages of a chunk

The bytes of a chunk pass three places: the owner of the file trims the chunk to the
request, the server of the client splits what was read of it into messages, and the
client checks that each message fits into what is left of the user buffer. The check is
a subtraction of unsigned words, which says something only for an offset inside the
request. Trimming makes sure of that.
-/
namespace UnifyFS.DataMessages
open MachineWords RangeLists RangeTrees ExtentTree ExtentLookup ChunkWords ChunkReads ClientRead
open List

/-- Messages for one read that carry the bytes one after the other from an offset on, at least
one byte and at most `maxSz` bytes each. -/
inductive Consecutive (t : ReadTarget) (maxSz : ℕ) : ℕ → List UInt8 → List Sent → Prop
  | nil (offset : ℕ) : Consecutive t maxSz offset [] []
  | cons {offset : ℕ} {bytes rest : List UInt8} {outcome : RpcOutcome} {sent : List Sent} :
      0 < bytes.length → bytes.length ≤ maxSz →
      Consecutive t maxSz (offset + bytes.length) rest sent →
      Consecutive t maxSz offset (bytes ++ rest)
        (⟨.data t.clientMread t.clientReadNdx offset bytes,outcome⟩ :: sent)

section Messages
variable {t : ReadTarget} {maxSz offset : ℕ} {bytes : List UInt8} {sent : List Sent}

theorem Consecutive.mem (h : Consecutive t maxSz offset bytes sent) {x : Sent} (hx : x ∈ sent) :
    ∃ pos part, x.msg = .data t.clientMread t.clientReadNdx pos part ∧ offset ≤ pos ∧
      0 < part.length ∧ part.length ≤ maxSz ∧ pos + part.length ≤ offset + bytes.length := by
  induction h with
  | nil offset => cases hx
  | @cons offset part rest outcome sent hpos hmax _ ih =>
    rw [length_append]
    rcases mem_cons.mp hx with rfl | hx
    · exact ⟨offset,part,rfl,le_rfl,hpos,hmax,by omega⟩
    · obtain ⟨pos,part',hmsg,hlo,hpos',hmax',hhi⟩ := ih hx
      exact ⟨pos,part',hmsg,by omega,hpos',hmax',by omega⟩

variable {rpc : ℕ → RpcOutcome} {fuel k sendSz bytesLeft : ℕ} {buf : List UInt8} {ret : Rc}

theorem sendPieces_consecutive (hfuel : bytesLeft ≤ fuel) (hsz : 0 < sendSz) (hmax : sendSz ≤ maxSz)
    (hbuf : bytesLeft ≤ buf.length) : Consecutive t maxSz offset (buf.take bytesLeft)
      (sendPieces rpc t fuel k sendSz bytesLeft offset buf ret).2 := by
  induction fuel generalizing k sendSz bytesLeft offset buf ret with
  | zero =>
    rw [Nat.le_zero.mp hfuel]
    exact .nil offset
  | succ fuel ih =>
    rw [sendPieces]
    split
    · next hleft =>
      -- the size of a piece shrinks to what is left
      obtain ⟨size,hsize⟩ : ∃ size, (if bytesLeft < sendSz then bytesLeft else sendSz) = size :=
        ⟨_,rfl⟩
      have hpiece : 0 < size ∧ size ≤ bytesLeft ∧ size ≤ sendSz := by
        rw [← hsize]
        split_ifs <;> omega
      have hlen : (buf.take size).length = size := by
        rw [length_take]
        omega
      have hdrop : bytesLeft - size ≤ (buf.drop size).length := by
        rw [length_drop]
        omega
      have hsplit : buf.take bytesLeft =
          buf.take size ++ (buf.drop size).take (bytesLeft - size) := by
        rw [← take_add,Nat.add_sub_of_le hpiece.2.1]
      rw [hsize,hsplit]
      apply Consecutive.cons
      · omega
      · omega
      · rw [hlen]
        exact ih (by omega) hpiece.1 (by omega) hdrop
    · next hleft =>
      rw [Nat.eq_zero_of_not_pos hleft]
      exact .nil offset

theorem sendDataToClient_consecutive (rpc : ℕ → RpcOutcome) (t : ReadTarget) (k : ℕ)
    (resp : ChunkReadResp) (rest : List UInt8) (hoff : t.extentOffset ≤ resp.offset)
    (hread : resp.readRc = bytes.length) :
    ∃ rc sent, sendDataToClient rpc t k resp (bytes ++ rest) = some (rc,bytes.length,sent) ∧
      Consecutive t serverMaxDataTxSize (resp.offset - t.extentOffset) bytes sent := by
  have hpieces : Consecutive t serverMaxDataTxSize (resp.offset - t.extentOffset)
      ((bytes ++ rest).take bytes.length) (sendPieces rpc t bytes.length k serverMaxDataTxSize
        bytes.length (resp.offset - t.extentOffset) (bytes ++ rest) Rc.success).2 :=
    sendPieces_consecutive le_rfl (by decide) le_rfl (by simp)
  rw [take_left] at hpieces
  unfold sendDataToClient
  rw [hread,if_neg (by omega),if_neg (by omega)]
  exact ⟨_,_,rfl,hpieces⟩

end Messages

theorem mreadReqDataRpc_of_fits {m : ClientMread} {readNdx pos : ℕ} {part : List UInt8}
    {req : ReadReq} (hreq : m.reqs[readNdx]? = some req) (hfits : pos + part.length ≤ req.length)
    (bulkOk : Bool) (xfer : ℕ → Bool) :
    ∃ rc m', mreadReqDataRpc m readNdx pos part bulkOk xfer = some (rc,m') ∧ rc ≠ Rc.einval := by
  have hsuccess : Rc.success ≠ Rc.einval := by decide
  have hmargo : Rc.errorMargo ≠ Rc.einval := by decide
  have hspace : ¬ part.length > wordSub req.length pos := by
    rw [wordSub_of_le (by omega)]
    omega
  unfold mreadReqDataRpc
  rw [hreq]
  dsimp only
  split_ifs with hzero hbulk hout hpulled
  · exact ⟨_,_,rfl,hsuccess⟩
  · exact ⟨_,_,rfl,hmargo⟩
  · omega
  · exact ⟨_,_,rfl,hsuccess⟩
  · exact ⟨_,_,rfl,hmargo⟩

/-- Of a chunk that the tree gives for a request, any number of bytes may have been read. The
messages for them are consecutive, carry these bytes, are neither empty nor too large, and
pass the check of the client, whatever becomes of the RPCs. -/
theorem data_messages_fit {g : ℤ} {tree : RangeTree LogLoc} {offset len : ℕ}
    (ht : Separate tree.nodes) (hwords : ∀ n ∈ tree.nodes, n.stop < wordSize) (hone : 1 ≤ len)
    (hoff : offset < wordSize) (hlen : len < wordSize) {c : Chunk}
    (hc : c ∈ getChunkListWords g tree offset len) (bytes : List UInt8)
    (hread : bytes.length ≤ c.nbytes) (rest : List UInt8) (rpc : ℕ → RpcOutcome)
    (mread readNdx k : ℕ) :
    ∃ rc sent, sendDataToClient rpc ⟨mread,readNdx,offset⟩ k
        ⟨c.gfid,c.offset,c.nbytes,bytes.length⟩ (bytes ++ rest) = some (rc,bytes.length,sent) ∧
      Consecutive ⟨mread,readNdx,offset⟩ serverMaxDataTxSize (c.offset - offset) bytes sent ∧
      ∀ x ∈ sent, ∃ pos part, x.msg = .data mread readNdx pos part ∧
        0 < part.length ∧ part.length ≤ serverMaxDataTxSize ∧ part.length ≤ wordSub len pos ∧
        ∀ (m : ClientMread) (req : ReadReq), m.reqs[readNdx]? = some req → req.length = len →
          ∀ bulkOk xfer, ∃ rc m', mreadReqDataRpc m readNdx pos part bulkOk xfer = some (rc,m') ∧
            rc ≠ Rc.einval := by
  obtain ⟨hlo,-,hhi⟩ := chunk_within ht hwords hone hoff hlen hc
  obtain ⟨rc,sent,hsend,hsent⟩ := sendDataToClient_consecutive rpc ⟨mread,readNdx,offset⟩ k
    ⟨c.gfid,c.offset,c.nbytes,bytes.length⟩ rest hlo rfl
  refine ⟨rc,sent,hsend,hsent,?_⟩
  intro x hx
  obtain ⟨pos,part,hmsg,hfrom,hpos,hmax,hto⟩ := hsent.mem hx
  dsimp only at hfrom hto
  refine ⟨pos,part,hmsg,hpos,hmax,?_,?_⟩
  · rw [wordSub_of_le (by omega)]
    omega
  · intro m req hreq hreqlen bulkOk xfer
    exact mreadReqDataRpc_of_fits hreq (by omega) bulkOk xfer

/-- Three of the four bytes asked for at offset 2, of an extent of eight bytes. -/
theorem data_messages_fit_three :
    getChunkListWords 9 ⟨[⟨0,7,⟨0,0,0,1⟩⟩],1,7⟩ 2 4 = [⟨9,4,2,2,0,1,0⟩] ∧
    ∃ rc sent, sendDataToClient (fun _ => .ok) ⟨5,0,2⟩ 0 ⟨9,2,4,3⟩ ([7,8,9] ++ [0]) =
        some (rc,3,sent) ∧
      Consecutive ⟨5,0,2⟩ serverMaxDataTxSize 0 [7,8,9] sent ∧
      ∀ x ∈ sent, ∃ pos part, x.msg = .data 5 0 pos part ∧
        0 < part.length ∧ part.length ≤ serverMaxDataTxSize ∧ part.length ≤ wordSub 4 pos ∧
        ∀ (m : ClientMread) (req : ReadReq), m.reqs[0]? = some req → req.length = 4 →
          ∀ bulkOk xfer, ∃ rc m', mreadReqDataRpc m 0 pos part bulkOk xfer = some (rc,m') ∧
            rc ≠ Rc.einval := by
  have hlist : getChunkListWords 9 ⟨[⟨0,7,⟨0,0,0,1⟩⟩],1,7⟩ 2 4 = [⟨9,4,2,2,0,1,0⟩] := by
    decide +kernel
  refine ⟨hlist,?_⟩
  have hmem : (⟨9,4,2,2,0,1,0⟩ : Chunk) ∈ getChunkListWords 9 ⟨[⟨0,7,⟨0,0,0,1⟩⟩],1,7⟩ 2 4 := by
    exact mem_singleton_self _
  exact data_messages_fit ⟨by decide,by decide⟩ (by decide) (by decide) (by decide) (by decide)
    hmem [7,8,9] (by decide) [0] (fun _ => .ok) 5 0 0

end UnifyFS.DataMessages
