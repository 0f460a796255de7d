import UnifyFS.ByteBuffers
import UnifyFS.MachineWords
import UnifyFS.ReturnCodes

/-!
# Client read requests

Embedding of the request part of `client/src/client_read.c` and of the two RPC
handlers of `client/src/margo_client.c` that a server calls while it serves an
mread: one brings data for a read index, the other reports its completion. The
sentinel `(size_t)-1` of the two cover offsets is `none`.

A handler has no result when it aborts on its assertion or would write outside
the user buffer. The bulk transfer itself belongs to the network library: which
of its pieces succeed is an argument of the handler.
-/
namespace UnifyFS.ClientRead
open ByteBuffers MachineWords Option

structure ReadReq where
  gfid : ℤ
  offset : ℕ
  length : ℕ
  buf : List UInt8
  coverBegin : Option ℕ
  coverEnd : Option ℕ
  nread : ℕ
  errcode : Rc
  /-- Where the user buffer stands; `buf` is the memory found there. -/
  addr : ℕ := 0
  deriving DecidableEq, Repr

def ReadReq.start (gfid : ℤ) (offset length : ℕ) (buf : List UInt8) : ReadReq :=
  ⟨gfid,offset,length,buf,none,none,0,Rc.einprogress,0⟩

/-- What tells one read from another: file, range and user buffer. -/
def ReadReq.ident (req : ReadReq) : ℤ × ℕ × ℕ × ℕ := (req.gfid,req.offset,req.length,req.addr)

def ReadReq.withError (rc : Rc) (req : ReadReq) : ReadReq := { req with errcode := rc }

def ReadReq.putBytes (offset : ℕ) (bytes : List UInt8) (req : ReadReq) : ReadReq :=
  { req with buf := overwrite 0 req.buf offset bytes }

/-- Bytes are counted only with their coverage. -/
def ReadReq.Counted (req : ReadReq) : Prop := req.coverBegin = none → req.nread = 0

/-- No error message was set. -/
def ReadReq.assumeSuccess (req : ReadReq) : ReadReq :=
  if req.errcode = Rc.einprogress then { req with errcode := Rc.success } else req

/-- A request still in progress when the wait for an mread has timed out. -/
def ReadReq.expire (req : ReadReq) : ReadReq :=
  if req.errcode = Rc.einprogress then req.withError Rc.etimedout else req

/-- No byte at offset zero makes the end offset wrap around to the sentinel. -/
def updateReadReqCoverage (req : ReadReq) (extentByteOffset extentLength : ℕ) : ReadReq :=
  let req :=
    if req.coverBegin.all fun b => decide (extentByteOffset < b) then
      { req with coverBegin := some extentByteOffset }
    else req
  if extentByteOffset + extentLength = 0 then { req with coverEnd := none, nread := 0 }
  else
    let endByteOffset := extentByteOffset + extentLength - 1
    if req.coverEnd.all fun e => decide (endByteOffset > e) then
      { req with coverEnd := some endByteOffset, nread := endByteOffset + 1 }
    else req

theorem coverage_frame (req : ReadReq) (lo len : ℕ) :
    (updateReadReqCoverage req lo len).offset = req.offset ∧
      (updateReadReqCoverage req lo len).length = req.length ∧
      (updateReadReqCoverage req lo len).errcode = req.errcode ∧
      (updateReadReqCoverage req lo len).buf = req.buf := by
  unfold updateReadReqCoverage
  dsimp only
  split_ifs <;> exact ⟨rfl,rfl,rfl,rfl⟩

theorem coverage_ident (req : ReadReq) (lo len : ℕ) :
    (updateReadReqCoverage req lo len).ident = req.ident := by
  unfold updateReadReqCoverage
  dsimp only
  split_ifs <;> rfl

theorem coverage_begin (req : ReadReq) (lo len : ℕ) :
    (updateReadReqCoverage req lo len).coverBegin = some (req.coverBegin.elim lo (min lo)) := by
  unfold updateReadReqCoverage
  cases hb : req.coverBegin with
  | none => simp only [all_none,if_true]; split_ifs <;> rfl
  | some b =>
    simp only [all_some,decide_eq_true_eq,elim_some]
    split_ifs <;> simp only [hb,some.injEq] <;> omega

theorem coverage_counted (req : ReadReq) (lo len : ℕ) :
    (updateReadReqCoverage req lo len).Counted := by
  intro hnone
  rw [coverage_begin] at hnone
  cases hnone

structure ClientMread where
  id : ℕ
  reqs : List ReadReq
  nComplete : ℕ
  nError : ℕ
  deriving DecidableEq, Repr

def ClientMread.nReads (m : ClientMread) : ℕ := m.reqs.length

def clientUpdateMreadRequest (m : ClientMread) (reqIndex : ℕ) (reqComplete : Bool)
    (reqError : Rc) : Rc × ClientMread :=
  if reqIndex < m.nReads then
    if reqComplete then
      let m := { m with nComplete := m.nComplete + 1 }
      if reqError ≠ 0 then
        (Rc.success,{ m with
          nError := m.nError + 1
          reqs := m.reqs.modify reqIndex fun r => { r with nread := 0, errcode := reqError } })
      else (Rc.success,m)
    else (Rc.success,m)
  else (Rc.einval,m)

def serverMaxBulkTxSize : ℕ := 8388608

/-- The loop over the pieces of a bulk transfer: the bytes that arrived, and
whether all pieces did. -/
def bulkPull (xfer : ℕ → Bool) (maxBulk : ℕ) : ℕ → ℕ → ℕ → ℕ × Bool
  | 0, _, _ => (0,true)
  | fuel + 1, i, remain =>
    let len := if remain < maxBulk then remain else maxBulk
    if xfer i then
      if remain - len > 0 then
        let rest := bulkPull xfer maxBulk fuel (i + 1) (remain - len)
        (len + rest.1,rest.2)
      else (len,true)
    else (0,false)

/-- `unifyfs_mread_req_data_rpc` once the mread is found; `bulkOk` is the result of
`margo_bulk_create`. -/
def mreadReqDataRpc (m : ClientMread) (readIndex dataOffset : ℕ) (data : List UInt8)
    (bulkOk : Bool) (xfer : ℕ → Bool) : Option (Rc × ClientMread) :=
  if data.length = 0 then some (Rc.success,m)
  else match m.reqs[readIndex]? with
    | none => none
    | some req =>
      let dataSpace := wordSub req.length dataOffset
      if data.length > dataSpace then some (Rc.einval,m)
      else if bulkOk = false then some (Rc.errorMargo,m)
      else if dataOffset + data.length > req.length then none
      else
        let pulled := bulkPull xfer serverMaxBulkTxSize data.length 0 data.length
        let fill := ReadReq.putBytes dataOffset (data.take pulled.1)
        let cover := fun r : ReadReq => updateReadReqCoverage (fill r) dataOffset data.length
        if pulled.2 then some (Rc.success,{ m with reqs := m.reqs.modify readIndex cover })
        else some (Rc.errorMargo,{ m with reqs := m.reqs.modify readIndex fill })

variable {m : ClientMread} {readIndex dataOffset : ℕ} {xfer : ℕ → Bool}

/-- What a data message may do to the requests: nothing, or it brings bytes that lie inside its
request, with or without counting them. -/
theorem mreadReqDataRpc_cases {m' : ClientMread} {data : List UInt8} {bulkOk : Bool} {rc : Rc}
    (h : mreadReqDataRpc m readIndex dataOffset data bulkOk xfer = some (rc,m')) :
    m' = m ∨ ∃ req bytes, m.reqs[readIndex]? = some req ∧
      dataOffset + data.length ≤ req.length ∧ bytes.length ≤ data.length ∧
      (m' = { m with reqs := m.reqs.modify readIndex (ReadReq.putBytes dataOffset bytes) } ∨
        m' = { m with reqs := m.reqs.modify readIndex fun r =>
          updateReadReqCoverage (r.putBytes dataOffset bytes) dataOffset data.length }) := by
  unfold mreadReqDataRpc at h
  split at h
  · cases h
    exact .inl rfl
  · split at h
    · cases h
    · next req hreq =>
      dsimp only at h
      split at h
      · cases h
        exact .inl rfl
      · split at h
        · cases h
          exact .inl rfl
        · split at h
          · cases h
          · next hfits =>
            right
            refine ⟨req,
              data.take (bulkPull xfer serverMaxBulkTxSize data.length 0 data.length).1,hreq,
              Nat.le_of_not_lt hfits,List.length_take_le' _ _,?_⟩
            split at h
            · cases h
              exact .inr rfl
            · cases h
              exact .inl rfl

theorem mreadReqDataRpc_isSome {req : ReadReq} (hreq : m.reqs[readIndex]? = some req)
    (hoff : dataOffset ≤ req.length) (data : List UInt8) (bulkOk : Bool) (xfer : ℕ → Bool) :
    ∃ out, mreadReqDataRpc m readIndex dataOffset data bulkOk xfer = some out := by
  apply ne_none_iff_exists'.mp
  unfold mreadReqDataRpc
  rw [hreq]
  split
  · exact some_ne_none _
  · dsimp only
    rw [wordSub_of_le hoff]
    split
    · exact some_ne_none _
    · split
      · exact some_ne_none _
      · split
        · omega
        · split <;> exact some_ne_none _

/-- `unifyfs_mread_req_complete_rpc` once the mread is found. -/
def mreadReqCompleteRpc (m : ClientMread) (readIndex : ℕ) (readError : Rc) : Rc × ClientMread :=
  clientUpdateMreadRequest m readIndex true readError

def ReadReq.zeroFill (req : ReadReq) (start len : ℕ) : ReadReq :=
  { req with buf := overwrite 0 req.buf start (List.replicate len 0) }

/-- The size lookup for the file of the request returned `filesize`, which is `-1`
when it failed. A request of length zero that nothing covers has no result: its
unset cover offset would be taken for the size of a hole. -/
def updateReadReqResult (filesize : ℤ) (req : ReadReq) : Option ReadReq :=
  let req := req.assumeSuccess
  if req.errcode ≠ Rc.success ∧ req.errcode ≠ Rc.enodata then some req
  else if req.nread = req.length then
    match req.coverBegin with
    | none => none
    | some 0 => some req
    | some (b + 1) => some { req.zeroFill 0 (b + 1) with errcode := Rc.success }
  else if filesize = -1 then some { req with errcode := Rc.enoent }
  else
    let filesize := filesize.toNat
    if filesize ≤ req.offset then some { req with nread := 0, errcode := Rc.success }
    else
      let gapStart := req.offset + req.nread
      let reqEnd := req.offset + req.length
      if filesize > gapStart then
        let gapLength := if reqEnd > filesize then filesize - gapStart else reqEnd - gapStart
        some { req.zeroFill req.nread gapLength with
          nread := req.nread + gapLength, errcode := Rc.success }
      else some req

section Result
variable {filesize : ℤ} {req out : ReadReq}

theorem assumeSuccess_eq (req : ReadReq) :
    req.assumeSuccess.ident = req.ident ∧ req.assumeSuccess.nread = req.nread ∧
      req.assumeSuccess.length = req.length ∧ req.assumeSuccess.coverBegin = req.coverBegin := by
  unfold ReadReq.assumeSuccess
  split <;> exact ⟨rfl,rfl,rfl,rfl⟩

theorem updateReadReqResult_of_error (h₁ : req.errcode ≠ Rc.einprogress)
    (h₂ : req.errcode ≠ Rc.success) (h₃ : req.errcode ≠ Rc.enodata) :
    updateReadReqResult filesize req = some req := by
  unfold updateReadReqResult ReadReq.assumeSuccess
  rw [if_neg h₁]
  exact if_pos ⟨h₂,h₃⟩

theorem updateReadReqResult_ident (h : updateReadReqResult filesize req = some out) :
    out.ident = req.ident := by
  rw [← (assumeSuccess_eq req).1]
  unfold updateReadReqResult at h
  dsimp only at h
  split at h
  · cases h
    rfl
  · split at h
    · split at h <;> cases h <;> rfl
    · split at h
      · cases h
        rfl
      · split at h
        · cases h
          rfl
        · split at h <;> cases h <;> rfl

/-- The update has a result unless a request of length zero is left uncovered. -/
theorem updateReadReqResult_isSome (h : req.nread = req.length → req.coverBegin ≠ none) :
    ∃ out, updateReadReqResult filesize req = some out := by
  apply ne_none_iff_exists'.mp
  obtain ⟨-,hnread,hlength,hbegin⟩ := assumeSuccess_eq req
  rw [← hnread,← hlength,← hbegin] at h
  unfold updateReadReqResult
  dsimp only
  split
  · exact some_ne_none _
  · split
    · next hfull =>
      split
      · next hnone => exact absurd hnone (h hfull)
      · exact some_ne_none _
      · exact some_ne_none _
    · split
      · exact some_ne_none _
      · split
        · exact some_ne_none _
        · split <;> exact some_ne_none _

end Result

theorem bulkPull_all (hx : ∀ i, xfer i = true) {maxBulk : ℕ} (hm : 0 < maxBulk) {fuel i remain : ℕ}
    (hf : remain ≤ fuel) (hr : 0 < remain) :
    bulkPull xfer maxBulk fuel i remain = (remain,true) := by
  induction fuel generalizing i remain with
  | zero => omega
  | succ fuel ih =>
    rw [bulkPull]
    dsimp only
    rw [if_pos (hx i)]
    split_ifs with h₁ h₂ h₂
    · omega
    · rfl
    · rw [ih (by omega) (by omega)]
      rw [show maxBulk + (remain - maxBulk) = remain by omega]
    · rw [show remain = maxBulk by omega]

end UnifyFS.ClientRead
