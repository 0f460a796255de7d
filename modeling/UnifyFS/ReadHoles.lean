import UnifyFS.ClientRead
import UnifyFS.Spans
import Mathlib.Order.Bounds.Basic

/-!
# Holes in a client read

The server delivers the ranges of a read in any order, each with the bytes of the
file, and then reports completion. The client tracks only the lowest and the
highest offset that was covered. The count it reports is always right. The bytes
between the two offsets are taken as delivered, and a hole in front of them is
filled only when the delivered data reaches the end of the request, so what the
user buffer held before can show through.

Deliveries for several read indices of one mread may be interleaved.
-/
namespace UnifyFS.ReadHoles
open ByteBuffers MachineWords ClientRead Spans List Option

/-- Data for one read index; the range counts from the start of its request. -/
structure Delivery where
  index : ℕ
  range : Span
  deriving DecidableEq, Repr

/-- The bytes of a range, where `src` holds what the file has for a request. -/
def rangeBytes (src : ℕ → UInt8) (r : Span) : List UInt8 :=
  (List.range r.len).map fun k => src (r.lo + k)

def deliverAll (src : ℕ → ℕ → UInt8) : ClientMread → List Delivery → Option ClientMread
  | m, [] => some m
  | m, d :: ds =>
    match mreadReqDataRpc m d.index d.range.lo (rangeBytes (src d.index) d.range) true
      (fun _ => true) with
    | none => none
    | some (_,m) => deliverAll src m ds

/-- What the client reports for read index `i` once the server has delivered `ds`
and the completion without an error. -/
def readOutcome (src : ℕ → ℕ → UInt8) (filesize : ℤ) (m : ClientMread) (i : ℕ)
    (ds : List Delivery) : Option ReadReq := do
  let m ← deliverAll src m ds
  let m := (mreadReqCompleteRpc m i Rc.success).2
  let req ← m.reqs[i]?
  updateReadReqResult filesize req

def rangesOf (i : ℕ) (ds : List Delivery) : List Span :=
  (ds.filter fun d => d.index = i).map Delivery.range

def Delivered (rs : List Span) (k : ℕ) : Prop := ∃ r ∈ rs, r.Mem k

instance (rs : List Span) (k : ℕ) : Decidable (Delivered rs k) :=
  inferInstanceAs (Decidable (∃ r ∈ rs, r.Mem k))

/-- Nothing was delivered; or no hole lies between delivered bytes, and the first
or the last byte of the request was delivered. -/
def Gapless (length : ℕ) (rs : List Span) : Prop :=
  (∀ k, ¬ Delivered rs k) ∨
  ((∀ i j k, i ≤ j → j ≤ k → Delivered rs i → Delivered rs k → Delivered rs j) ∧
    (Delivered rs 0 ∨ Delivered rs (length - 1)))

/-- One successful data RPC, seen by its request. -/
def applyRange (src : ℕ → UInt8) (req : ReadReq) (r : Span) : ReadReq :=
  if r.len = 0 then req
  else updateReadReqCoverage
    { req with buf := overwrite 0 req.buf r.lo (rangeBytes src r) } r.lo r.len

@[simp] theorem length_rangeBytes (src : ℕ → UInt8) (r : Span) :
    (rangeBytes src r).length = r.len := by simp [rangeBytes]

@[simp] theorem applyRange_length (src : ℕ → UInt8) (req : ReadReq) (r : Span) :
    (applyRange src req r).length = req.length := by
  unfold applyRange updateReadReqCoverage
  dsimp only
  split_ifs <;> rfl

section Interleaving
variable {src : ℕ → ℕ → UInt8} {m m' : ClientMread} {ds : List Delivery}

def InRequests (m : ClientMread) (ds : List Delivery) : Prop :=
  ∀ d ∈ ds, ∃ r, m.reqs[d.index]? = some r ∧ d.range.lo + d.range.len ≤ r.length

theorem dataRpc_eq {d : Delivery} {req : ReadReq} (hreq : m.reqs[d.index]? = some req)
    (hfit : d.range.lo + d.range.len ≤ req.length) :
    mreadReqDataRpc m d.index d.range.lo (rangeBytes (src d.index) d.range) true (fun _ => true) =
      some (Rc.success,{ m with
        reqs := m.reqs.modify d.index fun r => applyRange (src d.index) r d.range }) := by
  unfold mreadReqDataRpc applyRange
  rw [length_rangeBytes,hreq]
  by_cases hz : d.range.len = 0
  · simp only [if_pos hz]
    rw [show m.reqs.modify d.index (fun r => r) = m.reqs from modify_id _ _]
  · have hpull : bulkPull (fun _ => true) serverMaxBulkTxSize d.range.len 0 d.range.len =
        (d.range.len,true) :=
      bulkPull_all (fun _ => rfl) (by decide) (Nat.le_refl _) (Nat.pos_of_ne_zero hz)
    have htake : (rangeBytes (src d.index) d.range).take d.range.len =
        rangeBytes (src d.index) d.range := take_of_length_le (by simp)
    simp only [if_neg hz]
    rw [wordSub_of_le (by omega),if_neg (by omega),if_neg (by decide),if_neg (by omega),hpull,
      htake]
    rfl

theorem deliverAll_reqs (src : ℕ → ℕ → UInt8) (hin : InRequests m ds) :
    ∃ m', deliverAll src m ds = some m' ∧ ∀ i, m'.reqs[i]? =
      m.reqs[i]?.map fun r => (rangesOf i ds).foldl (applyRange (src i)) r := by
  induction ds generalizing m with
  | nil => exact ⟨m,rfl,fun i => by simp [rangesOf]⟩
  | cons d ds ih =>
    obtain ⟨req,hreq,hfit⟩ := hin d mem_cons_self
    rw [deliverAll,dataRpc_eq hreq hfit]
    have hin' : InRequests { m with
        reqs := m.reqs.modify d.index fun r => applyRange (src d.index) r d.range } ds := by
      intro e he
      obtain ⟨r,hr,hle⟩ := hin e (mem_cons_of_mem _ he)
      rw [getElem?_modify,hr]
      split_ifs
      · exact ⟨_,rfl,by simpa using hle⟩
      · exact ⟨_,rfl,hle⟩
    obtain ⟨m',hm',hreqs⟩ := ih hin'
    refine ⟨m',hm',fun i => ?_⟩
    rw [hreqs,getElem?_modify]
    by_cases hi : d.index = i
    · subst hi
      simp only [rangesOf,List.filter_cons,if_true,decide_true,map_cons,foldl_cons,
        Option.map_eq_map,Option.map_map,Function.comp_def]
    · simp only [rangesOf,List.filter_cons,if_neg hi,decide_eq_false hi,Bool.false_eq_true,
        if_false,Option.map_eq_map,Option.map_id']

end Interleaving

section Result
variable {src : ℕ → UInt8} {buf₀ : List UInt8} {offset length : ℕ} {rs : List Span} {req : ReadReq}
  {r : Span}

theorem delivered_snoc {k : ℕ} : Delivered (rs ++ [r]) k ↔ Delivered rs k ∨ r.Mem k := by
  simp [Delivered,or_and_right,exists_or]

theorem setOf_delivered_snoc :
    {k | Delivered (rs ++ [r]) k} = {k | r.Mem k} ∪ {k | Delivered rs k} :=
  Set.ext fun _ => delivered_snoc.trans or_comm

theorem isLeast_delivered_snoc {low : Option ℕ} (hr : 0 < r.len)
    (hsome : ∀ b, low = some b → IsLeast {k | Delivered rs k} b)
    (hnone : low = none → ∀ k, ¬ Delivered rs k) :
    IsLeast {k | Delivered (rs ++ [r]) k} (low.elim r.lo (min r.lo)) := by
  have hfirst : IsLeast {k | r.Mem k} r.lo := ⟨⟨Nat.le_refl _,by omega⟩,fun _ hk => hk.1⟩
  rw [setOf_delivered_snoc]
  cases low with
  | none =>
    rw [show {k | Delivered rs k} = ∅ from Set.eq_empty_iff_forall_notMem.mpr (hnone rfl),
      Set.union_empty]
    exact hfirst
  | some b => exact hfirst.union (hsome b rfl)

theorem isGreatest_delivered_snoc {high : Option ℕ} (hr : 0 < r.len)
    (hsome : ∀ e, high = some e → IsGreatest {k | Delivered rs k} e)
    (hnone : high = none → ∀ k, ¬ Delivered rs k) : IsGreatest {k | Delivered (rs ++ [r]) k}
      (high.elim (r.lo + r.len - 1) (max (r.lo + r.len - 1))) := by
  have hlast : IsGreatest {k | r.Mem k} (r.lo + r.len - 1) :=
    ⟨⟨by omega,by omega⟩,fun _ hk => Nat.le_sub_one_of_lt hk.2⟩
  rw [setOf_delivered_snoc]
  cases high with
  | none =>
    rw [show {k | Delivered rs k} = ∅ from Set.eq_empty_iff_forall_notMem.mpr (hnone rfl),
      Set.union_empty]
    exact hlast
  | some e => exact hlast.union (hsome e rfl)

/-- A request after the ranges `rs` arrived over the buffer `buf₀`. -/
structure Covered (src : ℕ → UInt8) (buf₀ : List UInt8) (offset length : ℕ) (rs : List Span)
    (req : ReadReq) : Prop where
  offset_eq : req.offset = offset
  length_eq : req.length = length
  errcode : req.errcode = Rc.einprogress
  buflen : req.buf.length = length
  bytes : ∀ k, req.buf[k]? = if Delivered rs k then some (src k) else buf₀[k]?
  low : ∀ b, req.coverBegin = some b → Delivered rs b ∧ ∀ k, Delivered rs k → b ≤ k
  high : ∀ e, req.coverEnd = some e →
    req.nread = e + 1 ∧ Delivered rs e ∧ ∀ k, Delivered rs k → k ≤ e
  noLow : req.coverBegin = none → ∀ k, ¬ Delivered rs k
  noHigh : req.coverEnd = none → req.nread = 0 ∧ ∀ k, ¬ Delivered rs k

theorem covered_start (src : ℕ → UInt8) (gfid : ℤ) (offset : ℕ) (hbuf : buf₀.length = length) :
    Covered src buf₀ offset length [] (ReadReq.start gfid offset length buf₀) := by
  constructor <;> simp [ReadReq.start,Delivered,hbuf]

theorem getElem?_rangeBytes (src : ℕ → UInt8) (r : Span) {k : ℕ} (hk : k < r.len) :
    (rangeBytes src r)[k]? = some (src (r.lo + k)) := by
  simp [rangeBytes,hk]

theorem coverage_end {req : ReadReq} (hn : ∀ e, req.coverEnd = some e → req.nread = e + 1)
    (lo : ℕ) {len : ℕ} (hlen : 0 < len) :
    ∃ e, (updateReadReqCoverage req lo len).coverEnd = some e ∧
      (updateReadReqCoverage req lo len).nread = e + 1 ∧
      e = req.coverEnd.elim (lo + len - 1) (max (lo + len - 1)) := by
  unfold updateReadReqCoverage
  have hsome : lo + len ≠ 0 := by omega
  simp only [if_neg hsome]
  cases he : req.coverEnd with
  | none =>
    refine ⟨lo + len - 1,?_,?_,rfl⟩ <;> split_ifs <;> simp_all
  | some e =>
    refine ⟨max (lo + len - 1) e,?_,?_,rfl⟩ <;> split_ifs <;> simp_all <;> omega

theorem Covered.congr {rs' : List Span} (hc : Covered src buf₀ offset length rs req)
    (h : ∀ k, Delivered rs' k ↔ Delivered rs k) : Covered src buf₀ offset length rs' req := by
  refine ⟨hc.offset_eq,hc.length_eq,hc.errcode,hc.buflen,?_,?_,?_,?_,?_⟩
  · intro k
    rw [hc.bytes]
    simp only [h]
  · simpa only [h] using hc.low
  · simpa only [h] using hc.high
  · simpa only [h] using hc.noLow
  · simpa only [h] using hc.noHigh

theorem covered_applyRange (hc : Covered src buf₀ offset length rs req)
    (hfit : r.lo + r.len ≤ length) :
    Covered src buf₀ offset length (rs ++ [r]) (applyRange src req r) := by
  unfold applyRange
  split_ifs with hz
  · refine hc.congr fun k => ?_
    rw [delivered_snoc]
    refine or_iff_left fun hm => ?_
    unfold Span.Mem at hm
    omega
  obtain ⟨hoff,hlen,herr,hbuf⟩ := coverage_frame
    { req with buf := overwrite 0 req.buf r.lo (rangeBytes src r) } r.lo r.len
  have hcount : ∀ e, ({ req with buf := overwrite 0 req.buf r.lo (rangeBytes src r) } :
      ReadReq).coverEnd = some e → req.nread = e + 1 := fun e he => (hc.high e he).1
  have hpos := Nat.pos_of_ne_zero hz
  obtain ⟨e,hend,hnread,he⟩ := coverage_end hcount r.lo hpos
  have hbegin := coverage_begin
    { req with buf := overwrite 0 req.buf r.lo (rangeBytes src r) } r.lo r.len
  refine ⟨hoff.trans hc.offset_eq,hlen.trans hc.length_eq,herr.trans hc.errcode,?_,?_,?_,?_,?_,?_⟩
  · rw [hbuf,length_overwrite,length_rangeBytes,hc.buflen]
    omega
  · intro k
    rw [hbuf,getElem?_overwrite_inside _ (by rw [length_rangeBytes,hc.buflen]; exact hfit),
      length_rangeBytes]
    by_cases hk : r.lo ≤ k ∧ k < r.lo + r.len
    · rw [if_pos hk,if_pos (delivered_snoc.mpr (.inr hk)),getElem?_rangeBytes _ _ (by omega)]
      rw [show r.lo + (k - r.lo) = k by omega]
    · rw [if_neg hk,hc.bytes]
      have hiff : Delivered (rs ++ [r]) k ↔ Delivered rs k := delivered_snoc.trans (or_iff_left hk)
      simp only [hiff]
  · intro b hb
    rw [hbegin] at hb
    cases hb
    have hleast := isLeast_delivered_snoc hpos
      (fun b hb => ⟨(hc.low b hb).1,(hc.low b hb).2⟩) hc.noLow
    exact ⟨hleast.1,fun k hk => hleast.2 hk⟩
  · intro e' he'
    rw [hend] at he'
    cases he'
    have hgreatest := isGreatest_delivered_snoc hpos
      (fun e he => ⟨(hc.high e he).2.1,(hc.high e he).2.2⟩) fun he => (hc.noHigh he).2
    rw [← he] at hgreatest
    exact ⟨hnread,hgreatest.1,fun k hk => hgreatest.2 hk⟩
  · intro hb
    rw [hbegin] at hb
    cases hb
  · intro hb
    rw [hend] at hb
    cases hb

theorem covered_foldl {pre : List Span} (hc : Covered src buf₀ offset length pre req)
    (hfit : ∀ r ∈ rs, r.lo + r.len ≤ length) :
    Covered src buf₀ offset length (pre ++ rs) (rs.foldl (applyRange src) req) := by
  induction rs generalizing pre req with
  | nil => simpa using hc
  | cons r rs ih =>
    have hnext := ih (covered_applyRange hc (hfit r mem_cons_self))
      (fun r' hr' => hfit r' (mem_cons_of_mem _ hr'))
    rw [append_assoc] at hnext
    exact hnext

variable {filesize : ℕ}

theorem getElem?_zeroFill {start len : ℕ} (h : start + len ≤ req.buf.length) (k : ℕ) :
    (req.zeroFill start len).buf[k]? =
      if start ≤ k ∧ k < start + len then some 0 else req.buf[k]? := by
  unfold ReadReq.zeroFill
  rw [getElem?_overwrite_inside _ (by rw [length_replicate]; exact h),length_replicate]
  split_ifs with hk
  · rw [getElem?_replicate_of_lt (by omega)]
  · rfl

/-- The bytes that the client sets to zero: those before the first covered one, if
the last byte of the request is covered, else those after the last covered one. -/
def Zeroed (length : ℕ) (rs : List Span) (k : ℕ) : Prop :=
  (Delivered rs (length - 1) ∧ ∀ j ≤ k, ¬ Delivered rs j) ∨
    (¬ Delivered rs (length - 1) ∧ ∀ j ≥ k, ¬ Delivered rs j)

/-- The result of a covered request: the count is right, and `Zeroed` says which
bytes are changed. -/
structure Reported (filesize offset length : ℕ) (rs : List Span) (req out : ReadReq) : Prop where
  errcode : out.errcode = Rc.success
  nread : out.nread = min length (filesize - offset)
  zeroed : ∀ k < out.nread, Zeroed length rs k → out.buf[k]? = some 0
  kept : ∀ k < out.nread, ¬ Zeroed length rs k → out.buf[k]? = req.buf[k]?

variable (hc : Covered src buf₀ offset length rs req)
include hc

theorem result_full (hlen : 0 < length) (hfile : ∀ k, Delivered rs k → offset + k < filesize)
    (hfull : req.nread = length) : ∃ out, updateReadReqResult filesize req = some out ∧
      Reported filesize offset length rs req out := by
  obtain ⟨e,he⟩ : ∃ e, req.coverEnd = some e := by
    cases he : req.coverEnd with
    | none => exact absurd ((hc.noHigh he).1.symm.trans hfull) (by omega)
    | some e => exact ⟨e,rfl⟩
  obtain ⟨hnread,hde,hmax⟩ := hc.high e he
  have hlast : Delivered rs (length - 1) := by rwa [show length - 1 = e by omega]
  have hcount : min length (filesize - offset) = length := by
    have := hfile _ hlast
    omega
  obtain ⟨b,hb⟩ : ∃ b, req.coverBegin = some b := by
    cases hb : req.coverBegin with
    | none => exact absurd hde (hc.noLow hb e)
    | some b => exact ⟨b,rfl⟩
  obtain ⟨hdb,hmin⟩ := hc.low b hb
  have hzero : ∀ k, Zeroed length rs k ↔ k < b := by
    intro k
    constructor
    · rintro (⟨-,hall⟩ | ⟨hn,-⟩)
      · exact Nat.lt_of_not_le fun hle => hall b hle hdb
      · exact absurd hlast hn
    · intro hk
      refine .inl ⟨hlast,fun j hj hd => ?_⟩
      have := hmin j hd
      omega
  have hble : b ≤ length := by
    have := hmax b hdb
    omega
  unfold updateReadReqResult ReadReq.assumeSuccess
  rw [hc.errcode,if_pos rfl]
  dsimp only
  rw [hc.length_eq,if_pos hfull,hb]
  cases b with
  | zero =>
    refine ⟨_,rfl,rfl,by rw [hcount]; exact hfull,?_,fun _ _ _ => rfl⟩
    intro k _ hz
    exact absurd ((hzero k).mp hz) (by omega)
  | succ b =>
    have hfill : ∀ k, (ReadReq.zeroFill { req with errcode := Rc.success } 0 (b + 1)).buf[k]? =
        if 0 ≤ k ∧ k < 0 + (b + 1) then some 0 else req.buf[k]? :=
      getElem?_zeroFill (by dsimp only; rw [hc.buflen]; omega)
    refine ⟨_,rfl,rfl,by rw [hcount]; exact hfull,?_,?_⟩
    · intro k _ hz
      have := (hzero k).mp hz
      exact (hfill k).trans (if_pos ⟨Nat.zero_le _,by omega⟩)
    · intro k _ hz
      have := mt (hzero k).mpr hz
      exact (hfill k).trans (if_neg (by omega))

/-- In a short read the zeros begin at `nread`, which is one more than the last delivered
position, or zero. -/
theorem zeroed_iff_nread_le (hin : ∀ k, Delivered rs k → k < length) (hshort : req.nread ≠ length)
    (k : ℕ) : Zeroed length rs k ↔ req.nread ≤ k := by
  cases he : req.coverEnd with
  | none =>
    obtain ⟨hz,hnone⟩ := hc.noHigh he
    rw [hz]
    exact iff_of_true (.inr ⟨hnone _,fun j _ => hnone j⟩) (Nat.zero_le _)
  | some e =>
    obtain ⟨hn,hde,hmax⟩ := hc.high e he
    have hlast : ¬ Delivered rs (length - 1) := by
      intro hd
      have h₁ := hmax _ hd
      have h₂ := hin _ hde
      omega
    constructor
    · rintro (⟨hd,-⟩ | ⟨-,hall⟩)
      · exact absurd hd hlast
      · rw [hn]
        exact Nat.lt_of_not_le fun hle => hall e hle hde
    · intro hk
      refine .inr ⟨hlast,fun j hj hd => ?_⟩
      have := hmax j hd
      omega

section
variable (hfile : ∀ k, Delivered rs k → offset + k < filesize)
  (hin : ∀ k, Delivered rs k → k < length)
include hfile hin

theorem nread_bounds : req.nread ≤ length ∧ (0 < req.nread → offset + req.nread ≤ filesize) := by
  cases he : req.coverEnd with
  | none =>
    have := (hc.noHigh he).1
    omega
  | some e =>
    obtain ⟨hn,hde,-⟩ := hc.high e he
    have h₁ := hin _ hde
    have h₂ := hfile _ hde
    omega

theorem result_short (hshort : req.nread ≠ length) :
    ∃ out, updateReadReqResult filesize req = some out ∧
      Reported filesize offset length rs req out := by
  have hzero := zeroed_iff_nread_le hc hin hshort
  have hbound := nread_bounds hc hfile hin
  have hneg : (filesize : ℤ) ≠ -1 := by omega
  unfold updateReadReqResult ReadReq.assumeSuccess
  rw [hc.errcode,if_pos rfl]
  dsimp only
  rw [hc.length_eq,if_neg hshort,if_neg hneg,Int.toNat_natCast,hc.offset_eq]
  by_cases heof : filesize ≤ offset
  · rw [if_pos heof]
    refine ⟨_,rfl,rfl,?_,?_,?_⟩ <;> dsimp only <;> omega
  rw [if_neg heof]
  by_cases hgap : filesize > offset + req.nread
  · rw [if_pos hgap]
    generalize hlen : (if offset + length > filesize then filesize - (offset + req.nread)
      else offset + length - (offset + req.nread)) = gapLength
    have hsum : req.nread + gapLength = min length (filesize - offset) := by
      rw [← hlen]
      split_ifs <;> omega
    have hfill : ∀ k, (ReadReq.zeroFill { req with errcode := Rc.success } req.nread
          gapLength).buf[k]? =
        if req.nread ≤ k ∧ k < req.nread + gapLength then some 0 else req.buf[k]? :=
      getElem?_zeroFill (by dsimp only; rw [hc.buflen]; omega)
    refine ⟨_,rfl,rfl,hsum,?_,?_⟩
    · intro k hk hz
      exact (hfill k).trans (if_pos ⟨(hzero k).mp hz,hk⟩)
    · intro k _ hz
      have := mt (hzero k).mpr hz
      exact (hfill k).trans (if_neg (by omega))
  · rw [if_neg hgap]
    refine ⟨_,rfl,rfl,?_,?_,fun _ _ _ => rfl⟩
    · dsimp only
      omega
    · intro k hk hz
      exact absurd ((hzero k).mp hz) (by dsimp only at hk; omega)

end

theorem result_spec (hlen : 0 < length)
    (hin : ∀ k, Delivered rs k → k < length ∧ offset + k < filesize) :
    ∃ out, updateReadReqResult filesize req = some out ∧
      Reported filesize offset length rs req out := by
  by_cases hfull : req.nread = length
  · exact result_full hc hlen (fun k hk => (hin k hk).2) hfull
  · exact result_short hc (fun k hk => (hin k hk).2) (fun k hk => (hin k hk).1) hfull

end Result

/-- For whatever the buffer held before, read index `i` reports the right count,
every delivered byte, and zero for every byte that was not delivered. -/
def HolesZeroed (src : ℕ → ℕ → UInt8) (gfid : ℤ) (offset length filesize : ℕ)
    (m : ClientMread) (i : ℕ) (ds : List Delivery) : Prop :=
  ∀ buf : List UInt8, buf.length = length →
    ∃ out, readOutcome src filesize
        { m with reqs := m.reqs.set i (ReadReq.start gfid offset length buf) } i ds = some out ∧
      out.errcode = Rc.success ∧ out.nread = min length (filesize - offset) ∧
      ∀ k < out.nread, out.buf[k]? = some (if Delivered (rangesOf i ds) k then src i k else 0)

section Main
variable {src : ℕ → ℕ → UInt8} {gfid : ℤ} {offset length filesize : ℕ} {m : ClientMread} {i : ℕ}
  {ds : List Delivery}

/-- The deliveries of read index `i` lie inside the request and the file; those of
the other indices lie inside their own requests. -/
structure Deliverable (offset length filesize : ℕ) (m : ClientMread) (i : ℕ)
    (ds : List Delivery) : Prop where
  index : i < m.reqs.length
  ranges : ∀ r ∈ rangesOf i ds, r.lo + r.len ≤ length ∧ offset + r.lo + r.len ≤ filesize
  others : ∀ d ∈ ds, d.index ≠ i →
    ∃ r, m.reqs[d.index]? = some r ∧ d.range.lo + d.range.len ≤ r.length

theorem Deliverable.bounds (hd : Deliverable offset length filesize m i ds) {k : ℕ}
    (hk : Delivered (rangesOf i ds) k) : k < length ∧ offset + k < filesize := by
  obtain ⟨r,hr,hm⟩ := hk
  have h := hd.ranges r hr
  unfold Span.Mem at hm
  omega

theorem complete_reqs (m : ClientMread) (i : ℕ) :
    (mreadReqCompleteRpc m i Rc.success).2.reqs = m.reqs := by
  unfold mreadReqCompleteRpc clientUpdateMreadRequest
  split_ifs with h₁ h₂ h₃
  · exact absurd rfl h₃
  all_goals rfl

theorem inRequests_set (gfid : ℤ) (hd : Deliverable offset length filesize m i ds)
    (buf : List UInt8) :
    InRequests { m with reqs := m.reqs.set i (ReadReq.start gfid offset length buf) } ds := by
  intro d hmem
  by_cases hi : d.index = i
  · refine ⟨ReadReq.start gfid offset length buf,?_,?_⟩
    · rw [hi,getElem?_set_self hd.index]
    · refine (hd.ranges d.range ?_).1
      exact mem_map_of_mem (mem_filter.mpr ⟨hmem,by simpa using hi⟩)
  · obtain ⟨r,hr,hle⟩ := hd.others d hmem hi
    exact ⟨r,by rw [getElem?_set_ne (Ne.symm hi)]; exact hr,hle⟩

theorem readOutcome_spec (src : ℕ → ℕ → UInt8) (gfid : ℤ)
    (hd : Deliverable offset length filesize m i ds) (hlen : 0 < length)
    {buf : List UInt8} (hbuf : buf.length = length) :
    ∃ req out, Covered (src i) buf offset length (rangesOf i ds) req ∧ readOutcome src filesize
        { m with reqs := m.reqs.set i (ReadReq.start gfid offset length buf) } i ds = some out ∧
      Reported filesize offset length (rangesOf i ds) req out := by
  obtain ⟨m',hm',hreqs⟩ := deliverAll_reqs src (inRequests_set gfid hd buf)
  have hreq := hreqs i
  rw [getElem?_set_self hd.index] at hreq
  have hcov := covered_foldl (covered_start (src i) gfid offset hbuf)
    (fun r hr => (hd.ranges r hr).1)
  obtain ⟨out,hout,hrep⟩ := result_spec hcov hlen (fun k hk => hd.bounds hk)
  refine ⟨_,out,hcov,?_,hrep⟩
  unfold readOutcome
  rw [hm']
  dsimp only [bind_eq_bind,Option.bind]
  rw [complete_reqs,hreq]
  exact hout

theorem not_holesZeroed (hd : Deliverable offset length filesize m i ds) (hlen : 0 < length)
    {k : ℕ} (hk : k < min length (filesize - offset)) (hn : ¬ Delivered (rangesOf i ds) k)
    (hz : ¬ Zeroed length (rangesOf i ds) k) :
    ¬ HolesZeroed src gfid offset length filesize m i ds := by
  intro hall
  have hbuf : (List.replicate length (1 : UInt8)).length = length := length_replicate
  obtain ⟨req,out,hcov,hout,hrep⟩ := readOutcome_spec src gfid hd hlen hbuf
  obtain ⟨out',hout',-,hnread,hbytes⟩ := hall _ hbuf
  obtain rfl := some.inj (hout.symm.trans hout')
  rw [← hnread] at hk
  have hold := hrep.kept k hk hz
  rw [hbytes k hk,if_neg hn,hcov.bytes,if_neg hn,
    getElem?_replicate_of_lt (by rw [hnread] at hk; omega)] at hold
  exact absurd (some.inj hold) (by decide)

end Main

/-- A read reports every hole as zero, whatever the user buffer held before, if and
only if the delivered data has no hole inside and touches an end of the request. -/
theorem holesZeroed_iff_gapless {src : ℕ → ℕ → UInt8} {gfid : ℤ} {offset length filesize : ℕ}
    {m : ClientMread} {i : ℕ} {ds : List Delivery} (hlen : 0 < length)
    (hd : Deliverable offset length filesize m i ds) :
    HolesZeroed src gfid offset length filesize m i ds ↔ Gapless length (rangesOf i ds) := by
  constructor
  · intro hall
    by_contra hgap
    unfold Gapless at hgap
    push Not at hgap
    obtain ⟨⟨d,hdel⟩,hgap⟩ := hgap
    have hdb := hd.bounds hdel
    by_cases hconv : ∀ i' j k, i' ≤ j → j ≤ k → Delivered (rangesOf i ds) i' →
        Delivered (rangesOf i ds) k → Delivered (rangesOf i ds) j
    · obtain ⟨hfirst,hlast⟩ := hgap hconv
      refine not_holesZeroed hd hlen (by omega) hfirst ?_ hall
      rintro (⟨h,-⟩ | ⟨-,h⟩)
      · exact hlast h
      · exact h d (Nat.zero_le _) hdel
    · push Not at hconv
      obtain ⟨x,j,y,hxj,hjy,hx,hy,hj⟩ := hconv
      have hyb := hd.bounds hy
      refine not_holesZeroed hd hlen (by omega) hj ?_ hall
      rintro (⟨-,h⟩ | ⟨-,h⟩)
      · exact h x hxj hx
      · exact h y hjy hy
  · intro hgap buf hbuf
    obtain ⟨req,out,hcov,hout,hrep⟩ := readOutcome_spec src gfid hd hlen hbuf
    refine ⟨out,hout,hrep.errcode,hrep.nread,fun k hk => ?_⟩
    by_cases hz : Zeroed length (rangesOf i ds) k
    · have hn : ¬ Delivered (rangesOf i ds) k := by
        rcases hz with ⟨-,h⟩ | ⟨-,h⟩
        · exact h k (Nat.le_refl k)
        · exact h k (Nat.le_refl k)
      rw [hrep.zeroed k hk hz,if_neg hn]
    · have hdel : Delivered (rangesOf i ds) k := by
        have hklen : k ≤ length - 1 := by
          have := hrep.nread
          omega
        rcases hgap with hnone | ⟨hconv,hend⟩
        · exact absurd (.inr ⟨hnone _,fun j _ => hnone j⟩) hz
        unfold Zeroed at hz
        push Not at hz
        by_cases hlast : Delivered (rangesOf i ds) (length - 1)
        · obtain ⟨j,hj,hjd⟩ := hz.1 hlast
          exact hconv j k (length - 1) hj hklen hjd hlast
        · obtain ⟨j,hj,hjd⟩ := hz.2 hlast
          exact hconv 0 k j (Nat.zero_le _) hj (hend.resolve_right hlast) hjd
      rw [hrep.kept k hk hz,hcov.bytes,if_pos hdel,if_pos hdel]

/-- Two requests of one mread; the deliveries of the first one cover its first
three bytes, and the file ends two bytes further on. -/
theorem holesZeroed_two_requests : HolesZeroed (fun i k => UInt8.ofNat (10 * i + k)) 1 4 6 9
    ⟨0,[ReadReq.start 1 4 6 [],ReadReq.start 1 20 2 [9,9]],0,0⟩ 0
    [⟨0,⟨1,2⟩⟩,⟨1,⟨0,2⟩⟩,⟨0,⟨0,1⟩⟩] := by
  refine (holesZeroed_iff_gapless (by decide) ⟨by decide,by decide,?_⟩).mpr (.inr ⟨?_,by decide⟩)
  · intro d hd hne
    simp only [mem_cons,not_mem_nil,or_false] at hd
    rcases hd with rfl | rfl | rfl
    · exact absurd rfl hne
    · exact ⟨_,rfl,by decide⟩
    · exact absurd rfl hne
  · intro x j y hxj hjy hx hy
    rw [show rangesOf 0 [⟨0,⟨1,2⟩⟩,⟨1,⟨0,2⟩⟩,⟨0,⟨0,1⟩⟩] = [⟨1,2⟩,⟨0,1⟩] by decide] at hx hy ⊢
    simp only [Delivered,Span.Mem,mem_cons,not_mem_nil,or_false,exists_eq_or_imp,
      exists_eq_left] at hx hy ⊢
    omega

/-- One delivered byte in the middle of a request of four: the byte in front of it
is reported with what the buffer held before. -/
theorem leading_hole_not_zeroed : ¬ HolesZeroed (fun _ _ => 7) 1 0 4 8
    ⟨0,[ReadReq.start 1 0 4 []],0,0⟩ 0 [⟨0,⟨1,1⟩⟩] := by
  intro h
  obtain ⟨out,hout,-,hn,hbytes⟩ := h [255,255,255,255] rfl
  have hbuf := congrArg (Option.map ReadReq.buf) hout
  have hfirst := hbytes 0 (by rw [hn]; decide)
  rw [← some.inj hbuf] at hfirst
  exact absurd hfirst (by decide)

end UnifyFS.ReadHoles
