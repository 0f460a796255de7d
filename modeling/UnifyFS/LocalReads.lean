import UnifyFS.GfidReads

/-!
# Reads from the local tree

The copy loop of `service_local_reqs` fills the buffer of a request from the logs that
the nodes of a segment tree name. If the tree covers the request, every byte of the
buffer is the byte that the tree stands for.
-/
namespace UnifyFS.LocalReads
open MachineWords ByteBuffers ClientRead GfidReads List Option

/-- A log context that works and reads what is asked for. -/
def ReadsLog (c : ReadClient) (logRead : ℕ → ℕ → ℕ → Rc × List UInt8)
    (log : ℕ → BitVec 64 → UInt8) (cl : ℕ) : Prop :=
  c.logAvailable cl = true ∧ ∀ off len,
    logRead cl off len =
      (Rc.success,(List.range len).map fun k => log cl (BitVec.ofNat 64 (off + k)))

def nodeByte (log : ℕ → BitVec 64 → UInt8) (n : SegNode) (b : ℕ) : UInt8 :=
  log n.clientId (BitVec.ofNat 64 (n.ptr + (b - n.start)))

section Copy
variable {c : ReadClient} {logRead : ℕ → ℕ → ℕ → Rc × List UInt8} {log : ℕ → BitVec 64 → UInt8}
  {req : ReadReq} {byte : ℕ → Option UInt8} {n : SegNode}

theorem getExtentCoverage_eq (h : Meets req n) (hlen : 0 < req.length) :
    ∃ lo hi, getExtentCoverage req n.start (n.stop + 1 - n.start) =
        some (lo - req.offset,lo - n.start,hi + 1 - lo) ∧
      req.offset ≤ lo ∧ n.start ≤ lo ∧ lo ≤ hi ∧ hi ≤ n.stop ∧ hi < req.offset + req.length ∧
      ∀ b, req.offset ≤ b → b < req.offset + req.length → n.start ≤ b → b ≤ n.stop →
        lo ≤ b ∧ b ≤ hi := by
  refine ⟨max req.offset n.start,min (req.offset + req.length - 1) n.stop,
    getExtentCoverage_overlap h,?_⟩
  obtain ⟨hle,hoff,hstart⟩ := h
  refine ⟨by omega,by omega,by omega,by omega,by omega,?_⟩
  omega

theorem serveExtent_bytes (hlog : ReadsLog c logRead log n.clientId) (h : Meets req n)
    (hlen : 0 < req.length) (hbuf : req.buf.length = req.length)
    (hbyte : ∀ b, n.start ≤ b → b ≤ n.stop → some (nodeByte log n b) = byte b) :
    ∃ done, serveExtent c logRead req n = some done ∧ done.ident = req.ident ∧
      done.buf.length = req.length ∧ ∀ k < req.length, done.buf[k]? = byte (req.offset + k) ∨
          done.buf[k]? = req.buf[k]? ∧ ¬ (n.start ≤ req.offset + k ∧ req.offset + k ≤ n.stop) := by
  obtain ⟨lo,hi,hcov,hlo,hnlo,hle,hhi,hend,hall⟩ := getExtentCoverage_eq h hlen
  have hsome : ∃ done, serveExtent c logRead req n = some done ∧
      done.buf = overwrite 0 req.buf (lo - req.offset) ((List.range (hi + 1 - lo)).map fun k =>
        log n.clientId (BitVec.ofNat 64 (n.ptr + (lo - n.start) + k))) := by
    unfold serveExtent
    rw [hcov]
    simp only [map_some,hlog.1,hlog.2,if_true]
    exact ⟨_,rfl,(coverage_frame _ _ _).2.2.2⟩
  obtain ⟨done,hdone,hdbuf⟩ := hsome
  refine ⟨done,hdone,serveExtent_ident hdone,?_,?_⟩
  · rw [hdbuf,length_overwrite,length_map,length_range]
    omega
  · intro k hk
    have hfit : lo - req.offset + ((List.range (hi + 1 - lo)).map fun k =>
        log n.clientId (BitVec.ofNat 64 (n.ptr + (lo - n.start) + k))).length ≤
          req.buf.length := by
      rw [length_map,length_range]
      omega
    rw [hdbuf,getElem?_overwrite_inside 0 hfit,length_map,length_range]
    split
    · next hin =>
      left
      rw [getElem?_map,getElem?_range (by omega),map_some,
        ← hbyte (req.offset + k) (by omega) (by omega),nodeByte]
      congr 3
      omega
    · next hout =>
      right
      refine ⟨rfl,fun hn => hout ?_⟩
      have := hall (req.offset + k) (by omega) (by omega) hn.1 hn.2
      omega

theorem serveLocal_bytes {segs : List SegNode}
    (hlog : ∀ n ∈ segs, ReadsLog c logRead log n.clientId)
    (h : ∀ n ∈ segs, Meets req n) (hlen : 0 < req.length) (hbuf : req.buf.length = req.length)
    (hbyte : ∀ n ∈ segs, ∀ b, n.start ≤ b → b ≤ n.stop → some (nodeByte log n b) = byte b) :
    ∃ done, serveLocal c logRead segs req = some done ∧ done.buf.length = req.length ∧
      ∀ k < req.length, (req.buf[k]? = byte (req.offset + k) ∨
          ∃ n ∈ segs, n.start ≤ req.offset + k ∧ req.offset + k ≤ n.stop) →
        done.buf[k]? = byte (req.offset + k) := by
  induction segs generalizing req with
  | nil =>
    refine ⟨req,rfl,hbuf,fun k _ hcase => hcase.resolve_right ?_⟩
    rintro ⟨n,hn,-⟩
    cases hn
  | cons n rest ih =>
    rw [forall_mem_cons] at hlog h hbyte
    obtain ⟨u,hu,hident,hulen,hstep⟩ := serveExtent_bytes hlog.1 h.1 hlen hbuf hbyte.1
    have hsame : u.offset = req.offset ∧ u.length = req.length := by
      simp only [ReadReq.ident,Prod.mk.injEq] at hident
      exact ⟨hident.2.1,hident.2.2.1⟩
    obtain ⟨d,hd,hdlen,hbytes⟩ := ih hlog.2 (fun m hm => (h.2 m hm).of_ident hident)
      (by omega) (by omega) hbyte.2
    rw [hsame.1,hsame.2] at hbytes
    refine ⟨d,by simp [serveLocal,hu,hd],by omega,fun k hk hcase => hbytes k hk ?_⟩
    rcases hstep k hk with hnew | ⟨hold,hout⟩
    · exact .inl hnew
    · rw [hold]
      rcases hcase with hcase | ⟨m,hm,hmk⟩
      · exact .inl hcase
      · rcases mem_cons.mp hm with rfl | hm
        · exact absurd hmk hout
        · exact .inr ⟨m,hm,hmk⟩

end Copy

variable {b : ℕ} {t : SegTree} {req : ReadReq}

theorem exists_node_of_expectedStart {segs : List SegNode} {e stop : ℕ}
    (h : expectedStart e segs = some stop) (hlo : e ≤ b) (hhi : b < stop) :
    ∃ n ∈ segs, n.start ≤ b ∧ b ≤ n.stop := by
  induction segs generalizing e with
  | nil =>
    have := some.inj h
    omega
  | cons n rest ih =>
    rw [expectedStart] at h
    split_ifs at h with hle
    by_cases hn : b ≤ n.stop
    · exact ⟨n,mem_cons_self,by omega,hn⟩
    · obtain ⟨m,hm,hmb⟩ := ih h (by omega)
      exact ⟨m,mem_cons_of_mem _ hm,hmb⟩

theorem exists_visited_of_haveLocal (h : haveLocal t req = true) (hlo : req.offset ≤ b)
    (hhi : b < req.offset + req.length) :
    ∃ n ∈ visited t req, n.start ≤ b ∧ b ≤ n.stop := by
  unfold haveLocal at h
  cases hstop : expectedStart req.offset (visited t req) with
  | none => simp [hstop] at h
  | some stop =>
    rw [hstop,any_some,decide_eq_true_eq] at h
    exact exists_node_of_expectedStart hstop hlo (by omega)

theorem haveLocal_bytes {c : ReadClient} {logRead : ℕ → ℕ → ℕ → Rc × List UInt8}
    {log : ℕ → BitVec 64 → UInt8} {byte : ℕ → Option UInt8}
    (hlog : ∀ n ∈ t.nodes, ReadsLog c logRead log n.clientId) (ht : c.extents req.gfid = some t)
    (hlocal : haveLocal t req = true) (hlen : 0 < req.length) (hbuf : req.buf.length = req.length)
    (hbyte : ∀ n ∈ t.nodes, ∀ b, n.start ≤ b → b ≤ n.stop → some (nodeByte log n b) = byte b) :
    ∃ done, serveLocal c logRead (c.segments req) req = some done ∧ done.buf.length = req.length ∧
      ∀ k < req.length, done.buf[k]? = byte (req.offset + k) := by
  have hsegs : c.segments req = visited t req := by
    rw [ReadClient.segments,ht]
    rfl
  have hmeets : ∀ n ∈ c.segments req, Meets req n := fun n hn => meets_of_mem_segments hn
  have hnodes : ∀ n ∈ c.segments req, n ∈ t.nodes := by
    intro n hn
    rw [hsegs] at hn
    exact mem_nodes_of_mem_visited hn
  obtain ⟨done,hdone,hdlen,hbytes⟩ := serveLocal_bytes (fun n hn => hlog n (hnodes n hn))
    hmeets hlen hbuf fun n hn => hbyte n (hnodes n hn)
  refine ⟨done,hdone,hdlen,fun k hk => hbytes k hk (.inr ?_)⟩
  rw [hsegs]
  exact exists_visited_of_haveLocal hlocal (by omega) (by omega)

end UnifyFS.LocalReads
