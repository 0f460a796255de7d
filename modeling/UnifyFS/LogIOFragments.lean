import UnifyFS.LogIORuns

/-!
# Freeing an allocation piece by piece

Unlinking a file frees the extents that are left of its writes, not the
allocations themselves: `unifyfs_logio_free` is called with contiguous pieces of
one allocation. Each call rounds its piece to whole chunks on its own, starting
at the chunk of its first byte. Pieces that all start on chunk boundaries behave
like allocations of their own, so freeing them in any order is the same as
freeing the allocation. A piece that starts inside a chunk shares this chunk with
the piece before it, and the byte count of the header is then reduced twice for
one chunk.
-/
namespace UnifyFS.LogIOFragments
open MachineWords Slotmap LogIO Spans GuardedRuns LogIOInvariant LogIORuns List Option

def piecesFrom (lo : ℕ) : List ℕ → List Span
  | [] => []
  | n :: ns => ⟨lo,n⟩ :: piecesFrom (lo + n) ns

def freePieces : LogioContext → List Span → Option LogioContext
  | ctx, [] => some ctx
  | ctx, p :: ps => (unifyfsLogioFree ctx p.lo p.len).bind fun out => freePieces out.2 ps

def regionChunk (r : Option LogHeader) : ℕ := (r.map LogHeader.chunkSz).getD 1

/-- A log offset that is the first byte of a chunk of its region. -/
def OnBoundary (ctx : LogioContext) (x : ℕ) : Prop :=
  if x < ctx.memSize then regionChunk ctx.shmem ∣ x
  else regionChunk ctx.spillHdr ∣ x - ctx.memSize

instance (ctx : LogioContext) (x : ℕ) : Decidable (OnBoundary ctx x) :=
  inferInstanceAs (Decidable (ite _ _ _))

def RegionBalanced (r : Option LogHeader) : Prop :=
  ∀ h, r = some h → h.reservedSz = h.chunkSz * h.chunkmap.usedSlots

/-- Every chunk of `part` is marked as `used` says. -/
def RegionMarked (r : Option LogHeader) (part : Span) (used : Bool) : Prop :=
  ∀ h, r = some h → ∀ i, (chunkSpan h.chunkSz part).Mem i → h.chunkmap.used i = used

def RegionUnlocked (r : Option LogHeader) : Prop := ∀ h, r = some h → h.updating = false

def Unlocked (ctx : LogioContext) : Prop :=
  RegionUnlocked ctx.shmem ∧ RegionUnlocked ctx.spillHdr

/-- The byte counts of both headers agree with their chunk maps. -/
def Balanced (ctx : LogioContext) : Prop :=
  RegionBalanced ctx.shmem ∧ RegionBalanced ctx.spillHdr

def Marked (memSz : ℕ) (ctx : LogioContext) (a : Span) (used : Bool) : Prop :=
  RegionMarked ctx.shmem (memPart memSz a) used ∧ RegionMarked ctx.spillHdr (spillPart memSz a) used

/-- Freeing the pieces in this order returns, keeps both headers balanced after
every call, releases every chunk of `a` and keeps all chunks of the others. -/
structure FreedCleanly (ctx : LogioContext) (a : Span) (others order : List Span) : Prop where
  balanced : ∀ k, ∃ c, freePieces ctx (order.take k) = some c ∧ Balanced c
  released : ∃ c, freePieces ctx order = some c ∧ Marked ctx.memSize c a false ∧
    ∀ b ∈ others, Marked ctx.memSize c b true

variable {i chunkSz lo : ℕ} {lens : List ℕ} {ctx : LogioContext} {a : Span} {others : List Span}

theorem bytesToChunks_add_of_dvd {j : ℕ} (hc : 0 < chunkSz) (hi : chunkSz ∣ i) :
    bytesToChunks (i + j) chunkSz = i / chunkSz + bytesToChunks j chunkSz := by
  obtain ⟨q,rfl⟩ := hi
  unfold bytesToChunks
  simp only [Nat.mul_add_mod,Nat.mul_add_div hc,Nat.mul_div_cancel_left _ hc]
  split_ifs <;> omega

theorem bytesToChunks_of_dvd (hi : chunkSz ∣ i) :
    bytesToChunks i chunkSz = i / chunkSz := by
  simp [bytesToChunks,Nat.mod_eq_zero_of_dvd hi]

section Split
variable {h : LogHeader} {r : Option LogHeader} {part : Span → Span} {l others : List Span}
  {a u v : Span} {memSz spillSz : ℕ} {ctx : LogioContext} {lo n m : ℕ}

theorem headerInv_split {q i j : ℕ} (hi : HeaderInv h (⟨q,i + j⟩ :: l)) :
    HeaderInv h (⟨q,i⟩ :: ⟨q + i,j⟩ :: l) := by
  have hcov : Covers h.chunkmap.used h.totalSlots ([⟨q,i⟩,⟨q + i,j⟩] ++ l) := by
    refine hi.covers.refine ?_ fun x => ?_
    · simp [Span.apart_iff]
    · simp only [mem_cons,not_mem_nil,or_false,exists_eq_or_imp,exists_eq_left,Span.Mem]
      omega
  have hused := hi.used
  have hfits := hi.fits
  simp only [total_cons] at hused hfits
  exact ⟨hcov,by simp only [total_cons]; omega,by simp only [total_cons]; omega,hi.reserved⟩

/-- How the range of an allocation in one region is cut in two: the cut is not
inside it, or it is on a chunk boundary of the region. -/
def CutIn (r : Option LogHeader) (a u v : Span) : Prop :=
  (u.len = 0 ∧ v = a) ∨ (v.len = 0 ∧ u = a) ∨
  (0 < u.len ∧ u.lo = a.lo ∧ v.lo = a.lo + u.len ∧ a.len = u.len + v.len ∧ regionChunk r ∣ v.lo)

theorem regionInv_split (hi : RegionInv r part (a :: others))
    (hc : CutIn r (part a) (part u) (part v)) : RegionInv r part (u :: v :: others) := by
  have htail : ∀ {b}, part b = part a → RegionInv r part (b :: others) := by
    intro b hb
    cases r with
    | none => simpa [RegionInv,hb] using hi
    | some h => simpa [RegionInv,hb] using hi
  rcases hc with ⟨hu,hv⟩ | ⟨hv,hu⟩ | ⟨hpos,hlo,hvlo,hlen,hdvd⟩
  · exact (htail hv).skip hu
  · exact ((htail hu).skip hv).perm (List.Perm.swap _ _ _)
  · cases r with
    | none => exact absurd (hi a mem_cons_self) (by omega)
    | some h =>
      have ha := hi.2 a mem_cons_self (by omega)
      have hv := hdvd
      have hu : h.chunkSz ∣ (part u).len := by
        rw [hvlo] at hv
        exact (Nat.dvd_add_right ha).mp hv
      have hspan : chunkSpan h.chunkSz (part a) = ⟨(part u).lo / h.chunkSz,
          (part u).len / h.chunkSz + bytesToChunks (part v).len h.chunkSz⟩ := by
        rw [chunkSpan,hlo,hlen,bytesToChunks_add_of_dvd h.chunk_pos hu]
      have hspanu : chunkSpan h.chunkSz (part u) =
          ⟨(part u).lo / h.chunkSz,(part u).len / h.chunkSz⟩ := by
        rw [chunkSpan,bytesToChunks_of_dvd hu]
      have hspanv : chunkSpan h.chunkSz (part v) = ⟨(part u).lo / h.chunkSz +
          (part u).len / h.chunkSz,bytesToChunks (part v).len h.chunkSz⟩ := by
        obtain ⟨q,hq⟩ := ha
        rw [chunkSpan,hvlo,hlo,hq,Nat.mul_add_div h.chunk_pos,
          Nat.mul_div_cancel_left _ h.chunk_pos]
      have hinv := hi.1
      rw [map_cons,hspan] at hinv
      refine ⟨?_,?_⟩
      · rw [map_cons,map_cons,hspanu,hspanv]
        exact headerInv_split hinv
      · intro b hb hb'
        simp only [mem_cons] at hb
        rcases hb with rfl | rfl | hb
        · rwa [hlo]
        · exact hv
        · exact hi.2 b (mem_cons_of_mem _ hb) hb'

theorem memPart_cut (hn : 0 < n) (hb : OnBoundary ctx (lo + n)) :
    CutIn ctx.shmem (memPart ctx.memSize ⟨lo,n + m⟩) (memPart ctx.memSize ⟨lo,n⟩)
      (memPart ctx.memSize ⟨lo + n,m⟩) := by
  simp only [CutIn,memPart_eq,Span.mk.injEq,true_and]
  by_cases hcut : lo + n < ctx.memSize
  · rw [OnBoundary,if_pos hcut] at hb
    exact .inr (.inr ⟨by omega,by omega,by omega,hb⟩)
  · exact .inr (.inl ⟨by omega,by omega⟩)

theorem spillPart_cut (hn : 0 < n) (hb : OnBoundary ctx (lo + n)) :
    CutIn ctx.spillHdr (spillPart ctx.memSize ⟨lo,n + m⟩) (spillPart ctx.memSize ⟨lo,n⟩)
      (spillPart ctx.memSize ⟨lo + n,m⟩) := by
  simp only [CutIn,spillPart_eq,Span.mk.injEq,true_and]
  by_cases hcut : lo + n ≤ ctx.memSize
  · exact .inl ⟨by omega,by omega,by omega⟩
  · rw [OnBoundary,if_neg (by omega)] at hb
    exact .inr (.inr ⟨by omega,by omega,by omega,hb⟩)

/-- Two pieces that meet on a chunk boundary can stand for the allocation. -/
theorem logInv_split (hi : LogInv memSz spillSz ctx (⟨lo,n + m⟩ :: others)) (hn : 0 < n)
    (hm : 0 < m) (hb : OnBoundary ctx (lo + n)) :
    LogInv memSz spillSz ctx (⟨lo,n⟩ :: ⟨lo + n,m⟩ :: others) := by
  have hmem := hi.memSize
  subst hmem
  refine ⟨rfl,hi.spillSize,?_,regionInv_split hi.shmem (memPart_cut hn hb),
    regionInv_split hi.spill (spillPart_cut hn hb)⟩
  exact pos_cons (pos_cons (fun b hb => hi.pos b (mem_cons_of_mem _ hb)) hm) hn

theorem logInv_pieces {lens : List ℕ} (hi : LogInv memSz spillSz ctx (⟨lo,lens.sum⟩ :: others))
    (hpos : ∀ n ∈ lens, 0 < n) (hb : ∀ p ∈ piecesFrom lo lens, OnBoundary ctx p.lo) :
    LogInv memSz spillSz ctx (piecesFrom lo lens ++ others) := by
  induction lens generalizing lo others with
  | nil => exact absurd (hi.pos _ mem_cons_self) (by simp)
  | cons n ns ih =>
    cases ns with
    | nil => simpa [piecesFrom] using hi
    | cons m ms =>
      have hn := hpos n mem_cons_self
      have hm := hpos m (mem_cons_of_mem _ mem_cons_self)
      rw [sum_cons] at hi
      have hcut := logInv_split hi hn (by rw [sum_cons]; omega)
        (hb ⟨lo + n,m⟩ (by simp [piecesFrom]))
      -- The first piece joins the others while the rest is cut further.
      have hrest := ih (hcut.perm (List.Perm.swap _ _ _))
        (fun k hk => hpos k (mem_cons_of_mem _ hk))
        (fun p hp => hb p (mem_cons_of_mem _ hp))
      refine hrest.perm ?_
      exact perm_middle

end Split

section Return
variable {r r' : Option LogHeader} {part : Span} {rc rc' : Rc} {memSz spillSz : ℕ}
  {ctx ctx' : LogioContext} {a : Span} {live others order : List Span} {offset size : ℕ}

theorem freeChunks_eq {h h' : LogHeader} (hf : freeChunks h offset size = some (rc,h')) :
    h' = { h with
      chunkmap := (slotmapRelease h.chunkmap (offset / h.chunkSz) (bytesToChunks size h.chunkSz)).2
      reservedSz := wordSub h.reservedSz (h.chunkSz * bytesToChunks size h.chunkSz)
      updating := false } := by
  unfold freeChunks at hf
  split at hf
  · simp at hf
  · next g hg =>
    obtain ⟨-,rfl⟩ := lockLogHeader_eq_some hg
    exact (Prod.mk.inj (some.inj hf)).2.symm

theorem freeRegion_eq_some (hs : 0 < size) (hf : freeRegion r offset size rc = some (rc',r')) :
    ∃ h h', r = some h ∧ r' = some h' ∧ freeChunks h offset size = some (rc',h') := by
  unfold freeRegion at hf
  rw [if_neg (by omega)] at hf
  cases r with
  | none => simp at hf
  | some h =>
    obtain ⟨⟨c,h'⟩,hc,heq⟩ := map_eq_some_iff.mp hf
    obtain ⟨rfl,rfl⟩ := Prod.mk.inj heq
    exact ⟨h,h',rfl,rfl,hc⟩

theorem freeRegion_shape (hf : freeRegion r part.lo part.len rc = some (rc',r')) :
    (RegionUnlocked r → RegionUnlocked r') ∧
      r'.map LogHeader.chunkSz = r.map LogHeader.chunkSz ∧ regionSize r' = regionSize r := by
  rcases Nat.eq_zero_or_pos part.len with hz | hpos
  · unfold freeRegion at hf
    rw [if_pos hz] at hf
    obtain ⟨-,rfl⟩ := Prod.mk.inj (some.inj hf)
    exact ⟨id,rfl,rfl⟩
  · obtain ⟨h,h',rfl,rfl,hc⟩ := freeRegion_eq_some hpos hf
    obtain rfl := freeChunks_eq hc
    refine ⟨fun _ g hg => ?_,rfl,rfl⟩
    cases hg
    rfl

theorem freeRegion_returns (rc : Rc) (hu : RegionUnlocked r) (hr : r = none → part.len = 0) :
    ∃ out, freeRegion r part.lo part.len rc = some out := by
  refine isSome_iff_exists.mp ?_
  unfold freeRegion
  split_ifs with hz
  · rfl
  · cases r with
    | none => exact absurd (hr rfl) hz
    | some h => simp [freeChunks,lockLogHeader,hu h rfl]

def SameChunks (ctx ctx' : LogioContext) : Prop :=
  ctx'.shmem.map LogHeader.chunkSz = ctx.shmem.map LogHeader.chunkSz ∧
    ctx'.spillHdr.map LogHeader.chunkSz = ctx.spillHdr.map LogHeader.chunkSz

theorem none_len {part : Span → Span} (hi : RegionInv r part (a :: live)) :
    r = none → (part a).len = 0 := by
  rintro rfl
  exact hi a mem_cons_self

theorem free_returns (hi : LogInv memSz spillSz ctx (a :: live)) (hu : Unlocked ctx) :
    ∃ ctx', unifyfsLogioFree ctx a.lo a.len = some (Rc.success,ctx') ∧
      LogInv memSz spillSz ctx' live ∧ Unlocked ctx' ∧ SameChunks ctx ctx' := by
  obtain ⟨⟨rc₁,sh⟩,hm⟩ := freeRegion_returns Rc.success hu.1 (none_len hi.shmem)
  obtain ⟨⟨rc₂,sp⟩,hs⟩ := freeRegion_returns rc₁ hu.2 (none_len hi.spill)
  have hm' := freeRegion_shape hm
  have hs' := freeRegion_shape hs
  rw [← hi.memSize] at hm hs
  have hf : unifyfsLogioFree ctx a.lo a.len = some (rc₂,⟨sh,sp⟩) :=
    (unifyfsLogioFree_iff (hi.pos a mem_cons_self)).mpr ⟨rc₁,hm,hs⟩
  obtain ⟨hinv,rfl⟩ := free_inv hi hf
  exact ⟨⟨sh,sp⟩,hf,hinv,⟨hm'.1 hu.1,hs'.1 hu.2⟩,hm'.2.1,hs'.2.1⟩

theorem freePieces_returns (hi : LogInv memSz spillSz ctx (order ++ others))
    (hu : Unlocked ctx) : ∃ c, freePieces ctx order = some c ∧
      LogInv memSz spillSz c others ∧ SameChunks ctx c := by
  induction order generalizing ctx with
  | nil => exact ⟨ctx,rfl,hi,rfl,rfl⟩
  | cons p ps ih =>
    obtain ⟨ctx',hf,hinv,hu',hsame⟩ := free_returns hi hu
    obtain ⟨c,hc,hcinv,hcsame⟩ := ih hinv hu'
    refine ⟨c,?_,hcinv,hcsame.1.trans hsame.1,hcsame.2.trans hsame.2⟩
    rw [freePieces,hf]
    exact hc

theorem balanced_of_inv (hi : LogInv memSz spillSz ctx live) : Balanced ctx := by
  constructor
  · intro h hh
    have hreg := hi.shmem
    rw [hh] at hreg
    exact hreg.1.reserved
  · intro h hh
    have hreg := hi.spill
    rw [hh] at hreg
    exact hreg.1.reserved

theorem regionMarked_released {part : Span → Span} (hi : RegionInv r part (a :: others))
    (hi' : RegionInv r' part others) (hc : r'.map LogHeader.chunkSz = r.map LogHeader.chunkSz) :
    RegionMarked r' (part a) false := by
  rintro h' rfl i hm
  cases r with
  | none => simp at hc
  | some h =>
    have hsz := some.inj hc
    by_contra hset
    obtain ⟨s,hs,hsi⟩ := (hi'.1.covers.bits i).mp (by simpa using hset)
    rw [hsz] at hs hm
    have hapart := hi.1.covers.apart
    rw [map_cons,pairwise_cons] at hapart
    exact hapart.1 s hs i hm hsi

theorem regionMarked_live {part : Span → Span} (hi : RegionInv r part live) (ha : a ∈ live) :
    RegionMarked r (part a) true := by
  rintro h rfl i hm
  exact hi.1.covers.bit_of_mem (mem_map_of_mem ha) hm

/-- Pieces that start on chunk boundaries can be freed in any order. -/
theorem freedCleanly_of_boundaries {lens : List ℕ}
    (hi : LogInv memSz spillSz ctx (a :: others)) (hu : Unlocked ctx)
    (hpos : ∀ n ∈ lens, 0 < n) (hsum : lens.sum = a.len)
    (hb : ∀ p ∈ piecesFrom a.lo lens, OnBoundary ctx p.lo)
    (hp : order.Perm (piecesFrom a.lo lens)) : FreedCleanly ctx a others order := by
  have hpieces : LogInv memSz spillSz ctx (order ++ others) := by
    refine (logInv_pieces ?_ hpos hb).perm (hp.symm.append_right others)
    rw [hsum]
    exact hi
  constructor
  · intro k
    rw [← take_append_drop k order,append_assoc] at hpieces
    obtain ⟨c,hc,hinv,-⟩ := freePieces_returns hpieces hu
    exact ⟨c,hc,balanced_of_inv hinv⟩
  · obtain ⟨c,hc,hinv,hsame⟩ := freePieces_returns hpieces hu
    have hmem := hi.memSize
    subst hmem
    exact ⟨c,hc,⟨regionMarked_released hi.shmem hinv.shmem hsame.1,
      regionMarked_released hi.spill hinv.spill hsame.2⟩,
      fun b hb => ⟨regionMarked_live hinv.shmem hb,regionMarked_live hinv.spill hb⟩⟩

end Return

section Shared
variable {r r₁ r₂ : Option LogHeader} {part : Span → Span} {a u v : Span} {others : List Span}
  {ctx c : LogioContext}

theorem bytesToChunks_mono {i j chunkSz : ℕ} (hc : 0 < chunkSz) (h : i ≤ j) :
    bytesToChunks i chunkSz ≤ bytesToChunks j chunkSz := by
  have hi := (bytesToChunks_spec i hc).2
  have hj := (bytesToChunks_spec j hc).1
  have hlt : bytesToChunks i chunkSz * chunkSz < (bytesToChunks j chunkSz + 1) * chunkSz := by
    rw [Nat.add_mul]
    omega
  exact Nat.lt_succ_iff.mp (Nat.lt_of_mul_lt_mul_right hlt)

/-- A piece `v` that starts inside the last chunk of the piece `u` before it:
once `u` is freed, the free of `v` is refused and still reduces the byte count. -/
theorem region_unbalanced (hi : RegionInv r part (a :: others)) (hu : 0 < u.len) (hv : 0 < v.len)
    (huv : v.lo = u.lo + u.len) (hlo : (part a).lo ≤ u.lo)
    (hhi : v.lo + v.len ≤ (part a).lo + (part a).len)
    (hub : regionChunk r ∣ u.lo) (hvb : ¬ regionChunk r ∣ v.lo) {rc rc₁ rc' rc₂ : Rc}
    (hf : freeRegion r u.lo u.len rc = some (rc₁,r₁))
    (hf' : freeRegion r₁ v.lo v.len rc' = some (rc₂,r₂)) : ¬ RegionBalanced r₂ := by
  obtain ⟨h,h₁,rfl,rfl,hc⟩ := freeRegion_eq_some hu hf
  obtain ⟨g,h₂,hh,rfl,hc'⟩ := freeRegion_eq_some hv hf'
  cases hh
  obtain rfl := freeChunks_eq hc
  obtain rfl := freeChunks_eq hc'
  intro hbal
  have hbal := hbal _ rfl
  dsimp only at hbal
  have hdvd : h.chunkSz ∣ u.lo := hub
  have hndvd : ¬ h.chunkSz ∣ v.lo := hvb
  have hpos := h.chunk_pos
  have hpart : (part a).Mem u.lo := ⟨hlo,by omega⟩
  have hset := hi.1.covers.bit_of_mem mem_cons_self
      (chunkSpan_mem hpos (hi.2 a mem_cons_self (by omega)) hpart)
  obtain ⟨-,hused,hbits⟩ := slotmapRelease_spec (bytesToChunks u.len h.chunkSz) hset
  -- The chunk in which `v` starts was released with `u`.
  have hclear : (slotmapRelease h.chunkmap (u.lo / h.chunkSz)
      (bytesToChunks u.len h.chunkSz)).2.used (v.lo / h.chunkSz) = false := by
    have hle : u.lo / h.chunkSz ≤ v.lo / h.chunkSz := Nat.div_le_div_right (by omega)
    have hlt : v.lo / h.chunkSz < u.lo / h.chunkSz + bytesToChunks u.len h.chunkSz := by
      obtain ⟨q,hq⟩ := hdvd
      rw [Nat.div_lt_iff_lt_mul hpos,hq,Nat.mul_div_cancel_left _ hpos,Nat.add_mul,Nat.mul_comm q]
      have hs := (bytesToChunks_spec u.len hpos).1
      refine lt_of_le_of_ne (by omega) fun heq => hndvd ⟨q + bytesToChunks u.len h.chunkSz,?_⟩
      rw [heq,Nat.mul_add,Nat.mul_comm h.chunkSz (bytesToChunks _ _)]
    rw [hbits,decide_eq_true ⟨hle,hlt⟩,Bool.not_true,Bool.and_false]
  rw [slotmapRelease_unset _ hclear,hused,hi.1.reserved] at hbal
  have hk : bytesToChunks u.len h.chunkSz ≤ h.chunkmap.usedSlots := by
    rw [hi.1.used,map_cons]
    exact Nat.le_trans (bytesToChunks_mono hpos (by omega)) (Nat.le_add_right _ _)
  rw [wordSub_of_le hk,wordSub_of_le (Nat.mul_le_mul_left _ hk),← Nat.mul_sub] at hbal
  refine wordSub_ne ?_ ?_ hbal
  · exact Nat.mul_pos hpos (bytesToChunks_pos hpos hv)
  · have hlast : (part a).Mem (v.lo + v.len - 1) := ⟨by omega,by omega⟩
    have hsize : v.lo + v.len - 1 < h.dataSz := hi.lt_size mem_cons_self hlast
    have hlt := h.data_lt
    have hone : h.chunkSz ≤ h.dataSz := by
      rw [h.data_eq]
      refine Nat.le_mul_of_pos_left _ (Nat.pos_of_ne_zero fun hz => ?_)
      rw [h.data_eq,hz] at hsize
      omega
    have hs := (bytesToChunks_spec v.len hpos).2
    rw [Nat.mul_comm]
    unfold wordSize
    omega

theorem freePieces_pair {X Y : Span} (hf : freePieces ctx [X,Y] = some c) : ∃ rc rc' c₁,
      unifyfsLogioFree ctx X.lo X.len = some (rc,c₁) ∧
      unifyfsLogioFree c₁ Y.lo Y.len = some (rc',c) := by
  obtain ⟨⟨rc,c₁⟩,h₁,hf⟩ := bind_eq_some_iff.mp hf
  obtain ⟨⟨rc',c₂⟩,h₂,hf⟩ := bind_eq_some_iff.mp hf
  cases hf
  exact ⟨rc,rc',c₁,h₁,h₂⟩

theorem pair_unbalanced {memSz spillSz x n m : ℕ} (hi : LogInv memSz spillSz ctx (a :: others))
    (hn : 0 < n) (hm : 0 < m) (hlo : a.lo ≤ x) (hhi : x + n + m ≤ a.lo + a.len)
    (hx : OnBoundary ctx x) (hxn : ¬ OnBoundary ctx (x + n))
    (hf : freePieces ctx [⟨x,n⟩,⟨x + n,m⟩] = some c) : ¬ Balanced c := by
  obtain ⟨rc,rc',c₁,h₁,h₂⟩ := freePieces_pair hf
  obtain ⟨_,hm₁,hs₁⟩ := (unifyfsLogioFree_iff hn).mp h₁
  obtain ⟨_,hm₂,hs₂⟩ := (unifyfsLogioFree_iff hm).mp h₂
  have hsize : c₁.memSize = ctx.memSize := (freeRegion_shape hm₁).2.2
  rw [hsize] at hm₂ hs₂
  have hmem := hi.memSize
  unfold OnBoundary at hx hxn
  rintro ⟨hbm,hbs⟩
  by_cases hcut : x + n < ctx.memSize
  · rw [if_pos hcut] at hxn
    rw [if_pos (by omega)] at hx
    refine region_unbalanced hi.shmem ?_ ?_ ?_ ?_ ?_ ?_ ?_ hm₁ hm₂ hbm <;>
      simp only [memPart_eq] <;> omega
  · rw [if_neg hcut] at hxn
    have hne : x + n - ctx.memSize ≠ 0 := fun hz => hxn (by rw [hz]; exact Nat.dvd_zero _)
    have hstart : regionChunk ctx.spillHdr ∣ x - ctx.memSize := by
      split_ifs at hx with hlt
      · rw [Nat.sub_eq_zero_of_le hlt.le]
        exact Nat.dvd_zero _
      · exact hx
    refine region_unbalanced hi.spill ?_ ?_ ?_ ?_ ?_ ?_ ?_ hs₁ hs₂ hbs <;>
      simp only [spillPart_eq] <;> omega

end Shared

theorem piecesFrom_mem {p : Span} (hp : p ∈ piecesFrom lo lens) :
    p.len ∈ lens ∧ lo ≤ p.lo ∧ p.lo + p.len ≤ lo + lens.sum := by
  induction lens generalizing lo with
  | nil => simp [piecesFrom] at hp
  | cons n ns ih =>
    rw [sum_cons]
    rcases mem_cons.mp hp with rfl | hp
    · exact ⟨mem_cons_self,le_rfl,by simp only; omega⟩
    · obtain ⟨hmem,hlo,hhi⟩ := ih hp
      exact ⟨mem_cons_of_mem _ hmem,by omega,by omega⟩

/-- The first piece that does not start on a boundary, with the one before it. -/
theorem first_off_boundary (hlo : OnBoundary ctx lo)
    (hn : ¬ ∀ p ∈ piecesFrom lo lens, OnBoundary ctx p.lo) :
    ∃ pre x n m post, piecesFrom lo lens = pre ++ ⟨x,n⟩ :: ⟨x + n,m⟩ :: post ∧
      OnBoundary ctx x ∧ ¬ OnBoundary ctx (x + n) := by
  induction lens generalizing lo with
  | nil => exact absurd (by simp [piecesFrom]) hn
  | cons n ns ih =>
    by_cases hnext : OnBoundary ctx (lo + n)
    · obtain ⟨pre,x,k,m,post,heq,hx,hxn⟩ := ih hnext fun hall => hn fun p hp => by
        rcases mem_cons.mp hp with rfl | hp
        · exact hlo
        · exact hall p hp
      exact ⟨⟨lo,n⟩ :: pre,x,k,m,post,by rw [piecesFrom,heq]; rfl,hx,hxn⟩
    · cases ns with
      | nil => exact absurd (by simpa [piecesFrom] using hlo) hn
      | cons m ms => exact ⟨[],lo,n,m,piecesFrom (lo + n + m) ms,rfl,hlo,hnext⟩

theorem start_dvd {r : Option LogHeader} {part : Span → Span} (hi : RegionInv r part (a :: others))
    (hpos : 0 < (part a).len) :
    regionChunk r ∣ (part a).lo := by
  cases r with
  | none => exact absurd (hi a mem_cons_self) (by omega)
  | some h => exact hi.2 a mem_cons_self hpos

theorem start_onBoundary {memSz spillSz : ℕ} (hi : LogInv memSz spillSz ctx (a :: others)) :
    OnBoundary ctx a.lo := by
  have hmem := hi.memSize
  subst hmem
  have hpos := hi.pos a mem_cons_self
  have hm := start_dvd hi.shmem
  have hs := start_dvd hi.spill
  simp only [memPart_eq,spillPart_eq] at hm hs
  unfold OnBoundary
  split_ifs with hlt
  · exact hm (by omega)
  · exact hs (by omega)

/-- Freeing all pieces of a live allocation, in whatever order, releases exactly
its chunks and keeps the byte counts right if and only if every piece starts on a
chunk boundary. -/
theorem freedCleanly_iff_boundaries {memSz spillSz : ℕ} {ctx : LogioContext} {a : Span}
    {others : List Span} {lens : List ℕ} (hi : LogInv memSz spillSz ctx (a :: others))
    (hu : Unlocked ctx) (hpos : ∀ n ∈ lens, 0 < n) (hsum : lens.sum = a.len) :
    (∀ order : List Span, order.Perm (piecesFrom a.lo lens) → FreedCleanly ctx a others order) ↔
      ∀ p ∈ piecesFrom a.lo lens, OnBoundary ctx p.lo := by
  refine ⟨fun hall => ?_,fun hb order hp => freedCleanly_of_boundaries hi hu hpos hsum hb hp⟩
  by_contra hn
  obtain ⟨pre,x,n,m,post,heq,hx,hxn⟩ := first_off_boundary (start_onBoundary hi) hn
  have hX : (⟨x,n⟩ : Span) ∈ piecesFrom a.lo lens := by simp [heq]
  have hY : (⟨x + n,m⟩ : Span) ∈ piecesFrom a.lo lens := by simp [heq]
  obtain ⟨hnl,hlo,-⟩ := piecesFrom_mem hX
  obtain ⟨hml,-,hhi⟩ := piecesFrom_mem hY
  have hperm : (⟨x,n⟩ :: ⟨x + n,m⟩ :: (pre ++ post)).Perm (piecesFrom a.lo lens) := by
    rw [heq]
    exact ((perm_middle.trans (List.Perm.cons _ perm_middle)).symm)
  obtain ⟨c,hc,hbal⟩ := (hall _ hperm).balanced 2
  exact pair_unbalanced hi (hpos _ hnl) (hpos _ hml) hlo (by rw [← hsum]; exact hhi) hx hxn hc hbal

def chunkLog : LogioContext :=
  ⟨initLogHeader 4128 4 4096 (by norm_num) (by norm_num),
    initLogHeader 4128 4 4096 (by norm_num) (by norm_num)⟩

theorem chunkLog_fresh : chunkLog.Fresh :=
  ⟨fun _ => initLogHeaderLoop_fresh,fun _ => initLogHeaderLoop_fresh⟩

/-- An allocation that was joined over the border, freed in two aligned pieces. -/
theorem freedCleanly_chunkLog : ∃ ctx, LogInv 32 32 ctx [⟨28,12⟩,⟨0,28⟩] ∧
    ∀ order : List Span, order.Perm (piecesFrom 28 [4,8]) →
      FreedCleanly ctx ⟨28,12⟩ [⟨0,28⟩] order := by
  have hrun : (exec logStep logGuard ⟨chunkLog,[]⟩ [.alloc 28,.alloc 12]).any
      (fun s => decide (s.live = [⟨28,12⟩,⟨0,28⟩] ∧ s.ctx.shmem.all (!·.updating) ∧
        s.ctx.spillHdr.all (!·.updating) ∧
        ∀ p ∈ piecesFrom 28 [4,8], OnBoundary s.ctx p.lo)) = true := by decide +kernel
  obtain ⟨⟨ctx,live⟩,hr,hs⟩ := Run.exists_of_exec hrun
  obtain ⟨hlive,hmem,hspill,hb⟩ := of_decide_eq_true hs
  have hinv := run_inv chunkLog_fresh hr
  obtain rfl : live = _ := hlive
  refine ⟨ctx,hinv,(freedCleanly_iff_boundaries hinv ⟨?_,?_⟩ (by decide) rfl).mpr hb⟩
  · intro h hh
    simpa [show ctx.shmem = some h from hh] using hmem
  · intro h hh
    simpa [show ctx.spillHdr = some h from hh] using hspill

/-- Pieces of two and six bytes of an allocation of two chunks: the second chunk
stays marked and the byte count of the header wraps around. -/
theorem fragment_leaks_chunk : ∃ s c,
    Run logStep (fun s op => logGuard s op = true) ⟨chunkLog,[]⟩ [.alloc 8] s ∧
    s.live = [⟨0,8⟩] ∧ freePieces s.ctx (piecesFrom 0 [2,6]) = some c ∧
    ¬ Balanced c ∧ ¬ Marked s.ctx.memSize c ⟨0,8⟩ false := by
  have hrun : (exec logStep logGuard ⟨chunkLog,[]⟩ [.alloc 8]).any
      (fun s => decide (s.live = [⟨0,8⟩] ∧ (chunkSpan 4 (memPart s.ctx.memSize ⟨0,8⟩)).Mem 1 ∧
        (freePieces s.ctx (piecesFrom 0 [2,6])).any fun c => c.shmem.any fun h =>
        decide (h.chunkSz = 4 ∧ h.chunkmap.used 1 = true ∧
          h.reservedSz ≠ h.chunkSz * h.chunkmap.usedSlots))) = true := by decide +kernel
  obtain ⟨s,hr,hs⟩ := Run.exists_of_exec hrun
  obtain ⟨hlive,hmem,hfree⟩ := of_decide_eq_true hs
  cases hc : freePieces s.ctx (piecesFrom 0 [2,6]) with
  | none => simp [hc] at hfree
  | some c =>
    cases hh : c.shmem with
    | none => simp [hc,hh] at hfree
    | some h =>
      simp only [hc,hh,any_some,decide_eq_true_eq] at hfree
      obtain ⟨hsz,hused,hne⟩ := hfree
      refine ⟨s,c,hr,hlive,hc,fun hbal => hne (hbal.1 h hh),fun hmark => ?_⟩
      have hclear := hmark.1 h hh 1 (by rw [hsz]; exact hmem)
      rw [hused] at hclear
      exact Bool.noConfusion hclear

end UnifyFS.LogIOFragments
