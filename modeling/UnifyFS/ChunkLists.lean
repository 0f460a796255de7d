import UnifyFS.ExtentLookup

/-!
# The chunks of a request

`extent_tree_get_chunk_list` goes over the extents that overlap a request twice. The first
time it counts them and looks for gaps between neighbours, the second time it fills an array
of that many chunks. The count is an `unsigned int`, so it is right for fewer than `2 ^ 32`
extents. Then both passes agree with `extentTreeGetChunkList`, whose chunks are shown here to
be the requested bytes that the tree maps.
-/
namespace UnifyFS.ExtentLookup
open MachineWords RangeLists RangeTrees ExtentTree List Option

/-- A request for at least one byte whose last byte has an offset. -/
structure LookupRequest where
  offset : ℕ
  len : ℕ
  one_le : 1 ≤ len
  fits : offset + len ≤ wordSize

def LookupRequest.Holds (r : LookupRequest) (b : ℕ) : Prop := r.offset ≤ b ∧ b < r.offset + r.len

/-- The number of values of the C type `unsigned int`. -/
def uintSize : ℕ := 2 ^ 32

structure FirstPass where
  count : ℕ
  gapFound : Bool
  prevEnd : ℕ
  last : Option Extent

def FirstPass.start : FirstPass := ⟨0,false,0,none⟩

def FirstPass.visit (isFirst : Bool) (p : FirstPass) (next : Extent) : FirstPass where
  count := (p.count + 1) % uintSize
  gapFound := p.gapFound || !isFirst && decide (p.prevEnd + 1 ≠ next.start)
  prevEnd := if p.gapFound then p.prevEnd else next.stop
  last := some next

def firstPass : List Extent → FirstPass
  | [] => .start
  | first :: rest => rest.foldl (FirstPass.visit false) (FirstPass.start.visit true first)

/-- The second pass, into an array with so much room. It has no result when it writes behind the
array. -/
def fillChunks (g : ℤ) (offset len : ℕ) : ℕ → List Extent → Option (List Chunk)
  | _, [] => some []
  | 0, _ :: _ => none
  | room + 1, next :: rest =>
    (fillChunks g offset len room rest).map fun chunks =>
      chunkReqFromExtent g offset len next :: chunks

/-- `extent_tree_get_chunk_list` when its allocations succeed: the number of chunks, the chunks
and whether the request is covered. -/
def getChunkListInPasses (g : ℤ) (t : RangeTree LogLoc) (offset len : ℕ) :
    Option (ℕ × List Chunk × Bool) :=
  let l := overlapping t offset len
  let p := firstPass l
  if p.count = 0 then some (0,[],false)
  else
    match l.head?, p.last with
    | some first, some last =>
      let gapFound := p.gapFound ||
        decide (first.start > offset ∨ last.stop < lastByte offset len)
      (fillChunks g offset len p.count l).map fun chunks => (p.count,chunks,!gapFound)
    | _, _ => none

def Chunk.Holds (c : Chunk) (b : ℕ) : Prop := c.offset ≤ b ∧ b < c.offset + c.nbytes

def Chunk.place (c : Chunk) (b : ℕ) : LogLoc :=
  ⟨c.logOffset + BitVec.ofNat 64 (b - c.offset),c.rank,c.logAppId,c.logClientId⟩

/-- In ascending order and disjoint, inside the request, and with the places of exactly those
requested bytes that the tree maps. -/
structure Answers (t : RangeTree LogLoc) (r : LookupRequest) (chunks : List Chunk) : Prop where
  ordered : chunks.Pairwise fun a b => a.offset + a.nbytes ≤ b.offset
  nonempty : ∀ c ∈ chunks, 0 < c.nbytes
  inside : ∀ c ∈ chunks, ∀ b, c.Holds b → r.Holds b
  mapped : ∀ c ∈ chunks, ∀ b, c.Holds b → contents LogLoc.val t.nodes b = some (c.place b)
  complete : ∀ b, r.Holds b → (contents LogLoc.val t.nodes b).isSome → ∃ c ∈ chunks, c.Holds b

section Passes
variable {l : List Extent} {g : ℤ} {offset len : ℕ}

theorem foldl_visit_count (p : FirstPass) (hp : p.count < uintSize) (rest : List Extent) :
    (rest.foldl (FirstPass.visit false) p).count = (p.count + rest.length) % uintSize := by
  induction rest generalizing p with
  | nil => exact (Nat.mod_eq_of_lt hp).symm
  | cons n rest ih =>
    rw [foldl_cons,ih _ (Nat.mod_lt _ (by decide)),length_cons]
    change ((p.count + 1) % uintSize + rest.length) % uintSize = _
    rw [Nat.mod_add_mod]
    congr 1
    omega

theorem firstPass_count (l : List Extent) : (firstPass l).count = l.length % uintSize := by
  cases l with
  | nil => rfl
  | cons m rest =>
    rw [firstPass,foldl_visit_count _ (Nat.mod_lt _ (by decide)),length_cons,Nat.add_comm]
    rfl

theorem foldl_visit (m : Extent) (p : FirstPass) (hlast : p.last = some m)
    (hend : p.gapFound = false → p.prevEnd = m.stop) (rest : List Extent) :
    (rest.foldl (FirstPass.visit false) p).gapFound = (p.gapFound || gapFound (m :: rest)) ∧
      (rest.foldl (FirstPass.visit false) p).last = (m :: rest).getLast? := by
  induction rest generalizing m p with
  | nil => exact ⟨by simp [gapFound],hlast⟩
  | cons n rest ih =>
    have hprev : (p.visit false n).gapFound = false → (p.visit false n).prevEnd = n.stop := by
      intro hgap
      have hp := (Bool.or_eq_false_iff.mp hgap).1
      change (if p.gapFound = true then p.prevEnd else n.stop) = n.stop
      rw [hp]
      rfl
    obtain ⟨hg,hl⟩ := ih n _ rfl hprev
    refine ⟨?_,?_⟩
    · rw [foldl_cons,hg]
      change (p.gapFound || !false && decide (p.prevEnd + 1 ≠ n.start) || gapFound (n :: rest)) =
        (p.gapFound || (decide (m.stop + 1 ≠ n.start) || gapFound (n :: rest)))
      cases hgap : p.gapFound with
      | true => rfl
      | false =>
        rw [hend hgap]
        rfl
    · rw [foldl_cons,hl,getLast?_cons_cons]

theorem firstPass_spec (l : List Extent) :
    (firstPass l).gapFound = gapFound l ∧ (firstPass l).last = l.getLast? := by
  cases l with
  | nil => exact ⟨rfl,rfl⟩
  | cons m rest => exact foldl_visit m _ rfl (fun _ => rfl) rest

theorem fillChunks_eq {room : ℕ} (hroom : l.length ≤ room) :
    fillChunks g offset len room l = some (l.map (chunkReqFromExtent g offset len)) := by
  induction l generalizing room with
  | nil => rw [fillChunks]; rfl
  | cons n rest ih =>
    rw [length_cons] at hroom
    obtain ⟨k,rfl⟩ : ∃ k, room = k + 1 := ⟨room - 1,by omega⟩
    rw [fillChunks,ih (by omega)]
    rfl

theorem getChunkListInPasses_eq (g : ℤ) (t : RangeTree LogLoc)
    (hfew : (overlapping t offset len).length < uintSize) : getChunkListInPasses g t offset len =
      some ((extentTreeGetChunkList g t offset len).1.length,
        extentTreeGetChunkList g t offset len) := by
  unfold getChunkListInPasses extentTreeGetChunkList
  generalize overlapping t offset len = l at *
  obtain ⟨hgap,hlast⟩ := firstPass_spec l
  dsimp only
  rw [firstPass_count,Nat.mod_eq_of_lt hfew,hgap,hlast,length_map]
  cases l with
  | nil => rfl
  | cons first rest =>
    rw [if_neg (by rw [length_cons]; omega)]
    obtain ⟨last,hla⟩ := isSome_iff_exists.mp (getLast?_isSome.mpr (cons_ne_nil first rest))
    rw [extentCovered,hla,head?_cons]
    dsimp only
    rw [fillChunks_eq le_rfl,map_some]
    congr 3
    rw [Bool.eq_iff_iff]
    simp only [Bool.not_eq_true',Bool.or_eq_false_iff,decide_eq_false_iff_not,Bool.and_eq_true,
      decide_eq_true_eq,not_or,Nat.not_lt,gt_iff_lt,and_assoc]

end Passes

section Answers
variable {t : RangeTree LogLoc} {l : List Extent} {r : LookupRequest} {g : ℤ} {n : Extent}

theorem lastByte_eq (r : LookupRequest) : lastByte r.offset r.len = r.offset + r.len - 1 :=
  wordSub_of_le (by have := r.one_le; omega)

theorem dropWhile_eq_filter (hl : Separate l) (a : ℕ) :
    (l.dropWhile fun n => decide (n.stop < a)) = l.filter fun n => decide (a ≤ n.stop) := by
  induction l with
  | nil => rfl
  | cons k l ih =>
    rw [dropWhile_cons,filter_cons]
    by_cases hk : k.stop < a
    · rw [if_pos (decide_eq_true hk),if_neg (by simpa using hk),ih hl.tail]
    · have hrest : (l.filter fun n => decide (a ≤ n.stop)) = l := by
        rw [filter_eq_self]
        intro n hn
        have hlt := rel_of_pairwise_cons hl.ordered hn
        have hle := hl.tail.start_le n hn
        exact decide_eq_true (by omega)
      rw [if_neg (by simpa using hk),if_pos (by simpa using hk),hrest]

theorem takeWhile_eq_filter (hl : Separate l) (a : ℕ) :
    (l.takeWhile fun n => decide (n.start ≤ a)) = l.filter fun n => decide (n.start ≤ a) := by
  induction l with
  | nil => rfl
  | cons k l ih =>
    rw [takeWhile_cons,filter_cons]
    by_cases hk : k.start ≤ a
    · rw [if_pos (decide_eq_true hk),if_pos (decide_eq_true hk),ih hl.tail]
    · have hrest : (l.filter fun n => decide (n.start ≤ a)) = [] := by
        rw [filter_eq_nil_iff]
        intro n hn
        have hlt := rel_of_pairwise_cons hl.ordered hn
        have hle := hl.start_le k mem_cons_self
        simp only [decide_eq_true_eq]
        omega
      rw [if_neg (by simpa using hk),if_neg (by simpa using hk),hrest]

theorem overlapping_eq_filter (ht : Separate t.nodes) (r : LookupRequest) :
    overlapping t r.offset r.len =
      t.nodes.filter fun n => decide (n.start < r.offset + r.len ∧ r.offset ≤ n.stop) := by
  have hone := r.one_le
  unfold overlapping
  rw [takeWhile_eq_filter (ht.sublist (dropWhile_sublist _)),dropWhile_eq_filter ht,
    List.filter_filter,lastByte_eq]
  apply filter_congr
  intro n _
  rw [← Bool.decide_and]
  congr 1
  rw [eq_iff_iff]
  omega

theorem mem_overlapping_iff (ht : Separate t.nodes) : n ∈ overlapping t r.offset r.len ↔
      n ∈ t.nodes ∧ n.start < r.offset + r.len ∧ r.offset ≤ n.stop := by
  rw [overlapping_eq_filter ht,mem_filter,decide_eq_true_eq]

theorem overlapping_sublist (t : RangeTree LogLoc) (offset len : ℕ) :
    (overlapping t offset len).Sublist t.nodes :=
  (takeWhile_sublist _).trans (dropWhile_sublist _)

theorem mem_overlapping_of_holds (ht : Separate t.nodes) {b : ℕ} (hn : n ∈ t.nodes)
    (hnb : n.Holds b) (hb : r.Holds b) : n ∈ overlapping t r.offset r.len :=
  (mem_overlapping_iff ht).mpr ⟨hn,hnb.1.trans_lt hb.2,hb.1.trans hnb.2⟩

theorem chunkReqFromExtent_holds (hn : n.start ≤ n.stop) (hlo : n.start < r.offset + r.len)
    (hhi : r.offset ≤ n.stop) (b : ℕ) :
    (chunkReqFromExtent g r.offset r.len n).Holds b ↔ n.Holds b ∧ r.Holds b := by
  unfold chunkReqFromExtent Chunk.Holds Range.Holds LookupRequest.Holds
  rw [lastByte_eq]
  dsimp only
  split_ifs <;> omega

theorem contents_of_chunk (ht : Separate t.nodes) (hn : n ∈ overlapping t r.offset r.len) :
    0 < (chunkReqFromExtent g r.offset r.len n).nbytes ∧
      ∀ b, (chunkReqFromExtent g r.offset r.len n).Holds b →
        contents LogLoc.val t.nodes b = some ((chunkReqFromExtent g r.offset r.len n).place b) := by
  obtain ⟨hmem,hoff,hlast⟩ := mem_overlapping ht hn
  have hreq : r.offset ≤ lastByte r.offset r.len := by
    have := r.one_le
    rw [lastByte_eq]
    omega
  have hspec := chunkReqFromExtent_spec (g := g) (ht.start_le n hmem) hoff hlast hreq
  refine ⟨hspec.1,fun b hb => ?_⟩
  obtain ⟨hnb,hval⟩ := hspec.2 b hb.1 hb.2
  rw [ht.contents_of_mem hmem hnb,hval]
  rfl

theorem answers_getChunkList (ht : Separate t.nodes) (g : ℤ) (r : LookupRequest) :
    Answers t r (extentTreeGetChunkList g t r.offset r.len).1 := by
  have hholds : ∀ n ∈ overlapping t r.offset r.len, ∀ b,
      (chunkReqFromExtent g r.offset r.len n).Holds b ↔ n.Holds b ∧ r.Holds b := by
    intro n hn b
    obtain ⟨hmem,hlo,hhi⟩ := (mem_overlapping_iff ht).mp hn
    exact chunkReqFromExtent_holds (ht.start_le n hmem) hlo hhi b
  have hordered := ht.ordered.sublist (overlapping_sublist t r.offset r.len)
  refine ⟨?_,?_,?_,?_,?_⟩
  · refine pairwise_map.mpr (hordered.imp_of_mem ?_)
    intro m n hm hn hmn
    -- the last byte of the first chunk and the first byte of the second are in their extents
    have hm' := (contents_of_chunk (g := g) ht hm).1
    have hn' := (contents_of_chunk (g := g) ht hn).1
    generalize hcm : chunkReqFromExtent g r.offset r.len m = cm at *
    generalize hcn : chunkReqFromExtent g r.offset r.len n = cn at *
    have hlast := ((hcm ▸ hholds m hm (cm.offset + cm.nbytes - 1)).mp ⟨by omega,by omega⟩).1.2
    have hfirst := ((hcn ▸ hholds n hn cn.offset).mp ⟨le_rfl,by omega⟩).1.1
    omega
  · exact forall_mem_map.mpr fun _ hn => (contents_of_chunk ht hn).1
  · intro c hc b hb
    obtain ⟨n,hn,rfl⟩ := mem_map.mp hc
    exact ((hholds n hn b).mp hb).2
  · intro c hc b hb
    obtain ⟨n,hn,rfl⟩ := mem_map.mp hc
    exact (contents_of_chunk ht hn).2 b hb
  · intro b hb hmapped
    obtain ⟨n,hmem,hnb⟩ := (exists_holds_iff LogLoc.val).mpr hmapped
    have hn := mem_overlapping_of_holds ht hmem hnb hb
    exact ⟨_,mem_map_of_mem hn,(hholds n hn b).mpr ⟨hnb,hb⟩⟩

/-- Neighbours without a gap hold everything between the two ends. -/
theorem exists_holds_of_gapless (m : Extent) (rest : List Extent)
    (hgap : gapFound (m :: rest) = false) {last : Extent}
    (hlast : (m :: rest).getLast? = some last) {b : ℕ} (hlo : m.start ≤ b) (hhi : b ≤ last.stop) :
    ∃ n ∈ m :: rest, n.Holds b := by
  induction rest generalizing m with
  | nil =>
    obtain rfl : m = last := some.inj hlast
    exact ⟨m,mem_cons_self,hlo,hhi⟩
  | cons n rest ih =>
    obtain ⟨hadj,hgap'⟩ := Bool.or_eq_false_iff.mp hgap
    have hadj' : m.stop + 1 = n.start := by simpa using hadj
    by_cases hb : b ≤ m.stop
    · exact ⟨m,mem_cons_self,hlo,hb⟩
    · rw [getLast?_cons_cons] at hlast
      obtain ⟨k,hk,hkb⟩ := ih n hgap' hlast (by omega)
      exact ⟨k,mem_cons_of_mem m hk,hkb⟩

/-- A gap is a byte between two extents that no extent holds. -/
theorem exists_gap (hl : Separate l) (hgap : gapFound l = true) :
    ∃ b, (∃ m ∈ l, m.stop < b) ∧ (∃ n ∈ l, b < n.start) ∧ ∀ k ∈ l, ¬ k.Holds b := by
  induction l with
  | nil => cases hgap
  | cons m l ih =>
    cases l with
    | nil => cases hgap
    | cons n rest =>
      have hmn : ∀ k ∈ n :: rest, m.stop < k.start := fun _ =>
        rel_of_pairwise_cons hl.ordered
      rcases (Bool.or_eq_true _ _).mp hgap with hadj | hlater
      · have hadj' : m.stop + 1 ≠ n.start := by simpa using hadj
        have hlt := hmn n mem_cons_self
        refine ⟨m.stop + 1,⟨m,mem_cons_self,by omega⟩,
          ⟨n,mem_cons_of_mem m mem_cons_self,by omega⟩,?_⟩
        intro k hk hkb
        rcases mem_cons.mp hk with rfl | hk
        · have := hkb.2
          omega
        · have hnk : n.start ≤ k.start := by
            rcases mem_cons.mp hk with rfl | hk
            · exact le_rfl
            · have := rel_of_pairwise_cons hl.tail.ordered hk
              have := hl.tail.start_le n mem_cons_self
              omega
          have := hkb.1
          omega
      · obtain ⟨b,⟨p,hp,hpb⟩,⟨q,hq,hqb⟩,hfree⟩ := ih hl.tail hlater
        refine ⟨b,⟨p,mem_cons_of_mem m hp,hpb⟩,⟨q,mem_cons_of_mem m hq,hqb⟩,?_⟩
        intro k hk
        rcases mem_cons.mp hk with rfl | hk
        · have := hmn p hp
          have := hl.tail.start_le p hp
          intro hkb
          have := hkb.2
          omega
        · exact hfree k hk

theorem stop_le_last (hl : Separate l) {last : Extent} (hlast : l.getLast? = some last)
    (hn : n ∈ l) : n.stop ≤ last.stop := by
  rw [← dropLast_append_getLast? last hlast] at hl hn
  obtain ⟨-,htail,hlt⟩ := hl.of_append
  rcases mem_append.mp hn with hn | hn
  · have := hlt n hn last mem_cons_self
    have := htail.start_le last mem_cons_self
    omega
  · rw [mem_singleton.mp hn]

theorem extentCovered_iff_held (hl : Separate l)
    (hmem : ∀ n ∈ l, n.start < r.offset + r.len ∧ r.offset ≤ n.stop) :
    extentCovered r.offset r.len l = true ↔ ∀ b, r.Holds b → ∃ n ∈ l, n.Holds b := by
  have hone := r.one_le
  cases l with
  | nil =>
    refine iff_of_false Bool.false_ne_true fun h => ?_
    obtain ⟨n,hn,-⟩ := h r.offset ⟨le_rfl,by omega⟩
    cases hn
  | cons m rest =>
    obtain ⟨last,hlast⟩ := isSome_iff_exists.mp (getLast?_isSome.mpr (cons_ne_nil m rest))
    rw [extentCovered,hlast,head?_cons,lastByte_eq]
    simp only [Bool.and_eq_true,Bool.not_eq_true',decide_eq_true_eq]
    constructor
    · rintro ⟨⟨hgap,hfirst⟩,hend⟩ b hb
      have := hb.1
      have := hb.2
      exact exists_holds_of_gapless m rest hgap hlast (by omega) (by omega)
    · intro hheld
      refine ⟨⟨?_,?_⟩,?_⟩
      · by_contra hgap
        obtain ⟨b,⟨p,hp,hpb⟩,⟨q,hq,hqb⟩,hfree⟩ := exists_gap hl (Bool.not_eq_false _ ▸ hgap)
        have := (hmem p hp).2
        have := (hmem q hq).1
        obtain ⟨n,hn,hnb⟩ := hheld b ⟨by omega,by omega⟩
        exact hfree n hn hnb
      · obtain ⟨n,hn,hnb⟩ := hheld r.offset ⟨le_rfl,by omega⟩
        have hlo := hnb.1
        rcases mem_cons.mp hn with rfl | hn
        · exact hlo
        · have := rel_of_pairwise_cons hl.ordered hn
          have := hl.start_le m mem_cons_self
          omega
      · obtain ⟨n,hn,hnb⟩ := hheld (r.offset + r.len - 1) ⟨by omega,by omega⟩
        exact hnb.2.trans (stop_le_last hl hlast hn)

/-- The flag is set exactly if every byte of the request is mapped. -/
theorem extentCovered_iff (ht : Separate t.nodes) (r : LookupRequest) :
    extentCovered r.offset r.len (overlapping t r.offset r.len) = true ↔
      ∀ b, r.Holds b → (contents LogLoc.val t.nodes b).isSome := by
  have hsub := overlapping_sublist t r.offset r.len
  rw [extentCovered_iff_held (ht.sublist hsub) fun n hn => ((mem_overlapping_iff ht).mp hn).2]
  refine forall₂_congr fun b hb => ?_
  rw [← exists_holds_iff]
  constructor
  · rintro ⟨n,hn,hnb⟩
    exact ⟨n,hsub.mem hn,hnb⟩
  · rintro ⟨n,hn,hnb⟩
    exact ⟨n,mem_overlapping_of_holds ht hn hnb hb,hnb⟩

/-- With fewer than `2 ^ 32` extents in the request, the call returns the chunks of exactly the
requested bytes that the tree maps, and sets the flag exactly if it maps all of them. -/
theorem chunk_list_exact (g : ℤ) (t : RangeTree LogLoc) (ht : Separate t.nodes) (r : LookupRequest)
    (hfew : (t.nodes.filter fun n =>
      decide (n.start < r.offset + r.len ∧ r.offset ≤ n.stop)).length < 2 ^ 32) :
    ∃ chunks covered,
      getChunkListInPasses g t r.offset r.len = some (chunks.length,chunks,covered) ∧
      Answers t r chunks ∧
      (covered = true ↔ ∀ b, r.Holds b → (contents LogLoc.val t.nodes b).isSome) := by
  rw [← overlapping_eq_filter ht] at hfew
  exact ⟨_,_,getChunkListInPasses_eq g t hfew,answers_getChunkList ht g r,extentCovered_iff ht r⟩

/-- Four bytes, a gap of two and four more, of which bytes 2 to 7 are asked for. -/
theorem chunk_list_exact_gap :
    getChunkListInPasses 1 ⟨[⟨0,3,⟨0,0,0,1⟩⟩,⟨6,9,⟨4,0,0,1⟩⟩],2,9⟩ 2 6 =
        some (2,[⟨1,2,2,2,0,1,0⟩,⟨1,2,6,4,0,1,0⟩],false) ∧
      Answers ⟨[⟨0,3,⟨0,0,0,1⟩⟩,⟨6,9,⟨4,0,0,1⟩⟩],2,9⟩ ⟨2,6,by decide,by decide⟩
        [⟨1,2,2,2,0,1,0⟩,⟨1,2,6,4,0,1,0⟩] := by
  have heval : getChunkListInPasses 1 ⟨[⟨0,3,⟨0,0,0,1⟩⟩,⟨6,9,⟨4,0,0,1⟩⟩],2,9⟩ 2 6 =
      some (2,[⟨1,2,2,2,0,1,0⟩,⟨1,2,6,4,0,1,0⟩],false) := by decide +kernel
  obtain ⟨chunks,covered,hlist,hanswers,-⟩ := chunk_list_exact 1
    ⟨[⟨0,3,⟨0,0,0,1⟩⟩,⟨6,9,⟨4,0,0,1⟩⟩],2,9⟩ ⟨by decide,by decide⟩ ⟨2,6,by decide,by decide⟩
    (by decide)
  obtain ⟨-,rfl,-⟩ : _ ∧ chunks = _ ∧ _ := by simpa using hlist.symm.trans heval
  exact ⟨heval,hanswers⟩

def everySecond (n : ℕ) : RangeTree LogLoc where
  nodes := (List.range n).map fun i => ⟨2 * i,2 * i,⟨BitVec.ofNat 64 i,0,0,1⟩⟩
  count := n
  max := 2 * (n - 1)

theorem mem_everySecond {n : ℕ} {e : Extent} : e ∈ (everySecond n).nodes ↔
    ∃ i < n, e = ⟨2 * i,2 * i,⟨BitVec.ofNat 64 i,0,0,1⟩⟩ := by
  unfold everySecond
  simp only [List.mem_map,mem_range,eq_comm]

theorem everySecond_sound {n : ℕ} (hn : 0 < n) : Sound (everySecond n) := by
  refine ⟨⟨⟨?_,?_⟩,?_⟩,?_,.inr ?_⟩
  · refine pairwise_map.mpr (pairwise_lt_range.imp ?_)
    dsimp only
    omega
  · intro e he
    obtain ⟨i,-,rfl⟩ := mem_everySecond.mp he
    exact le_rfl
  · simp [everySecond]
  · intro e he
    obtain ⟨i,hi,rfl⟩ := mem_everySecond.mp he
    change 2 * i ≤ 2 * (n - 1)
    omega
  · exact ⟨_,mem_everySecond.mpr ⟨n - 1,by omega,rfl⟩,rfl⟩

theorem getChunkListInPasses_everySecond (n : ℕ) (hn : 0 < n) (hfits : 2 * n ≤ wordSize)
    (hwrap : n % uintSize = 0) :
    getChunkListInPasses 1 (everySecond n) 0 (2 * n) = some (0,[],false) := by
  have hsep := (everySecond_sound hn).separate
  have hall : overlapping (everySecond n) 0 (2 * n) = (everySecond n).nodes := by
    refine (overlapping_eq_filter hsep ⟨0,2 * n,by omega,by omega⟩).trans ?_
    rw [filter_eq_self]
    intro e he
    obtain ⟨i,hi,rfl⟩ := mem_everySecond.mp he
    exact decide_eq_true ⟨by dsimp only; omega,Nat.zero_le _⟩
  have hlen : (everySecond n).nodes.length = n := by simp [everySecond]
  unfold getChunkListInPasses
  dsimp only
  rw [firstPass_count,hall,hlen,hwrap,if_pos rfl]

/-- A request with `2 ^ 32` extents gets no chunk, although its first byte is mapped. -/
theorem no_chunk_of_many_extents : Sound (everySecond (2 ^ 32)) ∧
    (contents LogLoc.val (everySecond (2 ^ 32)).nodes 0).isSome ∧
    getChunkListInPasses 1 (everySecond (2 ^ 32)) 0 (2 * 2 ^ 32) = some (0,[],false) := by
  refine ⟨everySecond_sound (Nat.two_pow_pos 32),?_,?_⟩
  · exact (exists_holds_iff LogLoc.val).mp
      ⟨_,mem_everySecond.mpr ⟨0,Nat.two_pow_pos 32,rfl⟩,le_rfl,le_rfl⟩
  · exact getChunkListInPasses_everySecond _ (Nat.two_pow_pos 32) (by decide) (Nat.mod_self _)

end Answers
end UnifyFS.ExtentLookup
