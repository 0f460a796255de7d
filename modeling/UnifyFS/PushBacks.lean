import UnifyFS.UpdateStream

/-!
# Characters pushed back

`ungetc` puts a character in front of what a stream has still to read. The characters sit at the
end of a buffer of their own, which doubles when it is full, and the file position goes back by
one for each of them. Whatever is in the two buffers, reads give the characters first, the last
one pushed before the others, and then the file from the position where pushing back began.
-/
namespace UnifyFS.PushBacks
open StdioStream StdioUpdates AppendStream UpdateStream

/-- Memory of the size asked for, whatever is in it, or none. -/
abbrev Malloc := (size : ℕ) → Option (Vector UInt8 size)

theorem length_newbuf {size : ℕ} (newbuf : Vector UInt8 size) : newbuf.toList.length = size :=
  Vector.length_toList

def zeroed : Malloc := fun size => some (Vector.replicate size 0)

open List Option

section Ungetc
variable (malloc : Malloc)

/-- The first part of `ungetc`: room for one more character in front of those in the push-back
buffer. -/
def makeRoom (s : FileStream) : Option FileStream :=
  let oldsize := s.ubuf.length
  if oldsize - s.ubuflen = 0 then
    let newsize := if oldsize > 0 then oldsize * 2 else 1
    if newsize > 1024 then none
    else (malloc newsize).map fun newbuf => { s with
      ubuf := newbuf.toList.take (newsize - s.ubuflen) ++ s.ubuf.drop (oldsize - s.ubuflen) }
  else some s

/-- `EOF`, which is -1, is `none` as a result. -/
def ungetc (s : FileStream) (c : ℤ) : Option UInt8 × FileStream :=
  if c = -1 then (none,s)
  else if s.pos ≤ 0 then (none,s)
  else
    match makeRoom malloc s with
    | none => (none,s)
    | some s =>
      let uc := UInt8.ofInt c
      (some uc,{ s with
        ubuf := s.ubuf.set (s.ubuf.length - (s.ubuflen + 1)) uc
        ubuflen := s.ubuflen + 1
        pos := s.pos - 1
        eof := false })

/-- One call after the other, as long as they succeed. -/
def ungetcAll (s : FileStream) : List ℤ → Option FileStream
  | [] => some s
  | c :: cs => if (ungetc malloc s c).1.isSome then ungetcAll (ungetc malloc s c).2 cs else none

end Ungetc

/-- The pushed-back characters and the file behind them as one list. -/
structure Source where
  data : List UInt8
  pos : ℤ
  eof : Bool
  err : Bool
  deriving DecidableEq, Repr

namespace Source

def push (b : Source) (c : UInt8) : Source :=
  { b with data := c :: b.data, pos := b.pos - 1, eof := false }

/-- After the end of the file has been met, reads fail, and so does one whose end has no
offset. -/
def read (b : Source) (count : ℕ) : (Rc × List UInt8) × Source :=
  if b.eof then ((Rc.failure,[]),b)
  else if wouldOverflowOfft b.pos count then ((Rc.eoverflow,[]),{ b with err := true })
  else ((Rc.success,b.data.take count),{ b with
    data := b.data.drop count
    pos := b.pos + (b.data.take count).length
    eof := decide ((b.data.take count).length < count) })

/-- Reads one after the other, with the position after each. -/
def reads : Source → List ℕ → List ((Rc × List UInt8) × ℤ)
  | _, [] => []
  | b, count :: counts => ((b.read count).1,(b.read count).2.pos) :: reads (b.read count).2 counts

/-- Nothing is left out and nothing comes twice: what the reads give is what was to be read, as
far as they got. -/
theorem reads_flatten (b : Source) (counts : List ℕ) :
    ((b.reads counts).flatMap fun r => r.1.2) <+: b.data := by
  induction counts generalizing b with
  | nil => exact nil_prefix
  | cons count counts ih =>
    have hrest := ih (b.read count).2
    rw [reads]
    unfold read at hrest ⊢
    split
    · next heof => rwa [if_pos heof] at hrest
    · next heof =>
      rw [if_neg heof] at hrest
      split
      · next hover => rwa [if_pos hover] at hrest
      · next hover =>
        rw [if_neg hover] at hrest
        have hall := (prefix_append_right_inj (b.data.take count)).mpr hrest
        rwa [take_append_drop] at hall

end Source

/-- The last `ubuflen` bytes of the push-back buffer. -/
structure Pushed (ubuf : List UInt8) (ubuflen : ℕ) (pushed : List UInt8) : Prop where
  le : ubuflen ≤ ubuf.length
  eq : ubuf.drop (ubuf.length - ubuflen) = pushed

namespace Pushed
variable {ubuf pushed : List UInt8} {ubuflen : ℕ} (h : Pushed ubuf ubuflen pushed)
include h

theorem length_eq : pushed.length = ubuflen := by
  have hle := h.le
  rw [← h.eq,length_drop]
  omega

theorem drop (count : ℕ) :
    Pushed ubuf (ubuflen - (pushed.take count).length) (pushed.drop count) := by
  have hle := h.le
  have hlen := h.length_eq
  rw [length_take]
  refine ⟨by omega,?_⟩
  by_cases hcount : count ≤ pushed.length
  · have hdrop : pushed.drop count = ubuf.drop (ubuf.length - ubuflen + count) := by
      rw [← h.eq,drop_drop]
    rw [hdrop]
    congr 1
    omega
  · rw [drop_of_length_le (i := count) (by omega)]
    exact drop_eq_nil_of_le (by omega)

theorem cons (hroom : ubuflen < ubuf.length) (c : UInt8) :
    Pushed (ubuf.set (ubuf.length - (ubuflen + 1)) c) (ubuflen + 1) (c :: pushed) := by
  have hlt : ubuf.length - (ubuflen + 1) < ubuf.length := by omega
  refine ⟨by rw [length_set]; omega,?_⟩
  rw [length_set,drop_set,if_neg (Nat.lt_irrefl _),Nat.sub_self,
    drop_eq_getElem_cons hlt,set_cons_zero,← h.eq]
  congr 2
  omega

theorem grow {newsize : ℕ} {newbuf : List UInt8} (hnew : newbuf.length = newsize)
    (hsize : ubuflen ≤ newsize) :
    Pushed (newbuf.take (newsize - ubuflen) ++ ubuf.drop (ubuf.length - ubuflen)) ubuflen
      pushed := by
  have htake : (newbuf.take (newsize - ubuflen)).length = newsize - ubuflen := by
    rw [length_take,hnew]
    omega
  have hlen : (newbuf.take (newsize - ubuflen) ++
      ubuf.drop (ubuf.length - ubuflen)).length = newsize := by
    rw [length_append,h.eq,h.length_eq]
    omega
  refine ⟨by omega,?_⟩
  rw [hlen,drop_left' htake,h.eq]

end Pushed

/-- A stream open for reading, with its pushed-back characters and the position `p` in the file
behind them. -/
structure Reading {σ : Type} (content : σ → List UInt8) (bufsize : ℕ) (bytes pushed : List UInt8)
    (p : ℕ) (b : Source) (s : FileStream) (fs : σ) : Prop where
  canRead : s.fdCanRead = true
  pushedBack : Pushed s.ubuf s.ubuflen pushed
  behind : s.pos + pushed.length = p
  buffer : s.hasBuf = true ∧ s.bufsize = bufsize ∨
    s.hasBuf = false ∧ s.bufdirty = false ∧ bufsize = clientStreamBufsize
  held : Held content bufsize bytes p s.toStream fs
  fits : ((max p bytes.length : ℕ) : ℤ) + bufsize ≤ maxOfft
  source : b = ⟨pushed ++ bytes.drop p,s.pos,s.eof,s.err⟩

variable {σ : Type} {L : FileLower σ} {content : σ → List UInt8} {bufsize : ℕ}
  {bytes pushed : List UInt8} {p : ℕ} {b : Source} {s s' : FileStream} {fs : σ}

section Calls

theorem makeRoom_eq {malloc : Malloc}
    (hroom : makeRoom malloc s = some s') (h : Pushed s.ubuf s.ubuflen pushed) :
    s' = { s with ubuf := s'.ubuf } ∧ s.ubuflen < s'.ubuf.length ∧
      Pushed s'.ubuf s.ubuflen pushed := by
  have hle := h.le
  unfold makeRoom at hroom
  dsimp only at hroom
  split at hroom
  · next hfull =>
    generalize hnew : (if s.ubuf.length > 0 then s.ubuf.length * 2 else 1) = newsize at hroom
    have hlt : s.ubuflen < newsize := by
      rw [← hnew]
      split <;> omega
    split at hroom
    · cases hroom
    · obtain ⟨newbuf,_,rfl⟩ := map_eq_some_iff.mp hroom
      refine ⟨rfl,?_,h.grow (length_newbuf newbuf) (Nat.le_of_lt hlt)⟩
      change s.ubuflen < (_ ++ s.ubuf.drop (s.ubuf.length - s.ubuflen)).length
      rw [length_append,length_take,length_newbuf,h.eq,h.length_eq]
      omega
  · next hfull =>
    cases hroom
    exact ⟨rfl,by omega,h⟩

variable (h : Reading content bufsize bytes pushed p b s fs)
include h

theorem ungetc_reading {malloc : Malloc} {c : ℤ} (hok : (ungetc malloc s c).1.isSome = true) :
    Reading content bufsize bytes (UInt8.ofInt c :: pushed) p (b.push (UInt8.ofInt c))
      (ungetc malloc s c).2 fs := by
  unfold ungetc at hok ⊢
  by_cases hc : c = -1
  · rw [if_pos hc] at hok
    cases hok
  by_cases hpos : s.pos ≤ 0
  · rw [if_neg hc,if_pos hpos] at hok
    cases hok
  rw [if_neg hc,if_neg hpos] at hok ⊢
  cases hroom : makeRoom malloc s with
  | none =>
    rw [hroom] at hok
    cases hok
  | some s' =>
    obtain ⟨heq,hlt,hpushed⟩ := makeRoom_eq hroom h.pushedBack
    generalize s'.ubuf = ubuf at heq hlt hpushed
    subst heq
    have hbehind := h.behind
    refine ⟨h.canRead,hpushed.cons hlt _,?_,h.buffer,h.held.of_buffer rfl rfl rfl,h.fits,?_⟩
    · change s.pos - 1 + ((pushed.length + 1 : ℕ) : ℤ) = p
      omega
    · rw [h.source]
      rfl

theorem ungetcAll_reading {malloc : Malloc} {cs : List ℤ} (hall : ungetcAll malloc s cs = some s') :
    Reading content bufsize bytes ((cs.map UInt8.ofInt).reverse ++ pushed) p
      ((cs.map UInt8.ofInt).foldl Source.push b) s' fs := by
  induction cs generalizing s pushed b with
  | nil =>
    cases hall
    exact h
  | cons c cs ih =>
    rw [ungetcAll] at hall
    split at hall
    · next hok =>
      have hrest := ih (ungetc_reading h hok) hall
      rw [map_cons,reverse_cons,append_assoc]
      exact hrest
    · cases hall

theorem Reading.ensured : ∃ t, ensureBuffer s.toStream = .ok t ∧ t.hasBuf = true ∧
    t.bufsize = bufsize ∧ Reading content bufsize bytes pushed p b { s with toStream := t } fs := by
  rcases h.buffer with ⟨hb,hs⟩ | ⟨hb,hclean,hs⟩
  · exact ⟨s.toStream,if_pos hb,hb,hs,h⟩
  · have hfile : content fs = bytes := by
      cases h.held with
      | clean p bufpos dirty file buf => exact file
      | dirty p bufpos dirty => rw [hclean] at dirty; cases dirty
    have hvbuf : ensureBuffer s.toStream = .ok { s.toStream with
        hasBuf := true, bufsize := clientStreamBufsize, bufpos := 0, buf := [],
        bufdirty := false } := by
      unfold ensureBuffer setvbuf
      rw [hb]
      rfl
    refine ⟨_,hvbuf,rfl,hs.symm,?_⟩
    exact { h with
      buffer := .inl ⟨rfl,hs.symm⟩
      held := .clean 0 rfl rfl hfile rfl }

variable (hL : Full L.toLower content) (hR : Reads L content) (hsize : 0 < bufsize)
include hL hR hsize

theorem readLoop_reading (hb : s.hasBuf = true) (hs : s.bufsize = bufsize) (count : ℕ) :
    ∃ q buf dirty fs' n, readLoop L (count + 1)
        { s with ubuflen := s.ubuflen - (s.pushedBack count).length } fs
        (s.pos + (s.pushedBack count).length) (count - (s.pushedBack count).length)
        (s.pushedBack count) = some (Rc.success,
          rebuffered { s with ubuflen := s.ubuflen - (pushed.take count).length } q buf dirty,fs',
          b.data.take count) ∧
      Held content bufsize bytes n (withBuffer s.toStream q buf dirty) fs' ∧
      b.data.drop count = pushed.drop count ++ bytes.drop n ∧
      s.pos + (b.data.take count).length + (pushed.drop count).length = n ∧
      n ≤ max p bytes.length := by
  have hpushed : s.pushedBack count = pushed.take count := by
    unfold FileStream.pushedBack
    rw [h.pushedBack.eq]
  have hbehind := h.behind
  have hdata : b.data = pushed ++ bytes.drop p := by rw [h.source]
  rw [hpushed,hdata]
  by_cases hcount : count ≤ pushed.length
  · -- the file is not needed
    have hlen := length_take_of_le hcount
    have htake : (pushed ++ bytes.drop p).take count = pushed.take count :=
      take_append_of_le_length hcount
    refine ⟨s.bufpos,s.buf,s.bufdirty,fs,p,?_,h.held,drop_append_of_le_length hcount,?_,
      Nat.le_max_left ..⟩
    · rw [htake,hlen,Nat.sub_self,readLoop]
      rfl
    · rw [htake,length_drop]
      omega
  · have hall : pushed.take count = pushed := take_of_length_le (by omega)
    have hnone : pushed.drop count = [] := drop_eq_nil_of_le (by omega)
    have hfits := h.fits
    have hlen : ((bytes.drop p).take (count - pushed.length)).length ≤ bytes.length - p := by
      rw [length_take,length_drop]
      omega
    obtain ⟨q,buf,dirty,fs',hloop,hheld⟩ := readLoop_held
      (s := { s with ubuflen := s.ubuflen - pushed.length }) hL hR
      (show (p : ℤ) + ((bytes.drop p).take (count - pushed.length)).length + bufsize ≤ maxOfft by
        omega)
      (show count - pushed.length < count + 1 by omega) hb hs hsize (h.held.of_buffer rfl rfl rfl)
      pushed
    refine ⟨q,buf,dirty,fs',_,?_,hheld.of_buffer rfl rfl rfl,?_,?_,by omega⟩
    · rw [hall,hbehind,hloop,take_append,hall]
    · rw [hnone,drop_append,hnone,nil_append,← drop_drop]
      exact drop_eq_drop_iff.mpr (by rw [length_take]; omega)
    · rw [hnone,take_append,hall,length_append]
      change s.pos + (pushed.length + _ : ℕ) + ((0 : ℕ) : ℤ) = _
      omega

theorem streamRead_reading (count : ℕ) : ∃ pushed' p' s' fs', streamRead L s fs count =
      some ((b.read count).1.1,s',fs',(b.read count).1.2) ∧
    Reading content bufsize bytes pushed' p' (b.read count).2 s' fs' := by
  obtain ⟨t,hensure,hb,hs,ht⟩ := h.ensured
  have hstream : streamRead L s fs count = readBuffered L { s with toStream := t } fs count := by
    unfold streamRead
    rw [if_neg (by rw [h.canRead]; decide),hensure]
  have hsource := ht.source
  rw [hstream]
  unfold readBuffered Source.read
  have heof : b.eof = s.eof := by rw [hsource]
  have hpos : b.pos = t.pos := by rw [hsource]
  have herr : b.err = t.err := by rw [hsource]
  rw [heof,hpos]
  dsimp only
  split_ifs with hend hover
  · exact ⟨pushed,p,_,fs,rfl,ht⟩
  · refine ⟨pushed,p,_,fs,rfl,?_⟩
    exact { ht with
      held := ht.held.of_buffer rfl rfl rfl
      source := by rw [hsource]; rfl }
  · obtain ⟨q,buf,dirty,fs',n,hloop,hheld,hdrop,hn,hle⟩ :=
      readLoop_reading ht hL hR hsize hb hs count
    have hfits := h.fits
    rw [hloop]
    refine ⟨pushed.drop count,n,_,fs',rfl,?_⟩
    exact {
      canRead := h.canRead
      pushedBack := ht.pushedBack.drop count
      behind := hn
      buffer := .inl ⟨hb,hs⟩
      held := hheld.of_buffer rfl rfl rfl
      fits := by omega
      source := by
        change _ = (⟨_,_,s.eof || decide ((b.data.take count).length < count),_⟩ : Source)
        rw [Bool.eq_false_iff.mpr hend,hdrop,herr]
        rfl }

end Calls

section Reads

/-- Reads one after the other: the result, the bytes and the position after each. -/
def readAll (L : FileLower σ) : FileStream → σ → List ℕ → Option (List ((Rc × List UInt8) × ℤ))
  | _, _, [] => some []
  | s, fs, count :: counts =>
    (streamRead L s fs count).bind fun (rc,s,fs,got) =>
      (readAll L s fs counts).map fun outs => ((rc,got),ftell s.toStream) :: outs

variable (hL : Full L.toLower content) (hR : Reads L content) (hsize : 0 < bufsize)
include hL hR hsize

theorem readAll_reading (h : Reading content bufsize bytes pushed p b s fs) (counts : List ℕ) :
    readAll L s fs counts = some (b.reads counts) := by
  induction counts generalizing s fs pushed p b with
  | nil => rfl
  | cons count counts ih =>
    obtain ⟨pushed',p',s',fs',hread,hnext⟩ := streamRead_reading h hL hR hsize count
    have hpos : ftell s'.toStream = (b.read count).2.pos := by rw [hnext.source]; rfl
    rw [readAll,hread,bind_some]
    dsimp only
    rw [ih hnext,hpos]
    rfl

omit hL hR hsize in
theorem foldl_push (b : Source) (cs : List UInt8) : cs.foldl Source.push b =
    ⟨cs.reverse ++ b.data,b.pos - cs.length,b.eof && cs.isEmpty,b.err⟩ := by
  induction cs generalizing b with
  | nil => simp
  | cons c cs ih =>
    rw [foldl_cons,ih]
    simp [Source.push]
    omega

/-- Reads after calls of `ungetc` give the characters in reverse order, then the file. -/
theorem ungetc_reads_back (h : Reading content bufsize bytes [] p b s fs)
    (malloc : Malloc) (cs : List ℤ)
    (hall : ungetcAll malloc s cs = some s') (counts : List ℕ) :
    let left : Source := ⟨(cs.map UInt8.ofInt).reverse ++ bytes.drop p,p - cs.length,
      s.eof && cs.isEmpty,s.err⟩
    s'.pos = p - cs.length ∧ readAll L s' fs counts = some (left.reads counts) ∧
      ((left.reads counts).flatMap fun r => r.1.2) <+: left.data := by
  intro left
  have hreading := ungetcAll_reading h hall
  have hpos := (Int.add_zero _).symm.trans h.behind
  have hleft : (cs.map UInt8.ofInt).foldl Source.push b = left := by
    rw [foldl_push,h.source,hpos]
    simp [left]
  rw [hleft] at hreading
  refine ⟨?_,readAll_reading hL hR hsize hreading counts,left.reads_flatten counts⟩
  exact (congrArg Source.pos hreading.source).symm

end Reads

theorem reading_fopenStream {σ : Type} (content : σ → List UInt8) (m : OpenMode) (p : ℕ) (fs : σ)
    (hfit : ((max p (content fs).length : ℕ) : ℤ) + clientStreamBufsize ≤ maxOfft) :
    Reading content clientStreamBufsize (content fs) [] p ⟨(content fs).drop p,p,false,false⟩
      ⟨fopenStream m p,false,true,[]⟩ fs where
  canRead := rfl
  pushedBack := ⟨Nat.le_refl _,rfl⟩
  behind := Int.add_zero _
  buffer := .inr ⟨rfl,rfl,rfl⟩
  held := .clean 0 rfl rfl rfl rfl
  fits := hfit
  source := rfl

theorem ungetc_reads_back_two : ∃ s',
    ungetcAll zeroed ⟨fopenStream ⟨true,false,false,false⟩ 2,false,true,[]⟩ [9,8] = some s' ∧
    s'.pos = 0 ∧ readAll plainUpdateFile s' [1,2,3] [1,3] =
      some [((Rc.success,[8]),1),((Rc.success,[9,3]),3)] := by
  obtain ⟨s',hall⟩ : ∃ s', ungetcAll zeroed
      ⟨fopenStream ⟨true,false,false,false⟩ 2,false,true,[]⟩ [9,8] = some s' := ⟨_,rfl⟩
  obtain ⟨hpos,hreads,_⟩ := ungetc_reads_back plainFile_full plainUpdateFile_reads (by decide)
    (reading_fopenStream id ⟨true,false,false,false⟩ 2 [1,2,3] (by decide)) zeroed [9,8] hall [1,3]
  exact ⟨s',hall,hpos,hreads⟩

end UnifyFS.PushBacks
