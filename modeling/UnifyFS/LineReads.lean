import UnifyFS.PushBacks

/-!
# Lines of a stream

`fgets` reads one byte at a time and stops after a newline, after `n - 1` bytes or when a read
fails. It does not look at the number of bytes read. The first read at the end of the file succeeds
with no bytes, so `fgets` stores whatever its variable held and counts it as a byte of the line;
only the read after that one fails. A line is therefore right exactly if it ends before the end of
the file is met, or if the end of the file had been met before and nothing is left.
-/
namespace UnifyFS.LineReads
open StdioStream StdioUpdates AppendStream UpdateStream PushBacks List Option

/-- The longest prefix of at most `m` bytes that ends at the first newline or at the end of the
file. -/
def lineOf : ℕ → List UInt8 → List UInt8
  | 0, _ => []
  | _, [] => []
  | m + 1, c :: d => if c = 10 then [c] else c :: lineOf m d

section Fgets
variable {σ : Type} (L : FileLower σ) (junk : ℕ → UInt8)

/-- What the caller gets: whether the result is the buffer and not `NULL`, and the bytes stored
in the buffer. -/
abbrev Line := Bool × List UInt8

/-- The loop of `fgets`, which may still store `m` bytes. A read of no bytes leaves `charbuf` as
it is: some value, given by `junk` for each turn. -/
def fgetsLoop : ℕ → FileStream → σ → List UInt8 → Option (Line × FileStream × σ)
  | 0, s, fs, stored => some ((true,stored ++ [0]),{ s with errno := 0 },fs)
  | m + 1, s, fs, stored =>
    (streamRead L s fs 1).bind fun (rc,s,fs,got) =>
      if rc ≠ Rc.success then
        some ((false,if s.err then stored else stored ++ [0]),s,fs)
      else
        let charbuf := got.headD (junk stored.length)
        if charbuf = 10 then
          some ((true,stored ++ [charbuf] ++ [0]),{ s with errno := 0 },fs)
        else fgetsLoop m s fs (stored ++ [charbuf])

def fgets (s : FileStream) (fs : σ) (n : ℤ) : Option (Line × FileStream × σ) :=
  if n ≤ 0 then some ((false,[]),{ s with toStream := s.fail Rc.enomem },fs)
  else fgetsLoop L junk (n - 1).toNat s fs []

def fgetsAll : FileStream → σ → List ℤ → Option (List Line)
  | _, _, [] => some []
  | s, fs, n :: ns =>
    (fgets L junk s fs n).bind fun (line,s,fs) => (fgetsAll s fs ns).map (line :: ·)

end Fgets

/-- The result that a caller expects with these bytes left. -/
def RightLine (m : ℕ) (data : List UInt8) (line : Line) : Prop :=
  line.2 = lineOf m data ++ [0] ∧ (line.1 = false ↔ data = [])

/-- The line ends before the end of the file is met, or that was met before. -/
def Ended (m : ℕ) (b : Source) : Prop :=
  if b.eof then b.data = [] else m ≤ b.data.length ∨ 10 ∈ b.data

def after (m : ℕ) (b : Source) : Source :=
  { b with
    data := b.data.drop (lineOf m b.data).length
    pos := b.pos + (lineOf m b.data).length }

/-- The lines that calls with these buffer sizes should return one after the other. -/
def linesOf : List ℤ → List UInt8 → List (List UInt8)
  | [], _ => []
  | n :: ns, d => lineOf (n - 1).toNat d :: linesOf ns (d.drop (lineOf (n - 1).toNat d).length)

def AllEnded : List ℤ → Source → Prop
  | [], _ => True
  | n :: ns, b => 2 ≤ n ∧ Ended (n - 1).toNat b ∧ AllEnded ns (after (n - 1).toNat b)

section Lines
variable {m : ℕ} {d : List UInt8}

theorem lineOf_isPrefix (m : ℕ) (d : List UInt8) : lineOf m d <+: d := by
  fun_induction lineOf m d with
  | case1 => exact nil_prefix
  | case2 => exact nil_prefix
  | case3 m d => exact ⟨d,rfl⟩
  | case4 m c d _ ih => exact (prefix_cons_inj c).mpr ih

theorem lineOf_whole (hlen : d.length ≤ m) (hnl : 10 ∉ d) : lineOf m d = d := by
  fun_induction lineOf m d with
  | case1 d => exact (eq_nil_of_length_eq_zero (Nat.le_zero.mp hlen)).symm
  | case2 => rfl
  | case3 m d => exact absurd mem_cons_self hnl
  | case4 m c d _ ih =>
    rw [ih (Nat.le_of_succ_le_succ hlen) (fun h => hnl (mem_cons_of_mem c h))]

theorem isEmpty_lineOf (hm : 0 < m) : (lineOf m d).isEmpty = d.isEmpty := by
  fun_cases lineOf m d with
  | case1 => omega
  | case2 => rfl
  | case3 => rfl
  | case4 => rfl

theorem linesOf_isPrefix (ns : List ℤ) (d : List UInt8) : (linesOf ns d).flatten <+: d := by
  induction ns generalizing d with
  | nil => exact nil_prefix
  | cons n ns ih =>
    have hline := prefix_iff_eq_append.mp (lineOf_isPrefix (n - 1).toNat d)
    have hrest := ih (d.drop (lineOf (n - 1).toNat d).length)
    have hall := (prefix_append_right_inj (lineOf (n - 1).toNat d)).mpr hrest
    rwa [hline] at hall

end Lines

section Calls
variable {σ : Type} {L : FileLower σ} {content : σ → List UInt8} {bufsize : ℕ}
  {bytes pushed : List UInt8} {p m : ℕ} {b : Source} {s : FileStream} {fs : σ} (junk : ℕ → UInt8)

theorem after_of_nil (hdata : b.data = []) (m : ℕ) : after (m + 1) b = b := by
  cases b
  simp_all [after,lineOf]

theorem Reading.setErrno (h : Reading content bufsize bytes pushed p b s fs) (rc : Rc) :
    Reading content bufsize bytes pushed p b { s with errno := rc } fs :=
  { h with held := h.held.of_buffer rfl rfl rfl }

theorem wouldOverflowOfft_one {a : ℤ} (h : a < maxOfft) : wouldOverflowOfft a 1 = false := by
  unfold wouldOverflowOfft
  split_ifs
  · simp only [ge_iff_le,Bool.not_eq_false',decide_eq_true_eq]
    omega
  · omega
  · rfl

section Read
variable (heof : b.eof = false) (hfit : b.pos + b.data.length < maxOfft)
include heof hfit

theorem read_cons {c : UInt8} {d : List UInt8} (hdata : b.data = c :: d) :
    b.read 1 = ((Rc.success,[c]),{ b with data := d, pos := b.pos + 1 }) := by
  have hover := wouldOverflowOfft_one (show b.pos < maxOfft by omega)
  simp [Source.read,heof,hover,hdata]

theorem read_nil (hdata : b.data = []) : b.read 1 = ((Rc.success,[]),{ b with eof := true }) := by
  have hover := wouldOverflowOfft_one (show b.pos < maxOfft by omega)
  simp [Source.read,heof,hover,hdata]

end Read

variable (hL : Full L.toLower content) (hR : Reads L content) (hsize : 0 < bufsize)
  (h : Reading content bufsize bytes pushed p b s fs)
include hL hR hsize h

theorem fgetsLoop_cons (heof : b.eof = false) (hfit : b.pos + b.data.length < maxOfft)
    {c : UInt8} {d : List UInt8} (hdata : b.data = c :: d) (m : ℕ) (stored : List UInt8) :
    ∃ pushed' p' s' fs', fgetsLoop L junk (m + 1) s fs stored =
        (if c = 10 then some ((true,stored ++ [c] ++ [0]),{ s' with errno := 0 },fs')
        else fgetsLoop L junk m s' fs' (stored ++ [c])) ∧
      Reading content bufsize bytes pushed' p' { b with data := d, pos := b.pos + 1 } s' fs' := by
  obtain ⟨pushed',p',s',fs',hread,hnext⟩ := streamRead_reading h hL hR hsize 1
  rw [read_cons heof hfit hdata] at hread hnext
  refine ⟨pushed',p',s',fs',?_,hnext⟩
  rw [fgetsLoop,hread]
  rfl

theorem fgetsLoop_atEnd (heof : b.eof = true) (herr : b.err = false) (m : ℕ)
    (stored : List UInt8) : ∃ pushed' p' s' fs',
      fgetsLoop L junk (m + 1) s fs stored = some ((false,stored ++ [0]),s',fs') ∧
      Reading content bufsize bytes pushed' p' b s' fs' := by
  obtain ⟨pushed',p',s',fs',hread,hnext⟩ := streamRead_reading h hL hR hsize 1
  have hfail : b.read 1 = ((Rc.failure,[]),b) := if_pos heof
  rw [hfail] at hread hnext
  have herr' : s'.err = false := (congrArg Source.err hnext.source).symm.trans herr
  refine ⟨pushed',p',s',fs',?_,hnext⟩
  rw [fgetsLoop,hread,bind_some]
  dsimp only
  rw [herr']
  rfl

/-- As long as bytes are left, the loop stores them up to the newline. -/
theorem fgetsLoop_ended (heof : b.eof = false) (hfit : b.pos + b.data.length < maxOfft)
    (hend : m ≤ b.data.length ∨ 10 ∈ b.data) (stored : List UInt8) :
    ∃ pushed' p' s' fs', fgetsLoop L junk m s fs stored =
        some ((true,stored ++ lineOf m b.data ++ [0]),s',fs') ∧
      Reading content bufsize bytes pushed' p' (after m b) s' fs' := by
  induction m generalizing pushed p b s fs stored with
  | zero =>
    have hafter : after 0 b = b := by simp [after,lineOf]
    rw [hafter]
    exact ⟨pushed,p,_,fs,by simp [fgetsLoop,lineOf],Reading.setErrno h 0⟩
  | succ m ih =>
    cases hdata : b.data with
    | nil => simp [hdata] at hend
    | cons c d =>
      obtain ⟨pushed',p',s',fs',hloop,hnext⟩ :=
        fgetsLoop_cons junk hL hR hsize h heof hfit hdata m stored
      rw [hdata,length_cons] at hfit
      rw [hloop]
      by_cases hc : c = 10
      · have hafter : after (m + 1) b = { b with data := d, pos := b.pos + 1 } := by
          simp [after,lineOf,hdata,hc]
        rw [hafter,if_pos hc,lineOf,if_pos hc]
        exact ⟨pushed',p',_,fs',rfl,Reading.setErrno hnext 0⟩
      · have hend' : m ≤ d.length ∨ 10 ∈ d := by
          rw [hdata] at hend
          rcases hend with hle | hmem
          · exact .inl (Nat.le_of_succ_le_succ hle)
          · exact .inr ((mem_cons.mp hmem).resolve_left (Ne.symm hc))
        have hafter : after m { b with data := d, pos := b.pos + 1 } = after (m + 1) b := by
          simp only [after,lineOf,hdata,if_neg hc,length_cons,drop_succ_cons]
          congr 1
          omega
        obtain ⟨pushed'',p'',s'',fs'',hrest,hlast⟩ :=
          ih hnext heof (by dsimp only; omega) hend' (stored ++ [c])
        rw [hafter] at hlast
        refine ⟨pushed'',p'',s'',fs'',?_,hlast⟩
        rw [if_neg hc,hrest,lineOf,if_neg hc,append_cons stored c (lineOf m d)]

/-- At the end of the file one more byte is stored. -/
theorem fgetsLoop_junk (heof : b.eof = false) (herr : b.err = false)
    (hfit : b.pos + b.data.length < maxOfft) (hlen : b.data.length < m) (hnl : 10 ∉ b.data)
    (stored : List UInt8) : ∃ ret c s' fs', fgetsLoop L junk m s fs stored =
      some ((ret,stored ++ b.data ++ [c] ++ [0]),s',fs') := by
  induction m generalizing pushed p b s fs stored with
  | zero => omega
  | succ m ih =>
    cases hdata : b.data with
    | nil =>
      obtain ⟨pushed',p',s',fs',hread,hnext⟩ := streamRead_reading h hL hR hsize 1
      rw [read_nil heof hfit hdata] at hread hnext
      have hloop : fgetsLoop L junk (m + 1) s fs stored = if junk stored.length = 10 then
          some ((true,stored ++ [junk stored.length] ++ [0]),{ s' with errno := 0 },fs')
          else fgetsLoop L junk m s' fs' (stored ++ [junk stored.length]) := by
        rw [fgetsLoop,hread]
        rfl
      rw [hloop,append_nil]
      split_ifs
      · exact ⟨true,_,_,_,rfl⟩
      · cases m with
        | zero => exact ⟨true,_,_,_,rfl⟩
        | succ m =>
          obtain ⟨_,_,s'',fs'',hend,_⟩ := fgetsLoop_atEnd junk hL hR hsize hnext rfl herr m
            (stored ++ [junk stored.length])
          exact ⟨false,_,s'',fs'',hend⟩
    | cons c d =>
      obtain ⟨pushed',p',s',fs',hloop,hnext⟩ :=
        fgetsLoop_cons junk hL hR hsize h heof hfit hdata m stored
      rw [hdata,length_cons] at hfit hlen
      rw [hdata,mem_cons,not_or] at hnl
      obtain ⟨ret,c',s'',fs'',hrest⟩ := ih hnext heof herr (by dsimp only; omega)
        (Nat.lt_of_succ_lt_succ hlen) hnl.2 (stored ++ [c])
      refine ⟨ret,c',s'',fs'',?_⟩
      rw [hloop,if_neg (Ne.symm hnl.1),hrest,append_cons stored c d]

theorem fgets_ended (herr : b.err = false) (hfit : b.pos + b.data.length < maxOfft) {n : ℤ}
    (hn : 2 ≤ n) (hend : Ended (n - 1).toNat b) : ∃ pushed' p' s' fs',
      fgets L junk s fs n = some ((!(lineOf (n - 1).toNat b.data).isEmpty,
        lineOf (n - 1).toNat b.data ++ [0]),s',fs') ∧
      Reading content bufsize bytes pushed' p' (after (n - 1).toNat b) s' fs' := by
  obtain ⟨m,hm⟩ : ∃ m, (n - 1).toNat = m + 1 := ⟨(n - 2).toNat,by omega⟩
  have hfgets : fgets L junk s fs n = fgetsLoop L junk (m + 1) s fs [] := by
    rw [fgets,if_neg (by omega),hm]
  rw [hfgets,hm,isEmpty_lineOf (Nat.succ_pos m)]
  rw [hm] at hend
  unfold Ended at hend
  split_ifs at hend with heof
  · obtain ⟨pushed',p',s',fs',hloop,hnext⟩ := fgetsLoop_atEnd junk hL hR hsize h heof herr m []
    rw [after_of_nil hend,hend]
    exact ⟨pushed',p',s',fs',hloop,hnext⟩
  · obtain ⟨pushed',p',s',fs',hloop,hnext⟩ := fgetsLoop_ended junk hL hR hsize h
      (Bool.eq_false_iff.mpr heof) hfit hend []
    have hne : b.data.isEmpty = false := by
      cases hdata : b.data with
      | nil => simp [hdata] at hend
      | cons => rfl
    rw [hne]
    exact ⟨pushed',p',s',fs',hloop,hnext⟩

theorem fgetsAll_ended (herr : b.err = false) (hfit : b.pos + b.data.length < maxOfft)
    {ns : List ℤ} (hall : AllEnded ns b) : fgetsAll L junk s fs ns =
      some ((linesOf ns b.data).map fun line => (!line.isEmpty,line ++ [0])) := by
  induction ns generalizing pushed p b s fs with
  | nil => rfl
  | cons n ns ih =>
    obtain ⟨hn,hend,hrest⟩ := hall
    obtain ⟨pushed',p',s',fs',hline,hnext⟩ := fgets_ended junk hL hR hsize h herr hfit hn hend
    have hle := (lineOf_isPrefix (n - 1).toNat b.data).length_le
    have hfit' : (after (n - 1).toNat b).pos + (after (n - 1).toNat b).data.length < maxOfft := by
      unfold after
      dsimp only
      rw [length_drop]
      omega
    rw [fgetsAll,hline,bind_some]
    dsimp only
    rw [ih hnext herr hfit' hrest]
    rfl

/-- A call returns the line that is next exactly if that line has ended, and then so do calls
one after the other. -/
theorem fgets_line_iff (herr : b.err = false) (hfit : b.pos + b.data.length < maxOfft) :
    (∀ n : ℤ, 2 ≤ n → ∃ line s' fs', fgets L junk s fs n = some (line,s',fs') ∧
      (RightLine (n - 1).toNat b.data line ↔ Ended (n - 1).toNat b)) ∧
    ∀ ns, AllEnded ns b →
      fgetsAll L junk s fs ns =
        some ((linesOf ns b.data).map fun line => (!line.isEmpty,line ++ [0])) ∧
      (linesOf ns b.data).flatten <+: b.data := by
  refine ⟨fun n hn => ?_,fun ns hall =>
    ⟨fgetsAll_ended junk hL hR hsize h herr hfit hall,linesOf_isPrefix ns b.data⟩⟩
  by_cases hend : Ended (n - 1).toNat b
  · obtain ⟨_,_,s',fs',hline,_⟩ := fgets_ended junk hL hR hsize h herr hfit hn hend
    refine ⟨_,s',fs',hline,iff_of_true ⟨rfl,?_⟩ hend⟩
    rw [isEmpty_lineOf (by omega)]
    simp
  · obtain ⟨m,hm⟩ : ∃ m, (n - 1).toNat = m + 1 := ⟨(n - 2).toNat,by omega⟩
    have hfgets : fgets L junk s fs n = fgetsLoop L junk (m + 1) s fs [] := by
      rw [fgets,if_neg (by omega),hm]
    rw [hfgets]
    rw [hm] at hend ⊢
    unfold Ended at hend
    split_ifs at hend with heof
    · obtain ⟨_,_,s',fs',hloop,_⟩ := fgetsLoop_atEnd junk hL hR hsize h heof herr m []
      refine ⟨_,s',fs',hloop,iff_of_false (fun hright => hend (hright.2.mp rfl)) ?_⟩
      unfold Ended
      rwa [if_pos heof]
    · obtain ⟨hlen,hnl⟩ := not_or.mp hend
      obtain ⟨ret,c,s',fs',hloop⟩ := fgetsLoop_junk junk hL hR hsize h
        (Bool.eq_false_iff.mpr heof) herr hfit (Nat.lt_of_not_le hlen) hnl []
      refine ⟨_,s',fs',hloop,iff_of_false (fun hright => ?_) ?_⟩
      · -- one byte too many
        have hstored := congrArg List.length hright.1
        rw [lineOf_whole (Nat.le_of_lt (Nat.lt_of_not_le hlen)) hnl] at hstored
        simp at hstored
      · unfold Ended
        rwa [if_neg heof]

end Calls

/-- The bytes of a line without a newline are lost at the end of the file: `NULL` is returned. -/
theorem fgets_last_line : ∃ s' fs',
    fgets plainUpdateFile (fun _ => 120)
      ⟨fopenStream ⟨true,false,false,false⟩ 0,false,true,[]⟩ [97,98] 10 =
        some ((false,[97,98,120,0]),s',fs') ∧
    ¬ RightLine 9 [97,98] (false,[97,98,120,0]) := by
  refine ⟨_,_,rfl,?_⟩
  unfold RightLine
  decide

theorem fgets_two_lines : fgetsAll plainUpdateFile (fun _ => 120)
    ⟨fopenStream ⟨true,false,false,false⟩ 0,false,true,[]⟩ [97,10,98] [5,2] =
      some [(true,[97,10,0]),(true,[98,0])] := by
  refine ((fgets_line_iff (fun _ => 120) plainFile_full plainUpdateFile_reads (by decide)
    (reading_fopenStream id ⟨true,false,false,false⟩ 0 [97,10,98] (by decide)) rfl
    (by decide)).2 [5,2] ?_).1
  exact ⟨by decide,.inr (by decide),by decide,.inl (by decide),trivial⟩

end UnifyFS.LineReads
