import UnifyFS.RangeTrees

/-!
# Extent trees

A server keeps for every file the extents that it knows, each with the log that
holds its bytes. `extent_tree_add` overwrites a range of the file,
`extent_tree_truncate` cuts the file to a size, `extent_tree_clear` empties it.
Offsets are natural numbers, since none of the sums and differences of a range
that ends no earlier than it starts leaves the range of a word; log positions wrap
around.

The message that a truncation writes when it removes an extent is printed from the
extent before it, after the step to that extent. With debug messages switched on
a truncation that removes the lowest extent therefore reads through a null
pointer. With them switched off the arguments are never looked at.
-/
namespace UnifyFS.ExtentTree
open RangeLists RangeTrees List

/-- Where a byte of a file lies, and the information of an extent: the place of its
first byte. -/
structure LogLoc where
  logPos : BitVec 64
  svrRank : ℤ
  appId : ℤ
  cliId : ℤ
  deriving DecidableEq, Repr

def LogLoc.val (p : LogLoc) (k : ℕ) : LogLoc := { p with logPos := p.logPos + BitVec.ofNat 64 k }

theorem LogLoc.val_val (p : LogLoc) (k j : ℕ) : (p.val k).val j = p.val (k + j) := by
  simp only [LogLoc.val,BitVec.ofNat_add,BitVec.add_assoc]

/-- The parts of an extent keep its log; extents are joined within one log only. -/
def extentLayout : Layout LogLoc LogLoc where
  val := LogLoc.val
  cut _ old k := old.val k
  joins p len q := decide (p.svrRank = q.svrRank ∧ p.cliId = q.cliId ∧ p.appId = q.appId ∧
    p.logPos + BitVec.ofNat 64 len = q.logPos)
  val_cut _ old k j := old.val_val k j
  val_join p len q h j := by
    obtain ⟨hrank,hcli,happ,hpos⟩ := of_decide_eq_true h
    have hq : q = p.val len := by
      cases q
      simp only [LogLoc.val] at hrank hcli happ hpos ⊢
      rw [hrank,hcli,happ,hpos]
    rw [hq,LogLoc.val_val]

abbrev Extent := Range LogLoc

def extentTreeInit : RangeTree LogLoc := ⟨[],0,0⟩

def extentTreeAdd (S : Picker LogLoc) (t : RangeTree LogLoc) (extent : Extent) :
    Option (RangeTree LogLoc) :=
  t.add extentLayout S extent

def extentTreeClear (t : RangeTree LogLoc) : RangeTree LogLoc :=
  match t.nodes with
  | [] => t
  | _ :: _ => ⟨[],0,0⟩

/-- The loop of a truncation, over the extents from the last one down, with the count.
`none` when it reads through the null pointer. -/
def truncateLoop (debug : Bool) (size : ℕ) : List Extent → ℕ → Option (List Extent × ℕ)
  | [], count => some ([],count)
  | n :: prev, count =>
    if n.stop < size then some (n :: prev,count)
    else if size ≤ n.start then
      if debug && prev.isEmpty then none else truncateLoop debug size prev (count - 1)
    else some (⟨n.start,size - 1,n.info⟩ :: prev,count)

/-- The new greatest offset, from the extent at which the loop stopped. -/
def endOfFirst : List Extent → ℕ
  | [] => 0
  | n :: _ => n.stop

def extentTreeTruncate (debug : Bool) (t : RangeTree LogLoc) (size : ℕ) :
    Option (RangeTree LogLoc) :=
  if size = 0 then some (extentTreeClear t)
  else
    match truncateLoop debug size t.nodes.reverse t.count with
    | none => none
    | some (down,count) => some ⟨down.reverse,count,endOfFirst down⟩

structure Sound (t : RangeTree LogLoc) : Prop extends t.Counted where
  isTop : IsTop t.nodes t.max

theorem extentTreeInit_sound : Sound extentTreeInit := ⟨⟨Separate.nil,rfl⟩,isTop_nil⟩

theorem extentTreeAdd_spec (S : Picker LogLoc) {t : RangeTree LogLoc} {e : Extent} (ht : Sound t)
    (he : e.start ≤ e.stop) :
    ∃ u, extentTreeAdd S t e = some u ∧ Sound u ∧ u.max = max t.max e.stop ∧
      ∀ b, contents LogLoc.val u.nodes b =
        if e.Holds b then some (e.value LogLoc.val b) else contents LogLoc.val t.nodes b := by
  obtain ⟨u,hu,hcounted,hmax,-,hmap⟩ := RangeTree.add_spec (S := S) ht.toCounted he
  refine ⟨u,hu,⟨hcounted,?_⟩,hmax,hmap⟩
  rw [hmax]
  exact isTop_overwrite ht.separate hcounted.separate ht.isTop he hmap

theorem extentTreeClear_eq {t : RangeTree LogLoc} (ht : Sound t) :
    extentTreeClear t = extentTreeInit := by
  unfold extentTreeClear
  split
  · next hnil =>
    have hcount := ht.count_eq
    have hmax : t.max = 0 := by
      cases ht.isTop.2 with
      | inl h => exact h.2
      | inr h =>
        obtain ⟨n,hn,-⟩ := h
        rw [hnil] at hn
        cases hn
    rw [hnil] at hcount
    cases t
    simp only at hnil hcount hmax
    rw [hnil,hcount,hmax]
    rfl
  · rfl

section Truncate
variable {debug : Bool} {size : ℕ} {down d : List Extent} {n : Extent}

theorem separate_reverse_cons : Separate (n :: down).reverse ↔
    Separate down.reverse ∧ n.start ≤ n.stop ∧ ∀ m ∈ down, m.stop < n.start := by
  rw [reverse_cons]
  constructor
  · intro h
    obtain ⟨hdown,hn,hlt⟩ := h.of_append
    exact ⟨hdown,hn.start_le n mem_cons_self,
      fun m hm => hlt m (mem_reverse.mpr hm) n mem_cons_self⟩
  · rintro ⟨hdown,hn,hlt⟩
    apply hdown.append (Separate.nil.cons hn (by simp))
    intro m hm k hk
    rw [mem_singleton.mp hk]
    exact hlt m (mem_reverse.mp hm)

theorem truncateLoop_eq_none_iff (debug : Bool) (size count : ℕ) (h : Separate down.reverse) :
    truncateLoop debug size down count = none ↔
      debug = true ∧ down ≠ [] ∧ ∀ n ∈ down, size ≤ n.start := by
  induction down generalizing count with
  | nil => simp [truncateLoop]
  | cons n prev ih =>
    obtain ⟨hprev,hn,-⟩ := separate_reverse_cons.mp h
    rw [truncateLoop]
    split
    · next hlt =>
      have : ¬ size ≤ n.start := by omega
      simp [this]
    · split
      · next hle =>
        cases prev with
        | nil => cases debug <;> simp [truncateLoop,hle]
        | cons m prev => simpa [hle] using ih (count - 1) hprev
      · next hgt => simp [hgt]

theorem contents_reverse_beyond {b : ℕ} (h : Separate (n :: down).reverse) (hb : n.stop < b) :
    contents LogLoc.val (n :: down).reverse b = none := by
  obtain ⟨-,hn,hlt⟩ := separate_reverse_cons.mp h
  rw [contents_eq_none_iff]
  intro m hm hmb
  have hbm := hmb.2
  cases mem_cons.mp (mem_reverse.mp hm) with
  | inl heq =>
    rw [heq] at hbm
    omega
  | inr hm =>
    have := hlt m hm
    omega

/-- A truncation that does not fail cuts the map off at the size. -/
theorem truncateLoop_spec (count : ℕ) {c : ℕ} (h : Separate down.reverse) (hsize : 0 < size)
    (hd : truncateLoop debug size down count = some (d,c)) :
    Separate d.reverse ∧ (count = down.length → c = d.length) ∧
      ∀ b, contents LogLoc.val d.reverse b =
        if b < size then contents LogLoc.val down.reverse b else none := by
  induction down generalizing count with
  | nil =>
    obtain ⟨rfl,rfl⟩ := hd
    exact ⟨Separate.nil,id,by simp⟩
  | cons n prev ih =>
    obtain ⟨hprev,hn,hlt⟩ := separate_reverse_cons.mp h
    rw [truncateLoop] at hd
    split at hd
    · next hstop =>
      obtain ⟨rfl,rfl⟩ := hd
      refine ⟨h,id,?_⟩
      intro b
      split
      · rfl
      · exact contents_reverse_beyond h (by omega)
    · split at hd
      · next hstart =>
        split at hd
        · cases hd
        · obtain ⟨hsep,hcount,hmap⟩ := ih (count - 1) hprev hd
          refine ⟨hsep,?_,?_⟩
          · intro hc
            apply hcount
            rw [hc]
            rfl
          · intro b
            rw [hmap b]
            split
            · next hb =>
              have hnb : ¬ n.Holds b := fun h => by
                have := h.1
                omega
              rw [reverse_cons,← contents_remove hnb,append_nil]
            · rfl
      · next hstart hgt =>
        obtain ⟨rfl,rfl⟩ := hd
        have hcut : Separate ((⟨n.start,size - 1,n.info⟩ : Extent) :: prev).reverse := by
          refine separate_reverse_cons.mpr ⟨hprev,?_,hlt⟩
          change n.start ≤ size - 1
          omega
        refine ⟨hcut,id,?_⟩
        intro b
        split
        · next hb =>
          rw [reverse_cons,reverse_cons]
          apply contents_replace
          · change n.start ≤ b ∧ b ≤ size - 1 ↔ n.start ≤ b ∧ b ≤ n.stop
            omega
          · intro _
            rfl
        · next hb => exact contents_reverse_beyond hcut (show size - 1 < b by omega)

theorem isTop_reverse (h : Separate d.reverse) : IsTop d.reverse (endOfFirst d) := by
  cases d with
  | nil => exact isTop_nil
  | cons n prev =>
    obtain ⟨-,hn,hlt⟩ := separate_reverse_cons.mp h
    refine ⟨?_,.inr ⟨n,mem_reverse.mpr mem_cons_self,rfl⟩⟩
    intro m hm
    cases mem_cons.mp (mem_reverse.mp hm) with
    | inl heq => exact heq ▸ Nat.le_refl _
    | inr hm =>
      have := hlt m hm
      change m.stop ≤ n.stop
      omega

end Truncate

section Operations
variable {debug : Bool} {t u : RangeTree LogLoc} {size : ℕ}

theorem extentTreeTruncate_eq_none_iff (ht : Sound t) :
    extentTreeTruncate debug t size = none ↔
      debug = true ∧ 0 < size ∧ t.nodes ≠ [] ∧ ∀ n ∈ t.nodes, size ≤ n.start := by
  have hrev : Separate t.nodes.reverse.reverse := by
    rw [reverse_reverse]
    exact ht.separate
  have hloop := truncateLoop_eq_none_iff debug size t.count hrev
  unfold extentTreeTruncate
  split
  · next hzero => simp [hzero]
  · next hpos =>
    have : 0 < size := Nat.pos_of_ne_zero hpos
    split
    · next hnone => simpa [hnone,this] using hloop
    · next hsome => simpa [hsome,this] using hloop

theorem extentTreeTruncate_spec (ht : Sound t) (hu : extentTreeTruncate debug t size = some u) :
    Sound u ∧ ∀ b, contents LogLoc.val u.nodes b =
      if b < size then contents LogLoc.val t.nodes b else none := by
  unfold extentTreeTruncate at hu
  split at hu
  · next hzero =>
    rw [← Option.some.inj hu,extentTreeClear_eq ht,hzero]
    exact ⟨extentTreeInit_sound,fun b => rfl⟩
  · next hpos =>
    split at hu
    · cases hu
    · next down count hloop =>
      have hrev : Separate t.nodes.reverse.reverse := by
        rw [reverse_reverse]
        exact ht.separate
      obtain ⟨hsep,hcount,hmap⟩ := truncateLoop_spec t.count hrev (Nat.pos_of_ne_zero hpos) hloop
      rw [reverse_reverse] at hmap
      rw [← Option.some.inj hu]
      refine ⟨⟨⟨hsep,?_⟩,isTop_reverse hsep⟩,hmap⟩
      rw [length_reverse]
      apply hcount
      rw [length_reverse,ht.count_eq]

end Operations

inductive ExtentOp where
  | add (S : Picker LogLoc) (extent : Extent) (h : extent.start ≤ extent.stop)
  | truncate (size : ℕ)
  | clear

/-- `none` when the call does not return. -/
def ExtentOp.apply (debug : Bool) (t : RangeTree LogLoc) : ExtentOp → Option (RangeTree LogLoc)
  | .add S extent _ => extentTreeAdd S t extent
  | .truncate size => extentTreeTruncate debug t size
  | .clear => some (extentTreeClear t)

/-- The map that a history means. -/
def ExtentOp.overwrite (f : ℕ → Option LogLoc) : ExtentOp → ℕ → Option LogLoc
  | .add _ e _, b => if e.start ≤ b ∧ b ≤ e.stop then some (e.info.val (b - e.start)) else f b
  | .truncate size, b => if b < size then f b else none
  | .clear, _ => none

/-- A truncation to a size other than zero that empties a file with data. -/
def ExtentOp.Empties (f : ℕ → Option LogLoc) : ExtentOp → Prop
  | .truncate size => 0 < size ∧ (∃ b, (f b).isSome) ∧ ∀ b < size, f b = none
  | _ => False

/-- No truncation of the history empties the file like that. -/
def Spared (f : ℕ → Option LogLoc) : List ExtentOp → Prop
  | [] => True
  | op :: ops => ¬ op.Empties f ∧ Spared (op.overwrite f) ops

section Histories
variable {debug : Bool} {t u : RangeTree LogLoc}

theorem all_beyond_iff {l : List Extent} (h : Separate l) (size : ℕ) :
    (l ≠ [] ∧ ∀ n ∈ l, size ≤ n.start) ↔
      (∃ b, (contents LogLoc.val l b).isSome) ∧ ∀ b < size, contents LogLoc.val l b = none := by
  constructor
  · rintro ⟨hne,hall⟩
    obtain ⟨n,hn⟩ := exists_mem_of_ne_nil l hne
    refine ⟨⟨n.start,(exists_holds_iff _).mp ⟨n,hn,Nat.le_refl _,h.start_le n hn⟩⟩,?_⟩
    intro b hb
    rw [contents_eq_none_iff]
    intro m hm hmb
    exact absurd (hall m hm) (Nat.not_le.mpr (Nat.lt_of_le_of_lt hmb.1 hb))
  · rintro ⟨⟨b,hb⟩,hnone⟩
    obtain ⟨n,hn,-⟩ := (exists_holds_iff _).mpr hb
    refine ⟨ne_nil_of_mem hn,?_⟩
    intro m hm
    by_contra hlt
    have hmb : m.Holds m.start := ⟨Nat.le_refl _,h.start_le m hm⟩
    exact contents_eq_none_iff.mp (hnone m.start (Nat.lt_of_not_le hlt)) m hm hmb

theorem ExtentOp.apply_eq_none_iff (debug : Bool) (ht : Sound t) (op : ExtentOp) :
    op.apply debug t = none ↔ debug = true ∧ op.Empties (contents LogLoc.val t.nodes) := by
  cases op with
  | add S e he =>
    obtain ⟨u,hu,-⟩ := extentTreeAdd_spec S ht he
    simp [ExtentOp.apply,ExtentOp.Empties,hu]
  | truncate size =>
    change extentTreeTruncate debug t size = none ↔ _
    rw [extentTreeTruncate_eq_none_iff ht,all_beyond_iff ht.separate]
    rfl
  | clear => simp [ExtentOp.apply,ExtentOp.Empties]

theorem ExtentOp.apply_spec (ht : Sound t) (op : ExtentOp) (hu : op.apply debug t = some u) :
    Sound u ∧ contents LogLoc.val u.nodes = op.overwrite (contents LogLoc.val t.nodes) := by
  cases op with
  | add S e he =>
    obtain ⟨v,hv,hsound,-,hmap⟩ := extentTreeAdd_spec S ht he
    rw [show u = v from Option.some.inj (hu.symm.trans hv)]
    exact ⟨hsound,funext hmap⟩
  | truncate size =>
    have h := extentTreeTruncate_spec ht hu
    exact ⟨h.1,funext h.2⟩
  | clear =>
    rw [← Option.some.inj hu,extentTreeClear_eq ht]
    exact ⟨extentTreeInit_sound,rfl⟩

theorem foldlM_apply_spec (ht : Sound t) (ops : List ExtentOp) :
    (∃ u, ops.foldlM (ExtentOp.apply debug) t = some u ∧ Sound u ∧
      contents LogLoc.val u.nodes = ops.foldl ExtentOp.overwrite (contents LogLoc.val t.nodes)) ↔
    (debug = true → Spared (contents LogLoc.val t.nodes) ops) := by
  induction ops generalizing t with
  | nil => exact ⟨fun _ _ => trivial,fun _ => ⟨t,rfl,ht,rfl⟩⟩
  | cons op ops ih =>
    rw [foldlM_cons]
    have hnone := ExtentOp.apply_eq_none_iff debug ht op
    cases hop : op.apply debug t with
    | none =>
      obtain ⟨hdebug,hempties⟩ := hnone.mp hop
      simp [Spared,hdebug,hempties]
    | some v =>
      obtain ⟨hv,hmap⟩ := ExtentOp.apply_spec ht op hop
      have hspared : debug = true → ¬ op.Empties (contents LogLoc.val t.nodes) := by
        intro hdebug hempties
        rw [hnone.mpr ⟨hdebug,hempties⟩] at hop
        cases hop
      have hrest := ih hv
      rw [hmap] at hrest
      refine hrest.trans ⟨?_,?_⟩
      · intro h hdebug
        exact ⟨hspared hdebug,h hdebug⟩
      · intro h hdebug
        exact (h hdebug).2

/-- A history leaves an ordered tree without overlap that maps each byte as the last add
did, with the right count and greatest offset, exactly if debug messages are off or no
truncation to a size above zero empties a file with data. -/
theorem extentTree_refines_iff (debug : Bool) (ops : List ExtentOp) :
    (∃ t, ops.foldlM (ExtentOp.apply debug) extentTreeInit = some t ∧
      t.nodes.Pairwise (fun a b => a.stop < b.start) ∧ (∀ n ∈ t.nodes, n.start ≤ n.stop) ∧
      (∀ b, contents LogLoc.val t.nodes b = ops.foldl ExtentOp.overwrite (fun _ => none) b) ∧
      t.count = t.nodes.length ∧ IsTop t.nodes t.max) ↔
    (debug = true → Spared (fun _ => none) ops) := by
  refine Iff.trans ?_ (foldlM_apply_spec extentTreeInit_sound ops)
  constructor
  · rintro ⟨t,ht,hordered,hle,hmap,hcount,htop⟩
    exact ⟨t,ht,⟨⟨⟨hordered,hle⟩,hcount⟩,htop⟩,funext hmap⟩
  · rintro ⟨t,ht,hsound,hmap⟩
    exact ⟨t,ht,hsound.separate.ordered,hsound.separate.start_le,congrFun hmap,hsound.count_eq,
      hsound.isTop⟩

/-- One extent behind the start of the file, then a truncation in front of it. -/
theorem extentTree_truncate_reads_null :
    [ExtentOp.add .first ⟨10,19,⟨0,0,1,1⟩⟩ (by decide),.truncate 5].foldlM
      (ExtentOp.apply true) extentTreeInit = none := by
  decide +kernel

end Histories
end UnifyFS.ExtentTree
