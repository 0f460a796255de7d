import UnifyFS.MetagetAll
import Mathlib.Data.List.TakeWhile

/-!
# Merges that fail

`merge_metaget_all_bcast_outputs` with every call that can fail: three allocations, three
creations of a bulk handle and two transfers. The merge returns at the first call that fails. What
it has done to the output of the parent by then stays: the string of file names is replaced before
the last bulk handle is created, the array and the number of files after it.

An allocation of a negative number of entries fails, and so does a transfer of more entries than
there are. There is no result if the number of files is no `int`.
-/
namespace UnifyFS.MergeFailures
open Concatenations MachineWords MetagetAll List Option

/-- The calls of the merge that can fail, in the order in which they are made. -/
inductive MergeCall where
  | childAlloc | childBulk | childTransfer
  | parentAlloc | parentBulk | parentTransfer
  | namesAlloc | mergedBulk
  deriving DecidableEq, Repr

/-- What the merge returns when a call fails. -/
def MergeCall.ret : MergeCall → Rc
  | .childAlloc | .parentAlloc | .namesAlloc => Rc.enomem
  | .childBulk | .childTransfer | .parentBulk | .parentTransfer | .mergedBulk => Rc.errorMargo

/-- The output of the parent when the merge returns, and the call that has failed. -/
structure Merged (A : Type) where
  failed : Option MergeCall
  out : Output A
  deriving DecidableEq, Repr

section Merge
variable {A : Type}

def Merged.ret (m : Merged A) : Rc := m.failed.elim Rc.success MergeCall.ret

/-- A bulk handle for the local array and a transfer into it, unless there is nothing to
transfer. -/
def pullAttrs (fails : MergeCall → Bool) (bulk transfer : MergeCall) (numFiles : ℤ)
    (fileMeta : List (A × ℕ)) : Except MergeCall (List (A × ℕ)) :=
  if numFiles = 0 then .ok []
  else if fails bulk then .error bulk
  else if fails transfer ∨ ¬ (0 < numFiles ∧ numFiles ≤ fileMeta.length) then .error transfer
  else .ok (fileMeta.take numFiles.toNat)

def replaceOutput (fails : MergeCall → Bool) (p c : Output A) (numFiles : ℤ)
    (parentAttrs childAttrs : List (A × ℕ)) : Merged A :=
  if fails .namesAlloc then ⟨some .namesAlloc,p⟩
  else
    let parentFilenamesLen := p.filenames.elim 0 strlen
    let p := { p with filenames := some (strcat (p.filenames.getD [0]) (c.filenames.getD [0])) }
    let childAttrs := childAttrs.map fun e => (e.1,e.2 + parentFilenamesLen)
    -- the old bulk handle is put back, the old string is not
    if fails .mergedBulk then ⟨some .mergedBulk,p⟩
    else ⟨none,{ p with numFiles := numFiles, fileMeta := parentAttrs ++ childAttrs }⟩

def appendChild (fails : MergeCall → Bool) (p c : Output A) (numFiles : ℤ)
    (childAttrs : List (A × ℕ)) : Merged A :=
  if 0 < numFiles ∧ fails .parentAlloc then ⟨some .parentAlloc,p⟩
  else
    match pullAttrs fails .parentBulk .parentTransfer p.numFiles p.fileMeta with
    | .error call => ⟨some call,p⟩
    | .ok parentAttrs => replaceOutput fails p c numFiles parentAttrs childAttrs

/-- `merge_metaget_all_bcast_outputs`, where the calls for which `fails` holds fail if they are
made. -/
def mergeOutputs (fails : MergeCall → Bool) (p c : Output A) : Option (Merged A) :=
  if p.numFiles = 0 ∧ c.numFiles = 0 then some ⟨none,p⟩
  else if c.numFiles ≠ 0 ∧ (fails .childAlloc ∨ c.numFiles < 0) then some ⟨some .childAlloc,p⟩
  else
    match pullAttrs fails .childBulk .childTransfer c.numFiles c.fileMeta with
    | .error call => some ⟨some call,p⟩
    | .ok childAttrs => (asInt (p.numFiles + c.numFiles)).map fun numFiles =>
      appendChild fails p c numFiles childAttrs

/-- The files that the server which has asked finds in an output. -/
def decodeOutput (out : Output A) : Option (List (File A)) :=
  (bulkPull out.numFiles out.fileMeta).bind (decodeNames (out.filenames.getD []))

end Merge

section Results
variable {A : Type} {fails : MergeCall → Bool} {p c : Output A} {m : Merged A} {call : MergeCall}
  {files : List (File A)}

theorem Merged.exists_failed (h : m.ret ≠ Rc.success) : ∃ call, m.failed = some call := by
  obtain ⟨failed,out⟩ := m
  cases failed with
  | none => exact absurd rfl h
  | some call => exact ⟨call,rfl⟩

theorem pullAttrs_error {bulk transfer : MergeCall} {numFiles : ℤ} {fileMeta : List (A × ℕ)}
    (h : pullAttrs fails bulk transfer numFiles fileMeta = .error call) :
    call = bulk ∨ call = transfer := by
  unfold pullAttrs at h
  split_ifs at h
  · exact .inl (Except.error.inj h).symm
  · exact .inr (Except.error.inj h).symm

theorem pullAttrs_never (bulk transfer : MergeCall) (numFiles : ℤ) (fileMeta : List (A × ℕ)) :
    (pullAttrs (fun _ => false) bulk transfer numFiles fileMeta).toOption =
      bulkPull numFiles fileMeta := by
  unfold pullAttrs bulkPull
  split_ifs <;> simp_all [Except.toOption]

/-- What a merge that fails leaves of the output of the parent: all of it, but for the string if
the last call has failed. -/
def Left (p c : Output A) (m : Merged A) : Prop :=
  ∀ call, m.failed = some call → call ≠ .mergedBulk ∧ m.out = p ∨ call = .mergedBulk ∧ m.out =
    { p with filenames := some (strcat (p.filenames.getD [0]) (c.filenames.getD [0])) }

theorem left_of_ne (hcall : call ≠ .mergedBulk) : Left p c ⟨some call,p⟩ := by
  intro call' hcall'
  cases hcall'
  exact .inl ⟨hcall,rfl⟩

theorem left_of_done (out : Output A) : Left p c ⟨none,out⟩ := nofun

theorem replaceOutput_left (numFiles : ℤ) (parentAttrs childAttrs : List (A × ℕ)) :
    Left p c (replaceOutput fails p c numFiles parentAttrs childAttrs) := by
  unfold replaceOutput
  split_ifs with hnames hbulk
  · exact left_of_ne nofun
  · intro call hcall
    exact .inr ⟨(some.inj hcall).symm,rfl⟩
  · exact left_of_done _

theorem appendChild_left (numFiles : ℤ) (childAttrs : List (A × ℕ)) :
    Left p c (appendChild fails p c numFiles childAttrs) := by
  unfold appendChild
  split_ifs with halloc
  · exact left_of_ne nofun
  · split
    · next call hpull =>
      refine left_of_ne ?_
      rcases pullAttrs_error hpull with rfl | rfl
      · nofun
      · nofun
    · exact replaceOutput_left _ _ _

theorem mergeOutputs_left (h : mergeOutputs fails p c = some m) : Left p c m := by
  unfold mergeOutputs at h
  split_ifs at h with hzero hchild
  · exact some.inj h ▸ left_of_done p
  · exact some.inj h ▸ left_of_ne nofun
  · split at h
    · next call hpull =>
      refine some.inj h ▸ left_of_ne ?_
      rcases pullAttrs_error hpull with rfl | rfl
      · nofun
      · nofun
    · obtain ⟨numFiles,-,rfl⟩ := map_eq_some_iff.mp h
      exact appendChild_left numFiles _

/-- If no call fails this is the merge of the module before. -/
theorem mergeOutputs_never (out : Output A) : mergeOutputs (fun _ => false) p c = some ⟨none,out⟩ ↔
      mergeMetagetAllBcastOutputs p c = some out := by
  have hchild := pullAttrs_never .childBulk .childTransfer c.numFiles c.fileMeta
  have hparent := pullAttrs_never .parentBulk .parentTransfer p.numFiles p.fileMeta
  unfold mergeOutputs mergeMetagetAllBcastOutputs appendChild replaceOutput
  rw [← hchild,← hparent]
  by_cases hzero : p.numFiles = 0 ∧ c.numFiles = 0
  · simp [hzero]
  · rw [if_neg hzero,if_neg hzero]
    -- the allocation of a negative number of entries stands for a transfer that is not possible
    by_cases hneg : c.numFiles < 0
    · have herror : pullAttrs (fun _ => false) .childBulk .childTransfer c.numFiles c.fileMeta =
          .error .childTransfer := by
        rw [pullAttrs,if_neg (by omega),if_neg (by decide),if_pos (.inr (by omega))]
      rw [if_pos ⟨by omega,.inr hneg⟩,herror]
      simp [Except.toOption]
    · rw [if_neg (by simp [hneg])]
      generalize pullAttrs (fun _ => false) .childBulk .childTransfer c.numFiles c.fileMeta = child
      generalize pullAttrs (fun _ => false) .parentBulk .parentTransfer p.numFiles p.fileMeta =
        parent
      cases child <;> cases parent <;> cases asInt (p.numFiles + c.numFiles) <;>
        simp [Except.toOption]

theorem decodeOutput_encodes (h : Encodes files p) (hno : NoNul files) :
    decodeOutput p = some files := by
  rw [decodeOutput,bulkPull_encodes h]
  rcases h.filenames with hnames | ⟨-,rfl⟩
  · rw [hnames]
    exact decodeNames_starts hno (l := [])
  · rfl

theorem cstr_no_nul (mem : List UInt8) : 0 ∉ cstr mem := by
  intro hzero
  have hne := mem_takeWhile_imp hzero
  exact absurd rfl (of_decide_eq_true hne)

theorem decodeOutput_extended (h : Encodes files p) (hno : NoNul files) (names : List UInt8) :
    decodeOutput { p with filenames := some (strcat (p.filenames.getD [0]) names) } =
      some (extendLast (cstr names) files) := by
  have hpull := bulkPull_encodes h
  rw [decodeOutput,hpull,getD_some,strcat,h.cstr_filenames hno]
  exact decodeNames_extended (cstr_no_nul names) hno (l := [])

theorem extendLast_eq_self {extra : List UInt8} :
    extendLast extra files = files ↔ files = [] ∨ extra = [] := by
  constructor
  · intro h
    induction files with
    | nil => exact .inl rfl
    | cons f files ih =>
      right
      cases files with
      | nil =>
        rw [extendLast,List.cons.injEq,Prod.ext_iff] at h
        exact append_right_eq_self.mp h.1.2
      | cons g files =>
        rw [extendLast,List.cons.injEq] at h
        exact (ih h.2).resolve_left (cons_ne_nil _ _)
  · rintro (rfl | rfl)
    · rfl
    · exact extendLast_nil files

/-- A failed merge leaves the files of the parent as they were, unless the last call has failed,
the parent has files and the child has names. -/
theorem mergeOutputs_failed_iff (hp : Encodes files p) (hno : NoNul files)
    (h : mergeOutputs fails p c = some m) (hret : m.ret ≠ Rc.success) :
    decodeOutput m.out = some files ↔
      m.failed ≠ some .mergedBulk ∨ files = [] ∨ cstr (c.filenames.getD [0]) = [] := by
  obtain ⟨call,hfailed⟩ := m.exists_failed hret
  rw [hfailed,ne_eq,some.injEq]
  rcases mergeOutputs_left h call hfailed with ⟨hcall,hout⟩ | ⟨rfl,hout⟩
  · rw [hout,decodeOutput_encodes hp hno]
    exact iff_of_true rfl (.inl hcall)
  · rw [hout,decodeOutput_extended hp hno,some.injEq,extendLast_eq_self]
    exact ⟨.inr,fun h => h.resolve_left (absurd rfl)⟩

end Results

def oneFile (attr : ℕ) (letter : UInt8) : Output ℕ := ⟨1,[(attr,0)],some [letter,0],Rc.success⟩

def onlyFails (call call' : MergeCall) : Bool := decide (call' = call)

/-- The file of the parent with the name `a` has got the name `ab`. -/
theorem mergeOutputs_one_file :
    mergeOutputs (onlyFails .mergedBulk) (oneFile 1 97) (oneFile 2 98) =
        some ⟨some .mergedBulk,⟨1,[(1,0)],some [97,98,0],Rc.success⟩⟩ ∧
      decodeOutput (oneFile 1 97) = some [(1,[97])] ∧
      decodeOutput (⟨1,[(1,0)],some [97,98,0],Rc.success⟩ : Output ℕ) = some [(1,[97,98])] := by
  decide

/-- If the transfer from the child fails, the name stays. -/
theorem mergeOutputs_one_file_transfer :
    mergeOutputs (onlyFails .childTransfer) (oneFile 1 97) (oneFile 2 98) =
        some ⟨some .childTransfer,oneFile 1 97⟩ ∧
      decodeOutput (oneFile 1 97) = some [(1,[97])] := by
  have hencodes : Encodes [(1,[97])] (oneFile 1 97) := ⟨rfl,rfl,.inl rfl⟩
  have hmerge : mergeOutputs (onlyFails .childTransfer) (oneFile 1 97) (oneFile 2 98) =
      some ⟨some .childTransfer,oneFile 1 97⟩ := by decide
  exact ⟨hmerge,(mergeOutputs_failed_iff hencodes (by decide) hmerge (by decide)).mpr
    (.inl (by decide))⟩

end UnifyFS.MergeFailures
