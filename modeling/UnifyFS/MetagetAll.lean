import Mathlib.Data.List.Perm.Subperm
import UnifyFS.Concatenations
import UnifyFS.MachineWords
import UnifyFS.ReturnCodes

/-!
# The attributes of all files

A server asks all servers for the files that they own. Each server sends an array of attributes and
one string with all file names, and in place of a file name an entry has the offset of the name in
the string. A parent appends the array and the string of a child to its own ones and moves the
offsets of the child. The server that has asked cuts the string up again: a name ends where the
next one starts.

Messages arrive and allocations succeed. The number of files is of type `int`; other sizes are
natural numbers. A string in memory is a list of bytes that counts up to the first zero.
-/
namespace UnifyFS.MetagetAll
open Concatenations MachineWords List Option

def cstr (mem : List UInt8) : List UInt8 := mem.takeWhile (· ≠ 0)

def strlen (mem : List UInt8) : ℕ := (cstr mem).length

def strcat (dst src : List UInt8) : List UInt8 := cstr dst ++ cstr src ++ [0]

def strndup (mem : List UInt8) (n : ℕ) : List UInt8 := (cstr mem).take n

abbrev File (A : Type) := A × List UInt8

/-- `metaget_all_bcast_out_t`, with the array that can be fetched with it. -/
structure Output (A : Type) where
  numFiles : ℤ
  fileMeta : List (A × ℕ)
  filenames : Option (List UInt8)
  ret : Rc
  deriving DecidableEq, Repr

section Messages
variable {A : Type}

def Output.zero : Output A := ⟨0,[],none,Rc.success⟩

/-- The offset of each name is the length of the names before it. -/
def nameOffsets : ℕ → List (File A) → List (A × ℕ)
  | _, [] => []
  | totalNameLen, (attr,name) :: files =>
    (attr,totalNameLen) :: nameOffsets (totalNameLen + strlen name) files

/-- `process_metaget_bcast_rpc`: the output for the files that a server owns. -/
def processMetagetBcast (files : List (File A)) : Option (Output A) := do
  let numFiles ← asInt files.length
  if files.isEmpty then pure Output.zero
  else
    pure ⟨numFiles,nameOffsets 0 files,some (files.foldl (fun names f => strcat names f.2) [0]),
      Rc.success⟩

/-- A bulk transfer of some entries. Nothing is transferred if there are none. -/
def bulkPull (numFiles : ℤ) (fileMeta : List (A × ℕ)) : Option (List (A × ℕ)) :=
  if numFiles = 0 then some []
  else if 0 < numFiles ∧ numFiles ≤ fileMeta.length then some (fileMeta.take numFiles.toNat)
  else none

def mergeMetagetAllBcastOutputs (p c : Output A) : Option (Output A) :=
  if p.numFiles = 0 ∧ c.numFiles = 0 then some p
  else do
    let childAttrs ← bulkPull c.numFiles c.fileMeta
    let numFiles ← asInt (p.numFiles + c.numFiles)
    let parentAttrs ← bulkPull p.numFiles p.fileMeta
    let parentFilenamesLen := p.filenames.elim 0 strlen
    let childAttrs := childAttrs.map fun e => (e.1,e.2 + parentFilenamesLen)
    pure { p with
      numFiles := numFiles
      fileMeta := parentAttrs ++ childAttrs
      filenames := some (strcat (p.filenames.getD [0]) (c.filenames.getD [0])) }

/-- The part of `get_child_response` for this broadcast. The result of the merge is not
checked. -/
def getChildResponse (p c : Output A) : Option (Output A) :=
  mergeMetagetAllBcastOutputs { p with ret := if c.ret ≠ Rc.success then c.ret else p.ret } c

def pointerAt (mem : List UInt8) (offset : ℕ) : Option (List UInt8) :=
  if offset < mem.length then some (mem.drop offset) else none

def decodeNames (names : List UInt8) : List (A × ℕ) → Option (List (File A))
  | [] => some []
  | [(attr,start)] => do
      let name ← pointerAt names start
      pure [(attr,strndup name (strlen name))]
  | (attr,start) :: (attr',next) :: rest => do
      let name ← pointerAt names start
      let files ← decodeNames names ((attr',next) :: rest)
      pure ((attr,strndup name (wordSub next start)) :: files)

end Messages

/-- A server with the files it owns and its children in the order in which their replies come. -/
inductive Server (A : Type) where
  | mk (owned : List (File A)) (children : List (Server A))

section Tree
variable {A : Type}

mutual

def reply : Server A → Option (Output A)
  | .mk owned children => do
      let out ← processMetagetBcast owned
      collectReplies out children

def collectReplies : Output A → List (Server A) → Option (Output A)
  | out, [] => some out
  | out, child :: children => do
      let response ← reply child
      let out ← getChildResponse out response
      collectReplies out children

end

mutual

def Server.files : Server A → List (File A)
  | .mk owned children => owned ++ filesOf children

def filesOf : List (Server A) → List (File A)
  | [] => []
  | child :: children => child.files ++ filesOf children

end

def invokeBroadcastMetagetAll : Server A → Option (List (File A) × ℤ)
  | .mk owned children => do
      let results ← collectReplies Output.zero children
      let attrs ← bulkPull results.numFiles results.fileMeta
      let remote ← decodeNames (results.filenames.getD []) attrs
      let numFileAttrs ← asInt (results.numFiles + owned.length)
      pure (remote ++ owned,numFileAttrs)

end Tree

section Encodes
variable {A : Type} {files files' : List (File A)} {p c : Output A} {l : List UInt8}

def NoNul (files : List (File A)) : Prop := ∀ f ∈ files, 0 ∉ f.2

instance (files : List (File A)) : Decidable (NoNul files) :=
  inferInstanceAs (Decidable (∀ f ∈ files, 0 ∉ f.2))

theorem cstr_append (h : 0 ∉ l) (rest : List UInt8) : cstr (l ++ rest) = l ++ cstr rest :=
  takeWhile_append_of_pos fun _ hb => decide_eq_true fun hzero => h (hzero ▸ hb)

theorem cstr_eq (h : 0 ∉ l) : cstr l = l := by
  have happend := cstr_append h []
  rwa [show cstr [] = [] from rfl,append_nil] at happend

theorem cstr_terminated (h : 0 ∉ l) : cstr (l ++ [0]) = l := by
  rw [cstr_append h]
  exact append_nil l

theorem NoNul.joined (h : NoNul files) : 0 ∉ joined files := by
  intro hmem
  obtain ⟨f,hf,hzero⟩ := mem_flatMap.mp hmem
  exact h f hf hzero

theorem noNul_append : NoNul (files ++ files') ↔ NoNul files ∧ NoNul files' :=
  forall_mem_append

/-- The output holds the entries of these files, with one terminated string of all names. -/
structure Encodes (files : List (File A)) (out : Output A) : Prop where
  numFiles : out.numFiles = files.length
  fileMeta : out.fileMeta = starts 0 files
  filenames : out.filenames = some (joined files ++ [0]) ∨ out.filenames = none ∧ files = []

theorem Encodes.cstr_filenames (h : Encodes files p) (hno : NoNul files) :
    cstr (p.filenames.getD [0]) = joined files := by
  rcases h.filenames with hnames | ⟨hnames,rfl⟩
  · rw [hnames]
    exact cstr_terminated hno.joined
  · rw [hnames]
    rfl

theorem Encodes.filenames_length (h : Encodes files p) (hno : NoNul files) :
    p.filenames.elim 0 strlen = (joined files).length := by
  rcases h.filenames with hnames | ⟨hnames,rfl⟩
  · rw [hnames]
    exact congrArg List.length (cstr_terminated hno.joined)
  · rw [hnames]
    rfl

theorem zero_encodes : Encodes ([] : List (File A)) Output.zero := ⟨rfl,rfl,.inr ⟨rfl,rfl⟩⟩

theorem bulkPull_encodes (h : Encodes files p) :
    bulkPull p.numFiles p.fileMeta = some (starts 0 files) := by
  unfold bulkPull
  rw [h.numFiles,h.fileMeta,length_starts]
  cases files with
  | nil => rfl
  | cons f files =>
    have hpos : 0 < (f :: files).length := Nat.succ_pos _
    rw [if_neg (by omega),if_pos ⟨by omega,Int.le_refl _⟩,Int.toNat_natCast,
      take_of_length_le (Nat.le_of_eq (length_starts 0 _))]

theorem nameOffsets_eq (hno : NoNul files) (offset : ℕ) :
    nameOffsets offset files = starts offset files := by
  induction files generalizing offset with
  | nil => rfl
  | cons f files ih =>
    have hname : strlen f.2 = f.2.length :=
      congrArg List.length (cstr_eq (hno f mem_cons_self))
    rw [nameOffsets,starts,hname,ih fun g hg => hno g (mem_cons_of_mem _ hg)]

theorem foldl_strcat (hno : NoNul files) (hl : 0 ∉ l) :
    files.foldl (fun names f => strcat names f.2) (l ++ [0]) = l ++ joined files ++ [0] := by
  induction files generalizing l with
  | nil => rw [joined_nil,append_nil]; rfl
  | cons f files ih =>
    have hname := hno f mem_cons_self
    rw [foldl_cons,strcat,cstr_terminated hl,cstr_eq hname,
      ih (fun g hg => hno g (mem_cons_of_mem _ hg)) (by simp [hl,hname]),joined_cons,
      append_assoc l]

theorem processMetagetBcast_encodes (hno : NoNul files) (hlen : (files.length : ℤ) ≤ intMax) :
    ∃ out, processMetagetBcast files = some out ∧ Encodes files out := by
  unfold processMetagetBcast
  rw [asInt_of_mem ⟨Int.natCast_nonneg _,hlen⟩,bind_eq_bind]
  cases files with
  | nil => exact ⟨_,rfl,zero_encodes⟩
  | cons f files =>
    refine ⟨_,rfl,rfl,nameOffsets_eq hno 0,.inl ?_⟩
    exact congrArg some (foldl_strcat hno (l := []) (by simp))

/-- The offsets of the child are moved by the length of the names of the parent. -/
theorem merge_encodes (hp : Encodes files p) (hc : Encodes files' c) (hno : NoNul files)
    (hno' : NoNul files') (hlen : ((files ++ files').length : ℤ) ≤ intMax) :
    ∃ out, mergeMetagetAllBcastOutputs p c = some out ∧ Encodes (files ++ files') out := by
  rw [length_append,Int.natCast_add] at hlen
  unfold mergeMetagetAllBcastOutputs
  by_cases hzero : p.numFiles = 0 ∧ c.numFiles = 0
  · have hnil : files' = [] := eq_nil_of_length_eq_zero (by
      have := hc.numFiles
      omega)
    rw [if_pos hzero,hnil,append_nil]
    exact ⟨p,rfl,hp⟩
  · rw [if_neg hzero,bulkPull_encodes hp,bulkPull_encodes hc,hp.numFiles,hc.numFiles,
      asInt_of_mem ⟨by omega,hlen⟩]
    refine ⟨_,rfl,?_,?_,.inl ?_⟩
    · exact (by rw [length_append,Int.natCast_add])
    · change starts 0 files ++ (starts 0 files').map _ = _
      rw [hp.filenames_length hno,← starts_add,starts_append]
    · change some (strcat _ _) = _
      rw [strcat,hp.cstr_filenames hno,hc.cstr_filenames hno',joined_append]

theorem Encodes.with_ret (h : Encodes files p) (ret : Rc) : Encodes files { p with ret := ret } :=
  ⟨h.numFiles,h.fileMeta,h.filenames⟩

/-- The files with something behind the name of the last one. -/
def extendLast (extra : List UInt8) : List (File A) → List (File A)
  | [] => []
  | [(attr,name)] => [(attr,name ++ extra)]
  | f :: g :: files => f :: extendLast extra (g :: files)

theorem extendLast_nil (files : List (File A)) : extendLast [] files = files := by
  induction files with
  | nil => rfl
  | cons f files ih =>
    cases files with
    | nil => rw [extendLast,append_nil]
    | cons g files => rw [extendLast,ih]

theorem decodeNames_extended {extra : List UInt8} (hextra : 0 ∉ extra) (hno : NoNul files) :
    decodeNames (l ++ joined files ++ extra ++ [0]) (starts l.length files) =
      some (extendLast extra files) := by
  induction files generalizing l with
  | nil => rfl
  | cons f files ih =>
    have hname := hno f mem_cons_self
    have hrest : NoNul files := fun g hg => hno g (mem_cons_of_mem _ hg)
    have hpointer : pointerAt (l ++ joined (f :: files) ++ extra ++ [0]) l.length =
        some (f.2 ++ (joined files ++ extra ++ [0])) := by
      have hlt : l.length < (l ++ joined (f :: files) ++ extra ++ [0]).length := by
        simp only [length_append,length_singleton]
        omega
      rw [pointerAt,if_pos hlt,joined_cons]
      simp only [append_assoc,drop_left]
    have hcstr : cstr (f.2 ++ (joined files ++ extra ++ [0])) = f.2 ++ (joined files ++ extra) := by
      rw [cstr_append hname,cstr_terminated (by simp [hrest.joined,hextra])]
    cases files with
    | nil =>
      rw [starts,starts,decodeNames,hpointer]
      change some [(f.1,strndup _ _)] = _
      rw [strndup,strlen,hcstr,take_length,joined_nil]
      rfl
    | cons g files =>
      have hih := ih hrest (l := l ++ f.2)
      rw [length_append,append_assoc l,← joined_cons,starts] at hih
      rw [starts,starts,decodeNames,hpointer,hih]
      change some ((f.1,strndup _ _) :: _) = _
      rw [strndup,hcstr,wordSub_of_le (Nat.le_add_right _ _),Nat.add_sub_cancel_left,
        take_left,extendLast]

theorem decodeNames_starts (hno : NoNul files) :
    decodeNames (l ++ joined files ++ [0]) (starts l.length files) = some files := by
  have h : decodeNames (l ++ joined files ++ [] ++ [0]) (starts l.length files) =
      some (extendLast [] files) := decodeNames_extended not_mem_nil hno
  rwa [append_nil,extendLast_nil] at h

end Encodes

section Broadcast
variable {A : Type}

mutual

theorem reply_encodes : ∀ (s : Server A), NoNul s.files → (s.files.length : ℤ) ≤ intMax →
    ∃ out, reply s = some out ∧ Encodes s.files out
  | .mk owned children, hno, hlen => by
      rw [Server.files] at hno hlen ⊢
      rw [List.length_append,Int.natCast_add] at hlen
      obtain ⟨out,hout,hencodes⟩ := processMetagetBcast_encodes (noNul_append.mp hno).1
        (show (owned.length : ℤ) ≤ intMax by omega)
      rw [reply,hout]
      exact collectReplies_encodes children hencodes hno
        (by rw [length_append,Int.natCast_add]; exact hlen)

theorem collectReplies_encodes : ∀ (children : List (Server A)) {files : List (File A)}
    {out : Output A}, Encodes files out → NoNul (files ++ filesOf children) →
    ((files ++ filesOf children).length : ℤ) ≤ intMax →
    ∃ out', collectReplies out children = some out' ∧ Encodes (files ++ filesOf children) out'
  | [], files, out, hencodes, _, _ => by
      rw [filesOf,List.append_nil,collectReplies]
      exact ⟨out,rfl,hencodes⟩
  | child :: children, files, out, hencodes, hno, hlen => by
      rw [filesOf,← List.append_assoc] at hno hlen ⊢
      obtain ⟨hno',-⟩ := noNul_append.mp hno
      obtain ⟨hfiles,hchild⟩ := noNul_append.mp hno'
      have hlen' : ((files ++ child.files).length : ℤ) ≤ intMax := by
        rw [length_append] at hlen
        omega
      obtain ⟨response,hreply,hresponse⟩ := reply_encodes child hchild (by
        rw [length_append] at hlen'
        omega)
      obtain ⟨merged,hmerge,hmerged⟩ := merge_encodes
        (hencodes.with_ret (if response.ret ≠ Rc.success then response.ret else out.ret)) hresponse
        hfiles hchild hlen'
      rw [collectReplies,hreply]
      have hget : getChildResponse out response = some merged := hmerge
      change ∃ out', (getChildResponse out response).bind
        (fun out => collectReplies out children) = some out' ∧ _
      rw [hget]
      exact collectReplies_encodes children hmerged hno hlen

end

/-- Every file has a global id of its own: inodes are found by their id, and one server owns an
id. `unifyfs_generate_gfid` makes 31 bits of a hash, and zero is not a valid id. -/
structure OwnGfids (gfid : A → ℤ) (files : List (File A)) : Prop where
  nodup : (files.map fun f => gfid f.1).Nodup
  range : ∀ f ∈ files, 1 ≤ gfid f.1 ∧ gfid f.1 ≤ intMax

theorem OwnGfids.length_le {gfid : A → ℤ} (h : OwnGfids gfid files) :
    (files.length : ℤ) ≤ intMax := by
  have hsub : (files.map fun f => gfid f.1) ⊆
      (List.range intMax.toNat).map fun i : ℕ => (i : ℤ) + 1 := by
    intro id hid
    obtain ⟨f,hf,rfl⟩ := List.mem_map.mp hid
    obtain ⟨hpos,hle⟩ := h.range f hf
    refine List.mem_map.mpr ⟨(gfid f.1 - 1).toNat,mem_range.mpr (by omega),by omega⟩
  have hle := (subperm_of_subset h.nodup hsub).length_le
  have hmax : (0 : ℤ) ≤ intMax := by decide
  rw [length_map,length_map,length_range] at hle
  omega

/-- The root gets the files of all servers, each with its own name. -/
theorem invokeBroadcastMetagetAll_perm (s : Server A) (hno : NoNul s.files) (gfid : A → ℤ)
    (hgfid : OwnGfids gfid s.files) :
    ∃ list : List (File A), invokeBroadcastMetagetAll s = some (list,(list.length : ℤ)) ∧
      list.Perm s.files := by
  have hlen := hgfid.length_le
  obtain ⟨owned,children⟩ := s
  rw [Server.files] at hno hlen ⊢
  obtain ⟨-,hchildren⟩ := noNul_append.mp hno
  rw [length_append] at hlen
  obtain ⟨out,hout,hencodes⟩ := collectReplies_encodes children zero_encodes hchildren (by
    rw [nil_append]
    omega)
  rw [nil_append] at hencodes
  have hdecode : decodeNames (out.filenames.getD []) (starts 0 (filesOf children)) =
      some (filesOf children) := by
    rcases hencodes.filenames with hnames | ⟨-,hnil⟩
    · rw [hnames]
      exact decodeNames_starts hchildren (l := [])
    · rw [hnil]
      rfl
  refine ⟨filesOf children ++ owned,?_,perm_append_comm⟩
  have hint : asInt (out.numFiles + owned.length) =
      some ((filesOf children ++ owned).length : ℤ) := by
    rw [hencodes.numFiles,asInt_of_mem ⟨by omega,by omega⟩,length_append,Int.natCast_add]
  rw [invokeBroadcastMetagetAll,hout]
  simp only [bind_eq_bind,bind_some,bulkPull_encodes hencodes,hdecode,hint]
  rfl

def fourServers : Server ℤ :=
  .mk [(8,[97])] [.mk [(5,[98,99]),(2147483645,[97])] [.mk [] []],.mk [(3,[100])] []]

theorem invokeBroadcastMetagetAll_four : ∃ list : List (File ℤ),
    invokeBroadcastMetagetAll fourServers = some (list,(list.length : ℤ)) ∧
      list.Perm [(8,[97]),(5,[98,99]),(2147483645,[97]),(3,[100])] :=
  invokeBroadcastMetagetAll_perm fourServers (by decide) id ⟨by decide,by decide⟩

end Broadcast

end UnifyFS.MetagetAll
