import UnifyFS.ReturnCodes

/-!
# Lines of a stage manifest

`unifyfs_parse_manifest_line` replaces quotes, and whitespace outside of quotes, by null
characters and takes the strings between them as paths. A line with two paths gives both, and one
with fewer or more is an error. Lines with only whitespace were to be ignored like comments, but
only a newline as the first character is looked for.
-/
namespace UnifyFS.ManifestLines
open List

def isspace (c : UInt8) : Bool := c == 32 || decide (9 ≤ c) && decide (c ≤ 13)

def quote : UInt8 := 34

/-- The first loop, over the copy of the line without its null character at the end. -/
def replaceSeparators : Bool → List UInt8 → List UInt8
  | _, [] => []
  | inQuotes, c :: rest =>
    if c = quote then 0 :: replaceSeparators (!inQuotes) rest
    else if isspace c && !inQuotes then 0 :: replaceSeparators inQuotes rest
    else c :: replaceSeparators inQuotes rest

abbrev Parsed := Rc × Option (List UInt8) × Option (List UInt8)

/-- The second loop: `tmp` is the string that ends at the next null character. -/
def rescan (src dst : Option (List UInt8)) : List UInt8 → List UInt8 → Parsed
  | _, [] => (0,src,dst)
  | tmp, c :: copy =>
    if c ≠ 0 then rescan src dst (tmp ++ [c]) copy
    else if tmp.length > 0 then
      match src,dst with
      | none, dst => rescan (some tmp) dst [] copy
      | some src, none => rescan (some src) (some tmp) [] copy
      | some src, some dst => (Rc.einval,some src,some dst)
    else rescan src dst [] copy

/-- `unifyfs_parse_manifest_line`, when memory can be allocated. -/
def unifyfsParseManifestLine (line : List UInt8) : Parsed :=
  if line.head? = some 10 ∨ line.head? = some 35 then (0,none,none)
  else
    match rescan none none [] (replaceSeparators false line ++ [0]) with
    | (0,some src,some dst) => (0,some src,some dst)
    | (ret,_,_) => (if ret = 0 then Rc.einval else ret,none,none)

/-- The spelling of a path: quoted, or free of whitespace and quotes. -/
inductive Spells : List UInt8 → List UInt8 → Prop
  | bare {path : List UInt8} : path ≠ [] →
      (∀ c ∈ path, c ≠ 0 ∧ c ≠ quote ∧ isspace c = false) → Spells path path
  | quoted {path : List UInt8} : path ≠ [] → (∀ c ∈ path, c ≠ 0 ∧ c ≠ quote) →
      Spells (quote :: path ++ [quote]) path

/-- The paths on a line, with whitespace between them and around them. -/
inductive Paths : List UInt8 → List (List UInt8) → Prop
  | none {gap : List UInt8} : (∀ c ∈ gap, isspace c = true) → Paths gap []
  | cons {gap text path rest : List UInt8} {paths : List (List UInt8)} :
      (∀ c ∈ gap, isspace c = true) → Spells text path → (∀ c ∈ rest.head?, isspace c = true) →
      Paths rest paths → Paths (gap ++ (text ++ rest)) (path :: paths)

/-- What a line with these paths is to give. -/
def Expected : List (List UInt8) → Parsed → Prop
  | [], r => r = (0,none,none)
  | [src,dst], r => r = (0,some src,some dst)
  | _, r => r.1 ≠ 0 ∧ r.2 = (none,none)

/-- The strings that are found become the source and the destination. -/
def keep : Option (List UInt8) → Option (List UInt8) → List (List UInt8) → Parsed
  | src, dst, [] => (0,src,dst)
  | none, dst, path :: paths => keep (some path) dst paths
  | some src, none, path :: paths => keep (some src) (some path) paths
  | some src, some dst, _ :: _ => (Rc.einval,some src,some dst)

section Loops
variable {src dst : Option (List UInt8)} {path gap text rest : List UInt8}
  {paths : List (List UInt8)}

theorem rescan_char {c : UInt8} (hc : c ≠ 0) (tmp copy : List UInt8) :
    rescan src dst tmp (c :: copy) = rescan src dst (tmp ++ [c]) copy := by
  rw [rescan.eq_def]
  exact if_pos hc

theorem rescan_nul (copy : List UInt8) :
    rescan src dst [] (0 :: copy) = rescan src dst [] copy := by
  rw [rescan.eq_def]
  rfl

theorem isspace_quote : isspace quote = false := by decide

theorem replaceSeparators_gap (hgap : ∀ c ∈ gap, isspace c = true) (rest : List UInt8) :
    rescan src dst [] (replaceSeparators false (gap ++ rest) ++ [0]) =
      rescan src dst [] (replaceSeparators false rest ++ [0]) := by
  induction gap with
  | nil => rfl
  | cons c gap ih =>
    have hspace := hgap c mem_cons_self
    have hc : c ≠ quote := by
      rintro rfl
      rw [isspace_quote] at hspace
      cases hspace
    rw [cons_append,replaceSeparators,if_neg hc,if_pos (by simp [hspace]),cons_append]
    exact ih fun c hm => hgap c (mem_cons_of_mem _ hm)

theorem rescan_string (hpath : ∀ c ∈ path, c ≠ 0) (tmp copy : List UInt8) :
    rescan src dst tmp (path ++ copy) = rescan src dst (tmp ++ path) copy := by
  induction path generalizing tmp with
  | nil => rw [append_nil]; rfl
  | cons c path ih =>
    rw [cons_append,rescan_char (hpath c mem_cons_self),
      ih (fun c hm => hpath c (mem_cons_of_mem _ hm)),append_assoc]
    rfl

theorem replaceSeparators_path {inQuotes : Bool}
    (hpath : ∀ c ∈ path, c ≠ quote ∧ (isspace c && !inQuotes) = false) (rest : List UInt8) :
    replaceSeparators inQuotes (path ++ rest) = path ++ replaceSeparators inQuotes rest := by
  induction path with
  | nil => rfl
  | cons c path ih =>
    obtain ⟨hc,hspace⟩ := hpath c mem_cons_self
    rw [cons_append,replaceSeparators,if_neg hc,if_neg (by rw [hspace]; decide),
      ih fun c hm => hpath c (mem_cons_of_mem _ hm)]
    rfl

theorem keep_cons (hpaths : ∀ src dst, rescan src dst [] text = keep src dst paths)
    (hne : path ≠ []) : rescan src dst path (0 :: text) = keep src dst (path :: paths) := by
  have hlen := length_pos_iff.mpr hne
  rw [rescan.eq_def]
  dsimp only
  rw [if_pos hlen]
  cases src with
  | none => exact hpaths _ _
  | some src =>
    cases dst with
    | none => exact hpaths _ _
    | some dst => rfl

/-- After a path the copy goes on with a null character. -/
theorem replaceSeparators_rest (hrest : ∀ c ∈ rest.head?, isspace c = true) :
    ∃ copy, replaceSeparators false rest ++ [0] = 0 :: copy := by
  cases rest with
  | nil => exact ⟨[],rfl⟩
  | cons c rest =>
    have hspace := hrest c rfl
    rw [replaceSeparators]
    split
    · exact ⟨_,rfl⟩
    · rw [if_pos (by simp [hspace])]
      exact ⟨_,rfl⟩

theorem rescan_paths {line : List UInt8} (h : Paths line paths) (src dst : Option (List UInt8)) :
    rescan src dst [] (replaceSeparators false line ++ [0]) = keep src dst paths := by
  induction h generalizing src dst with
  | @none gap hgap =>
    rw [← append_nil gap,replaceSeparators_gap hgap]
    cases src <;> cases dst <;> rfl
  | @cons gap text path rest paths hgap hspells hrest _ ih =>
    rw [replaceSeparators_gap hgap]
    obtain ⟨copy,hcopy⟩ := replaceSeparators_rest hrest
    have hskip : ∀ src dst, rescan src dst [] copy = keep src dst paths := by
      intro src dst
      rw [← ih src dst,hcopy,rescan_nul]
    cases hspells with
    | bare hne hpath =>
      rw [replaceSeparators_path (fun c hc => ⟨(hpath c hc).2.1,by simp [(hpath c hc).2.2]⟩),
        append_assoc,hcopy,rescan_string (fun c hc => (hpath c hc).1)]
      exact keep_cons hskip hne
    | quoted hne hpath =>
      have hquotes : replaceSeparators false (quote :: path ++ [quote] ++ rest) =
          0 :: (path ++ 0 :: replaceSeparators false rest) := by
        rw [append_assoc,cons_append,replaceSeparators,if_pos rfl,
          replaceSeparators_path (fun c hc => ⟨(hpath c hc).2,by simp⟩)]
        rfl
      rw [hquotes,cons_append,rescan_nul,append_assoc,rescan_string (fun c hc => (hpath c hc).1)]
      exact keep_cons (ih · ·) hne

end Loops

/-- A comment is ignored. Any other line that spells paths is taken as it should be, unless it has
no path and does not begin with a newline, or begins with a newline and has paths. -/
theorem manifest_line_iff (line : List UInt8) :
    (line.head? = some 35 → unifyfsParseManifestLine line = (0,none,none)) ∧
    ∀ paths, line.head? ≠ some 35 → Paths line paths →
      (Expected paths (unifyfsParseManifestLine line) ↔ (line.head? = some 10 ↔ paths = [])) := by
  refine ⟨fun hcomment => if_pos (.inr hcomment),fun paths hcomment hpaths => ?_⟩
  unfold unifyfsParseManifestLine
  by_cases hnl : line.head? = some 10
  · rw [if_pos (.inl hnl)]
    match paths with
    | [] => simp [Expected,hnl]
    | [_] => simp [Expected,hnl]
    | [_,_] => simp [Expected,hnl]
    | _ :: _ :: _ :: _ => simp [Expected,hnl]
  · rw [if_neg (by simp [hnl,hcomment]),rescan_paths hpaths]
    match paths with
    | [] => simp [Expected,hnl,keep,Rc.einval]
    | [_] => simp [Expected,hnl,keep,Rc.einval]
    | [_,_] => simp [Expected,hnl,keep]
    | _ :: _ :: _ :: _ => simp [Expected,hnl,keep,Rc.einval]

/-- A line of one blank is reported as invalid. -/
theorem blank_line_fails : Paths [32,10] [] ∧
    unifyfsParseManifestLine [32,10] = (Rc.einval,none,none) ∧
    ¬ Expected [] (unifyfsParseManifestLine [32,10]) := by
  refine ⟨.none (by simp [isspace]),by decide,?_⟩
  unfold Expected
  decide

theorem manifest_line_two_paths :
    unifyfsParseManifestLine [32,97,9,34,98,32,99,34,10] = (0,some [97],some [98,32,99]) := by
  have hpaths : Paths [32,97,9,34,98,32,99,34,10] [[97],[98,32,99]] :=
    @Paths.cons [32] [97] _ _ _ (by simp [isspace]) (.bare (by simp) (by simp [isspace,quote]))
      (by simp [isspace]) (@Paths.cons [9] _ _ _ _ (by simp [isspace])
        (@Spells.quoted [98,32,99] (by simp) (by simp [quote])) (by simp [isspace])
        (.none (by simp [isspace])))
  exact ((manifest_line_iff _).2 _ (by decide) hpaths).mpr (by decide)

end UnifyFS.ManifestLines
