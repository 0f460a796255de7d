import Mathlib.Data.List.Basic
import Mathlib.Algebra.Order.Ring.Int

/-!
# Overwriting part of a buffer or file

`overwrite` replaces the cells from a position on. Cells before and after the
new data are kept; when the position lies behind the end, the cells in between
are filled with `gap`. One lemma says what every cell holds afterwards, and all
other facts about writes are read off it.
-/
namespace UnifyFS.ByteBuffers
open List
variable {α : Type*} (gap : α)

def overwrite (buf : List α) (pos : ℕ) (data : List α) : List α :=
  buf.take pos ++ List.replicate (pos - buf.length) gap ++ data ++ buf.drop (pos + data.length)

theorem length_overwrite (buf : List α) (pos : ℕ) (data : List α) :
    (overwrite gap buf pos data).length = max buf.length (pos + data.length) := by
  simp only [overwrite,length_append,length_take,length_replicate,length_drop]
  omega

theorem overwrite_end (buf data : List α) : overwrite gap buf buf.length data = buf ++ data := by
  simp [overwrite]

theorem getElem?_overwrite (buf : List α) (pos : ℕ) (data : List α) (i : ℕ) :
    (overwrite gap buf pos data)[i]? =
      if pos ≤ i ∧ i < pos + data.length then data[i - pos]?
      else if i < buf.length then buf[i]? else if i < pos then some gap else none := by
  have hfront : (buf.take pos ++ List.replicate (pos - buf.length) gap).length = pos := by
    simp only [length_append,length_take,length_replicate]
    omega
  unfold overwrite
  rcases Nat.lt_or_ge i pos with hlt | hge
  · rw [append_assoc,getElem?_append_left (by omega),if_neg (by omega)]
    rcases Nat.lt_or_ge i buf.length with hi | hi
    · rw [if_pos hi,getElem?_append_left (by rw [length_take]; omega),getElem?_take_of_lt hlt]
    · rw [if_neg (by omega),if_pos hlt,getElem?_append_right (by rw [length_take]; omega),
        getElem?_replicate_of_lt]
      rw [length_take]
      omega
  · rw [append_assoc,getElem?_append_right (by omega),hfront]
    rcases Nat.lt_or_ge i (pos + data.length) with hi | hi
    · rw [if_pos ⟨hge,hi⟩,getElem?_append_left (by omega)]
    · rw [if_neg (by omega),getElem?_append_right (by omega),getElem?_drop,
        show pos + data.length + (i - pos - data.length) = i by omega]
      split_ifs with hb
      · rfl
      · omega
      · exact getElem?_eq_none (by omega)

theorem getElem?_overwrite_beyond {pos i : ℕ} {data : List α} (h : pos + data.length ≤ i)
    (buf : List α) : (overwrite gap buf pos data)[i]? = buf[i]? := by
  rw [getElem?_overwrite,if_neg (by omega)]
  split_ifs with hb hp
  · rfl
  · omega
  · exact (getElem?_eq_none (by omega)).symm

theorem getElem?_overwrite_inside {buf : List α} {pos : ℕ} {data : List α}
    (h : pos + data.length ≤ buf.length) (i : ℕ) : (overwrite gap buf pos data)[i]? =
      if pos ≤ i ∧ i < pos + data.length then data[i - pos]? else buf[i]? := by
  rw [getElem?_overwrite]
  split_ifs with hin hb hp
  · rfl
  · rfl
  · omega
  · exact (getElem?_eq_none (by omega)).symm

theorem slice_overwrite (buf : List α) (pos : ℕ) (data : List α) :
    ((overwrite gap buf pos data).drop pos).take data.length = data := by
  apply ext_getElem?
  intro i
  by_cases hi : i < data.length
  · rw [getElem?_take_of_lt hi,getElem?_drop,getElem?_overwrite,if_pos (by omega),
      Nat.add_sub_cancel_left]
  · rw [getElem?_eq_none (by rw [length_take]; omega),getElem?_eq_none (by omega)]

theorem overwrite_overwrite (buf : List α) (pos : ℕ) (data data' : List α) :
    overwrite gap (overwrite gap buf pos data) (pos + data.length) data' =
      overwrite gap buf pos (data ++ data') := by
  apply ext_getElem?
  intro i
  simp only [getElem?_overwrite,length_overwrite,length_append]
  by_cases hsecond : pos + data.length ≤ i ∧ i < pos + data.length + data'.length
  · rw [if_pos hsecond,if_pos (by omega),getElem?_append_right (by omega)]
    congr 1
    omega
  · rw [if_neg hsecond]
    by_cases hfirst : pos ≤ i ∧ i < pos + data.length
    · rw [if_pos (by omega),if_pos hfirst,if_pos (by omega),getElem?_append_left (by omega)]
    · rw [if_neg hfirst,if_neg (c := pos ≤ i ∧ i < pos + (data.length + data'.length)) (by omega)]
      by_cases hbuf : i < buf.length
      · rw [if_pos (by omega)]
      · by_cases hgap : i < pos
        · rw [if_pos (by omega),if_pos hgap]
        · rw [if_neg (by omega),if_neg (by omega),if_neg hbuf,if_neg hgap]

def PartOf (src : List α) (pos : ℕ) (data : List α) : Prop :=
  pos + data.length ≤ src.length ∧ ∀ i < data.length, data[i]? = src[pos + i]?

theorem partOf_slice {src : List α} {pos : ℕ} (size : ℕ) (h : pos ≤ src.length) :
    PartOf src pos ((src.drop pos).take size) := by
  constructor
  · rw [length_take,length_drop]
    omega
  · intro i hi
    rw [length_take] at hi
    rw [getElem?_take_of_lt (by omega),getElem?_drop]

section Parts
variable {src buf : List α} {pos : ℕ} {data : List α}

theorem agree_overwrite (hpart : PartOf src pos data) {k : ℕ}
    (h : buf[k]? = src[k]? ∧ k < buf.length ∨ pos ≤ k ∧ k < pos + data.length) :
    (overwrite gap buf pos data)[k]? = src[k]? := by
  rw [getElem?_overwrite]
  split_ifs with hin hbuf hgap
  · rw [hpart.2 _ (by omega)]
    congr 1
    omega
  · exact (h.resolve_right hin).1
  · exact absurd (h.resolve_right hin).2 hbuf
  · exact absurd (h.resolve_right hin).2 hbuf

/-- Parts of a source that meet every cell rebuild it, in any order. -/
theorem foldl_overwrite_parts {ws : List (ℕ × List α)} (hpart : ∀ w ∈ ws, PartOf src w.1 w.2)
    (hall : ∀ k < src.length, (buf[k]? = src[k]? ∧ k < buf.length) ∨
      ∃ w ∈ ws, w.1 ≤ k ∧ k < w.1 + w.2.length) (hlen : buf.length ≤ src.length) :
    ws.foldl (fun buf w => overwrite gap buf w.1 w.2) buf = src := by
  induction ws generalizing buf with
  | nil =>
    have hcell : ∀ k < src.length, buf[k]? = src[k]? ∧ k < buf.length := by
      intro k hk
      apply (hall k hk).resolve_right
      rintro ⟨w,hw,-⟩
      cases hw
    apply ext_getElem?
    intro k
    rcases Nat.lt_or_ge k src.length with hk | hk
    · exact (hcell k hk).1
    · rw [foldl_nil,getElem?_eq_none (by omega),getElem?_eq_none hk]
  | cons w ws ih =>
    have hw := hpart w mem_cons_self
    rw [foldl_cons]
    apply ih
    · exact fun x hx => hpart x (mem_cons_of_mem _ hx)
    · intro k hk
      have hlength := length_overwrite gap buf w.1 w.2
      rcases hall k hk with hold | ⟨x,hx,hin⟩
      · exact .inl ⟨agree_overwrite gap hw (.inl hold),by omega⟩
      · rcases mem_cons.mp hx with rfl | hrest
        · exact .inl ⟨agree_overwrite gap hw (.inr hin),by omega⟩
        · exact .inr ⟨x,hrest,hin⟩
    · rw [length_overwrite]
      have hfit := hw.1
      omega

end Parts
end UnifyFS.ByteBuffers
