import Mathlib.Data.List.Induction
import Mathlib.Algebra.Order.Ring.Int

/-!
# Runs of a partial step function under a guard

A component is a partial step function on a state type: `none` means that the
event cannot be taken, because the call it stands for does not return. A run
takes one event after another; its guard is a condition on the state before
each step and on the event. An invariant that every guarded step preserves
holds in every state that a guarded run reaches. Runs without a guard are computed by
`List.foldlM`, with two rules of their own.
-/
namespace UnifyFS.GuardedRuns
open List Option

variable {S E : Type*}

inductive Run (step : S → E → Option S) (guard : S → E → Prop) : S → List E → S → Prop
  | nil (s : S) : Run step guard s [] s
  | cons {s u v : S} {e : E} {es : List E} : guard s e → step s e = some u →
      Run step guard u es v → Run step guard s (e :: es) v

/-- The state that a sequence of events leads to, computed. -/
def exec (step : S → E → Option S) (guard : S → E → Bool) : S → List E → Option S
  | s, [] => some s
  | s, e :: es => if guard s e then (step s e).bind fun u => exec step guard u es else none

namespace Run
variable {step : S → E → Option S} {guard : S → E → Prop} {s u v : S} {es : List E}

theorem invariant {I : S → Prop} (hI : ∀ s e u, I s → guard s e → step s e = some u → I u)
    (h : Run step guard s es u) (hs : I s) : I u := by
  induction h with
  | nil _ => exact hs
  | cons hg ht _ ih => exact ih (hI _ _ _ hs hg ht)

theorem of_exec {guard : S → E → Bool} (h : exec step guard s es = some u) :
    Run step (fun s e => guard s e = true) s es u := by
  induction es generalizing s with
  | nil =>
    cases h
    exact .nil _
  | cons e es ih =>
    rw [exec] at h
    split_ifs at h with hg
    obtain ⟨v,hv,hrest⟩ := bind_eq_some_iff.mp h
    exact .cons hg hv (ih hrest)

theorem exists_of_exec {guard : S → E → Bool} {P : S → Bool}
    (h : (exec step guard s es).any P = true) :
    ∃ u, Run step (fun s e => guard s e = true) s es u ∧ P u = true := by
  cases hu : exec step guard s es with
  | none => simp [hu] at h
  | some u => exact ⟨u,of_exec hu,by simpa [hu] using h⟩

theorem unique (h : Run step guard s es u) (h' : Run step guard s es v) : u = v := by
  induction h with
  | nil _ =>
    cases h'
    rfl
  | cons _ ht _ ih =>
    cases h' with
    | cons _ ht' hrest =>
      obtain rfl := some.inj (ht.symm.trans ht')
      exact ih hrest

theorem append {es' : List E} (h : Run step guard s es u) (h' : Run step guard u es' v) :
    Run step guard s (es ++ es') v := by
  induction h with
  | nil _ => exact h'
  | cons hg ht _ ih => exact .cons hg ht (ih h')

theorem weaken {guard' : S → E → Prop} (hg : ∀ s e, guard s e → guard' s e)
    (h : Run step guard s es u) : Run step guard' s es u := by
  induction h with
  | nil _ => exact .nil _
  | cons hs ht _ ih => exact .cons (hg _ _ hs) ht ih

/-- A property that is lost for good once it is lost. If it holds at the end of a run
and no step that breaks a second guard leaves it intact, then the run meets that
guard. -/
theorem strengthen {guard' : S → E → Prop} {I P : S → Prop}
    (hI : ∀ s e u, I s → guard s e → step s e = some u → I u)
    (hback : ∀ s e u, step s e = some u → P u → P s)
    (hg : ∀ s e u, I s → step s e = some u → P u → guard' s e)
    (h : Run step guard s es u) (hs : I s) (hP : P u) : Run step guard' s es u ∧ P s := by
  induction h with
  | nil _ => exact ⟨.nil _,hP⟩
  | cons hguard ht _ ih =>
    have hrest := ih (hI _ _ _ hs hguard ht) hP
    exact ⟨.cons (hg _ _ _ hs ht hrest.2) ht hrest.1,hback _ _ _ ht hrest.2⟩

/-- A relation to the events so far that every step keeps up. -/
theorem history {R : List E → S → Prop}
    (hstep : ∀ pre e t v, R pre t → guard t e → step t e = some v → R (pre ++ [e]) v)
    (h : Run step guard s es u) (hs : R [] s) : R es u := by
  induction h generalizing R with
  | nil _ => exact hs
  | @cons s v _ e _ hg ht _ ih =>
    exact ih (fun pre => hstep (e :: pre)) (hstep [] e s v hs hg ht)

/-- Under an invariant, a property that is lost at exactly the steps that break a second guard:
it holds all along a run if and only if every step meets that guard. -/
theorem always_iff (guard' : S → E → Prop) {I P : List E → S → Prop}
    (hI : ∀ pre e t v, I pre t → guard t e → step t e = some v → I (pre ++ [e]) v)
    (hP : ∀ pre e t v, I pre t → P pre t → guard t e → step t e = some v →
      (P (pre ++ [e]) v ↔ guard' t e)) (h : Run step guard s es u) (hIs : I [] s) (hPs : P [] s) :
    (∀ pre t, pre <+: es → Run step guard s pre t → P pre t) ↔
      Run step (fun t e => guard t e ∧ guard' t e) s es u := by
  induction h generalizing I P with
  | nil _ =>
    refine ⟨fun _ => .nil _,fun _ pre t hpre ht => ?_⟩
    obtain rfl := prefix_nil.mp hpre
    cases ht
    exact hPs
  | @cons s v u e es hg ht _ ih =>
    have hfirst := hP [] e s v hIs hPs hg ht
    have hrest := ih (P := fun pre => P (e :: pre))
      (fun pre => hI (e :: pre)) (fun pre => hP (e :: pre)) (hI [] e s v hIs hg ht)
    constructor
    · intro hall
      have hv := hall [e] v (prefix_append [e] es) (.cons hg ht (.nil v))
      refine .cons ⟨hg,hfirst.mp hv⟩ ht ((hrest hv).mp fun pre t hpre hrun => ?_)
      exact hall (e :: pre) t (cons_prefix_cons.mpr ⟨rfl,hpre⟩) (.cons hg ht hrun)
    · intro hrun pre t hpre hto
      cases hto with
      | nil _ => exact hPs
      | cons hg' ht' hto =>
        obtain ⟨rfl,htail⟩ := cons_prefix_cons.mp hpre
        obtain rfl := some.inj (ht.symm.trans ht')
        cases hrun with
        | cons hboth ht'' hrun =>
          obtain rfl := some.inj (ht.symm.trans ht'')
          exact (hrest (hfirst.mpr hboth.2)).mpr hrun _ t htail hto

theorem always_iff_guard (guard' : S → E → Prop) {I P : List E → S → Prop}
    (hI : ∀ pre e t v, I pre t → step t e = some v → I (pre ++ [e]) v)
    (hP : ∀ pre e t v, I pre t → P pre t → step t e = some v → (P (pre ++ [e]) v ↔ guard' t e))
    (h : Run step (fun _ _ => True) s es u) (hIs : I [] s) (hPs : P [] s) :
    (∀ pre t, pre <+: es → Run step (fun _ _ => True) s pre t → P pre t) ↔
      Run step guard' s es u := by
  rw [h.always_iff guard' (fun pre e t v ht _ => hI pre e t v ht)
    (fun pre e t v ht hp _ => hP pre e t v ht hp) hIs hPs]
  exact ⟨fun hrun => hrun.weaken fun _ _ hg => hg.2,
    fun hrun => hrun.weaken fun _ _ hg => ⟨trivial,hg⟩⟩

theorem of_foldlM (h : es.foldlM step s = some u) : Run step (fun _ _ => True) s es u := by
  induction es generalizing s with
  | nil =>
    cases h
    exact .nil _
  | cons e es ih =>
    obtain ⟨v,hv,hrest⟩ := bind_eq_some_iff.mp h
    exact .cons trivial hv (ih hrest)

end Run

section Folds
variable {step : S → E → Option S} {s u : S} {es : List E}

theorem exists_foldlM_of_prefix {R : List E → S → Prop}
    (hstep : ∀ pre e t, pre ++ [e] <+: es → R pre t → ∃ v, step t e = some v ∧ R (pre ++ [e]) v)
    (hs : R [] s) : ∃ u, es.foldlM step s = some u ∧ R es u := by
  induction es using reverseRecOn with
  | nil => exact ⟨s,rfl,hs⟩
  | append_singleton es e ih =>
    obtain ⟨t,ht,hR⟩ := ih fun pre e' t hpre =>
      hstep pre e' t (hpre.trans (prefix_append es [e]))
    obtain ⟨v,hv,hR'⟩ := hstep es e t (prefix_refl _) hR
    refine ⟨v,?_,hR'⟩
    rw [foldlM_append,ht]
    simpa using hv

theorem exists_foldlM {R : List E → S → Prop}
    (hstep : ∀ pre e t, e ∈ es → R pre t → ∃ v, step t e = some v ∧ R (pre ++ [e]) v)
    (hs : R [] s) : ∃ u, es.foldlM step s = some u ∧ R es u :=
  exists_foldlM_of_prefix (fun pre e t hpre =>
    hstep pre e t (hpre.subset (mem_append_right _ mem_cons_self))) hs

theorem foldlM_invariant {I : S → Prop} (hI : ∀ t e v, e ∈ es → I t → step t e = some v → I v)
    (h : es.foldlM step s = some u) (hs : I s) : I u := by
  induction es generalizing s with
  | nil =>
    cases h
    exact hs
  | cons e es ih =>
    obtain ⟨v,hv,hrest⟩ := bind_eq_some_iff.mp h
    exact ih (fun t e' v he' => hI t e' v (mem_cons_of_mem _ he')) hrest
      (hI s e v mem_cons_self hs hv)

end Folds
end UnifyFS.GuardedRuns
