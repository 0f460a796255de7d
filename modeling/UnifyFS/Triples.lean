import Mathlib.Algebra.Order.Ring.Int

/-!
# Pre- and postconditions of stateful programs

Programs over a state that may stop with a fault. A triple speaks of the runs that
return: a run that faults satisfies every postcondition. There is one rule for each
way in which such programs are put together.
-/
namespace UnifyFS.Triples

/-- Programs over the states `σ`; a run without result has faulted. -/
abbrev Prog (σ α : Type) := StateT σ Option α

variable {σ α β : Type}

structure Triple (P : σ → Prop) (x : Prog σ α) (Q : α → σ → Prop) : Prop where
  holds : ∀ s a s', P s → x.run s = some (a,s') → Q a s'

def step (f : σ → α × σ) : Prog σ α := fun s => some (f s)

def update (f : σ → σ) : Prog σ Unit := step fun s => ((),f s)

def query (f : σ → α) : Prog σ α := step fun s => (f s,s)

def fault : Prog σ α := fun _ => none

section Rules
variable {P P' : σ → Prop} {x y : Prog σ α} {Q Q' : α → σ → Prop} {R : β → σ → Prop}

theorem Triple.ret {a : α} (h : ∀ s, P s → Q a s) : Triple P (pure a) Q := by
  constructor
  intro s b s' hs hrun
  cases hrun
  exact h s hs

theorem Triple.keep {a : α} : Triple P (pure a) fun _ => P := .ret fun _ h => h

theorem Triple.bind {f : α → Prog σ β} (hx : Triple P x Q) (hf : ∀ a, Triple (Q a) (f a) R) :
    Triple P (x >>= f) R := by
  constructor
  intro s b s' hs hrun
  rw [StateT.run_bind] at hrun
  cases hmid : x.run s with
  | none =>
    rw [hmid] at hrun
    cases hrun
  | some r =>
    rw [hmid] at hrun
    exact (hf r.1).holds r.2 b s' (hx.holds s r.1 r.2 hs hmid) hrun

theorem Triple.ite {c : Prop} [Decidable c] (hx : c → Triple P x Q) (hy : ¬ c → Triple P y Q) :
    Triple P (if c then x else y) Q := by
  split
  · next h => exact hx h
  · next h => exact hy h

theorem Triple.conseq (hx : Triple P x Q) (hpre : ∀ s, P' s → P s)
    (hpost : ∀ a s, Q a s → Q' a s) : Triple P' x Q' :=
  ⟨fun s a s' hs hrun => hpost a s' (hx.holds s a s' (hpre s hs) hrun)⟩

theorem Triple.pre (hx : Triple P x Q) (hpre : ∀ s, P' s → P s) : Triple P' x Q :=
  hx.conseq hpre fun _ _ h => h

theorem Triple.post (hx : Triple P x Q) (hpost : ∀ a s, Q a s → Q' a s) : Triple P x Q' :=
  hx.conseq (fun _ h => h) hpost

theorem Triple.top : Triple P x fun _ _ => True := ⟨fun _ _ _ _ _ => trivial⟩

theorem Triple.and (hx : Triple P x Q) (hx' : Triple P' x Q') :
    Triple (fun s => P s ∧ P' s) x fun a s => Q a s ∧ Q' a s :=
  ⟨fun s a s' hs hrun => ⟨hx.holds s a s' hs.1 hrun,hx'.holds s a s' hs.2 hrun⟩⟩

theorem Triple.step {f : σ → α × σ} (h : ∀ s, P s → Q (f s).1 (f s).2) : Triple P (step f) Q := by
  constructor
  intro s b s' hs hrun
  have hres : f s = (b,s') := Option.some.inj hrun
  have hpost := h s hs
  rw [hres] at hpost
  exact hpost

theorem Triple.update {f : σ → σ} {Q : Unit → σ → Prop} (h : ∀ s, P s → Q () (f s)) :
    Triple P (update f) Q := .step h

theorem Triple.query {f : σ → α} (h : ∀ s, P s → Q (f s) s) : Triple P (query f) Q := .step h

theorem Triple.fault : Triple P (fault : Prog σ α) Q := by
  constructor
  intro s b s' hs hrun
  cases hrun

theorem Triple.assume {c : Prop} (h : c → Triple P x Q) : Triple (fun s => c ∧ P s) x Q :=
  ⟨fun s a s' hs hrun => (h hs.1).holds s a s' hs.2 hrun⟩

theorem Triple.given {c : Prop} (h : c → Triple (fun _ => True) x Q) : Triple (fun _ => c) x Q :=
  ⟨fun s a s' hs hrun => (h hs).holds s a s' trivial hrun⟩

theorem Triple.exists_pre {ι : Type} {P : ι → σ → Prop} (h : ∀ i, Triple (P i) x Q) :
    Triple (fun s => ∃ i, P i s) x Q := by
  constructor
  intro s a s' hs hrun
  obtain ⟨i,hi⟩ := hs
  exact (h i).holds s a s' hi hrun

end Rules
end UnifyFS.Triples
