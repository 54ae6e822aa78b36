import Mathlib.Tactic

/-!
# Runs of a partial step function

A label either has no next state or exactly one. `Reaches` collects the
states of the runs whose labels meet a side condition at every step; `exec`
runs a list of labels; `Meets` and `Holds` speak of the conditions met and of
the states visited along such a list.
-/

set_option autoImplicit false

namespace Bbfs.Runs

variable {σ ι : Type*}

inductive Reaches (step : ι → σ → Option σ) (cond : ι → σ → Prop) (s₀ : σ) : σ → Prop
  | start : Reaches step cond s₀ s₀
  | step {s s' : σ} (i : ι) (before : Reaches step cond s₀ s) (side : cond i s)
      (move : step i s = some s') : Reaches step cond s₀ s'

def exec (step : ι → σ → Option σ) : List ι → σ → Option σ
  | [], s => some s
  | i::is, s => (step i s).bind (exec step is)

def Meets (step : ι → σ → Option σ) (cond : ι → σ → Prop) : List ι → σ → Prop
  | [], _ => True
  | i::is, s =>
    match step i s with
    | none => True
    | some s' => cond i s ∧ Meets step cond is s'

def Holds (step : ι → σ → Option σ) (good : σ → Prop) : List ι → σ → Prop
  | [], s => good s
  | i::is, s => good s ∧
    match step i s with
    | none => True
    | some s' => Holds step good is s'

instance decidableMeets (step : ι → σ → Option σ) (cond : ι → σ → Prop)
    [∀ i s, Decidable (cond i s)] (is : List ι) (s : σ) : Decidable (Meets step cond is s) :=
  match is with
  | [] => isTrue trivial
  | i::is =>
    match h : step i s with
    | none => isTrue (by simp [Meets, h])
    | some s' =>
      have := decidableMeets step cond is s'
      decidable_of_iff (cond i s ∧ Meets step cond is s') (by simp [Meets, h])

variable {step : ι → σ → Option σ} {cond cond' : ι → σ → Prop} {s₀ s s' : σ}

theorem Reaches.invariant {inv : σ → Prop} (h : Reaches step cond s₀ s) (h0 : inv s₀)
    (hs : ∀ i t t', inv t → cond i t → step i t = some t' → inv t') : inv s := by
  induction h with
  | start => exact h0
  | step i before side move ih => exact hs i _ _ ih side move

theorem Reaches.mono (h : Reaches step cond s₀ s) (hc : ∀ i t, cond i t → cond' i t) :
    Reaches step cond' s₀ s := by
  induction h with
  | start => exact Reaches.start
  | step i before side move ih => exact Reaches.step i ih (hc i _ side) move

theorem Reaches.trans (h : Reaches step cond s₀ s) (h' : Reaches step cond s s') :
    Reaches step cond s₀ s' := by
  induction h' with
  | start => exact h
  | step i before side move ih => exact Reaches.step i ih side move

theorem exec_append (is js : List ι) (s : σ) :
    exec step (is++js) s = (exec step is s).bind (exec step js) := by
  induction is generalizing s with
  | nil => rfl
  | cons i is ih =>
    rw [List.cons_append, exec, exec, Option.bind_assoc]
    exact congrArg (Option.bind (step i s)) (funext ih)

theorem reaches_of_exec (is : List ι) (hm : Meets step cond is s) (he : exec step is s = some s') :
    Reaches step cond s s' := by
  induction is generalizing s with
  | nil =>
    cases Option.some.inj he
    exact Reaches.start
  | cons i is ih =>
    cases hs : step i s with
    | none => simp [exec, hs] at he
    | some t =>
      simp only [Meets, hs] at hm
      simp only [exec, hs, Option.bind_some] at he
      exact (Reaches.step i Reaches.start hm.1 hs).trans (ih hm.2 he)

theorem Holds.start {good : σ → Prop} {is : List ι} (h : Holds step good is s) : good s := by
  cases is with
  | nil => exact h
  | cons i is => exact h.1

theorem Holds.mono {good good' : σ → Prop} {is : List ι} (h : Holds step good is s)
    (hg : ∀ t, good t → good' t) : Holds step good' is s := by
  induction is generalizing s with
  | nil => exact hg s h
  | cons i is ih =>
    apply And.intro (hg s h.1)
    have hrest := h.2
    cases hs : step i s with
    | none => trivial
    | some t =>
      rw [hs] at hrest
      exact ih hrest

theorem Meets.mono {is : List ι} (h : Meets step cond is s) (hc : ∀ i t, cond i t → cond' i t) :
    Meets step cond' is s := by
  induction is generalizing s with
  | nil => trivial
  | cons i is ih =>
    cases hs : step i s with
    | none => simp only [Meets, hs]
    | some t =>
      simp only [Meets, hs] at h ⊢
      exact ⟨hc i s h.1,ih h.2⟩

theorem meets_of_forall (hc : ∀ i t, cond i t) (is : List ι) (s : σ) : Meets step cond is s := by
  induction is generalizing s with
  | nil => trivial
  | cons i is ih =>
    cases hs : step i s with
    | none => simp only [Meets, hs]
    | some t =>
      simp only [Meets, hs]
      exact ⟨hc i s,ih t⟩

theorem meets_congr {inv : σ → Prop} (hi : ∀ i t t', inv t → step i t = some t' → inv t')
    (hc : ∀ i t, inv t → (cond i t ↔ cond' i t)) (is : List ι) (h0 : inv s) :
    Meets step cond is s ↔ Meets step cond' is s := by
  induction is generalizing s with
  | nil => rfl
  | cons i is ih =>
    cases hs : step i s with
    | none => simp only [Meets, hs]
    | some t =>
      simp only [Meets, hs]
      exact and_congr (hc i s h0) (ih (hi i s t h0 hs))

theorem holds_congr {inv good good' : σ → Prop} (hg : ∀ t, inv t → (good t ↔ good' t))
    (hi : ∀ i t t', inv t → good t → step i t = some t' → inv t') (is : List ι) (h0 : inv s) :
    Holds step good is s ↔ Holds step good' is s := by
  induction is generalizing s with
  | nil => exact hg s h0
  | cons i is ih =>
    rw [Holds, Holds, ← hg s h0]
    apply and_congr_right
    intro g0
    cases hs : step i s with
    | none => rfl
    | some t => exact ih (hi i s t h0 g0 hs)

/-- When each single step with an admitted label keeps `good` exactly if it
meets `cond`, a run visits good states only exactly if all its steps meet
`cond`. -/
theorem holds_iff_meets {dom : ι → Prop} {inv good : σ → Prop}
    (hi : ∀ i t t', dom i → inv t → step i t = some t' → inv t')
    (hg : ∀ i t t', dom i → inv t → good t → step i t = some t' → (good t' ↔ cond i t))
    (is : List ι) (hd : ∀ i ∈ is, dom i) (h0 : inv s) (g0 : good s) :
    Holds step good is s ↔ Meets step cond is s := by
  induction is generalizing s with
  | nil => simp [Holds, Meets, g0]
  | cons i is ih =>
    obtain ⟨hdi,hds⟩ := List.forall_mem_cons.mp hd
    cases hs : step i s with
    | none => simp [Holds, Meets, hs, g0]
    | some t =>
      simp only [Holds, Meets, hs, g0, true_and]
      have hstep := hg i s t hdi h0 g0 hs
      have ht := hi i s t hdi h0 hs
      constructor
      · intro hh
        have gt := hh.start
        exact ⟨hstep.mp gt,(ih hds ht gt).mp hh⟩
      · intro ⟨hc,hm⟩
        exact (ih hds ht (hstep.mpr hc)).mpr hm

/-- When every step of a total machine that fits its state is answered by the
partial one in related states, so is every run of such steps. -/
theorem exec_simulates {τ : Type*} {rel : σ → τ → Prop} {next : τ → ι → τ} {fits : ι → τ → Prop}
    (hs : ∀ i s t, rel s t → fits i t → ∃ s', step i s = some s' ∧ rel s' (next t i))
    (is : List ι) {t : τ} (hr : rel s t) (hf : Meets (fun i t => some (next t i)) fits is t) :
    ∃ s', exec step is s = some s' ∧ rel s' (is.foldl next t) := by
  induction is generalizing s t with
  | nil => exact ⟨s,rfl,hr⟩
  | cons i is ih =>
    obtain ⟨s₁,hmove,hrel⟩ := hs i s t hr hf.1
    obtain ⟨s₂,hexec,hend⟩ := ih hrel hf.2
    refine ⟨s₂,?_,hend⟩
    rw [exec, hmove, Option.bind_some, hexec]

theorem exec_follows {τ : Type*} {rel : σ → τ → Prop} {next : τ → ι → τ} {fits : ι → τ → Prop}
    (hs : ∀ i s t s', rel s t → fits i t → step i s = some s' → rel s' (next t i)) (is : List ι)
    {t : τ} (hr : rel s t) (hf : Meets (fun i t => some (next t i)) fits is t)
    (he : exec step is s = some s') : rel s' (is.foldl next t) := by
  induction is generalizing s t with
  | nil =>
    cases Option.some.inj he
    exact hr
  | cons i is ih =>
    rw [exec] at he
    obtain ⟨s₁,hmove,hrest⟩ := Option.bind_eq_some_iff.mp he
    exact ih (hs i s t s₁ hr hf.1 hmove) hf.2 hrest

end Bbfs.Runs
