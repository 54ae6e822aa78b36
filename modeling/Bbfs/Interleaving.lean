import Mathlib.Tactic

/-!
# Interleavings of independent parties

A step answers and moves the state, or has no outcome. `run` collects the
answers of a list of labels with the last state. When labels of different
parties can be exchanged, a run is fixed by what each party does in its own
order. Steps that work on one cell of the state only can be exchanged whenever
their cells are different.
-/

set_option autoImplicit false

namespace Bbfs.Interleaving

variable {σ ι ρ κ α : Type*}

def run (step : ι → σ → Option (ρ × σ)) : List ι → σ → Option (List (ι × ρ) × σ)
  | [], s => some ([],s)
  | i::is, s =>
    (step i s).bind (fun o => (run step is o.2).map (fun out => ((i,o.1)::out.1,out.2)))

/-- Both orders of two steps give the same answers and the same state, or
neither has an outcome. -/
def Exchange (step step' : σ → Option (ρ × σ)) : Prop :=
  ∀ s, (step s).bind (fun o => (step' o.2).map (fun p => (o.1,p.1,p.2))) =
    (step' s).bind (fun p => (step p.2).map (fun o => (o.1,p.1,o.2)))

section
variable [DecidableEq κ]

/-- The labels of each party come in the same order. -/
def SameOrder (party : ι → κ) (is js : List ι) : Prop :=
  ∀ k, is.filter (fun i => party i = k) = js.filter (fun i => party i = k)

def seen (party : ι → κ) (out : List (ι × ρ) × σ) : (κ → List (ι × ρ)) × σ :=
  (fun k => out.1.filter (fun e => party e.1 = k),out.2)

variable {step : ι → σ → Option (ρ × σ)} {party : ι → κ}

theorem seen_cons (i : ι) (r : ρ) (out out' : List (ι × ρ) × σ)
    (h : seen party out = seen party out') :
    seen party ((i,r)::out.1,out.2) = seen party ((i,r)::out'.1,out'.2) := by
  obtain ⟨hout,hs⟩ := Prod.mk.inj h
  apply Prod.ext
  · funext k
    have hk := congrFun hout k
    simp only [seen, List.filter_cons] at hk ⊢
    rw [hk]
  · exact hs

theorem run_cons_seen (i : ι) {is js : List ι}
    (h : ∀ s, (run step is s).map (seen party) = (run step js s).map (seen party)) (s : σ) :
    (run step (i::is) s).map (seen party) = (run step (i::js) s).map (seen party) := by
  rw [run, run]
  cases hi : step i s with
  | none => rfl
  | some o =>
    have hrest := h o.2
    simp only [Option.bind_some, Option.map_map]
    cases ha : run step is o.2 with
    | none =>
      rw [ha] at hrest
      rw [Option.map_eq_none_iff.mp hrest.symm]
    | some out =>
      rw [ha] at hrest
      obtain ⟨out',hb,hseen⟩ := Option.map_eq_some_iff.mp hrest.symm
      rw [hb]
      exact congrArg some (seen_cons i o.1 out out' hseen.symm)

theorem run_exchange {i j : ι} (hp : party i ≠ party j) (hij : Exchange (step i) (step j))
    (is : List ι) (s : σ) :
    (run step (i::j::is) s).map (seen party) = (run step (j::i::is) s).map (seen party) := by
  have houts : ∀ (r q : ρ) (out : List (ι × ρ) × σ),
      seen party ((i,r)::(j,q)::out.1,out.2) = seen party ((j,q)::(i,r)::out.1,out.2) := by
    intro r q out
    apply Prod.ext
    · funext k
      simp only [seen, List.filter_cons, decide_eq_true_eq]
      by_cases hi : party i = k
      · have hj : party j ≠ k := fun hj => hp (hi.trans hj.symm)
        simp only [hi, hj, if_true, if_false]
      · simp only [hi, if_false]
    · rfl
  have hfront := congrArg (Option.map (seen party)) (congrArg
    (fun o : Option (ρ × ρ × σ) => o.bind (fun x =>
      (run step is x.2.2).map (fun out => ((i,x.1)::(j,x.2.1)::out.1,out.2)))) (hij s))
  have hleft : (run step (i::j::is) s) =
      ((step i s).bind (fun o => (step j o.2).map (fun p => (o.1,p.1,p.2)))).bind (fun x =>
        (run step is x.2.2).map (fun out => ((i,x.1)::(j,x.2.1)::out.1,out.2))) := by
    simp only [run, Option.bind_assoc, Option.map_bind, Option.bind_map, Function.comp_def,
      Option.map_map]
  have hright : (run step (j::i::is) s).map (seen party) =
      (((step j s).bind (fun p => (step i p.2).map (fun o => (o.1,p.1,o.2)))).bind (fun x =>
        (run step is x.2.2).map (fun out => ((i,x.1)::(j,x.2.1)::out.1,out.2)))).map
          (seen party) := by
    simp only [run, Option.bind_assoc, Option.map_bind, Option.bind_map, Function.comp_def,
      Option.map_map, houts]
  rw [hleft, hright]
  exact hfront

theorem run_front {i : ι} {block : List ι} (is : List ι)
    (hp : ∀ j ∈ block, party j ≠ party i) (hind : ∀ j ∈ block, Exchange (step j) (step i)) (s : σ) :
    (run step (block++i::is) s).map (seen party) =
      (run step (i::(block++is)) s).map (seen party) := by
  induction block generalizing s with
  | nil => rfl
  | cons j block ih =>
    obtain ⟨hpj,hps⟩ := List.forall_mem_cons.mp hp
    obtain ⟨hj,hjs⟩ := List.forall_mem_cons.mp hind
    calc (run step (j::(block++i::is)) s).map (seen party)
        = (run step (j::i::(block++is)) s).map (seen party) :=
          run_cons_seen j (fun t => ih hps hjs t) s
      _ = (run step (i::j::(block++is)) s).map (seen party) := run_exchange hpj hj _ s

/-- Runs in which every party does the same in the same order end in the same
state, and every party has seen the same answers. -/
theorem run_sameOrder (hind : ∀ i j, party i ≠ party j → Exchange (step i) (step j))
    {is js : List ι} (h : SameOrder party is js) (s : σ) :
    (run step is s).map (seen party) = (run step js s).map (seen party) := by
  induction is generalizing js s with
  | nil =>
    have hnil : js = [] := by
      by_contra hne
      obtain ⟨j,hj⟩ := List.exists_mem_of_ne_nil js hne
      have hmem : j ∈ js.filter (fun x => party x = party j) :=
        List.mem_filter.mpr ⟨hj,decide_eq_true rfl⟩
      rw [← h (party j)] at hmem
      exact List.not_mem_nil hmem
    rw [hnil]
  | cons i is ih =>
    have hi := h (party i)
    rw [List.filter_cons_of_pos (by simp)] at hi
    obtain ⟨block,rest,rfl,hblock,-,-⟩ := List.filter_eq_cons_iff.mp hi.symm
    have hps : ∀ j ∈ block, party j ≠ party i := fun j hj => by simpa using hblock j hj
    have hrest : SameOrder party is (block++rest) := by
      intro k
      have hk := h k
      rw [List.filter_append, List.filter_cons, List.filter_cons] at hk
      rw [List.filter_append]
      by_cases hik : party i = k
      · have hnone : block.filter (fun x => party x = k) = [] :=
          List.filter_eq_nil_iff.mpr (fun j hj => by simpa [hik] using hps j hj)
        simp only [hik, decide_true, if_true, hnone, List.nil_append] at hk ⊢
        exact (List.cons.inj hk).2
      · simpa only [hik, decide_false, Bool.false_eq_true, if_false] using hk
    calc (run step (i::is) s).map (seen party)
        = (run step (i::(block++rest)) s).map (seen party) :=
          run_cons_seen i (fun t => ih hrest t) s
      _ = (run step (block++i::rest) s).map (seen party) :=
          (run_front rest hps (fun j hj => hind j i (hps j hj)) s).symm

end

structure Cells (κ α σ : Type*) where
  get : κ → σ → α
  put : κ → α → σ → σ
  get_put_ne : ∀ {k l : κ} (a : α) (s : σ), k ≠ l → get k (put l a s) = get k s
  put_comm : ∀ {k l : κ} (a b : α) (s : σ), k ≠ l → put k a (put l b s) = put l b (put k a s)

/-- A step that reads and writes the cell of `k` only. -/
def Local (cells : Cells κ α σ) (k : κ) (step : σ → Option (ρ × σ)) : Prop :=
  ∃ f : α → Option (ρ × α), ∀ s,
    step s = (f (cells.get k s)).map (fun o => (o.1,cells.put k o.2 s))

theorem Local.exchange {cells : Cells κ α σ} {k l : κ} {step step' : σ → Option (ρ × σ)}
    (hk : Local cells k step) (hl : Local cells l step') (hne : k ≠ l) : Exchange step step' := by
  obtain ⟨f,hf⟩ := hk
  obtain ⟨g,hg⟩ := hl
  intro s
  rw [hf s, hg s]
  cases hfs : f (cells.get k s) with
  | none =>
    cases hgs : g (cells.get l s) with
    | none => rfl
    | some p =>
      simp [hf, cells.get_put_ne p.2 s hne, hfs]
  | some o =>
    cases hgs : g (cells.get l s) with
    | none =>
      simp [hg, cells.get_put_ne o.2 s hne.symm, hgs]
    | some p =>
      simp [hf, hg, cells.get_put_ne o.2 s hne.symm, cells.get_put_ne p.2 s hne, hfs, hgs,
        cells.put_comm o.2 p.2 s hne]

end Bbfs.Interleaving
