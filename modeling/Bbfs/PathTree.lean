import Mathlib.Tactic

/-!
# Trees addressed by paths

A path tree has a label at every node, addressed by the names on the way to it.
It can grow a leaf, lose one or all that is below a node, change a label, or
have a node moved with all that is below it. The nodes of a linked table are
found by following a partial child function from its root. As long as a node is
reached on one way only, another link of that node changes what is found on the
paths that use the link, and nothing else.
-/

set_option autoImplicit false

namespace Bbfs.PathTree

variable {N K A : Type*}

@[ext] structure Tree (N A : Type*) where
  label : List N → Option A
  rooted : (label []).isSome = true
  closed : ∀ ws w, (label (ws++[w])).isSome = true → (label ws).isSome = true

namespace Tree

def leaf (a : A) : Tree N A where
  label := fun ws => if ws = [] then some a else none
  rooted := by simp
  closed := by simp

variable (T : Tree N A) (ws : List N) (a : A)

def CanGrow : Prop := ws ≠ [] ∧ T.label ws = none ∧ (T.label ws.dropLast).isSome = true

def CanPrune : Prop :=
  ws ≠ [] ∧ (T.label ws).isSome = true ∧ ∀ w, T.label (ws++[w]) = none

open Classical in
noncomputable def grow : Tree N A where
  label := if T.CanGrow ws then Function.update T.label ws (some a) else T.label
  rooted := by
    split_ifs with h
    · rw [Function.update_of_ne h.1.symm]
      exact T.rooted
    · exact T.rooted
  closed := by
    intro vs v hv
    split_ifs at hv ⊢ with h
    · by_cases hs : vs = ws
      · rw [hs, Function.update_self]
        rfl
      · rw [Function.update_of_ne hs]
        by_cases hl : vs++[v] = ws
        · have hparent := h.2.2
          rwa [← hl, List.dropLast_concat] at hparent
        · rw [Function.update_of_ne hl] at hv
          exact T.closed vs v hv
    · exact T.closed vs v hv

open Classical in
noncomputable def prune : Tree N A where
  label := if T.CanPrune ws then Function.update T.label ws none else T.label
  rooted := by
    split_ifs with h
    · rw [Function.update_of_ne h.1.symm]
      exact T.rooted
    · exact T.rooted
  closed := by
    intro vs v hv
    split_ifs at hv ⊢ with h
    · by_cases hl : vs++[v] = ws
      · rw [hl, Function.update_self] at hv
        exact absurd hv Bool.false_ne_true
      · rw [Function.update_of_ne hl] at hv
        by_cases hs : vs = ws
        · rw [hs, h.2.2 v] at hv
          exact absurd hv Bool.false_ne_true
        · rw [Function.update_of_ne hs]
          exact T.closed vs v hv
    · exact T.closed vs v hv

open Classical in
noncomputable def relabel : Tree N A where
  label := if (T.label ws).isSome = true then Function.update T.label ws (some a) else T.label
  rooted := by
    split_ifs
    · by_cases h : [] = ws
      · rw [← h, Function.update_self]
        rfl
      · rw [Function.update_of_ne h]
        exact T.rooted
    · exact T.rooted
  closed := by
    intro vs v hv
    have hkeep : ∀ us, (Function.update T.label ws (some a) us).isSome = true ↔
        us = ws ∨ (T.label us).isSome = true := by
      intro us
      by_cases h : us = ws
      · rw [h, Function.update_self]
        exact iff_of_true rfl (Or.inl rfl)
      · rw [Function.update_of_ne h]
        exact (or_iff_right h).symm
    split_ifs at hv ⊢ with h
    · rw [hkeep] at hv ⊢
      rcases hv with hl | hv
      · rw [← hl] at h
        exact Or.inr (T.closed vs v h)
      · exact Or.inr (T.closed vs v hv)
    · exact T.closed vs v hv

open Classical in
noncomputable def cut : Tree N A where
  label := fun vs => if ws ≠ [] ∧ ws <+: vs then none else T.label vs
  rooted := by
    rw [if_neg (fun h => h.1 (List.prefix_nil.mp h.2))]
    exact T.rooted
  closed := by
    intro vs v hv
    by_cases h : ws ≠ [] ∧ ws <+: vs++[v]
    · rw [if_pos h] at hv
      exact absurd hv Bool.false_ne_true
    · rw [if_neg h] at hv
      rw [if_neg (fun hp => h ⟨hp.1,hp.2.trans (List.prefix_append vs [v])⟩)]
      exact T.closed vs v hv

/-- The node at `ws` can be put at `us`: there is a parent for it, not at or
below the node itself. -/
def CanMove (us : List N) : Prop :=
  ws ≠ [] ∧ us ≠ [] ∧ (T.label us.dropLast).isSome = true ∧ ¬ ws <+: us.dropLast

open Classical in
/-- The node at `ws` put at `us` with all that is below it, in place of what was
there. -/
noncomputable def move (us : List N) : Tree N A where
  label := fun vs => if ¬ T.CanMove ws us then T.label vs
    else if us <+: vs then T.label (ws++vs.drop us.length)
    else if ws <+: vs then none
    else T.label vs
  rooted := by
    by_cases h : T.CanMove ws us
    · rw [if_neg (not_not.mpr h), if_neg (fun hp => h.2.1 (List.prefix_nil.mp hp)),
        if_neg (fun hp => h.1 (List.prefix_nil.mp hp))]
      exact T.rooted
    · rw [if_pos h]
      exact T.rooted
  closed := by
    intro vs v hv
    by_cases h : T.CanMove ws us
    · rw [if_neg (not_not.mpr h)] at hv ⊢
      by_cases hu : us <+: vs
      · obtain ⟨t,rfl⟩ := hu
        rw [List.append_assoc, if_pos (List.prefix_append us (t++[v])), List.drop_left,
          ← List.append_assoc] at hv
        rw [if_pos (List.prefix_append us t), List.drop_left]
        exact T.closed (ws++t) v hv
      · rw [if_neg hu]
        by_cases he : us = vs++[v]
        · have hparent := h.2.2
          rw [he, List.dropLast_concat] at hparent
          rw [if_neg hparent.2]
          exact hparent.1
        · have hnew : ¬ us <+: vs++[v] := by
            intro hp
            rcases List.prefix_concat_iff.mp hp with hp | hp
            · exact he hp
            · exact hu hp
          rw [if_neg hnew] at hv
          by_cases hw : ws <+: vs++[v]
          · rw [if_pos hw] at hv
            exact absurd hv Bool.false_ne_true
          · rw [if_neg hw] at hv
            rw [if_neg (fun hp => hw (hp.trans (List.prefix_append vs [v])))]
            exact T.closed vs v hv
    · rw [if_pos h] at hv ⊢
      exact T.closed vs v hv

variable {T} {ws} {vs us : List N}

theorem grow_self (h : T.CanGrow ws) : (T.grow ws a).label ws = some a := by
  simp [grow, h]

theorem grow_ne (hne : vs ≠ ws) : (T.grow ws a).label vs = T.label vs := by
  unfold grow
  split_ifs
  · exact dif_neg hne
  · rfl

theorem grow_of_not (h : ¬ T.CanGrow ws) : T.grow ws a = T :=
  Tree.ext (if_neg h)

theorem prune_self (h : T.CanPrune ws) : (T.prune ws).label ws = none := by
  simp [prune, h]

theorem prune_ne (hne : vs ≠ ws) : (T.prune ws).label vs = T.label vs := by
  unfold prune
  split_ifs
  · exact dif_neg hne
  · rfl

theorem prune_of_not (h : ¬ T.CanPrune ws) : T.prune ws = T :=
  Tree.ext (if_neg h)

theorem relabel_self (h : (T.label ws).isSome = true) : (T.relabel ws a).label ws = some a := by
  simp [relabel, h]

theorem relabel_ne (hne : vs ≠ ws) : (T.relabel ws a).label vs = T.label vs := by
  unfold relabel
  split_ifs
  · exact dif_neg hne
  · rfl

theorem relabel_of_not (h : (T.label ws).isSome = false) : T.relabel ws a = T :=
  Tree.ext (if_neg (by simp [h]))

theorem cut_below (h : ws ≠ []) (hvs : ws <+: vs) : (T.cut ws).label vs = none :=
  if_pos ⟨h,hvs⟩

theorem cut_other (hvs : ¬ ws <+: vs) : (T.cut ws).label vs = T.label vs :=
  if_neg (fun h => hvs h.2)

theorem move_to (h : T.CanMove ws us) (vs : List N) :
    (T.move ws us).label (us++vs) = T.label (ws++vs) := by
  refine (if_neg (not_not.mpr h)).trans ((if_pos (List.prefix_append us vs)).trans ?_)
  rw [List.drop_left]

theorem move_from (h : T.CanMove ws us) (hus : ¬ us <+: vs) (hws : ws <+: vs) :
    (T.move ws us).label vs = none :=
  (if_neg (not_not.mpr h)).trans ((if_neg hus).trans (if_pos hws))

theorem move_other (hus : ¬ us <+: vs) (hws : ¬ ws <+: vs) :
    (T.move ws us).label vs = T.label vs := by
  by_cases h : T.CanMove ws us
  · exact (if_neg (not_not.mpr h)).trans ((if_neg hus).trans (if_neg hws))
  · exact if_pos h

theorem grow_label {b : A} (h : (T.grow ws a).label vs = some b) :
    b = a ∨ T.label vs = some b := by
  by_cases hg : T.CanGrow ws
  · by_cases hvs : vs = ws
    · rw [hvs, grow_self a hg] at h
      exact Or.inl (Option.some.inj h).symm
    · rw [grow_ne a hvs] at h
      exact Or.inr h
  · rw [grow_of_not a hg] at h
    exact Or.inr h

theorem cut_label {b : A} (h : (T.cut ws).label vs = some b) : T.label vs = some b := by
  by_cases hc : ws ≠ [] ∧ ws <+: vs
  · rw [cut_below hc.1 hc.2] at h
    exact nomatch h
  · exact (if_neg hc).symm.trans h

theorem move_label {b : A} (h : (T.move ws us).label vs = some b) :
    ∃ xs, T.label xs = some b := by
  by_cases hm : T.CanMove ws us
  · by_cases hus : us <+: vs
    · obtain ⟨xs,rfl⟩ := hus
      rw [move_to hm] at h
      exact ⟨ws++xs,h⟩
    · by_cases hws : ws <+: vs
      · rw [move_from hm hus hws] at h
        exact nomatch h
      · rw [move_other hus hws] at h
        exact ⟨vs,h⟩
  · exact ⟨vs,(if_pos hm).symm.trans h⟩

theorem cut_root : (T.cut ws).label [] = T.label [] :=
  if_neg (fun h => h.1 (List.prefix_nil.mp h.2))

theorem move_root : (T.move ws us).label [] = T.label [] := by
  by_cases h : T.CanMove ws us
  · exact (if_neg (not_not.mpr h)).trans ((if_neg (fun hp => h.2.1 (List.prefix_nil.mp hp))).trans
      (if_neg (fun hp => h.1 (List.prefix_nil.mp hp))))
  · exact if_pos h

end Tree

section
variable (root : K) (child : K → N → Option K)

def find (ws : List N) : Option K :=
  ws.foldl (fun o w => o.bind (fun k => child k w)) (some root)

@[simp] theorem find_nil : find root child [] = some root := rfl

@[simp] theorem find_concat (ws : List N) (w : N) :
    find root child (ws++[w]) = (find root child ws).bind (fun k => child k w) :=
  List.foldl_concat ..

/-- No node is reached on two ways. -/
def OnePath : Prop :=
  ∀ ws ws' k, find root child ws = some k → find root child ws' = some k → ws = ws'

variable {root child}

theorem onePath_of_injective
    (hinj : ∀ k w k' w' j, child k w = some j → child k' w' = some j → k = k' ∧ w = w')
    (hroot : ∀ k w, child k w ≠ some root) : OnePath root child := by
  intro ws
  induction ws using List.reverseRecOn with
  | nil =>
    intro ws' k hk hk'
    cases ws' using List.reverseRecOn with
    | nil => rfl
    | append_singleton ws' w' =>
      rw [find_concat] at hk'
      obtain ⟨j,-,hj⟩ := Option.bind_eq_some_iff.mp hk'
      exact absurd (hj.trans hk.symm) (hroot j w')
  | append_singleton ws w ih =>
    intro ws' k hk hk'
    rw [find_concat] at hk
    obtain ⟨j,hws,hj⟩ := Option.bind_eq_some_iff.mp hk
    cases ws' using List.reverseRecOn with
    | nil => exact absurd (hj.trans hk'.symm) (hroot j w)
    | append_singleton ws' w' =>
      rw [find_concat] at hk'
      obtain ⟨j',hws',hj'⟩ := Option.bind_eq_some_iff.mp hk'
      obtain ⟨rfl,rfl⟩ := hinj j w j' w' k hj hj'
      rw [ih ws' j hws hws']

theorem OnePath.find_iff (h : OnePath root child) {p : List N} {q : K}
    (hq : find root child p = some q) (ws : List N) : find root child ws = some q ↔ ws = p :=
  ⟨fun hws => h ws p q hws hq,fun he => he ▸ hq⟩

theorem find_append (ws us : List N) :
    find root child (ws++us) = (find root child ws).bind (fun k => find k child us) := by
  induction us using List.reverseRecOn with
  | nil =>
    rw [List.append_nil]
    exact (Option.bind_fun_some _).symm
  | append_singleton us u ih =>
    rw [← List.append_assoc, find_concat, ih, Option.bind_assoc]
    exact congrArg (Option.bind (find root child ws))
      (funext fun k => (find_concat k child us u).symm)

variable {child' : K → N → Option K} {p : List N} {w : N} {q n : K}

theorem find_congr (h : ∀ ws k, find root child ws = some k → child' k = child k) (ws : List N) :
    find root child' ws = find root child ws := by
  induction ws using List.reverseRecOn with
  | nil => rfl
  | append_singleton ws u ih =>
    rw [find_concat, find_concat, ih]
    cases hws : find root child ws with
    | none => rfl
    | some k => rw [Option.bind_some, Option.bind_some, h ws k hws]

theorem find_relink {o : Option K} (hq : ∀ ws, find root child ws = some q ↔ ws = p)
    (hlink : child' q w = o) (hkeep : ∀ k u, ¬ (k = q ∧ u = w) → child' k u = child k u)
    (hout : ∀ i, o = some i → ∀ us, find i child us ≠ some q) :
    (∀ us, find root child' (p++w::us) = o.bind (fun i => find i child us)) ∧
      ∀ ws, ¬ p++[w] <+: ws → find root child' ws = find root child ws := by
  have hother : ∀ ws, ¬ p++[w] <+: ws → find root child' ws = find root child ws := by
    intro ws
    induction ws using List.reverseRecOn with
    | nil => exact fun _ => rfl
    | append_singleton ws u ih =>
      intro hws
      rw [find_concat, find_concat, ih (fun hp => hws (hp.trans (List.prefix_append ws [u])))]
      cases hfound : find root child ws with
      | none => rfl
      | some k =>
        rw [Option.bind_some, Option.bind_some]
        apply hkeep
        rintro ⟨rfl,rfl⟩
        rw [(hq ws).mp hfound] at hws
        exact hws (List.prefix_refl _)
  refine ⟨fun us => ?_,hother⟩
  have hshort : ¬ p++[w] <+: p := by
    intro hp
    have hlen := hp.length_le
    rw [List.length_append, List.length_singleton] at hlen
    omega
  have hnew : find root child' (p++[w]) = o := by
    rw [find_concat, hother p hshort, (hq p).mpr rfl, Option.bind_some, hlink]
  rw [List.append_cons, find_append, hnew]
  cases ho : o with
  | none => rfl
  | some i =>
    apply find_congr
    intro vs k hk
    funext u
    apply hkeep
    rintro ⟨rfl,-⟩
    exact hout i ho vs hk

/-- The link `name` of `P` made the link `newname` of `Q`: what was found through
it is found at the new place, and what was there is not found any more. -/
theorem find_move {p' q' : List N} {P Q i : K} {name newname : N}
    (hP : ∀ ws, find root child ws = some P ↔ ws = p')
    (hQ : ∀ ws, find root child ws = some Q ↔ ws = q') (hi : child P name = some i)
    (hout : ¬ p'++[name] <+: q') (hadd : child' Q newname = some i)
    (hgone : ¬ (P = Q ∧ name = newname) → child' P name = none)
    (hkeep : ∀ k u, ¬ (k = Q ∧ u = newname) → ¬ (k = P ∧ u = name) → child' k u = child k u) :
    (∀ us, find root child' (q'++newname::us) = find root child (p'++name::us)) ∧
      ∀ ws, ¬ q'++[newname] <+: ws →
        (p'++[name] <+: ws → find root child' ws = none) ∧
          (¬ p'++[name] <+: ws → find root child' ws = find root child ws) := by
  classical
  -- first the old link is taken away, then the new one is made
  let gone : K → N → Option K := fun k u => if k = P ∧ u = name then none else child k u
  have hnone : gone P name = none := if_pos ⟨rfl,rfl⟩
  have hcut : ∀ k u, ¬ (k = P ∧ u = name) → gone k u = child k u := fun k u hku => if_neg hku
  obtain ⟨hold,hrest⟩ := find_relink hP hnone hcut (fun _ ho => nomatch ho)
  have hfrom : ∀ us, find root child (p'++name::us) = find i child us := by
    intro us
    rw [List.append_cons, find_append, find_concat, (hP p').mpr rfl, Option.bind_some, hi,
      Option.bind_some]
  have hsame : ∀ us, find i gone us = find i child us := by
    apply find_congr
    intro us k hk
    funext u
    refine if_neg ?_
    rintro ⟨rfl,-⟩
    rw [← hfrom, hP] at hk
    have hlen := congrArg List.length hk
    rw [List.length_append, List.length_cons] at hlen
    omega
  have hQ' : ∀ ws, find root gone ws = some Q ↔ ws = q' := by
    intro ws
    by_cases hws : p'++[name] <+: ws
    · have hnone : find root gone ws = none := by
        obtain ⟨us,rfl⟩ := hws
        rw [← List.append_cons, hold, Option.bind_none]
      rw [hnone]
      refine iff_of_false nofun ?_
      rintro rfl
      exact hout hws
    · rw [hrest ws hws]
      exact hQ ws
  have hnoway : ∀ j, some i = some j → ∀ us, find j gone us ≠ some Q := by
    rintro j ⟨⟩ us hk
    rw [hsame, ← hfrom, hQ] at hk
    exact hout ⟨us,by rw [← hk, ← List.append_cons]⟩
  have hrelinked : ∀ k u, ¬ (k = Q ∧ u = newname) → child' k u = gone k u := by
    intro k u hku
    by_cases hPu : k = P ∧ u = name
    · obtain ⟨rfl,rfl⟩ := hPu
      rw [hgone hku, hnone]
    · rw [hkeep k u hku hPu, hcut k u hPu]
  obtain ⟨hnew,hother⟩ := find_relink hQ' hadd hrelinked hnoway
  constructor
  · intro us
    rw [hnew, Option.bind_some, hsame, hfrom]
  · intro ws hws
    rw [hother ws hws]
    refine ⟨?_,hrest ws⟩
    rintro ⟨us,rfl⟩
    rw [← List.append_cons, hold, Option.bind_none]

theorem find_leaf (hn : ∀ u, child n u = none) (us : List N) :
    find n child us = if us = [] then some n else none := by
  cases us with
  | nil => rfl
  | cons u us =>
    have hfirst : find n child [u] = none := by
      rw [← List.nil_append [u], find_concat, find_nil, Option.bind_some, hn]
    rw [← List.singleton_append, find_append, hfirst, Option.bind_none, if_neg (by simp)]

theorem find_link [DecidableEq N] (hq : ∀ ws, find root child ws = some q ↔ ws = p)
    (hfree : child q w = none) (hnq : n ≠ q) (hn : ∀ u, child n u = none)
    (hadd : child' q w = some n) (hkeep : ∀ k u, ¬ (k = q ∧ u = w) → child' k u = child k u)
    (ws : List N) :
    find root child' ws = if ws = p++[w] then some n else find root child ws := by
  have hout : ∀ i, some n = some i → ∀ us, find i child us ≠ some q := by
    rintro i ⟨⟩ us
    rw [find_leaf hn]
    split_ifs
    · exact fun he => hnq (Option.some.inj he)
    · exact nofun
  obtain ⟨hnew,hother⟩ := find_relink hq hadd hkeep hout
  by_cases hp : p++[w] <+: ws
  · obtain ⟨us,rfl⟩ := hp
    have hp' : find root child (p++[w]) = none := by
      rw [find_concat, (hq p).mpr rfl, Option.bind_some, hfree]
    rw [← List.append_cons, hnew, Option.bind_some, find_leaf hn, List.append_cons, find_append, hp',
      Option.bind_none]
    exact if_congr (by simp) rfl rfl
  · rw [hother ws hp, if_neg (fun (he : ws = p++[w]) => hp (he ▸ List.prefix_refl _))]

theorem find_unlink [DecidableEq N] (hq : ∀ ws, find root child ws = some q ↔ ws = p)
    (hlink : child q w = some n) (hn : ∀ u, child n u = none)
    (hgone : child' q w = none) (hkeep : ∀ k u, ¬ (k = q ∧ u = w) → child' k u = child k u)
    (ws : List N) :
    find root child' ws = if ws = p++[w] then none else find root child ws := by
  obtain ⟨hold,hother⟩ := find_relink hq hgone hkeep (fun _ ho => nomatch ho)
  by_cases hp : p++[w] <+: ws
  · obtain ⟨us,rfl⟩ := hp
    have hp' : find root child (p++[w]) = some n := by
      rw [find_concat, (hq p).mpr rfl, Option.bind_some, hlink]
    rw [← List.append_cons, hold, Option.bind_none, List.append_cons, find_append, hp',
      Option.bind_some, find_leaf hn]
    simp
  · rw [hother ws hp, if_neg (fun (he : ws = p++[w]) => hp (he ▸ List.prefix_refl _))]

end

end Bbfs.PathTree
