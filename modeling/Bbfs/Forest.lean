import Mathlib.Logic.Relation
import Mathlib.Order.WellFoundedSet
import Mathlib.Data.Set.Finite.Basic
import Mathlib.Tactic

/-!
# Holders, roots and cycles

A relation `r x y` reads "x holds y". Where every node reached from a root has
one holder and the root has none, no reached node lies on a cycle. A relation
without cycles stays without cycles under a new pair whose target does not
lead to its source; over finitely many holders it is well-founded.
-/

set_option autoImplicit false

namespace Bbfs.Forest
open Relation

variable {α : Type*} {r r' : α → α → Prop} {a b root : α}

def Acyclic (r : α → α → Prop) : Prop := ∀ x, ¬ TransGen r x x

theorem acyclic_of_one_holder (hroot : ∀ x, ¬ r x root)
    (hone : ∀ y, ReflTransGen r root y → ∀ x x', r x y → r x' y → x = x') {y : α}
    (hy : ReflTransGen r root y) : ¬ TransGen r y y := by
  induction hy with
  | refl =>
    intro hc
    obtain ⟨z,-,hz⟩ := TransGen.tail'_iff.mp hc
    exact hroot z hz
  | @tail x z hx hxz ih =>
    intro hc
    obtain ⟨u,hu,huz⟩ := TransGen.tail'_iff.mp hc
    have hux : u = x := hone z (hx.tail hxz) u x huz hxz
    subst hux
    exact ih (TransGen.head' hxz hu)

theorem Acyclic.mono (h : Acyclic r) (hr : ∀ x y, r' x y → r x y) : Acyclic r' :=
  fun x hx => h x (TransGen.mono hr x x hx)

theorem transGen_add (hr : ∀ x y, r' x y → r x y ∨ x = a ∧ y = b) {x z : α}
    (h : TransGen r' x z) : TransGen r x z ∨ ReflTransGen r x a ∧ ReflTransGen r b z := by
  induction h with
  | single hxy =>
    rcases hr _ _ hxy with hold | ⟨rfl,rfl⟩
    · exact Or.inl (TransGen.single hold)
    · exact Or.inr ⟨ReflTransGen.refl,ReflTransGen.refl⟩
  | tail _ hyz ih =>
    rcases hr _ _ hyz with hold | ⟨rfl,rfl⟩
    · rcases ih with ih | ⟨hxa,hby⟩
      · exact Or.inl (ih.tail hold)
      · exact Or.inr ⟨hxa,hby.tail hold⟩
    · rcases ih with ih | ⟨hxa,-⟩
      · exact Or.inr ⟨ih.to_reflTransGen,ReflTransGen.refl⟩
      · exact Or.inr ⟨hxa,ReflTransGen.refl⟩

theorem Acyclic.add (h : Acyclic r) (hr : ∀ x y, r' x y → r x y ∨ x = a ∧ y = b)
    (hab : ¬ ReflTransGen r b a) : Acyclic r' := by
  intro x hx
  rcases transGen_add hr hx with hold | ⟨hxa,hbx⟩
  · exact h x hold
  · exact hab (hbx.trans hxa)

theorem Acyclic.wellFounded (h : Acyclic r) {s : Set α} (hs : s.Finite)
    (hr : ∀ x y, r x y → x ∈ s) : WellFounded (flip r) := by
  have htrans : IsTrans α (TransGen (flip r)) := ⟨fun _ _ _ => TransGen.trans⟩
  have hirrefl : Std.Irrefl (TransGen (flip r)) := ⟨fun x hx => h x (transGen_swap.mp hx)⟩
  have horder : IsStrictOrder α (TransGen (flip r)) := {}
  have hon : s.WellFoundedOn (TransGen (flip r)) := hs.wellFoundedOn
  have hout : ∀ x, x ∉ s → Acc (flip r) x :=
    fun x hx => Acc.intro x (fun y hy => absurd (hr x y hy) hx)
  refine ⟨fun x => ?_⟩
  by_cases hx : x ∈ s
  · refine hon.induction hx (fun y _ ih => Acc.intro y (fun z hz => ?_))
    by_cases hzs : z ∈ s
    · exact ih z hzs (TransGen.single hz)
    · exact hout z hzs
  · exact hout x hx

/-- Where no node reached from the root lies on a cycle, and finitely many hold
anything, no endless walk starts at the root. -/
theorem acc_root (h : ∀ y, ReflTransGen r root y → ¬ TransGen r y y) {s : Set α} (hs : s.Finite)
    (hr : ∀ x y, r x y → x ∈ s) : Acc (flip r) root := by
  have hacyclic : Acyclic (fun x y => ReflTransGen r root x ∧ r x y) := by
    intro x hx
    obtain ⟨z,⟨hroot,-⟩,-⟩ := TransGen.head'_iff.mp hx
    exact h x hroot (TransGen.mono (fun _ _ hxy => hxy.2) x x hx)
  have hwf := hacyclic.wellFounded hs (fun x y hxy => hr x y hxy.2)
  have hacc : ∀ x, ReflTransGen r root x → Acc (flip r) x := by
    intro x
    induction hwf.apply x with
    | intro x _ ih => exact fun hx => Acc.intro x (fun y hy => ih y ⟨hx,hy⟩ (hx.tail hy))
  exact hacc root ReflTransGen.refl

theorem one_branch (hone : ∀ z, ReflTransGen r root z → ∀ x x', r x z → r x' z → x = x')
    (hac : ∀ z, ReflTransGen r root z → ¬ TransGen r z z) {y z : α}
    (hy : ReflTransGen r root y) (ha : r y a) (hb : r y b) (haz : ReflTransGen r a z)
    (hbz : ReflTransGen r b z) : a = b := by
  -- the way from one of them ends at the other only over `y`
  have hmeet : ∀ {u w : α}, r y u → r y w → ReflTransGen r u w → u = w := by
    intro u w hu hw huw
    rcases ReflTransGen.cases_tail huw with he | ⟨x,hux,hxw⟩
    · exact he.symm
    · have hx : x = y := hone w (hy.tail hw) x y hxw hw
      rw [hx] at hux
      exact absurd (TransGen.head' hu hux) (hac y hy)
  induction haz with
  | refl => exact (hmeet hb ha hbz).symm
  | @tail u z hau huz ih =>
    rcases ReflTransGen.cases_tail hbz with he | ⟨u',hbu',hu'z⟩
    · subst he
      exact hmeet ha hb (hau.tail huz)
    · have hz : ReflTransGen r root z := ((hy.tail ha).trans hau).tail huz
      rw [hone z hz u' u hu'z huz] at hbu'
      exact ih hbu'

/-- A list visits everything below `y` once and nothing else. -/
structure Covers {β : Type*} [DecidableEq α] (r : α → α → Prop) (f : β → α) (y : α)
    (out : List β) : Prop where
  once : ∀ z, ReflTransGen r y z → out.countP (fun b => f b = z) = 1
  only : ∀ b ∈ out, ReflTransGen r y (f b)

theorem Covers.node {β : Type*} [DecidableEq α] {f : β → α}
    (hone : ∀ z, ReflTransGen r root z → ∀ x x', r x z → r x' z → x = x')
    (hac : ∀ z, ReflTransGen r root z → ¬ TransGen r z z) {y : α} (hy : ReflTransGen r root y)
    {b : β} (hb : f b = y) {outs : List (α × List β)} (hnd : (outs.map Prod.fst).Nodup)
    (hheld : ∀ a, r y a ↔ a ∈ outs.map Prod.fst) (hcov : ∀ o ∈ outs, Covers r f o.1 o.2) :
    Covers r f y (b::(outs.map Prod.snd).flatten) := by
  have hbelow : ∀ c ∈ (outs.map Prod.snd).flatten, ∃ o ∈ outs, c ∈ o.2 ∧ r y o.1 ∧
      ReflTransGen r o.1 (f c) := by
    intro c hc
    obtain ⟨l,hl,hcl⟩ := List.mem_flatten.mp hc
    obtain ⟨o,ho,rfl⟩ := List.mem_map.mp hl
    exact ⟨o,ho,hcl,(hheld o.1).mpr (List.mem_map.mpr ⟨o,ho,rfl⟩),(hcov o ho).only c hcl⟩
  constructor
  · intro z hz
    rw [List.countP_cons, hb]
    by_cases hyz : y = z
    · have hnone : (outs.map Prod.snd).flatten.countP (fun b => f b = z) = 0 := by
        rw [List.countP_eq_zero]
        intro c hc hcz
        obtain ⟨o,-,-,ho,hw⟩ := hbelow c hc
        have hcycle := TransGen.head' ho hw
        rw [of_decide_eq_true hcz, ← hyz] at hcycle
        exact hac y hy hcycle
      simp [hnone, hyz]
    · obtain ⟨a,ha,haz⟩ := (ReflTransGen.cases_head hz).resolve_left hyz
      obtain ⟨o,ho,rfl⟩ := List.mem_map.mp ((hheld a).mp ha)
      obtain ⟨l,l',rfl⟩ := List.append_of_mem ho
      have hother : ∀ o' ∈ l++l', o'.2.countP (fun b => f b = z) = 0 := by
        intro o' ho'
        rw [List.countP_eq_zero]
        intro c hc hcz
        have hmem : o' ∈ l++o::l' := by
          rcases List.mem_append.mp ho' with h | h
          · exact List.mem_append_left _ h
          · exact List.mem_append_right _ (List.mem_cons_of_mem o h)
        have hw := (hcov o' hmem).only c hc
        rw [of_decide_eq_true hcz] at hw
        have hsame := one_branch hone hac hy
          ((hheld o'.1).mpr (List.mem_map.mpr ⟨o',hmem,rfl⟩)) ha hw haz
        rw [List.map_append, List.map_cons, List.nodup_middle, List.nodup_cons,
          ← List.map_append] at hnd
        exact hnd.1 (hsame ▸ List.mem_map.mpr ⟨o',ho',rfl⟩)
      have hzero : ∀ m : List (α × List β), (∀ o' ∈ m, o'.2.countP (fun b => f b = z) = 0) →
          (m.map Prod.snd).flatten.countP (fun b => f b = z) = 0 := by
        intro m hm
        rw [List.countP_eq_zero]
        intro c hc
        obtain ⟨_,hl,hcl⟩ := List.mem_flatten.mp hc
        obtain ⟨o',ho',rfl⟩ := List.mem_map.mp hl
        exact List.countP_eq_zero.mp (hm o' ho') c hcl
      have hleft := hzero l (fun o' h => hother o' (List.mem_append_left _ h))
      have hright := hzero l' (fun o' h => hother o' (List.mem_append_right _ h))
      have hhere := (hcov o ho).once z haz
      simp only [List.map_append, List.map_cons, List.flatten_append, List.flatten_cons,
        List.countP_append, hleft, hright, hhere, hyz, decide_false, Bool.false_eq_true, if_false]
  · intro c hc
    rcases List.mem_cons.mp hc with rfl | hc
    · rw [hb]
    · obtain ⟨o,-,-,ho,hw⟩ := hbelow c hc
      exact ReflTransGen.head ho hw

end Bbfs.Forest
