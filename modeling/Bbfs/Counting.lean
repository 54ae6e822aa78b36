import Mathlib.Algebra.BigOperators.Group.Finset.Piecewise
import Mathlib.Algebra.Order.BigOperators.Group.Finset
import Mathlib.Tactic

/-!
# Counting over a family of lists

`census B p L` counts the elements that `p` selects in the lists `L k` for `k`
in `B`. Changing one list changes the count by the difference there; lists
outside a set that covers all non-empty ones do not matter.
-/

set_option autoImplicit false

namespace Bbfs.Counting

variable {ι α : Type*} {B C : Finset ι} {p : α → Bool} {L : ι → List α}

def census (B : Finset ι) (p : α → Bool) (L : ι → List α) : ℕ := ∑ k ∈ B, (L k).countP p

theorem sum_update_add [DecidableEq ι] (a : ι → ℕ) {k : ι} (hk : k ∈ B) (x : ℕ) :
    ∑ j ∈ B, Function.update a k x j+a k = ∑ j ∈ B, a j+x := by
  rw [Finset.sum_update_of_mem hk, ← Finset.sum_sdiff (Finset.singleton_subset_iff.mpr hk),
    Finset.sum_singleton]
  omega

theorem census_update [DecidableEq ι] {k : ι} (hk : k ∈ B) (l : List α) :
    census B p (Function.update L k l)+(L k).countP p = census B p L+l.countP p := by
  have hfun : (fun j => (Function.update L k l j).countP p) =
      Function.update (fun j => (L j).countP p) k (l.countP p) := by
    funext j
    by_cases hj : j = k
    · subst hj
      simp
    · simp [hj]
  unfold census
  rw [hfun]
  exact sum_update_add (fun j => (L j).countP p) hk (l.countP p)

theorem census_extend (h : B ⊆ C) (hB : ∀ k, L k ≠ [] → k ∈ B) : census B p L = census C p L := by
  apply Finset.sum_subset h
  intro k _ hk
  have hnil : L k = [] := by
    by_contra hne
    exact hk (hB k hne)
  rw [hnil, List.countP_nil]

theorem census_pos (hB : ∀ k, L k ≠ [] → k ∈ B) :
    0 < census B p L ↔ ∃ k, ∃ d ∈ L k, p d = true := by
  constructor
  · intro h
    obtain ⟨k,-,hk⟩ := Finset.exists_ne_zero_of_sum_ne_zero (Nat.pos_iff_ne_zero.mp h)
    exact ⟨k,List.countP_pos_iff.mp (Nat.pos_of_ne_zero hk)⟩
  · intro ⟨k,d,hd,hp⟩
    have hk : k ∈ B := hB k (List.ne_nil_of_mem hd)
    have hpos : 0 < (L k).countP p := List.countP_pos_iff.mpr ⟨d,hd,hp⟩
    exact Nat.lt_of_lt_of_le hpos
      (Finset.single_le_sum (f := fun j => (L j).countP p) (fun _ _ => Nat.zero_le _) hk)

theorem census_one [DecidableEq ι] (h : census B p L ≤ 1) {k l : ι} (hk : k ∈ B) (hl : l ∈ B)
    {d e : α} (hd : d ∈ L k) (he : e ∈ L l) (hpd : p d = true) (hpe : p e = true) :
    k = l ∧ d = e := by
  have hpos : ∀ {j x}, x ∈ L j → p x = true → 0 < (L j).countP p :=
    fun hx hp => List.countP_pos_iff.mpr ⟨_,hx,hp⟩
  have hsame : k = l := by
    by_contra hne
    have hpair : (L k).countP p+(L l).countP p ≤ census B p L := by
      rw [census, ← Finset.sum_pair (f := fun j => (L j).countP p) hne]
      apply Finset.sum_le_sum_of_subset
      intro j hj
      rcases Finset.mem_insert.mp hj with rfl | hj
      · exact hk
      · exact Finset.mem_singleton.mp hj ▸ hl
    have h1 := hpos hd hpd
    have h2 := hpos he hpe
    omega
  subst hsame
  refine ⟨rfl,?_⟩
  by_contra hne
  have hsub : [d,e] ⊆ (L k).filter p := by
    intro x hx
    rcases List.mem_cons.mp hx with rfl | hx
    · exact List.mem_filter.mpr ⟨hd,hpd⟩
    · exact List.mem_singleton.mp hx ▸ List.mem_filter.mpr ⟨he,hpe⟩
  have htwo := (List.subperm_of_subset (by simp [hne]) hsub).length_le
  have hone : (L k).countP p ≤ census B p L :=
    Finset.single_le_sum (f := fun j => (L j).countP p) (fun _ _ => Nat.zero_le _) hk
  rw [List.countP_eq_length_filter] at hone
  simp only [List.length_cons, List.length_nil] at htwo
  omega

theorem countP_eraseP (p q : α → Bool) (l : List α) :
    (l.eraseP q).countP p + (l.find? q).toList.countP p = l.countP p := by
  induction l with
  | nil => rfl
  | cons d l ih =>
    by_cases hq : q d = true
    · rw [List.eraseP_cons_of_pos hq, List.find?_cons_of_pos hq, List.countP_cons,
        Option.toList_some, List.countP_singleton]
    · rw [List.eraseP_cons_of_neg hq, List.find?_cons_of_neg hq, List.countP_cons, List.countP_cons,
        ← ih]
      omega

end Bbfs.Counting
