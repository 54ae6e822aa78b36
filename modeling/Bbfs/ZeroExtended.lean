import Mathlib.Data.List.GetD
import Mathlib.Tactic

/-!
# Lists as zero-extended arrays

A list read beyond its end yields a default value. As functions of the index,
filling up with the default changes nothing, cutting sets the rest to the
default, and a splice replaces exactly the range it covers.
-/

set_option autoImplicit false

namespace Bbfs.ZeroExtended

variable {α : Type*} {z : α} {l str : List α} {e : ℕ}

/-- The array that a list denotes. -/
def extend (z : α) (l : List α) : ℕ → α := fun i => l.getD i z

def replaceAt (a : ℕ → α) (e : ℕ) (str : List α) : ℕ → α :=
  fun i => if e ≤ i ∧ i < e+str.length then str.getD (i-e) (a i) else a i

def zeroFrom (z : α) (a : ℕ → α) (n : ℕ) : ℕ → α := fun i => if i < n then a i else z

def splice (l : List α) (e : ℕ) (str : List α) : List α :=
  l.take e++(str++l.drop (e+str.length))

theorem extend_append_replicate (z : α) (l : List α) (n : ℕ) :
    extend z (l++List.replicate n z) = extend z l := by
  funext i
  unfold extend
  by_cases hi : i < l.length
  · rw [List.getD_append _ _ _ _ hi]
  · rw [List.getD_append_right _ _ _ _ (by omega), List.getD_eq_default l z (by omega)]
    by_cases hn : i-l.length < n
    · simp [hn]
    · exact List.getD_eq_default _ z (by simpa using hn)

theorem extend_take (z : α) (l : List α) (n : ℕ) :
    extend z (l.take n) = zeroFrom z (extend z l) n := by
  funext i
  unfold extend zeroFrom
  by_cases hi : i < n
  · simp [hi, List.getD_eq_getElem?_getD]
  · rw [if_neg hi]
    apply List.getD_eq_default
    rw [List.length_take]
    omega

theorem splice_nil (l : List α) (e : ℕ) : splice l e [] = l := by
  rw [splice, List.nil_append, List.length_nil, Nat.add_zero, List.take_append_drop]

theorem splice_set {c : α} {cs : List α} (h : e < l.length) :
    splice (l.set e c) (e+1) cs = splice l e (c::cs) := by
  unfold splice
  have hdrop : (l.set e c).drop (e+1+cs.length) = l.drop (e+(c::cs).length) := by
    rw [List.drop_set_of_lt (by omega), List.length_cons]
    congr 1
    omega
  have htake : (l.set e c).take (e+1) = l.take e++[c] := by
    rw [List.take_add_one, List.take_set_of_le (Nat.le_refl e), List.getElem?_set_self h]
    rfl
  rw [hdrop, htake]
  simp

theorem length_splice (h : e+str.length ≤ l.length) : (splice l e str).length = l.length := by
  simp only [splice, List.length_append, List.length_take, List.length_drop]
  omega

theorem extend_splice (z : α) (h : e ≤ l.length) :
    extend z (splice l e str) = replaceAt (extend z l) e str := by
  have htake : (l.take e).length = e := by
    rw [List.length_take]
    omega
  funext i
  unfold extend replaceAt splice
  by_cases hlo : i < e
  · rw [if_neg (by omega), List.getD_append _ _ _ _ (by omega)]
    simp [hlo, List.getD_eq_getElem?_getD]
  · rw [List.getD_append_right _ _ _ _ (by omega), htake]
    by_cases hhi : i < e+str.length
    · rw [if_pos (by omega), List.getD_append _ _ _ _ (by omega)]
      have hin : i-e < str.length := by omega
      rw [List.getD_eq_getElem _ _ hin, List.getD_eq_getElem _ _ hin]
    · rw [if_neg (by omega), List.getD_append_right _ _ _ _ (by omega)]
      simp only [List.getD_eq_getElem?_getD, List.getElem?_drop]
      congr 2
      omega

theorem take_drop_splice (h : e ≤ l.length) : ((splice l e str).drop e).take str.length = str := by
  have htake : (l.take e).length = e := by
    rw [List.length_take]
    omega
  rw [splice, List.drop_left' htake, List.take_left]

end Bbfs.ZeroExtended
