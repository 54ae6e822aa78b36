import Mathlib.Data.Finmap
import Mathlib.Logic.Function.Basic

/-!
# Finite maps whose read access inserts

A table indexed with `m[k]` inserts a default value when `k` is absent. The
value read is `read m k`; the insertion is `touch m k`; a write through the
access is `modify m k f`. As functions of the key, a read table is not changed
by a touch, and writes and erasures are pointwise updates.
-/

set_option autoImplicit false

namespace Bbfs.InsertingMap

variable {K V : Type*} [DecidableEq K] [Inhabited V]

def read (m : Finmap (fun _ : K => V)) (k : K) : V := (m.lookup k).getD default

def touch (m : Finmap (fun _ : K => V)) (k : K) : Finmap (fun _ : K => V) :=
  if k ∈ m then m else m.insert k default

def modify (m : Finmap (fun _ : K => V)) (k : K) (f : V → V) : Finmap (fun _ : K => V) :=
  m.insert k (f (read m k))

theorem read_of_notMem {m : Finmap (fun _ : K => V)} {k : K} (h : k ∉ m) :
    read m k = default := by
  rw [read, Finmap.lookup_eq_none.mpr h, Option.getD_none]

theorem read_of_lookup {m : Finmap (fun _ : K => V)} {k : K} {a : V}
    (h : m.lookup k = some a) : read m k = a := by
  rw [read, h, Option.getD_some]

@[simp] theorem read_insert (m : Finmap (fun _ : K => V)) (k : K) (a : V) :
    read (m.insert k a) = Function.update (read m) k a := by
  funext i
  by_cases hi : i = k
  · subst hi
    simp [read]
  · simp [read, Finmap.lookup_insert_of_ne m hi, hi]

@[simp] theorem read_touch (m : Finmap (fun _ : K => V)) (k : K) : read (touch m k) = read m := by
  unfold touch
  split_ifs with h
  · rfl
  · rw [read_insert, ← read_of_notMem h, Function.update_eq_self]

@[simp] theorem read_modify (m : Finmap (fun _ : K => V)) (k : K) (f : V → V) :
    read (modify m k f) = Function.update (read m) k (f (read m k)) :=
  read_insert m k _

@[simp] theorem read_erase (m : Finmap (fun _ : K => V)) (k : K) :
    read (m.erase k) = Function.update (read m) k default := by
  funext i
  by_cases hi : i = k
  · subst hi
    simp [read]
  · simp [read, Finmap.lookup_erase_ne hi, hi]

@[simp] theorem mem_touch {m : Finmap (fun _ : K => V)} {i k : K} :
    i ∈ touch m k ↔ i = k ∨ i ∈ m := by
  unfold touch
  split_ifs with h
  · constructor
    · exact Or.inr
    · rintro (rfl | hi)
      · exact h
      · exact hi
  · exact Finmap.mem_insert

@[simp] theorem mem_modify {m : Finmap (fun _ : K => V)} {i k : K} {f : V → V} :
    i ∈ modify m k f ↔ i = k ∨ i ∈ m :=
  Finmap.mem_insert

theorem touch_of_mem {m : Finmap (fun _ : K => V)} {k : K} (h : k ∈ m) : touch m k = m :=
  if_pos h

theorem lookup_of_mem {m : Finmap (fun _ : K => V)} {k : K} (h : k ∈ m) :
    m.lookup k = some (read m k) := by
  obtain ⟨a,ha⟩ := Finmap.mem_iff.mp h
  rw [ha, read_of_lookup ha]

theorem lookup_eq_iff {m m' : Finmap (fun _ : K => V)} {k : K} :
    m.lookup k = m'.lookup k ↔ (k ∈ m ↔ k ∈ m') ∧ read m k = read m' k := by
  constructor
  · intro h
    rw [← Finmap.lookup_isSome, ← Finmap.lookup_isSome, h, read, read, h]
    exact ⟨Iff.rfl,rfl⟩
  · rintro ⟨hm,hr⟩
    by_cases h : k ∈ m
    · rw [lookup_of_mem h, lookup_of_mem (hm.mp h), hr]
    · rw [Finmap.lookup_eq_none.mpr h, Finmap.lookup_eq_none.mpr (fun h' => h (hm.mpr h'))]

end Bbfs.InsertingMap
