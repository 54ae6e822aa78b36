import Mathlib.Data.List.Basic
import Mathlib.Tactic

/-!
# Strings, splitting and joining

A string is its list of bytes, one character a byte. The scanning loop of
`split` is given with a step allowance; for a non-empty pattern it always
ends, and at a slash it is the separator split of the list library. Every
path of the program is taken apart by `split`, `pop_back` and `join`.
-/

set_option autoImplicit false

namespace Bbfs.Strings

abbrev Str := List Char

/-- The C string that `c_str()` denotes: the bytes before the first NUL. -/
def cstr (s : Str) : Str := s.takeWhile (· ≠ '\x00')

def find (pat : Str) : Str → Option ℕ
  | [] => if pat.isPrefixOf [] then some 0 else none
  | c::cs => if pat.isPrefixOf (c::cs) then some 0 else (find pat cs).map (· + 1)

/-- The loop of `split`, whose index `i` stands at the head of `rest`. The
first argument bounds the number of iterations. -/
def splitLoop (pat : Str) : ℕ → Str → Option (List Str)
  | 0, _ => none
  | fuel+1, rest =>
    match find pat rest with
    | none => some [rest]
    | some t => (splitLoop pat fuel (rest.drop (t+pat.length))).map (rest.take t :: ·)

def split (s pat : Str) : Option (List Str) := splitLoop pat (s.length+1) s

def join (v : List Str) (pat : Str) (start : ℕ) (stop : ℤ) : Str :=
  let stop := if stop < 0 then stop+v.length else stop
  if start ≥ v.length then [] else
    (v.drop (start+1)).take (stop-start).toNat |>.foldl (fun s w => s++(pat++w)) (v.getD start [])

def slash : Str := ['/']

def segments (path : Str) : List Str := (split path slash).getD []

def tail (path : Str) : Str := (segments path).getLastD []

/-- `join(v, "/")` once `v.pop_back()` has dropped the last segment. -/
def parentPath (path : Str) : Str := join (segments path).dropLast slash 0 (-1)

def dot : Str := ['.']

def dotdot : Str := ['.','.']

def IsDots (name : Str) : Prop := name = dot ∨ name = dotdot

instance (name : Str) : Decidable (IsDots name) := inferInstanceAs (Decidable (_ ∨ _))

theorem find_slash (s : Str) :
    find slash s = if '/' ∈ s then some (s.idxOf '/') else none := by
  induction s with
  | nil => rfl
  | cons c cs ih =>
    by_cases hc : c = '/'
    · subst hc
      simp [find, slash]
    · have hp : slash.isPrefixOf (c::cs) = false := by
        simp [slash, List.isPrefixOf, Ne.symm hc]
      rw [find, hp, ih]
      by_cases hm : '/' ∈ cs
      · simp [hm, List.idxOf_cons_ne _ hc]
      · simp [hm, Ne.symm hc]

theorem splitOn_take (s : Str) (h : '/' ∈ s) :
    s.splitOn '/' = s.take (s.idxOf '/') :: (s.drop (s.idxOf '/'+1)).splitOn '/' := by
  induction s with
  | nil => simp at h
  | cons c cs ih =>
    by_cases hc : c = '/'
    · subst hc
      simp [List.splitOn_cons_eq_if_modifyHead]
    · have hm : '/' ∈ cs := by
        rcases List.mem_cons.mp h with h | h
        · exact absurd h.symm hc
        · exact h
      rw [List.splitOn_cons_eq_if_modifyHead, ih hm, List.idxOf_cons_ne _ hc]
      simp [hc]

theorem splitLoop_slash (s : Str) (fuel : ℕ) (h : s.length < fuel) :
    splitLoop slash fuel s = some (s.splitOn '/') := by
  induction fuel generalizing s with
  | zero => omega
  | succ fuel ih =>
    rw [splitLoop, find_slash]
    by_cases hm : '/' ∈ s
    · have hi := List.idxOf_lt_length_iff.mpr hm
      rw [if_pos hm]
      simp only
      rw [ih _ (by simp only [List.length_drop, slash, List.length_cons, List.length_nil]; omega),
        splitOn_take s hm]
      rfl
    · rw [if_neg hm]
      simp [List.splitOn_eq_singleton hm]

theorem segments_eq (path : Str) : segments path = path.splitOn '/' := by
  rw [segments, split, splitLoop_slash path _ (Nat.lt_succ_self _), Option.getD_some]

theorem foldl_join (pat : Str) (ws : List Str) (s : Str) :
    ws.foldl (fun s w => s++(pat++w)) s = s++(ws.map (pat++·)).flatten := by
  induction ws generalizing s with
  | nil => simp
  | cons w ws ih => simp [ih]

theorem intercalate_cons (pat w : Str) (ws : List Str) :
    pat.intercalate (w::ws) = w++(ws.map (pat++·)).flatten := by
  induction ws generalizing w with
  | nil => simp
  | cons u ws ih => simp [List.intercalate_cons_cons, ih]

theorem join_default (v : List Str) (pat : Str) : join v pat 0 (-1) = pat.intercalate v := by
  cases v with
  | nil => simp [join]
  | cons w ws =>
    have hn : (((-1:ℤ)+((ws.length+1:ℕ):ℤ))-((0:ℕ):ℤ)).toNat = ws.length := by omega
    simp only [join, List.length_cons, hn, show (-1:ℤ) < 0 by decide, if_true, List.drop_succ_cons,
      List.drop_zero, List.take_length, foldl_join, List.getD_cons_zero, intercalate_cons]
    rw [if_neg (by omega)]

theorem segments_ne_nil (path : Str) : segments path ≠ [] := by
  rw [segments_eq]
  exact List.splitOn_ne_nil '/' path

theorem segments_slash_free (path : Str) : ∀ w ∈ segments path, '/' ∉ w := by
  rw [segments_eq]
  induction path with
  | nil => simp
  | cons c cs ih =>
    obtain ⟨w,ws,hw⟩ := List.exists_cons_of_ne_nil (List.splitOn_ne_nil '/' cs)
    rw [List.splitOn_cons_eq_if_modifyHead]
    rw [hw] at ih ⊢
    split_ifs with hc
    · simpa using ih
    · simp only [beq_iff_eq] at hc
      simp only [List.modifyHead_cons, List.mem_cons, forall_eq_or_imp] at ih ⊢
      exact ⟨by simpa [Ne.symm hc] using ih.1,ih.2⟩

theorem segments_eq_append (path : Str) :
    segments path = (segments path).dropLast ++ [tail path] := by
  rw [tail, List.getLastD_eq_getLast?, List.getLast?_eq_some_getLast (segments_ne_nil path),
    Option.getD_some, List.dropLast_append_getLast]

theorem tail_slash_free (path : Str) : '/' ∉ tail path := by
  apply segments_slash_free path
  rw [segments_eq_append]
  simp

theorem segments_parentPath (path : Str) :
    segments (parentPath path) = (segments path).dropLast ∨
      segments (parentPath path) = [[]] ∧ (segments path).dropLast = [] := by
  rw [parentPath, join_default]
  by_cases h : (segments path).dropLast = []
  · right
    rw [h]
    exact ⟨rfl,rfl⟩
  · left
    rw [segments_eq]
    exact List.splitOn_intercalate '/'
      (fun w hw => segments_slash_free path w (List.dropLast_subset _ hw)) h

theorem segments_append (p q : Str) : segments (p++ '/'::q) = segments p++segments q := by
  simp only [segments_eq, List.splitOn_append_cons_self]

theorem segments_of_slash_free (n : Str) (h : '/' ∉ n) : segments n = [n] := by
  rw [segments_eq, List.splitOn_eq_singleton h]

theorem segments_cons_slash (p : Str) : segments ('/'::p) = []::segments p := by
  rw [← List.nil_append ('/'::p), segments_append]
  rfl

example : segments ['/','d','/'] = [[],['d'],[]] ∧ parentPath ['/','d','/'] = ['/','d'] := by
  decide

end Bbfs.Strings
