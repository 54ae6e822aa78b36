import Mathlib.Data.List.TakeWhile
import Mathlib.Tactic

/-!
# Formatted input

An input stream is the text not yet read, its two error flags and the base that
the last manipulator left in force. A formatted read skips white space first
and fails on a stream that is not good, leaving its variable alone. What is
printed in a base is read back in that base.
-/

set_option autoImplicit false

namespace Bbfs.Streams

abbrev Text := List Char

structure Stream where
  rest : Text
  eof : Bool := false
  fail : Bool := false
  base : ℕ := 10
  deriving DecidableEq, Repr

def Stream.good (st : Stream) : Bool := !st.eof && !st.fail

def Stream.inBase (b : ℕ) (st : Stream) : Stream := { st with base := b }

def isSpace (c : Char) : Bool :=
  c == ' ' || c == '\t' || c == '\n' || c == '\x0b' || c == '\x0c' || c == '\r'

/-- The sentry of a formatted read: whether there is something to read. -/
def sentry (st : Stream) : Bool × Stream :=
  if st.good = false then (false, { st with fail := true }) else
  let rest := st.rest.dropWhile isSpace
  if rest = [] then (false, { st with rest := [], eof := true, fail := true })
  else (true, { st with rest := rest })

/-- `st >> w` for a string; no result where `w` keeps its value. -/
def getWord (st : Stream) : Option Text × Stream :=
  match sentry st with
  | (false, st) => (none, st)
  | (true, st) =>
    let rest := st.rest.dropWhile (fun c => !isSpace c)
    (some (st.rest.takeWhile (fun c => !isSpace c)), { st with rest := rest, eof := rest.isEmpty })

def isDigitIn (b : ℕ) (c : Char) : Bool := c.isDigit && decide (c.toNat- '0'.toNat < b)

/-- What fits a signed type: the value, and whether it was out of range. -/
def fitSigned (w : ℕ) (negative : Bool) (n : ℕ) : ℤ × Bool :=
  let n : ℤ := if negative then -n else n
  if n < -2^(w-1) then (-2^(w-1), true)
  else if 2^(w-1) ≤ n then (2^(w-1)-1, true) else (n, false)

/-- An unsigned type takes the negative of what is in its range. -/
def fitUnsigned (w : ℕ) (negative : Bool) (n : ℕ) : ℤ × Bool :=
  if 2^w ≤ n then (2^w-1, true) else (if negative then -n % 2^w else n, false)

/-- The digits of the base in force, after a sign. Without digits the value is 0
and the read fails. -/
def readDigits (fit : Bool → ℕ → ℤ × Bool) (negative : Bool) (st : Stream) : ℤ × Stream :=
  let digits := st.rest.takeWhile (isDigitIn st.base)
  let left := st.rest.dropWhile (isDigitIn st.base)
  let n := if digits = [] then (0, true) else fit negative (Nat.ofDigitChars st.base digits 0)
  (n.1, { st with rest := left, eof := left.isEmpty, fail := n.2 })

def getNumber (fit : Bool → ℕ → ℤ × Bool) (st : Stream) : Option ℤ × Stream :=
  match sentry st with
  | (false, st) => (none, st)
  | (true, st) =>
    let negative := st.rest.head? == some '-'
    let signed := negative || st.rest.head? == some '+'
    match readDigits fit negative (if signed then { st with rest := st.rest.tail } else st) with
    | (n, st) => (some n, st)

def getLine (st : Stream) : Text × Stream :=
  if st.good = false then ([], { st with fail := true }) else
  let line := st.rest.takeWhile (· ≠ '\n')
  match st.rest.dropWhile (· ≠ '\n') with
  | [] => (line, { st with rest := [], eof := true, fail := line.isEmpty })
  | _::rest => (line, { st with rest := rest })

def ignore (st : Stream) : Stream :=
  if st.good = false then { st with fail := true } else
  match st.rest with
  | [] => { st with eof := true }
  | _::rest => { st with rest := rest }

def Stream.clear (st : Stream) : Stream := { st with eof := false, fail := false }

def printed (b n : ℕ) : Text := Nat.toDigits b n

variable {st st' : Stream} {w rest : Text} {b n : ℕ} {c : Char}

def Word (w : Text) : Prop := w ≠ [] ∧ ∀ c ∈ w, isSpace c = false

def Blank (w : Text) : Prop := ∀ c ∈ w, isSpace c = true

theorem Word.head (h : Word w) : ∃ c v, w = c::v ∧ isSpace c = false := by
  cases w with
  | nil => exact absurd rfl h.1
  | cons c v => exact ⟨c,v,rfl,h.2 c (by simp)⟩

theorem sentry_word (hg : st.good = true) {ws : Text} (hws : Blank ws) (hw : Word w)
    (hr : st.rest = ws++w++rest) : sentry st = (true, { st with rest := w++rest }) := by
  obtain ⟨c,v,rfl,hc⟩ := hw.head
  have hdrop : st.rest.dropWhile isSpace = c::v++rest := by
    rw [hr, List.append_assoc, List.dropWhile_append_of_pos hws, List.cons_append,
      List.dropWhile_cons_of_neg (by simp [hc])]
  rw [sentry, if_neg (by simp [hg]), hdrop]
  rfl

theorem good_eof (hg : st.good = true) : st.eof = false := by
  rw [Stream.good, Bool.and_eq_true, Bool.not_eq_true'] at hg
  exact hg.1

theorem good_fail (hg : st.good = true) : st.fail = false := by
  rw [Stream.good, Bool.and_eq_true, Bool.not_eq_true', Bool.not_eq_true'] at hg
  exact hg.2

theorem sentry_cases (st : Stream) : (∃ st', sentry st = (false, st') ∧ st'.fail = true) ∨
    st.good = true ∧ ∃ c v, isSpace c = false ∧ sentry st = (true, { st with rest := c::v }) := by
  simp only [sentry]
  split_ifs with hg hr
  · exact Or.inl ⟨_,rfl,rfl⟩
  · exact Or.inl ⟨_,rfl,rfl⟩
  · obtain ⟨c,v,hcv⟩ := List.exists_cons_of_ne_nil hr
    have hhead := List.head?_dropWhile_not isSpace st.rest
    rw [hcv] at hhead
    exact Or.inr ⟨by simpa using hg,c,v,by simpa using hhead,by rw [hcv]⟩

theorem sentry_fails (h : st.fail = true) : sentry st = (false, st) := by
  cases st
  simp_all [sentry, Stream.good]

theorem getWord_word (hg : st.good = true) {ws : Text} (hws : Blank ws) (hw : Word w)
    (hc : isSpace c = true) (hr : st.rest = ws++w++c::rest) :
    getWord st = (some w, { st with rest := c::rest }) := by
  have hin : ∀ a ∈ w, (!isSpace a) = true := by simpa using hw.2
  have htake : (w++c::rest).takeWhile (fun c => !isSpace c) = w := by
    simp [List.takeWhile_append_of_pos hin, hc]
  have hdrop : (w++c::rest).dropWhile (fun c => !isSpace c) = c::rest := by
    simp [List.dropWhile_append_of_pos hin, hc]
  rw [getWord, sentry_word hg hws hw hr]
  simp only [htake, hdrop, List.isEmpty_cons, ← good_eof hg]

theorem getWord_fails (h : st.fail = true) : getWord st = (none, st) := by
  rw [getWord, sentry_fails h]

theorem getWord_some (h : (getWord st).2.fail = false) :
    ∃ w, (getWord st).1 = some w ∧ Word w := by
  rcases sentry_cases st with ⟨st',hs,hfail⟩ | ⟨-,c,v,hc,hs⟩
  · rw [getWord, hs] at h
    exact absurd (hfail.symm.trans h) Bool.noConfusion
  · rw [getWord, hs]
    refine ⟨_,rfl,?_,fun a ha => by simpa using List.mem_takeWhile_imp ha⟩
    simp [hc]

theorem isDigitIn_digitChar (hn : n < b) (hb : b ≤ 10) : isDigitIn b n.digitChar = true := by
  have hlt : n < 10 := by omega
  have hdigit : n.digitChar.isDigit = true := by rw [Nat.isDigit_digitChar, decide_eq_true hlt]
  have hvalue : n.digitChar.toNat- '0'.toNat = n := Nat.toNat_digitChar_sub_48_of_lt_ten hlt
  rw [isDigitIn, hdigit, hvalue, decide_eq_true hn]
  rfl

theorem isDigitIn_printed (hb : 1 < b) (hb' : b ≤ 10) :
    ∀ c ∈ printed b n, isDigitIn b c = true := by
  induction n using Nat.base_induction b hb with
  | single m hm =>
    rw [printed, Nat.toDigits_of_lt_base hm]
    simpa using isDigitIn_digitChar hm hb'
  | digit m k hk hm ih =>
    intro c hc
    rw [printed, ← Nat.toDigits_append_toDigits hb hm hk, List.mem_append,
      Nat.toDigits_of_lt_base hk, List.mem_singleton] at hc
    rcases hc with hc | rfl
    · exact ih c hc
    · exact isDigitIn_digitChar hk hb'

theorem not_isSpace_of_isDigit (h : c.isDigit = true) : isSpace c = false := by
  rw [Char.isDigit, Bool.and_eq_true, decide_eq_true_iff, decide_eq_true_iff] at h
  rw [Bool.eq_false_iff]
  intro hs
  simp only [isSpace, Bool.or_eq_true, beq_iff_eq] at hs
  rcases hs with ((((rfl | rfl) | rfl) | rfl) | rfl) | rfl <;> exact absurd h.1 (by decide)

theorem printed_word (hb : 1 < b) (hb' : b ≤ 10) : Word (printed b n) := by
  refine ⟨Nat.toDigits_ne_nil,fun c hc => ?_⟩
  have hd := isDigitIn_printed hb hb' c hc
  rw [isDigitIn, Bool.and_eq_true] at hd
  exact not_isSpace_of_isDigit hd.1

/-- What was printed in the base in force is read back. -/
theorem getNumber_printed {fit : Bool → ℕ → ℤ × Bool} (hb : 1 < st.base) (hb' : st.base ≤ 10)
    (hg : st.good = true) {ws : Text} (hws : Blank ws) (hc : isSpace c = true)
    (hr : st.rest = ws++printed st.base n++c::rest) (hfit : fit false n = ((n:ℤ),false)) :
    getNumber fit st = (some (n:ℤ), { st with rest := c::rest }) := by
  have hdigits := isDigitIn_printed (n := n) hb hb'
  have hout : isDigitIn st.base c = false := by
    rw [isDigitIn, Bool.and_eq_false_iff]
    left
    by_contra hd
    have hspace := not_isSpace_of_isDigit (by simpa using hd)
    exact absurd (hspace.symm.trans hc) Bool.noConfusion
  obtain ⟨d,v,hdv⟩ : ∃ d v, printed st.base n = d::v :=
    List.exists_cons_of_ne_nil Nat.toDigits_ne_nil
  have hd : isDigitIn st.base d = true := hdigits d (by simp [hdv])
  -- no printed number starts with a sign
  have hsign : ∀ a, a.isDigit = false → ((printed st.base n++c::rest).head? == some a) = false := by
    intro a ha
    rw [hdv, List.cons_append, List.head?_cons, beq_eq_false_iff_ne]
    intro he
    obtain rfl := Option.some.inj he
    rw [isDigitIn, ha] at hd
    exact Bool.false_ne_true hd
  have htake : (printed st.base n++c::rest).takeWhile (isDigitIn st.base) = printed st.base n := by
    simp [List.takeWhile_append_of_pos hdigits, hout]
  have hdrop : (printed st.base n++c::rest).dropWhile (isDigitIn st.base) = c::rest := by
    simp [List.dropWhile_append_of_pos hdigits, hout]
  have hne : printed st.base n ≠ [] := Nat.toDigits_ne_nil
  have hvalue : Nat.ofDigitChars st.base (printed st.base n) 0 = n :=
    Nat.ofDigitChars_toDigits hb hb'
  rw [getNumber, sentry_word hg hws (printed_word hb hb') hr]
  simp only [hsign '-' rfl, hsign '+' rfl, Bool.or_self, Bool.false_eq_true, if_false, readDigits,
    htake, hdrop, hne, hvalue, hfit, List.isEmpty_cons]
  rw [good_eof hg, good_fail hg]

theorem readDigits_fits {fit : Bool → ℕ → ℤ × Bool} {negative : Bool}
    (h : (readDigits fit negative st).2.fail = false) :
    ∃ n, (readDigits fit negative st).1 = (fit negative n).1 ∧ (fit negative n).2 = false := by
  simp only [readDigits] at h ⊢
  split_ifs at h ⊢
  exact ⟨_,rfl,h⟩

theorem getNumber_some {fit : Bool → ℕ → ℤ × Bool}
    (h : (getNumber fit st).2.fail = false) :
    ∃ negative n, (getNumber fit st).1 = some (fit negative n).1 ∧ (fit negative n).2 = false := by
  rcases sentry_cases st with ⟨st',hs,hfail⟩ | ⟨-,c,v,hc,hs⟩
  · rw [getNumber, hs] at h
    exact absurd (hfail.symm.trans h) Bool.noConfusion
  · rw [getNumber, hs] at h ⊢
    obtain ⟨n,hn,hfits⟩ := readDigits_fits h
    exact ⟨_,n,congrArg some hn,hfits⟩

theorem getNumber_fails {fit : Bool → ℕ → ℤ × Bool} (h : st.fail = true) :
    getNumber fit st = (none, st) := by
  rw [getNumber, sentry_fails h]

theorem fitUnsigned_value {width n : ℕ} {negative : Bool}
    (h : (fitUnsigned width negative n).2 = false) :
    ∃ m : ℕ, m < 2^width ∧ (fitUnsigned width negative n).1 = (m : ℤ) := by
  rw [fitUnsigned] at h ⊢
  have hpos : (0:ℤ) < 2^width := by positivity
  split_ifs at h ⊢ with hn hneg
  · have hlow := Int.emod_nonneg (-(n:ℤ)) (ne_of_gt hpos)
    have hhigh := Int.emod_lt_of_pos (-(n:ℤ)) hpos
    obtain ⟨m,hm⟩ := Int.eq_ofNat_of_zero_le hlow
    refine ⟨m,?_,hm⟩
    rw [hm] at hhigh
    exact_mod_cast hhigh
  · exact ⟨n,Nat.lt_of_not_le hn,rfl⟩

theorem fitUnsigned_of_lt {width n : ℕ} (h : n < 2^width) :
    fitUnsigned width false n = ((n:ℤ),false) := by
  rw [fitUnsigned, if_neg (by omega)]
  rfl

end Bbfs.Streams
