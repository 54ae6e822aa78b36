import Bbfs.Dialog

/-!
# The base of a number

A manipulator stays in force on its stream. `mkdir`, `creat`, `chmod` and
`access` send `oct`, `chown` and the second operand of `pread` send `dec`, and
the other numbers are read in whatever base is in force on their stream.
-/

set_option autoImplicit false

namespace Bbfs.Bases
open Bbfs.Files Bbfs.Streams Bbfs.Dialog

inductive Source where
  | file
  | keyboard
  deriving DecidableEq, Repr

variable {α : Type} {f : Stream → α × Stream} {st : Stream} {s s' : Console} {b : ℕ}
  {src : Source} {stale : ℕ → ℤ}

def live (s : Console) : Source := if s.myin.good then .file else .keyboard

def streamOf (s : Console) : Source → Stream
  | .file => s.myin
  | .keyboard => s.cin

def baseOf (s : Console) (src : Source) : ℕ := (streamOf s src).base

def heard (s : Console) : Console :=
  let ((op, file), s) := ask words s
  if op = "exit".toList then s else note (op++[' ']++file) s

theorem command_eq (stale : ℕ → ℤ) (s : Console) :
    command stale s = branch stale (ask words s).1.2 (nextOp s) (heard s) := rfl

/-- The manipulators of one round, each with the stream it is sent to. -/
def manipulators (s : Console) : List (Source × ℕ) :=
  let t := heard s
  match nextOp s with
  | .mkdir | .creat | .chmod | .access => [(live t,8)]
  | .chown =>
    match resetCin (ask (inBase 10 getUnsigned) t).2 with
    | (true, _) => [(live t,10)]
    | (false, u) => [(live t,10),(live u,10)]
  | .pread => [(live (ask getInt t).2,10)]
  | _ => []

/-- The rounds of the loop so far, with the manipulators sent in them. -/
inductive Executes (stale : Console → ℕ → ℤ) (s₀ : Console) :
    List (Source × ℕ) → Console → Prop
  | start : Executes stale s₀ [] s₀
  | went {ms : List (Source × ℕ)} {s s' : Console} {a : Option Action}
      (before : Executes stale s₀ ms s) (round : command (stale s) s = (.went a,s')) :
      Executes stale s₀ (ms++manipulators s) s'
  | error {ms : List (Source × ℕ)} {s s' : Console} (before : Executes stale s₀ ms s)
      (round : command (stale s) s = (.error,s')) : Executes stale s₀ (ms++manipulators s) s'

def last (src : Source) (ms : List (Source × ℕ)) : Option ℕ :=
  ((ms.filter (fun m => m.1 = src)).getLast?).map Prod.snd

theorem last_append (ms ns : List (Source × ℕ)) :
    last src (ms++ns) = (last src ns).or (last src ms) := by
  rw [last, List.filter_append, List.getLast?_append, Option.map_or]
  rfl

@[simp] theorem last_nil : last src [] = none := rfl

@[simp] theorem last_singleton (t : Source) :
    last src [(t,b)] = if t = src then some b else none := by
  rw [last]
  split_ifs with h
  · simp [h]
  · simp [h]

def Ignores (f : Stream → α × Stream) : Prop :=
  ∀ st b, f (st.inBase b) = ((f st).1,(f st).2.inBase b)

def Keeps (f : Stream → α × Stream) : Prop := ∀ st, (f st).2.base = st.base

theorem Ignores.keeps (h : Ignores f) : Keeps f := by
  intro st
  have hst := h st st.base
  rw [show st.inBase st.base = st from rfl] at hst
  rw [hst]
  rfl

theorem sentry_inBase (st : Stream) (b : ℕ) :
    sentry (st.inBase b) = ((sentry st).1,(sentry st).2.inBase b) := by
  have hgood : (st.inBase b).good = st.good := rfl
  have hrest : (st.inBase b).rest = st.rest := rfl
  rw [sentry, sentry, hgood, hrest]
  by_cases hg : st.good = false
  · rw [if_pos hg, if_pos hg]
    rfl
  · rw [if_neg hg, if_neg hg]
    by_cases hr : st.rest.dropWhile isSpace = []
    · simp only [hr, if_true]
      rfl
    · simp only [hr, if_false]
      rfl

theorem getWord_ignores : Ignores getWord := by
  intro st b
  simp only [getWord, sentry_inBase]
  rcases sentry st with ⟨ready,t⟩
  cases ready with
  | false => rfl
  | true => rfl

theorem word_ignores : Ignores word := by
  intro st b
  simp only [word, getWord_ignores st b]

theorem words_ignores : Ignores words := by
  intro st b
  simp only [words, word_ignores st b, word_ignores (word st).2 b]

theorem getLine_ignores : Ignores getLine := by
  intro st b
  have hgood : (st.inBase b).good = st.good := rfl
  have hrest : (st.inBase b).rest = st.rest := rfl
  rw [getLine, getLine, hgood, hrest]
  by_cases hg : st.good = false
  · rw [if_pos hg, if_pos hg]
    rfl
  · rw [if_neg hg, if_neg hg]
    cases st.rest.dropWhile (· ≠ '\n') with
    | nil => rfl
    | cons c rest => rfl

theorem ignore_inBase (st : Stream) (b : ℕ) : ignore (st.inBase b) = (ignore st).inBase b := by
  have hgood : (st.inBase b).good = st.good := rfl
  have hrest : (st.inBase b).rest = st.rest := rfl
  rw [ignore, ignore, hgood, hrest]
  by_cases hg : st.good = false
  · rw [if_pos hg, if_pos hg]
    rfl
  · rw [if_neg hg, if_neg hg]
    cases st.rest with
    | nil => rfl
    | cons c rest => rfl

theorem ignore_keeps (st : Stream) : (ignore st).base = st.base := by
  have hst := ignore_inBase st st.base
  rw [show st.inBase st.base = st from rfl] at hst
  rw [hst]
  rfl

theorem getNumber_keeps (fit : Bool → ℕ → ℤ × Bool) : Keeps (getNumber fit) := by
  intro st
  have hsentry : (sentry st).2.base = st.base := by
    have hst := sentry_inBase st st.base
    rw [show st.inBase st.base = st from rfl] at hst
    rw [hst]
    rfl
  rw [getNumber]
  rcases hs : sentry st with ⟨ready,t⟩
  rw [hs] at hsentry
  cases ready with
  | false => exact hsentry
  | true =>
    simp only [readDigits]
    split_ifs <;> exact hsentry

theorem getUnsigned_keeps : Keeps getUnsigned := getNumber_keeps (fitUnsigned 32)

theorem getInt_keeps : Keeps getInt := getNumber_keeps (fitSigned 32)

theorem getLong_keeps : Keeps getLong := getNumber_keeps (fitSigned 64)

theorem ask_keeps (hf : Keeps f) : baseOf (ask f s).2 src = baseOf s src := by
  rw [ask]
  split_ifs <;> cases src <;> simp [baseOf, streamOf, hf _]

theorem askCin_keeps (hf : Keeps f) : baseOf (askCin f s).2 src = baseOf s src := by
  cases src <;> simp [askCin, baseOf, streamOf, hf _]

theorem ask_inBase (hf : Keeps f) :
    baseOf (ask (inBase b f) s).2 src = if live s = src then b else baseOf s src := by
  have hbase : ∀ st, (inBase b f st).2.base = b := fun st => hf (st.inBase b)
  rw [ask, live]
  split_ifs <;> cases src <;> simp_all [baseOf, streamOf]

theorem resetCin_keeps (s : Console) : baseOf (resetCin s).2 src = baseOf s src := by
  have hline := getLine_ignores.keeps s.cin.clear
  rw [resetCin]
  split_ifs
  · cases src with
    | file => rfl
    | keyboard => exact hline
  · rfl

theorem note_keeps (line : Text) : baseOf (note line s) src = baseOf s src := by
  cases src <;> rfl

theorem asked_base (s : Console) (b : ℕ) (src : Source) :
    baseOf (resetCin (ask (inBase b getUnsigned) s).2).2 src =
      if live s = src then b else baseOf s src :=
  (resetCin_keeps _).trans (ask_inBase getUnsigned_keeps)

theorem withMode_base (act : Mode → Action) :
    baseOf (withMode stale act s).2 src = (last src [(live s,8)]).getD (baseOf s src) := by
  have hread : baseOf (withMode stale act s).2 src =
      baseOf (resetCin (ask (inBase 8 getUnsigned) s).2).2 src := by
    simp only [withMode]
    split_ifs
    · rfl
    · exact note_keeps _
  rw [hread, asked_base, last_singleton]
  split_ifs <;> rfl

theorem chown_base (file : Text) :
    baseOf (chown stale file s).2 src =
      (last src (match resetCin (ask (inBase 10 getUnsigned) s).2 with
        | (true, _) => [(live s,10)]
        | (false, u) => [(live s,10),(live u,10)])).getD (baseOf s src) := by
  have hfirst := asked_base s 10 src
  rcases hu : resetCin (ask (inBase 10 getUnsigned) s).2 with ⟨refused,u⟩
  rw [hu] at hfirst
  cases refused with
  | true =>
    simp only [chown, hu, if_true, last_singleton]
    rw [hfirst]
    split_ifs <;> rfl
  | false =>
    have hnote : live (note (printed 10 ((ask (inBase 10 getUnsigned) s).1.getD
      (stale 0 % 2^32)).toNat) u) = live u := rfl
    have hsecond := asked_base (note (printed 10 ((ask (inBase 10 getUnsigned) s).1.getD
      (stale 0 % 2^32)).toNat) u) 10 src
    rw [hnote, note_keeps, hfirst] at hsecond
    have hread : baseOf (chown stale file s).2 src =
        if live u = src then 10 else if live s = src then 10 else baseOf s src := by
      simp only [chown, hu, Bool.false_eq_true, if_false]
      refine Eq.trans ?_ hsecond
      split_ifs
      · rfl
      · exact note_keeps _
    have hpair : last src [(live s,10),(live u,10)] =
        (last src [(live u,10)]).or (last src [(live s,10)]) :=
      last_append [(live s,10)] [(live u,10)]
    simp only [hread, hpair, last_singleton]
    split_ifs <;> rfl

theorem pread_base (file : Text) :
    baseOf (pread stale file s).2 src =
      (last src [(live (ask getInt s).2,10)]).getD (baseOf s src) := by
  have hsize : baseOf (pread stale file s).2 src =
      if live (ask getInt s).2 = src then 10 else baseOf (ask getInt s).2 src :=
    ask_inBase getInt_keeps
  rw [hsize, ask_keeps getInt_keeps, last_singleton]
  split_ifs <;> rfl

theorem branch_base (file : Text) (o : Op) (s : Console) (src : Source)
    (h : o ∉ [Op.mkdir,.creat,.chmod,.access,.chown,.pread]) :
    baseOf (branch stale file o s).2 src = baseOf s src := by
  cases o with
  | mkdir => simp at h
  | creat => simp at h
  | chmod => simp at h
  | access => simp at h
  | chown => simp at h
  | pread => simp at h
  | link => exact (note_keeps _).trans (ask_keeps word_ignores.keeps)
  | rename => exact (note_keeps _).trans (ask_keeps word_ignores.keeps)
  | pwrite =>
    refine (note_keeps _).trans ((askCin_keeps getLine_ignores.keeps).trans ?_)
    refine Eq.trans ?_ (ask_keeps getInt_keeps)
    cases src with
    | file => rfl
    | keyboard => exact ignore_keeps _
  | symlink => exact ask_keeps word_ignores.keeps
  | utime =>
    exact (askCin_keeps getLong_keeps).trans (askCin_keeps getLong_keeps)
  | truncate => exact askCin_keeps getInt_keeps
  | lsetxattr => exact (askCin_keeps word_ignores.keeps).trans (askCin_keeps word_ignores.keeps)
  | lgetxattr => exact (askCin_keeps getInt_keeps).trans (askCin_keeps word_ignores.keeps)
  | lremovexattr => exact askCin_keeps word_ignores.keeps
  | _ => rfl

theorem heard_base (s : Console) (src : Source) : baseOf (heard s) src = baseOf s src := by
  have hwords : baseOf (ask words s).2 src = baseOf s src := ask_keeps words_ignores.keeps
  rw [← hwords, heard]
  rcases ask words s with ⟨⟨op,file⟩,t⟩
  show baseOf (if op = "exit".toList then t else note (op++[' ']++file) t) src = baseOf t src
  split_ifs
  · rfl
  · exact note_keeps _

theorem command_base (stale : ℕ → ℤ) (s : Console) (src : Source) :
    baseOf (command stale s).2 src = (last src (manipulators s)).getD (baseOf s src) := by
  rw [command_eq, manipulators, ← heard_base s]
  cases nextOp s with
  | mkdir => exact withMode_base _
  | creat => exact withMode_base _
  | chmod => exact withMode_base _
  | access => exact withMode_base _
  | chown => exact chown_base _
  | pread => exact pread_base _
  | _ => exact branch_base _ _ _ _ (by decide)

variable {ms : List (Source × ℕ)} {s₀ : Console} {stales : Console → ℕ → ℤ}

/-- The base in force on a stream is that of the last manipulator sent to it. -/
theorem base_in_force (h : Executes stales s₀ ms s) (src : Source) :
    baseOf s src = (last src ms).getD (baseOf s₀ src) := by
  have hround : ∀ {ms : List (Source × ℕ)} {s s' : Console} {o : Outcome},
      baseOf s src = (last src ms).getD (baseOf s₀ src) → command (stales s) s = (o,s') →
      baseOf s' src = (last src (ms++manipulators s)).getD (baseOf s₀ src) := by
    intro ms s s' o ih hs
    have hstep := command_base (stales s) s src
    rw [hs] at hstep
    rw [hstep, ih, last_append]
    cases last src (manipulators s) with
    | none => rfl
    | some b => rfl
  induction h with
  | start => rfl
  | went before round ih => exact hround ih round
  | error before round ih => exact hround ih round

def decimal (s : Console) : Console := ⟨s.myin.inBase 10,s.cin.inBase 10,s.record⟩

/-- The stream from which the next round reads a number without a manipulator. -/
def operandSource (s : Console) : Option Source :=
  match nextOp s with
  | .pread | .pwrite => some (live (heard s))
  | .utime | .truncate => some .keyboard
  | _ => none

def operandBases (s : Console) : List ℕ :=
  let t := heard s
  match nextOp s with
  | .pread => [baseOf t (live t),10]
  | .pwrite => [baseOf t (live t)]
  | .utime => [baseOf t .keyboard,baseOf (askCin getLong t).2 .keyboard]
  | .truncate => [baseOf t .keyboard]
  | _ => []

/-- The numbers of the next round are read as decimal ones, and the round does
what it does with the default bases. -/
structure ReadsDecimal (stale : ℕ → ℤ) (s : Console) : Prop where
  bases : ∀ b ∈ operandBases s, b = 10
  call : (operandSource s).isSome → (command stale s).1 = (command stale (decimal s)).1

theorem ask_decimal (h : f ((streamOf s (live s)).inBase 10) =
    ((f (streamOf s (live s))).1,(f (streamOf s (live s))).2.inBase 10)) :
    ask f (decimal s) = ((ask f s).1,decimal (ask f s).2) := by
  have hgood : (decimal s).myin.good = s.myin.good := rfl
  rw [live] at h
  rw [ask, ask, hgood]
  by_cases hg : s.myin.good = true
  · rw [if_pos hg] at h
    have hread : f (decimal s).myin = ((f s.myin).1,(f s.myin).2.inBase 10) := h
    rw [if_pos hg, if_pos hg, hread]
    rfl
  · rw [if_neg hg] at h
    have hread : f (decimal s).cin = ((f s.cin).1,(f s.cin).2.inBase 10) := h
    rw [if_neg hg, if_neg hg, hread]
    rfl

theorem askCin_decimal (h : f (s.cin.inBase 10) = ((f s.cin).1,(f s.cin).2.inBase 10)) :
    askCin f (decimal s) = ((askCin f s).1,decimal (askCin f s).2) := by
  have hread : f (decimal s).cin = ((f s.cin).1,(f s.cin).2.inBase 10) := h
  rw [askCin, askCin, hread]
  rfl

theorem inBase_self (h : st.base = 10) : st.inBase 10 = st := by
  cases st
  cases h
  rfl

theorem read_ten (hf : Keeps f) (h : st.base = 10) :
    f (st.inBase 10) = ((f st).1,(f st).2.inBase 10) := by
  rw [inBase_self h, inBase_self ((hf st).trans h)]

theorem read_dec (hf : Keeps f) : inBase 10 f (st.inBase 10) =
    ((inBase 10 f st).1,(inBase 10 f st).2.inBase 10) := by
  have hbase : (inBase 10 f st).2.base = 10 := hf (st.inBase 10)
  rw [inBase_self hbase]
  rfl

theorem heard_decimal (s : Console) : heard (decimal s) = decimal (heard s) ∧
    (ask words (decimal s)).1 = (ask words s).1 := by
  have hwords : ask words (decimal s) = ((ask words s).1,decimal (ask words s).2) :=
    ask_decimal (words_ignores _ 10)
  rw [heard, heard, hwords]
  rcases ask words s with ⟨⟨op,file⟩,t⟩
  refine ⟨?_,rfl⟩
  show (if op = "exit".toList then decimal t else note (op++[' ']++file) (decimal t)) =
    decimal (if op = "exit".toList then t else note (op++[' ']++file) t)
  split_ifs <;> rfl

theorem pread_decimal (file : Text) (h : baseOf s (live s) = 10) :
    (pread stale file s).1 = (pread stale file (decimal s)).1 := by
  have hoffset : ask getInt (decimal s) = ((ask getInt s).1,decimal (ask getInt s).2) :=
    ask_decimal (read_ten getInt_keeps h)
  have hsize : ask (inBase 10 getInt) (decimal (ask getInt s).2) = _ :=
    ask_decimal (read_dec getInt_keeps)
  simp only [pread, hoffset, hsize]

theorem pwrite_decimal (file : Text) (h : baseOf s (live s) = 10) :
    (pwrite stale file s).1 = (pwrite stale file (decimal s)).1 := by
  have hoffset : ask getInt (decimal s) = ((ask getInt s).1,decimal (ask getInt s).2) :=
    ask_decimal (read_ten getInt_keeps h)
  have hline : ∀ t : Console, askCin getLine { decimal t with cin := ignore (decimal t).cin } =
      ((askCin getLine { t with cin := ignore t.cin }).1,
        decimal (askCin getLine { t with cin := ignore t.cin }).2) := by
    intro t
    have hskip : { decimal t with cin := ignore (decimal t).cin } =
        decimal { t with cin := ignore t.cin } :=
      congrArg (fun cin => Console.mk (t.myin.inBase 10) cin t.record) (ignore_inBase t.cin 10)
    rw [hskip]
    exact askCin_decimal (getLine_ignores _ 10)
  simp only [pwrite, hoffset, hline]

theorem utime_decimal (file : Text) (h : baseOf s .keyboard = 10) :
    (utime stale file s).1 = (utime stale file (decimal s)).1 := by
  have hfirst : askCin getLong (decimal s) = ((askCin getLong s).1,decimal (askCin getLong s).2) :=
    askCin_decimal (read_ten getLong_keeps h)
  have hsecond : askCin getLong (decimal (askCin getLong s).2) = _ :=
    askCin_decimal (read_ten getLong_keeps ((getLong_keeps s.cin).trans h))
  simp only [utime, hfirst, hsecond]

theorem truncate_decimal (file : Text) (h : baseOf s .keyboard = 10) :
    (truncate stale file s).1 = (truncate stale file (decimal s)).1 := by
  have hsize : askCin getInt (decimal s) = ((askCin getInt s).1,decimal (askCin getInt s).2) :=
    askCin_decimal (read_ten getInt_keeps h)
  simp only [truncate, hsize]

theorem operandBases_iff (s : Console) :
    (∀ b ∈ operandBases s, b = 10) ↔ ∀ src ∈ operandSource s, baseOf s src = 10 := by
  rw [operandBases, operandSource]
  cases nextOp s with
  | pread => simp [heard_base]
  | pwrite => simp [heard_base]
  | utime => simp [heard_base, askCin_keeps getLong_keeps]
  | truncate => simp [heard_base]
  | _ => simp

theorem call_decimal {o : Op} {src : Source} (ho : nextOp s = o) (hsrc : operandSource s = some src)
    (h : baseOf s src = 10) : (command stale s).1 = (command stale (decimal s)).1 := by
  obtain ⟨hheard,hread⟩ := heard_decimal s
  have hop : nextOp (decimal s) = nextOp s := by rw [nextOp, hread, nextOp]
  rw [command_eq, command_eq, hheard, hread, hop, ho]
  rw [← heard_base s] at h
  rw [operandSource, ho] at hsrc
  cases o with
  | pread =>
    obtain rfl := Option.some.inj hsrc
    exact pread_decimal _ h
  | pwrite =>
    obtain rfl := Option.some.inj hsrc
    exact pwrite_decimal _ h
  | utime =>
    obtain rfl := Option.some.inj hsrc
    exact utime_decimal _ h
  | truncate =>
    obtain rfl := Option.some.inj hsrc
    exact truncate_decimal _ h
  | _ => exact nomatch hsrc

theorem manipulators_octal_or_decimal (s : Console) :
    ∀ m ∈ manipulators s, m.2 = 8 ∨ m.2 = 10 := by
  rw [manipulators]
  cases nextOp s with
  | chown =>
    rcases resetCin (ask (inBase 10 getUnsigned) (heard s)).2 with ⟨refused,u⟩
    cases refused <;> simp
  | _ => simp

theorem executes_octal_or_decimal (h : Executes stales s₀ ms s) :
    ∀ m ∈ ms, m.2 = 8 ∨ m.2 = 10 := by
  induction h with
  | start => simp
  | went before round ih =>
    exact List.forall_mem_append.mpr ⟨ih,manipulators_octal_or_decimal _⟩
  | error before round ih =>
    exact List.forall_mem_append.mpr ⟨ih,manipulators_octal_or_decimal _⟩

theorem base_ten_iff (h : Executes stales s₀ ms s) (h0 : ∀ src, baseOf s₀ src = 10) (src : Source) :
    baseOf s src = 10 ↔ last src ms ≠ some 8 := by
  rw [base_in_force h, h0]
  cases hl : last src ms with
  | none => simp
  | some b =>
    obtain ⟨m,hm,rfl⟩ := Option.map_eq_some_iff.mp hl
    have hmem := List.mem_filter.mp (List.mem_of_getLast? hm)
    rcases executes_octal_or_decimal h m hmem.1 with hb | hb
    · simp [hb]
    · simp [hb]

/-- After any commands, the offsets, the size and the times of the next one are
read as decimal numbers exactly if the last manipulator sent to their stream,
if any, was not `oct`. -/
theorem operands_decimal_iff (h0 : ∀ src, baseOf s₀ src = 10) (h : Executes stales s₀ ms s) :
    ReadsDecimal (stales s) s ↔ ∀ src ∈ operandSource s, last src ms ≠ some 8 := by
  have hbases : (∀ b ∈ operandBases s, b = 10) ↔ ∀ src ∈ operandSource s, last src ms ≠ some 8 := by
    rw [operandBases_iff]
    exact forall₂_congr (fun src _ => base_ten_iff h h0 src)
  constructor
  · intro hr
    exact hbases.mp hr.bases
  · intro hlast
    refine ⟨hbases.mpr hlast,?_⟩
    intro hsome
    obtain ⟨src,hsrc⟩ := Option.isSome_iff_exists.mp hsome
    exact call_decimal rfl hsrc ((base_ten_iff h h0 src).mpr (hlast src hsrc))

def still (_ : Console) (_ : ℕ) : ℤ := 0

def typedText : Text := "mkdir /d 755 truncate /f 10 ".toList

def madeDir : Console := (command (still (prompt typedText)) (prompt typedText)).2

theorem prompt_base (typed : Text) (src : Source) : baseOf (prompt typed) src = 10 := by
  cases src <;> rfl

theorem madeDir_executes : Executes still (prompt typedText) [(.keyboard,8)] madeDir :=
  Executes.went (a := some (.mkdir "/d".toList 0o755#32)) Executes.start (by decide +kernel)

def resetText : Text := "mkdir /d 755 chown /d 0 0 truncate /f 10 ".toList

def octSent : Console := (command (still (prompt resetText)) (prompt resetText)).2

def decSent : Console := (command (still octSent) octSent).2

theorem octSent_executes : Executes still (prompt resetText) [(.keyboard,8)] octSent :=
  Executes.went (a := some (.mkdir "/d".toList 0o755#32)) Executes.start (by decide +kernel)

theorem decSent_executes :
    Executes still (prompt resetText) [(.keyboard,8),(.keyboard,10),(.keyboard,10)] decSent :=
  Executes.went (a := some (.chown "/d".toList 0 0)) octSent_executes (by decide +kernel)

theorem operands_decimal_reset : ReadsDecimal (still decSent) decSent :=
  (operands_decimal_iff (prompt_base _) decSent_executes).mpr (by decide +kernel)

/-- The second command cuts the file to 8 bytes. -/
theorem operands_decimal_fails :
    ¬ ∀ (stales : Console → ℕ → ℤ) (s₀ s : Console) (ms : List (Source × ℕ)),
      (∀ src, baseOf s₀ src = 10) → Executes stales s₀ ms s → ReadsDecimal (stales s) s := by
  intro hall
  have hreads := hall still (prompt typedText) madeDir _ (prompt_base _) madeDir_executes
  have hcut : (command (still madeDir) madeDir).1 = .went (some (.truncate "/f".toList 8)) := by
    decide +kernel
  have hasked : (command (still madeDir) (decimal madeDir)).1 =
      .went (some (.truncate "/f".toList 10)) := by
    decide +kernel
  have hcall := hreads.call (by decide +kernel)
  rw [hcut, hasked] at hcall
  exact absurd hcall (by decide)

end Bbfs.Bases
