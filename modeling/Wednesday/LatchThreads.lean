import Wednesday.PagerThreads

/-!
`latch.c` for any number of threads. A step is one atomic operation of one
thread; a weak compare-exchange can fail although the word is the expected one.
A thread keeps the value it expects in a local variable, which is `0` on entry
and whatever the last operation read afterwards.
-/

namespace Wednesday

open Lib SharedPager

inductive LatchMode where
  | read
  | write
  deriving DecidableEq

/-- How a turn of an acquire loop ends. -/
inductive LatchTurn where
  | again (value : Int)
  | returns (acquired : Bool)
  deriving DecidableEq

/-- `atomic_compare_exchange_weak_explicit`: the word and the expected value
afterwards, and whether the words were exchanged. -/
def compareExchangeWeak (word expected desired : Int) (spurious : Bool) : Int × Int × Bool :=
  if word = expected ∧ spurious = false then (desired, expected, true) else (word, word, false)

/-- One turn of an acquire loop. With a value that is not the wanted one the
spinning loops load the word, and the others give up. -/
def latchTurn (wanted : Int → Bool) (desired : Int → Int) (spin : Bool) (word value : Int)
    (spurious : Bool) : Int × LatchTurn :=
  if wanted value then
    match compareExchangeWeak word value (desired value) spurious with
    | (word, _, true) => (word, .returns true)
    | (word, value, false) => (word, .again value)
  else if spin then (word, .again word)
  else (word, .returns false)

def latchAcquireRead : Int → Int → Bool → Int × LatchTurn :=
  latchTurn (0 ≤ ·) (fun value => Int.bmod (value + 1) (2 ^ 32)) true

def latchTryAcquireRead : Int → Int → Bool → Int × LatchTurn :=
  latchTurn (0 ≤ ·) (fun value => Int.bmod (value + 1) (2 ^ 32)) false

def latchAcquireWrite : Int → Int → Bool → Int × LatchTurn :=
  latchTurn (· = 0) (fun _ => -1) true

def latchTryAcquireWrite : Int → Int → Bool → Int × LatchTurn :=
  latchTurn (· = 0) (fun _ => -1) false

/-- The acquiring functions; the ones that do not spin are the tries. -/
def LatchMode.acquire : LatchMode → Bool → Int → Int → Bool → Int × LatchTurn
  | .read, true => latchAcquireRead
  | .read, false => latchTryAcquireRead
  | .write, true => latchAcquireWrite
  | .write, false => latchTryAcquireWrite

/-- The assertions of `latch_release_read` and `latch_release_write`. -/
def LatchMode.releaseAssert : LatchMode → Int → Bool
  | .read, word => 0 < word
  | .write, word => word = -1

/-- What the releasing functions leave in the word: a difference that wraps, and a
store that does not look. -/
def LatchMode.release : LatchMode → Int → Int
  | .read, word => dropWord word
  | .write, _ => 0

/-- Where a thread is in `latch.c`. -/
inductive LatchPoint where
  | outside
  | acquire (mode : LatchMode) (spin : Bool) (value : Int)
  | assert (mode : LatchMode)
  | release (mode : LatchMode)
  | aborted
  deriving DecidableEq

/-- A thread, with how often it holds each mode: once more from the return of an
acquire to the operation that releases it. -/
structure LatchThread where
  held : LatchMode → Nat
  point : LatchPoint

/-- The word after the next atomic operation of a thread, and the thread. -/
def LatchThread.step (th : LatchThread) (word : Int) (spurious : Bool) :
    Option (Int × LatchThread) :=
  match th.point with
  | .outside | .aborted => none
  | .acquire mode spin value =>
      match mode.acquire spin word value spurious with
      | (word, .again value) => some (word, ⟨th.held, .acquire mode spin value⟩)
      | (word, .returns true) =>
          some (word, ⟨Function.update th.held mode (th.held mode + 1), .outside⟩)
      | (word, .returns false) => some (word, ⟨th.held, .outside⟩)
  | .assert mode =>
      if mode.releaseAssert word then some (word, ⟨th.held, .release mode⟩)
      else some (word, ⟨th.held, .aborted⟩)
  | .release mode =>
      some (mode.release word, ⟨Function.update th.held mode (th.held mode - 1), .outside⟩)

structure LatchState (κ : Type) where
  word : Int
  thread : κ → LatchThread

inductive LatchEvent (κ : Type) where
  | acquire (t : κ) (mode : LatchMode) (spin : Bool)
  | release (t : κ) (mode : LatchMode)
  | step (t : κ) (spurious : Bool)

variable {κ : Type} [DecidableEq κ]

def LatchState.set (s : LatchState κ) (t : κ) (word : Int) (th : LatchThread) : LatchState κ :=
  ⟨word, Function.update s.thread t th⟩

/-- A thread enters a function or makes its next step. It releases only a mode it
holds; it may ask for one that it holds already. -/
inductive LatchStep : LatchState κ → LatchEvent κ → LatchState κ → Prop where
  | acquire {s : LatchState κ} {t : κ} {mode : LatchMode} {spin : Bool}
      (hout : (s.thread t).point = .outside) :
      LatchStep s (.acquire t mode spin)
        (s.set t s.word ⟨(s.thread t).held, .acquire mode spin 0⟩)
  | release {s : LatchState κ} {t : κ} {mode : LatchMode}
      (hout : (s.thread t).point = .outside) (hheld : (s.thread t).held mode ≠ 0) :
      LatchStep s (.release t mode) (s.set t s.word ⟨(s.thread t).held, .assert mode⟩)
  | step {s : LatchState κ} {t : κ} {spurious : Bool} {word : Int} {th : LatchThread}
      (h : (s.thread t).step s.word spurious = some (word, th)) :
      LatchStep s (.step t spurious) (s.set t word th)

/-- The step of an event, where the thread can make it. -/
def LatchState.next (s : LatchState κ) : LatchEvent κ → Option (LatchState κ)
  | .acquire t mode spin =>
      if (s.thread t).point = .outside then
        some (s.set t s.word ⟨(s.thread t).held, .acquire mode spin 0⟩)
      else none
  | .release t mode =>
      if (s.thread t).point = .outside ∧ (s.thread t).held mode ≠ 0 then
        some (s.set t s.word ⟨(s.thread t).held, .assert mode⟩)
      else none
  | .step t spurious => ((s.thread t).step s.word spurious).map fun x => s.set t x.1 x.2

/-- After `latch_init`, with no thread in the code. -/
def LatchState.init (κ : Type) : LatchState κ := ⟨0, fun _ => ⟨fun _ => 0, .outside⟩⟩

/-- How often the latch is held in a mode. -/
def LatchState.holds [Fintype κ] (s : LatchState κ) (mode : LatchMode) : Nat :=
  total (fun th => th.held mode) s.thread

/-- How many threads hold the latch in a mode. -/
def LatchState.holders [Fintype κ] (s : LatchState κ) (mode : LatchMode) : Nat :=
  (Finset.univ.filter fun t => (s.thread t).held mode ≠ 0).card

/-- A step after which the word can still count the read holds. -/
def FewHoldsStep [Fintype κ] (s : LatchState κ) (e : LatchEvent κ) (s' : LatchState κ) : Prop :=
  LatchStep s e s' ∧ s'.holds .read < 2 ^ 31

/-- The state after these events, where the threads can make them and the word can
count the read holds all the way. -/
def LatchState.play [Fintype κ] (s : LatchState κ) (es : List (LatchEvent κ)) :
    Option (LatchState κ) :=
  es.foldlM (fun s e => (s.next e).filter fun s' => s'.holds .read < 2 ^ 31) s

/-! ### Turns of the loops -/

section Turn

variable {wanted : Int → Bool} {desired : Int → Int} {spin spurious : Bool} {word value : Int}

/-- A turn either leaves the word alone, and goes on with its value if it goes on, or
takes the latch: then the word was wanted, and has the desired value now. -/
theorem latchTurn_cases (wanted : Int → Bool) (desired : Int → Int) (spin : Bool)
    (word value : Int) (spurious : Bool) :
    latchTurn wanted desired spin word value spurious = (word, .again word) ∨
      latchTurn wanted desired spin word value spurious = (word, .returns false) ∨
      (wanted word = true ∧
        latchTurn wanted desired spin word value spurious = (desired word, .returns true)) := by
  by_cases hw : wanted value = true
  · by_cases hx : word = value ∧ spurious = false
    · obtain ⟨rfl, rfl⟩ := hx
      exact Or.inr (Or.inr ⟨hw, by simp [latchTurn, compareExchangeWeak, hw]⟩)
    · exact Or.inl (by simp [latchTurn, compareExchangeWeak, hw, hx])
  · cases spin with
    | true => exact Or.inl (by simp [latchTurn, hw])
    | false => exact Or.inr (Or.inl (by simp [latchTurn, hw]))

end Turn

namespace LatchMode

/-- A turn that returns true is the exchange of `latch_acquire` as the threads of
the pager make it; no other turn writes the word. -/
theorem acquire_cases (mode : LatchMode) (spin : Bool) (word value : Int) (spurious : Bool) :
    mode.acquire spin word value spurious = (word, .again word) ∨
      mode.acquire spin word value spurious = (word, .returns false) ∨
      ∃ word', acquireWord word (mode = .write) = some word' ∧
        mode.acquire spin word value spurious = (word', .returns true) := by
  cases mode with
  | read =>
      have key := latchTurn_cases (0 ≤ ·) (fun value => Int.bmod (value + 1) (2 ^ 32)) spin word
        value spurious
      have hacquire : LatchMode.acquire .read spin word value spurious =
          latchTurn (0 ≤ ·) (fun value => Int.bmod (value + 1) (2 ^ 32)) spin word value
            spurious := by
        cases spin <;> rfl
      rw [hacquire]
      rcases key with h | h | ⟨hw, h⟩
      · exact Or.inl h
      · exact Or.inr (Or.inl h)
      · exact Or.inr (Or.inr ⟨_, by simpa [acquireWord, readWord] using hw, h⟩)
  | write =>
      have key := latchTurn_cases (· = 0) (fun _ => -1) spin word value spurious
      have hacquire : LatchMode.acquire .write spin word value spurious =
          latchTurn (· = 0) (fun _ => -1) spin word value spurious := by
        cases spin <;> rfl
      rw [hacquire]
      rcases key with h | h | ⟨hw, h⟩
      · exact Or.inl h
      · exact Or.inr (Or.inl h)
      · exact Or.inr (Or.inr ⟨_, by simpa [acquireWord, writeWord] using hw, h⟩)

end LatchMode

/-! ### The count of the holds -/

/-- What is true of a thread at its point. -/
def LatchThread.Ok (th : LatchThread) : Prop :=
  match th.point with
  | .outside | .acquire _ _ _ => True
  | .assert mode | .release mode => th.held mode ≠ 0
  | .aborted => False

variable [Fintype κ]

namespace LatchState

structure Inv (s : LatchState κ) : Prop where
  counted : Counted s.word (s.holds .read) (s.holds .write)
  few : s.holds .read < 2 ^ 31
  thread : ∀ t, (s.thread t).Ok

variable {s : LatchState κ} {t : κ} {word : Int} {th : LatchThread} {mode : LatchMode}

/-- Only the part of the thread that moves is replaced. -/
theorem exists_holds_set (s : LatchState κ) (t : κ) (mode : LatchMode) :
    ∃ rest, s.holds mode = (s.thread t).held mode + rest ∧
      ∀ word th, (s.set t word th).holds mode = th.held mode + rest := by
  obtain ⟨rest, hold, hnew⟩ :=
    exists_total_update (fun th : LatchThread => th.held mode) s.thread t
  exact ⟨rest, hold, fun _ th => hnew th⟩

theorem holds_set_of_held (hheld : th.held mode = (s.thread t).held mode) :
    (s.set t word th).holds mode = s.holds mode := by
  obtain ⟨rest, hold, hnew⟩ := exists_holds_set s t mode
  rw [hnew, hold, hheld]

/-- A thread holds a mode no more often than all threads together. -/
theorem held_le_holds (s : LatchState κ) (t : κ) (mode : LatchMode) :
    (s.thread t).held mode ≤ s.holds mode := by
  obtain ⟨rest, hold, -⟩ := exists_holds_set s t mode
  omega

omit [DecidableEq κ] in
theorem holders_eq_holds (h : ∀ t, (s.thread t).held mode ≤ 1) :
    s.holders mode = s.holds mode := by
  rw [holders, holds, total, Finset.card_filter]
  refine Finset.sum_congr rfl fun t _ => ?_
  have hle := h t
  split <;> omega

theorem Inv.set (hs : s.Inv)
    (hcounted : Counted word ((s.set t word th).holds .read) ((s.set t word th).holds .write))
    (hfew : (s.set t word th).holds .read < 2 ^ 31) (hok : th.Ok) :
    (s.set t word th).Inv where
  counted := hcounted
  few := hfew
  thread u := by
    change (Function.update s.thread t th u).Ok
    by_cases hu : u = t
    · subst hu
      rwa [Function.update_self]
    · rw [Function.update_of_ne hu]
      exact hs.thread u

/-- A thread moves, and the word and what it holds stay. -/
theorem Inv.stay (hs : s.Inv) (hheld : th.held = (s.thread t).held) (hok : th.Ok) :
    (s.set t s.word th).Inv := by
  have hholds : ∀ mode, (s.set t s.word th).holds mode = s.holds mode := fun mode =>
    holds_set_of_held (congrFun hheld mode)
  refine hs.set ?_ ?_ hok
  · rw [hholds, hholds]
    exact hs.counted
  · rw [hholds]
    exact hs.few

/-- The exchange that ends an acquire. -/
theorem Inv.acquired (hs : s.Inv) (hword : acquireWord s.word (mode = .write) = some word)
    (th : LatchThread)
    (hth : th = ⟨Function.update (s.thread t).held mode ((s.thread t).held mode + 1), .outside⟩)
    (hfew : (s.set t word th).holds .read < 2 ^ 31) : (s.set t word th).Inv := by
  refine hs.set ?_ hfew (by rw [hth]; trivial)
  obtain ⟨readers, hr, hr'⟩ := exists_holds_set s t .read
  obtain ⟨writers, hw, hw'⟩ := exists_holds_set s t .write
  have hcounted := hs.counted
  rw [hr', hw', hth]
  rw [hr, hw] at hcounted
  cases mode with
  | read =>
      simp only [acquireWord, readWord, reduceCtorEq, decide_false, Bool.false_eq_true, if_false,
        Option.ite_none_right_eq_some] at hword
      obtain ⟨hle, hword⟩ := hword
      cases hword
      have hnext := hcounted.acquireRead hle
      rwa [Nat.add_right_comm] at hnext
  | write =>
      simp only [acquireWord, writeWord, decide_true, if_true, Option.ite_none_right_eq_some]
        at hword
      obtain ⟨hfree, hword⟩ := hword
      cases hword
      have hnext := hcounted.acquireWrite hfree
      rwa [Nat.add_right_comm _ writers] at hnext

/-- The operation that ends a release, and the assertion before it. -/
theorem Inv.released (hs : s.Inv) (hheld : (s.thread t).held mode ≠ 0) :
    mode.releaseAssert s.word = true ∧
      (s.set t (mode.release s.word) ⟨Function.update (s.thread t).held mode
        ((s.thread t).held mode - 1), .outside⟩).Inv := by
  obtain ⟨readers, hr, hr'⟩ := exists_holds_set s t .read
  obtain ⟨writers, hw, hw'⟩ := exists_holds_set s t .write
  have hcounted := hs.counted
  have hfew := hs.few
  obtain ⟨n, hn⟩ := Nat.exists_eq_succ_of_ne_zero hheld
  cases mode with
  | read =>
      have hjam : s.word ≠ jammed := by
        intro hjam
        rcases hcounted.word_cases (hcounted.shared_of_held (by omega)) with ⟨hword, -⟩ | ⟨-, hmany⟩
        · rw [jammed] at hjam
          omega
        · omega
      refine ⟨decide_eq_true (hcounted.word_pos (by omega) hjam), hs.set ?_ ?_ trivial⟩
      · rw [hr', hw']
        rw [hr, hw, hn, Nat.succ_eq_add_one, Nat.add_right_comm] at hcounted
        simpa [hn, LatchMode.release, dropWord] using hcounted.releaseRead
      · rw [hr', hn]
        simp only [Function.update_self, Nat.succ_eq_add_one, Nat.add_sub_cancel]
        omega
  | write =>
      rw [hr, hw, hn, Nat.succ_eq_add_one, Nat.add_right_comm n] at hcounted
      obtain ⟨hword, hnext⟩ := hcounted.releaseWrite
      refine ⟨decide_eq_true hword, hs.set ?_ ?_ trivial⟩
      · rw [hr', hw']
        simpa [hn, LatchMode.release] using hnext
      · rw [hr']
        rw [hr] at hfew
        simpa using hfew

theorem Inv.step {s s' : LatchState κ} {e : LatchEvent κ} (hs : s.Inv) (h : FewHoldsStep s e s') :
    s'.Inv := by
  obtain ⟨h, hfew⟩ := h
  cases h with
  | acquire hout => exact hs.stay rfl trivial
  | release hout hheld => exact hs.stay rfl hheld
  | @step t spurious word th h =>
      have hok := hs.thread t
      rw [LatchThread.Ok] at hok
      rw [LatchThread.step] at h
      split at h
      · cases h
      · cases h
      · rename_i mode spin value hpoint
        rcases mode.acquire_cases spin s.word value spurious with heq | heq | ⟨word', hword, heq⟩
        · rw [heq] at h
          cases h
          exact hs.stay rfl trivial
        · rw [heq] at h
          cases h
          exact hs.stay rfl trivial
        · rw [heq] at h
          cases h
          exact hs.acquired hword _ rfl hfew
      · rename_i mode hpoint
        rw [hpoint] at hok
        rw [if_pos (hs.released hok).1] at h
        cases h
        exact hs.stay rfl hok
      · rename_i mode hpoint
        rw [hpoint] at hok
        cases h
        exact (hs.released hok).2

omit [DecidableEq κ] in
theorem inv_init : (LatchState.init κ).Inv where
  counted := by
    have hzero : ∀ mode, (LatchState.init κ).holds mode = 0 := by
      intro mode
      simp [holds, total, LatchState.init]
    rw [hzero, hzero]
    exact Counted.free
  few := by simp [holds, total, LatchState.init]
  thread _ := trivial

/-- At most one thread writes, and it holds the latch once. -/
theorem Inv.holders_write (hs : s.Inv) : s.holders .write = s.holds .write := by
  refine holders_eq_holds fun t => (held_le_holds s t .write).trans ?_
  by_cases hw : s.holds .write = 0
  · omega
  · exact (hs.counted.alone hw).1.le

omit [DecidableEq κ] in
theorem holders_eq_zero (h : s.holds mode = 0) : s.holders mode = 0 := by
  have hzero : ∀ t, (s.thread t).held mode = 0 := fun t =>
    Finset.sum_eq_zero_iff.mp h t (Finset.mem_univ t)
  rw [holders_eq_holds fun t => (hzero t).le.trans (Nat.zero_le 1), h]

end LatchState

/-- The word of the latch tells who holds it: it counts the read holds, which are the
reading threads as long as none reads twice. No assertion fails. -/
theorem latch_word_counts_holds {es : List (LatchEvent κ)} {s : LatchState κ}
    (hrun : Run FewHoldsStep (LatchState.init κ) es s) :
    (s.word = -1 ↔ s.holders .write = 1 ∧ s.holders .read = 0) ∧
      (s.word ≠ -1 → s.word = s.holds .read ∧ s.holders .write = 0 ∧
        ((∀ t, (s.thread t).held .read ≤ 1) → s.word = s.holders .read)) ∧
      ∀ t, (s.thread t).point ≠ .aborted := by
  have hs : s.Inv := hrun.invariant (fun _ _ _ hs h => hs.step h) LatchState.inv_init
  have hfew := hs.few
  have hshared : s.holds .write = 0 → s.word = s.holds .read := fun hw =>
    (hs.counted.word_cases hw).elim And.left fun h => by omega
  rw [hs.holders_write]
  refine ⟨⟨fun hword => ?_, fun h => ?_⟩, fun hword => ?_, fun t ht => ?_⟩
  · have hw : s.holds .write ≠ 0 := by
      intro hw
      have := hshared hw
      omega
    exact ⟨(hs.counted.alone hw).1, LatchState.holders_eq_zero (hs.counted.alone hw).2.1⟩
  · exact (hs.counted.alone (by omega)).2.2
  · have hw : s.holds .write = 0 := by
      by_contra hw
      exact hword (hs.counted.alone hw).2.2
    exact ⟨hshared hw, hw, fun hle => by rw [LatchState.holders_eq_holds hle, hshared hw]⟩
  · have hok := hs.thread t
    rw [LatchThread.Ok, ht] at hok
    exact hok

/-! ### Runs that are played -/

omit [Fintype κ] in
theorem latchStep_of_next {s s' : LatchState κ} {e : LatchEvent κ} (h : s.next e = some s') :
    LatchStep s e s' := by
  cases e with
  | acquire t mode spin =>
      obtain ⟨hout, h⟩ := Option.ite_none_right_eq_some.mp h
      cases h
      exact .acquire hout
  | release t mode =>
      obtain ⟨⟨hout, hheld⟩, h⟩ := Option.ite_none_right_eq_some.mp h
      cases h
      exact .release hout hheld
  | step t spurious =>
      obtain ⟨⟨word, th⟩, hstep, h⟩ := Option.map_eq_some_iff.mp h
      cases h
      exact .step hstep

theorem latchRun_of_play {es : List (LatchEvent κ)} {s s' : LatchState κ}
    (h : s.play es = some s') : Run FewHoldsStep s es s' := by
  rw [← List.map_id es]
  refine .of_foldlM (fun s e s' hnext => ?_) h
  obtain ⟨hnext, hfew⟩ := Option.filter_eq_some_iff.mp hnext
  exact ⟨latchStep_of_next hnext, of_decide_eq_true hfew⟩

/-- The first of three threads reads twice. The exchange of the second fails
spuriously, and then it reads too. The third wants to write, and comes in when the
others have released. -/
theorem latch_word_counts_holds_once :
    ∃ es es' s s', Run FewHoldsStep (LatchState.init (Fin 3)) es s ∧ Run FewHoldsStep s es' s' ∧
      s.word = 3 ∧ s.holds .read = 3 ∧ s.holders .read = 2 ∧
      s'.holders .write = 1 ∧ s'.holders .read = 0 := by
  let es : List (LatchEvent (Fin 3)) := [.acquire 0 .read true, .step 0 false,
    .acquire 1 .read false, .step 1 true, .step 1 false, .acquire 2 .write true, .step 2 false,
    .acquire 0 .read true, .step 0 false, .step 0 false]
  let es' : List (LatchEvent (Fin 3)) := [.release 0 .read, .step 0 false, .step 0 false,
    .release 1 .read, .step 1 false, .release 0 .read, .step 0 false, .step 0 false,
    .step 1 false, .step 2 false, .step 2 false, .acquire 1 .read false, .step 1 true]
  have hplay : ((LatchState.init (Fin 3)).play es).any (fun s =>
      s.word = 3 ∧ s.holders .read = 2 ∧ (s.play es').any fun s' => s'.word = -1) = true := by
    decide +kernel
  obtain ⟨s, hs, hfirst⟩ := (Option.any_eq_true ..).mp hplay
  obtain ⟨hword, hreaders, hrest⟩ := of_decide_eq_true hfirst
  obtain ⟨s', hs', hlast⟩ := (Option.any_eq_true ..).mp hrest
  have hrun := latchRun_of_play hs
  have hrun' := latchRun_of_play hs'
  obtain ⟨-, hshared, -⟩ := latch_word_counts_holds hrun
  have hholds : s.word = s.holds .read := (hshared (by rw [hword]; decide)).1
  obtain ⟨hwrite, -⟩ := latch_word_counts_holds (hrun.append hrun')
  obtain ⟨hwriter, hgone⟩ := hwrite.mp (of_decide_eq_true hlast)
  exact ⟨es, es', s, s', hrun, hrun', hword, by omega, hreaders, hwriter, hgone⟩

/-- One of two threads reads twice. -/
theorem reader_counts_twice :
    ∃ es s, Run LatchStep (LatchState.init Bool) es s ∧ s.word ≠ -1 ∧
      s.word ≠ s.holders .read := by
  have hplay : ((LatchState.init Bool).play [.acquire true .read true, .step true false,
      .acquire true .read true, .step true false, .step true false]).any (fun s =>
        s.word ≠ -1 ∧ s.word ≠ s.holders .read) = true := by
    decide +kernel
  obtain ⟨s, hs, hword⟩ := (Option.any_eq_true ..).mp hplay
  have hrun := (latchRun_of_play hs).mono fun _ _ _ h => h.1
  exact ⟨_, s, hrun, of_decide_eq_true hword⟩

end Wednesday
