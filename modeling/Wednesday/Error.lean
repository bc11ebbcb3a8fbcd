import Wednesday.Lib.Bytes

/-!
The thread-local error trace of `error.c`.
-/

namespace Wednesday

open Lib

/-- The ways a call does not return: a failed assertion aborts the process, an
access outside a page or a division by zero is undefined, and a latch nobody
releases is waited for forever. `fuel` is a walk longer than its bound. -/
inductive Fault where
  | errorCodeZero
  | errorCountZero
  | latchReleaseRead
  | latchReleaseWrite
  | payloadSpace
  | walkParentLeaf
  | walkParentSpace
  | childZero
  | splitIndex
  | ringEmpty
  | hang
  | fuel
  deriving DecidableEq, Repr

def ENOENT : Int := 2
def ENOMEM : Int := 12
def EEXIST : Int := 17
def EINVAL : Int := 22

def maxErrors : Nat := 32

/-- The size of `error_frame_t.msg`. -/
def msgSize : Nat := 128

/-- `error_frame_t`. -/
structure ErrorFrame where
  file : String
  func : String
  line : Nat
  code : Int
  msg : Mem

/-- `error_list`, `error_count` and `error_code`. -/
structure ErrorState where
  list : Nat → ErrorFrame
  count : Nat
  code : Int

/-- Where a failure is reported: `__FILE__`, `__FUNCTION__` and `__LINE__`. -/
structure Site where
  file : String
  func : String
  line : Nat

/-- `error_push`; beyond `maxErrors` frames only the code is kept. -/
def errorPush (e : ErrorState) (site : Site) (code : Int) : Except Fault ErrorState :=
  if code = 0 then .error .errorCodeZero
  else if maxErrors ≤ e.count then .ok { e with code := code }
  else
    let frame : ErrorFrame :=
      { file := site.file, func := site.func, line := site.line, code := code,
        msg := (e.list e.count).msg.store 0 0 }
    .ok { list := Function.update e.list e.count frame, count := e.count + 1, code := code }

def errorGetCode (e : ErrorState) : Int := e.code

def errorTraceLength (e : ErrorState) : Nat := min e.count maxErrors

/-- `error_trace_nth`: the index of the frame, or null. -/
def errorTraceNth (e : ErrorState) (n : Nat) : Option Nat :=
  if e.count ≤ n ∨ maxErrors ≤ e.count then none else some n

def errorClear (e : ErrorState) : ErrorState := { e with code := 0, count := 0 }

/-- `strlen` of the text at `m`, looking at no more than the given number of bytes. -/
def strlen (m : Mem) : Nat → Nat
  | 0 => 0
  | fuel + 1 => if m 0 = 0 then 0 else strlen (m.drop 1) fuel + 1

/-- `vsnprintf`: the text cut to `n - 1` bytes and a terminator. -/
def vsnprintf (dst : Mem) (n : Nat) (text : Bytes) : Mem :=
  if n = 0 then dst
  else (dst.blit 0 (Mem.ofBytes text) (min text.length (n - 1))).store (min text.length (n - 1)) 0

/-- `error_append_message` on an already formatted text. The text goes to the
start of the buffer, not behind what is there. -/
def errorAppendMessage (e : ErrorState) (text : Bytes) : Except Fault ErrorState :=
  if e.count = 0 then .error .errorCountZero
  else
    match errorTraceNth e (e.count - 1) with
    | none => .ok e
    | some n =>
        let frame := e.list n
        let offset := strlen frame.msg msgSize
        if msgSize ≤ offset then .ok e
        else
          let msg := vsnprintf frame.msg (msgSize - offset) text
          .ok { e with list := Function.update e.list n { frame with msg := msg } }

/-- The bytes of a message. -/
def messageBytes (text : String) : Bytes := text.toUTF8.toList

/-- The push and the messages of the `failure` macro. -/
def reportFailure (e : ErrorState) (site : Site) (code : Int) (texts : List String) :
    Except Fault ErrorState := do
  let e ← errorPush e site code
  texts.foldlM (fun e text => errorAppendMessage e (messageBytes text)) e

theorem errorPush_ok (e : ErrorState) (site : Site) {code : Int} (hcode : code ≠ 0) :
    ∃ e', errorPush e site code = .ok e' ∧ e'.code = code ∧ e'.count ≠ 0 := by
  rw [errorPush, if_neg hcode]
  split
  · rename_i h
    refine ⟨_, rfl, rfl, ?_⟩
    simp only [maxErrors] at h
    simp only [ne_eq]
    omega
  · exact ⟨_, rfl, rfl, by simp⟩

theorem errorAppendMessage_ok {e : ErrorState} (text : Bytes) (hcount : e.count ≠ 0) :
    ∃ e', errorAppendMessage e text = .ok e' ∧ e'.code = e.code ∧ e'.count ≠ 0 := by
  rw [errorAppendMessage, if_neg hcount]
  split
  · exact ⟨_, rfl, rfl, hcount⟩
  · dsimp only
    split
    · exact ⟨_, rfl, rfl, hcount⟩
    · exact ⟨_, rfl, rfl, hcount⟩

/-- Reporting a failure leaves its code behind. -/
theorem reportFailure_ok (e : ErrorState) (site : Site) {code : Int} (texts : List String)
    (hcode : code ≠ 0) : ∃ e', reportFailure e site code texts = .ok e' ∧ e'.code = code := by
  obtain ⟨e₁, hpush, hcode₁, hcount⟩ := errorPush_ok e site hcode
  rw [reportFailure, hpush, ← hcode₁]
  change ∃ e', texts.foldlM _ e₁ = Except.ok e' ∧ _
  clear hpush hcode₁
  induction texts generalizing e₁ with
  | nil => exact ⟨e₁, rfl, rfl⟩
  | cons text texts ih =>
      obtain ⟨e₂, happend, hcode₂, hcount₂⟩ := errorAppendMessage_ok (messageBytes text) hcount
      obtain ⟨e', hrest, hcode'⟩ := ih e₂ hcount₂
      exact ⟨e', by rw [List.foldlM_cons, happend]; exact hrest, hcode'.trans hcode₂⟩

end Wednesday
