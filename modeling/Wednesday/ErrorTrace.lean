import Wednesday.Error
import Wednesday.Lib.Runs

/-!
Runs of the error trace. The frames, their number and the code are those of the
pushes since the last clear; `error_trace_nth` gives no frame of a full trace.
-/

namespace Wednesday

open Lib

/-- The calls of `error.c` that change the state of a thread. -/
inductive ErrorEvent where
  | push (site : Site) (code : Int)
  | append (text : Bytes)
  | clear

/-- A call that does not abort. -/
inductive ErrorStep : ErrorState → ErrorEvent → ErrorState → Prop where
  | push {e e' : ErrorState} {site : Site} {code : Int} (hrun : errorPush e site code = .ok e') :
      ErrorStep e (.push site code) e'
  | append {e e' : ErrorState} {text : Bytes} (hrun : errorAppendMessage e text = .ok e') :
      ErrorStep e (.append text) e'
  | clear (e : ErrorState) : ErrorStep e .clear (errorClear e)

/-- The state of a new thread; its frames hold anything. -/
def errorStart (list : Nat → ErrorFrame) : ErrorState := ⟨list, 0, 0⟩

/-- A push with the code it reports. -/
abbrev Pushed := Site × Int

/-- The pushes after one more event. -/
def pushedAfter (ps : List Pushed) : ErrorEvent → List Pushed
  | .push site code => ps ++ [(site, code)]
  | .append _ => ps
  | .clear => []

/-- The pushes since the last clear. -/
def pushedSince (es : List ErrorEvent) : List Pushed := es.foldl pushedAfter []

/-- The frame carries the file, the function, the line and the code of the push. -/
structure FrameOf (frame : ErrorFrame) (p : Pushed) : Prop where
  file : frame.file = p.1.file
  func : frame.func = p.1.func
  line : frame.line = p.1.line
  code : frame.code = p.2

/-- The trace reports the pushes: their number up to the length of the array, the
frame of each, no other frame, and the code of the last. -/
structure TraceReports (e : ErrorState) (ps : List Pushed) : Prop where
  length : errorTraceLength e = min ps.length maxErrors
  frames : ∀ n, n < errorTraceLength e →
    ∃ i p, errorTraceNth e n = some i ∧ ps[n]? = some p ∧ FrameOf (e.list i) p
  others : ∀ n, errorTraceLength e ≤ n → errorTraceNth e n = none
  code : errorGetCode e = (ps.getLast?.map Prod.snd).getD 0

/-- What the state keeps of the pushes. -/
structure Recorded (e : ErrorState) (ps : List Pushed) : Prop where
  count : e.count = min ps.length maxErrors
  frames : ∀ n p, n < maxErrors → ps[n]? = some p → FrameOf (e.list n) p
  code : e.code = (ps.getLast?.map Prod.snd).getD 0

section

variable {e e' : ErrorState} {ps : List Pushed} {site : Site} {code : Int}
  {text : Bytes} {ev : ErrorEvent}

theorem recorded_errorStart (list : Nat → ErrorFrame) : Recorded (errorStart list) [] := by
  refine ⟨rfl, fun n p _ hp => ?_, rfl⟩
  cases hp

theorem Recorded.push (h : Recorded e ps) (hrun : errorPush e site code = .ok e') :
    Recorded e' (ps ++ [(site, code)]) := by
  have hcount := h.count
  rw [errorPush] at hrun
  split at hrun
  · cases hrun
  split at hrun <;> rename_i hfull
  · obtain rfl := Except.ok.inj hrun
    refine ⟨?_, fun n p hn hp => ?_, ?_⟩
    · simp only [List.length_append, List.length_singleton]
      omega
    · rw [List.getElem?_append_left (by omega)] at hp
      exact h.frames n p hn hp
    · simp
  · obtain rfl := Except.ok.inj hrun
    have hlength : e.count = ps.length := by omega
    refine ⟨?_, fun n p hn hp => ?_, ?_⟩
    · simp only [List.length_append, List.length_singleton]
      omega
    · rcases Nat.lt_or_ge n ps.length with hold | hnew
      · rw [List.getElem?_append_left hold] at hp
        simp only [Function.update_of_ne (show n ≠ e.count by omega)]
        exact h.frames n p hn hp
      · rw [List.getElem?_append_right hnew, List.getElem?_singleton] at hp
        split at hp
        · obtain rfl := Option.some.inj hp
          obtain rfl : n = e.count := by omega
          simp only [Function.update_self]
          exact ⟨rfl, rfl, rfl, rfl⟩
        · cases hp
    · simp

/-- An append changes the message of a frame only. -/
theorem errorAppendMessage_fields (hrun : errorAppendMessage e text = .ok e') :
    e'.count = e.count ∧ e'.code = e.code ∧
      ∀ n p, FrameOf (e.list n) p → FrameOf (e'.list n) p := by
  rw [errorAppendMessage] at hrun
  split at hrun
  · cases hrun
  split at hrun
  · obtain rfl := Except.ok.inj hrun
    exact ⟨rfl, rfl, fun _ _ h => h⟩
  · rename_i i _
    dsimp only at hrun
    split at hrun
    · obtain rfl := Except.ok.inj hrun
      exact ⟨rfl, rfl, fun _ _ h => h⟩
    · obtain rfl := Except.ok.inj hrun
      refine ⟨rfl, rfl, fun n p h => ?_⟩
      rcases eq_or_ne n i with rfl | hne
      · simp only [Function.update_self]
        exact ⟨h.file, h.func, h.line, h.code⟩
      · simp only [Function.update_of_ne hne]
        exact h

theorem Recorded.step (h : Recorded e ps) (hstep : ErrorStep e ev e') :
    Recorded e' (pushedAfter ps ev) := by
  cases hstep with
  | push hrun => exact h.push hrun
  | append hrun =>
      obtain ⟨hcount, hcode, hframes⟩ := errorAppendMessage_fields hrun
      exact ⟨hcount.trans h.count, fun n p hn hp => hframes n p (h.frames n p hn hp),
        hcode.trans h.code⟩
  | clear => exact ⟨rfl, fun n p _ hp => (by cases hp), rfl⟩

theorem Recorded.run {es : List ErrorEvent} (h : Recorded e ps) (hrun : Run ErrorStep e es e') :
    Recorded e' (es.foldl pushedAfter ps) := by
  induction hrun generalizing ps with
  | nil => exact h
  | cons head _ ih => exact ih (h.step head)

/-- What is kept is reported unless the array is full. -/
theorem Recorded.reports_iff (h : Recorded e ps) : TraceReports e ps ↔ ps.length < maxErrors := by
  have hcount := h.count
  have hlength : errorTraceLength e = min ps.length maxErrors := by
    rw [errorTraceLength]
    omega
  constructor
  · intro hreports
    by_contra hfull
    obtain ⟨i, p, hnth, -⟩ :=
      hreports.frames 0 (by rw [hlength]; simp only [maxErrors] at hfull ⊢; omega)
    rw [errorTraceNth, if_pos (Or.inr (by omega))] at hnth
    cases hnth
  · intro hroom
    refine ⟨hlength, fun n hn => ?_, fun n hn => ?_, h.code⟩
    · have hlt : n < ps.length := by omega
      refine ⟨n, ps[n], ?_, List.getElem?_eq_getElem hlt, ?_⟩
      · rw [errorTraceNth, if_neg (by omega)]
      · exact h.frames n _ (by omega) (List.getElem?_eq_getElem hlt)
    · rw [errorTraceNth, if_pos (Or.inl (by omega))]

/-- At the end of every run the trace reports the pushes since the last clear
exactly if they do not fill the array. -/
theorem error_trace_reports {list : Nat → ErrorFrame} {es : List ErrorEvent}
    (hrun : Run ErrorStep (errorStart list) es e) :
    TraceReports e (pushedSince es) ↔ (pushedSince es).length < maxErrors :=
  ((recorded_errorStart list).run hrun).reports_iff

/-- Any pushes can be made one after the other. -/
theorem exists_pushes (e : ErrorState) (ps : List Pushed) (hcode : ∀ p ∈ ps, p.2 ≠ 0) :
    ∃ e', Run ErrorStep e (ps.map fun p => .push p.1 p.2) e' := by
  induction ps generalizing e with
  | nil => exact ⟨e, .nil e⟩
  | cons p ps ih =>
      obtain ⟨e₁, hpush, -⟩ := errorPush_ok e p.1 (hcode p (List.mem_cons_self ..))
      obtain ⟨e', hrun⟩ := ih e₁ fun q hq => hcode q (List.mem_cons_of_mem _ hq)
      exact ⟨e', .cons (.push hpush) hrun⟩

end

theorem error_trace_reports_once : ∃ e es,
    Run ErrorStep (errorStart fun _ => ⟨"", "", 0, 0, fun _ => 0⟩) es e ∧
    TraceReports e (pushedSince es) := by
  obtain ⟨e, hrun⟩ := exists_pushes (errorStart fun _ => ⟨"", "", 0, 0, fun _ => 0⟩)
    [(⟨"src/pager.c", "pager_fix", 372⟩, EINVAL), (⟨"src/btree.c", "btree_insert", 393⟩, EINVAL)]
      (by decide)
  exact ⟨e, _, hrun, (error_trace_reports hrun).mpr (by decide)⟩

/-- The pushes of a recursion as deep as the array is long. -/
def deepPushes : List Pushed := List.replicate maxErrors
    (⟨"src/btree.c", "btree_insert_walk", 385⟩, EEXIST)

/-- A full trace has a length and no frames. -/
theorem full_trace_is_empty : ¬ ∀ (list : Nat → ErrorFrame) (es : List ErrorEvent) (e : ErrorState),
    Run ErrorStep (errorStart list) es e → TraceReports e (pushedSince es) := by
  intro h
  obtain ⟨e, hrun⟩ := exists_pushes (errorStart fun _ => ⟨"", "", 0, 0, fun _ => 0⟩)
      deepPushes (by decide)
  have hrecorded := (recorded_errorStart fun _ => ⟨"", "", 0, 0, fun _ => 0⟩).run hrun
  have hlt := hrecorded.reports_iff.mp (h _ _ e hrun)
  exact absurd hlt (by decide)

end Wednesday
