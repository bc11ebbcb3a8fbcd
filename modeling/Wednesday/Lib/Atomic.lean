import Mathlib.Data.List.ReduceOption
import Mathlib.Logic.Function.Basic
import Wednesday.Lib.Runs

/-!
Atomic objects. A call of a client takes effect in one step between its begin and its
reply. A system is linearizable if whatever its clients see is what they see of an
atomic object, which is shown step by step.
-/

namespace Wednesday.Lib

/-- Where a client is: in no call, in one that had no effect yet, or in one that had. -/
inductive Phase (ι ρ : Type) where
  | idle
  | called (call : ι)
  | done (call : ι) (reply : ρ)

/-- What a client sees. -/
inductive CallEvent (κ ι ρ : Type) where
  | calls (c : κ) (call : ι)
  | replies (c : κ) (call : ι) (reply : ρ)

def CallEvent.client {κ ι ρ : Type} : CallEvent κ ι ρ → κ
  | .calls c _ => c
  | .replies c _ _ => c

/-- The value of an object, and where its clients are. -/
structure AtomicState (κ σ ι ρ : Type) where
  value : σ
  phase : κ → Phase ι ρ

variable {κ σ ι ρ τ ε : Type}

/-- The object before the first call. -/
def AtomicState.fresh (κ ι ρ : Type) (value : σ) : AtomicState κ σ ι ρ := ⟨value, fun _ => .idle⟩

section

variable [DecidableEq κ]

/-- One client has got to a phase. -/
def AtomicState.set (a : AtomicState κ σ ι ρ) (c : κ) (phase : Phase ι ρ) : AtomicState κ σ ι ρ :=
  { a with phase := Function.update a.phase c phase }

@[simp] theorem AtomicState.value_set (a : AtomicState κ σ ι ρ) (c : κ) (phase : Phase ι ρ) :
    (a.set c phase).value = a.value := rfl

@[simp] theorem AtomicState.phase_set_self (a : AtomicState κ σ ι ρ) (c : κ) (phase : Phase ι ρ) :
    (a.set c phase).phase c = phase := Function.update_self ..

theorem AtomicState.phase_set_ne (a : AtomicState κ σ ι ρ) {c d : κ} (hne : d ≠ c)
    (phase : Phase ι ρ) :
    (a.set c phase).phase d = a.phase d := Function.update_of_ne hne ..

/-- The call of one client has had its effect. -/
def AtomicState.effect (a : AtomicState κ σ ι ρ) (c : κ) (call : ι) (result : ρ × σ) :
    AtomicState κ σ ι ρ :=
  ⟨result.2, Function.update a.phase c (.done call result.1)⟩

@[simp] theorem AtomicState.value_effect (a : AtomicState κ σ ι ρ) (c : κ)
  (call : ι) (result : ρ × σ) :
    (a.effect c call result).value = result.2 := rfl

@[simp] theorem AtomicState.phase_effect_self (a : AtomicState κ σ ι ρ) (c : κ)
  (call : ι) (result : ρ × σ) :
    (a.effect c call result).phase c = .done call result.1 := Function.update_self ..

theorem AtomicState.phase_effect_ne (a : AtomicState κ σ ι ρ) {c d : κ} (hne : d ≠ c)
    (call : ι) (result : ρ × σ) :
    (a.effect c call result).phase d = a.phase d := Function.update_of_ne hne ..

/-- A step of the object `apply`. A step in which a call has its effect is not seen. -/
inductive AtomicStep (apply : σ → ι → ρ × σ) :
    AtomicState κ σ ι ρ → Option (CallEvent κ ι ρ) → AtomicState κ σ ι ρ → Prop where
  | calls {a : AtomicState κ σ ι ρ} {c : κ} (hidle : a.phase c = .idle) (call : ι) :
      AtomicStep apply a (some (.calls c call)) (a.set c (.called call))
  | effect {a : AtomicState κ σ ι ρ} {c : κ} {call : ι} (hcalled : a.phase c = .called call) :
      AtomicStep apply a none (a.effect c call (apply a.value call))
  | replies {a : AtomicState κ σ ι ρ} {c : κ} {call : ι} {reply : ρ}
      (hdone : a.phase c = .done call reply) :
      AtomicStep apply a (some (.replies c call reply)) (a.set c .idle)

/-- A run of the object in which this is seen. -/
def AtomicRun (apply : σ → ι → ρ × σ) (a : AtomicState κ σ ι ρ) (seen : List (CallEvent κ ι ρ))
    (b : AtomicState κ σ ι ρ) : Prop :=
  ∃ steps, Run (AtomicStep apply) a steps b ∧ steps.reduceOption = seen

variable {apply : σ → ι → ρ × σ} {a b o : AtomicState κ σ ι ρ} {seen seen' : List (CallEvent κ ι ρ)}
  {c d : κ} {call : ι}
  {reply : ρ}

namespace AtomicRun

theorem nil (a : AtomicState κ σ ι ρ) : AtomicRun apply a [] a := ⟨[], .nil a, rfl⟩

theorem append (h : AtomicRun apply a seen b) (h' : AtomicRun apply b seen' o) :
    AtomicRun apply a (seen ++ seen') o := by
  obtain ⟨steps, hrun, rfl⟩ := h
  obtain ⟨steps', hrun', rfl⟩ := h'
  exact ⟨steps ++ steps', hrun.append hrun', List.reduceOption_append ..⟩

theorem of_step {e : Option (CallEvent κ ι ρ)} (h : AtomicStep apply a e b) :
    AtomicRun apply a e.toList b := by
  refine ⟨[e], .cons h (.nil b), ?_⟩
  cases e <;> rfl

/-- Where every step of a system is seen as steps of the object are, its runs are. -/
theorem of_run {Step : τ → ε → τ → Prop} {see : ε → Option (CallEvent κ ι ρ)}
    {I : List ε → τ → AtomicState κ σ ι ρ → Prop} {s t : τ} {es : List ε} (hrun : Run Step s es t)
    (hstep : ∀ pre s e t a, pre ++ [e] <+: es → I pre s a → Step s e t →
      ∃ b, AtomicRun apply a (see e).toList b ∧ I (pre ++ [e]) t b)
    (hs : I [] s a) : ∃ b, AtomicRun apply a (es.filterMap see) b ∧ I es t b := by
  have hafter : ∀ pre s t es' a, pre ++ es' = es → I pre s a → Run Step s es' t →
      ∃ b, AtomicRun apply a (es'.filterMap see) b ∧ I es t b := by
    intro pre s t es' a heq hI hrun
    induction hrun generalizing pre a with
    | nil => exact ⟨a, .nil a, by rwa [← heq, List.append_nil]⟩
    | @cons s u t e es' head _ ih =>
        have heq' : (pre ++ [e]) ++ es' = es := by
          rw [← heq, List.append_assoc, List.singleton_append]
        obtain ⟨b, hfirst, hI'⟩ := hstep pre s e u a ⟨es', heq'⟩ hI head
        obtain ⟨o, hrest, ho⟩ := ih (pre ++ [e]) b heq' hI'
        refine ⟨o, ?_, ho⟩
        rw [show (e :: es').filterMap see = (see e).toList ++ es'.filterMap see by
          rw [List.filterMap_cons]
          cases see e <;> rfl]
        exact hfirst.append hrest
  exact hafter [] s t es a rfl hs hrun

/-! ### What a reply says to later calls -/

/-- The steps up to the first thing that is seen, and those after it. -/
theorem uncons {x : CallEvent κ ι ρ} (h : AtomicRun apply a (x :: seen) b) :
    ∃ m m', AtomicRun apply a [] m ∧ AtomicStep apply m (some x) m' ∧
      AtomicRun apply m' seen b := by
  obtain ⟨steps, hrun, heq⟩ := h
  induction hrun with
  | nil => cases heq
  | @cons a a' b e steps head tail ih =>
      cases e with
      | none =>
          obtain ⟨m, m', ⟨silent, hsilent, hnone⟩, hstep, hrest⟩ := ih heq
          exact ⟨m, m', ⟨none :: silent, .cons head hsilent, hnone⟩, hstep, hrest⟩
      | some y =>
          obtain ⟨rfl, rfl⟩ := List.cons.inj heq
          exact ⟨a, a', .nil a, head, steps, tail, rfl⟩

theorem split (h : AtomicRun apply a (seen ++ seen') b) :
    ∃ m, AtomicRun apply a seen m ∧ AtomicRun apply m seen' b := by
  induction seen generalizing a with
  | nil => exact ⟨a, .nil a, h⟩
  | cons x seen ih =>
      obtain ⟨m, m', hsilent, hstep, hrest⟩ := h.uncons
      obtain ⟨m'', hfirst, hlast⟩ := ih hrest
      exact ⟨m'', hsilent.append ((of_step hstep).append hfirst), hlast⟩

/-- What holds of the object, and is kept by its steps as far as they are seen, holds after
a run. -/
theorem invariant {I : AtomicState κ σ ι ρ → Prop} (h : AtomicRun apply a seen b)
    (hstep : ∀ a e b, (∀ x ∈ e, x ∈ seen) → I a → AtomicStep apply a e b → I b)
    (ha : I a) : I b := by
  obtain ⟨steps, hrun, rfl⟩ := h
  refine hrun.events.invariant (fun a e b hI hstep' => hstep a e b (fun x hx => ?_) hI hstep'.2) ha
  rw [List.reduceOption_mem_iff]
  exact Option.mem_def.mp hx ▸ hstep'.1

section

variable {P : σ → Prop} {value : σ}

/-- What every call keeps of the value is kept. -/
theorem keeps_value (h : AtomicRun apply a seen b) (hkeep : ∀ s call, P s → P (apply s call).2)
    (ha : P a.value) :
    P b.value := by
  refine h.invariant (I := fun a => P a.value) (fun a e b _ ha hstep => ?_) ha
  cases hstep with
  | calls _ call => exact ha
  | effect _ => exact hkeep _ _ ha
  | replies _ => exact ha

/-- A client is done with a call only where the value is as its reply says. -/
theorem done_value (h : AtomicRun apply (.fresh κ ι ρ value) seen b)
    (hkeep : ∀ s call, P s → P (apply s call).2)
    (hmakes : ∀ s, (apply s call).1 = reply → P (apply s call).2)
    (hdone : b.phase c = .done call reply) :
    P b.value := by
  refine h.invariant (I := fun a => ∀ c, a.phase c = .done call reply → P a.value)
    (fun a x b _ ha hstep c hc => ?_) (fun c hc => by cases hc) c hdone
  cases hstep with
  | @calls d hidle call' =>
      by_cases hd : c = d
      · rw [hd, AtomicState.phase_set_self] at hc
        cases hc
      · exact ha c (by rwa [AtomicState.phase_set_ne _ hd] at hc)
  | @effect d call' hcalled =>
      by_cases hd : c = d
      · rw [hd, AtomicState.phase_effect_self] at hc
        cases hc
        exact hmakes _ rfl
      · exact hkeep _ _ (ha c (by rwa [AtomicState.phase_effect_ne _ hd] at hc))
  | @replies d call' reply' hdone =>
      by_cases hd : c = d
      · rw [hd, AtomicState.phase_set_self] at hc
        cases hc
      · exact ha c (by rwa [AtomicState.phase_set_ne _ hd] at hc)

/-- As long as nothing is seen of a client, its call has no effect, or has had it. -/
theorem answers (h : AtomicRun apply a seen b) (hkeep : ∀ s call, P s → P (apply s call).2)
    (hne : ∀ x ∈ seen, x.client ≠ d)
    (ha : P a.value) (hcalled : a.phase d = .called call) :
    b.phase d = .called call ∨ ∃ s, P s ∧ b.phase d = .done call (apply s call).1 := by
  refine (h.invariant
    (I := fun a => P a.value ∧ (a.phase d = .called call ∨ ∃ s, P s ∧
      a.phase d = .done call (apply s call).1))
    (fun a x b hx ha hstep => ?_) ⟨ha, Or.inl hcalled⟩).2
  cases hstep with
  | @calls c hidle call' =>
      have hc : c ≠ d := hne _ (hx _ rfl)
      rw [AtomicState.phase_set_ne _ hc.symm]
      exact ha
  | @replies c call' reply' hdone =>
      have hc : c ≠ d := hne _ (hx _ rfl)
      rw [AtomicState.phase_set_ne _ hc.symm]
      exact ha
  | @effect c call' hcalled =>
      refine ⟨hkeep _ _ ha.1, ?_⟩
      by_cases hc : d = c
      · subst hc
        rcases ha.2 with hold | ⟨s, -, hold⟩
        · cases hcalled.symm.trans hold
          exact Or.inr ⟨a.value, ha.1, AtomicState.phase_effect_self ..⟩
        · cases hcalled.symm.trans hold
      · rw [AtomicState.phase_effect_ne _ hc]
        exact ha.2

/-- What a reply has made true of the value, the calls that begin later are answered by. -/
theorem reply_after {call' : ι} {reply' : ρ} {pre mid post rest : List (CallEvent κ ι ρ)}
    (h : AtomicRun apply (.fresh κ ι ρ value)
      (pre ++ .replies c call reply :: (mid ++ .calls d call' ::
        (post ++ .replies d call' reply' :: rest))) b)
    (hkeep : ∀ s call, P s → P (apply s call).2)
    (hmakes : ∀ s, (apply s call).1 = reply → P (apply s call).2)
    (hpost : ∀ x ∈ post, x.client ≠ d) : ∃ s, P s ∧ reply' = (apply s call').1 := by
  obtain ⟨a₁, h₁, h⟩ := h.split
  obtain ⟨a₂, a₂', h₂, hreplies, h⟩ := h.uncons
  obtain ⟨a₃, h₃, h⟩ := h.split
  obtain ⟨a₄, a₄', h₄, hcalls, h⟩ := h.uncons
  obtain ⟨a₅, h₅, h⟩ := h.split
  obtain ⟨a₆, a₆', h₆, hreplies', -⟩ := h.uncons
  have hvalue : P a₄.value := by
    refine (h₃.append h₄).keeps_value hkeep ?_
    cases hreplies with
    | replies hphase => exact (h₁.append h₂).done_value hkeep hmakes hphase
  have hanswer : a₆.phase d = .called call' ∨ ∃ s, P s ∧
      a₆.phase d = .done call' (apply s call').1 := by
    refine (h₅.append h₆).answers hkeep (by simpa using hpost) ?_ ?_
    · cases hcalls with
      | calls _ _ => exact hvalue
    · cases hcalls with
      | calls _ _ => exact AtomicState.phase_set_self ..
  cases hreplies' with
  | replies hphase =>
      rcases hanswer with hold | ⟨s, hs, hold⟩
      · cases hold.symm.trans hphase
      · cases hold.symm.trans hphase
        exact ⟨s, hs, rfl⟩

end

end AtomicRun

end

end Wednesday.Lib
