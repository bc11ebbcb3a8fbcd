import Mathlib.Tactic.Common

/-!
Fallible procedures over an explicit state. A procedure reports success with a
value, reports failure, or does not return at all; sequencing stops at the
first report of failure, and scopes run their exit action on both reports.
-/

namespace Wednesday.Lib

/-- How a run ends. A run that faults has no state to speak of. -/
inductive Outcome (φ σ α : Type) where
  | success (value : α) (state : σ)
  | failure (state : σ)
  | fault (reason : φ)

/-- A procedure: from a state to the way its run ends. -/
def Prog (φ σ α : Type) : Type := σ → Outcome φ σ α

namespace Outcome

variable {φ σ τ α β : Type}

def bind : Outcome φ σ α → (α → Prog φ σ β) → Outcome φ σ β
  | .success a s, f => f a s
  | .failure s, _ => .failure s
  | .fault r, _ => .fault r

/-- Go on with the report `k` makes on the state an exit action leaves. -/
def andThen : Outcome φ σ Unit → (σ → Outcome φ σ α) → Outcome φ σ α
  | .success _ s, k => k s
  | .failure s, _ => .failure s
  | .fault r, _ => .fault r

/-- Change the state a run ends in. -/
def mapState (f : σ → τ) : Outcome φ σ α → Outcome φ τ α
  | .success a s => .success a (f s)
  | .failure s => .failure (f s)
  | .fault r => .fault r

@[simp] theorem bind_success (a : α) (s : σ) (f : α → Prog φ σ β) :
    (success a s : Outcome φ σ α).bind f = f a s := rfl

@[simp] theorem bind_failure (s : σ) (f : α → Prog φ σ β) :
    (failure s : Outcome φ σ α).bind f = .failure s := rfl

@[simp] theorem bind_fault (r : φ) (f : α → Prog φ σ β) :
    (fault r : Outcome φ σ α).bind f = .fault r := rfl

@[simp] theorem andThen_success (s : σ) (k : σ → Outcome φ σ α) :
    (success () s : Outcome φ σ Unit).andThen k = k s := rfl

@[simp] theorem andThen_failure (s : σ) (k : σ → Outcome φ σ α) :
    (failure s : Outcome φ σ Unit).andThen k = .failure s := rfl

@[simp] theorem andThen_fault (r : φ) (k : σ → Outcome φ σ α) :
    (fault r : Outcome φ σ Unit).andThen k = .fault r := rfl

@[simp] theorem mapState_success (g : σ → τ) (a : α) (s : σ) :
    (success a s : Outcome φ σ α).mapState g = .success a (g s) := rfl

@[simp] theorem mapState_failure (g : σ → τ) (s : σ) :
    (failure s : Outcome φ σ α).mapState g = .failure (g s) := rfl

@[simp] theorem mapState_fault (g : σ → τ) (r : φ) :
    (fault r : Outcome φ σ α).mapState g = .fault r := rfl

/-- The value and the state of a success. -/
def value? : Outcome φ σ α → Option (α × σ)
  | .success a s => some (a, s)
  | .failure _ => none
  | .fault _ => none

theorem value?_eq_some {o : Outcome φ σ α} {a : α} {s : σ} :
    o.value? = some (a, s) ↔ o = .success a s := by
  cases o <;> simp [value?]

/-- The state of a failure. -/
def failure? : Outcome φ σ α → Option σ
  | .success _ _ => none
  | .failure s => some s
  | .fault _ => none

theorem failure?_eq_some {o : Outcome φ σ α} {s : σ} : o.failure? = some s ↔ o = .failure s := by
  cases o <;> simp [failure?]

/-- What a call was aborted with. -/
def fault? : Outcome φ σ α → Option φ
  | .success _ _ => none
  | .failure _ => none
  | .fault r => some r

theorem fault?_eq_some {o : Outcome φ σ α} {r : φ} : o.fault? = some r ↔ o = .fault r := by
  cases o <;> simp [fault?]

theorem andThen_eq_success {o : Outcome φ σ Unit} {k : σ → Outcome φ σ α} {a : α} {t : σ} :
    o.andThen k = .success a t ↔ ∃ s, o = .success () s ∧ k s = .success a t := by
  cases o <;> simp [andThen]

theorem andThen_eq_failure {o : Outcome φ σ Unit} {k : σ → Outcome φ σ α} {t : σ} :
    o.andThen k = .failure t ↔ o = .failure t ∨ ∃ s, o = .success () s ∧ k s = .failure t := by
  cases o <;> simp [andThen]

theorem bind_eq_success {o : Outcome φ σ α} {f : α → Prog φ σ β} {b : β} {t : σ} :
    o.bind f = .success b t ↔ ∃ a s, o = .success a s ∧ f a s = .success b t := by
  cases o <;> simp

theorem bind_eq_failure {o : Outcome φ σ α} {f : α → Prog φ σ β} {t : σ} :
    o.bind f = .failure t ↔
      o = .failure t ∨ ∃ a s, o = .success a s ∧ f a s = .failure t := by
  cases o <;> simp

theorem bind_eq_fault {o : Outcome φ σ α} {f : α → Prog φ σ β} {r : φ} :
    o.bind f = .fault r ↔
      o = .fault r ∨ ∃ a s, o = .success a s ∧ f a s = .fault r := by
  cases o <;> simp

end Outcome

namespace Prog

variable {φ σ τ ν α β : Type}

instance : Monad (Prog φ σ) where
  pure a := fun s => .success a s
  bind m f := fun s => (m s).bind f

def get : Prog φ σ σ := fun s => .success s s

def modify (f : σ → σ) : Prog φ σ Unit := fun s => .success () (f s)

/-- Report failure. -/
def fail : Prog φ σ α := fun s => .failure s

/-- Do not return. -/
def abort (r : φ) : Prog φ σ α := fun _ => .fault r

def assert (c : Prop) [Decidable c] (r : φ) : Prog φ σ Unit :=
  if c then pure () else abort r

/-- Run a step that either yields a value or faults. -/
def ofExcept : Except φ α → Prog φ σ α
  | .ok a => pure a
  | .error r => abort r

/-- Run `m`, and `h` if it reports failure. -/
def recover (m h : Prog φ σ α) : Prog φ σ α := fun s =>
  match m s with
  | .success a s => .success a s
  | .failure s => h s
  | .fault r => .fault r

/-- Run `body` and then `exit`, whichever report `body` makes. -/
def deferred (exit : Prog φ σ Unit) (body : Prog φ σ α) : Prog φ σ α := fun s =>
  match body s with
  | .success a s => (exit s).andThen (.success a)
  | .failure s => (exit s).andThen .failure
  | .fault r => .fault r

/-- Run `body` with a local variable and then `exit` on the variable's last
value. -/
def withVar (init : ν) (exit : ν → Prog φ σ Unit) (body : Prog φ (σ × ν) α) : Prog φ σ α :=
  fun s =>
    match body (s, init) with
    | .success a (s, v) => (exit v s).andThen (.success a)
    | .failure (s, v) => (exit v s).andThen .failure
    | .fault r => .fault r

/-- Run a procedure that does not see the local variable. -/
def lift (m : Prog φ σ α) : Prog φ (σ × ν) α := fun s => (m s.1).mapState fun t => (t, s.2)

def readVar : Prog φ (σ × ν) ν := fun s => .success s.2 s

def writeVar (v : ν) : Prog φ (σ × ν) Unit := fun s => .success () (s.1, v)

@[simp] theorem pure_apply (a : α) (s : σ) : (pure a : Prog φ σ α) s = .success a s := rfl

@[simp] theorem bind_apply (m : Prog φ σ α) (f : α → Prog φ σ β) (s : σ) :
    (m >>= f) s = (m s).bind f := rfl

@[simp] theorem get_apply (s : σ) : (get : Prog φ σ σ) s = .success s s := rfl

@[simp] theorem modify_apply (f : σ → σ) (s : σ) :
    (modify f : Prog φ σ Unit) s = .success () (f s) := rfl

@[simp] theorem fail_apply (s : σ) : (fail : Prog φ σ α) s = .failure s := rfl

@[simp] theorem abort_apply (r : φ) (s : σ) : (abort r : Prog φ σ α) s = .fault r := rfl

theorem assert_apply (c : Prop) [Decidable c] (r : φ) (s : σ) :
    (assert c r : Prog φ σ Unit) s = if c then .success () s else .fault r := by
  simp only [assert]
  split <;> rfl

@[simp] theorem assert_true {c : Prop} [Decidable c] (h : c) (r : φ) (s : σ) :
    (assert c r : Prog φ σ Unit) s = .success () s := by
  simp [assert_apply, h]

@[simp] theorem assert_false {c : Prop} [Decidable c] (h : ¬ c) (r : φ) (s : σ) :
    (assert c r : Prog φ σ Unit) s = .fault r := by
  simp [assert_apply, h]

@[simp] theorem ofExcept_ok (a : α) (s : σ) :
    (ofExcept (.ok a) : Prog φ σ α) s = .success a s := rfl

@[simp] theorem ofExcept_error (r : φ) (s : σ) :
    (ofExcept (.error r) : Prog φ σ α) s = .fault r := rfl

@[simp] theorem lift_apply (m : Prog φ σ α) (s : σ) (v : ν) :
    (lift m : Prog φ (σ × ν) α) (s, v) = (m s).mapState fun t => (t, v) := rfl

@[simp] theorem readVar_apply (s : σ) (v : ν) :
    (readVar : Prog φ (σ × ν) ν) (s, v) = .success v (s, v) := rfl

@[simp] theorem writeVar_apply (s : σ) (v v' : ν) :
    (writeVar v' : Prog φ (σ × ν) Unit) (s, v) = .success () (s, v') := rfl

theorem recover_success {m h : Prog φ σ α} {s s' : σ} {a : α} (hm : m s = .success a s') :
    recover m h s = .success a s' := by
  simp [recover, hm]

theorem recover_failure {m h : Prog φ σ α} {s s' : σ} (hm : m s = .failure s') :
    recover m h s = h s' := by
  simp [recover, hm]

theorem recover_fault {m h : Prog φ σ α} {s : σ} {r : φ} (hm : m s = .fault r) :
    recover m h s = .fault r := by
  simp [recover, hm]

/-- A deferred exit action that succeeds does not change what is reported. -/
theorem deferred_success {exit : Prog φ σ Unit} {body : Prog φ σ α} {s s' t : σ} {a : α}
    (hbody : body s = .success a s') (hexit : exit s' = .success () t) :
    deferred exit body s = .success a t := by
  simp [deferred, hbody, hexit]

theorem deferred_failure {exit : Prog φ σ Unit} {body : Prog φ σ α} {s s' t : σ}
    (hbody : body s = .failure s') (hexit : exit s' = .success () t) :
    deferred exit body s = .failure t := by
  simp [deferred, hbody, hexit]

theorem deferred_fault {exit : Prog φ σ Unit} {body : Prog φ σ α} {s : σ} {r : φ}
    (hbody : body s = .fault r) : deferred exit body s = .fault r := by
  simp [deferred, hbody]

theorem deferred_eq_success {exit : Prog φ σ Unit} {body : Prog φ σ α} {s t : σ} {a : α} :
    deferred exit body s = .success a t ↔
      ∃ s', body s = .success a s' ∧ exit s' = .success () t := by
  cases hbody : body s with
  | success b u =>
      simp only [deferred, hbody, Outcome.andThen_eq_success, Outcome.success.injEq]
      constructor
      · rintro ⟨s', hexit, rfl, rfl⟩
        exact ⟨u, ⟨rfl, rfl⟩, hexit⟩
      · rintro ⟨s', ⟨rfl, rfl⟩, hexit⟩
        exact ⟨t, hexit, rfl, rfl⟩
  | failure u => simp [deferred, hbody, Outcome.andThen_eq_success]
  | fault r => simp [deferred, hbody]

theorem withVar_success {init v : ν} {exit : ν → Prog φ σ Unit} {body : Prog φ (σ × ν) α}
    {s s' t : σ} {a : α} (hbody : body (s, init) = .success a (s', v))
    (hexit : exit v s' = .success () t) : withVar init exit body s = .success a t := by
  simp [withVar, hbody, hexit]

theorem withVar_failure {init v : ν} {exit : ν → Prog φ σ Unit} {body : Prog φ (σ × ν) α}
    {s s' t : σ} (hbody : body (s, init) = .failure (s', v))
    (hexit : exit v s' = .success () t) : withVar init exit body s = .failure t := by
  simp [withVar, hbody, hexit]

theorem withVar_fault {init : ν} {exit : ν → Prog φ σ Unit} {body : Prog φ (σ × ν) α}
    {s : σ} {r : φ} (hbody : body (s, init) = .fault r) :
    withVar init exit body s = .fault r := by
  simp [withVar, hbody]

end Prog

/-- Run `f` for `i = lo, ..., lo + n - 1`. -/
def forRange {σ : Type} (lo : Nat) : Nat → (Nat → σ → σ) → σ → σ
  | 0, _, s => s
  | n + 1, f, s => forRange (lo + 1) n f (f lo s)

/-- The rule of a counting loop: what holds at the start and is carried by
every iteration holds at the end. -/
theorem forRange_induct {σ : Type} (lo n : Nat) (f : Nat → σ → σ) (s : σ)
    (I : Nat → σ → Prop) (hinit : I lo s)
    (hstep : ∀ i t, lo ≤ i → i < lo + n → I i t → I (i + 1) (f i t)) :
    I (lo + n) (forRange lo n f s) := by
  induction n generalizing lo s with
  | zero => exact hinit
  | succ n ih =>
      rw [forRange, show lo + (n + 1) = lo + 1 + n by omega]
      refine ih (lo + 1) (f lo s) (hstep lo s (by omega) (by omega) hinit) fun i t h₁ h₂ => ?_
      exact hstep i t (by omega) (by omega)

end Wednesday.Lib
