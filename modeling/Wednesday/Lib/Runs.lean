import Mathlib.Tactic.Common

/-!
Runs of a labelled transition system.
-/

namespace Wednesday.Lib

variable {σ ε : Type}

/-- From the first state, through these events in order, to the last state. -/
inductive Run (Step : σ → ε → σ → Prop) : σ → List ε → σ → Prop where
  | nil (s : σ) : Run Step s [] s
  | cons {s t u : σ} {e : ε} {es : List ε} (head : Step s e t) (tail : Run Step t es u) :
      Run Step s (e :: es) u

namespace Run

variable {Step : σ → ε → σ → Prop} {s t u : σ} {e : ε} {es es' : List ε}

/-- What holds at the start and is kept by every step holds at the end. -/
theorem invariant {I : σ → Prop} (hstep : ∀ s e t, I s → Step s e t → I t) (hs : I s)
    (hrun : Run Step s es t) : I t := by
  induction hrun with
  | nil => exact hs
  | cons head _ ih => exact ih (hstep _ _ _ hs head)

/-- An invariant of a state and the events that led to it. -/
theorem history {I : List ε → σ → Prop} (hstep : ∀ es s e t, I es s → Step s e t → I (es ++ [e]) t)
    (hs : I [] s)
    (hrun : Run Step s es t) : I es t := by
  have hafter : ∀ pre, I pre s → I (pre ++ es) t := by
    clear hs
    induction hrun with
    | nil => exact fun pre hpre => (List.append_nil pre).symm ▸ hpre
    | @cons s t u e es head _ ih =>
        intro pre hpre
        have hrest := ih (pre ++ [e]) (hstep pre s e t hpre head)
        rwa [List.append_assoc] at hrest
  exact hafter [] hs

theorem append (h : Run Step s es t) (h' : Run Step t es' u) : Run Step s (es ++ es') u := by
  induction h with
  | nil => exact h'
  | cons head _ ih => exact .cons head (ih h')

/-- A run goes through a state where its events are divided. -/
theorem exists_mid (h : Run Step s (es ++ es') u) : ∃ t, Run Step s es t ∧ Run Step t es' u := by
  induction es generalizing s with
  | nil => exact ⟨s, .nil s, h⟩
  | cons e es ih =>
      cases h with
      | cons head tail =>
          obtain ⟨t, hrun, hrest⟩ := ih tail
          exact ⟨t, .cons head hrun, hrest⟩

theorem snoc (h : Run Step s es t) (h' : Step t e u) : Run Step s (es ++ [e]) u :=
  h.append (.cons h' (.nil u))

theorem mono {Step' : σ → ε → σ → Prop} (hmono : ∀ s e t, Step s e t → Step' s e t)
    (h : Run Step s es t) : Run Step' s es t := by
  induction h with
  | nil => exact .nil _
  | cons head _ ih => exact .cons (hmono _ _ _ head) ih

/-- Every step of a run that keeps an invariant starts in a state where it holds. -/
theorem strengthen {I : σ → Prop} (hstep : ∀ s e t, I s → Step s e t → I t) (hs : I s)
    (h : Run Step s es t) : Run (fun s e t => I s ∧ Step s e t) s es t := by
  induction h with
  | nil => exact .nil _
  | cons head _ ih => exact .cons ⟨hs, head⟩ (ih (hstep _ _ _ hs head))

/-- Every event of a run is a step of it. -/
theorem exists_step (h : Run Step s es t) (he : e ∈ es) : ∃ u v, Step u e v := by
  induction h with
  | nil => cases he
  | cons head _ ih =>
      rcases List.mem_cons.mp he with rfl | he
      · exact ⟨_, _, head⟩
      · exact ih he

/-- Every step of a run is one of its events. -/
theorem events (h : Run Step s es t) : Run (fun s e t => e ∈ es ∧ Step s e t) s es t := by
  induction h with
  | nil => exact .nil _
  | cons head _ ih =>
      exact .cons ⟨List.mem_cons_self .., head⟩ (ih.mono fun _ _ _ hstep =>
        ⟨List.mem_cons_of_mem _ hstep.1, hstep.2⟩)

end Run

/-! ### Runs by evaluation -/

section

variable {ι : Type} {Step : σ → ε → σ → Prop} {s t : σ} {es : List ε} {inputs : List ι}

/-- Make inputs one after the other, each of which gives an event and the next state. -/
def stepThrough (next : σ → ι → Option (ε × σ)) (s : σ) : List ι → Option (List ε × σ)
  | [] => some ([], s)
  | input :: inputs => do
      let (e, t) ← next s input
      let (es, u) ← stepThrough next t inputs
      some (e :: es, u)

theorem Run.of_stepThrough {next : σ → ι → Option (ε × σ)}
    (hnext : ∀ s input e t, next s input = some (e, t) → Step s e t)
    (h : stepThrough next s inputs = some (es, t)) : Run Step s es t := by
  induction inputs generalizing s es with
  | nil =>
      cases h
      exact .nil _
  | cons input inputs ih =>
      simp only [stepThrough, Option.bind_eq_bind, Option.bind_eq_some_iff] at h
      obtain ⟨⟨e, u⟩, hstep, ⟨es', v⟩, hrest, h⟩ := h
      cases h
      exact .cons (hnext _ _ _ _ hstep) (ih hrest)

/-- The inputs are known to be these events. -/
theorem Run.of_foldlM {next : σ → ι → Option σ} {event : ι → ε}
    (hnext : ∀ s input t, next s input = some t → Step s (event input) t)
    (h : inputs.foldlM next s = some t) : Run Step s (inputs.map event) t := by
  induction inputs generalizing s with
  | nil =>
      cases h
      exact .nil _
  | cons input inputs ih =>
      rw [List.foldlM_cons, Option.bind_eq_bind, Option.bind_eq_some_iff] at h
      obtain ⟨u, hstep, hrest⟩ := h
      exact .cons (hnext _ _ _ hstep) (ih hrest)

end

end Wednesday.Lib
