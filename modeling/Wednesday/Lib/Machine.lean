import Wednesday.Lib.Prog

/-!
Deterministic machines, and procedures that a machine matches. In a state a machine goes
on to the next one, halts with a report, or is stuck. A machine matches a procedure when it
gets to where the procedure reports, and is stuck, or goes on for long, where it does not
return.
-/

namespace Wednesday.Lib

/-- What a machine does in a state. -/
inductive Advance (σ ρ : Type) where
  | goes (s : σ)
  | halts (r : ρ)
  | stuck

/-- Seen through a map of the states. -/
def Advance.map {σ τ ρ : Type} (f : σ → τ) : Advance σ ρ → Advance τ ρ
  | .goes s => .goes (f s)
  | .halts r => .halts r
  | .stuck => .stuck

section

variable {σ ρ : Type} (next : σ → Advance σ ρ)

/-- The machine goes from the first state to the second in `n` steps. -/
inductive Goes : Nat → σ → σ → Prop where
  | here (s : σ) : Goes 0 s s
  | step {n : Nat} {s t u : σ} (head : next s = .goes t) (tail : Goes n t u) : Goes (n + 1) s u

/-- The machine halts after `n` steps. -/
def Halts (n : Nat) (s : σ) (r : ρ) : Prop := ∃ t, Goes next n s t ∧ next t = .halts r

/-- The machine comes to a state it is stuck in. -/
def Stuck (s : σ) : Prop := ∃ n t, Goes next n s t ∧ next t = .stuck

variable {next} {n m : Nat} {s t u : σ} {r r' : ρ}

theorem Goes.one (h : next s = .goes t) : Goes next 1 s t := .step h (.here t)

theorem Goes.trans (h : Goes next n s t) (h' : Goes next m t u) : Goes next (n + m) s u := by
  induction h with
  | here s => rwa [Nat.zero_add]
  | @step n s t v head _ ih =>
      rw [Nat.add_right_comm]
      exact .step head (ih h')

/-- A run that is as long goes through the end of a shorter one. -/
theorem Goes.rest (h : Goes next n s t) (h' : Goes next (n + m) s u) : Goes next m t u := by
  induction h with
  | here s => rwa [Nat.zero_add] at h'
  | @step n s t v head _ ih =>
      rw [Nat.add_right_comm] at h'
      cases h' with
      | step head' tail' =>
          rw [head] at head'
          cases head'
          exact ih tail'

/-- The start of a run. -/
theorem Goes.start (h : Goes next (n + m) s u) : ∃ t, Goes next n s t := by
  induction n generalizing s with
  | zero => exact ⟨s, .here s⟩
  | succ n ih =>
      rw [Nat.add_right_comm] at h
      cases h with
      | step head tail =>
          obtain ⟨t, ht⟩ := ih tail
          exact ⟨t, .step head ht⟩

/-- Where a machine does not go on, its runs end. -/
theorem Goes.last (h : Goes next n s t) (h' : Goes next m s u)
    (hu : ∀ v, next u ≠ .goes v) : n ≤ m := by
  induction h generalizing m with
  | here s => exact Nat.zero_le m
  | step head _ ih =>
      cases h' with
      | here _ => exact absurd head (hu _)
      | step head' tail' =>
          rw [head] at head'
          cases head'
          exact Nat.succ_le_succ (ih tail')

theorem Goes.halts (h : Goes next n s t) (h' : Halts next m t r) : Halts next (n + m) s r := by
  obtain ⟨u, hgoes, hr⟩ := h'
  exact ⟨u, h.trans hgoes, hr⟩

theorem Goes.stuck (h : Goes next n s t) (h' : Stuck next t) : Stuck next s := by
  obtain ⟨m, u, hgoes, hu⟩ := h'
  exact ⟨n + m, u, h.trans hgoes, hu⟩

/-- What a machine halts with is what it halts with from every state it goes through. -/
theorem Goes.halts_rest (h : Goes next n s t) (h' : Halts next m s r) :
    ∃ k, m = n + k ∧ Halts next k t r := by
  obtain ⟨u, hgoes, hr⟩ := h'
  obtain ⟨k, rfl⟩ := Nat.exists_eq_add_of_le (h.last hgoes fun v hv => by cases hr.symm.trans hv)
  exact ⟨k, rfl, u, h.rest hgoes, hr⟩

theorem Halts.unique (h : Halts next n s r) (h' : Halts next m s r') : n = m ∧ r = r' := by
  obtain ⟨t, hgoes, hr⟩ := h
  obtain ⟨k, rfl, u, hrest, hr'⟩ := hgoes.halts_rest h'
  cases hrest with
  | here _ =>
      cases hr.symm.trans hr'
      exact ⟨rfl, rfl⟩
  | step head _ => cases hr.symm.trans head

theorem Halts.not_stuck (h : Halts next n s r) : ¬ Stuck next s := by
  rintro ⟨m, t, hgoes, ht⟩
  obtain ⟨k, -, u, hrest, hr⟩ := hgoes.halts_rest h
  cases hrest with
  | here _ => cases hr.symm.trans ht
  | step head _ => cases ht.symm.trans head

/-- A machine halts as one whose states it maps does. -/
theorem halts_map {τ : Type} {next' : τ → Advance τ ρ} {f : σ → τ}
    (hmap : ∀ s, next' (f s) = (next s).map f) :
    Halts next' n (f s) r ↔ Halts next n s r := by
  induction n generalizing s with
  | zero =>
      constructor
      · rintro ⟨_, hgoes, hr⟩
        cases hgoes
        rw [hmap] at hr
        cases hnext : next s <;> rw [hnext] at hr <;> cases hr
        exact ⟨s, .here s, hnext⟩
      · rintro ⟨_, hgoes, hr⟩
        cases hgoes
        exact ⟨f s, .here _, by rw [hmap, hr]; rfl⟩
  | succ n ih =>
      constructor
      · rintro ⟨u, hgoes, hr⟩
        cases hgoes with
        | step head tail =>
            rw [hmap] at head
            cases hnext : next s with
            | goes t =>
                rw [hnext] at head
                cases head
                obtain ⟨v, hrest, hv⟩ := ih.mp ⟨u, tail, hr⟩
                exact ⟨v, .step hnext hrest, hv⟩
            | halts r' =>
                rw [hnext] at head
                cases head
            | stuck =>
                rw [hnext] at head
                cases head
      · rintro ⟨u, hgoes, hr⟩
        cases hgoes with
        | step head tail =>
            obtain ⟨v, hrest, hv⟩ := ih.mpr ⟨u, tail, hr⟩
            exact ⟨v, .step (by rw [hmap, head]; rfl) hrest, hv⟩

end

/-! ### Procedures -/

section

variable {φ σ τ ν ρ α β : Type} (next : σ → Advance σ ρ)

/-- From a state the machine matches the run of a procedure: to a state `Q` allows if it
succeeds, and to one `E` allows if it fails. If the procedure does not return, the machine
gets stuck, or makes at least `n` steps. -/
def Matches (n : Nat) (o : Outcome φ τ α) (s : σ) (Q : α → τ → σ → Prop)
    (E : τ → σ → Prop) : Prop :=
  match o with
  | .success a u => ∃ m t, Goes next m s t ∧ Q a u t
  | .failure u => ∃ m t, Goes next m s t ∧ E u t
  | .fault _ => Stuck next s ∨ ∃ t, Goes next n s t

variable {next} {n m : Nat} {s t : σ} {u : τ} {o : Outcome φ τ α} {Q Q' : α → τ → σ → Prop}
  {R : β → τ → σ → Prop}
  {E E' : τ → σ → Prop}

theorem Matches.mono (h : Matches next n o s Q E) (hQ : ∀ a u t, Q a u t → Q' a u t)
    (hE : ∀ u t, E u t → E' u t) :
    Matches next n o s Q' E' := by
  cases o with
  | success a u =>
      obtain ⟨m, t, hgoes, hq⟩ := h
      exact ⟨m, t, hgoes, hQ a u t hq⟩
  | failure u =>
      obtain ⟨m, t, hgoes, he⟩ := h
      exact ⟨m, t, hgoes, hE u t he⟩
  | fault r => exact h

/-- A machine that goes on after it has matched a procedure. -/
theorem Matches.goesOn (h : Matches next n o s Q E)
    (hQ : ∀ a u t, Q a u t → ∃ m v, Goes next m t v ∧ Q' a u v)
    (hE : ∀ u t, E u t → ∃ m v, Goes next m t v ∧ E' u v) : Matches next n o s Q' E' := by
  cases o with
  | success a u =>
      obtain ⟨m, t, hgoes, hq⟩ := h
      obtain ⟨k, v, hrest, hq'⟩ := hQ a u t hq
      exact ⟨m + k, v, hgoes.trans hrest, hq'⟩
  | failure u =>
      obtain ⟨m, t, hgoes, he⟩ := h
      obtain ⟨k, v, hrest, he'⟩ := hE u t he
      exact ⟨m + k, v, hgoes.trans hrest, he'⟩
  | fault r => exact h

/-- A machine that has gone on before it matches a procedure. -/
theorem Matches.after (h : Matches next n o t Q E) (hgoes : Goes next m s t) :
    Matches next (m + n) o s Q E := by
  cases o with
  | success a u =>
      obtain ⟨k, v, hrest, hq⟩ := h
      exact ⟨m + k, v, hgoes.trans hrest, hq⟩
  | failure u =>
      obtain ⟨k, v, hrest, he⟩ := h
      exact ⟨m + k, v, hgoes.trans hrest, he⟩
  | fault r =>
      rcases h with h | ⟨v, hrest⟩
      · exact Or.inl (hgoes.stuck h)
      · exact Or.inr ⟨v, hgoes.trans hrest⟩

theorem Matches.fewer (h : Matches next (n + m) o s Q E) : Matches next n o s Q E := by
  cases o with
  | success a u => exact h
  | failure u => exact h
  | fault r => exact h.imp_right fun ⟨_, hgoes⟩ => hgoes.start

/-- A machine matches a procedure from a state it goes on to. -/
theorem Matches.resume (h : Matches next n o t Q E) (hgoes : Goes next m s t) :
    Matches next n o s Q E := by
  have hafter := h.after hgoes
  rw [Nat.add_comm] at hafter
  exact hafter.fewer

/-- A procedure that does not return asks for no step. -/
theorem matches_unreturned {r : φ} : Matches next 0 (.fault r : Outcome φ τ α) s Q E :=
  Or.inr ⟨s, .here s⟩

/-- A procedure is matched in one step. -/
theorem matches_step (hsuccess : ∀ a u, o = .success a u → ∃ t, next s = .goes t ∧ Q a u t)
    (hfailure : ∀ u, o = .failure u → ∃ t, next s = .goes t ∧ E u t)
    (hfault : ∀ r, o = .fault r → next s = .stuck) :
    Matches next n o s Q E := by
  cases o with
  | success a u =>
      obtain ⟨t, hgoes, hq⟩ := hsuccess a u rfl
      exact ⟨1, t, .one hgoes, hq⟩
  | failure u =>
      obtain ⟨t, hgoes, he⟩ := hfailure u rfl
      exact ⟨1, t, .one hgoes, he⟩
  | fault r => exact Or.inl ⟨0, s, .here s, hfault r rfl⟩

theorem matches_bind {p : Outcome φ τ β} {f : β → Prog φ τ α} (h : Matches next n p s R E)
    (hf : ∀ b u t, R b u t → Matches next n (f b u) t Q E) : Matches next n (p.bind f) s Q E := by
  cases p with
  | success b u =>
      obtain ⟨m, t, hgoes, hr⟩ := h
      exact (hf b u t hr).resume hgoes
  | failure u => exact h
  | fault r => exact h

theorem matches_recover {m h : Prog φ τ α} (hm : Matches next n (m u) s Q E')
    (hh : ∀ v t, E' v t → Matches next n (h v) t Q E) :
    Matches next n (Prog.recover m h u) s Q E := by
  unfold Prog.recover
  cases hrun : m u with
  | success a v =>
      rw [hrun] at hm
      exact hm
  | failure v =>
      rw [hrun] at hm
      obtain ⟨k, t, hgoes, he⟩ := hm
      exact (hh v t he).resume hgoes
  | fault r =>
      rw [hrun] at hm
      exact hm

/-- The report that is made after an exit action. -/
theorem Matches.andThen {p : Outcome φ τ Unit} {k : τ → Outcome φ τ α}
    (h : Matches next n p s (fun _ v t => Matches next n (k v) t Q E) E) :
    Matches next n (p.andThen k) s Q E := by
  cases p with
  | success _ v =>
      obtain ⟨m, t, hgoes, hk⟩ := h
      exact hk.resume hgoes
  | failure v => exact h
  | fault r => exact h

theorem matches_deferred {exit : Prog φ τ Unit} {body : Prog φ τ α} {P : α → τ → σ → Prop}
    {F : τ → σ → Prop}
    (h : Matches next n (body u) s P F)
    (hQ : ∀ a v t, P a v t → Matches next n (exit v) t (fun _ => Q a) E)
    (hE : ∀ v t, F v t → Matches next n (exit v) t (fun _ => E) E) :
    Matches next n (Prog.deferred exit body u) s Q E := by
  unfold Prog.deferred
  cases hrun : body u with
  | success a v =>
      rw [hrun] at h
      obtain ⟨k, t, hgoes, hq⟩ := h
      exact ((hQ a v t hq).mono (fun _ w x hq => ⟨0, x, .here x, hq⟩) fun _ _ he =>
        he).andThen.resume hgoes
  | failure v =>
      rw [hrun] at h
      obtain ⟨k, t, hgoes, he⟩ := h
      exact ((hE v t he).mono (fun _ w x he => ⟨0, x, .here x, he⟩) fun _ _ he =>
        he).andThen.resume hgoes
  | fault r =>
      rw [hrun] at h
      exact h

theorem matches_withVar {init : ν} {exit : ν → Prog φ τ Unit} {body : Prog φ (τ × ν) α}
    {P : α → τ × ν → σ → Prop}
    {F : τ × ν → σ → Prop} (h : Matches next n (body (u, init)) s P F)
    (hQ : ∀ a v x t, P a (v, x) t → Matches next n (exit x v) t (fun _ => Q a) E)
    (hE : ∀ v x t, F (v, x) t → Matches next n (exit x v) t (fun _ => E) E) :
    Matches next n (Prog.withVar init exit body u) s Q E := by
  unfold Prog.withVar
  cases hrun : body (u, init) with
  | success a w =>
      rw [hrun] at h
      obtain ⟨k, t, hgoes, hq⟩ := h
      exact ((hQ a _ _ t hq).mono (fun _ w x hq => ⟨0, x, .here x, hq⟩) fun _ _ he =>
        he).andThen.resume hgoes
  | failure w =>
      rw [hrun] at h
      obtain ⟨k, t, hgoes, he⟩ := h
      exact ((hE _ _ t he).mono (fun _ w x he => ⟨0, x, .here x, he⟩) fun _ _ he =>
        he).andThen.resume hgoes
  | fault r =>
      rw [hrun] at h
      exact h

/-- The local variable of the caller stays as it is. -/
theorem matches_lift {x : ν} {m : Prog φ τ α} {Q : α → τ × ν → σ → Prop} {E : τ × ν → σ → Prop}
    (h : Matches next n (m u) s (fun a v t => Q a (v, x) t) fun v t => E (v, x) t) :
    Matches next n ((Prog.lift m : Prog φ (τ × ν) α) (u, x)) s Q E := by
  rw [Prog.lift_apply]
  cases hrun : m u with
  | success a v =>
      rw [hrun] at h
      exact h
  | failure v =>
      rw [hrun] at h
      exact h
  | fault r =>
      rw [hrun] at h
      exact h

theorem matches_lift_bind {x : ν} {m : Prog φ τ β} {f : β → Prog φ (τ × ν) α}
    {Q : α → τ × ν → σ → Prop}
    {E : τ × ν → σ → Prop} (h : Matches next n (m u) s R E') (hE : ∀ v t, E' v t → E (v, x) t)
    (hf : ∀ b v t, R b v t → Matches next n (f b (v, x)) t Q E) :
    Matches next n (((Prog.lift m : Prog φ (τ × ν) β) (u, x)).bind f) s Q E := by
  refine matches_bind (R := fun b w t => w.2 = x ∧ R b w.1 t) (matches_lift ?_) fun b w t hr => ?_
  · exact h.mono (fun _ _ _ hr => ⟨rfl, hr⟩) hE
  · obtain ⟨v, y⟩ := w
    obtain ⟨rfl, hr⟩ := hr
    exact hf b v t hr

/-- A machine that halts has not gone on forever: where it matches a procedure for every
number of steps, the procedure has returned. -/
theorem Matches.returns {ρ' : ρ} (h : Matches next (n + 1) o s Q E) (hhalts : Halts next n s ρ') :
    ∀ r, o ≠ .fault r := by
  rintro r rfl
  rcases h with h | ⟨t, hgoes⟩
  · exact hhalts.not_stuck h
  · obtain ⟨k, hk, -⟩ := hgoes.halts_rest hhalts
    omega

end

end Wednesday.Lib
