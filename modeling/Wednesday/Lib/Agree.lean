import Wednesday.Lib.Wp

/-!
Two runs of fallible procedures side by side. They agree when the second makes
the report the first makes; of a first run that faults nothing is said. A
procedure that ignores a part of the state agrees with itself on states that
differ in that part only. A procedure extends another when it returns wherever
the other does, and the same, as a loop does whose bound is raised.
-/

namespace Wednesday.Lib

/-- If the first run has returned, the second has made the same report, and the
two end as `Q` and `E` say. -/
def Outcome.Agrees {φ σ τ α β : Type} (o : Outcome φ σ α) (o' : Outcome φ τ β)
    (Q : α → β → σ → τ → Prop) (E : σ → τ → Prop) : Prop :=
  match o with
  | .success a u => ∃ b v, o' = .success b v ∧ Q a b u v
  | .failure u => ∃ v, o' = .failure v ∧ E u v
  | .fault _ => True

/-- The runs after two exit actions that agree. -/
theorem Outcome.Agrees.andThen {φ σ τ α β : Type} {o : Outcome φ σ Unit} {o' : Outcome φ τ Unit}
    {k : σ → Outcome φ σ α} {k' : τ → Outcome φ τ β} {Q : α → β → σ → τ → Prop} {E : σ → τ → Prop}
    (h : o.Agrees o' (fun _ _ u v => (k u).Agrees (k' v) Q E) E) :
    (o.andThen k).Agrees (o'.andThen k') Q E := by
  cases o with
  | success _ u =>
      obtain ⟨_, v, rfl, hk⟩ := h
      exact hk
  | failure u =>
      obtain ⟨v, rfl, he⟩ := h
      exact ⟨v, rfl, he⟩
  | fault r => trivial

namespace Prog

variable {φ σ τ ν α β γ δ : Type}

/-- If the run of `m` from `s` returns, the run of `m'` from `t` makes the same
report. -/
def Agree (m : Prog φ σ α) (m' : Prog φ τ β) (Q : α → β → σ → τ → Prop) (E : σ → τ → Prop)
    (s : σ) (t : τ) : Prop := (m s).Agrees (m' t) Q E

section

variable {m h : Prog φ σ α} {m' h' : Prog φ τ β} {f : α → Prog φ σ γ} {f' : β → Prog φ τ δ}
  {Q Q' : α → β → σ → τ → Prop} {R : γ → δ → σ → τ → Prop} {E E' : σ → τ → Prop} {s u : σ} {t v : τ}

theorem Agree.success {a : α} (hm : Agree m m' Q E s t) (hrun : m s = .success a u) :
    ∃ b v, m' t = .success b v ∧ Q a b u v := by
  simpa [Agree, Outcome.Agrees, hrun] using hm

theorem Agree.failure (hm : Agree m m' Q E s t) (hrun : m s = .failure u) :
    ∃ v, m' t = .failure v ∧ E u v := by
  simpa [Agree, Outcome.Agrees, hrun] using hm

theorem agree_of_success {a : α} {b : β} (hrun : m s = .success a u) (hrun' : m' t = .success b v)
    (hQ : Q a b u v) : Agree m m' Q E s t := by
  unfold Agree Outcome.Agrees
  rw [hrun]
  exact ⟨b, v, hrun', hQ⟩

theorem agree_of_failure (hrun : m s = .failure u) (hrun' : m' t = .failure v) (hE : E u v) :
    Agree m m' Q E s t := by
  unfold Agree Outcome.Agrees
  rw [hrun]
  exact ⟨v, hrun', hE⟩

theorem agree_of_fault {r : φ} (hrun : m s = .fault r) : Agree m m' Q E s t := by
  unfold Agree Outcome.Agrees
  rw [hrun]
  trivial

theorem Agree.mono (hm : Agree m m' Q E s t) (hQ : ∀ a b u v, Q a b u v → Q' a b u v)
    (hE : ∀ u v, E u v → E' u v) : Agree m m' Q' E' s t := by
  cases hrun : m s with
  | success a u =>
      obtain ⟨b, v, hrun', hq⟩ := hm.success hrun
      exact agree_of_success hrun hrun' (hQ a b u v hq)
  | failure u =>
      obtain ⟨v, hrun', he⟩ := hm.failure hrun
      exact agree_of_failure hrun hrun' (hE u v he)
  | fault r => exact agree_of_fault hrun

/-- What is known of either run alone holds at the end of both. -/
theorem Agree.and_wp {P : α → σ → Prop} {P' : β → τ → Prop} {N : σ → Prop} {N' : τ → Prop}
    {F F' : φ → Prop} (hm : Agree m m' Q E s t) (hs : wp m P N F s) (ht : wp m' P' N' F' t) :
    Agree m m' (fun a b u v => Q a b u v ∧ P a u ∧ P' b v) (fun u v => E u v ∧ N u ∧ N' v) s t := by
  cases hrun : m s with
  | success a u =>
      obtain ⟨b, v, hrun', hq⟩ := hm.success hrun
      exact agree_of_success hrun hrun' ⟨hq, hs.success hrun, ht.success hrun'⟩
  | failure u =>
      obtain ⟨v, hrun', he⟩ := hm.failure hrun
      exact agree_of_failure hrun hrun' ⟨he, hs.failure hrun, ht.failure hrun'⟩
  | fault r => exact agree_of_fault hrun

/-! ### The constructs -/

theorem agree_pure {a : α} {b : β} (hQ : Q a b s t) :
    Agree (pure a : Prog φ σ α) (pure b : Prog φ τ β) Q E s t := ⟨b, t, rfl, hQ⟩

theorem agree_abort (r : φ) : Agree (abort r : Prog φ σ α) m' Q E s t := trivial

theorem agree_modify {Q : Unit → Unit → σ → τ → Prop} {g : σ → σ} {g' : τ → τ}
    (hQ : Q () () (g s) (g' t)) :
    Agree (modify g : Prog φ σ Unit) (modify g' : Prog φ τ Unit) Q E s t := ⟨(), g' t, rfl, hQ⟩

theorem agree_assert {Q : Unit → Unit → σ → τ → Prop} {c c' : Prop} [Decidable c] [Decidable c']
    {r r' : φ} (hc : c → c') (hQ : c → Q () () s t) :
    Agree (assert c r : Prog φ σ Unit) (assert c' r' : Prog φ τ Unit) Q E s t := by
  by_cases h : c
  · exact agree_of_success (assert_true h r s) (assert_true (hc h) r' t) (hQ h)
  · exact agree_of_fault (assert_false h r s)

/-- The rest of the runs starts where the first run got to. -/
theorem agree_bind {Q : α → β → σ → τ → Prop} (hm : Agree m m' Q E s t)
    (hf : ∀ a b u v, m s = .success a u → Q a b u v → Agree (f a) (f' b) R E u v) :
    Agree (m >>= f) (m' >>= f') R E s t := by
  cases hrun : m s with
  | success a u =>
      obtain ⟨b, v, hrun', hq⟩ := hm.success hrun
      have hrest := hf a b u v hrun hq
      unfold Agree at hrest ⊢
      rwa [bind_apply, bind_apply, hrun, hrun']
  | failure u =>
      obtain ⟨v, hrun', he⟩ := hm.failure hrun
      apply agree_of_failure (u := u) (v := v) _ _ he
      · rw [bind_apply, hrun, Outcome.bind_failure]
      · rw [bind_apply, hrun', Outcome.bind_failure]
  | fault r =>
      apply agree_of_fault (r := r)
      rw [bind_apply, hrun, Outcome.bind_fault]

theorem agree_get {f : σ → Prog φ σ γ} {f' : τ → Prog φ τ δ} (hf : Agree (f s) (f' t) R E s t) :
    Agree (get >>= f) (get >>= f') R E s t := hf

theorem agree_ite {c c' : Prop} [Decidable c] [Decidable c'] (hc : c ↔ c')
    (hthen : c → Agree m m' Q E s t) (helse : ¬ c → Agree h h' Q E s t) :
    Agree (if c then m else h) (if c' then m' else h') Q E s t := by
  by_cases hpos : c
  · rw [if_pos hpos, if_pos (hc.mp hpos)]
    exact hthen hpos
  · rw [if_neg hpos, if_neg (hpos ∘ hc.mpr)]
    exact helse hpos

theorem agree_recover (hm : Agree m m' Q E' s t)
    (hh : ∀ u v, m s = .failure u → E' u v → Agree h h' Q E u v) :
    Agree (recover m h) (recover m' h') Q E s t := by
  cases hrun : m s with
  | success a u =>
      obtain ⟨b, v, hrun', hq⟩ := hm.success hrun
      exact agree_of_success (recover_success hrun) (recover_success hrun') hq
  | failure u =>
      obtain ⟨v, hrun', he⟩ := hm.failure hrun
      have hrest := hh u v hrun he
      unfold Agree at hrest ⊢
      rwa [recover_failure hrun, recover_failure hrun']
  | fault r => exact agree_of_fault (recover_fault hrun)

theorem agree_deferred {exit : Prog φ σ Unit} {exit' : Prog φ τ Unit}
    (hm : Agree m m' (fun a b => Agree exit exit' (fun _ _ => Q a b) E)
      (Agree exit exit' (fun _ _ => E) E) s t) :
    Agree (deferred exit m) (deferred exit' m') Q E s t := by
  unfold Agree deferred
  cases hrun : m s with
  | success a u =>
      obtain ⟨b, v, hrun', hexit⟩ := hm.success hrun
      rw [hrun']
      exact Outcome.Agrees.andThen (hexit.mono (fun _ _ x y hq => ⟨b, y, rfl, hq⟩) fun _ _ he => he)
  | failure u =>
      obtain ⟨v, hrun', hexit⟩ := hm.failure hrun
      rw [hrun']
      exact Outcome.Agrees.andThen (hexit.mono (fun _ _ x y he => ⟨y, rfl, he⟩) fun _ _ he => he)
  | fault r => trivial

theorem agree_withVar {ν' : Type} {init : ν} {init' : ν'} {exit : ν → Prog φ σ Unit}
    {exit' : ν' → Prog φ τ Unit} {m : Prog φ (σ × ν) α} {m' : Prog φ (τ × ν') β}
    (hm : Agree m m' (fun a b u v => Agree (exit u.2) (exit' v.2) (fun _ _ => Q a b) E u.1 v.1)
      (fun u v => Agree (exit u.2) (exit' v.2) (fun _ _ => E) E u.1 v.1) (s, init) (t, init')) :
    Agree (withVar init exit m) (withVar init' exit' m') Q E s t := by
  unfold Agree withVar
  cases hrun : m (s, init) with
  | success a u =>
      obtain ⟨b, v, hrun', hexit⟩ := hm.success hrun
      rw [hrun']
      exact Outcome.Agrees.andThen (hexit.mono (fun _ _ x y hq => ⟨b, y, rfl, hq⟩) fun _ _ he => he)
  | failure u =>
      obtain ⟨v, hrun', hexit⟩ := hm.failure hrun
      rw [hrun']
      exact Outcome.Agrees.andThen (hexit.mono (fun _ _ x y he => ⟨y, rfl, he⟩) fun _ _ he => he)
  | fault r => trivial

theorem agree_lift {ν' : Type} {x : ν} {y : ν'} {Q : α → β → σ × ν → τ × ν' → Prop}
    {E : σ × ν → τ × ν' → Prop}
    (hm : Agree m m' (fun a b u v => Q a b (u, x) (v, y)) (fun u v => E (u, x) (v, y)) s t) :
    Agree (lift m : Prog φ (σ × ν) α) (lift m' : Prog φ (τ × ν') β) Q E (s, x) (t, y) := by
  unfold Agree
  rw [lift_apply, lift_apply]
  cases hrun : m s with
  | success a u =>
      obtain ⟨b, v, hrun', hq⟩ := hm.success hrun
      rw [hrun']
      exact ⟨b, _, rfl, hq⟩
  | failure u =>
      obtain ⟨v, hrun', he⟩ := hm.failure hrun
      rw [hrun']
      exact ⟨_, rfl, he⟩
  | fault r => trivial

theorem agree_readVar {ν' : Type} {x : ν} {y : ν'} {Q : ν → ν' → σ × ν → τ × ν' → Prop}
    {E : σ × ν → τ × ν' → Prop} (hQ : Q x y (s, x) (t, y)) :
    Agree (readVar : Prog φ (σ × ν) ν) (readVar : Prog φ (τ × ν') ν') Q E (s, x) (t, y) :=
  ⟨y, _, rfl, hQ⟩

theorem agree_writeVar {ν' : Type} {x x' : ν} {y y' : ν'} {Q : Unit → Unit → σ × ν → τ × ν' → Prop}
    {E : σ × ν → τ × ν' → Prop} (hQ : Q () () (s, x') (t, y')) :
    Agree (writeVar x' : Prog φ (σ × ν) Unit) (writeVar y' : Prog φ (τ × ν') Unit) Q E
      (s, x) (t, y) :=
  ⟨(), _, rfl, hQ⟩

end

/-! ### Procedures that ignore a part of the state -/

/-- The run from `f s` is the run from `s`, seen through `f`. -/
def Ignores (f : σ → σ) (m : Prog φ σ α) : Prop := ∀ s, m (f s) = (m s).mapState f

section

variable {f : σ → σ} {m h : Prog φ σ α} {exit : Prog φ σ Unit} {s t : σ}

theorem Ignores.agree (hm : Ignores f m) (hst : f s = f t) :
    Agree m m (fun a b u v => a = b ∧ f u = f v) (fun u v => f u = f v) s t := by
  have heq : (m s).mapState f = (m t).mapState f := by
    rw [← hm s, ← hm t, hst]
  unfold Agree Outcome.Agrees
  cases hs : m s <;> cases ht : m t <;> simp [hs, ht] at heq ⊢
  · exact heq
  · exact heq

theorem ignores_pure (a : α) : Ignores f (pure a : Prog φ σ α) := fun _ => rfl

theorem ignores_fail : Ignores f (fail : Prog φ σ α) := fun _ => rfl

theorem ignores_abort (r : φ) : Ignores f (abort r : Prog φ σ α) := fun _ => rfl

theorem ignores_assert (c : Prop) [Decidable c] (r : φ) : Ignores f
    (assert c r : Prog φ σ Unit) := by
  unfold assert
  split
  · exact ignores_pure _
  · exact ignores_abort _

theorem ignores_ofExcept (e : Except φ α) : Ignores f (ofExcept e : Prog φ σ α) := by
  cases e with
  | ok a => exact ignores_pure a
  | error r => exact ignores_abort r

theorem ignores_modify {g : σ → σ} (hg : ∀ s, g (f s) = f (g s)) :
    Ignores f (modify g : Prog φ σ Unit) := fun s =>
  congrArg (Outcome.success ()) (hg s)

/-- Only what `f` keeps of the state may be read. -/
theorem ignores_get {k : σ → Prog φ σ β} (hk : ∀ s, k (f s) = k s) (hm : ∀ s, Ignores f (k s)) :
    Ignores f (get >>= k) := fun s => by
  change k (f s) (f s) = (k s s).mapState f
  rw [hk, hm s]

theorem Ignores.bind {k : α → Prog φ σ β} (hm : Ignores f m) (hk : ∀ a, Ignores f (k a)) :
    Ignores f (m >>= k) := fun s => by
  rw [bind_apply, bind_apply, hm s]
  cases m s with
  | success a u => exact hk a u
  | failure u => rfl
  | fault r => rfl

theorem Ignores.ite {c : Prop} [Decidable c] (hm : Ignores f m) (hh : Ignores f h) :
    Ignores f (if c then m else h) := by
  split
  · exact hm
  · exact hh

theorem Ignores.recover (hm : Ignores f m) (hh : Ignores f h) :
    Ignores f (recover m h) := fun s => by
  unfold Prog.recover
  rw [hm s]
  cases m s with
  | success a u => rfl
  | failure u => exact hh u
  | fault r => rfl

theorem Ignores.deferred (hexit : Ignores f exit) (hm : Ignores f m) :
    Ignores f (deferred exit m) := fun s => by
  unfold Prog.deferred
  rw [hm s]
  cases m s with
  | success a u =>
      dsimp only [Outcome.mapState_success]
      rw [hexit u]
      cases exit u <;> rfl
  | failure u =>
      dsimp only [Outcome.mapState_failure]
      rw [hexit u]
      cases exit u <;> rfl
  | fault r => rfl

end

/-! ### Procedures that return more often -/

/-- Where `m` returns, `m'` returns the same. -/
def Extends (m m' : Prog φ σ α) : Prop := ∀ s, (∃ r, m s = .fault r) ∨ m' s = m s

section

variable {m m' m'' : Prog φ σ α}

theorem Extends.refl (m : Prog φ σ α) : Extends m m := fun _ => Or.inr rfl

theorem Extends.trans (h : Extends m m') (h' : Extends m' m'') : Extends m m'' := by
  intro s
  rcases h s with hfault | heq
  · exact Or.inl hfault
  · rw [← heq]
    exact h' s

theorem extends_abort (r : φ) (m : Prog φ σ α) : Extends (abort r) m := fun _ => Or.inl ⟨r, rfl⟩

theorem Extends.bind {k k' : α → Prog φ σ β} (hm : Extends m m') (hk : ∀ a, Extends (k a) (k' a)) :
    Extends (m >>= k) (m' >>= k') := by
  intro s
  rcases hm s with ⟨r, hfault⟩ | heq
  · exact Or.inl ⟨r, by rw [bind_apply, hfault, Outcome.bind_fault]⟩
  · rw [bind_apply, bind_apply, heq]
    cases m s with
    | success a u => exact hk a u
    | failure u => exact Or.inr rfl
    | fault r => exact Or.inl ⟨r, rfl⟩

theorem Extends.ite {c : Prop} [Decidable c] {h h' : Prog φ σ α} (hm : Extends m m')
    (hh : Extends h h') :
    Extends (if c then m else h) (if c then m' else h') := by
  split
  · exact hm
  · exact hh

theorem Extends.recover (hm : Extends m m') (h : Prog φ σ α) :
    Extends (recover m h) (recover m' h) := by
  intro s
  rcases hm s with ⟨r, hfault⟩ | heq
  · exact Or.inl ⟨r, recover_fault hfault⟩
  · exact Or.inr (by simp only [Prog.recover, heq])

theorem Extends.deferred (exit : Prog φ σ Unit) (hm : Extends m m') :
    Extends (deferred exit m) (deferred exit m') := by
  intro s
  rcases hm s with ⟨r, hfault⟩ | heq
  · exact Or.inl ⟨r, by simp only [Prog.deferred, hfault]⟩
  · exact Or.inr (by simp only [Prog.deferred, heq])

theorem Extends.withVar {m m' : Prog φ (σ × ν) α} (init : ν) (exit : ν → Prog φ σ Unit)
    (hm : Extends m m') :
    Extends (withVar init exit m) (withVar init exit m') := by
  intro s
  rcases hm (s, init) with ⟨r, hfault⟩ | heq
  · exact Or.inl ⟨r, by simp only [Prog.withVar, hfault]⟩
  · exact Or.inr (by simp only [Prog.withVar, heq])

theorem Extends.lift (hm : Extends m m') :
    Extends (lift m : Prog φ (σ × ν) α) (Prog.lift m' : Prog φ (σ × ν) α) := by
  intro s
  rcases hm s.1 with ⟨r, hfault⟩ | heq
  · exact Or.inl ⟨r, by rw [lift_apply, hfault]; rfl⟩
  · exact Or.inr (by rw [lift_apply, lift_apply, heq])

/-- Of two procedures that a third extends, one returns what the other does. -/
theorem Extends.eq_of_returns {s : σ} (h : Extends m m'') (h' : Extends m' m'')
    (hm : ∀ r, m s ≠ .fault r)
    (hm' : ∀ r, m' s ≠ .fault r) : m s = m' s := by
  rcases h s with ⟨r, hfault⟩ | heq
  · exact absurd hfault (hm r)
  rcases h' s with ⟨r, hfault⟩ | heq'
  · exact absurd hfault (hm' r)
  · exact heq.symm.trans heq'

end

end Prog

end Wednesday.Lib
