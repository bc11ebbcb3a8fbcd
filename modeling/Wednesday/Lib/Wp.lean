import Wednesday.Lib.Prog

/-!
Weakest preconditions for fallible procedures. A procedure is judged by what
holds when it reports success, when it reports failure, and by the faults it
may run into.
-/

namespace Wednesday.Lib

namespace Prog

variable {φ σ ν α β : Type}

/-- The run of `m` from `s` ends in a report as `Q` and `E` say, or in a fault
that `F` admits. -/
def wp (m : Prog φ σ α) (Q : α → σ → Prop) (E : σ → Prop) (F : φ → Prop) (s : σ) : Prop :=
  match m s with
  | .success a t => Q a t
  | .failure t => E t
  | .fault r => F r

variable {m h : Prog φ σ α} {f : α → Prog φ σ β} {Q Q' : α → σ → Prop} {R : β → σ → Prop}
  {E E' : σ → Prop} {F F' : φ → Prop} {s t : σ}

theorem wp_mono (hm : wp m Q E F s) (hQ : ∀ a t, Q a t → Q' a t) (hE : ∀ t, E t → E' t)
    (hF : ∀ r, F r → F' r) : wp m Q' E' F' s := by
  unfold wp at hm ⊢
  split
  · exact hQ _ _ (by simpa [*] using hm)
  · exact hE _ (by simpa [*] using hm)
  · exact hF _ (by simpa [*] using hm)

theorem wp.and (h : wp m Q E F s) (h' : wp m Q' E' F' s) :
    wp m (fun a t => Q a t ∧ Q' a t) (fun t => E t ∧ E' t) (fun r => F r ∧ F' r) s := by
  unfold wp at h h' ⊢
  cases hm : m s <;> simp only [hm] at h h' ⊢ <;> exact ⟨h, h'⟩

/-- Of a run only its outcome counts. -/
theorem wp_of_eq {m' : Prog φ σ α} (hrun : m s = m' t) (hm : wp m' Q E F t) : wp m Q E F s := by
  unfold wp at hm ⊢
  rwa [hrun]

theorem wp.success {a : α} (hm : wp m Q E F s) (h : m s = .success a t) : Q a t := by
  simpa [wp, h] using hm

theorem wp.failure (hm : wp m Q E F s) (h : m s = .failure t) : E t := by
  simpa [wp, h] using hm

theorem wp.fault {r : φ} (hm : wp m Q E F s) (h : m s = .fault r) : F r := by
  simpa [wp, h] using hm

theorem wp.exists_success (hm : wp m Q (fun _ => False) (fun _ => False) s) :
    ∃ a t, m s = .success a t ∧ Q a t := by
  unfold wp at hm
  cases hrun : m s with
  | success a t =>
      rw [hrun] at hm
      exact ⟨a, t, rfl, hm⟩
  | failure t => simp [hrun] at hm
  | fault r => simp [hrun] at hm

theorem wp_true : wp m (fun _ _ => True) (fun _ => True) (fun _ => True) s := by
  unfold wp
  split <;> trivial

/-! ### The constructs -/

@[simp] theorem wp_pure (a : α) : wp (pure a) Q E F s ↔ Q a s := Iff.rfl

@[simp] theorem wp_bind : wp (m >>= f) R E F s ↔ wp m (fun a => wp (f a) R E F) E F s := by
  unfold wp
  rw [bind_apply]
  cases m s <;> rfl

@[simp] theorem wp_get {Q : σ → σ → Prop} : wp get Q E F s ↔ Q s s := Iff.rfl

@[simp] theorem wp_modify {Q : Unit → σ → Prop} (g : σ → σ) :
    wp (modify g) Q E F s ↔ Q () (g s) := Iff.rfl

@[simp] theorem wp_fail : wp fail Q E F s ↔ E s := Iff.rfl

@[simp] theorem wp_abort (r : φ) : wp (abort r) Q E F s ↔ F r := Iff.rfl

@[simp] theorem wp_assert {Q : Unit → σ → Prop} (c : Prop) [Decidable c] (r : φ) :
    wp (assert c r) Q E F s ↔ if c then Q () s else F r := by
  unfold assert
  split <;> rfl

theorem wp_ofExcept (e : Except φ α) :
    wp (ofExcept e) Q E F s ↔ match e with
      | .ok a => Q a s
      | .error r => F r := by
  cases e <;> rfl

@[simp] theorem wp_recover : wp (recover m h) Q E F s ↔ wp m Q (wp h Q E F) F s := by
  unfold wp recover
  cases m s <;> rfl

@[simp] theorem wp_deferred {exit : Prog φ σ Unit} :
    wp (deferred exit m) Q E F s ↔
      wp m (fun a => wp exit (fun _ => Q a) E F) (wp exit (fun _ => E) E F) F s := by
  unfold wp deferred
  cases m s with
  | success a t =>
      dsimp only
      cases exit t <;> rfl
  | failure t =>
      dsimp only
      cases exit t <;> rfl
  | fault r => rfl

@[simp] theorem wp_withVar {init : ν} {exit : ν → Prog φ σ Unit} {m : Prog φ (σ × ν) α} :
    wp (withVar init exit m) Q E F s ↔
      wp m (fun a t => wp (exit t.2) (fun _ => Q a) E F t.1)
        (fun t => wp (exit t.2) (fun _ => E) E F t.1) F (s, init) := by
  unfold wp withVar
  cases m (s, init) with
  | success a t =>
      dsimp only
      cases exit t.2 t.1 <;> rfl
  | failure t =>
      dsimp only
      cases exit t.2 t.1 <;> rfl
  | fault r => rfl

@[simp] theorem wp_lift {Q : α → σ × ν → Prop} {E : σ × ν → Prop} {s : σ × ν} :
    wp (lift m) Q E F s ↔ wp m (fun a t => Q a (t, s.2)) (fun t => E (t, s.2)) F s.1 := by
  unfold wp lift
  cases m s.1 <;> rfl

@[simp] theorem wp_readVar {Q : ν → σ × ν → Prop} {E : σ × ν → Prop} {s : σ × ν} :
    wp readVar Q E F s ↔ Q s.2 s := Iff.rfl

@[simp] theorem wp_writeVar {Q : Unit → σ × ν → Prop} {E : σ × ν → Prop} {s : σ × ν} (v : ν) :
    wp (writeVar v) Q E F s ↔ Q () (s.1, v) := Iff.rfl

theorem wp_ite {c : Prop} [Decidable c] {m' : Prog φ σ α} :
    wp (if c then m else m') Q E F s ↔ if c then wp m Q E F s else wp m' Q E F s := by
  split <;> rfl

/-! ### What a procedure keeps -/

/-- Whichever report the procedure makes, `I` holds again. -/
def Preserves (I : σ → Prop) (m : Prog φ σ α) : Prop :=
  ∀ s, I s → wp m (fun _ => I) I (fun _ => True) s

section

variable {I : σ → Prop} {exit : Prog φ σ Unit}

theorem Preserves.success {a : α} (hm : Preserves I m) (hs : I s) (h : m s = .success a t) : I t :=
  wp.success (hm s hs) h

theorem Preserves.failure (hm : Preserves I m) (hs : I s) (h : m s = .failure t) : I t :=
  wp.failure (hm s hs) h

theorem preserves_pure (a : α) : Preserves I (pure a : Prog φ σ α) := fun _ hs => hs

theorem preserves_get : Preserves I (get : Prog φ σ σ) := fun _ hs => hs

theorem preserves_abort (r : φ) : Preserves I (abort r : Prog φ σ α) := fun _ _ => trivial

theorem preserves_modify {g : σ → σ} (h : ∀ s, I s → I (g s)) :
    Preserves I (modify g : Prog φ σ Unit) := fun s hs => h s hs

theorem preserves_assert (c : Prop) [Decidable c] (r : φ) : Preserves I
    (assert c r : Prog φ σ Unit) := by
  intro s hs
  rw [wp_assert]
  split
  · exact hs
  · trivial

theorem preserves_ofExcept (e : Except φ α) : Preserves I (ofExcept e : Prog φ σ α) := by
  intro s hs
  rw [wp_ofExcept]
  cases e with
  | ok a => exact hs
  | error r => trivial

theorem Preserves.bind (hm : Preserves I m) (hf : ∀ a, Preserves I (f a)) :
    Preserves I (m >>= f) := fun s hs =>
  wp_bind.mpr (wp_mono (hm s hs) (fun a t ht => hf a t ht) (fun _ ht => ht) fun _ hr => hr)

/-- A check that may end a call before its rest. -/
theorem Preserves.unless {c : Prop} [Decidable c] {m' : Prog φ σ β} (hm : Preserves I m)
    (hm' : Preserves I m') :
    Preserves I (if c then m >>= fun _ => m' else m') := by
  split
  · exact hm.bind fun _ => hm'
  · exact hm'

theorem Preserves.recover (hm : Preserves I m) (hh : Preserves I h) :
    Preserves I (recover m h) := fun s hs =>
  wp_recover.mpr (wp_mono (hm s hs) (fun _ _ ht => ht) (fun t ht => hh t ht) fun _ hr => hr)

theorem Preserves.deferred (hexit : Preserves I exit) (hm : Preserves I m) :
    Preserves I (deferred exit m) :=
  fun s hs => wp_deferred.mpr
    (wp_mono (hm s hs) (fun _ t ht => hexit t ht) (fun t ht => hexit t ht) fun _ hr => hr)

theorem Preserves.lift (hm : Preserves I m) :
    Preserves (fun s : σ × ν => I s.1) (lift m : Prog φ (σ × ν) α) := fun s hs =>
  wp_lift.mpr (hm s.1 hs)

theorem Preserves.withVar {init : ν} {exit : ν → Prog φ σ Unit} {m : Prog φ (σ × ν) α}
    (hexit : ∀ v, Preserves I (exit v)) (hm : Preserves (fun s : σ × ν => I s.1) m) :
    Preserves I (withVar init exit m) := fun s hs =>
  wp_withVar.mpr (wp_mono (hm (s, init) hs) (fun _ t ht => hexit t.2 t.1 ht)
    (fun t ht => hexit t.2 t.1 ht) fun _ hr => hr)

theorem preserves_readVar {I : σ × ν → Prop} : Preserves I (readVar : Prog φ (σ × ν) ν) :=
  fun _ hs => hs

theorem preserves_writeVar (v : ν) :
    Preserves (fun s : σ × ν => I s.1) (writeVar v : Prog φ (σ × ν) Unit) := fun _ hs => hs

end

/-! ### Procedures that are not refused -/

/-- Where `I` holds the procedure reports no failure, and `I` holds again. -/
def Grants (I : σ → Prop) (m : Prog φ σ α) : Prop :=
  ∀ s, I s → wp m (fun _ => I) (fun _ => False) (fun _ => True) s

section

variable {I : σ → Prop}

theorem Grants.preserves (hm : Grants I m) : Preserves I m := fun s hs =>
  wp_mono (hm s hs) (fun _ _ ht => ht) (fun _ ht => ht.elim) fun _ hr => hr

theorem grants_pure (a : α) : Grants I (pure a : Prog φ σ α) := fun _ hs => hs

theorem grants_get : Grants I (get : Prog φ σ σ) := fun _ hs => hs

theorem grants_abort (r : φ) : Grants I (abort r : Prog φ σ α) := fun _ _ => trivial

theorem grants_modify {g : σ → σ} (h : ∀ s, I s → I (g s)) : Grants I (modify g : Prog φ σ Unit) :=
  fun s hs => h s hs

theorem grants_assert (c : Prop) [Decidable c] (r : φ) : Grants I (assert c r : Prog φ σ Unit) := by
  intro s hs
  rw [wp_assert]
  split
  · exact hs
  · trivial

theorem Grants.bind (hm : Grants I m) (hf : ∀ a, Grants I (f a)) : Grants I (m >>= f) := fun s hs =>
  wp_bind.mpr (wp_mono (hm s hs) (fun a t ht => hf a t ht) (fun _ ht => ht) fun _ hr => hr)

theorem Grants.recover (hm : Grants I m) : Grants I (recover m h) := fun s hs =>
  wp_recover.mpr (wp_mono (hm s hs) (fun _ _ ht => ht) (fun _ ht => ht.elim) fun _ hr => hr)

end

/-! ### Procedures that report success -/

theorem recover_eq_success {a : α} (hh : ∀ t b u, h t ≠ .success b u) :
    recover m h s = .success a t ↔ m s = .success a t := by
  unfold recover
  cases m s with
  | success b u => exact Iff.rfl
  | failure u => simpa using hh u a t
  | fault r => simp

theorem withVar_eq_success {init : ν} {exit : ν → Prog φ σ Unit} {m : Prog φ (σ × ν) α} {a : α} :
    withVar init exit m s = .success a t ↔
      ∃ u v, m (s, init) = .success a (u, v) ∧ exit v u = .success () t := by
  unfold withVar
  cases m (s, init) with
  | success b u =>
      simp only [Outcome.andThen_eq_success, Outcome.success.injEq]
      constructor
      · rintro ⟨u', hexit, rfl, rfl⟩
        exact ⟨u.1, u.2, ⟨rfl, rfl⟩, hexit⟩
      · rintro ⟨u', v, ⟨rfl, rfl⟩, hexit⟩
        exact ⟨t, hexit, rfl, rfl⟩
  | failure u => simp [Outcome.andThen_eq_success]
  | fault r => simp

theorem lift_eq_success {s t : σ × ν} {a : α} :
    (lift m : Prog φ (σ × ν) α) s = .success a t ↔ m s.1 = .success a t.1 ∧ t.2 = s.2 := by
  obtain ⟨t, v⟩ := t
  unfold lift
  cases m s.1 with
  | success b u =>
      simp only [Outcome.mapState_success, Outcome.success.injEq, Prod.mk.injEq]
      exact ⟨fun h => ⟨⟨h.1, h.2.1⟩, h.2.2.symm⟩, fun h => ⟨h.1.1, h.1.2, h.2.symm⟩⟩
  | failure u => simp
  | fault r => simp

/-! ### Procedures that report failure -/

theorem deferred_eq_failure {exit : Prog φ σ Unit} (hexit : ∀ u v, exit u ≠ .failure v)
    (h : deferred exit m s = .failure t) : ∃ u, m s = .failure u ∧ exit u = .success () t := by
  unfold deferred at h
  cases hm : m s with
  | success a u =>
      simp only [hm, Outcome.andThen_eq_failure, reduceCtorEq, and_false,
        exists_false, or_false] at h
      exact absurd h (hexit u t)
  | failure u =>
      simp only [hm, Outcome.andThen_eq_failure, Outcome.failure.injEq] at h
      rcases h with h | ⟨v, hrun, rfl⟩
      · exact absurd h (hexit u t)
      · exact ⟨u, rfl, hrun⟩
  | fault r => simp [hm] at h

theorem withVar_eq_failure {init : ν} {exit : ν → Prog φ σ Unit} {m : Prog φ (σ × ν) α}
    (hexit : ∀ v u t, exit v u ≠ .failure t) (h : withVar init exit m s = .failure t) :
    ∃ u v, m (s, init) = .failure (u, v) ∧ exit v u = .success () t := by
  unfold withVar at h
  cases hm : m (s, init) with
  | success a u =>
      simp only [hm, Outcome.andThen_eq_failure, reduceCtorEq, and_false,
        exists_false, or_false] at h
      exact absurd h (hexit u.2 u.1 t)
  | failure u =>
      simp only [hm, Outcome.andThen_eq_failure, Outcome.failure.injEq] at h
      rcases h with h | ⟨v, hrun, rfl⟩
      · exact absurd h (hexit u.2 u.1 t)
      · exact ⟨u.1, u.2, rfl, hrun⟩
  | fault r => simp [hm] at h

theorem lift_eq_failure {s t : σ × ν} :
    (lift m : Prog φ (σ × ν) α) s = .failure t ↔ m s.1 = .failure t.1 ∧ t.2 = s.2 := by
  obtain ⟨t, v⟩ := t
  unfold lift
  cases m s.1 with
  | success b u => simp
  | failure u =>
      simp only [Outcome.mapState_failure, Outcome.failure.injEq, Prod.mk.injEq]
      exact ⟨fun h => ⟨h.1, h.2.symm⟩, fun h => ⟨h.1, h.2.symm⟩⟩
  | fault r => simp

end Prog

end Wednesday.Lib
