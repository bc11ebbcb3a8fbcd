import Wednesday.Lib.Runs
import Wednesday.Lib.Wp
import Wednesday.Btree

/-!
`errdefer`. The guard of a cleanup reads the error code of the thread, so a
cleanup runs on failure only as long as the code says how the call at hand
went: a call that starts with a clear code leaves it clear on success and sets
it on failure.
-/

namespace Wednesday

open Lib Prog

section

variable {σ ν α β : Type} {π : σ → Sys} {S E : Cleanups → Cleanups → Prop}

/-- From a clear error code the procedure ends with a clear code on success and
with an error code on failure, and does to the cleanups what `S` and `E` say. -/
def Sound (π : σ → Sys) (S E : Cleanups → Cleanups → Prop) (m : Prog Fault σ α) : Prop :=
  ∀ s, errorGetCode (π s).err = 0 →
    wp m (fun _ t => errorGetCode (π t).err = 0 ∧ S (π s).cleanups (π t).cleanups)
      (fun t => errorGetCode (π t).err ≠ 0 ∧ E (π s).cleanups (π t).cleanups) (fun _ => True) s

/-- A procedure without cleanups of its own. -/
def Plain (π : σ → Sys) (m : Prog Fault σ α) : Prop := Sound π Eq Eq m

/-- A procedure that neither reports failure nor touches the error state. -/
def Neutral (m : Call α) : Prop :=
  ∀ s, wp m (fun _ t => t.err = s.err ∧ t.cleanups = s.cleanups) (fun _ => False) (fun _ => True) s

theorem Sound.mono {S' E' : Cleanups → Cleanups → Prop} {m : Prog Fault σ α} (hm : Sound π S E m)
    (hS : ∀ c d, S c d → S' c d) (hE : ∀ c d, E c d → E' c d) : Sound π S' E' m := fun s hs =>
  wp_mono (hm s hs) (fun _ _ h => ⟨h.1, hS _ _ h.2⟩) (fun _ h => ⟨h.1, hE _ _ h.2⟩) fun _ h => h

theorem Plain.sound {m : Prog Fault σ α} (hm : Plain π m) (hS : ∀ c, S c c) (hE : ∀ c, E c c) :
    Sound π S E m :=
  Sound.mono hm (fun c _ h => h ▸ hS c) (fun c _ h => h ▸ hE c)

/-! ### The constructs -/

theorem Sound.bind {m : Prog Fault σ α} {f : α → Prog Fault σ β} (hm : Sound π Eq E m)
    (hf : ∀ a, Sound π S E (f a)) : Sound π S E (m >>= f) := by
  intro s hs
  rw [wp_bind]
  refine wp_mono (hm s hs) (fun a t ht => ?_) (fun _ h => h) fun _ h => h
  obtain ⟨hcode, hclean⟩ := ht
  rw [hclean]
  exact hf a t hcode

theorem Plain.then {m : Prog Fault σ α} {f : α → Prog Fault σ β} (hm : Plain π m)
    (hf : ∀ a, Sound π S E (f a)) (hE : ∀ c, E c c) : Sound π S E (m >>= f) :=
  Sound.bind (hm.sound (fun _ => rfl) hE) hf

theorem Plain.bind {m : Prog Fault σ α} {f : α → Prog Fault σ β} (hm : Plain π m)
    (hf : ∀ a, Plain π (f a)) : Plain π (m >>= f) :=
  Sound.bind hm hf

theorem plain_pure (a : α) : Plain π (pure a : Prog Fault σ α) := fun _ hs => ⟨hs, rfl⟩

theorem plain_abort (r : Fault) : Plain π (abort r : Prog Fault σ α) := fun _ _ => trivial

theorem plain_get : Plain π (get : Prog Fault σ σ) := fun _ hs => ⟨hs, rfl⟩

theorem plain_assert (c : Prop) [Decidable c] (r : Fault) :
    Plain π (assert c r : Prog Fault σ Unit) := by
  unfold Lib.Prog.assert
  split
  · exact plain_pure _
  · exact plain_abort _

theorem plain_ofExcept (e : Except Fault α) : Plain π (ofExcept e : Prog Fault σ α) := by
  cases e with
  | ok a => exact plain_pure a
  | error r => exact plain_abort r

theorem plain_modify {f : Sys → Sys} (herr : ∀ s, (f s).err = s.err)
    (hclean : ∀ s, (f s).cleanups = s.cleanups) : Plain id (modify f : Call Unit) := fun s hs =>
  ⟨(congrArg errorGetCode (herr s)).trans hs, (hclean s).symm⟩

theorem Neutral.plain {m : Call α} (hm : Neutral m) : Plain id m := fun s hs =>
  wp_mono (hm s) (fun _ _ h => ⟨(congrArg errorGetCode h.1).trans hs, h.2.symm⟩)
    (fun _ h => h.elim) fun _ h => h

theorem Sound.lift {m : Call α} (hm : Sound id S E m) :
    Sound (Prod.fst (β := ν)) S E (Prog.lift m : Prog Fault (Sys × ν) α) := fun s hs =>
  wp_lift.mpr (hm s.1 hs)

theorem plain_readVar : Plain (Prod.fst (β := ν)) (readVar : Prog Fault (Sys × ν) ν) :=
  fun _ hs => ⟨hs, rfl⟩

theorem plain_writeVar (v : ν) : Plain (Prod.fst (β := ν))
    (writeVar v : Prog Fault (Sys × ν) Unit) :=
  fun _ hs => ⟨hs, rfl⟩

/-- An exit action that leaves the error state alone may run on both ends. -/
theorem Sound.deferred {exit : Call Unit} {m : Call α} (hexit : Neutral exit)
    (hm : Sound id S E m) : Sound id S E (deferred exit m) := by
  intro s hs
  rw [wp_deferred]
  refine wp_mono (hm s hs) (fun a t ht => ?_) (fun t ht => ?_) fun _ h => h
  · exact wp_mono (hexit t) (fun _ u hu => ⟨(congrArg errorGetCode hu.1).trans ht.1, hu.2 ▸ ht.2⟩)
      (fun _ h => h.elim) fun _ h => h
  · refine wp_mono (hexit t) (fun _ u hu => ⟨?_, hu.2 ▸ ht.2⟩) (fun _ h => h.elim) fun _ h => h
    exact (congrArg errorGetCode hu.1).trans_ne ht.1

theorem Sound.withVar {init : ν} {exit : ν → Call Unit} {m : Prog Fault (Sys × ν) α}
    (hexit : ∀ v, Neutral (exit v)) (hm : Sound Prod.fst S E m) :
    Sound id S E (withVar init exit m) := by
  intro s hs
  rw [wp_withVar]
  refine wp_mono (hm (s, init) hs) (fun a t ht => ?_) (fun t ht => ?_) fun _ h => h
  · exact wp_mono (hexit t.2 t.1)
      (fun _ u hu => ⟨(congrArg errorGetCode hu.1).trans ht.1, hu.2 ▸ ht.2⟩)
      (fun _ h => h.elim) fun _ h => h
  · refine wp_mono (hexit t.2 t.1) (fun _ u hu => ⟨?_, hu.2 ▸ ht.2⟩)
      (fun _ h => h.elim) fun _ h => h
    exact (congrArg errorGetCode hu.1).trans_ne ht.1

end

/-! ### The macros -/

section

variable {α ν : Type} {S E : Cleanups → Cleanups → Prop}

/-- A report sets the code. -/
theorem wp_failure {site : Site} {code : Int} {texts : List String} {s : Sys}
    {Q : α → Sys → Prop} {P : Sys → Prop} {F : Fault → Prop} (hcode : code ≠ 0)
    (hP : ∀ e, errorGetCode e = code → P { s with err := e }) :
    wp (failure site code texts : Call α) Q P F s := by
  obtain ⟨e, he, hcode'⟩ := reportFailure_ok s.err site texts hcode
  simp only [failure, wp_bind, wp_get, wp_ofExcept, he, wp_modify, wp_fail]
  exact hP e hcode'

theorem plain_failure {site : Site} {code : Int} {texts : List String} (hcode : code ≠ 0) :
    Plain id (failure site code texts : Call α) := fun _ _ =>
  wp_failure hcode fun _ he => ⟨he.trans_ne hcode, rfl⟩

theorem plain_ensure {c : Prop} [Decidable c] (site : Site) (text : String) :
    Plain id (ensure c site text) := by
  unfold ensure
  split
  · exact plain_pure _
  · exact plain_failure (by decide)

/-- A failure passed on keeps its code. -/
theorem Sound.tryCall {site : Site} {text : String} {m : Call α} (hm : Sound id S E m) :
    Sound id S E (tryCall site text m) := by
  intro s hs
  rw [Wednesday.tryCall, wp_recover]
  refine wp_mono (hm s hs) (fun _ _ h => h) (fun t ht => ?_) fun _ h => h
  rw [wp_bind, wp_get]
  exact wp_failure ht.1 fun e he => ⟨he.trans_ne ht.1, ht.2⟩

theorem Plain.handleForward {site : Site} {text : String} {m : Call α} {body : Call Unit}
    (hm : Plain id m) (hbody : Neutral body) : Plain id (handleForward site text m body) := by
  intro s hs
  rw [Wednesday.handleForward, wp_recover]
  refine wp_mono (hm s hs) (fun _ _ h => h) (fun t ht => ?_) fun _ h => h
  rw [wp_bind]
  refine wp_mono (hbody t) (fun _ u hu => ?_) (fun _ h => h.elim) fun _ h => h
  rw [wp_bind, wp_get]
  have hcode : errorGetCode u.err ≠ 0 := (congrArg errorGetCode hu.1).trans_ne ht.1
  exact wp_failure hcode fun e he => ⟨he.trans_ne hcode, ht.2.trans hu.2.symm⟩

/-! ### Cleanups -/

/-- On success none of the cleanups registered has run. -/
def NoneRan (c d : Cleanups) : Prop := d.ran = c.ran

/-- On failure all cleanups registered have run. -/
def AllRan (c d : Cleanups) : Prop := d.ran + c.registered = c.ran + d.registered

/-- A procedure whose cleanups run exactly when it reports failure. -/
def Tidy (m : Call α) : Prop := Sound id NoneRan AllRan m

theorem noneRan_refl (c : Cleanups) : NoneRan c c := rfl

theorem allRan_refl (c : Cleanups) : AllRan c c := rfl

theorem Plain.tidy {m : Call α} (hm : Plain id m) : Tidy m := hm.sound noneRan_refl allRan_refl

/-- The guard of a cleanup after a success. -/
theorem wp_deferGuard_clear {cleanup : Call Unit} {Q : Unit → Sys → Prop} {P : Sys → Prop}
    {F : Fault → Prop} {s : Sys} (hs : errorGetCode s.err = 0) (hQ : Q () s) :
    wp (deferGuard cleanup) Q P F s := by
  rw [deferGuard, wp_bind, wp_get, if_pos hs]
  exact hQ

/-- The guard of a cleanup after a failure. -/
theorem wp_deferGuard_set {cleanup : Call Unit} {P : Sys → Prop} {s : Sys}
    (hcleanup : Neutral cleanup) (hs : errorGetCode s.err ≠ 0)
    (hP : ∀ t : Sys, t.err = s.err → t.cleanups = ⟨s.cleanups.registered, s.cleanups.ran + 1⟩ →
      P t) :
    wp (deferGuard cleanup) (fun _ => P) P (fun _ => True) s := by
  rw [deferGuard, wp_bind, wp_get, if_neg hs, wp_bind, wp_modify]
  exact wp_mono (hcleanup _) (fun _ t ht => hP t ht.1 ht.2) (fun _ h => h.elim) fun _ h => h

theorem Tidy.errdefer {cleanup : Call Unit} {m : Call α} (hcleanup : Neutral cleanup)
    (hm : Tidy m) : Tidy (errdefer cleanup m) := by
  intro s hs
  rw [Wednesday.errdefer, wp_bind, registerCleanup, wp_modify, wp_deferred]
  refine wp_mono (hm _ hs) (fun a t ht => ?_) (fun t ht => ?_) fun _ h => h
  · exact wp_deferGuard_clear ht.1 ht
  · refine wp_deferGuard_set hcleanup ht.1 fun u herr hclean => ⟨herr ▸ ht.1, ?_⟩
    have hran := ht.2
    simp only [AllRan, id_eq, hclean] at hran ⊢
    omega

theorem Tidy.errdeferVar {init : ν} {cleanup : ν → Call Unit} {m : Prog Fault (Sys × ν) α}
    (hcleanup : ∀ v, Neutral (cleanup v)) (hm : Sound Prod.fst NoneRan AllRan m) :
    Tidy (errdeferVar init cleanup m) := by
  intro s hs
  rw [Wednesday.errdeferVar, wp_bind, registerCleanup, wp_modify, wp_withVar]
  refine wp_mono (hm (_, init) hs) (fun a t ht => ?_) (fun t ht => ?_) fun _ h => h
  · exact wp_deferGuard_clear ht.1 ht
  · refine wp_deferGuard_set (hcleanup t.2) ht.1 fun u herr hclean => ⟨herr ▸ ht.1, ?_⟩
    have hran := ht.2
    simp only [AllRan, id_eq, hclean] at hran ⊢
    omega

end

end Wednesday
