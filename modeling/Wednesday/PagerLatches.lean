import Wednesday.PagerSafety

/-!
The words of the latches in `pager.c`: a step that does not count one shared
holder more than a latch has room for jams no latch.
-/

namespace Wednesday

open Lib SharedPager

/-- The step changed no word, or left a word that is not jammed. -/
structure FreshWords (s s' : SharedPager) : Prop where
  entries : ∀ h, s'.entryLatch h = s.entryLatch h ∨ s'.entryLatch h ≠ jammed
  pages : ∀ f, s'.latch f = s.latch f ∨ s'.latch f ≠ jammed

namespace FreshWords

variable {s s' : SharedPager} {w : Bool} {word word' : Int} {readers writers : Nat}

theorem same (hentries : s'.entryLatch = s.entryLatch) (hpages : s'.latch = s.latch) :
    FreshWords s s' :=
  ⟨fun h => Or.inl (congrFun hentries h), fun f => Or.inl (congrFun hpages f)⟩

theorem entry (h : Nat) (hword : word ≠ jammed) : FreshWords s (s.setEntryLatch h word) where
  entries g := by
    by_cases hg : g = h
    · subst hg
      exact Or.inr ((Function.update_self ..).trans_ne hword)
    · exact Or.inl (Function.update_of_ne hg ..)
  pages _ := Or.inl rfl

theorem page (f : Nat) (hword : word ≠ jammed) : FreshWords s (s.setLatch f word) where
  entries _ := Or.inl rfl
  pages g := by
    by_cases hg : g = f
    · subst hg
      exact Or.inr ((Function.update_self ..).trans_ne hword)
    · exact Or.inl (Function.update_of_ne hg ..)

theorem acquire (hc : Counted word readers writers) (h : acquireWord word w = some word')
    (hfull : w = false → word ≠ 2 ^ 31 - 1) : word' ≠ jammed := by
  cases w with
  | true =>
      simp only [acquireWord, writeWord, if_true, Option.ite_none_right_eq_some] at h
      obtain ⟨-, h⟩ := h
      cases h
      decide
  | false =>
      simp only [acquireWord, readWord, Bool.false_eq_true, if_false,
        Option.ite_none_right_eq_some] at h
      obtain ⟨hle, h⟩ := h
      cases h
      exact hc.acquireRead_ne_jammed hle (hfull rfl)

end FreshWords

variable {κ : Type} [Fintype κ] [DecidableEq κ] {s : SharedPager} {v : κ → View} {c : κ}
  {held : List (PageRef × Bool)} {next : SharedPager × Client} {ok : Bool}

theorem freshWords_start {cl : Client} {call : PagerCall} (h : cl.start s call = some next) :
    FreshWords s next.1 := by
  cases call with
  | fix id exclusive =>
      rw [Client.start] at h
      split at h <;> cases h <;> exact .same rfl rfl
  | next =>
      rw [Client.start] at h
      split at h <;> cases h <;> exact .same rfl rfl
  | evict =>
      cases h
      exact .same rfl rfl
  | unfix i =>
      obtain ⟨p, -, rfl⟩ := Option.map_eq_some_iff.mp h
      exact .same rfl rfl

omit [DecidableEq κ] in
theorem freshWords_fixStep {r : FixCall} {p : FixPoint} (hc : Consistent s v)
    (hv : v c = (⟨.fix r p, held⟩ : Client).view s.mask) (hu : ∀ h, s.entryLatch h ≠ jammed)
    (h : Client.fixStep s ⟨.fix r p, held⟩ ok r p = some next)
    (hfit : ¬ Client.overruns s ⟨.fix r p, held⟩) : FreshWords s next.1 := by
  cases p with
  | readEntry =>
      obtain ⟨word, hword, rfl⟩ := Option.map_eq_some_iff.mp h
      exact .entry _ (FreshWords.acquire (w := false) (hc.entries _) hword fun _ hw =>
        hfit (decide_eq_true hw))
  | pageLatch path f =>
      obtain ⟨word, hword, rfl⟩ := Option.map_eq_some_iff.mp h
      have hfound := hc.facts.holds c
      rw [hv] at hfound
      have hpage := hc.pages.pages _ _ hfound.1 hfound.2
      exact .page _ (FreshWords.acquire hpage.counted hword fun hr hw =>
        hfit (decide_eq_true ⟨hr, hw⟩))
  | readDrop result =>
      cases h
      have hmem : (s.hash r.id, false) ∈ total View.entries v :=
        mem_total.mpr ⟨c, View.mem_entries.mpr (by rw [hv]; rfl)⟩
      exact .entry _ ((hc.entries _).releaseRead_ne_jammed (Multiset.count_ne_zero.mpr hmem) (hu _))
  | writeEntry =>
      obtain ⟨word, hword, rfl⟩ := Option.map_eq_some_iff.mp h
      exact .entry _ (FreshWords.acquire (w := true) (hc.entries _) hword fun hw => by cases hw)
  | writeDrop result =>
      cases h
      exact .entry _ (by decide)
  | lookup =>
      rw [Client.fixStep] at h
      split at h
      · cases h
        exact .same rfl rfl
      · split at h <;> cases h <;> exact .same rfl rfl
  | relookup =>
      rw [Client.fixStep] at h
      split at h
      · cases h
        exact .same rfl rfl
      · split at h <;> cases h <;> exact .same rfl rfl
  | exchangeCount count =>
      rw [Client.fixStep] at h
      split at h <;> cases h <;> exact .same rfl rfl
  | readAssert result =>
      rw [Client.fixStep] at h
      split at h <;> cases h <;> exact .same rfl rfl
  | writeAssert result =>
      rw [Client.fixStep] at h
      split at h <;> cases h <;> exact .same rfl rfl
  | loadCount =>
      cases h
      exact .same rfl rfl
  | subCount result =>
      cases h
      exact .same rfl rfl
  | pageFlag path f =>
      cases h
      exact .same rfl rfl

theorem freshWords_createStep {r : FixCall} {p : CreatePoint} {cl : Client}
    (h : cl.createStep s ok r p = some next) : FreshWords s next.1 := by
  cases p with
  | latch f =>
      cases h
      exact .page _ (by decide)
  | undo f =>
      cases h
      exact .same rfl rfl
  | insert f =>
      rw [Client.createStep] at h
      split at h
      · cases h
        exact .same rfl rfl
      · split at h <;> cases h <;> exact .same rfl rfl
  | _ =>
      rw [Client.createStep] at h
      split at h <;> cases h <;> exact .same rfl rfl

omit [DecidableEq κ] in
theorem freshWords_evictStep {caller : Option FixCall} {n : Nat} {p : EvictPoint} {cl : Client}
    (hc : Consistent s v) (h : cl.evictStep s caller n p = some next) : FreshWords s next.1 := by
  cases p with
  | entry f id =>
      obtain ⟨word, hword, rfl⟩ := Option.map_eq_some_iff.mp h
      exact .entry _ (FreshWords.acquire (w := true) (hc.entries _) hword fun hw => by cases hw)
  | drop f id after =>
      cases h
      exact .entry _ (by decide)
  | next =>
      cases n with
      | zero =>
          cases h
          exact .same rfl rfl
      | succ n =>
          cases h
          exact .same rfl rfl
  | spend f id =>
      cases h
      exact .same rfl rfl
  | reload f id =>
      cases h
      exact .same rfl rfl
  | store f id =>
      cases h
      exact .same rfl rfl
  | _ =>
      rw [Client.evictStep] at h
      split at h <;> cases h <;> exact .same rfl rfl

omit [DecidableEq κ] in
theorem freshWords_unfixStep {page : PageRef} {exclusive : Bool} {p : UnfixPoint}
    (hc : Consistent s v) (hv : v c = (⟨.unfix page exclusive p, held⟩ : Client).view s.mask)
    (hu : ∀ f, s.latch f ≠ jammed)
    (h : Client.unfixStep s ⟨.unfix page exclusive p, held⟩ page exclusive p = some next) :
    FreshWords s next.1 := by
  cases p with
  | write =>
      cases h
      exact .page _ (by decide)
  | read =>
      cases h
      have hpins : (v c).pins = ⟨page, .shared⟩ ::ₘ heldPins held := by
        rw [hv]
        rfl
      have hmem : (⟨page, .shared⟩ : Pin) ∈ total View.pins v :=
        mem_total.mpr ⟨c, hpins ▸ Multiset.mem_cons_self _ _⟩
      obtain ⟨hid, hf⟩ := hc.pages.pinned _ hmem
      exact .page _ ((hc.pages.pages _ _ hid hf).counted.releaseRead_ne_jammed
        (Multiset.count_ne_zero.mpr hmem) (hu _))
  | store =>
      cases h
      exact .same rfl rfl
  | setRef =>
      cases h
      exact .same rfl rfl
  | _ =>
      rw [Client.unfixStep] at h
      split at h <;> cases h <;> exact .same rfl rfl

end Wednesday
