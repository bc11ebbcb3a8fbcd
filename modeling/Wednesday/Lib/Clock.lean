import Mathlib.Data.Nat.ModEq
import Mathlib.Tactic.Common

/-!
Second chance: a hand goes over slots and takes the first idle one that is not
marked, or that it has passed before. The hand may be a counter that is reduced
modulo the number of slots and wraps at some other number.
-/

namespace Wednesday.Lib.Clock

section

variable {α : Type} (hand : Nat → α) (idle marked : α → Prop)

/-- The slot came under the hand in the first `n` steps. -/
def Passed (n : Nat) (f : α) : Prop := ∃ i < n, hand i = f

/-- It did so twice. -/
def Twice (n : Nat) (f : α) : Prop := ∃ i < n, hand i = f ∧ Passed hand i f

/-- The hand takes the slot of its step `i`: passing a slot clears its mark. -/
def Takes (i : Nat) : Prop := idle (hand i) ∧ (marked (hand i) → Passed hand i (hand i))

instance [DecidableEq α] (n : Nat) (f : α) : Decidable (Passed hand n f) := by
  unfold Passed
  infer_instance

instance [DecidableEq α] (n : Nat) (f : α) : Decidable (Twice hand n f) := by
  unfold Twice
  infer_instance

variable {hand idle marked} {n : Nat} {f : α}

theorem not_passed_zero : ¬ Passed hand 0 f := fun ⟨_, h, _⟩ => absurd h (Nat.not_lt_zero _)

theorem passed_succ : Passed hand (n + 1) f ↔ Passed hand n f ∨ hand n = f := by
  constructor
  · rintro ⟨i, hi, rfl⟩
    rcases Nat.lt_succ_iff_lt_or_eq.mp hi with hlt | rfl
    · exact Or.inl ⟨i, hlt, rfl⟩
    · exact Or.inr rfl
  · rintro (⟨i, hi, rfl⟩ | rfl)
    · exact ⟨i, Nat.lt_succ_of_lt hi, rfl⟩
    · exact ⟨n, Nat.lt_succ_self n, rfl⟩

/-- A hand that passes every idle slot takes one as soon as one has no mark or
comes twice. -/
theorem exists_takes (hpass : ∀ f, idle f → Passed hand n f) :
    (∃ i < n, Takes hand idle marked i) ↔ ∃ f, idle f ∧ (marked f → Twice hand n f) := by
  constructor
  · rintro ⟨i, hi, hidle, hmark⟩
    exact ⟨hand i, hidle, fun h => ⟨i, hi, rfl, hmark h⟩⟩
  · rintro ⟨f, hidle, hmark⟩
    by_cases h : marked f
    · obtain ⟨i, hi, rfl, hpassed⟩ := hmark h
      exact ⟨i, hi, hidle, fun _ => hpassed⟩
    · obtain ⟨i, hi, rfl⟩ := hpass f hidle
      exact ⟨i, hi, hidle, fun hm => absurd hm h⟩

end

/-! ### A counter as the hand -/

/-- The slot under a counter that wraps at `M`, `i` steps after `c`. -/
def counter (M size c i : Nat) : Nat := (c + i) % M % size

variable {M size c g : Nat}

theorem counter_lt (i : Nat) (hsize : 0 < size) : counter M size c i < size := Nat.mod_lt _ hsize

/-- Steps without the wrap. -/
theorem add_mod_reaches (a : Nat) (hg : g < size) : ∃ i < size, (a + i) % size = g := by
  have hpos : 0 < size := Nat.zero_lt_of_lt hg
  have ha := Nat.mod_lt a hpos
  refine ⟨(g + (size - a % size)) % size, Nat.mod_lt _ hpos, ?_⟩
  calc (a + (g + (size - a % size)) % size) % size
      = (a % size + (g + (size - a % size))) % size := by
        rw [Nat.add_mod_mod, Nat.mod_add_mod]
    _ = (g + size) % size := by
        rw [show a % size + (g + (size - a % size)) = g + size by omega]
    _ = g := by rw [Nat.add_mod_right, Nat.mod_eq_of_lt hg]

/-- Before the wrap the counter runs through the slots in order, and after it
the order starts anew: in two rounds every slot comes under it. -/
theorem counter_passes (hg : g < size) (hsize : size ≤ M) :
    Passed (counter M size c) (2 * size) g := by
  have hpos : 0 < M := by omega
  have hc := Nat.mod_lt c hpos
  have hmod (i : Nat) : counter M size c i = (c % M + i) % M % size := by
    rw [counter, Nat.mod_add_mod]
  by_cases hwrap : c % M + size ≤ M
  · obtain ⟨i, hi, heq⟩ := add_mod_reaches (c % M) hg
    refine ⟨i, by omega, ?_⟩
    rw [hmod, Nat.mod_eq_of_lt (by omega : c % M + i < M), heq]
  · refine ⟨M - c % M + g, by omega, ?_⟩
    rw [hmod, show c % M + (M - c % M + g) = g + M by omega, Nat.add_mod_right,
      Nat.mod_eq_of_lt (by omega : g < M), Nat.mod_eq_of_lt hg]

/-- If the counter does not wrap in two rounds, or wraps without a jump, it
comes to every slot twice. -/
theorem counter_twice (hg : g < size) (h : c % M + 2 * size ≤ M ∨ M % size = 0) :
    Twice (counter M size c) (2 * size) g := by
  have hsteps : ∃ a, ∀ i < 2 * size, counter M size c i = (a + i) % size := by
    rcases h with h | h
    · refine ⟨c % M, fun i hi => ?_⟩
      rw [counter, ← Nat.mod_add_mod, Nat.mod_eq_of_lt (by omega : c % M + i < M)]
    · exact ⟨c, fun i _ => Nat.mod_mod_of_dvd _ (Nat.dvd_of_mod_eq_zero h)⟩
  obtain ⟨a, ha⟩ := hsteps
  obtain ⟨i, hi, heq⟩ := add_mod_reaches a hg
  refine ⟨i + size, by omega, ?_, i, by omega, ?_⟩
  · rw [ha _ (by omega), ← Nat.add_assoc, Nat.add_mod_right, heq]
  · rw [ha _ (by omega), heq]

end Wednesday.Lib.Clock
