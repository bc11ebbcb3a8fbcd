import Mathlib.Algebra.BigOperators.Fin
import Mathlib.Algebra.Order.BigOperators.Group.Finset
import Mathlib.Data.Multiset.Count

/-!
Latch words that count their holders, and what the clients of a system hold
together.

A word is the number of shared holders, or minus one while there is an
exclusive holder. Every client holds a multiset of things; a step of one client
changes its part of the sum and leaves the rest as it was.
-/

namespace Wednesday.Lib

/-- The word of a latch with one shared holder more than it can count. -/
def jammed : Int := -(2 ^ 31)

/-- The thirty-two bit word of a latch with so many shared and exclusive
holders. A jammed latch lets nobody in. -/
def Counted (word : Int) (readers writers : Nat) : Prop :=
  (writers = 0 ∧ readers ≤ 2 ^ 31 ∧ word = Int.bmod readers (2 ^ 32)) ∨
    (writers = 1 ∧ readers = 0 ∧ word = -1)

namespace Counted

variable {word : Int} {readers writers : Nat}

theorem free : Counted 0 0 0 := Or.inl ⟨rfl, by decide, rfl⟩

theorem bmod_of_lt {n : Nat} (h : n < 2 ^ 31) : Int.bmod n (2 ^ 32) = n := by
  apply Int.bmod_eq_of_le <;> omega

theorem shared_of_le (h : Counted word readers writers) (hle : 0 ≤ word) : writers = 0 := by
  rcases h with ⟨hw, -, -⟩ | ⟨-, -, hword⟩
  · exact hw
  · omega

theorem shared_of_held (h : Counted word readers writers) (hr : readers ≠ 0) : writers = 0 := by
  rcases h with ⟨hw, -, -⟩ | ⟨-, hr', -⟩
  · exact hw
  · exact absurd hr' hr

/-- The word of a latch that nobody holds exclusively. -/
theorem word_cases (h : Counted word readers writers) (hw : writers = 0) :
    (word = readers ∧ readers < 2 ^ 31) ∨ (word = jammed ∧ readers = 2 ^ 31) := by
  rcases h with ⟨-, hle, hword⟩ | ⟨hw', -, -⟩
  · rcases Nat.lt_or_ge readers (2 ^ 31) with hlt | hge
    · exact Or.inl ⟨by rw [hword, bmod_of_lt hlt], hlt⟩
    · obtain rfl : readers = 2 ^ 31 := le_antisymm hle hge
      exact Or.inr ⟨by rw [hword]; rfl, rfl⟩
  · omega

/-- One more shared holder; after the last that fits the word jams. -/
theorem acquireRead (h : Counted word readers writers) (hle : 0 ≤ word) :
    Counted (Int.bmod (word + 1) (2 ^ 32)) (readers + 1) writers := by
  have hw := h.shared_of_le hle
  rcases h.word_cases hw with ⟨hword, hlt⟩ | ⟨hword, -⟩
  · exact Or.inl ⟨hw, hlt, by rw [hword]; rfl⟩
  · rw [hword] at hle
    exact absurd hle (by decide)

/-- Nobody holds a free latch. -/
theorem unheld (h : Counted word readers writers) (hword : word = 0) :
    readers = 0 ∧ writers = 0 := by
  have hw := h.shared_of_le hword.ge
  rcases h.word_cases hw with ⟨hword', -⟩ | ⟨hword', -⟩
  · exact ⟨by omega, hw⟩
  · rw [hword'] at hword
    exact absurd hword (by decide)

theorem acquireWrite (h : Counted word readers writers) (hword : word = 0) :
    Counted (-1) readers (writers + 1) := by
  obtain ⟨hr, hw⟩ := h.unheld hword
  exact Or.inr ⟨by omega, hr, rfl⟩

theorem releaseRead (h : Counted word (readers + 1) writers) :
    Counted (Int.bmod (word - 1) (2 ^ 32)) readers writers := by
  rcases h with ⟨hw, hle, hword⟩ | ⟨-, hr, -⟩
  · refine Or.inl ⟨hw, by omega, ?_⟩
    rw [hword, Int.bmod_sub_bmod]
    congr 1
    omega
  · omega

theorem releaseWrite (h : Counted word readers (writers + 1)) :
    word = -1 ∧ Counted 0 readers writers := by
  rcases h with ⟨hw, -, -⟩ | ⟨hw, hr, hword⟩
  · omega
  · subst hr
    exact ⟨hword, Or.inl ⟨by omega, by decide, rfl⟩⟩

/-- The word of a latch in use is not that of a free one. -/
theorem word_ne_zero (h : Counted word readers writers) (hr : readers ≠ 0) : word ≠ 0 := by
  rintro rfl
  exact hr (h.unheld rfl).1

/-- What the assertion of a shared release asks for, unless the latch is jammed. -/
theorem word_pos (h : Counted word readers writers) (hr : readers ≠ 0) (hjam : word ≠ jammed) :
    0 < word := by
  rcases h.word_cases (h.shared_of_held hr) with ⟨hword, -⟩ | ⟨hword, -⟩
  · omega
  · exact absurd hword hjam

/-- An exclusive holder is alone. -/
theorem alone (h : Counted word readers writers) (hw : writers ≠ 0) :
    writers = 1 ∧ readers = 0 ∧ word = -1 :=
  h.resolve_left fun h' => hw h'.1

/-- A latch that is not jammed and not full does not jam. -/
theorem acquireRead_ne_jammed (h : Counted word readers writers) (hle : 0 ≤ word)
    (hfull : word ≠ 2 ^ 31 - 1) : Int.bmod (word + 1) (2 ^ 32) ≠ jammed := by
  rcases h.word_cases (h.shared_of_le hle) with ⟨hword, hlt⟩ | ⟨hword, -⟩
  · have heq : Int.bmod (word + 1) (2 ^ 32) = word + 1 := by
      apply Int.bmod_eq_of_le <;> omega
    rw [heq, jammed]
    omega
  · rw [hword] at hle
    exact absurd hle (by decide)

theorem releaseRead_ne_jammed (h : Counted word readers writers) (hr : readers ≠ 0)
    (hjam : word ≠ jammed) : Int.bmod (word - 1) (2 ^ 32) ≠ jammed := by
  have hpos := h.word_pos hr hjam
  rcases h.word_cases (h.shared_of_held hr) with ⟨hword, hlt⟩ | ⟨hword, -⟩
  · have heq : Int.bmod (word - 1) (2 ^ 32) = word - 1 := by
      apply Int.bmod_eq_of_le <;> omega
    rw [heq, jammed]
    omega
  · exact absurd hword hjam

end Counted

section Total

variable {κ α M : Type} [Fintype κ]

/-- What all clients hold together. -/
def total [AddCommMonoid M] (g : α → M) (cl : κ → α) : M := ∑ c, g (cl c)

variable [DecidableEq κ]

/-- Only the part of the client that changes is replaced. -/
theorem exists_total_update [AddCommMonoid M] (g : α → M) (cl : κ → α) (c : κ) :
    ∃ rest, total g cl = g (cl c) + rest ∧
      ∀ a, total g (Function.update cl c a) = g a + rest := by
  refine ⟨∑ d ∈ Finset.univ.erase c, g (cl d), ?_, fun a => ?_⟩
  · exact (Finset.add_sum_erase _ (fun d => g (cl d)) (Finset.mem_univ c)).symm
  · rw [total, ← Finset.add_sum_erase _ _ (Finset.mem_univ c), Function.update_self]
    congr 1
    refine Finset.sum_congr rfl fun d hd => ?_
    rw [Function.update_of_ne (Finset.ne_of_mem_erase hd)]

theorem total_update_eq [AddCommMonoid M] {g : α → M} {cl : κ → α} {c : κ} {a : α}
    (h : g a = g (cl c)) : total g (Function.update cl c a) = total g cl := by
  obtain ⟨rest, hold, hnew⟩ := exists_total_update g cl c
  rw [hnew, hold, h]

variable {β : Type} [DecidableEq β] {g : α → Multiset β} {cl : κ → α} {b : β}

omit [DecidableEq κ] [DecidableEq β] in
theorem mem_total : b ∈ total g cl ↔ ∃ c, b ∈ g (cl c) := by
  simp [total, Multiset.mem_sum]

omit [DecidableEq κ] in
theorem count_total : (total g cl).count b = ∑ c, (g (cl c)).count b :=
  Multiset.count_sum' ..

/-- Two clients that both hold the thing hold it twice. -/
theorem two_le_count {c d : κ} (hne : c ≠ d) (hc : b ∈ g (cl c)) (hd : b ∈ g (cl d)) :
    2 ≤ (total g cl).count b := by
  have hpos : 1 ≤ (g (cl c)).count b := Multiset.one_le_count_iff_mem.mpr hc
  have hpos' : 1 ≤ (g (cl d)).count b := Multiset.one_le_count_iff_mem.mpr hd
  calc 2 ≤ (g (cl c)).count b + (g (cl d)).count b := by omega
    _ = ∑ e ∈ {c, d}, (g (cl e)).count b := by rw [Finset.sum_pair hne]
    _ ≤ ∑ e, (g (cl e)).count b :=
        Finset.sum_le_sum_of_subset (Finset.subset_univ _)
    _ = (total g cl).count b := count_total.symm

end Total

end Wednesday.Lib
