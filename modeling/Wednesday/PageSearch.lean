import Mathlib.Order.Interval.Finset.Nat
import Mathlib.Order.Nat
import Mathlib.Data.Nat.Count
import Wednesday.PageHeader

/-!
The search on a page. `key_compare` truncates the difference of two ids to an
`int`, so its sign is the order of the ids only where they lie close enough
together. The search follows the order of the ids as far as the comparisons it
makes do.
-/

namespace Wednesday

open Lib

/-- The id in the key of a cell. -/
def cellId (page : Mem) (i : Nat) : Nat :=
  (varintGet (payloadGetKeyPtr (pageFlags page) (pageGetPayload page i))).1

/-- `key_compare` on the ids. -/
def idCompare (a b : Nat) : Int := Int.bmod (a - b) (2 ^ 32)

theorem idCompare_neg_iff {a b : Nat} (h : a < b) :
    idCompare a b < 0 ↔ 1 ≤ (b - a) % 2 ^ 32 ∧ (b - a) % 2 ^ 32 ≤ 2 ^ 31 := by
  have hcast : ((a : Int) - b) = -((b - a : Nat) : Int) := by omega
  rw [idCompare, hcast, Int.bmod_def]
  omega

theorem idCompare_pos_iff {a b : Nat} (h : b < a) :
    0 < idCompare a b ↔ 1 ≤ (a - b) % 2 ^ 32 ∧ (a - b) % 2 ^ 32 < 2 ^ 31 := by
  have hcast : ((a : Int) - b) = ((a - b : Nat) : Int) := by omega
  rw [idCompare, hcast, Int.bmod_def]
  omega

theorem idCompare_self (a : Nat) : idCompare a a = 0 := by
  rw [idCompare, sub_self]
  rfl

/-! ### The loop -/

section Loop

variable {page : Mem} {key : Blob} {x : Nat}

theorem pageFindLoop_succ (hx : (varintGet key.data).1 = x) (n i : Nat) :
    pageFindLoop page key (n + 1) i =
      if idCompare (cellId page i) x = 0 then (true, i)
      else if 0 < idCompare (cellId page i) x then (false, i)
      else pageFindLoop page key n (i + 1) := by
  subst hx
  rfl

/-- The loop passes the cells that compare below the key. -/
theorem pageFindLoop_skip (hx : (varintGet key.data).1 = x) (m n i : Nat)
    (h : ∀ j < m, idCompare (cellId page (i + j)) x < 0) :
    pageFindLoop page key (m + n) i = pageFindLoop page key n (i + m) := by
  induction m generalizing i with
  | zero => rw [Nat.zero_add, Nat.add_zero]
  | succ m ih =>
      have hfirst := h 0 (Nat.succ_pos m)
      rw [Nat.add_zero] at hfirst
      rw [Nat.add_right_comm, pageFindLoop_succ hx, if_neg hfirst.ne, if_neg hfirst.not_gt,
        ih (i + 1) fun j hj => ?_]
      · rw [Nat.add_right_comm, Nat.add_assoc]
      · rw [Nat.add_right_comm, Nat.add_assoc]
        exact h (j + 1) (Nat.succ_lt_succ hj)

theorem le_pageFindLoop (n i : Nat) (hn : i + n = cellCount page) :
    i ≤ (pageFindLoop page key n i).2 := by
  induction n generalizing i with
  | zero => exact hn.le
  | succ n ih =>
      rw [pageFindLoop_succ rfl]
      split
      · exact le_rfl
      · split
        · exact le_rfl
        · exact (Nat.le_succ i).trans (ih (i + 1) (by omega))

/-- The cells before `k` compare below the key, and the one at `k` does not. -/
theorem pageFindPointer_at (hx : (varintGet key.data).1 = x) {k : Nat} (hk : k < cellCount page)
    (hbelow : ∀ i < k, idCompare (cellId page i) x < 0)
    (hstop : 0 ≤ idCompare (cellId page k) x) :
    pageFindPointer page key = (decide (idCompare (cellId page k) x = 0), k) := by
  obtain ⟨n, hn⟩ := Nat.exists_eq_add_of_lt hk
  rw [pageFindPointer, hn, Nat.add_assoc, pageFindLoop_skip hx k (n + 1) 0
    fun j hj => ?_, Nat.zero_add, pageFindLoop_succ hx]
  · rcases hstop.eq_or_lt with hzero | hpos
    · rw [if_pos hzero.symm, ← hzero]
      rfl
    · rw [if_neg hpos.ne', if_pos hpos, decide_eq_false hpos.ne']
  · rw [Nat.zero_add]
    exact hbelow j hj

theorem pageFindPointer_end (hx : (varintGet key.data).1 = x)
    (hbelow : ∀ i < cellCount page, idCompare (cellId page i) x < 0) :
    pageFindPointer page key = (false, cellCount page) := by
  have hskip := pageFindLoop_skip hx (cellCount page) 0 0 fun j hj => by
    rw [Nat.zero_add]
    exact hbelow j hj
  exact hskip

end Loop

/-! ### The order of the ids -/

/-- The ids on the page increase. -/
def Increasing (page : Mem) : Prop :=
  ∀ i j, i < j → j < cellCount page → cellId page i < cellId page j

/-- How many ids on the page are smaller. -/
def smallerIds (page : Mem) (x : Nat) : Nat :=
  Nat.count (fun i => cellId page i < x) (cellCount page)

/-- The number of things below `n` with a property that all below them have, too. -/
theorem lt_count_iff {p : Nat → Prop} [DecidablePred p] {n : Nat}
    (hdown : ∀ i j, i < j → j < n → p j → p i) {i : Nat} (hi : i < n) :
    i < Nat.count p n ↔ p i := by
  induction n generalizing i with
  | zero => omega
  | succ n ih =>
      rw [Nat.count_succ]
      by_cases hp : p n
      · have hall : Nat.count p n = n :=
          Nat.count_iff_forall.mpr fun i hi => hdown i n hi (Nat.lt_succ_self n) hp
        rw [hall, if_pos hp]
        refine ⟨fun _ => ?_, fun _ => hi⟩
        rcases Nat.lt_or_ge i n with hin | hin
        · exact hdown i n hin (Nat.lt_succ_self n) hp
        · obtain rfl : i = n := by omega
          exact hp
      · rw [if_neg hp, Nat.add_zero]
        rcases Nat.lt_or_ge i n with hin | hin
        · exact ih (fun i j hij hj => hdown i j hij (Nat.lt_succ_of_lt hj)) hin
        · obtain rfl : i = n := by omega
          exact ⟨fun h => absurd h (Nat.not_lt.mpr (Nat.count_le _)), fun h => absurd h hp⟩

section

variable {page : Mem} {key : Blob} {x : Nat}

theorem lt_smallerIds_iff (hinc : Increasing page) {i : Nat} (hi : i < cellCount page) :
    i < smallerIds page x ↔ cellId page i < x :=
  lt_count_iff (fun i j hij hj hp => (hinc i j hij hj).trans hp) hi

theorem smallerIds_le : smallerIds page x ≤ cellCount page := Nat.count_le _

theorem smallerIds_of_eq (hinc : Increasing page) {i : Nat} (hi : i < cellCount page)
    (heq : cellId page i = x) : smallerIds page x = i := by
  have hnot : ¬ i < smallerIds page x := fun h => ((lt_smallerIds_iff hinc hi).mp h).ne heq
  have hle : smallerIds page x ≤ i := Nat.not_lt.mp hnot
  refine le_antisymm hle (Nat.not_lt.mp fun hlt => ?_)
  have hbelow := hinc _ _ hlt hi
  exact absurd ((lt_smallerIds_iff hinc (hlt.trans hi)).mpr (heq ▸ hbelow)) (lt_irrefl _)

/-- The search reports the id where it is, and otherwise how many are smaller. -/
def SearchFollowsOrder (page : Mem) (key : Blob) (x : Nat) : Prop :=
  (∀ i < cellCount page, cellId page i = x → pageFindPointer page key = (true, i)) ∧
    ((∀ i < cellCount page, cellId page i ≠ x) →
      pageFindPointer page key = (false, smallerIds page x))

/-- All in one: the position is the number of smaller ids. -/
theorem searchFollowsOrder_iff (hinc : Increasing page) :
    SearchFollowsOrder page key x ↔ pageFindPointer page key =
      (decide (∃ i < cellCount page, cellId page i = x), smallerIds page x) := by
  constructor
  · rintro ⟨hfound, hmissing⟩
    by_cases hex : ∃ i < cellCount page, cellId page i = x
    · obtain ⟨i, hi, heq⟩ := hex
      rw [hfound i hi heq, smallerIds_of_eq hinc hi heq, decide_eq_true ⟨i, hi, heq⟩]
    · rw [hmissing fun i hi heq => hex ⟨i, hi, heq⟩, decide_eq_false hex]
  · intro h
    refine ⟨fun i hi heq => ?_, fun hne => ?_⟩
    · rw [h, smallerIds_of_eq hinc hi heq, decide_eq_true ⟨i, hi, heq⟩]
    · rw [h, decide_eq_false]
      rintro ⟨i, hi, heq⟩
      exact hne i hi heq

/-- The search follows the order of the ids exactly if the comparisons with the
smaller ids come out negative, and the one with the next larger id positive, when
it is made. -/
theorem page_search_numeric (hinc : Increasing page) (hx : (varintGet key.data).1 = x) :
    SearchFollowsOrder page key x ↔
      (∀ i < cellCount page, cellId page i < x →
        1 ≤ (x - cellId page i) % 2 ^ 32 ∧ (x - cellId page i) % 2 ^ 32 ≤ 2 ^ 31) ∧
      (smallerIds page x < cellCount page → x < cellId page (smallerIds page x) →
        1 ≤ (cellId page (smallerIds page x) - x) % 2 ^ 32 ∧
          (cellId page (smallerIds page x) - x) % 2 ^ 32 < 2 ^ 31) := by
  rw [searchFollowsOrder_iff hinc]
  constructor
  · intro h
    -- the first comparison that comes out wrong would be the last one made
    have hbelow : ∀ i < smallerIds page x, idCompare (cellId page i) x < 0 := by
      intro i
      induction i using Nat.strong_induction_on with
      | _ i ih =>
          intro hi
          by_contra hge
          have hlt := hi.trans_le smallerIds_le
          have hat := pageFindPointer_at hx hlt (fun j hj => ih j hj (hj.trans hi)) (not_lt.mp hge)
          rw [h] at hat
          exact hi.ne' (Prod.mk.inj hat).2
    refine ⟨fun i hi hlt => ?_, fun hk hlt => ?_⟩
    · exact (idCompare_neg_iff hlt).mp (hbelow i ((lt_smallerIds_iff hinc hi).mpr hlt))
    · have hnone : ¬ ∃ i < cellCount page, cellId page i = x := by
        rintro ⟨i, hi, heq⟩
        rw [smallerIds_of_eq hinc hi heq, heq] at hlt
        exact lt_irrefl _ hlt
      rw [decide_eq_false hnone] at h
      refine (idCompare_pos_iff hlt).mp (lt_of_le_of_ne ?_ ?_)
      · by_contra hneg
        have hskip : pageFindLoop page key (smallerIds page x + 1 +
            (cellCount page - (smallerIds page x + 1))) 0 = pageFindLoop page key
              (cellCount page - (smallerIds page x + 1)) (0 + (smallerIds page x + 1)) :=
          pageFindLoop_skip hx _ _ 0 fun j hj => ?_
        · rw [Nat.zero_add, Nat.add_sub_cancel' hk] at hskip
          have hle : smallerIds page x + 1 ≤ (pageFindLoop page key
              (cellCount page - (smallerIds page x + 1)) (smallerIds page x + 1)).2 :=
            le_pageFindLoop _ _ (Nat.add_sub_cancel' hk)
          rw [← hskip] at hle
          rw [pageFindPointer] at h
          rw [h] at hle
          exact absurd hle (Nat.not_succ_le_self _)
        · rw [Nat.zero_add]
          rcases Nat.lt_succ_iff_lt_or_eq.mp hj with hlt' | rfl
          · exact hbelow j hlt'
          · exact not_le.mp hneg
      · intro hzero
        have hat := pageFindPointer_at hx hk hbelow hzero.le
        rw [h, decide_eq_true hzero.symm] at hat
        exact Bool.false_ne_true (Prod.mk.inj hat).1
  · rintro ⟨hsmall, hlarge⟩
    have hbelow : ∀ i < smallerIds page x, idCompare (cellId page i) x < 0 := by
      intro i hi
      have hlt := (lt_smallerIds_iff hinc (hi.trans_le smallerIds_le)).mp hi
      exact (idCompare_neg_iff hlt).mpr (hsmall i (hi.trans_le smallerIds_le) hlt)
    have hle : smallerIds page x ≤ cellCount page := smallerIds_le
    rcases hle.lt_or_eq with hk | hk
    · have hge : x ≤ cellId page (smallerIds page x) :=
        not_lt.mp fun hlt => lt_irrefl _ ((lt_smallerIds_iff hinc hk).mpr hlt)
      rcases hge.eq_or_lt with heq | hlt
      · have hzero : idCompare (cellId page (smallerIds page x)) x = 0 := by
          rw [← heq]
          exact idCompare_self x
        rw [pageFindPointer_at hx hk hbelow hzero.ge, decide_eq_true hzero,
          decide_eq_true ⟨_, hk, heq.symm⟩]
      · have hpos := (idCompare_pos_iff hlt).mpr (hlarge hk hlt)
        rw [pageFindPointer_at hx hk hbelow hpos.le, decide_eq_false hpos.ne', decide_eq_false]
        rintro ⟨i, hi, heq⟩
        rw [smallerIds_of_eq hinc hi heq, heq] at hlt
        exact lt_irrefl _ hlt
    · rw [pageFindPointer_end hx (hk ▸ hbelow), hk, decide_eq_false]
      rintro ⟨i, hi, heq⟩
      have hlt := (lt_smallerIds_iff hinc hi).mp (hk.symm ▸ hi : i < smallerIds page x)
      exact hlt.ne heq

end

/-- A leaf of a table with the ids `3`, `300` and `2 ^ 33`, and empty values. -/
def rowsPage : Mem :=
  Mem.ofBytes [3, 0, 21, 0, 3, 0, 3, 0, 0, 0, 0, 0, 30, 0, 27, 0, 21, 0, 0, 0, 0,
    0x80, 0x80, 0x80, 0x80, 0x20, 0, 0xAC, 0x02, 0, 3, 0]

theorem increasing_rowsPage : Increasing rowsPage := by
  have hcount : cellCount rowsPage = 3 := by decide
  have hids : ∀ j < 3, ∀ i < j, cellId rowsPage i < cellId rowsPage j := by decide
  intro i j hij hj
  exact hids j (hcount ▸ hj) i hij

/-- The id `5` lies between two ids of the page, and `300` is one of them. -/
theorem page_search_numeric_once :
    (smallerIds rowsPage 5 = 1 ∧ SearchFollowsOrder rowsPage (Blob.ofBytes [5]) 5) ∧
      SearchFollowsOrder rowsPage (Blob.ofBytes [0xAC, 0x02]) 300 := by
  refine ⟨⟨by decide, ?_⟩, ?_⟩
  · exact (page_search_numeric increasing_rowsPage (by decide)).mpr ⟨by decide, by decide⟩
  · exact (page_search_numeric increasing_rowsPage (by decide)).mpr ⟨by decide, by decide⟩

/-- A leaf of a table with one cell: the id `2 ^ 32` and an empty value. -/
def farPage : Mem :=
  Mem.ofBytes [1, 0, 14, 0, 0, 0, 3, 0, 0, 0, 0, 0, 14, 0, 0x80, 0x80, 0x80, 0x80, 0x10, 0]

theorem increasing_farPage : Increasing farPage := by
  intro i j hij hj
  have hcount : cellCount farPage = 1 := by decide
  omega

/-- The ids `2 ^ 32` and `0` compare equal. -/
theorem page_search_confuses_ids : ¬ ∀ (page : Mem) (key : Blob) (x : Nat), Increasing page →
    (varintGet key.data).1 = x → SearchFollowsOrder page key x := by
  intro h
  have hmissing := (h farPage (Blob.ofBytes [0]) 0 increasing_farPage (by decide)).2 (by decide)
  exact absurd hmissing (by decide)

end Wednesday
