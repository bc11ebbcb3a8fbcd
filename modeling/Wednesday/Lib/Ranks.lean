import Mathlib.Data.List.Pairwise
import Mathlib.Data.List.Count

/-!
Relations that order the elements of a list. There they are the order of the
ranks, where the rank of an element is the number of those below it.
-/

namespace Wednesday.Lib

variable {α : Type}

/-- The relation is a strict order of the elements of the list, in which any two
of its places compare. -/
structure OrdersList (r : α → α → Prop) (as : List α) : Prop where
  irrefl : ∀ a ∈ as, ¬ r a a
  trans : ∀ a ∈ as, ∀ b ∈ as, ∀ c ∈ as, r a b → r b c → r a c
  total : as.Pairwise fun a b => r a b ∨ r b a

/-- How many elements of the list stand below this one. -/
def listRank (r : α → α → Prop) [DecidableRel r] (as : List α) (a : α) : Nat :=
  as.countP fun b => r b a

namespace OrdersList

variable {r : α → α → Prop} {as bs : List α} {a b : α}

instance [DecidableRel r] : Decidable (OrdersList r as) :=
  decidable_of_iff ((∀ a ∈ as, ¬ r a a) ∧ (∀ a ∈ as, ∀ b ∈ as, ∀ c ∈ as, r a b → r b c → r a c) ∧
    as.Pairwise fun a b => r a b ∨ r b a)
    ⟨fun h => ⟨h.1, h.2.1, h.2.2⟩, fun h => ⟨h.irrefl, h.trans, h.total⟩⟩

theorem sublist (h : OrdersList r bs) (hsub : as.Sublist bs) : OrdersList r as :=
  ⟨fun a ha => h.irrefl a (hsub.subset ha), fun a ha b hb c hc =>
    h.trans a (hsub.subset ha) b (hsub.subset hb) c (hsub.subset hc), h.total.sublist hsub⟩

theorem nodup (h : OrdersList r as) : as.Nodup := by
  refine h.total.imp_of_mem ?_
  rintro a b ha - hab rfl
  exact h.irrefl a ha (or_self_iff.mp hab)

theorem compare (h : OrdersList r as) (ha : a ∈ as) (hb : b ∈ as)
    (hne : a ≠ b) : r a b ∨ r b a := by
  have hsymm : Std.Symm fun a b => r a b ∨ r b a := ⟨fun _ _ => Or.symm⟩
  exact h.total.forall ha hb hne

theorem rank_lt_of [DecidableRel r] (h : OrdersList r as) (ha : a ∈ as)
    (hb : b ∈ as) (hab : r a b) :
    listRank r as a < listRank r as b := by
  obtain ⟨pre, post, rfl⟩ := List.append_of_mem ha
  have hmono (c : α) (hc : c ∈ pre ++ a :: post) (hca : decide (r c a) = true) : decide
      (r c b) = true := by
    simp only [decide_eq_true_eq] at hca ⊢
    exact h.trans c hc a ha b hb hca hab
  have hpre := List.countP_mono_left fun c hc => hmono c (List.mem_append_left _ hc)
  have hpost := List.countP_mono_left fun c hc =>
      hmono c (List.mem_append_right _ (List.mem_cons_of_mem _ hc))
  simp only [listRank, List.countP_append, List.countP_cons, hab, h.irrefl a ha,
    decide_true, decide_false, if_true]
  simp only [Bool.false_eq_true, if_false]
  omega

theorem rank_lt_iff [DecidableRel r] (h : OrdersList r as) (ha : a ∈ as) (hb : b ∈ as) :
    listRank r as a < listRank r as b ↔ r a b := by
  refine ⟨fun hlt => ?_, h.rank_lt_of ha hb⟩
  have hne : a ≠ b := by
    rintro rfl
    exact Nat.lt_irrefl _ hlt
  exact (h.compare ha hb hne).resolve_right fun hba =>
    absurd (h.rank_lt_of hb ha hba) (Nat.lt_asymm hlt)

theorem rank_injective [DecidableRel r] (h : OrdersList r as) (ha : a ∈ as) (hb : b ∈ as)
    (heq : listRank r as a = listRank r as b) : a = b := by
  by_contra hne
  rcases h.compare ha hb hne with hab | hba
  · exact Nat.ne_of_lt (h.rank_lt_of ha hb hab) heq
  · exact Nat.ne_of_lt (h.rank_lt_of hb ha hba) heq.symm

end OrdersList

end Wednesday.Lib
