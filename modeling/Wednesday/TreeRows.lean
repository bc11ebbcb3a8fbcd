import Wednesday.Lib.Ranks
import Wednesday.TreeAnswers
import Wednesday.TreeSlots

/-!
Runs of inserts whose keys are in order. If the comparison of the pages orders
the keys of a run, and no two of them compare equal, the tree is a search tree of
the rows inserted.
-/

namespace Wednesday

open Lib Prog Pager FenceTree

/-- The keys of the inserts, also of those that fail. -/
def insertKeys (es : List TreeEvent) : List Bytes :=
  es.filterMap fun
    | .insert key _ => some key.bytes
    | .insertFails key _ => some key.bytes
    | _ => none

/-- A step whose insert is allowed and does not leave a root cut in two. -/
def WholeStep (type : Nat) (s : Sys) (e : TreeEvent) (t : Sys) : Prop :=
  AllowedStep type s e t ∧ ∀ key value, e = .insertFails key value → ¬ HalvesRoot key value s

/-- A search tree of the rows `R`, by the ranks of their keys. -/
structure OrderedTree (type : Nat) (K : Bytes → Prop) (rank : Bytes → Nat)
    (R : TreeRow → Prop) (s : Sys) :
    Prop where
  ok : s.PagerOk
  rows : ∀ row, R row → K row.key
  fenced : ∃ nodes F, PagesHold type nodes s ∧ Fenced rank R nodes F s

section

variable {type : Nat} {K K' : Bytes → Prop} {rank : Bytes → Nat} {R : TreeRow → Prop} {s s₀ t : Sys}
  {key value : Blob} {es : List TreeEvent} {e : TreeEvent}

theorem Orders.mono (h : Orders K' rank) (hsub : ∀ k, K k → K' k) : Orders K rank :=
  ⟨fun a b ha hb => h.lt a b (hsub a ha) (hsub b hb), fun a b ha hb => h.eq a b
    (hsub a ha) (hsub b hb)⟩

/-- Keys that `key_compare` orders are in the order of their ranks in a list of what names them. -/
theorem orders_listRank {α : Type} {f : Bytes → α} {g : α → Nat}
    (hname : ∀ k, g (f k) = keyId k) {as : List α}
    (h : OrdersList (fun a b => idCompare (g a) (g b) < 0) as) :
    Orders (fun k => f k ∈ as) fun k =>
      listRank (fun a b => idCompare (g a) (g b) < 0) as (f k) := by
  have hsymm (a b : Nat) : idCompare a b = 0 → idCompare b a = 0 := by
    rw [idCompare, idCompare, Int.bmod_def, Int.bmod_def]
    omega
  refine ⟨fun a b ha hb => ?_, fun a b ha hb => ⟨fun heq => ?_, fun heq => ?_⟩⟩
  · rw [← hname, ← hname, h.rank_lt_iff ha hb]
  · rw [← hname, ← hname] at heq
    refine Nat.le_antisymm (Nat.le_of_not_lt fun hlt => ?_) (Nat.le_of_not_lt fun hlt => ?_)
    · exact ((h.rank_lt_iff hb ha).mp hlt).ne (hsymm _ _ heq)
    · exact ((h.rank_lt_iff ha hb).mp hlt).ne heq
  · rw [← hname, ← hname, h.rank_injective ha hb heq, idCompare, Int.sub_self]
    rfl

theorem rowsOf_cons {row : TreeRow} : rowsOf (e :: es) row ↔ rowsOf es row ∨ rowsOf [e] row := by
  constructor
  · rintro ⟨key, value, hmem, hrow⟩
    rcases List.mem_cons.mp hmem with he | hmem
    · exact Or.inr ⟨key, value, List.mem_singleton.mpr he, hrow⟩
    · exact Or.inl ⟨key, value, hmem, hrow⟩
  · rintro (⟨key, value, hmem, hrow⟩ | ⟨key, value, hmem, hrow⟩)
    · exact ⟨key, value, List.mem_cons_of_mem _ hmem, hrow⟩
    · exact ⟨key, value, List.mem_cons.mpr (Or.inl (List.mem_singleton.mp hmem)), hrow⟩

theorem insertKeys_cons : insertKeys (e :: es) = insertKeys [e] ++ insertKeys es := by
  rw [insertKeys, List.filterMap_cons]
  cases e <;> rfl

/-- The empty table is a search tree without rows. -/
theorem OneLeaf.fenced (rank : Bytes → Nat) (h : OneLeaf type s) :
    Fenced rank (fun _ => False) (fun _ => .leaf [] 0)
      ⟨Function.update (fun _ => none) s.tree.root (some ⟨0, ⊥, ⊤⟩), 0⟩ s := by
  obtain ⟨page, hstore⟩ := h.store
  have hplaced {id : PageId} {p : Place Nat}
      (hid : Function.update (fun _ => none) s.tree.root (some (⟨0, ⊥, ⊤⟩ : Place Nat)) id =
        some p) :
      id = s.tree.root ∧ p = ⟨0, ⊥, ⊤⟩ := by
    by_cases hroot : id = s.tree.root
    · rw [hroot, Function.update_self] at hid
      exact ⟨hroot, (Option.some.inj hid).symm⟩
    · rw [Function.update_of_ne hroot] at hid
      cases hid
  have hself : Function.update (fun _ => none) s.tree.root
      (some (⟨0, ⊥, ⊤⟩ : Place Nat)) s.tree.root =
      some ⟨0, ⊥, ⊤⟩ := Function.update_self ..
  refine ⟨⟨hself, fun id p hid => ?_, fun id p hid => ?_, fun a b p q k ha hb _ _ _ => ?_,
    fun id p hid => ?_⟩, fun id p hid => ?_, fun id p hid k hk => absurd hk (List.not_mem_nil),
      fun row => ?_⟩
  · obtain ⟨-, rfl⟩ := hplaced hid
    exact le_rfl
  · obtain ⟨-, rfl⟩ := hplaced hid
    exact ⟨.nil, fun a ha => absurd ha (List.not_mem_nil), fun h hhi => absurd hhi
      (WithTop.top_ne_coe), fun h hhi => absurd hhi (WithTop.top_ne_coe), rfl, fun _ => rfl⟩
  · exact (hplaced ha).1.trans (hplaced hb).1.symm
  · rw [(hplaced hid).1, h.root]
    decide
  · rw [(hplaced hid).1, hstore, Function.update_self]
    exact Option.some_ne_none _
  · refine ⟨?_, False.elim⟩
    rintro ⟨id, p, rows, right, -, hnode, hmem⟩
    obtain ⟨rfl, -⟩ := Node.leaf.inj hnode
    cases hmem

theorem OrderedTree.same (h : OrderedTree type K rank R s) (hok : t.PagerOk)
    (hsame : SamePages s t) :
    OrderedTree type K rank R t := by
  obtain ⟨nodes, F, hnodes, hfenced⟩ := h.fenced
  exact ⟨hok, h.rows, nodes, F, hnodes.same hsame, hfenced.same hsame⟩

theorem OrderedTree.inOrder (h : OrderedTree type K rank R s) (ho : Orders K rank)
    (hkey : KeyEncoded type key.bytes) (hown : K key.bytes) : InOrder type K rank R key :=
  ⟨hkey, ho, h.rows, hown⟩

/-- The splits of an insert with a new key stay clear of it. -/
theorem OrderedTree.splitsApart (h : OrderedTree type K rank R s) (ho : Orders K rank)
    (hallowed : Insertable type key value s) (hown : K key.bytes)
    (hnew : ∀ row, R row → rank row.key ≠ rank key.bytes) : SplitsApart key value s := by
  obtain ⟨nodes, F, hnodes, hfenced⟩ := h.fenced
  exact hfenced.splitsApart (h.inOrder ho hallowed.keyEncoded hown) hnew h.ok hnodes
    hallowed.pages hallowed.space

/-- One step of a run with new keys. -/
theorem OrderedTree.step (h : OrderedTree type K rank R s) (ho : Orders K rank)
    (hstep : WholeStep type s e t)
    (hkeys : ∀ k ∈ insertKeys [e], K k ∧ ∀ row, R row → rank row.key ≠ rank k) :
    OrderedTree type K rank (fun row => rowsOf [e] row ∨ R row) t := by
  obtain ⟨⟨hallowed, hstep⟩, hwhole⟩ := hstep
  have hok := hstep.pagerOk h.ok
  have hstay (hkeep : OrderedTree type K rank R t) (hnone : ∀ key value, e ≠ .insert key value) :
      OrderedTree type K rank (fun row => rowsOf [e] row ∨ R row) t := by
    have hrows : (fun row => rowsOf [e] row ∨ R row) = R := by
      ext row
      refine or_iff_right ?_
      rintro ⟨key, value, hmem, -⟩
      exact hnone key value (List.mem_singleton.mp hmem).symm
    rwa [hrows]
  obtain ⟨nodes, F, hnodes, hfenced⟩ := h.fenced
  cases hstep with
  | @insert _ fuel key value hrun =>
      obtain ⟨hown, hnew⟩ := hkeys key.bytes (List.mem_singleton_self _)
      have hin := h.inOrder ho hallowed.keyEncoded hown
      obtain ⟨⟨nodes', F', hnodes', hfenced'⟩, -⟩ := hfenced.insert hin hnodes h.ok hallowed.pages
        hallowed.space (h.splitsApart ho hallowed hown hnew) hallowed.valueEncoded hrun
      have hrows : (fun row => rowsOf [.insert key value] row ∨ R row) = withRow R key value := by
        ext row
        refine or_congr_left ⟨?_, fun hrow => ⟨key, value, List.mem_singleton_self _, hrow⟩⟩
        rintro ⟨k, v, hmem, rfl⟩
        cases List.mem_singleton.mp hmem
        rfl
      rw [hrows]
      refine ⟨hok, fun row hrow => ?_, nodes', F', hnodes', hfenced'⟩
      rcases hrow with rfl | hrow
      · exact hown
      · exact h.rows row hrow
  | @insertFails _ fuel key value hrun =>
      obtain ⟨hown, hnew⟩ := hkeys key.bytes (List.mem_singleton_self _)
      have hin := h.inOrder ho hallowed.keyEncoded hown
      refine hstay ⟨hok, h.rows, ?_⟩ (by simp)
      exact hfenced.insertFails hin hnodes h.ok hallowed.pages hallowed.space
        (h.splitsApart ho hallowed hown hnew) (hwhole key value rfl) hrun
  | lookup hrun =>
      exact hstay (h.same hok ((btreeLookup_route h.ok hnodes).success hrun).1.same) (by simp)
  | lookupFails hrun =>
      exact hstay (h.same hok ((btreeLookup_route h.ok hnodes).failure hrun).1.same) (by simp)
  | errorClear => exact hstay (h.same hok ((SamePages.refl s).err _)) (by simp)
  | scratch stack => exact hstay (h.same hok ⟨rfl, rfl, le_rfl⟩) (by simp)

/-- After a run with new keys the tree has the rows it had and those inserted. -/
theorem OrderedTree.run (h : OrderedTree type K rank R s) (ho : Orders K rank)
    (hrun : Run (WholeStep type) s es t) (hkeys : ∀ k ∈ insertKeys es, K k)
    (hapart : (insertKeys es).Pairwise fun a b => rank a ≠ rank b)
    (hnew : ∀ row, R row → ∀ k ∈ insertKeys es, rank row.key ≠ rank k) :
    OrderedTree type K rank (fun row => rowsOf es row ∨ R row) t := by
  induction hrun generalizing R with
  | nil s =>
      have hrows : (fun row => rowsOf [] row ∨ R row) = R := by
        ext row
        refine or_iff_right ?_
        rintro ⟨key, value, hmem, -⟩
        cases hmem
      rwa [hrows]
  | @cons s t u e es head tail ih =>
      rw [insertKeys_cons] at hkeys hapart hnew
      obtain ⟨-, hrest, hcross⟩ := List.pairwise_append.mp hapart
      have hstep := h.step ho head fun k hk =>
        ⟨hkeys k (List.mem_append_left _ hk), fun row hrow => hnew row hrow k
          (List.mem_append_left _ hk)⟩
      have hrows : (fun row => rowsOf (e :: es) row ∨ R row) =
          fun row => rowsOf es row ∨ rowsOf [e] row ∨ R row := by
        ext row
        rw [rowsOf_cons, or_assoc]
      rw [hrows]
      refine ih hstep (fun k hk => hkeys k (List.mem_append_right _ hk)) hrest ?_
      rintro row (⟨key, value, hmem, rfl⟩ | hrow) k hk
      · obtain rfl := List.mem_singleton.mp hmem
        exact hcross _ (List.mem_singleton_self _) k hk
      · exact hnew row hrow k (List.mem_append_right _ hk)

/-- A run of inserts that succeed leaves no root cut in two. -/
theorem wholeRun_of_inserts {rows : List (Blob × Blob)}
    (hrun : Run (AllowedStep type) s (rows.map fun row => .insert row.1 row.2) t) :
    Run (WholeStep type) s (rows.map fun row => .insert row.1 row.2) t := by
  refine hrun.events.mono fun a e b hstep => ⟨hstep.2, fun key value he => ?_⟩
  obtain ⟨row, -, hrow⟩ := List.mem_map.mp hstep.1
  cases hrow.trans he

/-- The tree after a run from its creation. -/
theorem orderedTree_of_run (ho : Orders K rank) (hcreated : TreeCreated type s₀)
    (htype : IsTreeType type)
    (hsize : sizeofHeader ≤ s₀.tree.pageSize) (hkeys : ∀ k ∈ insertKeys es, K k)
    (hapart : (insertKeys es).Pairwise fun a b => rank a ≠ rank b)
    (hrun : Run (WholeStep type) s₀ es s) :
    OrderedTree type K rank (rowsOf es) s := by
  have hone := hcreated.oneLeaf
  have hstart : OrderedTree type K rank (fun _ => False) s₀ :=
    ⟨hcreated.pagerOk, fun _ hrow => hrow.elim, _, _, hone.pagesHold htype hsize, hone.fenced rank⟩
  have hend := hstart.run ho hrun hkeys hapart fun _ hrow => hrow.elim
  simpa only [or_false] using hend

end

end Wednesday
