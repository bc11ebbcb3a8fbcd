import Mathlib.Data.List.TakeWhile
import Mathlib.Order.WellFoundedSet
import Wednesday.Lib.FenceTreeSteps

/-!
The shape of a search tree as one sees it from the root: the depth of its leaves,
what stands below each separator, which nodes a search comes to, and the leaves
along their right links. All of it follows from the places of the nodes.
-/

namespace Wednesday.Lib.FenceTree

/-! ### Walks through the nodes -/

section Walks

variable {ι α β : Type}

def Node.IsLeaf : Node ι α β → Prop
  | .leaf _ _ => True
  | .inner _ _ => False

/-- The last node of every level. -/
inductive Spine (nodes : ι → Node ι α β) (root : ι) : ι → Prop where
  | root : Spine nodes root root
  | right {id next : ι} {seps : List (Sep ι α)} (h : Spine nodes root id)
      (hnode : nodes id = .inner seps next) :
      Spine nodes root next

/-- `c` is the child of `id` behind `i` separators. The right link is a child only
of the last node of a level. -/
inductive Child (nodes : ι → Node ι α β) (root : ι) : ι → Nat → ι → Prop where
  | cell {id right : ι} {pre post : List (Sep ι α)} {s : Sep ι α}
      (hnode : nodes id = .inner (pre ++ s :: post) right) : Child nodes root id pre.length s.child
  | last {id right : ι} {seps : List (Sep ι α)} (hspine : Spine nodes root id)
      (hnode : nodes id = .inner seps right) : Child nodes root id seps.length right

/-- `x` is `d` levels below `id`. -/
inductive Under (nodes : ι → Node ι α β) (root id : ι) : Nat → ι → Prop where
  | self : Under nodes root id 0 id
  | child {d i : Nat} {x c : ι} (h : Under nodes root id d x) (hchild : Child nodes root x i c) :
      Under nodes root id (d + 1) c

/-- The nodes of a search that passes the separators with `passes`. -/
inductive Descent (nodes : ι → Node ι α β) (root : ι) (passes : α → Prop) : ι → Prop where
  | root : Descent nodes root passes root
  | child {id right : ι} {pre post : List (Sep ι α)} (h : Descent nodes root passes id)
      (hnode : nodes id = .inner (pre ++ post) right) (hpre : ∀ s ∈ pre, passes s.key)
      (hpost : ∀ s ∈ post.head?, ¬ passes s.key) : Descent nodes root passes (childOf post right)

/-- The first node of every level. -/
inductive Leftmost (nodes : ι → Node ι α β) (root : ι) : ι → Prop where
  | root : Leftmost nodes root root
  | child {id right : ι} {seps : List (Sep ι α)} (h : Leftmost nodes root id)
      (hnode : nodes id = .inner seps right) :
      Leftmost nodes root (childOf seps right)

/-- From a node along the right links up to `null`. -/
inductive Chain (nodes : ι → Node ι α β) (null : ι) : ι → List ι → Prop where
  | last {id : ι} (h : (nodes id).right = null) : Chain nodes null id [id]
  | next {id : ι} {ids : List ι} (hne : (nodes id).right ≠ null)
      (h : Chain nodes null (nodes id).right ids) :
      Chain nodes null id (id :: ids)

/-- A search tree: its leaves have one depth; keys ascend in every node and over
the subtrees of its children; every separator is the key of a row, the largest
below its child, and of an inner child the last key; a search comes to no null
and follows the right link of a last node only; the right links lead from the
first leaf through all of them once. -/
structure SearchTree {κ : Type} [LinearOrder κ] (key : α → κ) (null : ι)
    (nodes : ι → Node ι α β) (root : ι) :
    Prop where
  depth : ∃ height, ∀ d id, Under nodes root root d id → ((nodes id).IsLeaf ↔ d = height)
  sorted : ∀ d id, Under nodes root root d id → (nodes id).keys.Pairwise fun a b => key a < key b
  subtree : ∀ d id i c e x, Under nodes root root d id → Child nodes root id i c →
    Under nodes root c e x →
    ∀ a ∈ (nodes x).keys, (∀ b ∈ (nodes id).keys.take i, key b < key a) ∧
      ∀ b ∈ (nodes id).keys[i]?, key a ≤ key b
  stored : ∀ d id i c, Under nodes root root d id → Child nodes root id i c →
    ∀ b ∈ (nodes id).keys[i]?, ∃ e leaf rows right row, Under nodes root c e leaf ∧
      nodes leaf = .leaf rows right ∧ row ∈ rows ∧ row.key = b
  closing : ∀ d id i c, Under nodes root root d id → Child nodes root id i c →
    ∀ b ∈ (nodes id).keys[i]?, ¬ (nodes c).IsLeaf → (nodes c).keys.getLast? = some b
  descent : ∀ passes : α → Prop, (∀ a b, key a = key b → (passes a ↔ passes b)) →
    ∀ id, Descent nodes root passes id → id ≠ null ∧
      ∀ seps right, nodes id = .inner seps right → (∀ s ∈ seps, passes s.key) → Spine nodes root id
  leaves : ∃ first ids, Leftmost nodes root first ∧ Chain nodes null first ids ∧ ids.Nodup ∧
    (∀ id, id ∈ ids ↔ (nodes id).IsLeaf ∧ ∃ d, Under nodes root root d id) ∧
    (ids.flatMap fun id => (nodes id).keys).Pairwise fun a b => key a < key b

end Walks

section

variable {ι κ α β : Type} [LinearOrder κ] {key : α → κ} {null : ι} {G : ι → Option (Place κ)}
  {nodes : ι → Node ι α β} {root id c x : ι} {height d i l : Nat} {p q : Place κ} {k : κ}

/-! ### The places of the nodes on a walk -/

theorem Tree.leaf_iff (t : Tree key null nodes G root height) (hid : G id = some p) :
    (nodes id).IsLeaf ↔ p.level = 0 := by
  have hshape := (t.node id p hid).shape
  cases hnode : nodes id with
  | leaf rows right =>
      rw [hnode] at hshape
      exact iff_of_true trivial hshape.1
  | inner seps right =>
      rw [hnode] at hshape
      obtain ⟨l, hl, -⟩ := hshape
      exact iff_of_false (fun h => h) (by omega)

theorem Tree.spine_place (t : Tree key null nodes G root height) (h : Spine nodes root id) :
    ∃ p, G id = some p ∧ p.hi = ⊤ := by
  induction h with
  | root => exact ⟨_, t.root, rfl⟩
  | right _ hnode ih =>
      obtain ⟨p, hp, htop⟩ := ih
      have hshape := (t.node _ p hp).shape
      rw [hnode] at hshape
      obtain ⟨l, -, -, hright⟩ := hshape
      exact ⟨_, hright htop, rfl⟩

/-- The place of a child lies between the separators around it. -/
theorem Tree.child_place (t : Tree key null nodes G root height) (hid : G id = some p)
    (h : Child nodes root id i c) :
    ∃ q, G c = some q ∧ q.level + 1 = p.level ∧ q.Inside p ∧
      (∀ b ∈ (nodes id).keys.take i, (key b : WithBot κ) ≤ q.lo) ∧
      (∀ b ∈ (nodes id).keys[i]?, q.hi = key b) ∧ (q.hi = ⊤ → Spine nodes root c) := by
  have hok := t.node id p hid
  cases h with
  | @cell right pre post s hnode =>
      rw [hnode] at hok ⊢
      obtain ⟨l, hi, hl, hplace, -, hhead⟩ :=
        hok.childOf_place fun hnil => absurd hnil (List.cons_ne_nil _ _)
      have hhi : hi = key s.key := hhead s rfl
      have hsorted := hok.sorted
      simp only [Node.keys, List.map_append, List.pairwise_append] at hsorted
      refine ⟨_, hplace, hl.symm, ⟨?_, ?_⟩, ?_, ?_, fun htop => ?_⟩
      · refine le_endKey key fun a ha => (hok.bounds a ?_).1
        rw [Node.keys, List.map_append]
        exact List.mem_append_left _ ha
      · rw [hhi]
        exact (hok.bounds s.key (by simp [Node.keys])).2
      · intro b hb
        rw [Node.keys, List.map_append, List.take_left' (List.length_map _)] at hb
        exact le_endKey_of_mem hsorted.1 hb
      · intro b hb
        have hget : ((pre ++ s :: post).map Sep.key)[pre.length]? = some s.key := by simp
        rw [Node.keys, hget] at hb
        obtain rfl := Option.some.inj hb
        exact hhi
      · rw [hhi] at htop
        exact absurd htop WithTop.coe_ne_top
  | @last right seps hspine hnode =>
      obtain ⟨p', hp', htop⟩ := t.spine_place hspine
      obtain rfl := Option.some.inj (hp'.symm.trans hid)
      have hright := Spine.right hspine hnode
      rw [hnode] at hok ⊢
      obtain ⟨l, hl, -, hplace⟩ := hok.shape
      refine ⟨_, hplace htop, hl.symm, hok.right_inside l htop, ?_, ?_, fun _ => hright⟩
      · intro b hb
        rw [Node.keys, List.take_of_length_le (by simp)] at hb
        exact le_endKey_of_mem hok.sorted hb
      · intro b hb
        simp [Node.keys] at hb

theorem Place.Inside.trans {p q r : Place κ} (h : p.Inside q) (h' : q.Inside r) : p.Inside r :=
  ⟨h'.1.trans h.1, h.2.trans h'.2⟩

theorem Tree.below_place (t : Tree key null nodes G root height) (hid : G id = some p)
    (h : Under nodes root id d x) : ∃ q, G x = some q ∧ q.level + d = p.level ∧ q.Inside p := by
  induction h with
  | self => exact ⟨p, hid, rfl, le_rfl, le_rfl⟩
  | child _ hchild ih =>
      obtain ⟨q, hq, hlevel, hin⟩ := ih
      obtain ⟨r, hr, hlevel', hin', -⟩ := t.child_place hq hchild
      exact ⟨r, hr, by omega, hin'.trans hin⟩

/-- A node of the tree whose place is open above is the last of its level. -/
theorem Tree.spine_of_top (t : Tree key null nodes G root height) (h : Under nodes root root d x)
    (hx : G x = some q) (htop : q.hi = ⊤) : Spine nodes root x := by
  cases h with
  | self => exact .root
  | child hbelow hchild =>
      obtain ⟨p, hp, -⟩ := t.below_place t.root hbelow
      obtain ⟨r, hr, -, -, -, -, hspine⟩ := t.child_place hp hchild
      obtain rfl := Option.some.inj (hr.symm.trans hx)
      exact hspine htop

/-- The separators in front of the child that covers `k`. -/
theorem Tree.exists_child (t : Tree key null nodes G root height) (h : Under nodes root root d id)
    (hid : G id = some p) (hlevel : p.level ≠ 0) (hk : p.Has k) :
    ∃ i c q, Child nodes root id i c ∧ G c = some q ∧ q.Has k := by
  cases hnode : nodes id with
  | leaf rows right =>
      have hleaf := (t.leaf_iff hid).mp (by rw [hnode]; trivial)
      exact absurd hleaf hlevel
  | inner seps right =>
      have hok := t.node id p hid
      obtain ⟨pre, post, rfl, hpre, hpost⟩ : ∃ pre post, seps = pre ++ post ∧
          (∀ a ∈ pre, key a.key < k) ∧
          ∀ s ∈ post.head?, k ≤ key s.key := by
        refine ⟨seps.takeWhile fun s => key s.key < k, seps.dropWhile fun s => key s.key < k,
          List.takeWhile_append_dropWhile.symm, fun a ha => ?_, fun s hs => ?_⟩
        · have hpass := List.mem_takeWhile_imp (p := fun s : Sep ι α => decide (key s.key < k)) ha
          exact of_decide_eq_true hpass
        · have hnot := List.head?_dropWhile_not (fun s : Sep ι α => decide (key s.key < k)) seps
          rw [Option.mem_def.mp hs] at hnot
          simpa using hnot
      rw [hnode] at hok
      obtain ⟨hlast, q, hq, -, hhas⟩ := hok.route hk hpre hpost
      cases post with
      | nil =>
          rw [List.append_nil] at hnode
          exact ⟨_, _, q, .last (t.spine_of_top h hid (hlast rfl)) hnode, hq, hhas⟩
      | cons s post => exact ⟨_, _, q, .cell hnode, hq, hhas⟩

theorem Under.trans {e : Nat} {y : ι} (h : Under nodes root id d x) (h' : Under nodes root x e y) :
    Under nodes root id (d + e) y := by
  induction h' with
  | self => exact h
  | child _ hchild ih => exact ih.child hchild

/-- Below a node of the tree there is, on every level, one that covers a key it covers. -/
theorem Tree.exists_below (t : Tree key null nodes G root height) (h : Under nodes root root d id)
    (hid : G id = some p) (hk : p.Has k) (hl : l ≤ p.level) :
    ∃ e x q, Under nodes root id e x ∧ G x = some q ∧ q.level = l ∧ q.Has k := by
  induction hn : p.level - l generalizing d id p with
  | zero => exact ⟨0, id, p, .self, hid, by omega, hk⟩
  | succ n ih =>
      obtain ⟨i, c, q, hchild, hq, hhas⟩ := t.exists_child h hid (by omega) hk
      obtain ⟨r, hr, hlevel, -⟩ := t.child_place hid hchild
      obtain rfl := Option.some.inj (hr.symm.trans hq)
      obtain ⟨e, x, q', hbelow, hrest⟩ := ih (h.child hchild) hq hhas (by omega) (by omega)
      exact ⟨_, x, q', Under.trans (.child .self hchild) hbelow, hrest⟩

/-- Every node with a place is below the root. -/
theorem Tree.reached [NoMaxOrder κ] [Nonempty κ] (t : Tree key null nodes G root height)
    (hid : G id = some p) :
    ∃ d, Under nodes root root d id := by
  obtain ⟨k, hk⟩ := (t.node id p hid).exists_has
  obtain ⟨d, x, q, hbelow, hx, hlevel, hhas⟩ := t.exists_below .self t.root
    (show (⟨height, ⊥, ⊤⟩ : Place κ).Has k from ⟨WithBot.bot_lt_coe k, le_top⟩) (t.level id p hid)
  obtain rfl := t.unique x id q p k hx hid hlevel hhas hk
  exact ⟨d, hbelow⟩

/-! ### Keys and separators -/

theorem Tree.sorted_below (t : Tree key null nodes G root height) (h : Under nodes root root d id) :
    (nodes id).keys.Pairwise fun a b => key a < key b := by
  obtain ⟨p, hp, -⟩ := t.below_place t.root h
  exact (t.node id p hp).sorted

/-- The keys below a child lie between the separators around it. -/
theorem Tree.subtree_bounds {e : Nat} (t : Tree key null nodes G root height)
    (h : Under nodes root root d id)
    (hchild : Child nodes root id i c) (hbelow : Under nodes root c e x) {a : α}
    (ha : a ∈ (nodes x).keys) :
    (∀ b ∈ (nodes id).keys.take i, key b < key a) ∧ ∀ b ∈ (nodes id).keys[i]?, key a ≤ key b := by
  obtain ⟨p, hp, -⟩ := t.below_place t.root h
  obtain ⟨q, hq, -, -, hlo, hhi, -⟩ := t.child_place hp hchild
  obtain ⟨r, hr, -, hin⟩ := t.below_place hq hbelow
  have hhas := hin.has ((t.node x r hr).bounds a ha)
  constructor
  · intro b hb
    exact WithBot.coe_lt_coe.mp ((hlo b hb).trans_lt hhas.1)
  · intro b hb
    have hle := hhas.2
    rw [hhi b hb] at hle
    exact WithTop.coe_le_coe.mp hle

/-- Every key of a node is the key of a row. -/
def KeysStored (nodes : ι → Node ι α β) (G : ι → Option (Place κ)) : Prop :=
  ∀ id p, G id = some p → ∀ a ∈ (nodes id).keys, ∃ row, Stored nodes G row ∧ row.key = a

/-- The row of a separator stands below its child. -/
theorem Tree.separator_stored (t : Tree key null nodes G root height) (hkeys : KeysStored nodes G)
    (h : Under nodes root root d id) (hchild : Child nodes root id i c) {b : α}
    (hb : b ∈ (nodes id).keys[i]?) :
    ∃ e leaf rows right row, Under nodes root c e leaf ∧ nodes leaf = .leaf rows right ∧
      row ∈ rows ∧ row.key = b := by
  obtain ⟨p, hp, -⟩ := t.below_place t.root h
  obtain ⟨q, hq, -, -, -, hhi, -⟩ := t.child_place hp hchild
  have hlast := hhi b hb
  have hhas : q.Has (key b) := by
    obtain ⟨as, a, hsplit, heq⟩ := (t.node c q hq).closing (key b) hlast
    rw [← heq]
    exact (t.node c q hq).bounds a (by simp [hsplit])
  obtain ⟨e, leaf, r, hbelow, hr, hlevel, hhas'⟩ :=
    t.exists_below (h.child hchild) hq hhas (Nat.zero_le _)
  obtain ⟨row, hstored, rfl⟩ := hkeys id p hp b (List.mem_of_getElem? hb)
  have hleaf := (t.leaf_iff hr).mpr hlevel
  cases hnode : nodes leaf with
  | leaf rows right =>
      exact ⟨e, leaf, rows, right, row, hbelow, hnode, t.mem_of_stored hr hnode hstored hhas', rfl⟩
  | inner seps right =>
      rw [hnode] at hleaf
      exact hleaf.elim

/-- The last key of an inner child is the separator behind it. -/
theorem Tree.closing_separator (t : Tree key null nodes G root height) (hkeys : KeysStored nodes G)
    (h : Under nodes root root d id) (hchild : Child nodes root id i c) {b : α}
    (hb : b ∈ (nodes id).keys[i]?) :
    (nodes c).keys.getLast? = some b := by
  obtain ⟨p, hp, -⟩ := t.below_place t.root h
  obtain ⟨q, hq, -, -, -, hhi, -⟩ := t.child_place hp hchild
  obtain ⟨as, a, hsplit, heq⟩ := (t.node c q hq).closing (key b) (hhi b hb)
  obtain ⟨row, hrow, rfl⟩ := hkeys c q hq a (by simp [hsplit])
  obtain ⟨row', hrow', rfl⟩ := hkeys id p hp b (List.mem_of_getElem? hb)
  obtain rfl := t.stored_unique hrow hrow' heq
  rw [hsplit, List.getLast?_concat]

/-! ### Searches -/

/-- A search that passes all separators of a node is on the last node of the level. -/
theorem Tree.spine_of_passed (t : Tree key null nodes G root height) {passes : α → Prop}
    (hcongr : ∀ a b, key a = key b → (passes a ↔ passes b)) (hid : G id = some p)
    (hstop : Spine nodes root id ∨ ∃ b, p.hi = key b ∧ ¬ passes b)
    {seps : List (Sep ι α)} {right : ι}
    (hnode : nodes id = .inner seps right) (hall : ∀ s ∈ seps, passes s.key) :
    Spine nodes root id := by
  rcases hstop with hspine | ⟨b, hhi, hb⟩
  · exact hspine
  · obtain ⟨as, a, hsplit, heq⟩ := (t.node id p hid).closing (key b) hhi
    have ha : a ∈ (nodes id).keys := by simp [hsplit]
    rw [hnode] at ha
    obtain ⟨s, hs, rfl⟩ := List.mem_map.mp ha
    exact absurd ((hcongr _ _ heq).mp (hall s hs)) hb

theorem Tree.descent_place (t : Tree key null nodes G root height) {passes : α → Prop}
    (hcongr : ∀ a b, key a = key b → (passes a ↔ passes b)) (h : Descent nodes root passes id) :
    ∃ p, G id = some p ∧ (Spine nodes root id ∨ ∃ b, p.hi = key b ∧ ¬ passes b) := by
  induction h with
  | root => exact ⟨_, t.root, .inl .root⟩
  | @child id right pre post h hnode hpre hpost ih =>
      obtain ⟨p, hp, hstop⟩ := ih
      cases post with
      | nil =>
          rw [List.append_nil] at hnode
          have hspine := t.spine_of_passed hcongr hp hstop hnode hpre
          obtain ⟨q, hq, -⟩ := t.child_place hp (.last hspine hnode)
          exact ⟨q, hq, .inl (.right hspine hnode)⟩
      | cons s post =>
          obtain ⟨q, hq, -, -, -, hhi, -⟩ := t.child_place hp (.cell hnode)
          refine ⟨q, hq, .inr ⟨s.key, hhi s.key ?_, hpost s rfl⟩⟩
          simp [hnode, Node.keys]

/-! ### The leaves along the right links -/

/-- The right link of a leaf ends the level or leads to the next leaf. -/
theorem Tree.leaf_right (t : Tree key null nodes G root height) (hid : G id = some p)
    (hlevel : p.level = 0) :
    p.hi = ⊤ ∧ (nodes id).right = null ∨
      ∃ (k : κ) (q : Place κ), p.hi = k ∧ p.lo < k ∧ (nodes id).right ≠ null ∧ G (nodes id).right =
        some q ∧ q.level = 0 ∧ q.lo = k := by
  have hok := t.node id p hid
  cases hhi : p.hi using WithTop.recTopCoe with
  | top =>
      refine .inl ⟨rfl, ?_⟩
      have hleaf := (t.leaf_iff hid).mpr hlevel
      have hshape := hok.shape
      cases hnode : nodes id with
      | leaf rows right =>
          rw [hnode] at hshape
          exact hshape.2 hhi
      | inner seps right =>
          rw [hnode] at hleaf
          exact hleaf.elim
  | coe k =>
      obtain ⟨q, hq, hl, hlo⟩ := hok.sibling k hhi
      obtain ⟨as, a, hsplit, rfl⟩ := hok.closing k hhi
      exact .inr ⟨_, q, rfl, (hok.bounds a (by simp [hsplit])).1, t.notNull _ q hq, hq,
        hl.trans hlevel, hlo⟩

/-- The upper ends of the places. -/
def UpperEnds (G : ι → Option (Place κ)) : Set κ :=
  {k | ∃ id p, G id = some p ∧ p.hi = (k : WithTop κ)}

/-- There are no more upper ends than keys. -/
theorem Tree.finite_upperEnds (t : Tree key null nodes G root height) {ks : List κ}
    (hks : ∀ id p, G id = some p → ∀ a ∈ (nodes id).keys, key a ∈ ks) : (UpperEnds G).Finite := by
  apply ks.finite_toSet.subset
  rintro k ⟨id, p, hid, hhi⟩
  obtain ⟨as, a, hsplit, rfl⟩ := (t.node id p hid).closing k hhi
  exact hks id p hid a (by simp [hsplit])

/-- The right links come to an end from the leaves that reach up to `k`. -/
def EndsFrom (nodes : ι → Node ι α β) (null : ι) (G : ι → Option (Place κ)) (k : κ) : Prop :=
  ∀ id p, G id = some p → p.level = 0 → p.hi = (k : WithTop κ) → ∃ ids, Chain nodes null id ids

theorem Tree.endsFrom (t : Tree key null nodes G root height) (hfin : (UpperEnds G).Finite)
    (hk : k ∈ UpperEnds G) :
    EndsFrom nodes null G k := by
  have hwf : (UpperEnds G).WellFoundedOn (· > ·) := hfin.wellFoundedOn
  apply hwf.induction hk
  -- The next leaf reaches further up.
  intro k _ ih id p hid hlevel hhi
  rcases t.leaf_right hid hlevel with ⟨-, hnull⟩ | ⟨k', q, hhi', -, hne, hq, hlevel', hlo⟩
  · exact ⟨_, .last hnull⟩
  · obtain rfl := WithTop.coe_injective (hhi.symm.trans hhi')
    rcases t.leaf_right hq hlevel' with ⟨-, hnull⟩ | ⟨k', -, hk', hlt, -⟩
    · exact ⟨_, .next hne (.last hnull)⟩
    · rw [hlo] at hlt
      obtain ⟨ids, hchain⟩ := ih k' ⟨_, q, hq, hk'⟩ (WithBot.coe_lt_coe.mp hlt) _ q hq hlevel' hk'
      exact ⟨_, .next hne hchain⟩

/-- From every leaf the right links come to an end. -/
theorem Tree.exists_chain (t : Tree key null nodes G root height) (hfin : (UpperEnds G).Finite)
    (hid : G id = some p) (hlevel : p.level = 0) : ∃ ids, Chain nodes null id ids := by
  rcases t.leaf_right hid hlevel with ⟨-, hnull⟩ | ⟨k, -, hhi, -⟩
  · exact ⟨_, .last hnull⟩
  · exact t.endsFrom hfin ⟨id, p, hid, hhi⟩ id p hid hlevel hhi

/-- What a chain from a leaf covers. -/
structure ChainOk (key : α → κ) (nodes : ι → Node ι α β) (G : ι → Option (Place κ))
    (p : Place κ) (ids : List ι) :
    Prop where
  placed : ∀ x ∈ ids, ∃ q, G x = some q ∧ q.level = 0 ∧ p.lo ≤ q.lo
  nodup : ids.Nodup
  covers : ∀ x q k, G x = some q → q.level = 0 → q.Has k → p.lo < k → x ∈ ids
  keys : (ids.flatMap fun id => (nodes id).keys).Pairwise fun a b => key a < key b

theorem Tree.chain_ok {ids : List ι} (t : Tree key null nodes G root height)
    (hchain : Chain nodes null id ids)
    (hid : G id = some p) (hlevel : p.level = 0) : ChainOk key nodes G p ids := by
  induction hchain generalizing p with
  | @last id hnull =>
      have htop : p.hi = ⊤ := by
        rcases t.leaf_right hid hlevel with ⟨htop, -⟩ | ⟨k, -, -, -, hne, -⟩
        · exact htop
        · exact absurd hnull hne
      refine ⟨fun x hx => ?_, List.nodup_singleton id, fun x q k hx hl hhas hlo => ?_, ?_⟩
      · obtain rfl := List.mem_singleton.mp hx
        exact ⟨p, hid, hlevel, le_rfl⟩
      · have hown : p.Has k := ⟨hlo, htop ▸ le_top⟩
        obtain rfl := t.unique x id q p k hx hid (hl.trans hlevel.symm) hhas hown
        exact List.mem_singleton_self x
      · rw [List.flatMap_singleton]
        exact (t.node id p hid).sorted
  | @next id ids hne _ ih =>
      obtain ⟨-, hnull⟩ | ⟨k₀, r, hhi, hlt, -, hr, hl₀, hlo₀⟩ := t.leaf_right hid hlevel
      · exact absurd hnull hne
      have hrest := ih hr hl₀
      have hle : p.lo ≤ r.lo := hlo₀ ▸ hlt.le
      refine ⟨fun x hx => ?_, List.nodup_cons.mpr ⟨fun hmem => ?_, hrest.nodup⟩,
        fun x q k hx hl hhas hlo => ?_, ?_⟩
      · rcases List.mem_cons.mp hx with rfl | hx
        · exact ⟨p, hid, hlevel, le_rfl⟩
        · obtain ⟨q, hq, hl, hlo⟩ := hrest.placed x hx
          exact ⟨q, hq, hl, hle.trans hlo⟩
      · -- The leaf itself lies below all that follow.
        obtain ⟨q, hq, -, hlo⟩ := hrest.placed id hmem
        obtain rfl := Option.some.inj (hid.symm.trans hq)
        rw [hlo₀] at hlo
        exact absurd hlt (not_lt.mpr hlo)
      · rcases le_or_gt k k₀ with hk | hk
        · have hown : p.Has k := ⟨hlo, hhi ▸ WithTop.coe_le_coe.mpr hk⟩
          obtain rfl := t.unique x id q p k hx hid (hl.trans hlevel.symm) hhas hown
          exact List.mem_cons_self ..
        · have hlater : r.lo < k := hlo₀ ▸ WithBot.coe_lt_coe.mpr hk
          exact List.mem_cons_of_mem _ (hrest.covers x q k hx hl hhas hlater)
      · rw [List.flatMap_cons, List.pairwise_append]
        refine ⟨(t.node id p hid).sorted, hrest.keys, fun a ha b hb => ?_⟩
        obtain ⟨x, hx, hb⟩ := List.mem_flatMap.mp hb
        obtain ⟨q, hq, -, hlo⟩ := hrest.placed x hx
        have hle : key a ≤ k₀ := WithTop.coe_le_coe.mp (hhi ▸ ((t.node id p hid).bounds a ha).2)
        have hlt : k₀ < key b := WithBot.coe_lt_coe.mp
          ((hlo₀ ▸ hlo).trans_lt ((t.node x q hq).bounds b hb).1)
        exact hle.trans_lt hlt

/-- Below the first node of a level there is the first leaf. -/
theorem Tree.exists_leftmost (t : Tree key null nodes G root height) (h : Leftmost nodes root id)
    (hid : G id = some p) (hlo : p.lo = ⊥) (hl : p.level = l) :
    ∃ x q, Leftmost nodes root x ∧ G x = some q ∧ q.level = 0 ∧ q.lo = ⊥ := by
  induction l generalizing id p with
  | zero => exact ⟨id, p, h, hid, hl, hlo⟩
  | succ l ih =>
      cases hnode : nodes id with
      | leaf rows right =>
          have hleaf := (t.leaf_iff hid).mp (by rw [hnode]; trivial)
          omega
      | inner seps right =>
          have hok : NodeOk key null G p (.inner ([] ++ seps) right : Node ι α β) :=
            hnode ▸ t.node id p hid
          have hlast : seps = [] → p.hi = ⊤ := by
            rintro rfl
            by_contra hne
            obtain ⟨k, hk⟩ := WithTop.ne_top_iff_exists.mp hne
            obtain ⟨as, a, hsplit, -⟩ := hok.closing k hk.symm
            simp [Node.keys] at hsplit
          obtain ⟨l', hi, hl', hplace, -⟩ := hok.childOf_place hlast
          exact ih (.child h hnode) hplace hlo (by simp only; omega)

/-- The places of a search tree whose keys are those of its rows say that it has the shape. -/
theorem Tree.searchTree [NoMaxOrder κ] [Nonempty κ] (t : Tree key null nodes G root height)
    (hkeys : KeysStored nodes G) (hfin : (UpperEnds G).Finite) :
    SearchTree key null nodes root where
  depth := by
    refine ⟨height, fun d id hbelow => ?_⟩
    obtain ⟨p, hp, hlevel, -⟩ := t.below_place t.root hbelow
    rw [t.leaf_iff hp]
    simp only at hlevel
    omega
  sorted _ _ hbelow := t.sorted_below hbelow
  subtree _ _ _ _ _ _ h hchild hbelow _ ha := t.subtree_bounds h hchild hbelow ha
  stored _ _ _ _ h hchild _ hb := t.separator_stored hkeys h hchild hb
  closing _ _ _ _ h hchild _ hb _ := t.closing_separator hkeys h hchild hb
  descent _ hcongr id hdescent := by
    obtain ⟨p, hp, hstop⟩ := t.descent_place hcongr hdescent
    exact ⟨t.notNull id p hp, fun _ _ hnode hall => t.spine_of_passed hcongr hp hstop hnode hall⟩
  leaves := by
    obtain ⟨first, p, hfirst, hp, hlevel, hlo⟩ := t.exists_leftmost .root t.root rfl rfl
    obtain ⟨ids, hchain⟩ := t.exists_chain hfin hp hlevel
    have hok := t.chain_ok hchain hp hlevel
    refine ⟨first, ids, hfirst, hchain, hok.nodup, fun id => ⟨fun hid => ?_, ?_⟩, hok.keys⟩
    · obtain ⟨q, hq, hl, -⟩ := hok.placed id hid
      exact ⟨(t.leaf_iff hq).mpr hl, t.reached hq⟩
    · rintro ⟨hleaf, d, hbelow⟩
      obtain ⟨q, hq, -⟩ := t.below_place t.root hbelow
      obtain ⟨k, hk⟩ := (t.node id q hq).exists_has
      exact hok.covers id q k hq ((t.leaf_iff hq).mp hleaf) hk (hlo ▸ WithBot.bot_lt_coe k)

/-! ### Keys compared in another way -/

section Congr

variable {key' : α → κ} {node : Node ι α β} {lo : WithBot κ}

omit [LinearOrder κ] in
theorem endKey_congr {as : List α} (h : ∀ a ∈ as, key a = key' a) :
    endKey key lo as = endKey key' lo as := by
  induction as generalizing lo with
  | nil => rfl
  | cons a as ih =>
      rw [endKey, endKey, h a (List.mem_cons_self ..)]
      exact ih fun b hb => h b (List.mem_cons_of_mem _ hb)

omit [LinearOrder κ] in
theorem children_congr {ss : List (Sep ι α)} (h : ∀ s ∈ ss, key s.key = key' s.key) :
    children key l lo ss = children key' l lo ss := by
  induction ss generalizing lo with
  | nil => rfl
  | cons s ss ih =>
      rw [children, children, h s (List.mem_cons_self ..), ih fun r hr =>
        h r (List.mem_cons_of_mem _ hr)]

theorem NodeOk.congr_key (h : NodeOk key null G p node) (hkey : ∀ a ∈ node.keys, key a = key' a) :
    NodeOk key' null G p node := by
  refine ⟨h.sorted.imp_of_mem fun ha hb hlt => ?_, fun a ha => ?_, fun k hk => ?_, h.sibling, ?_⟩
  · rwa [← hkey _ ha, ← hkey _ hb]
  · rw [← hkey a ha]
    exact h.bounds a ha
  · obtain ⟨as, a, hsplit, heq⟩ := h.closing k hk
    refine ⟨as, a, hsplit, ?_⟩
    rw [← hkey a (by simp [hsplit]), heq]
  · cases node with
    | leaf rows right => exact h.shape
    | inner seps right =>
        obtain ⟨l, hl, hkids, hright⟩ := h.shape
        refine ⟨l, hl, ?_, ?_⟩
        · rwa [← children_congr fun s hs => hkey s.key (List.mem_map_of_mem hs)]
        · have hends : ∀ a ∈ seps.map Sep.key, key a = key' a := hkey
          rwa [← endKey_congr hends]

/-- Only the order of the keys on the nodes matters. -/
theorem Tree.congr_key (t : Tree key null nodes G root height)
    (hkey : ∀ id p, G id = some p → ∀ a ∈ (nodes id).keys, key a = key' a) :
    Tree key' null nodes G root height :=
  ⟨t.root, t.level, fun id p hid => (t.node id p hid).congr_key (hkey id p hid),
    t.unique, t.notNull⟩

end Congr

end

end Wednesday.Lib.FenceTree
