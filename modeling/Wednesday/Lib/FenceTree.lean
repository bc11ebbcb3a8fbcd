import Mathlib.Order.WithBot
import Mathlib.Order.Max
import Mathlib.Logic.Function.Basic
import Mathlib.Data.List.Basic
import Mathlib.Tactic.Common

/-!
Search trees kept as a map from node names to nodes, with sibling links along
each level. Every node of the tree has a *place*: its level and the interval
of keys it is responsible for. All structural facts are local: they relate a
node, its place, and the places of the nodes it points to. A structure change
therefore has to be checked only at the nodes it touches and at those that
point to them.

Keys are carried by a type `α` and compared through `key : α → κ`.
-/

namespace Wednesday.Lib.FenceTree

structure Sep (ι α : Type) where
  child : ι
  key : α

structure Row (α β : Type) where
  key : α
  value : β

/-- A leaf with its rows or an inner node with its separators. The right link
of the last inner node of a level is its last child, every other right link
is the sibling. -/
inductive Node (ι α β : Type) where
  | leaf (rows : List (Row α β)) (right : ι)
  | inner (seps : List (Sep ι α)) (right : ι)

/-- A level and the interval `(lo, hi]`. -/
structure Place (κ : Type) where
  level : Nat
  lo : WithBot κ
  hi : WithTop κ

variable {ι κ α β : Type}

namespace Node

def keys : Node ι α β → List α
  | .leaf rows _ => rows.map Row.key
  | .inner seps _ => seps.map Sep.key

def right : Node ι α β → ι
  | .leaf _ r => r
  | .inner _ r => r

/-- The nodes a search may go on to. -/
def links : Node ι α β → List ι
  | .leaf _ _ => []
  | .inner seps right => seps.map Sep.child ++ [right]

/-- The left half of a split, linked to its new sibling. -/
def takeTo (m : Nat) (next : ι) : Node ι α β → Node ι α β
  | .leaf rows _ => .leaf (rows.take m) next
  | .inner seps _ => .inner (seps.take m) next

/-- The right half of a split. -/
def dropTo (m : Nat) : Node ι α β → Node ι α β
  | .leaf rows r => .leaf (rows.drop m) r
  | .inner seps r => .inner (seps.drop m) r

@[simp] theorem keys_takeTo (node : Node ι α β) (m : Nat) (next : ι) :
    (node.takeTo m next).keys = node.keys.take m := by
  cases node <;> simp [takeTo, keys]

@[simp] theorem keys_dropTo (node : Node ι α β) (m : Nat) :
    (node.dropTo m).keys = node.keys.drop m := by
  cases node <;> simp [dropTo, keys]

@[simp] theorem right_takeTo (node : Node ι α β) (m : Nat) (next : ι) :
    (node.takeTo m next).right = next := by
  cases node <;> rfl

@[simp] theorem right_dropTo (node : Node ι α β) (m : Nat) :
    (node.dropTo m).right = node.right := by
  cases node <;> rfl

end Node

section Keys

variable (key : α → κ)

/-- The last of some keys, or `lo` if there is none. -/
def endKey : WithBot κ → List α → WithBot κ
  | lo, [] => lo
  | _, a :: as => endKey (key a) as

/-- The children in front of the separators, with the places the separators
give them. -/
def children (l : Nat) : WithBot κ → List (Sep ι α) → List (ι × Place κ)
  | _, [] => []
  | lo, s :: ss => (s.child, ⟨l, lo, (key s.key : WithTop κ)⟩) :: children l (key s.key) ss

@[simp] theorem endKey_append (lo : WithBot κ) (as bs : List α) :
    endKey key lo (as ++ bs) = endKey key (endKey key lo as) bs := by
  induction as generalizing lo with
  | nil => rfl
  | cons a as ih => exact ih _

@[simp] theorem endKey_nil (lo : WithBot κ) : endKey key lo [] = lo := rfl

theorem endKey_snoc (lo : WithBot κ) (as : List α) (a : α) :
    endKey key lo (as ++ [a]) = key a := by
  rw [endKey_append]
  rfl

theorem children_append (l : Nat) (lo : WithBot κ) (ss ts : List (Sep ι α)) :
    children key l lo (ss ++ ts) =
      children key l lo ss ++ children key l (endKey key lo (ss.map Sep.key)) ts := by
  induction ss generalizing lo with
  | nil => rfl
  | cons s ss ih => simp [children, endKey, ih]

theorem mem_children {l : Nat} {lo : WithBot κ} {ss : List (Sep ι α)} {c : ι × Place κ}
    (h : c ∈ children key l lo ss) :
    ∃ pre s post, ss = pre ++ s :: post ∧ c.1 = s.child ∧
      c.2 = ⟨l, endKey key lo (pre.map Sep.key), (key s.key : WithTop κ)⟩ := by
  induction ss generalizing lo with
  | nil => simp [children] at h
  | cons s ss ih =>
      rcases List.mem_cons.mp h with rfl | h
      · exact ⟨[], s, ss, rfl, rfl, rfl⟩
      · obtain ⟨pre, t, post, rfl, h₁, h₂⟩ := ih h
        exact ⟨s :: pre, t, post, rfl, h₁, h₂⟩

end Keys

section Places

variable [LinearOrder κ] (key : α → κ)

def Place.Has (p : Place κ) (k : κ) : Prop := p.lo < k ∧ (k : WithTop κ) ≤ p.hi

/-- `p` covers no key that `q` does not cover. -/
def Place.Inside (p q : Place κ) : Prop := q.lo ≤ p.lo ∧ p.hi ≤ q.hi

theorem Place.Inside.has {p q : Place κ} (h : p.Inside q) {k : κ} (hk : p.Has k) : q.Has k :=
  ⟨h.1.trans_lt hk.1, hk.2.trans h.2⟩

/-- The last key is no less than the lower end of the interval. -/
theorem le_endKey {lo : WithBot κ} {as : List α} (h : ∀ a ∈ as, lo < key a) :
    lo ≤ endKey key lo as := by
  rcases List.eq_nil_or_concat as with rfl | ⟨bs, b, rfl⟩
  · exact le_rfl
  · rw [List.concat_eq_append, endKey_snoc]
    exact (h b (by simp)).le

theorem endKey_lt {lo : WithBot κ} {as : List α} {k : κ} (hlo : lo < k)
    (h : ∀ a ∈ as, key a < k) : endKey key lo as < k := by
  rcases List.eq_nil_or_concat as with rfl | ⟨bs, b, rfl⟩
  · exact hlo
  · rw [List.concat_eq_append, endKey_snoc]
    exact WithBot.coe_lt_coe.mpr (h b (by simp))

end Places

/-! ### The local invariant -/

section Invariant

variable [LinearOrder κ] (key : α → κ) (null : ι)

/-- What a node says about its level and its children. -/
def Shape (G : ι → Option (Place κ)) (p : Place κ) : Node ι α β → Prop
  | .leaf _ right => p.level = 0 ∧ (p.hi = ⊤ → right = null)
  | .inner seps right => ∃ l, p.level = l + 1 ∧
      (∀ c ∈ children key l p.lo seps, G c.1 = some c.2) ∧
      (p.hi = ⊤ → G right = some ⟨l, endKey key p.lo (seps.map Sep.key), ⊤⟩)

/-- A node fits its place, given the places `G` of the others. -/
structure NodeOk (G : ι → Option (Place κ)) (p : Place κ) (node : Node ι α β) : Prop where
  sorted : node.keys.Pairwise fun a b => key a < key b
  bounds : ∀ a ∈ node.keys, p.Has (key a)
  closing : ∀ h : κ, p.hi = h → ∃ as a, node.keys = as ++ [a] ∧ key a = h
  sibling : ∀ h : κ, p.hi = h → ∃ q, G node.right = some q ∧ q.level = p.level ∧ q.lo = h
  shape : Shape key null G p node

/-- The nodes that have a place form a search tree of the given height. -/
structure Tree (nodes : ι → Node ι α β) (G : ι → Option (Place κ)) (root : ι) (height : Nat) :
    Prop where
  root : G root = some ⟨height, ⊥, ⊤⟩
  level : ∀ id p, G id = some p → p.level ≤ height
  node : ∀ id p, G id = some p → NodeOk key null G p (nodes id)
  unique : ∀ a b p q k, G a = some p → G b = some q → p.level = q.level →
    p.Has k → q.Has k → a = b
  notNull : ∀ id p, G id = some p → id ≠ null

/-- The rows of a tree are those of its leaves. -/
def Stored (nodes : ι → Node ι α β) (G : ι → Option (Place κ)) (row : Row α β) : Prop :=
  ∃ id p rows right, G id = some p ∧ nodes id = .leaf rows right ∧ row ∈ rows

variable {key null}

theorem NodeOk.exists_has [NoMaxOrder κ] [Nonempty κ] {G : ι → Option (Place κ)} {p : Place κ}
    {node : Node ι α β} (h : NodeOk key null G p node) : ∃ k, p.Has k := by
  obtain ⟨l, lo, hi⟩ := p
  induction hi using WithTop.recTopCoe with
  | top =>
      induction lo using WithBot.recBotCoe with
      | bot => exact ⟨Classical.arbitrary κ, WithBot.bot_lt_coe _, le_top⟩
      | coe a =>
          obtain ⟨b, hb⟩ := exists_gt a
          exact ⟨b, WithBot.coe_lt_coe.mpr hb, le_top⟩
  | coe a =>
      obtain ⟨as, b, hkeys, rfl⟩ := h.closing a rfl
      exact ⟨key b, h.bounds b (by simp [hkeys])⟩

/-- The place of a child lies inside the place of its parent. -/
theorem NodeOk.child_inside {G : ι → Option (Place κ)} {p : Place κ} {seps : List (Sep ι α)}
    {right : ι} (h : NodeOk key null G p (.inner seps right : Node ι α β)) {l : Nat}
    {c : ι × Place κ} (hc : c ∈ children key l p.lo seps) : c.2.Inside p := by
  obtain ⟨pre, s, post, rfl, -, hplace⟩ := mem_children key hc
  rw [hplace]
  constructor
  · refine le_endKey key fun a ha => (h.bounds a ?_).1
    rw [Node.keys, List.map_append]
    exact List.mem_append_left _ ha
  · exact (h.bounds s.key (by simp [Node.keys])).2

theorem NodeOk.right_inside {G : ι → Option (Place κ)} {p : Place κ} {seps : List (Sep ι α)}
    {right : ι} (h : NodeOk key null G p (.inner seps right : Node ι α β)) (l : Nat)
    (hi : p.hi = ⊤) :
    (⟨l, endKey key p.lo (seps.map Sep.key), ⊤⟩ : Place κ).Inside p :=
  ⟨le_endKey key fun a ha => (h.bounds a ha).1, by rw [hi]⟩

/-- Whatever a node links to has a place. -/
theorem NodeOk.link_placed {G : ι → Option (Place κ)} {p : Place κ} {node : Node ι α β}
    (h : NodeOk key null G p node) {c : ι} (hc : c ∈ node.links) : ∃ q, G c = some q := by
  cases node with
  | leaf rows right => cases hc
  | inner seps right =>
      obtain ⟨l, -, hkids, hright⟩ := h.shape
      rcases List.mem_append.mp hc with hc | hc
      · obtain ⟨s, hs, rfl⟩ := List.mem_map.mp hc
        obtain ⟨pre, post, rfl⟩ := List.append_of_mem hs
        have hmem : (s.child, ⟨l, endKey key p.lo (pre.map Sep.key), (key s.key : WithTop κ)⟩) ∈
            children key l p.lo (pre ++ s :: post) := by
          rw [children_append]
          exact List.mem_append_right _ (List.mem_cons_self ..)
        exact ⟨_, hkids _ hmem⟩
      · obtain rfl := List.mem_singleton.mp hc
        cases hhi : p.hi using WithTop.recTopCoe with
        | top => exact ⟨_, hright hhi⟩
        | coe k =>
            obtain ⟨q, hq, -⟩ := h.sibling k hhi
            exact ⟨q, hq⟩

/-- What a node knows of the others is their place, up to the upper end for
siblings. -/
theorem NodeOk.transfer {G G' : ι → Option (Place κ)} {p : Place κ} {node : Node ι α β}
    (h : NodeOk key null G p node)
    (hsibling : ∀ id q, G id = some q → ∃ q', G' id = some q' ∧ q'.level = q.level ∧ q'.lo = q.lo)
    (hchild : ∀ id q, G id = some q → q.level + 1 = p.level → q.Inside p → G' id = some q) :
    NodeOk key null G' p node := by
  refine ⟨h.sorted, h.bounds, h.closing, fun k hk => ?_, ?_⟩
  · obtain ⟨q, hq, hlevel, hlo⟩ := h.sibling k hk
    obtain ⟨q', hq', hlevel', hlo'⟩ := hsibling _ q hq
    exact ⟨q', hq', hlevel'.trans hlevel, hlo'.trans hlo⟩
  · cases node with
    | leaf rows right => exact h.shape
    | inner seps right =>
        obtain ⟨l, hl, hkids, hright⟩ := h.shape
        refine ⟨l, hl, fun c hc => ?_, fun hi => ?_⟩
        · refine hchild c.1 c.2 (hkids c hc) ?_ (h.child_inside hc)
          obtain ⟨_, _, _, _, _, hplace⟩ := mem_children key hc
          rw [hplace, hl]
        · exact hchild right _ (hright hi) (by rw [hl]) (h.right_inside l hi)

end Invariant

/-! ### Splitting a node -/

section Split

variable [LinearOrder κ] {key : α → κ} {null : ι} {G G' : ι → Option (Place κ)} {c n : ι}
  {q : Place κ}

/-- The place of `c` is cut at `s`: the lower part stays with `c`, the upper
part goes to the new node `n`. -/
structure SplitPlaces (G G' : ι → Option (Place κ)) (c n : ι) (q : Place κ) (s : κ) : Prop where
  old : G c = some q
  fresh : G n = none
  left : G' c = some ⟨q.level, q.lo, (s : WithTop κ)⟩
  right : G' n = some ⟨q.level, (s : WithBot κ), q.hi⟩
  others : ∀ id, id ≠ c → id ≠ n → G' id = G id

namespace SplitPlaces

variable {s : κ}

omit [LinearOrder κ] in
theorem other (h : SplitPlaces G G' c n q s) {id : ι} {p : Place κ} (hid : G id = some p)
    (hne : id ≠ c) : G' id = some p := by
  rw [h.others id hne, hid]
  rintro rfl
  simp [h.fresh] at hid

omit [LinearOrder κ] in
theorem sibling (h : SplitPlaces G G' c n q s) {id : ι} {p : Place κ} (hid : G id = some p) :
    ∃ p', G' id = some p' ∧ p'.level = p.level ∧ p'.lo = p.lo := by
  by_cases hne : id = c
  · subst hne
    obtain rfl : q = p := by simpa [h.old] using hid
    exact ⟨_, h.left, rfl, rfl⟩
  · exact ⟨p, h.other hid hne, rfl, rfl⟩

/-- Every place after the split comes from one before it. -/
theorem origin (h : SplitPlaces G G' c n q s) (hs : q.Has s) {id : ι} {p : Place κ}
    (hid : G' id = some p) :
    ∃ o p₀, G o = some p₀ ∧ p₀.level = p.level ∧ p.Inside p₀ ∧
      (o = c → id = c ∧ p.hi = s ∨ id = n ∧ p.lo = s) ∧ (o ≠ c → id = o) := by
  by_cases hc : id = c
  · subst hc
    obtain rfl := Option.some.inj (h.left.symm.trans hid)
    exact ⟨id, q, h.old, rfl, ⟨le_rfl, hs.2⟩, fun _ => Or.inl ⟨rfl, rfl⟩, fun hne => absurd rfl hne⟩
  · by_cases hn : id = n
    · subst hn
      obtain rfl := Option.some.inj (h.right.symm.trans hid)
      exact ⟨c, q, h.old, rfl, ⟨hs.1.le, le_rfl⟩, fun _ => Or.inr ⟨rfl, rfl⟩,
        fun hne => absurd rfl hne⟩
    · rw [h.others id hc hn] at hid
      exact ⟨id, p, hid, rfl, ⟨le_rfl, le_rfl⟩, fun hne => absurd hne hc, fun _ => rfl⟩

theorem unique (h : SplitPlaces G G' c n q s) (hs : q.Has s)
    (hu : ∀ a b p r k, G a = some p → G b = some r → p.level = r.level →
      p.Has k → r.Has k → a = b) :
    ∀ a b p r k, G' a = some p → G' b = some r → p.level = r.level →
      p.Has k → r.Has k → a = b := by
  intro a b p r k ha hb hlevel hpk hrk
  obtain ⟨oa, pa, hoa, hla, hina, hca, hna⟩ := h.origin hs ha
  obtain ⟨ob, pb, hob, hlb, hinb, hcb, hnb⟩ := h.origin hs hb
  obtain rfl : oa = ob :=
    hu oa ob pa pb k hoa hob (by rw [hla, hlb, hlevel]) (hina.has hpk) (hinb.has hrk)
  by_cases hc : oa = c
  · -- both come from `c`: a key cannot lie on both sides of the cut
    rcases hca hc with ⟨rfl, hpa⟩ | ⟨rfl, hpa⟩ <;> rcases hcb hc with ⟨rfl, hpb⟩ | ⟨rfl, hpb⟩
    · rfl
    · have h₁ := hpk.2
      have h₂ := hrk.1
      rw [hpa, WithTop.coe_le_coe] at h₁
      rw [hpb, WithBot.coe_lt_coe] at h₂
      exact absurd h₂ (not_lt.mpr h₁)
    · have h₁ := hpk.1
      have h₂ := hrk.2
      rw [hpa, WithBot.coe_lt_coe] at h₁
      rw [hpb, WithTop.coe_le_coe] at h₂
      exact absurd h₁ (not_lt.mpr h₂)
    · rfl
  · rw [hna hc, hnb hc]

end SplitPlaces

/-- Both halves of a node fit the two parts of its place. -/
theorem NodeOk.split {node : Node ι α β} (h : NodeOk key null G q node) {as bs : List α} {s : α}
    (hs : SplitPlaces G G' c n q (key s)) (hkeys : node.keys = as ++ s :: bs) (hbs : bs ≠ []) :
    NodeOk key null G' ⟨q.level, q.lo, (key s : WithTop κ)⟩ (node.takeTo (as.length + 1) n) ∧
      NodeOk key null G' ⟨q.level, (key s : WithBot κ), q.hi⟩ (node.dropTo (as.length + 1)) := by
  have htake : node.keys.take (as.length + 1) = as ++ [s] := by
    rw [hkeys, List.append_cons, List.take_left' (by simp)]
  have hdrop : node.keys.drop (as.length + 1) = bs := by
    rw [hkeys, List.append_cons, List.drop_left' (by simp)]
  have hsorted := h.sorted
  rw [hkeys, List.pairwise_append, List.pairwise_cons] at hsorted
  obtain ⟨has, ⟨hsbs, hbsSorted⟩, hcross⟩ := hsorted
  have hbounds := h.bounds
  rw [hkeys] at hbounds
  -- a child is a level below `c`, so its place is not one that changes
  have hlevel {l : Nat} {id : ι} {p : Place κ} (hl : q.level = l + 1) (hid : G id = some p)
      (hp : p.level = l) : G' id = some p := by
    refine hs.other hid ?_
    rintro rfl
    obtain rfl : q = p := by simpa [hs.old] using hid
    omega
  constructor
  · constructor
    · rw [Node.keys_takeTo, htake, List.pairwise_append]
      exact ⟨has, List.pairwise_singleton _ _, fun a ha b hb =>
        hcross a ha b (by simp at hb; simp [hb])⟩
    · intro a ha
      rw [Node.keys_takeTo, htake, List.mem_append, List.mem_singleton] at ha
      refine ⟨(hbounds a (by simp; tauto)).1, ?_⟩
      rw [WithTop.coe_le_coe]
      rcases ha with ha | rfl
      · exact (hcross a ha s (by simp)).le
      · exact le_rfl
    · intro k hk
      refine ⟨as, s, by rw [Node.keys_takeTo, htake], WithTop.coe_injective hk⟩
    · -- behind the lower half comes the upper one
      intro k hk
      refine ⟨⟨q.level, (key s : WithBot κ), q.hi⟩, ?_, rfl, ?_⟩
      · rw [Node.right_takeTo]
        exact hs.right
      · rw [WithTop.coe_injective hk]
    · have hshape := h.shape
      cases node with
      | leaf rows right => exact ⟨hshape.1, fun htop => absurd htop (WithTop.coe_ne_top)⟩
      | inner seps right =>
          obtain ⟨l, hl, hkids, -⟩ := hshape
          refine ⟨l, hl, fun x hx => ?_, fun htop => absurd htop (WithTop.coe_ne_top)⟩
          have hmem : x ∈ children key l q.lo seps := by
            rw [← List.take_append_drop (as.length + 1) seps, children_append]
            exact List.mem_append_left _ hx
          refine hlevel hl (hkids x hmem) ?_
          obtain ⟨_, _, _, _, _, hplace⟩ := mem_children key hmem
          rw [hplace]
  · constructor
    · rw [Node.keys_dropTo, hdrop]
      exact hbsSorted
    · intro a ha
      rw [Node.keys_dropTo, hdrop] at ha
      exact ⟨WithBot.coe_lt_coe.mpr (hsbs a ha), (hbounds a (by simp [ha])).2⟩
    · intro k hk
      obtain ⟨ks, a, hks, hak⟩ := h.closing k hk
      rcases List.eq_nil_or_concat bs with rfl | ⟨bs', b, rfl⟩
      · exact absurd rfl hbs
      · refine ⟨bs', b, by rw [Node.keys_dropTo, hdrop, List.concat_eq_append], ?_⟩
        rw [hkeys, List.concat_eq_append, ← List.cons_append, ← List.append_assoc] at hks
        have := List.append_inj_right' hks rfl
        rw [List.cons.inj this |>.1, hak]
    · intro k hk
      obtain ⟨r, hr, hrl, hrlo⟩ := h.sibling k hk
      obtain ⟨r', hr', hrl', hrlo'⟩ := hs.sibling hr
      exact ⟨r', by rw [Node.right_dropTo]; exact hr', hrl'.trans hrl, hrlo'.trans hrlo⟩
    · have hshape := h.shape
      cases node with
      | leaf rows right => exact hshape
      | inner seps right =>
          obtain ⟨l, hl, hkids, hright⟩ := hshape
          -- the children of the upper half begin where those of the lower half end
          have hend : endKey key q.lo ((seps.take (as.length + 1)).map Sep.key) = key s := by
            rw [List.map_take]
            rw [Node.keys] at htake
            rw [htake, endKey_snoc]
          refine ⟨l, hl, fun x hx => ?_, fun htop => ?_⟩
          · have hmem : x ∈ children key l q.lo seps := by
              rw [← List.take_append_drop (as.length + 1) seps, children_append, hend]
              exact List.mem_append_right _ hx
            refine hlevel hl (hkids x hmem) ?_
            obtain ⟨_, _, _, _, _, hplace⟩ := mem_children key hmem
            rw [hplace]
          · have := hright htop
            rw [← List.take_append_drop (as.length + 1) seps, List.map_append, endKey_append,
              hend] at this
            exact hlevel hl this rfl

/-- The child a search enters after passing the separators in front of `post`. -/
def childOf (post : List (Sep ι α)) (right : ι) : ι :=
  match post with
  | [] => right
  | k :: _ => k.child

/-- Put a separator in front of `post`: the child there is now the left half
of a split and `n` the right one. -/
def insertSep (pre post : List (Sep ι α)) (right : ι) (s : α) (n : ι) : Node ι α β :=
  match post with
  | [] => .inner (pre ++ [⟨right, s⟩]) n
  | k :: post => .inner (pre ++ ⟨k.child, s⟩ :: ⟨n, k.key⟩ :: post) right

theorem keys_insertSep (pre post : List (Sep ι α)) (right : ι) (s : α) (n : ι) :
    (insertSep pre post right s n : Node ι α β).keys =
      pre.map Sep.key ++ s :: post.map Sep.key := by
  cases post <;> simp [insertSep, Node.keys]

variable {pre post : List (Sep ι α)} {right : ι} {p : Place κ}

omit [LinearOrder κ] in
theorem links_takeTo {node : Node ι α β} {m : Nat} {c : ι}
    (hc : c ∈ (node.takeTo m n).links) :
    c = n ∨ c ∈ node.links := by
  cases node with
  | leaf rows right => cases hc
  | inner seps right =>
      simp only [Node.takeTo, Node.links, List.mem_append, List.mem_singleton] at hc
      rcases hc with hc | rfl
      · obtain ⟨sep, hsep, rfl⟩ := List.mem_map.mp hc
        exact Or.inr (List.mem_append_left _ (List.mem_map_of_mem (List.mem_of_mem_take hsep)))
      · exact Or.inl rfl

omit [LinearOrder κ] in
theorem links_dropTo {node : Node ι α β} {m : Nat} {c : ι} (hc : c ∈ (node.dropTo m).links) :
    c ∈ node.links := by
  cases node with
  | leaf rows right => cases hc
  | inner seps right =>
      simp only [Node.dropTo, Node.links, List.mem_append, List.mem_singleton] at hc
      rcases hc with hc | rfl
      · obtain ⟨sep, hsep, rfl⟩ := List.mem_map.mp hc
        exact List.mem_append_left _ (List.mem_map_of_mem (List.mem_of_mem_drop hsep))
      · exact List.mem_append_right _ (List.mem_singleton_self _)

omit [LinearOrder κ] in
theorem links_insertSep {s : α} {c : ι}
    (hc : c ∈ (insertSep pre post right s n : Node ι α β).links) :
    c = n ∨ c ∈ (Node.inner (pre ++ post) right : Node ι α β).links := by
  cases post with
  | nil =>
      simp only [insertSep, Node.links, List.map_append, List.map_cons,
        List.map_nil, List.mem_append, List.mem_singleton, List.append_nil] at hc ⊢
      tauto
  | cons sep post =>
      simp only [insertSep, Node.links, List.map_append, List.map_cons, List.mem_append,
        List.mem_cons] at hc ⊢
      tauto

/-- The place of the child in front of `post`. -/
theorem NodeOk.childOf_place (h : NodeOk key null G p (.inner (pre ++ post) right : Node ι α β))
    (hpost : post = [] → p.hi = ⊤) :
    ∃ l hi, p.level = l + 1 ∧
      G (childOf post right) = some ⟨l, endKey key p.lo (pre.map Sep.key), hi⟩ ∧
      (post = [] → hi = ⊤) ∧ (∀ k ∈ post.head?, hi = key k.key) := by
  obtain ⟨l, hl, hkids, hright⟩ := h.shape
  cases post with
  | nil =>
      refine ⟨l, ⊤, hl, ?_, fun _ => rfl, by simp⟩
      simpa [childOf] using hright (hpost rfl)
  | cons k post =>
      refine ⟨l, (key k.key : WithTop κ), hl, hkids (k.child, _) ?_, by simp, by simp⟩
      rw [children_append]
      exact List.mem_append_right _ (List.mem_cons_self ..)

theorem le_endKey_of_mem {lo : WithBot κ} {as : List α} {a : α}
    (hs : as.Pairwise fun a b => key a < key b) (ha : a ∈ as) :
    (key a : WithBot κ) ≤ endKey key lo as := by
  rcases List.eq_nil_or_concat as with rfl | ⟨bs, b, rfl⟩
  · simp at ha
  · rw [List.concat_eq_append] at ha hs ⊢
    rw [endKey_snoc, WithBot.coe_le_coe]
    rcases List.mem_append.mp ha with ha | ha
    · exact ((List.pairwise_append.mp hs).2.2 a ha b (by simp)).le
    · rw [List.mem_singleton.mp ha]

/-- The parent of a split node, with the new separator. -/
theorem NodeOk.insertSep (h : NodeOk key null G p (.inner (pre ++ post) right : Node ι α β))
    {s : α} (hpost : post = [] → p.hi = ⊤) (hs : SplitPlaces G G' (childOf post right) n q (key s))
    (hlo : q.lo < key s) (hhi : (key s : WithTop κ) < q.hi) :
    NodeOk key null G' p (insertSep pre post right s n : Node ι α β) := by
  obtain ⟨l, hi, hl, hplace, hnil, hhead⟩ := h.childOf_place hpost
  obtain rfl := Option.some.inj (hs.old.symm.trans hplace)
  have hsorted := h.sorted
  have hbounds := h.bounds
  have hclosing := h.closing
  simp only [Node.keys, List.map_append] at hsorted hbounds hclosing
  obtain ⟨hpre, hpostSorted, hcross⟩ := List.pairwise_append.mp hsorted
  -- the new separator stands between those in front of the child and those behind it
  have hpreLt : ∀ a ∈ pre.map Sep.key, key a < key s := fun a ha =>
    WithBot.coe_lt_coe.mp ((le_endKey_of_mem hpre ha).trans_lt hlo)
  have hpostGt : ∀ a ∈ post.map Sep.key, key s < key a := by
    intro a ha
    cases post with
    | nil => simp at ha
    | cons k post =>
        have hk : key s < key k.key := by
          have := hhead k rfl
          rw [this] at hhi
          exact WithTop.coe_lt_coe.mp hhi
        rcases List.mem_cons.mp ha with rfl | ha
        · exact hk
        · exact hk.trans ((List.pairwise_cons.mp hpostSorted).1 a ha)
  have hinside : p.Has (key s) := by
    refine ⟨(le_endKey key fun a ha => (hbounds a (by simp [ha])).1).trans_lt hlo, ?_⟩
    cases post with
    | nil => rw [hpost rfl]; exact le_top
    | cons k post =>
        exact (WithTop.coe_le_coe.mpr (hpostGt k.key (by simp)).le).trans
          (hbounds k.key (by simp)).2
  refine ⟨?_, ?_, ?_, ?_, ?_⟩
  · rw [keys_insertSep, List.pairwise_append, List.pairwise_cons]
    refine ⟨hpre, ⟨hpostGt, hpostSorted⟩, fun a ha b hb => ?_⟩
    rcases List.mem_cons.mp hb with rfl | hb
    · exact hpreLt a ha
    · exact hcross a ha b hb
  · intro a ha
    rw [keys_insertSep] at ha
    simp only [List.mem_append, List.mem_cons] at ha
    rcases ha with ha | rfl | ha
    · exact hbounds a (by simp [ha])
    · exact hinside
    · exact hbounds a (by simp [ha])
  · intro k hk
    obtain ⟨as, a, has, hak⟩ := hclosing k hk
    have hne : post ≠ [] := fun hp => by simp [hpost hp] at hk
    have hne' : post.map Sep.key ≠ [] := by simpa using hne
    rcases List.eq_nil_or_concat (post.map Sep.key) with hp | ⟨bs, b, hp⟩
    · exact absurd hp hne'
    · rw [List.concat_eq_append] at hp
      rw [hp, ← List.append_assoc] at has
      have hab : b = a := (List.cons.inj (List.append_inj_right' has rfl)).1
      exact ⟨pre.map Sep.key ++ s :: bs, a, by rw [keys_insertSep, hp, hab]; simp, hak⟩
  · intro k hk
    obtain ⟨r, hr, hrl, hrlo⟩ := h.sibling k hk
    obtain ⟨r', hr', hrl', hrlo'⟩ := hs.sibling hr
    refine ⟨r', ?_, hrl'.trans hrl, hrlo'.trans hrlo⟩
    cases post with
    | nil => simp [hpost rfl] at hk
    | cons k post => exact hr'
  · obtain ⟨l', hl', hkids, hright⟩ := h.shape
    obtain rfl : l = l' := by omega
    rw [children_append] at hkids
    -- a child in front ends below `s`, so it is not the one that was split
    have hpreKids : ∀ x ∈ children key l p.lo pre, G' x.1 = some x.2 := by
      intro x hx
      have hxG := hkids x (List.mem_append_left _ hx)
      refine hs.other hxG ?_
      intro hxc
      rw [hxc, hs.old] at hxG
      obtain ⟨u, t, v, rfl, -, ht⟩ := mem_children key hx
      have hxhi := congrArg Place.hi ((Option.some.inj hxG).trans ht)
      dsimp only at hxhi
      rw [hxhi, WithTop.coe_lt_coe] at hhi
      exact absurd hhi (not_lt.mpr (hpreLt t.key (by simp)).le)
    -- the split child is the last one, or `k` closes its upper half
    cases post with
    | nil =>
        refine ⟨l, hl, fun x hx => ?_, fun htop => ?_⟩
        · rw [children_append] at hx
          rcases List.mem_append.mp hx with hx | hx
          · exact hpreKids x hx
          · simp only [children, List.mem_singleton] at hx
            rw [hx]
            exact hs.left
        · rw [List.map_append, List.map_cons, List.map_nil, endKey_snoc, hs.right, hnil rfl]
    | cons k post =>
        have hhi' := hhead k rfl
        refine ⟨l, hl, fun x hx => ?_, fun htop => ?_⟩
        · rw [children_append] at hx
          rcases List.mem_append.mp hx with hx | hx
          · exact hpreKids x hx
          · simp only [children, List.mem_cons] at hx
            rcases hx with rfl | rfl | hx
            · exact hs.left
            · rw [← hhi']
              exact hs.right
            · have hxG := hkids x (List.mem_append_right _ (List.mem_cons_of_mem _ hx))
              refine hs.other hxG ?_
              intro hxc
              rw [hxc, hs.old] at hxG
              obtain ⟨u, t, v, rfl, -, ht⟩ := mem_children key hx
              have hxlo := congrArg Place.lo ((Option.some.inj hxG).trans ht)
              dsimp only at hxlo
              -- a child behind begins above `s`
              have hle : (key k.key : WithBot κ) ≤ endKey key (key k.key) (u.map Sep.key) := by
                refine le_endKey key fun a ha => WithBot.coe_lt_coe.mpr ?_
                refine (List.pairwise_cons.mp hpostSorted).1 a ?_
                rw [List.map_append]
                exact List.mem_append_left _ ha
              rw [← hxlo] at hle
              have := WithBot.coe_lt_coe.mp (hle.trans_lt hlo)
              exact absurd this (not_lt.mpr (hpostGt k.key (by simp)).le)
        · have hG := hright htop
          have hne : right ≠ childOf (k :: post) right := by
            intro hc
            rw [← hc, hG] at hplace
            simp [hhi'] at hplace
          have hend : endKey key p.lo ((pre ++ ⟨k.child, s⟩ :: ⟨n, k.key⟩ :: post).map Sep.key) =
              endKey key p.lo ((pre ++ k :: post).map Sep.key) := by
            simp [endKey]
          rw [hend]
          exact hs.other hG hne

end Split

end Wednesday.Lib.FenceTree
