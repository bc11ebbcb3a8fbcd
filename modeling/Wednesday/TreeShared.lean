import Wednesday.TreeInterleaved

/-!
The search tree the clients share. A root that is being replaced counts as whole
until the page above its halves is written; with that the pages form a search tree in
every state, as long as a client that fixes the root finds the page to be the root still.
-/

namespace Wednesday

open Lib Prog Pager FenceTree

/-- The insert has halved the root and not yet set the new one. -/
def InsertPoint.Replaces : InsertPoint → Prop
  | .newRoot _ _ _ => True
  | .setRoot _ _ _ _ => True
  | _ => False

/-- The row of the insert is not placed yet. -/
def InsertPoint.Unplaced : InsertPoint → Prop
  | .exit _ _ _ => False
  | _ => True

/-- The pages an insert goes on with are responsible for its key. -/
def InsertPoint.OnTree (rank : Bytes → Nat) (F : Fences) (key : Blob) (s : Sys) : InsertPoint → Prop
  | .splitRoot root => root.id = s.tree.root
  | .newRoot root _ _ => root.id = s.tree.root
  | .setRoot root split _ splitKey =>
      root.id = s.tree.root ∧ Covers rank F key.bytes (halves key splitKey root split).1.id
  | .visit _ page _ => Covers rank F key.bytes page.id
  | .fixChild _ parent _ _ => Covers rank F key.bytes parent.id
  | .splitChild _ parent _ _ => Covers rank F key.bytes parent.id
  | _ => True

/-- The page a lookup searches is responsible for its key. -/
def LookupPoint.OnTree (rank : Bytes → Nat) (F : Fences) (key : Blob) : LookupPoint → Prop
  | .visit page _ => Covers rank F key.bytes page.id
  | .fixChild page _ => Covers rank F key.bytes page.id
  | _ => True

def TreeClient.OnTree (c : TreeClient) (rank : Bytes → Nat) (F : Fences) (s : Sys) : Prop :=
  match c.point with
  | .idle => True
  | .insert p => p.OnTree rank F c.key s
  | .lookup p => p.OnTree rank F c.key

/-- The levels a step of an insert adds to the tree. -/
def InsertPoint.raises : InsertPoint → Nat
  | .newRoot _ _ _ => 1
  | _ => 0

/-- A page and the one its upper half is on, where a step links to both. -/
def InsertPoint.siblings (s : Sys) : InsertPoint → Option (PageId × PageId)
  | .newRoot root split _ => some (root.id, split.id)
  | .splitChild _ _ page _ => some (page.id, s.pager.nextPage)
  | _ => none

/-- The level of a page of the tree. -/
def Fences.level (F : Fences) (id : PageId) : Nat := ((F.place id).map Place.level).getD 0

/-- A step keeps the levels of the pages, and halves are on the same level. -/
structure LevelsKept (p : InsertPoint) (s : Sys) (F F' : Fences) : Prop where
  height : F'.height = F.height + p.raises
  levels : ∀ id, F.place id ≠ none → F'.level id = F.level id
  siblings : ∀ a b, p.siblings s = some (a, b) → F'.level b = F'.level a

/-- The root a client has read and is about to fix. -/
def TreePoint.fixesRoot : TreePoint → Option PageId
  | .insert (.fixRoot id) => some id
  | .lookup (.fixRoot id) => some id
  | _ => none

section

variable {κ : Type}

/-- The root the client has read is the root still. -/
def RootKept (S : TreeThreads κ) (c : κ) : Prop :=
  ∀ id ∈ (S.client c).point.fixesRoot, id = S.shared.tree.root

instance (S : TreeThreads κ) (c : κ) : Decidable (RootKept S c) :=
  inferInstanceAs (Decidable (∀ _ ∈ _, _ = _))

/-- The nodes with a root that is being replaced as a whole, and the root they have. -/
inductive WholeNodes (S : TreeThreads κ) (nodes : PageId → TreeNode) (F : Fences) :
    (PageId → TreeNode) → PageId → Prop where
  | settled (hnone : ∀ c p, (S.client c).point = .insert p → ¬ p.Replaces) :
      WholeNodes S nodes F nodes S.shared.tree.root
  | halved {c : κ} {root split : PageRef} {splitKey : Blob} {whole : PageId → TreeNode}
      (hpoint : (S.client c).point = .insert (.newRoot root split splitKey))
      (hroot : root.id = S.shared.tree.root)
      (hnodes : nodes = splitNodes whole root.id split.id) (hcut : cutAt (whole root.id) ≠ 0)
      (hkey : splitKey.bytes = cutKey (whole root.id)) (hnew : F.place split.id = none) :
      WholeNodes S nodes F whole S.shared.tree.root
  | crowned {c : κ} {root split new : PageRef} {splitKey : Blob}
      (hpoint : (S.client c).point = .insert (.setRoot root split new splitKey))
      (hroot : root.id = S.shared.tree.root) :
      WholeNodes S nodes F nodes new.id

/-- The pages form a search tree of the rows, and the clients are on their ways through it. -/
structure SharedTree (K : Bytes → Prop) (rank : Bytes → Nat) (R : TreeRow → Prop)
    (nodes whole : PageId → TreeNode)
    (F : Fences) (root : PageId) (S : TreeThreads κ) : Prop where
  held : Interleaved nodes S
  wholeNodes : WholeNodes S nodes F whole root
  fenced : Fenced rank R whole F (S.shared.rooted root)
  rows : ∀ row, R row → K row.key
  own : ∀ c, (S.client c).point ≠ .idle → K (S.client c).key.bytes
  onTree : ∀ c, (S.client c).OnTree rank F S.shared
  fresh : ∀ c p, (S.client c).point = .insert p → p.Unplaced →
    ∀ row, R row → rank row.key ≠ rank (S.client c).key.bytes
  apart : ∀ c d p q, c ≠ d → (S.client c).point = .insert p → (S.client d).point = .insert q →
    rank (S.client c).key.bytes ≠ rank (S.client d).key.bytes

variable {K : Bytes → Prop} {rank : Bytes → Nat} {R R' : TreeRow → Prop}
  {nodes nodes' whole whole' : PageId → TreeNode}
  {F F' : Fences} {root root' id c' n r : PageId} {S : TreeThreads κ} {c d : κ} {s t : Sys}
    {key : Blob} {page : PageRef}

/-! ### Nodes before a split -/

/-- A change beside a split page is one before the split. -/
theorem splitNodes_update {node : TreeNode} (hr : id ≠ r) (hn : id ≠ n) :
    splitNodes (Function.update nodes id node) r n = Function.update
      (splitNodes nodes r n) id node := by
  rw [splitNodes, splitNodes, Function.update_of_ne (Ne.symm hr), Function.update_comm hr,
    Function.update_comm hn]

theorem splitNodes_childNodes {parent : PageId} {pre post : List TreeSep}
    {right : PageId} {m : PageId}
    (hr : id ≠ r ∧ m ≠ r ∧ parent ≠ r) (hn : id ≠ n ∧ m ≠ n ∧ parent ≠ n) :
    childNodes (splitNodes nodes r n) id m parent pre post right =
      splitNodes (childNodes nodes id m parent pre post right) r n := by
  have hself : splitNodes nodes r n id = nodes id := splitNodes_other hr.1 hn.1
  rw [childNodes, childNodes, splitNodes_update hr.2.2 hn.2.2]
  conv_rhs => rw [splitNodes.eq_def nodes id m, splitNodes_update hr.2.1 hn.2.1,
    splitNodes_update hr.1 hn.1]
  rw [splitNodes.eq_def (splitNodes nodes r n) id m, hself]

/-! ### Halves -/

theorem Fenced.moved (h : Fenced rank R nodes F s) (hroot : t.tree.root = s.tree.root)
    (hthere : ∀ id, s.pageAt id ≠ none → t.pageAt id ≠ none) : Fenced rank R nodes F t :=
  ⟨hroot ▸ h.tree, fun id p hid => hthere id (h.there id p hid), h.keys, h.rows⟩

/-- Of two halves, the one an insert goes on with is responsible for its key. -/
theorem covers_halves {type : Nat} {k : Bytes} {splitKey : Blob} {split : PageRef} {q : Place Nat}
    (hin : InOrder type K rank R key) (hnew : ∀ row, R row → rank row.key ≠ rank key.bytes)
    (hk : ∃ row, R row ∧ row.key = k)
    (henc : KeyEncoded type k) (hsplit : splitKey.bytes = k)
    (hleft : F.place page.id = some ⟨q.level, q.lo, (rank k : WithTop Nat)⟩)
    (hright : F.place split.id = some ⟨q.level, (rank k : WithBot Nat), q.hi⟩)
    (hhas : q.Has (rank key.bytes)) :
    Covers rank F key.bytes (halves key splitKey page split).1.id := by
  have hcompare : keyCompare key.data splitKey.data = idCompare (keyId key.bytes) (keyId k) := by
    have henc' : KeyEncoded type splitKey.bytes := hsplit ▸ henc
    rw [← hsplit, ← (henc'.varintGet_of_holds (Blob.holds_bytes splitKey)).2, ← hin.ownId]
    rfl
  obtain ⟨row, hrow, rfl⟩ := hk
  have hne := hnew row hrow
  rcases halves_mem key splitKey page split with ⟨heq, hlt⟩ | ⟨heq, hge⟩
  · rw [hcompare, hin.orders.lt _ _ hin.own (hin.rows row hrow)] at hlt
    rw [heq]
    exact ⟨_, hleft, hhas.1, WithTop.coe_le_coe.mpr hlt.le⟩
  · rw [hcompare, hin.orders.lt _ _ hin.own (hin.rows row hrow)] at hge
    rw [heq]
    exact ⟨_, hright, WithBot.coe_lt_coe.mpr (lt_of_le_of_ne (not_lt.mp hge) hne), hhas.2⟩

/-! ### The root that is being replaced -/

theorem not_replaces {p : InsertPoint} (hpoint : (S.client c).point = .insert p)
    (hp : ¬ p.Replaces) :
    ∀ q, (S.client c).point = .insert q → ¬ q.Replaces := by
  intro q hq
  rw [hpoint] at hq
  cases hq
  exact hp

/-- Only the halves of a root that is being replaced are not whole. -/
theorem WholeNodes.eq_of_held (h : WholeNodes S nodes F whole root) (hheld : Interleaved nodes' S)
    (hc : ∀ p, (S.client c).point = .insert p → ¬ p.Replaces) {q : PageRef}
    (hq : q ∈ (S.client c).point.held) :
    whole q.id = nodes q.id := by
  cases h with
  | settled hnone => rfl
  | crowned hpoint hroot => rfl
  | @halved d r n splitKey whole hpoint hroot hnodes =>
      have hne : c ≠ d := by
        rintro rfl
        exact hc _ hpoint trivial
      have happart := hheld.apart c d hne q hq
      rw [hpoint] at happart
      rw [hnodes, splitNodes_other]
      · exact happart r (by simp [TreePoint.held, InsertPoint.held])
      · exact happart n (by simp [TreePoint.held, InsertPoint.held])

/-- Where no client that replaces the root holds it, the nodes are whole. -/
theorem WholeNodes.of_none (h : WholeNodes S nodes F whole root)
    (hnone : ∀ d p r, (S.client d).point = .insert p → p.Replaces → r ∈ p.held →
      r.id ≠ S.shared.tree.root) :
    whole = nodes ∧ root = S.shared.tree.root := by
  cases h with
  | settled _ => exact ⟨rfl, rfl⟩
  | crowned hpoint hid => exact absurd hid (hnone _ _ _ hpoint trivial (by simp [InsertPoint.held]))
  | halved hpoint hid => exact absurd hid (hnone _ _ _ hpoint trivial (by simp [InsertPoint.held]))

/-- Where a client has fixed the root and not halved it, no other is replacing it. -/
theorem WholeNodes.of_root_held (h : WholeNodes S nodes F whole root) (hheld : Interleaved nodes' S)
    (hc : ∀ p, (S.client c).point = .insert p → ¬ p.Replaces) {q : PageRef}
    (hq : q ∈ (S.client c).point.held)
    (hroot : q.id = S.shared.tree.root) : whole = nodes ∧ root = S.shared.tree.root := by
  refine h.of_none fun d p r hpoint hp hr hid => ?_
  have hne : c ≠ d := by
    rintro rfl
    exact hc _ hpoint hp
  refine hheld.apart c d hne q hq r ?_ (hroot.trans hid.symm)
  rw [hpoint]
  exact hr

/-- The client that replaces the root, by the root it holds. -/
theorem Interleaved.replaces_unique (hheld : Interleaved nodes S) {p q : InsertPoint}
    {top top' : PageRef}
    (hp : (S.client c).point = .insert p) (hq : (S.client d).point = .insert q)
    (htop : top ∈ p.held) (htop' : top' ∈ q.held)
    (hid : top.id = S.shared.tree.root) (hid' : top'.id = S.shared.tree.root) : c = d ∧ p = q := by
  have heq : c = d := by
    by_contra hne
    exact hheld.apart c d hne top (by rw [hp]; exact htop) top' (by rw [hq]; exact htop')
      (hid.trans hid'.symm)
  subst heq
  exact ⟨rfl, TreePoint.insert.inj (hp.symm.trans hq)⟩

theorem WholeNodes.of_halved (h : WholeNodes S nodes F whole root) (hheld : Interleaved nodes' S)
    {top split : PageRef}
    {splitKey : Blob} (hpoint : (S.client c).point = .insert (.newRoot top split splitKey))
    (hid : top.id = S.shared.tree.root) :
    nodes = splitNodes whole top.id split.id ∧ cutAt (whole top.id) ≠ 0 ∧
      splitKey.bytes = cutKey (whole top.id) ∧
      F.place split.id = none ∧ root = S.shared.tree.root := by
  have htop : top ∈ (InsertPoint.newRoot top split splitKey).held := by simp [InsertPoint.held]
  cases h with
  | settled hnone => exact absurd trivial (hnone c _ hpoint)
  | halved hpoint' hid' hnodes hcut hkey hnew =>
      obtain ⟨-, heq⟩ := hheld.replaces_unique hpoint hpoint' htop
          (by simp [InsertPoint.held]) hid hid'
      cases heq
      exact ⟨hnodes, hcut, hkey, hnew, rfl⟩
  | crowned hpoint' hid' =>
      obtain ⟨-, heq⟩ := hheld.replaces_unique hpoint hpoint' htop
          (by simp [InsertPoint.held]) hid hid'
      cases heq

theorem WholeNodes.of_crowned (h : WholeNodes S nodes F whole root) (hheld : Interleaved nodes' S)
    {top split new : PageRef}
    {splitKey : Blob} (hpoint : (S.client c).point = .insert (.setRoot top split new splitKey))
    (hid : top.id = S.shared.tree.root) : whole = nodes ∧ root = new.id := by
  have htop : top ∈ (InsertPoint.setRoot top split new splitKey).held := by simp [InsertPoint.held]
  cases h with
  | settled hnone => exact absurd trivial (hnone c _ hpoint)
  | halved hpoint' hid' =>
      obtain ⟨-, heq⟩ := hheld.replaces_unique hpoint hpoint' htop
          (by simp [InsertPoint.held]) hid hid'
      cases heq
  | crowned hpoint' hid' =>
      obtain ⟨-, heq⟩ := hheld.replaces_unique hpoint hpoint' htop
          (by simp [InsertPoint.held]) hid hid'
      cases heq
      exact ⟨rfl, rfl⟩

variable [DecidableEq κ]

/-- The root is whole for a client that has just fixed it. -/
theorem WholeNodes.of_root_fixed {client : TreeClient} (h : WholeNodes S nodes F whole root)
    (hheld : Interleaved nodes' (S.put c client t))
    (hc : ∀ p, (S.client c).point = .insert p → ¬ p.Replaces)
    {q : PageRef} (hq : q ∈ client.point.held) (hroot : q.id = S.shared.tree.root) :
    whole = nodes ∧ root = S.shared.tree.root := by
  refine h.of_none fun d p r hpoint hp hr hid => ?_
  have hne : d ≠ c := by
    rintro rfl
    exact hc _ hpoint hp
  refine hheld.apart c d (Ne.symm hne) q ?_ r ?_ (hroot.trans hid.symm)
  · rwa [S.client_put_self]
  · rw [S.client_put_ne hne, hpoint]
    exact hr

/-- A client that does not replace the root has changed the nodes of its own pages. -/
theorem WholeNodes.put {client : TreeClient} (h : WholeNodes S nodes F whole root)
    (hc : ∀ p, (S.client c).point = .insert p → ¬ p.Replaces)
    (hclient : ∀ p, client.point = .insert p → ¬ p.Replaces)
    (hroot : t.tree.root = S.shared.tree.root) (f : (PageId → TreeNode) → PageId → TreeNode)
    (hcomm : ∀ d r n splitKey w, d ≠ c → (S.client d).point = .insert (.newRoot r n splitKey) →
      f (splitNodes w r.id n.id) = splitNodes (f w) r.id n.id ∧ f w r.id = w r.id ∧
        F'.place n.id = F.place n.id) :
    WholeNodes (S.put c client t) (f nodes) F' (f whole) root := by
  have hother {d : κ} {p : InsertPoint} (hpoint : (S.client d).point = .insert p)
      (hp : p.Replaces) :
      d ≠ c ∧ ((S.put c client t).client d).point = .insert p := by
    have hne : d ≠ c := by
      rintro rfl
      exact hc _ hpoint hp
    exact ⟨hne, by rwa [S.client_put_ne hne]⟩
  cases h with
  | settled hnone =>
      have hsettled : WholeNodes (S.put c client t) (f nodes) F' (f nodes) t.tree.root := by
        refine .settled fun d p hpoint => ?_
        by_cases hd : d = c
        · rw [hd, S.client_put_self] at hpoint
          exact hclient p hpoint
        · rw [S.client_put_ne hd] at hpoint
          exact hnone d p hpoint
      rwa [hroot] at hsettled
  | crowned hpoint hid => exact .crowned (hother hpoint trivial).2 (hid.trans hroot.symm)
  | halved hpoint hid hnodes hcut hkey hnew =>
      obtain ⟨hne, hpoint'⟩ := hother hpoint trivial
      obtain ⟨hnodes', hself, hplace⟩ := hcomm _ _ _ _ whole hne hpoint
      have hhalved : WholeNodes (S.put c client t) (f nodes) F' (f whole) t.tree.root :=
        .halved hpoint' (hid.trans hroot.symm) (hnodes ▸ hnodes') (hself.symm ▸ hcut)
          (hself.symm ▸ hkey)
          (hplace.trans hnew)
      rwa [hroot] at hhalved

/-! ### The ways of the other clients -/

omit [DecidableEq κ] in
theorem Covers.congr {k : Bytes} (h : Covers rank F k id) (hplace : F'.place id = F.place id) :
    Covers rank F' k id := by
  obtain ⟨p, hp, hhas⟩ := h
  exact ⟨p, hplace.trans hp, hhas⟩

theorem TreeClient.OnTree.congr {client : TreeClient} (h : client.OnTree rank F s)
    (hplace : ∀ q ∈ client.point.held, F'.place q.id = F.place q.id)
    (hroot : ∀ q ∈ client.point.held, q.id = s.tree.root → q.id = t.tree.root) :
    client.OnTree rank F' t := by
  unfold TreeClient.OnTree at h ⊢
  split at h <;> rename_i hpoint <;> simp only [hpoint, TreePoint.held] at hplace hroot
  · trivial
  · rename_i p
    cases p with
    | splitRoot r => exact hroot r (List.mem_singleton_self r) h
    | newRoot r n splitKey => exact hroot r (by simp [InsertPoint.held]) h
    | setRoot r n new splitKey =>
        refine ⟨hroot r (by simp [InsertPoint.held]) h.1, h.2.congr (hplace _ ?_)⟩
        rcases halves_mem client.key splitKey r n with ⟨heq, -⟩ | ⟨heq, -⟩ <;>
          simp [heq, InsertPoint.held]
    | visit r page leave => exact Covers.congr h (hplace page (by simp [InsertPoint.held]))
    | fixChild r parent index next =>
        exact Covers.congr h (hplace parent (by simp [InsertPoint.held]))
    | splitChild r parent page index =>
        exact Covers.congr h (hplace parent (by simp [InsertPoint.held]))
    | readRoot => trivial
    | fixRoot id => trivial
    | exit r leave ok => trivial
  · rename_i p
    cases p with
    | visit page leave => exact Covers.congr h (hplace page (by simp [LookupPoint.held]))
    | fixChild page next => exact Covers.congr h (hplace page (by simp [LookupPoint.held]))
    | readRoot => trivial
    | fixRoot id => trivial
    | exit page ptr => trivial
    | decode ptr => trivial

/-- A client has made a step. -/
theorem SharedTree.put {client : TreeClient} (h : SharedTree K rank R nodes whole F root S)
    (hheld : Interleaved nodes' (S.put c client t))
    (hwhole : WholeNodes (S.put c client t) nodes' F' whole' root')
    (hfenced : Fenced rank R' whole' F' (t.rooted root'))
    (hrows : ∀ row, R' row → R row ∨ row.key = (S.client c).key.bytes ∧
      ∃ p, (S.client c).point = .insert p)
    (hplace : ∀ id, S.shared.pageAt id ≠ none → (∀ q ∈ (S.client c).point.held, q.id ≠ id) →
      F'.place id = F.place id)
    (hroot : t.tree.root = S.shared.tree.root ∨ ∃ q ∈ (S.client c).point.held,
      q.id = S.shared.tree.root)
    (hown : client.point ≠ .idle → K client.key.bytes) (honTree : client.OnTree rank F' t)
    (hfresh : ∀ p, client.point = .insert p → p.Unplaced → ∀ row, R' row →
      rank row.key ≠ rank client.key.bytes)
    (hapart : ∀ d p q, d ≠ c → client.point = .insert p → (S.client d).point = .insert q →
      rank client.key.bytes ≠ rank (S.client d).key.bytes) :
    SharedTree K rank R' nodes' whole' F' root' (S.put c client t) := by
  refine ⟨hheld, hwhole, hfenced, fun row hrow => ?_, fun d => ?_, fun d => ?_, fun d => ?_,
    fun d e p q hne hp hq => ?_⟩
  · rcases hrows row hrow with hrow | ⟨heq, p, hpoint⟩
    · exact h.rows row hrow
    · rw [heq]
      exact h.own c (by simp [hpoint])
  · by_cases hd : d = c
    · rwa [hd, S.client_put_self]
    · rw [S.client_put_ne hd]
      exact h.own d
  · by_cases hd : d = c
    · rwa [hd, S.client_put_self]
    · rw [S.client_put_ne hd]
      refine (h.onTree d).congr (fun q hq => hplace q.id ?_ fun p hp => h.held.apart c d
        (Ne.symm hd) p hp q hq)
        fun q hq hid => ?_
      · simp [(h.held.holding d).pageAt hq]
      · rcases hroot with hroot | ⟨p, hp, hid'⟩
        · exact hid.trans hroot.symm
        · exact absurd (hid'.trans hid.symm) (h.held.apart c d (Ne.symm hd) p hp q hq)
  · by_cases hd : d = c
    · rwa [hd, S.client_put_self]
    · rw [S.client_put_ne hd]
      intro p hpoint hp row hrow
      rcases hrows row hrow with hrow | ⟨heq, q, hq⟩
      · exact h.fresh d p hpoint hp row hrow
      · rw [heq]
        exact h.apart c d q p (Ne.symm hd) hq hpoint
  · by_cases hd : d = c <;> by_cases he : e = c
    · exact absurd (hd.trans he.symm) hne
    · rw [hd, S.client_put_self] at hp ⊢
      rw [S.client_put_ne he] at hq ⊢
      exact hapart e p q he hp hq
    · rw [S.client_put_ne hd] at hp ⊢
      rw [he, S.client_put_self] at hq ⊢
      exact (hapart d q p hd hq hp).symm
    · rw [S.client_put_ne hd] at hp ⊢
      rw [S.client_put_ne he] at hq ⊢
      exact h.apart d e p q hne hp hq

/-- A step that leaves the tree as it is. -/
theorem SharedTree.stay {client : TreeClient} (h : SharedTree K rank R nodes whole F root S)
    (hheld : Interleaved nodes (S.put c client t)) (hkey : client.key = (S.client c).key)
    (hroot : t.tree.root = S.shared.tree.root)
    (hthere : ∀ id, S.shared.pageAt id ≠ none → t.pageAt id ≠ none)
    (hc : ∀ p, (S.client c).point = .insert p → ¬ p.Replaces)
    (hclient : ∀ p, client.point = .insert p → ¬ p.Replaces ∧ ∃ q, (S.client c).point = .insert q ∧
      (p.Unplaced → q.Unplaced))
    (hcall : client.point ≠ .idle → (S.client c).point ≠ .idle) (honTree : client.OnTree rank F t) :
    SharedTree K rank R nodes whole F root (S.put c client t) := by
  refine h.put hheld (h.wholeNodes.put hc (fun p hp => (hclient p hp).1) hroot id
    fun _ _ _ _ _ _ _ => ⟨rfl, rfl, rfl⟩)
    (h.fenced.moved rfl hthere) (fun _ hrow => Or.inl hrow) (fun _ _ _ => rfl) (Or.inl hroot)
    (fun hidle => ?_) honTree
    (fun p hp hunplaced => ?_) fun d p q hd hp hq => ?_ <;> rw [hkey]
  · exact h.own c (hcall hidle)
  · obtain ⟨-, q, hq, hplaced⟩ := hclient p hp
    exact h.fresh c q hq (hplaced hunplaced)
  · obtain ⟨-, q', hq', -⟩ := hclient p hp
    exact h.apart c d q' q (Ne.symm hd) hq' hq

/-- A client in no call begins one, or stays there. -/
theorem SharedTree.set {client : TreeClient} (h : SharedTree K rank R nodes whole F root S)
    (hidle : (S.client c).point = .idle) (hheld : Interleaved nodes (S.set c client))
    (hclient : ∀ p, client.point = .insert p → ¬ p.Replaces)
    (honTree : client.OnTree rank F S.shared)
    (hown : client.point ≠ .idle → K client.key.bytes)
    (hfresh : ∀ p, client.point = .insert p → ∀ row, R row → rank row.key ≠ rank client.key.bytes)
    (hapart : ∀ d p q, d ≠ c → client.point = .insert p → (S.client d).point = .insert q →
      rank client.key.bytes ≠ rank (S.client d).key.bytes) :
    SharedTree K rank R nodes whole F root (S.set c client) := by
  have hnone : ∀ p, (S.client c).point = .insert p → ¬ p.Replaces := by simp [hidle]
  have hwhole : WholeNodes (S.put c client S.shared) nodes F whole root :=
    h.wholeNodes.put hnone hclient rfl id fun _ _ _ _ _ _ _ => ⟨rfl, rfl, rfl⟩
  exact h.put hheld hwhole h.fenced (fun _ hrow => Or.inl hrow) (fun _ _ _ => rfl)
    (Or.inl rfl) hown honTree
    (fun p hp _ => hfresh p hp) hapart

omit [DecidableEq κ] in
theorem SharedTree.inOrder (h : SharedTree K rank R nodes whole F root S) (ho : Orders K rank)
    (hcall : (S.client c).point ≠ .idle) : InOrder PAGE_FLAG_TABLE K rank R (S.client c).key :=
  ⟨(h.held.serves c).keyEncoded hcall, ho, h.rows, h.own c hcall⟩

/-! ### Levels -/

omit [DecidableEq κ] in
theorem Fences.level_eq {q : Place Nat} (h : F.place id = some q) :
    F.level id = q.level := by rw [level, h]; rfl

omit [DecidableEq κ] in
/-- A step after which the places are the same. -/
theorem LevelsKept.same {p : InsertPoint} (hraises : p.raises = 0)
    (hsiblings : p.siblings s = none) :
    LevelsKept p s F F := by
  refine ⟨?_, fun _ _ => rfl, fun a b hab => ?_⟩
  · rw [hraises, Nat.add_zero]
  · rw [hsiblings] at hab
    cases hab

omit [DecidableEq κ] in
/-- A page of the tree is cut. -/
theorem LevelsKept.of_split {p : InsertPoint} {place : PageId → Option (Place Nat)}
    {q : Place Nat} {x : Nat}
    (hplaces : SplitPlaces F.place place c' n q x)
    (hplace : ∀ id, F.place id ≠ none ∨ id = n → F'.place id = place id)
    (hheight : F'.height = F.height + p.raises) (hsiblings : p.siblings s = some (c', n)) :
    LevelsKept p s F F' := by
  have hold : F.place c' ≠ none := by
    rw [hplaces.old]
    exact Option.some_ne_none q
  have hleft : F'.level c' = q.level := by
    rw [Fences.level, hplace c' (Or.inl hold), hplaces.left]
    rfl
  refine ⟨hheight, fun id hid => ?_, fun a b hab => ?_⟩
  · by_cases hc : id = c'
    · rw [hc, hleft, F.level_eq hplaces.old]
    · have hn : id ≠ n := by
        rintro rfl
        exact hid hplaces.fresh
      rw [Fences.level, Fences.level, hplace id (Or.inl hid), hplaces.others id hc hn]
  · rw [hsiblings] at hab
    cases hab
    rw [hleft, Fences.level, hplace n (Or.inr rfl), hplaces.right]
    rfl

/-! ### Inserts -/

variable {client : TreeClient} {top split new parent : PageRef} {splitKey : Blob}

/-- A root is halved, and counts as whole from now on. -/
theorem SharedTree.splitRoot (h : SharedTree K rank R nodes whole F root S)
    (hpoint : (S.client c).point = .insert (.splitRoot top))
    (hcut : cellCount (S.shared.page top) / 2 ≠ 0)
    (hnew : S.shared.pageAt split.id = none) (hlt : split.id < 2 ^ 32)
    (hroot : t.tree.root = S.shared.tree.root)
    (hthere : ∀ id, S.shared.pageAt id ≠ none → t.pageAt id ≠ none)
    (hclient : client.point = .insert (.newRoot top split ((S.seen c).splitKey top split.id)))
    (hkey : client.key = (S.client c).key)
    (hheld : Interleaved (splitNodes nodes top.id split.id) (S.put c client t)) :
    SharedTree K rank R (splitNodes nodes top.id split.id) nodes F S.shared.tree.root
      (S.put c client t) := by
  have hid : top.id = S.shared.tree.root := by
    have honTree := h.onTree c
    simp only [TreeClient.OnTree, hpoint] at honTree
    exact honTree
  have hc : ∀ p, (S.client c).point = .insert p → ¬ p.Replaces := not_replaces hpoint not_false
  have hmem : top ∈ (S.client c).point.held := by
    rw [hpoint]
    exact List.mem_singleton_self top
  obtain ⟨hwhole, rfl⟩ := h.wholeNodes.of_root_held h.held hc hmem hid
  subst whole
  have hnode := h.held.pages.onPage (h.held.holding c) hmem
  have hhalved : WholeNodes (S.put c client t) (splitNodes nodes top.id split.id) F
      nodes t.tree.root := by
    refine .halved (by rw [S.client_put_self]; exact hclient) (hid.trans hroot.symm) rfl ?_
      (hnode.splitKey_bytes _ hcut hlt).1 (h.fenced.no_place hnew)
    rwa [cutAt, ← hnode.count]
  refine h.put hheld (hroot ▸ hhalved) (h.fenced.moved rfl hthere) (fun _ hrow => Or.inl hrow)
    (fun _ _ _ => rfl)
    (Or.inl hroot) (fun _ => ?_) ?_ (fun p _ _ => ?_) fun d p q hd _ hq => ?_
  · rw [hkey]
    exact h.own c (by simp [hpoint])
  · simp only [TreeClient.OnTree, hclient]
    exact hid.trans hroot.symm
  · rw [hkey]
    exact h.fresh c _ hpoint trivial
  · rw [hkey]
    exact h.apart c d _ q (Ne.symm hd) hpoint hq

/-- A page above its halves is written, and is the root from now on. -/
theorem SharedTree.newRoot (h : SharedTree K rank R nodes whole F root S) (ho : Orders K rank)
    (hpoint : (S.client c).point = .insert (.newRoot top split splitKey))
    (hnew : S.shared.pageAt new.id = none) (hzero : new.id ≠ 0)
    (hroot : t.tree.root = S.shared.tree.root)
    (hthere : ∀ id, id = new.id ∨ S.shared.pageAt id ≠ none → t.pageAt id ≠ none)
    (hclient : client.point = .insert (.setRoot top split new splitKey))
    (hkey : client.key = (S.client c).key)
    (hheld : Interleaved (Function.update nodes new.id (.inner [⟨top.id, splitKey.bytes⟩] split.id))
      (S.put c client t)) :
    ∃ F', SharedTree K rank R (Function.update nodes new.id
      (.inner [⟨top.id, splitKey.bytes⟩] split.id))
        (Function.update nodes new.id (.inner [⟨top.id, splitKey.bytes⟩] split.id)) F' new.id
        (S.put c client t) ∧
      LevelsKept (.newRoot top split splitKey) s F F' := by
  have hid : top.id = S.shared.tree.root := by
    have honTree := h.onTree c
    simp only [TreeClient.OnTree, hpoint] at honTree
    exact honTree
  have hheld' := h.held.holding c
  have hknows := h.held.knows c
  simp only [TreeClient.Knows, hpoint, TreePoint.held, InsertPoint.held] at hheld' hknows
  -- nobody else replaces the root, so the nodes are those of the halved page
  obtain ⟨rfl, hcut, hcutKey, hnone, rfl⟩ := h.wholeNodes.of_halved h.held hpoint hid
  have hin : InOrder PAGE_FLAG_TABLE K rank R (S.client c).key := h.inOrder ho (by simp [hpoint])
  have hnewPlace : F.place new.id = none := h.fenced.no_place hnew
  have hsplitThere : S.shared.pageAt split.id ≠ none := by
    simp [hheld'.pageAt (List.mem_cons_self ..)]
  have hne : split.id ≠ new.id := fun heq => hsplitThere (heq ▸ hnew)
  have hold : F.place top.id = some ⟨F.height, ⊥, ⊤⟩ := hid ▸ h.fenced.tree.root
  have hnodes : Function.update (splitNodes whole top.id split.id) new.id
      (.inner [⟨top.id, splitKey.bytes⟩] split.id) =
      topNodes whole top.id split.id new.id := by rw [topNodes, hcutKey]
  have hcrowned : Fenced rank R (topNodes whole top.id split.id new.id)
      (topFences rank whole F top.id split.id new.id)
      (t.rooted new.id) := by
    refine h.fenced.crowned hid.symm hcut hnone hnewPlace hne (ne_zero_of_there hsplitThere) hzero
      rfl fun id hid' => ?_
    refine hthere id (hid'.imp_right fun hid' => ?_)
    rcases hid' with rfl | hid'
    · exact hsplitThere
    · exact hid'
  have hplaces := splitPlaces (s := rank (cutKey (whole top.id))) hold hnone
  -- the places are those after the split, but for that of the new page
  have hplace {id : PageId} (hid' : S.shared.pageAt id ≠ none) :
      (topFences rank whole F top.id split.id new.id).place id =
      splitPlace F.place top.id split.id ⟨F.height, ⊥, ⊤⟩ (rank (cutKey (whole top.id))) id :=
    Function.update_of_ne (fun heq : id = new.id => hid' (heq ▸ hnew)) _ _
  have hcutRow : ∃ row, R row ∧ row.key = cutKey (whole top.id) := by
    refine h.fenced.keys _ _ hold _ ?_
    rw [(keys_cut hcut).1]
    simp
  have hlevels : LevelsKept (.newRoot top split splitKey) s F
      (topFences rank whole F top.id split.id new.id) := by
    refine .of_split hplaces (fun id hid' => hplace ?_) rfl rfl
    rcases hid' with hid' | rfl
    · obtain ⟨q, hq⟩ := Option.ne_none_iff_exists'.mp hid'
      exact h.fenced.there id q hq
    · exact hsplitThere
  refine ⟨topFences rank whole F top.id split.id new.id, h.put hheld ?_ (hnodes ▸ hcrowned)
    (fun _ hrow => Or.inl hrow) (fun id hid' hothers => ?_) (Or.inl hroot)
    (fun _ => ?_) ?_ (fun p _ _ => ?_)
    (fun d p q hd _ hq => ?_), hlevels⟩
  · exact .crowned (by rw [S.client_put_self]; exact hclient) (hid.trans hroot.symm)
  · simp only [hpoint, TreePoint.held, InsertPoint.held] at hothers
    rw [hplace hid']
    exact hplaces.others id (hothers top (by simp)).symm (hothers split (by simp)).symm
  · rw [hkey]
    exact h.own c (by simp [hpoint])
  · simp only [TreeClient.OnTree, hclient]
    refine ⟨hid.trans hroot.symm, ?_⟩
    rw [hkey]
    -- every key is below the old root, so the half for the key covers it
    have hhas : (⟨F.height, ⊥, ⊤⟩ : Place Nat).Has (rank (S.client c).key.bytes) :=
      ⟨WithBot.bot_lt_coe _, le_top⟩
    refine covers_halves hin (h.fresh c _ hpoint trivial) hcutRow
      (hcutKey ▸ hknows.2.1) hcutKey ?_ ?_ hhas
    · rw [hplace (by simp [hheld'.pageAt (by simp : top ∈ [split, top])])]
      exact hplaces.left
    · rw [hplace hsplitThere]
      exact hplaces.right
  · rw [hkey]
    exact h.fresh c _ hpoint trivial
  · rw [hkey]
    exact h.apart c d _ q (Ne.symm hd) hpoint hq

/-- The page above the halves becomes the root. -/
theorem SharedTree.setRoot (h : SharedTree K rank R nodes whole F root S)
    (hpoint : (S.client c).point = .insert (.setRoot top split new splitKey))
    (hroot : t.tree.root = new.id)
    (hthere : ∀ id, S.shared.pageAt id ≠ none → t.pageAt id ≠ none) {other : PageRef}
    (hclient : client.point = .insert (.visit (halves (S.client c).key splitKey top split).1
      (halves (S.client c).key splitKey top split).1 [other, new]))
    (hkey : client.key = (S.client c).key) (hheld : Interleaved nodes (S.put c client t)) :
    SharedTree K rank R nodes nodes F new.id (S.put c client t) := by
  have honTree := h.onTree c
  simp only [TreeClient.OnTree, hpoint] at honTree
  obtain ⟨hid, hcovers⟩ := honTree
  obtain ⟨hwhole, rfl⟩ := h.wholeNodes.of_crowned h.held hpoint hid
  subst whole
  have hsettled : WholeNodes (S.put c client t) nodes F nodes t.tree.root := by
    refine .settled fun d p hp hreplaces => ?_
    by_cases hd : d = c
    · rw [hd, S.client_put_self, hclient] at hp
      cases hp
      exact hreplaces
    · -- another client that replaces the root holds it too
      rw [S.client_put_ne hd] at hp
      have honTree := h.onTree d
      simp only [TreeClient.OnTree, hp] at honTree
      refine hd (Eq.symm ?_)
      cases p with
      | newRoot r n key => exact (h.held.replaces_unique hpoint hp (by simp [InsertPoint.held])
          (by simp [InsertPoint.held]) hid honTree).1
      | setRoot r n m key => exact (h.held.replaces_unique hpoint hp (by simp [InsertPoint.held])
          (by simp [InsertPoint.held]) hid honTree.1).1
      | _ => exact hreplaces.elim
  refine h.put hheld (hroot ▸ hsettled) (h.fenced.moved rfl hthere) (fun _ hrow => Or.inl hrow)
    (fun _ _ _ => rfl)
    (Or.inr ⟨top, by simp [hpoint, TreePoint.held, InsertPoint.held], hid⟩)
    (fun _ => ?_) ?_ (fun p _ _ => ?_)
    fun d p q hd _ hq => ?_
  · rw [hkey]
    exact h.own c (by simp [hpoint])
  · simp only [TreeClient.OnTree, hclient, hkey]
    exact hcovers
  · rw [hkey]
    exact h.fresh c _ hpoint trivial
  · rw [hkey]
    exact h.apart c d _ q (Ne.symm hd) hpoint hq

/-- A row is placed on its leaf. -/
theorem SharedTree.place {rows rows' : List TreeRow} {right : PageId} {u : Sys} {value : Blob}
    (h : SharedTree K rank R nodes whole F root S) (ho : Orders K rank)
    (hpoint : (S.client c).point = .insert (.visit top page []))
    (hplaced : RowPlaced PAGE_FLAG_TABLE nodes (S.client c).key value page
      (S.seen c) u rows rows' right)
    (hroot : t.tree.root = S.shared.tree.root)
    (hthere : ∀ id, S.shared.pageAt id ≠ none → t.pageAt id ≠ none)
    (hclient : client.point = .insert (.exit top [page] true))
    (hkey : client.key = (S.client c).key)
    (hheld : Interleaved (Function.update nodes page.id
      (.leaf (rows ++ ⟨(S.client c).key.bytes, value.bytes⟩ :: rows') right))
      (S.put c client t)) :
    ∃ whole', SharedTree K rank (withRow R (S.client c).key value)
      (Function.update nodes page.id (.leaf (rows ++ ⟨(S.client c).key.bytes, value.bytes⟩ :: rows')
        right)) whole' F root
      (S.put c client t) := by
  have hcovers := h.onTree c
  have hholding := h.held.holding c
  simp only [TreeClient.OnTree, TreePoint.held, hpoint] at hcovers hholding
  have hc : ∀ p, (S.client c).point = .insert p → ¬ p.Replaces := not_replaces hpoint not_false
  have hmem : page ∈ (S.client c).point.held := by
    rw [hpoint]
    exact List.mem_singleton_self page
  have hin : InOrder PAGE_FLAG_TABLE K rank R (S.client c).key := h.inOrder ho (by simp [hpoint])
  -- the row is placed in the tree with the whole root as well
  obtain ⟨data, hholds, hfree, -⟩ := hplaced.written
  have hplaced' : RowPlaced PAGE_FLAG_TABLE whole (S.client c).key value page (S.shared.rooted root)
      (((S.shared.rooted root).written page data).unfixed page) rows rows' right :=
    ⟨(h.wholeNodes.eq_of_held h.held hc hmem).trans hplaced.leaf, hplaced.below, hplaced.above,
      data, hholds, hfree, rfl⟩
  obtain ⟨hfenced, -⟩ := hplaced'.fenced h.fenced hin hcovers (hholding.rooted root)
  have hfenced' : Fenced rank (withRow R (S.client c).key value)
      (Function.update whole page.id (.leaf (rows ++ ⟨(S.client c).key.bytes, value.bytes⟩ ::
        rows') right)) F
      (t.rooted root) :=
    ⟨hfenced.tree, fun id p hid => hthere id (h.fenced.there id p hid), hfenced.keys, hfenced.rows⟩
  have hwhole : WholeNodes (S.put c client t)
      (Function.update nodes page.id (.leaf (rows ++ ⟨(S.client c).key.bytes, value.bytes⟩ ::
        rows') right)) F
      (Function.update whole page.id (.leaf (rows ++ ⟨(S.client c).key.bytes, value.bytes⟩ ::
        rows') right)) root := by
    refine h.wholeNodes.put hc (fun p hp => ?_) hroot (fun w => Function.update w page.id _)
      fun d r n splitKey w hd hd' => ?_
    · rw [hclient] at hp
      cases hp
      exact not_false
    · -- a client that is about to put a root above its halves has other pages than this leaf
      have happart := h.held.apart c d (Ne.symm hd) page hmem
      rw [hd'] at happart
      have hr : page.id ≠ r.id := happart r (by simp [TreePoint.held, InsertPoint.held])
      have hn : page.id ≠ n.id := happart n (by simp [TreePoint.held, InsertPoint.held])
      exact ⟨(splitNodes_update hr hn).symm, Function.update_of_ne hr.symm _ _, rfl⟩
  refine ⟨_, h.put hheld hwhole hfenced' (fun row hrow => ?_) (fun _ _ _ => rfl)
    (Or.inl hroot) (fun _ => ?_) ?_
    (fun p hp hunplaced => ?_) fun d p q hd _ hq => ?_⟩
  · rcases hrow with rfl | hrow
    · exact Or.inr ⟨rfl, _, hpoint⟩
    · exact Or.inl hrow
  · rw [hkey]
    exact h.own c (by simp [hpoint])
  · simp only [TreeClient.OnTree, hclient]
    trivial
  · rw [hclient] at hp
    cases hp
    exact hunplaced.elim
  · rw [hkey]
    exact h.apart c d _ q (Ne.symm hd) hpoint hq

omit [DecidableEq κ] in
theorem ChildStored.rooted {u : Sys} {index : Nat} (h : ChildStored s parent page index u)
    (root : PageId) :
    ChildStored (s.rooted root) parent page index (u.rooted root) := by
  refine ⟨h.divided, h.store, ?_, h.nextPage⟩
  simp only [Sys.rooted, h.tree]

/-- A child is split under the page above it. -/
theorem SharedTree.splitChild {pre post : List TreeSep} {right : PageId}
    (h : SharedTree K rank R nodes whole F root S) (ho : Orders K rank)
    (hpoint : (S.client c).point = .insert (.splitChild top parent page pre.length))
    (hstored : ChildStored (S.seen c) parent page pre.length t)
    (hbelow : Below nodes (varintGet (S.client c).key.data).1 parent pre.length page pre post right)
    (hlt : S.shared.pager.nextPage < 2 ^ 32) (hid : split.id = S.shared.pager.nextPage)
    {other : PageRef}
    (hclient : client.point = .insert (.visit top
      (halves (S.client c).key ((S.seen c).splitKey page split.id) page split).1 [other, parent]))
    (hkey : client.key = (S.client c).key)
    (hheld : Interleaved (childNodes nodes page.id split.id parent.id pre post right)
      (S.put c client t)) :
    ∃ whole' F', SharedTree K rank R (childNodes nodes page.id split.id parent.id pre post right)
      whole' F' root
        (S.put c client t) ∧ LevelsKept (.splitChild top parent page pre.length)
        (S.seen c) F F' := by
  have hcovers := h.onTree c
  have hholding := h.held.holding c
  simp only [TreeClient.OnTree, TreePoint.held, hpoint] at hcovers hholding
  have hc : ∀ p, (S.client c).point = .insert p → ¬ p.Replaces := not_replaces hpoint not_false
  have hmem {q : PageRef} (hq : q ∈ [page, parent]) : q ∈ (S.client c).point.held := by
    rw [hpoint]
    exact hq
  have hin : InOrder PAGE_FLAG_TABLE K rank R (S.client c).key := h.inOrder ho (by simp [hpoint])
  have hpage := h.wholeNodes.eq_of_held h.held hc (hmem (by simp : page ∈ [page, parent]))
  have hparent := h.wholeNodes.eq_of_held h.held hc (hmem (by simp : parent ∈ [page, parent]))
  have hnode := h.held.pages.onPage hholding (by simp [InsertPoint.held] : page ∈ _)
  have hnone : S.shared.pageAt split.id = none := hid ▸ h.held.pages.nextPage_none
  have hnew : F.place split.id = none := h.fenced.no_place hnone
  have hcut : cutAt (whole page.id) ≠ 0 := by
    rw [hpage, cutAt, ← hnode.count]
    exact hstored.divided
  -- the child is a level below its parent, and has the key
  obtain ⟨r, q, hr, hpost, hq, hlevel, hhas⟩ :=
    h.fenced.enters hin hcovers (hparent.symm ▸ hbelow.enters)
  rw [← hbelow.child] at hq
  have hseen : Fenced rank R whole F ((S.seen c).rooted root) := h.fenced.moved rfl fun _ hid => hid
  have hfenced := (hstored.rooted root).fenced hseen h.held.pages.nextPage_none
      h.held.pages.nextPage_ne_zero hcut
    (hparent.trans hbelow.enters.node) hbelow.child hr hpost hq hlevel
  have hplaces := splitPlaces (s := rank (cutKey (whole page.id))) hq hnew
  have hcutRow : ∃ row, R row ∧ row.key = cutKey (whole page.id) := by
    refine h.fenced.keys _ _ hq _ ?_
    rw [(keys_cut hcut).1]
    simp
  rw [show (((S.seen c).rooted root).pager.nextPage : PageId) = split.id from hid.symm] at hfenced
  have hroot : t.tree.root = S.shared.tree.root := congrArg BTree.root hstored.tree
  have hwhole : WholeNodes (S.put c client t)
      (childNodes nodes page.id split.id parent.id pre post right)
      (childFences rank whole F page.id split.id q)
      (childNodes whole page.id split.id parent.id pre post right) root := by
    refine h.wholeNodes.put hc (fun p hp => ?_) hroot
      (fun w => childNodes w page.id split.id parent.id pre post right)
      fun d r n splitKey w hd hd' => ?_
    · rw [hclient] at hp
      cases hp
      exact not_false
    · -- and neither of them is a half of a root that somebody replaces
      have hother {q q' : PageRef} (hq : q ∈ [page, parent])
          (hq' : q' ∈ [n, r]) : q.id ≠ q'.id := by
        refine h.held.apart c d (Ne.symm hd) q (hmem hq) q' ?_
        rw [hd']
        exact hq'
      have hthere {q' : PageRef} (hq' : q' ∈ [n, r]) : split.id ≠ q'.id := by
        intro heq
        have hpageAt := (h.held.holding d).pageAt
            (by rw [hd']; exact hq' : q' ∈ (S.client d).point.held)
        rw [← heq, hnone] at hpageAt
        cases hpageAt
      have hr : page.id ≠ r.id ∧ split.id ≠ r.id ∧ parent.id ≠ r.id :=
        ⟨hother (by simp) (by simp), hthere (by simp), hother (by simp) (by simp)⟩
      have hn : page.id ≠ n.id ∧ split.id ≠ n.id ∧ parent.id ≠ n.id :=
        ⟨hother (by simp) (by simp), hthere (by simp), hother (by simp) (by simp)⟩
      refine ⟨splitNodes_childNodes hr hn, ?_, hplaces.others _ hn.1.symm hn.2.1.symm⟩
      rw [childNodes, Function.update_of_ne hr.2.2.symm, splitNodes_other hr.1.symm hr.2.1.symm]
  have hlevels : LevelsKept (.splitChild top parent page pre.length) (S.seen c) F
      (childFences rank whole F page.id split.id q) :=
    .of_split hplaces (fun _ _ => rfl) rfl (by rw [hid]; rfl)
  refine ⟨_, _, h.put hheld hwhole hfenced (fun _ hrow => Or.inl hrow) (fun id hid' hothers => ?_)
    (Or.inl hroot)
    (fun _ => ?_) ?_ (fun p _ _ => ?_) (fun d p q hd _ hq => ?_), hlevels⟩
  · simp only [hpoint, TreePoint.held, InsertPoint.held] at hothers
    exact hplaces.others id (hothers page (by simp)).symm fun heq => hid' (heq ▸ hnone)
  · rw [hkey]
    exact h.own c (by simp [hpoint])
  · simp only [TreeClient.OnTree, hclient, hkey]
    have hbytes := hnode.splitKey_bytes (S.seen c).stack (hstored.divided) (hid ▸ hlt)
    rw [← hpage] at hbytes
    exact covers_halves hin (h.fresh c _ hpoint trivial) hcutRow hbytes.2 hbytes.1
      hplaces.left hplaces.right hhas
  · rw [hkey]
    exact h.fresh c _ hpoint trivial
  · rw [hkey]
    exact h.apart c d _ q (Ne.symm hd) hpoint hq

/-! ### All steps -/

/-- The client once its step has led to another point. -/
def TreeClient.goes (client : TreeClient) (p : TreePoint) (t : Sys) : TreeClient :=
  { client with err := t.err, stack := t.stack, point := p }

def TreeNext.point {α : Type} (f : α → TreePoint) : TreeNext α → TreePoint
  | .goto p => f p
  | .ret _ => .idle

/-- The rows after a step of an insert. -/
def rowsAfter (R : TreeRow → Prop) (key value : Blob) :
    InsertPoint → TreeNext InsertPoint → TreeRow → Prop
  | .visit _ _ _, .goto (.exit _ _ _) => withRow R key value
  | _, _ => R

theorem SharedTree.stayInsert {p : InsertPoint} {next : TreeNext InsertPoint}
    (h : SharedTree K rank R nodes whole F root S)
    (hpoint : (S.client c).point = .insert p) (hp : ¬ p.Replaces)
    (hroot : t.tree.root = S.shared.tree.root)
    (hthere : ∀ id, S.shared.pageAt id ≠ none → t.pageAt id ≠ none)
    (hnext : ∀ q, next = .goto q → ¬ q.Replaces ∧ (q.Unplaced → p.Unplaced) ∧
      q.OnTree rank F (S.client c).key t)
    (hheld : Interleaved nodes (S.put c ((S.client c).goes (next.point .insert) t) t)) :
    SharedTree K rank R nodes whole F root
      (S.put c ((S.client c).goes (next.point .insert) t) t) := by
  refine h.stay hheld rfl hroot hthere (fun q hq => ?_) (fun q hq => ?_)
    (fun _ => by simp [hpoint]) ?_
  · rw [hpoint] at hq
    cases hq
    exact hp
  · cases next with
    | goto q' =>
        cases hq
        obtain ⟨hreplaces, hplaced, -⟩ := hnext q rfl
        exact ⟨hreplaces, p, hpoint, hplaced⟩
    | ret reply => cases hq
  · cases next with
    | goto q => exact (hnext q rfl).2.2
    | ret reply => trivial

/-- A step of an insert keeps the tree, and adds its row when it places it. -/
theorem SharedTree.insert {p : InsertPoint} {next : TreeNext InsertPoint}
    (h : SharedTree K rank R nodes whole F root S)
    (ho : Orders K rank) (hpoint : (S.client c).point = .insert p)
    (hmove : InsertMoves PAGE_FLAG_TABLE (S.client c).key (S.client c).value nodes
      (S.seen c) p next t nodes')
    (hfits : p.Fits (S.client c).key (S.client c).value (S.seen c)) (hread : RootKept S c)
    (hheld : Interleaved nodes' (S.put c ((S.client c).goes (next.point .insert) t) t)) :
    ∃ whole' F' root', SharedTree K rank (rowsAfter R (S.client c).key (S.client c).value p next)
      nodes' whole' F' root'
        (S.put c ((S.client c).goes (next.point .insert) t) t) ∧ LevelsKept p (S.seen c) F F' := by
  have hholding := h.held.holding c
  have hknows := h.held.knows c
  have honTree := h.onTree c
  simp only [TreeClient.Knows, TreeClient.OnTree, hpoint, TreePoint.held] at hholding hknows honTree
  have hthere : ∀ id, S.shared.pageAt id ≠ none → t.pageAt id ≠ none := fun id hid =>
    (hmove.keeps h.held.pages.seen hholding.seen hknows.2.seen hfits).1.there hid
  cases hmove with
  | readRoot =>
      refine ⟨whole, F, root, h.stayInsert hpoint not_false rfl hthere (fun q hq => ?_) hheld,
        .same rfl rfl⟩
      cases hq
      exact ⟨not_false, fun _ => trivial, trivial⟩
  | @fixRoot id top t hid hfix =>
      have htree : t.tree.root = S.shared.tree.root := congrArg BTree.root hfix.tree
      -- the client has fixed the root, and knows that it is the root still
      have hid' : top.id = S.shared.tree.root :=
        hid.trans (hread id (by rw [hpoint, TreePoint.fixesRoot]; rfl))
      obtain ⟨-, heq⟩ := h.wholeNodes.of_root_fixed hheld (not_replaces hpoint not_false)
          (q := top) (by
        rw [TreeClient.goes, TreeNext.point, TreePoint.held]
        split <;> simp [InsertPoint.held]) hid'
      refine ⟨whole, F, root, h.stayInsert hpoint not_false htree hthere (fun q hq => ?_) hheld,
        .same rfl rfl⟩
      cases hq
      split
      · exact ⟨not_false, fun _ => trivial, hid'.trans htree.symm⟩
      · refine ⟨not_false, fun _ => trivial, ?_⟩
        rw [InsertPoint.OnTree, hid', ← heq]
        exact h.fenced.covers_root _
  | @splitRoot top split t hid hfix hcut =>
      refine ⟨_, _, _, h.splitRoot hpoint hcut (hid ▸ h.held.pages.nextPage_none)
        (hid ▸ hfits.nextPage_lt)
        (congrArg BTree.root hfix.tree) hthere rfl rfl hheld, .same rfl rfl⟩
  | @newRoot top split new splitKey t hid hfix =>
      have hpages := hfix.holding.pageAt_written (List.mem_cons_self ..)
        (pageInitRoot t.tree.pageSize (t.page new)
          (pageFlags (t.page top)) top.id splitKey split.id)
      -- the new page is there as well, once it is written
      have hthere' : ∀ id, id = new.id ∨ S.shared.pageAt id ≠ none → (t.written new
          (pageInitRoot t.tree.pageSize (t.page new) (pageFlags (t.page top)) top.id splitKey
            split.id)).pageAt id ≠ none := by
        rintro id (rfl | hid')
        · rw [hpages, Function.update_self]
          exact Option.some_ne_none _
        · exact hthere id hid'
      have hnone : S.shared.pageAt new.id = none := hid ▸ h.held.pages.nextPage_none
      have hzero : new.id ≠ 0 := hid ▸ h.held.pages.nextPage_ne_zero
      have htree : t.tree.root = S.shared.tree.root := congrArg BTree.root hfix.tree
      obtain ⟨F', hnew⟩ := h.newRoot ho hpoint hnone hzero (by exact htree) hthere'
          (by rfl) (by rfl) hheld
      exact ⟨_, F', new.id, hnew⟩
  | @setRoot top split new splitKey =>
      exact ⟨_, _, _, h.setRoot hpoint rfl hthere rfl rfl hheld, .same rfl rfl⟩
  | @leave top page q leave =>
      refine ⟨whole, F, root, h.stayInsert hpoint not_false rfl hthere (fun q hq => ?_) hheld,
        .same rfl rfl⟩
      cases hq
      exact ⟨not_false, fun _ => trivial, honTree⟩
  | @place top page data rows rows' right hleaf hdata hplaced =>
      obtain ⟨whole', hplace⟩ := h.place ho hpoint hplaced (by rfl) hthere (by rfl) (by rfl) hheld
      exact ⟨whole', F, root, hplace, .same rfl rfl⟩
  | @search top page index hinner hsearch =>
      refine ⟨whole, F, root, h.stayInsert hpoint not_false rfl hthere (fun q hq => ?_) hheld,
        .same rfl rfl⟩
      cases hq
      exact ⟨not_false, fun _ => trivial, honTree⟩
  | @fixChild top parent page index next t hid hfix =>
      have hc : ∀ p, (S.client c).point = .insert p → ¬ p.Replaces := not_replaces hpoint not_false
      have hparent : whole parent.id = nodes parent.id := h.wholeNodes.eq_of_held h.held hc (by
        rw [hpoint]
        exact List.mem_singleton_self parent)
      -- the place of the child has the key, since that of the page above it has it
      obtain ⟨pre, post, right, hbelow⟩ := hknows.2 page hid
      obtain ⟨-, q, -, -, hq, -, hhas⟩ := h.fenced.enters (h.inOrder ho (by simp [hpoint])) honTree
        (hparent.symm ▸ hbelow.enters)
      refine ⟨whole, F, root, h.stayInsert hpoint not_false (congrArg BTree.root hfix.tree) hthere
        (fun q hq => ?_) hheld, .same rfl rfl⟩
      cases hq
      split
      · exact ⟨not_false, fun _ => trivial, honTree⟩
      · exact ⟨not_false, fun _ => trivial, q, hbelow.child ▸ hq, hhas⟩
  | @splitChild top parent page split t pre post right data hid hfix hbelow hcut hdata =>
      have hstored := hfix.childStored hid hfits.1 (by simp) (by simp) hcut hdata
      obtain ⟨whole', F', hsplit⟩ := h.splitChild ho hpoint hstored hbelow hfits.1.nextPage_lt hid
          (by rfl) (by rfl) hheld
      exact ⟨whole', F', root, hsplit⟩
  | @release top q leave ok =>
      refine ⟨whole, F, root, h.stayInsert hpoint not_false rfl hthere (fun q hq => ?_) hheld,
        .same rfl rfl⟩
      cases hq
      exact ⟨not_false, fun hq => hq, trivial⟩
  | @inserted top =>
      refine ⟨whole, F, root, h.stayInsert hpoint not_false rfl hthere (fun q hq => ?_) hheld,
        .same rfl rfl⟩
      cases hq

/-- A step of a lookup keeps the tree. -/
theorem SharedTree.lookup {p : LookupPoint} {next : TreeNext LookupPoint}
    (h : SharedTree K rank R nodes whole F root S)
    (ho : Orders K rank) (hpoint : (S.client c).point = .lookup p)
    (hmove : LookupMoves (S.client c).key (S.seen c) p next t) (hread : RootKept S c)
    (hheld : Interleaved nodes (S.put c ((S.client c).goes (next.point .lookup) t) t)) :
    SharedTree K rank R nodes whole F root
      (S.put c ((S.client c).goes (next.point .lookup) t) t) := by
  have hholding := h.held.holding c
  have hknows := h.held.knows c
  have honTree := h.onTree c
  simp only [TreeClient.Knows, TreeClient.OnTree, hpoint, TreePoint.held] at hholding hknows honTree
  obtain ⟨hsame, -⟩ := hmove.same h.held.pages.seen hholding.seen hknows.seen
  have hnone : ∀ p, (S.client c).point ≠ .insert p := by simp [hpoint]
  have hroot : t.tree.root = S.shared.tree.root := congrArg BTree.root hsame.tree
  refine h.stay hheld rfl hroot (fun id hid => ?_) (fun q hq => absurd hq (hnone q))
    (fun q hq => ?_)
    (fun _ => by simp [hpoint]) ?_
  · rw [hsame.pageAt]
    exact hid
  · cases next <;> cases hq
  cases hmove with
  | @fixRoot id page t hid hfix =>
      have hid' : page.id = S.shared.tree.root :=
        hid.trans (hread id (by rw [hpoint, TreePoint.fixesRoot]; rfl))
      obtain ⟨-, heq⟩ := h.wholeNodes.of_root_fixed hheld
          (fun q hq => absurd hq (hnone q)) (q := page)
        (List.mem_singleton_self page) hid'
      show Covers rank F (S.client c).key.bytes page.id
      rw [hid', ← heq]
      exact h.fenced.covers_root _
  | @fixChild page child next t hid hfix =>
      have hwhole : whole page.id = nodes page.id :=
        h.wholeNodes.eq_of_held h.held (fun q hq => absurd hq (hnone q))
          (by simp [hpoint, TreePoint.held, LookupPoint.held])
      obtain ⟨pre, post, right, henters, rfl⟩ := hknows
      obtain ⟨-, q, -, -, hq, -, hhas⟩ :=
        h.fenced.enters (h.inOrder ho (by simp [hpoint])) honTree (hwhole.symm ▸ henters)
      exact ⟨q, hid ▸ hq, hhas⟩
  | leave => exact honTree
  | descend => exact honTree
  | _ => trivial

omit [DecidableEq κ] in
/-- Where a lookup has found the leaf of its key, the search finds the row of the key. -/
theorem SharedTree.searches (h : SharedTree K rank R nodes whole F root S)
    (ho : Orders K rank) {page : PageRef}
    (hpoint : (S.client c).point = .lookup (.visit page []))
    (hleaf : pageIsLeaf (pageFlags (S.shared.page page)) = true) :
    (∀ row, R row → rank row.key = rank (S.client c).key.bytes →
      (pageFindPointer (S.shared.page page) (S.client c).key).1 = true) ∧
    ∀ rows right, nodes page.id = .leaf rows right → ∀ row ∈ rows, R row := by
  have hmem : page ∈ (S.client c).point.held := by simp [hpoint, TreePoint.held, LookupPoint.held]
  have hcovers := h.onTree c
  simp only [TreeClient.OnTree, hpoint] at hcovers
  have hwhole : whole page.id = nodes page.id :=
    h.wholeNodes.eq_of_held h.held (by simp [hpoint]) hmem
  have hholds := hwhole ▸ h.held.pages.onPage (h.held.holding c) hmem
  refine ⟨fun row hrow hrank => ?_, fun rows right hnode row hmem => ?_⟩
  · obtain ⟨_, _, _, _, hfound⟩ := h.fenced.found_of_covers
        (h.inOrder ho (by simp [hpoint])) hcovers hholds hleaf hrow hrank
    rw [hfound]
  · obtain ⟨p, hp, -⟩ := hcovers
    exact (h.fenced.rows row).mp ⟨page.id, p, rows, right, hp, hwhole.trans hnode, hmem⟩

omit [DecidableEq κ] in
/-- A new table is a search tree without rows. -/
theorem TreeThreads.Starts.sharedTree {s₀ : Sys} (hstart : S.Starts s₀)
    (hcreated : TreeCreated PAGE_FLAG_TABLE s₀)
    (hsize : sizeofHeader ≤ s₀.tree.pageSize) (hs : s₀.Unrefused) (K : Bytes → Prop)
    (rank : Bytes → Nat) :
    ∃ F, SharedTree K rank (fun _ => False) (fun _ => .leaf [] 0)
      (fun _ => .leaf [] 0) F S.shared.tree.root S := by
  have hheld := hstart.interleaved hcreated hsize hs
  obtain ⟨rfl, hidle⟩ := hstart
  refine ⟨_, hheld, .settled (by simp [hidle]), hcreated.oneLeaf.fenced rank, fun _ hrow =>
    hrow.elim, fun c hcall => ?_, fun c => ?_, fun _ _ _ _ _ hrow => hrow.elim,
      fun c d p q _ hp => ?_⟩
  · exact absurd (hidle c) hcall
  · rw [TreeClient.OnTree, hidle]
    trivial
  · rw [hidle] at hp
    cases hp

end

end Wednesday
