import Wednesday.Lib.FenceTree

/-!
The steps that change a search tree and the one that searches it: splitting a
child under its parent, splitting the root, inserting a row into a leaf, and
entering the child that covers a key. Splits do not change the stored rows.
-/

namespace Wednesday.Lib.FenceTree

section

variable {ι κ α β : Type} [LinearOrder κ] {key : α → κ} {null : ι}
  {G G' : ι → Option (Place κ)} {nodes nodes' : ι → Node ι α β} {root c n par : ι} {height : Nat}
  {p q : Place κ} {pre post : List (Sep ι α)} {right : ι} {as bs : List α} {s : α}

/-- A cut between two keys of a node lies strictly inside its place. -/
theorem NodeOk.cut {node : Node ι α β} (h : NodeOk key null G q node)
    (hkeys : node.keys = as ++ s :: bs) (hbs : bs ≠ []) :
    q.lo < key s ∧ (key s : WithTop κ) < q.hi := by
  refine ⟨(h.bounds s (by simp [hkeys])).1, ?_⟩
  obtain ⟨b, hb⟩ := List.exists_mem_of_ne_nil bs hbs
  have hsorted := h.sorted
  rw [hkeys, List.pairwise_append, List.pairwise_cons] at hsorted
  exact (WithTop.coe_lt_coe.mpr (hsorted.2.1.1 b hb)).trans_le (h.bounds b (by simp [hkeys, hb])).2

/-- A search for `k` enters a child that covers `k`. Only the last node of a
level lets it through to the right link, which is a child there. -/
theorem NodeOk.route {k : κ} (h : NodeOk key null G p (.inner (pre ++ post) right : Node ι α β))
    (hk : p.Has k) (hpre : ∀ a ∈ pre, key a.key < k) (hpost : ∀ t ∈ post.head?, k ≤ key t.key) :
    (post = [] → p.hi = ⊤) ∧
      ∃ q, G (childOf post right) = some q ∧ q.level + 1 = p.level ∧ q.Has k := by
  have hlast : post = [] → p.hi = ⊤ := by
    intro hnil
    by_contra hne
    obtain ⟨m, hm⟩ := WithTop.ne_top_iff_exists.mp hne
    obtain ⟨ks, a, hks, rfl⟩ := h.closing m hm.symm
    have ha : a ∈ pre.map Sep.key := by
      have : a ∈ ks ++ [a] := by simp
      rw [← hks] at this
      simpa [Node.keys, hnil] using this
    obtain ⟨t, ht, rfl⟩ := List.mem_map.mp ha
    have hle := hk.2
    rw [← hm, WithTop.coe_le_coe] at hle
    exact absurd (hpre t ht) (not_lt.mpr hle)
  refine ⟨hlast, ?_⟩
  obtain ⟨l, hi, hl, hplace, hnil, hhead⟩ := h.childOf_place hlast
  refine ⟨_, hplace, hl.symm, endKey_lt key hk.1 fun a ha => ?_, ?_⟩
  · obtain ⟨t, ht, rfl⟩ := List.mem_map.mp ha
    exact hpre t ht
  · cases post with
    | nil => rw [hnil rfl]; exact le_top
    | cons t post =>
        rw [hhead t rfl, WithTop.coe_le_coe]
        exact hpost t rfl

/-- What a split of `c` at `s` into `c` and `n` writes to these two nodes. -/
structure SplitNodes (nodes nodes' : ι → Node ι α β) (c n : ι) (as : List α) : Prop where
  left : nodes' c = (nodes c).takeTo (as.length + 1) n
  right : nodes' n = (nodes c).dropTo (as.length + 1)

/-- Splitting a child below its parent keeps the tree. -/
theorem Tree.splitChild (t : Tree key null nodes G root height) (hpar : G par = some p)
    (hnode : nodes par = .inner (pre ++ post) right) (hpost : post = [] → p.hi = ⊤)
    (hkeys : (nodes (childOf post right)).keys = as ++ s :: bs) (hbs : bs ≠ [])
    (hnull : n ≠ null) (hs : SplitPlaces G G' (childOf post right) n q (key s))
    (hsplit : SplitNodes nodes nodes' (childOf post right) n as)
    (hparent : nodes' par = insertSep pre post right s n)
    (hothers : ∀ id, id ≠ childOf post right → id ≠ n → id ≠ par → nodes' id = nodes id) :
    Tree key null nodes' G' root height := by
  have hparOk := t.node par p hpar
  rw [hnode] at hparOk
  have hchildOk := t.node _ q hs.old
  obtain ⟨hlo, hhi⟩ := hchildOk.cut hkeys hbs
  have hqs : q.Has (key s) := ⟨hlo, hhi.le⟩
  obtain ⟨l, hi, hl, hplace, -, -⟩ := hparOk.childOf_place hpost
  have hlevel : q.level + 1 = p.level := by
    obtain rfl := Option.some.inj (hs.old.symm.trans hplace)
    exact hl.symm
  -- the place of the child lies in that of its parent
  have hinside : q.Inside p := by
    obtain ⟨l', hl', hkids, hright⟩ := hparOk.shape
    cases post with
    | nil =>
        have := hright (hpost rfl)
        simp only [List.append_nil] at this
        obtain rfl := Option.some.inj (hs.old.symm.trans this)
        rw [List.append_nil] at hparOk
        exact hparOk.right_inside l' (hpost rfl)
    | cons k post =>
        have hmem : (k.child, (⟨l', endKey key p.lo (pre.map Sep.key), key k.key⟩ : Place κ)) ∈
            children key l' p.lo (pre ++ k :: post) := by
          rw [children_append]
          exact List.mem_append_right _ (List.mem_cons_self ..)
        obtain rfl := Option.some.inj (hs.old.symm.trans (hkids _ hmem))
        exact hparOk.child_inside hmem
  have hne : par ≠ childOf post right := by
    intro heq
    rw [heq, hs.old] at hpar
    obtain rfl := Option.some.inj hpar
    omega
  have hneN : par ≠ n := by
    rintro rfl
    simp [hs.fresh] at hpar
  obtain ⟨hleftOk, hrightOk⟩ := hchildOk.split hs hkeys hbs
  constructor
  · refine hs.other t.root ?_
    intro heq
    have := t.level par p hpar
    have hq := hs.old
    rw [← heq, t.root] at hq
    obtain rfl := Option.some.inj hq
    simp only at hlevel
    omega
  · intro id r hid
    obtain ⟨o, r₀, ho, hlev, -⟩ := hs.origin hqs hid
    rw [← hlev]
    exact t.level o r₀ ho
  · intro id r hid
    by_cases hc : id = childOf post right
    · subst hc
      obtain rfl := Option.some.inj (hs.left.symm.trans hid)
      rw [hsplit.left]
      exact hleftOk
    · by_cases hn : id = n
      · subst hn
        obtain rfl := Option.some.inj (hs.right.symm.trans hid)
        rw [hsplit.right]
        exact hrightOk
      · have hidG : G id = some r := by rwa [hs.others id hc hn] at hid
        by_cases hp : id = par
        · subst hp
          obtain rfl := Option.some.inj (hpar.symm.trans hidG)
          rw [hparent]
          exact hparOk.insertSep hpost hs hlo hhi
        · rw [hothers id hc hn hp]
          refine (t.node id r hidG).transfer (fun _ _ => hs.sibling) fun id' r' hid' hlev hin => ?_
          -- a node whose child has the place of `c` covers `s`, so it is the parent
          refine hs.other hid' ?_
          rintro rfl
          obtain rfl := Option.some.inj (hs.old.symm.trans hid')
          exact hp (t.unique id par r p (key s) hidG hpar (by omega) (hin.has hqs)
            (hinside.has hqs))
  · exact hs.unique hqs t.unique
  · intro id r hid
    by_cases hn : id = n
    · rwa [hn]
    · by_cases hc : id = childOf post right
      · rw [hc]
        exact t.notNull _ q hs.old
      · exact t.notNull id r (by rwa [hs.others id hc hn] at hid)

/-- Splitting the root and putting a new root above both halves keeps the tree. -/
theorem Tree.splitRoot {top : ι} {G'' : ι → Option (Place κ)}
    (t : Tree key null nodes G root height)
    (hkeys : (nodes root).keys = as ++ s :: bs) (hbs : bs ≠ []) (hnull : n ≠ null)
    (hs : SplitPlaces G G' root n ⟨height, ⊥, ⊤⟩ (key s))
    (htop : G top = none) (htopN : top ≠ n) (htopNull : top ≠ null)
    (hG'' : G'' top = some ⟨height + 1, ⊥, ⊤⟩) (hG''others : ∀ id, id ≠ top → G'' id = G' id)
    (hsplit : SplitNodes nodes nodes' root n as) (hnew : nodes' top = .inner [⟨root, s⟩] n)
    (hothers : ∀ id, id ≠ root → id ≠ n → id ≠ top → nodes' id = nodes id) :
    Tree key null nodes' G'' top (height + 1) := by
  have hrootOk := t.node _ _ hs.old
  obtain ⟨hlo, hhi⟩ := hrootOk.cut hkeys hbs
  have hqs : (⟨height, ⊥, ⊤⟩ : Place κ).Has (key s) := ⟨hlo, hhi.le⟩
  have htopRoot : top ≠ root := by
    rintro rfl
    simp [hs.old] at htop
  -- the new root is at no place of the tree below it
  have hext : ∀ id r, G' id = some r → G'' id = some r := by
    intro id r hid
    rw [hG''others id, hid]
    rintro rfl
    rw [hs.others id htopRoot htopN, htop] at hid
    simp at hid
  have hmono {r : Place κ} {node : Node ι α β} (h : NodeOk key null G' r node) :
      NodeOk key null G'' r node :=
    h.transfer (fun id q hid => ⟨q, hext id q hid, rfl, rfl⟩) fun id q hid _ _ => hext id q hid
  have hlevel' : ∀ id r, G' id = some r → r.level ≤ height := by
    intro id r hid
    obtain ⟨o, r₀, ho, hlev, -⟩ := hs.origin hqs hid
    rw [← hlev]
    exact t.level o r₀ ho
  have hold {id : ι} {r : Place κ} (hid : G'' id = some r) (hne : id ≠ top) : G' id = some r := by
    rwa [hG''others id hne] at hid
  obtain ⟨hleftOk, hrightOk⟩ := hrootOk.split hs hkeys hbs
  constructor
  · exact hG''
  · intro id r hid
    by_cases hid' : id = top
    · subst hid'
      obtain rfl := Option.some.inj (hG''.symm.trans hid)
      exact le_rfl
    · exact (hlevel' id r (hold hid hid')).trans (Nat.le_succ _)
  · intro id r hid
    by_cases hid' : id = top
    · subst hid'
      obtain rfl := Option.some.inj (hG''.symm.trans hid)
      rw [hnew]
      refine ⟨by simp [Node.keys], fun a _ => ⟨WithBot.bot_lt_coe _, le_top⟩, ?_, ?_, ?_⟩
      · exact fun h hh => absurd hh WithTop.top_ne_coe
      · exact fun h hh => absurd hh WithTop.top_ne_coe
      · refine ⟨height, rfl, fun x hx => ?_, fun _ => ?_⟩
        · simp only [children, List.mem_singleton] at hx
          rw [hx]
          exact hext _ _ hs.left
        · exact hext _ _ hs.right
    · have hidG' := hold hid hid'
      by_cases hc : id = root
      · subst hc
        obtain rfl := Option.some.inj (hs.left.symm.trans hidG')
        rw [hsplit.left]
        exact hmono hleftOk
      · by_cases hn : id = n
        · subst hn
          obtain rfl := Option.some.inj (hs.right.symm.trans hidG')
          rw [hsplit.right]
          exact hmono hrightOk
        · rw [hs.others id hc hn] at hidG'
          rw [hothers id hc hn hid']
          refine hmono ((t.node id r hidG').transfer (fun _ _ => hs.sibling)
            fun id' r' hid'' hlev _ => ?_)
          -- no node is above the old root, so it is nobody's child
          refine hs.other hid'' ?_
          rintro rfl
          obtain rfl := Option.some.inj (hs.old.symm.trans hid'')
          have := t.level id r hidG'
          simp only at hlev
          omega
  · intro a b r r' k ha hb hlev hrk hrk'
    -- only the new root has the new level
    by_cases hat : a = top <;> by_cases hbt : b = top
    · rw [hat, hbt]
    · rw [hat] at ha
      obtain rfl := Option.some.inj (hG''.symm.trans ha)
      have := hlevel' b r' (hold hb hbt)
      simp only at hlev
      omega
    · rw [hbt] at hb
      obtain rfl := Option.some.inj (hG''.symm.trans hb)
      have := hlevel' a r (hold ha hat)
      simp only at hlev
      omega
    · exact hs.unique hqs t.unique a b r r' k (hold ha hat) (hold hb hbt) hlev hrk hrk'
  · intro id r hid
    by_cases hid' : id = top
    · rwa [hid']
    · by_cases hn : id = n
      · rwa [hn]
      · by_cases hc : id = root
        · rw [hc]
          exact t.notNull _ _ hs.old
        · have := hold hid hid'
          rw [hs.others id hc hn] at this
          exact t.notNull id r this

/-- Inserting a row at its place in a leaf keeps the tree. -/
theorem Tree.insertRow {id : ι} {rows rows' : List (Row α β)} {row : Row α β}
    (t : Tree key null nodes G root height) (hid : G id = some p)
    (hnode : nodes id = .leaf (rows ++ rows') right) (hk : p.Has (key row.key))
    (hpre : ∀ r ∈ rows, key r.key < key row.key) (hpost : ∀ r ∈ rows', key row.key < key r.key)
    (hnew : nodes' id = .leaf (rows ++ row :: rows') right)
    (hothers : ∀ id', id' ≠ id → nodes' id' = nodes id') :
    Tree key null nodes' G root height := by
  refine ⟨t.root, t.level, fun id' r hid' => ?_, t.unique, t.notNull⟩
  by_cases heq : id' = id
  · subst heq
    obtain rfl := Option.some.inj (hid.symm.trans hid')
    have h := t.node id' p hid
    rw [hnode] at h
    have hsorted := h.sorted
    have hbounds := h.bounds
    have hclosing := h.closing
    simp only [Node.keys, List.map_append] at hsorted hbounds hclosing
    obtain ⟨h₁, h₂, hcross⟩ := List.pairwise_append.mp hsorted
    rw [hnew]
    refine ⟨?_, ?_, ?_, h.sibling, h.shape⟩
    · simp only [Node.keys, List.map_append, List.map_cons]
      rw [List.pairwise_append, List.pairwise_cons]
      refine ⟨h₁, ⟨fun b hb => ?_, h₂⟩, fun a ha b hb => ?_⟩
      · obtain ⟨r, hr, rfl⟩ := List.mem_map.mp hb
        exact hpost r hr
      · rcases List.mem_cons.mp hb with rfl | hb
        · obtain ⟨r, hr, rfl⟩ := List.mem_map.mp ha
          exact hpre r hr
        · exact hcross a ha b hb
    · intro a ha
      simp only [Node.keys, List.map_append, List.map_cons, List.mem_append, List.mem_cons] at ha
      rcases ha with ha | rfl | ha
      · exact hbounds a (by simp only [List.mem_append]; exact Or.inl ha)
      · exact hk
      · exact hbounds a (by simp only [List.mem_append]; exact Or.inr ha)
    · intro m hm
      obtain ⟨ks, a, hks, hak⟩ := hclosing m hm
      rcases List.eq_nil_or_concat (rows'.map Row.key) with hp | ⟨us, b, hp⟩
      · -- the row would lie behind the last key, which is the upper end
        rw [hp, List.append_nil] at hks
        have ha : a ∈ rows.map Row.key := by simp [hks]
        obtain ⟨r, hr, rfl⟩ := List.mem_map.mp ha
        have hle := hk.2
        rw [hm, WithTop.coe_le_coe, ← hak] at hle
        exact absurd (hpre r hr) (not_lt.mpr hle)
      · rw [List.concat_eq_append] at hp
        rw [hp, ← List.append_assoc] at hks
        have hba : b = a := (List.cons.inj (List.append_inj_right' hks rfl)).1
        refine ⟨rows.map Row.key ++ row.key :: us, a, ?_, hak⟩
        simp [Node.keys, hp, hba]
  · rw [hothers id' heq]
    exact t.node id' r hid'

/-! ### Stored rows -/

/-- Rows with the same key are the same row. -/
theorem Tree.stored_unique {r r' : Row α β} (t : Tree key null nodes G root height)
    (hr : Stored nodes G r) (hr' : Stored nodes G r') (hk : key r.key = key r'.key) : r = r' := by
  obtain ⟨a, p, rows, right, ha, hna, hmem⟩ := hr
  obtain ⟨b, p', rows', right', hb, hnb, hmem'⟩ := hr'
  have hoa := t.node a p ha
  have hob := t.node b p' hb
  rw [hna] at hoa
  rw [hnb] at hob
  have hka : p.Has (key r.key) := hoa.bounds _ (List.mem_map_of_mem hmem)
  have hkb : p'.Has (key r.key) := by
    rw [hk]
    exact hob.bounds _ (List.mem_map_of_mem hmem')
  obtain rfl := t.unique a b p p' _ ha hb (hoa.shape.1.trans hob.shape.1.symm) hka hkb
  obtain ⟨rfl, -⟩ := Node.leaf.inj (hna.symm.trans hnb)
  obtain ⟨i, hi, rfl⟩ := List.getElem_of_mem hmem
  obtain ⟨j, hj, rfl⟩ := List.getElem_of_mem hmem'
  have hsorted := List.pairwise_map.mp hoa.sorted
  rw [List.pairwise_iff_getElem] at hsorted
  rcases Nat.lt_trichotomy i j with hij | rfl | hij
  · exact absurd hk (hsorted i j hi hj hij).ne
  · rfl
  · exact absurd hk (hsorted j i hj hi hij).ne'

/-- A stored row stands in the leaf that covers its key. -/
theorem Tree.mem_of_stored {id : ι} {rows : List (Row α β)} {r : Row α β}
    (t : Tree key null nodes G root height) (hid : G id = some p)
    (hnode : nodes id = .leaf rows right) (hr : Stored nodes G r) (hk : p.Has (key r.key)) :
    r ∈ rows := by
  obtain ⟨b, p', rows', right', hb, hnb, hmem⟩ := hr
  have hoa := t.node id p hid
  have hob := t.node b p' hb
  rw [hnode] at hoa
  rw [hnb] at hob
  obtain rfl := t.unique id b p p' _ hid hb (hoa.shape.1.trans hob.shape.1.symm) hk
    (hob.bounds _ (List.mem_map_of_mem hmem))
  obtain ⟨rfl, -⟩ := Node.leaf.inj (hnode.symm.trans hnb)
  exact hmem

omit [LinearOrder κ] in
/-- The rows of a leaf are distributed over the two halves. -/
theorem stored_split {r : Row α β} (hs : SplitPlaces G G' c n q (key s))
    (hsplit : SplitNodes nodes nodes' c n as)
    (hothers : ∀ id p, G id = some p → id ≠ c → ∀ rows right,
      nodes' id = .leaf rows right ↔ nodes id = .leaf rows right) :
    Stored nodes' G' r ↔ Stored nodes G r := by
  constructor
  · rintro ⟨id, p, rows, right, hid, hnode, hmem⟩
    by_cases hc : id = c
    · subst hc
      rw [hsplit.left] at hnode
      cases hold : nodes id with
      | leaf rows₀ right₀ =>
          rw [hold, Node.takeTo] at hnode
          obtain ⟨rfl, -⟩ := Node.leaf.inj hnode
          exact ⟨id, q, rows₀, right₀, hs.old, hold, List.mem_of_mem_take hmem⟩
      | inner seps right₀ => simp [hold, Node.takeTo] at hnode
    · by_cases hn : id = n
      · subst hn
        rw [hsplit.right] at hnode
        cases hold : nodes c with
        | leaf rows₀ right₀ =>
            rw [hold, Node.dropTo] at hnode
            obtain ⟨rfl, -⟩ := Node.leaf.inj hnode
            exact ⟨c, q, rows₀, right₀, hs.old, hold, List.mem_of_mem_drop hmem⟩
        | inner seps right₀ => simp [hold, Node.dropTo] at hnode
      · rw [hs.others id hc hn] at hid
        exact ⟨id, p, rows, right, hid, (hothers id p hid hc rows right).mp hnode, hmem⟩
  · rintro ⟨id, p, rows, right, hid, hnode, hmem⟩
    by_cases hc : id = c
    · subst hc
      rw [← List.take_append_drop (as.length + 1) rows, List.mem_append] at hmem
      rcases hmem with hmem | hmem
      · exact ⟨id, _, _, _, hs.left, by rw [hsplit.left, hnode]; rfl, hmem⟩
      · exact ⟨n, _, _, _, hs.right, by rw [hsplit.right, hnode]; rfl, hmem⟩
    · exact ⟨id, p, rows, right, hs.other hid hc, (hothers id p hid hc rows right).mpr hnode, hmem⟩

omit [LinearOrder κ] in
theorem stored_insertRow {id : ι} {rows rows' : List (Row α β)} {row r : Row α β}
    (hid : G id = some p) (hnode : nodes id = .leaf (rows ++ rows') right)
    (hnew : nodes' id = .leaf (rows ++ row :: rows') right)
    (hothers : ∀ id', id' ≠ id → nodes' id' = nodes id') :
    Stored nodes' G r ↔ r = row ∨ Stored nodes G r := by
  constructor
  · rintro ⟨a, pa, rs, ra, ha, hna, hmem⟩
    by_cases heq : a = id
    · subst heq
      obtain ⟨rfl, -⟩ := Node.leaf.inj (hnew.symm.trans hna)
      rw [List.mem_append, List.mem_cons] at hmem
      rcases hmem with hmem | rfl | hmem
      · exact Or.inr ⟨a, p, _, _, hid, hnode, List.mem_append_left _ hmem⟩
      · exact Or.inl rfl
      · exact Or.inr ⟨a, p, _, _, hid, hnode, List.mem_append_right _ hmem⟩
    · exact Or.inr ⟨a, pa, rs, ra, ha, by rw [← hothers a heq, hna], hmem⟩
  · rintro (rfl | ⟨a, pa, rs, ra, ha, hna, hmem⟩)
    · exact ⟨id, p, _, _, hid, hnew, by simp⟩
    · by_cases heq : a = id
      · subst heq
        obtain ⟨rfl, -⟩ := Node.leaf.inj (hnode.symm.trans hna)
        refine ⟨a, p, _, _, hid, hnew, ?_⟩
        rw [List.mem_append, List.mem_cons]
        rcases List.mem_append.mp hmem with hmem | hmem
        · exact Or.inl hmem
        · exact Or.inr (Or.inr hmem)
      · exact ⟨a, pa, rs, ra, ha, by rw [hothers a heq, hna], hmem⟩

end

end Wednesday.Lib.FenceTree
