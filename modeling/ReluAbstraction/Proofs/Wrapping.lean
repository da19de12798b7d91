import ReluAbstraction.Proofs.Accounts

/-!
# Making and destroying arnodes

What comes of making, wrapping and destroying arnodes wherever the accounts are in order. An arnode is made exactly if its
nodes may join it and there are variables and room for it: all checks come before the first node is taken, and an attempt
that fails has given back what it had set aside. Destroying an arnode gives its nodes and variables back.
-/

namespace ReluAbstraction

/-- Dropping the element that was added last. -/
theorem swapRemove?_append {β : Type} [DecidableEq β] (xs : List β) (x : β) :
    swapRemove? (· = x) (xs ++ [x]) = some xs := by
  induction xs with
  | nil => simp [swapRemove?]
  | cons y xs ih =>
    rw [List.cons_append, swapRemove?, ih]
    by_cases hy : y = x
    · simp [hy]
    · simp [hy]

theorem Query.removeBounds_of_unbound {α : Type} {q : Query α} {v : VarId}
    (h : q.lower.get? v = none ∧ q.upper.get? v = none) : q.removeBounds v = q := by
  have herase : ∀ m : SortedMap VarId α, m.get? v = none → m.erase v = m := by
    intro m hm
    refine SortedMap.ext_get? fun w => ?_
    rw [SortedMap.get?_erase]
    split
    · next hw => rw [hw, hm]
    · rfl
  rw [removeBounds, herase _ h.1, herase _ h.2]

/-- Variables that are given back at once leave nothing behind. -/
theorem Encoding.Borrowed.lapsed {α : Type} [BEq α] {e e' : Encoding α} {boundary : Bool} {vars : VarPair}
    (h : Borrowed e e' boundary vars) (hpool : e.pool.WellFormed)
    (hunbound : ∀ {v}, e.pool.isFree v = true → e.query.lower.get? v = none ∧ e.query.upper.get? v = none) :
    Lapsed e (e'.releaseVars vars none) := by
  have hused : ∀ {v}, vars.Uses v → e'.pool.isFree v = false := by
    intro v hv
    rw [← Bool.not_eq_true, h.isFree_iff]
    exact fun hfree => hfree.2 hv
  have hr := releaseVars_returned h.pool hused none
  refine ⟨⟨(e'.releaseVars vars none).pool.maxUsed, ?_⟩, fun hv => (hr.covers_iff _).mpr (h.covers (.inr hv)), ?_,
    hr.stale_eq.trans h.stale_eq⟩
  · have hfree : (e'.releaseVars vars none).pool.free = e.pool.free := by
      refine IdPool.eq_of_holds_iff hr.pool hpool fun v => ?_
      rw [← IdPool.isFree_iff, ← IdPool.isFree_iff, hr.isFree_iff, h.isFree_iff]
      by_cases hv : vars.Uses v
      · simp [hv, h.free hv]
      · simp [hv]
    dsimp only
    rw [← hfree, ← h.limit_eq, ← hr.limit_eq]
  · have hin := Query.removeBounds_of_unbound (hunbound (h.free (.inl rfl)))
    have hout := Query.removeBounds_of_unbound (hunbound (h.free (.inr rfl)))
    have hquery := h.query_eq
    rw [releaseVars, dropEquation, h.isBoundary_eq]
    cases boundary with
    | true =>
      rw [if_pos rfl] at hquery
      simp only [if_true, giveBack, removeBounds, hquery, hin]
    | false =>
      rw [if_neg (by decide)] at hquery
      have hrelu : e'.query.removeRelu ⟨vars.incoming, vars.outgoing⟩ = e.query := by
        rw [Query.removeRelu_eq, hquery, Query.addRelu, swapRemove?_append]
        rfl
      simp only [Bool.false_eq_true, if_false, giveBack, removeBounds, hrelu, hout, hin]

theorem Arena.hasRoom_of_insert {k : EntityKind} {β : Type} {a a' : Arena k β} {v : β} {h : Handle k}
    (hok : a.insert v = .ok (h, a')) : a.HasRoom := by
  unfold insert insertWith nextHandle at hok
  cases hfree : a.free with
  | cons index rest => exact .inl (by simp [hfree])
  | nil =>
    refine .inr ?_
    by_contra hfull
    simp only [hfree, if_neg hfull] at hok
    cases hok

/-- A slot can be set aside only if the table is not full. -/
theorem Table.size_lt_of_reserve {η : Type} {t reserved : Table η} {slot : Slot} (ht : t.Sound)
    (hkind : t.kind = .deletable) (h : t.reserve = .ok (slot, reserved)) : t.size < IdPool.ceiling := by
  obtain ⟨entries, offset⟩ := t
  cases entries with
  | appendOnly entries => cases hkind
  | deletable entries slots =>
    obtain ⟨rest, hrest, _⟩ := exists_of_reserve h
    obtain ⟨hpool, _, hsize⟩ := ht
    have havailable := (IdPool.allocate_spec hpool hrest).2.2.2
    change entries.size < IdPool.ceiling
    omega

/-- Inserting into a table that allows removal runs the builder exactly if the table is not full. -/
theorem TableChain.insertWith_meets_of_deletable {η τ : Type} {c : TableChain η} {t : Nat} {build : Slot → Step τ η} {s : τ}
    {post : Slot × η × TableChain η → τ → Prop} {fail : Error → τ → Prop} (hc : c.Sound)
    (hkind : c.kinds[t]? = some .deletable) (hfull : IdPool.ceiling ≤ c.tableSize t → ∀ e, fail e s)
    (hbuild : c.tableSize t < IdPool.ceiling → ∀ slot, (build slot).Meets s
      (fun h s' => ∀ c', Inserted c c' t slot h → post (slot, h, c') s') fail) :
    (c.insertWith t build).Meets s post fail := by
  rw [kinds, List.getElem?_map, Option.map_eq_some_iff] at hkind
  obtain ⟨table, htable, hkind⟩ := hkind
  have hsound := hc _ (List.mem_of_getElem? htable)
  have hread : c.table t = .ok table := by simp [TableChain.table, htable]
  have hsize : c.tableSize t = table.size := by simp [tableSize, htable]
  have hbound : (c.table t >>= Table.reserve) = table.reserve := by rw [hread]; rfl
  rw [insertWith, Step.meets_bind, Step.meets_ofExcept, hbound]
  cases hreserve : table.reserve with
  | error e => exact hfull (hsize ▸ (Table.reserve_error hsound hreserve).2.2) e
  | ok r =>
    obtain ⟨slot, reserved⟩ := r
    dsimp only
    rw [Step.meets_bind]
    refine (hbuild (hsize ▸ Table.size_lt_of_reserve hsound hkind hreserve) slot).imp fun h s' hpost => ?_
    exact hpost _ (inserted_of_reserve hc htable hreserve h)

/-- Whatever was taken out of a chain was there. -/
theorem TableChain.removed_of_remove {η : Type} {c c' : TableChain η} {t : Nat} {slot : Slot} {x : η} (hc : c.Sound)
    (h : c.remove t slot = .ok (x, c')) : Removed c c' t slot := by
  have hfound : ∃ y, c.kinds[t]? = some .deletable ∧ c.at? t slot = some y := by
    unfold remove table at h
    cases htable : c.tables[t]? with
    | none =>
      simp only [htable, bind, Except.bind] at h
      cases h
    | some table =>
      obtain ⟨entries, offset⟩ := table
      cases entries with
      | appendOnly entries =>
        simp only [htable, bind, Except.bind] at h
        cases h
      | deletable entries slots =>
        cases hget : entries.get? slot with
        | none =>
          simp only [htable, bind, Except.bind, hget] at h
          cases h
        | some y =>
          refine ⟨y, ?_, ?_⟩
          · rw [kinds, List.getElem?_map, htable]
            rfl
          · rw [at?, htable]
            exact hget
  obtain ⟨y, hkind, hat⟩ := hfound
  obtain ⟨c'', hremove, hremoved⟩ := remove_spec hc hkind hat
  rw [h] at hremove
  cases hremove
  exact hremoved

/-- A node with another holder. -/
def Node.heldBy {α : Type} (owner : Option ArNodeId) (v : Node α) : Node α := { v with data := { v.data with owner } }

namespace Abstraction

variable {α : Type} {a a' : Abstraction α}

/-- Setting the holder of live nodes, some of them perhaps more than once. -/
theorem setOwners_get?_eq {members : List NodeId} (owner : Option ArNodeId)
    (hlive : ∀ m ∈ members, ∃ v, a.nodes.get? m = some v) :
    (members.forM (setOwner owner)).Meets a (fun _ a' => ∃ nodes, a' = { a with nodes } ∧
      (Arena.WellFormed a.nodes → Arena.WellFormed nodes) ∧
      ∀ m, nodes.get? m = if m ∈ members then (a.nodes.get? m).map (Node.heldBy owner) else a.nodes.get? m) Step.Never := by
  refine Step.Meets.forM (fun done a' => ∃ nodes, a' = { a with nodes } ∧
    (Arena.WellFormed a.nodes → Arena.WellFormed nodes) ∧
    ∀ m, nodes.get? m = if m ∈ done then (a.nodes.get? m).map (Node.heldBy owner) else a.nodes.get? m)
    ⟨a.nodes, rfl, id, fun m => by simp⟩ ?_
  rintro done m rest _ hmembers ⟨nodes, rfl, harena, hget⟩
  obtain ⟨v, hv⟩ := hlive m (by simp [hmembers])
  obtain ⟨u, hu, hheld⟩ : ∃ u, nodes.get? m = some u ∧ Node.heldBy owner u = Node.heldBy owner v := by
    rw [hget, hv]
    split
    · exact ⟨_, rfl, rfl⟩
    · exact ⟨_, rfl, rfl⟩
  rw [setOwner, onNodes, Step.meets_zoom]
  refine (Graph.edit_meets (f := fun v => .ok { v with data := { v.data with owner } }) hu rfl).mono
    (fun _ g hedit => ?_) fun _ _ hfalse => hfalse.elim
  refine ⟨g, rfl, fun hw => hedit.arena (harena hw), fun x => ?_⟩
  rw [hedit.get?_eq, hget]
  by_cases hx : x = m
  · subst hx
    simp only [if_true, List.mem_append, List.mem_singleton, or_true, hv, Option.map_some]
    exact congrArg some hheld
  · simp [hx]

/-- The accounts show whose a node is. -/
theorem reassigned_of_heldBy {nodes : Graph .node α (NodeData α)} {members : List NodeId} {owner : Option ArNodeId}
    (harena : Arena.WellFormed nodes)
    (h : ∀ m, nodes.get? m = if m ∈ members then (a.nodes.get? m).map (Node.heldBy owner) else a.nodes.get? m) :
    Reassigned a.accounts.nodes (Arena.map Node.standing nodes) members owner := by
  refine ⟨Arena.wellFormed_map.mpr harena, fun m => ?_⟩
  rw [Arena.get?_map, standing_eq, h]
  split
  · rw [Option.map_map, Option.map_map]
    rfl
  · rfl

section Checks

/-- Nodes of one table of layer `l` that may no longer move and that no arnode has. -/
structure Joinable (a : Abstraction α) (l : Nat) (category : Category) (members : List NodeId) : Prop where
  ne_nil : members ≠ []
  free : ∀ m ∈ members, ∃ v, a.nodes.get? m = some v ∧ v.movable = false ∧ v.data.owner = none ∧
    v.location.layer = l ∧ v.location.category = category

variable [Scalar α]

theorem biasOf_of_get? {m : NodeId} {v : Node α} (hv : a.nodes.get? m = some v) : a.biasOf m = v.data.bias := by
  rw [biasOf, info?_of_get? hv]
  rfl

omit [Scalar α] in
/-- A node passes the checks exactly if it may join. -/
theorem memberBias_eq_ok_iff {loc : Location} {m : NodeId} {bias : α} :
    a.memberBias loc m = .ok bias ↔ ∃ v, a.nodes.get? m = some v ∧ v.movable = false ∧ v.data.owner = none ∧
      v.location.layer = loc.layer ∧ v.location.category = loc.category ∧ v.data.bias = bias := by
  unfold memberBias
  cases hv : a.nodes.get? m with
  | none =>
    rw [node, Arena.get_of_none hv]
    simp [bind, Except.bind]
  | some v =>
    rw [node, Arena.get_of_get? hv]
    simp only [bind, Except.bind]
    cases hmovable : v.movable with
    | true => simp [hmovable, throw, throwThe, MonadExceptOf.throw]
    | false =>
      cases howner : v.data.owner with
      | some x => simp [hmovable, howner, throw, throwThe, MonadExceptOf.throw]
      | none =>
        by_cases hplace : v.location.layer ≠ loc.layer ∨ v.location.category ≠ loc.category
        · have hnot : ¬(v.location.layer = loc.layer ∧ v.location.category = loc.category) := by tauto
          simp only [hplace, if_true, Bool.false_eq_true, if_false, Option.some.injEq, exists_eq_left', hmovable, howner]
          simp only [throw, throwThe, MonadExceptOf.throw, true_and, reduceCtorEq, false_iff]
          tauto
        · have hboth : v.location.layer = loc.layer ∧ v.location.category = loc.category := by tauto
          simp only [hplace, if_false, Bool.false_eq_true, Option.some.injEq, exists_eq_left', hmovable, howner]
          simp [pure, Except.pure, hboth]

/-- The bias of a new arnode is found exactly if all of the nodes may join. -/
theorem foldBias_eq_ok_iff {loc : Location} {members : List NodeId} {bias : α} :
    a.foldBias loc members = .ok bias ↔ Joinable a loc.layer loc.category members ∧
      (a.policy.bias loc.category).reduce? (members.map a.biasOf) = some bias := by
  constructor
  · intro h
    unfold foldBias at h
    cases hmap : members.mapM (a.memberBias loc) with
    | error e =>
      simp only [hmap, bind, Except.bind] at h
      cases h
    | ok biases =>
      have hfree : ∀ m ∈ members, ∃ v, a.nodes.get? m = some v ∧ v.movable = false ∧ v.data.owner = none ∧
          v.location.layer = loc.layer ∧ v.location.category = loc.category ∧ v.data.bias = a.biasOf m := by
        intro m hm
        obtain ⟨bias', _, hbias'⟩ := (mem_of_mapM_ok hmap).1 m hm
        obtain ⟨v, hv, hmovable, howner, hlayer, hcategory, _⟩ := memberBias_eq_ok_iff.mp hbias'
        exact ⟨v, hv, hmovable, howner, hlayer, hcategory, (biasOf_of_get? hv).symm⟩
      have hbiases : biases = members.map a.biasOf := by
        have hmap' := mapM_eq_ok_map a.biasOf fun m hm => memberBias_eq_ok_iff.mpr (hfree m hm)
        rw [hmap] at hmap'
        exact Except.ok.inj hmap'
      simp only [hmap, bind, Except.bind] at h
      cases hreduce : (a.policy.bias loc.category).reduce? biases with
      | none =>
        simp only [hreduce] at h
        cases h
      | some bias' =>
        simp only [hreduce] at h
        cases h
        rw [hbiases] at hreduce
        refine ⟨⟨?_, fun m hm => ?_⟩, hreduce⟩
        · rintro rfl
          cases hreduce
        · obtain ⟨v, hv, hmovable, howner, hlayer, hcategory, _⟩ := hfree m hm
          exact ⟨v, hv, hmovable, howner, hlayer, hcategory⟩
  · rintro ⟨hjoin, hbias⟩
    have hmap := mapM_eq_ok_map a.biasOf fun m hm => by
      obtain ⟨v, hv, hmovable, howner, hlayer, hcategory⟩ := hjoin.free m hm
      exact memberBias_eq_ok_iff.mpr ⟨v, hv, hmovable, howner, hlayer, hcategory, (biasOf_of_get? hv).symm⟩
    rw [foldBias, hmap]
    simp only [bind, Except.bind, hbias]
    rfl

end Checks

/-- The accounts do not show which variables were ever in use. -/
theorem Lapsed.accounted (hl : Lapsed a a') (h : a.Accounted) : a'.Accounted := by
  obtain ⟨e, he, rfl⟩ := hl
  obtain ⟨maxUsed, hpool⟩ := he.pool_eq
  have heq : accounts { a with encoding := e } = { a.accounts with pool := { a.encoding.pool with maxUsed } } := by
    simp only [accounts, hpool, he.query_eq]
    rfl
  rw [Accounted, heq]
  exact ⟨⟨h.pool, h.used, h.disjoint, h.unbound⟩, ⟨h.fixed, h.taken, h.holder⟩, h.nodeArena, h.arnodeArena, h.tables⟩

section Making

variable [Scalar α]

/-- There are variables and room for an arnode over nodes that may join. -/
structure CanSpawn (a : Abstraction α) (l : Nat) (category : Category) (members : List NodeId) (boundary : Bool) : Prop where
  joinable : Joinable a l category members
  vars : varsNeeded boundary ≤ a.encoding.pool.available
  room : a.arnodes.HasRoom

/-- What making an arnode with the given variables and bias at `loc` leads to. -/
structure Spawned (a a' : Abstraction α) (loc : Location) (members : List NodeId) (boundary : Bool) (id : ArNodeId)
    (vars : VarPair) (bias : α) : Prop where
  bias_eq : (a.policy.bias loc.category).reduce? (members.map a.biasOf) = some bias
  fresh : a.arnodes.get? id = none
  arnode_eq : ∀ x, a'.arnodes.get? x =
    if x = id then some (ArNode.create loc members vars bias) else a.arnodes.get? x
  node_eq : ∀ m, a'.nodes.get? m =
    if m ∈ members then (a.nodes.get? m).map (Node.heldBy (some id)) else a.nodes.get? m
  encoding_eq : ∃ e, Encoding.Borrowed a.encoding e boundary vars ∧ a'.encoding = e.markStale id
  arenas : Arena.WellFormed a'.nodes ∧ Arena.WellFormed a'.arnodes

theorem Joinable.exists_foldBias {loc : Location} {members : List NodeId}
    (h : Joinable a loc.layer loc.category members) : ∃ bias, a.foldBias loc members = .ok bias := by
  obtain ⟨m, rest, rfl⟩ := List.exists_cons_of_ne_nil h.ne_nil
  exact ⟨_, foldBias_eq_ok_iff.mpr ⟨h, rfl⟩⟩

/-- An arnode is made exactly if it can be. Otherwise nothing changes. -/
theorem Accounted.spawn_outcome (h : a.Accounted) (loc : Location) (members : List NodeId) (boundary : Bool) :
    (spawn loc members boundary).Meets a
      (fun id a' => CanSpawn a loc.layer loc.category members boundary ∧ a'.layers = a.layers ∧
        ∃ vars bias, Spawned a a' loc members boundary id vars bias)
      (fun _ a' => Lapsed a a' ∧ ¬CanSpawn a loc.layer loc.category members boundary) := by
  unfold spawn
  rw [Step.meets_bind, Step.meets_read]
  cases hfold : a.foldBias loc members with
  | error e =>
    refine ⟨.refl a, fun hcan => ?_⟩
    obtain ⟨bias, hbias⟩ := hcan.joinable.exists_foldBias
    rw [hbias] at hfold
    cases hfold
  | ok bias =>
    obtain ⟨hjoin, hbias⟩ := foldBias_eq_ok_iff.mp hfold
    dsimp only
    rw [Step.meets_bind, onEncoding, Step.meets_zoom]
    refine (Encoding.borrowVars_meets h.pool boundary).mono (fun vars e hborrowed => ?_) fun _ e hfail =>
      ⟨⟨e, hfail.2.2, rfl⟩, fun hcan => absurd hfail.2.1 (Nat.not_lt.mpr hcan.vars)⟩
    rw [Step.meets_bind, Step.meets_tryCatch, onArnodes, Step.meets_zoom, Graph.add, Step.meets_bind, Step.meets_read]
    cases hins : Arena.insert a.arnodes (ArNode.create loc members vars bias) with
    | error error =>
      -- The variables were borrowed in vain and are given back.
      refine ⟨⟨e.releaseVars vars none, hborrowed.lapsed h.pool h.unbound, rfl⟩, fun hcan => ?_⟩
      exact (Arena.insert_error hins).2 hcan.room
    | ok made =>
      obtain ⟨id, arnodes⟩ := made
      obtain ⟨harena, hfresh, hget, _⟩ := Arena.insert_spec (Arena.wellFormed_map.mp h.arnodeArena) hins
      have havailable := hborrowed.available_eq
      dsimp only
      rw [Step.meets_bind, Step.meets_set, Step.meets_pure, Step.meets_bind]
      refine (setOwners_get?_eq (a := { a with encoding := e, arnodes }) (some id) fun m hm => ?_).mono ?_
        fun _ _ hfalse => hfalse.elim
      · obtain ⟨v, hv, _⟩ := hjoin.free m hm
        exact ⟨v, hv⟩
      · rintro _ _ ⟨nodes, rfl, hnodes, hnode⟩
        exact ⟨⟨hjoin, by omega, Arena.hasRoom_of_insert hins⟩, rfl, vars, bias, hbias, hfresh, hget, hnode,
          ⟨e, hborrowed, rfl⟩, ⟨hnodes (Arena.wellFormed_map.mp h.nodeArena), harena⟩⟩

/-- A new arnode takes variables that were in the pool and nodes that were free. -/
theorem Spawned.accounted {loc : Location} {members : List NodeId} {boundary : Bool} {id : ArNodeId} {vars : VarPair}
    {bias : α} (hs : Spawned a a' loc members boundary id vars bias) (h : a.Accounted)
    (hcan : CanSpawn a loc.layer loc.category members boundary) (hlayers : a'.layers = a.layers) : a'.Accounted := by
  obtain ⟨e, hborrowed, hencoding⟩ := hs.encoding_eq
  have hquery : e.query.lower = a.encoding.query.lower ∧ e.query.upper = a.encoding.query.upper := by
    rw [hborrowed.query_eq]
    split <;> exact ⟨rfl, rfl⟩
  have haccounts : a'.accounts = { a.accounts with
      nodes := a'.accounts.nodes, arnodes := a'.accounts.arnodes, pool := e.pool } := by
    simp only [accounts, arnodeChains, hlayers, hencoding, Encoding.markStale, hquery.1, hquery.2]
  rw [Accounted, haccounts]
  refine h.take id ⟨members, vars⟩ (reassigned_of_heldBy hs.arenas.1 hs.node_eq) (Arena.wellFormed_map.mpr hs.arenas.2)
    hborrowed.pool ?_ (fun m hm => ?_) (fun x => ?_) hborrowed.free hborrowed.isFree_iff
  · rw [holding_eq, hs.fresh, Option.map_none]
  · obtain ⟨v, hv, hmovable, howner, _⟩ := hcan.joinable.free m hm
    exact ⟨Node.standing v, by rw [standing_eq, hv, Option.map_some], hmovable, howner⟩
  · rw [holding_eq, holding_eq, hs.arnode_eq]
    split <;> rfl

/-- The new arnode has the nodes that it was made over and no others. -/
theorem Spawned.holder?_eq_iff {loc : Location} {members : List NodeId} {boundary : Bool} {id : ArNodeId} {vars : VarPair}
    {bias : α} (hs : Spawned a a' loc members boundary id vars bias) (h : a.Accounted)
    (hcan : CanSpawn a loc.layer loc.category members boundary) (m : NodeId) :
    a'.holder? m = some id ↔ m ∈ members := by
  unfold holder? Graph.body?
  rw [hs.node_eq]
  constructor
  · intro hheld
    by_contra hm
    rw [if_neg hm] at hheld
    obtain ⟨b, hb, howner⟩ := Option.bind_eq_some_iff.mp hheld
    obtain ⟨v, hv, rfl⟩ := Option.map_eq_some_iff.mp hb
    have hstanding : a.accounts.nodes.get? m = some (Node.standing v) := by rw [standing_eq, hv, Option.map_some]
    obtain ⟨d, hd, _⟩ := h.holder hstanding howner
    rw [holding_eq, hs.fresh] at hd
    cases hd
  · intro hm
    obtain ⟨v, hv, _⟩ := hcan.joinable.free m hm
    rw [if_pos hm, hv]
    rfl

theorem accounting_spawn (loc : Location) (members : List NodeId) (boundary : Bool) :
    Accounting (spawn loc members boundary : Step (Abstraction α) ArNodeId) := by
  refine accounting_of_meets fun h => (h.spawn_outcome loc members boundary).mono ?_ fun _ _ hfail => hfail.1.accounted h
  rintro id a' ⟨hcan, hlayers, vars, bias, hs⟩
  exact hs.accounted h hcan hlayers

end Making

section Destroying

variable [Scalar α]

/-- Variables that are out of the pool, and that no arnode has, are given back. -/
theorem Accounted.release (h : a.Accounted) {vars : VarPair}
    (hused : ∀ {v}, vars.Uses v → a.encoding.pool.isFree v = false)
    (hout : ∀ {v}, vars.Uses v → ∀ {x b}, a.accounts.arnodes.get? x = some b → ¬b.vars.Uses v)
    (equation : Option (Equation α)) : Accounted { a with encoding := a.encoding.releaseVars vars equation } := by
  have hr := Encoding.releaseVars_returned h.pool hused equation
  refine h.giveBack hr.pool hout hr.isFree_iff fun v hv => ?_
  have hnone : ∀ bound, ¬(a.encoding.releaseVars vars equation).query.HasBound v bound := by
    intro bound hbound
    obtain ⟨hnot, hold⟩ := Encoding.hasBound_releaseVars_iff.mp hbound
    have hfree := hv.resolve_left hnot
    cases bound with
    | lower x => cases hfree.1.symm.trans hold
    | upper x => cases hfree.2.symm.trans hold
  exact ⟨Option.eq_none_iff_forall_ne_some.mpr fun x => hnone (.lower x),
    Option.eq_none_iff_forall_ne_some.mpr fun x => hnone (.upper x)⟩

theorem accounting_destroy (id : ArNodeId) : Accounting (destroy id : Step (Abstraction α) (List NodeId)) := by
  refine accounting_of_meets fun {a} h => ?_
  rw [destroy, Step.meets_bind, onArnodes, Step.meets_zoom]
  refine (Graph.destroy_meets_map (f := ArNode.holding) (fun v d s => by cases d <;> rfl) a.arnodes id).mono ?_ ?_
  · rintro ⟨arnode, neighbors⟩ g ⟨v, hv, hholding, harena, hget⟩
    have hb : a.accounts.arnodes.get? id = some (ArNode.holding arnode) := by
      rw [holding_eq, hv, Option.map_some, hholding]
    dsimp only
    rw [Step.meets_bind]
    refine (setOwners_get?_eq (a := { a with arnodes := g }) none fun m hm => ?_).mono ?_ fun _ _ hfalse => hfalse.elim
    · obtain ⟨s, hs, _⟩ := h.taken hb m hm
      obtain ⟨u, hu, _⟩ := Option.map_eq_some_iff.mp ((standing_eq a m).symm.trans hs)
      exact ⟨u, hu⟩
    · rintro _ _ ⟨nodes, rfl, hnodes, hnode⟩
      have hr := reassigned_of_heldBy (a := a) (hnodes (Arena.wellFormed_map.mp h.nodeArena)) hnode
      obtain ⟨hleft, hout⟩ := h.leave hr (Arena.wellFormed_map.mpr (harena (Arena.wellFormed_map.mp h.arnodeArena))) hb hget
      have hmarks : Quiet (neighbors.forM fun p => if p.1 = .outgoing then recode (·.markStale p.2) else pure () :
          Step (Abstraction α) Unit) := Step.Within.forM _ fun p => Step.Within.ite (quiet_mark _) (Step.Within.pure _)
      rw [Step.meets_bind]
      refine (hmarks _).mono (fun _ a₁ hsame => ?_) fun _ a₁ hsame => ?_
      all_goals
        have heq : a₁.accounts = { a.accounts with
          nodes := Arena.map Node.standing nodes, arnodes := Arena.map ArNode.holding g } := hsame
      · have ha₁ : Accounted { a₁ with encoding := a₁.encoding.forget id } := by
          rw [← heq] at hleft
          exact hleft
        have hpool : a₁.encoding.pool = a.encoding.pool := congrArg Accounts.pool heq
        have harnodes : a₁.accounts.arnodes = Arena.map ArNode.holding g := congrArg Accounts.arnodes heq
        refine ha₁.release (fun hv => ?_) (fun hv x d hx => ?_) arnode.data.equation
        · change a₁.encoding.pool.isFree _ = false
          rw [hpool]
          exact h.used hb hv
        · change a₁.accounts.arnodes.get? x = some d at hx
          rw [harnodes] at hx
          exact hout hv hx
      · rw [Accounted, heq]
        exact hleft
  · intro e g hsame
    have heq : accounts { a with arnodes := g } = a.accounts := by
      simp only [accounts, hsame]
      rfl
    rw [Accounted, heq]
    exact h

end Destroying

section Wrapping

variable [Scalar α]

omit [Scalar α] in
theorem accounts_setArnodes (a : Abstraction α) (l : Nat) (layer : Layer) (arnodes : TableChain ArNodeId) :
    accounts { a with layers := a.layers.set l { layer with arnodes } } =
      { a.accounts with tables := a.accounts.tables.set l arnodes } := by
  simp only [accounts, arnodeChains, List.map_set]

/-- Nodes of layer `l` can be wrapped into an arnode of the given category. -/
structure CanWrap (a : Abstraction α) (l : Nat) (layer : Layer) (category : Category) (members : List NodeId) : Prop extends
    CanSpawn a l category members layer.isBoundary where
  layer_eq : a.layers[l]? = some layer
  cemented : category ≠ .unprocessed
  slot : layer.arnodes.tableSize category.index < IdPool.ceiling

/-- What wrapping leads to: there is a new arnode, and the tables list it. -/
structure Bundled (a a' : Abstraction α) (layer : Layer) (loc : Location) (members : List NodeId) (id : ArNodeId)
    (vars : VarPair) (bias : α) : Prop extends Spawned a a' loc members layer.isBoundary id vars bias where
  layers_eq : ∃ c, TableChain.Inserted layer.arnodes c loc.category.index loc.slot id ∧
    a'.layers = a.layers.set loc.layer { layer with arnodes := c }

/-- The last part of wrapping, once the category is known. -/
private theorem Accounted.bundle_outcome (h : a.Accounted) {l : Nat} {layer : Layer} (hlayer : a.layers[l]? = some layer)
    {category : Category} (hcemented : category ≠ .unprocessed) (members : List NodeId) :
    (do let r ← layer.arnodes.insertWith category.index fun slot => spawn ⟨l, category, slot⟩ members layer.isBoundary
        setLayer l { layer with arnodes := r.2.2 }
        return r.2.1 : Step (Abstraction α) ArNodeId).Meets a
      (fun id a' => a'.Accounted ∧ CanWrap a l layer category members ∧
        ∃ slot vars bias, Bundled a a' layer ⟨l, category, slot⟩ members id vars bias)
      (fun _ a' => Lapsed a a' ∧ ¬CanWrap a l layer category members) := by
  obtain ⟨hchain, hkinds⟩ := h.tables _ (List.mem_of_getElem? (getElem?_arnodeChains hlayer))
  have hdeletable : layer.arnodes.kinds[category.index]? = some .deletable := by
    rw [hkinds]
    exact arnodeKinds_of_cemented hcemented
  rw [Step.meets_bind]
  refine TableChain.insertWith_meets_of_deletable hchain hdeletable
    (fun hfull _ => ⟨.refl a, fun hcan => absurd hfull (Nat.not_le.mpr hcan.slot)⟩) fun hroom slot => ?_
  refine (h.spawn_outcome ⟨l, category, slot⟩ members layer.isBoundary).mono ?_ ?_
  · rintro id a₁ ⟨hcan, hlayers, vars, bias, hs⟩ c hinserted
    refine ⟨?_, ⟨hcan, hlayer, hcemented, hroom⟩, slot, vars, bias,
      ⟨hs.bias_eq, hs.fresh, hs.arnode_eq, hs.node_eq, hs.encoding_eq, hs.arenas⟩, c, hinserted, ?_⟩
    · change Accounted { a₁ with layers := a₁.layers.set l { layer with arnodes := c } }
      rw [Accounted, accounts_setArnodes]
      exact (hs.accounted h hcan hlayers).of_tables l hinserted.sound (hinserted.kinds_eq.trans hkinds)
    · change a₁.layers.set l { layer with arnodes := c } = a.layers.set l { layer with arnodes := c }
      rw [hlayers]
  · rintro e a₁ ⟨hlapsed, hcannot⟩
    exact ⟨hlapsed, fun hcan => hcannot hcan.toCanSpawn⟩

/-- Wrapping succeeds exactly if it can. Otherwise nothing changes. -/
theorem Accounted.wrap_outcome (h : a.Accounted) (l : Nat) (members : List NodeId) :
    (wrap l members).Meets a
      (fun id a' => a'.Accounted ∧ ∃ layer category, CanWrap a l layer category members ∧
        ∃ slot vars bias, Bundled a a' layer ⟨l, category, slot⟩ members id vars bias)
      (fun _ a' => Lapsed a a' ∧ ∀ {layer category}, ¬CanWrap a l layer category members) := by
  rw [wrap, Step.meets_bind, Step.meets_read]
  cases hread : a.layer l with
  | error e =>
    refine ⟨.refl a, fun hcan => ?_⟩
    rw [layer_of_getElem? hcan.layer_eq] at hread
    cases hread
  | ok layer =>
    have hlayer := getElem?_of_layer hread
    cases members with
    | nil => exact ⟨.refl a, fun hcan => hcan.joinable.ne_nil rfl⟩
    | cons first rest =>
      dsimp only
      rw [Step.meets_bind, Step.meets_read]
      cases hv : a.nodes.get? first with
      | none =>
        rw [node, Arena.get_of_none hv]
        refine ⟨.refl a, fun hcan => ?_⟩
        obtain ⟨v, hv', _⟩ := hcan.joinable.free first (by simp)
        rw [hv] at hv'
        cases hv'
      | some v =>
        -- The first node tells the category that all of them need to have.
        have hfirst : ∀ {layer' category}, CanWrap a l layer' category (first :: rest) →
            layer' = layer ∧ v.location.layer = l ∧ v.location.category = category := by
          intro layer' category hcan
          obtain ⟨u, hu, _, _, hplace⟩ := hcan.joinable.free first (by simp)
          rw [hv] at hu
          cases hu
          have hsame := hcan.layer_eq
          rw [hlayer] at hsame
          exact ⟨(Option.some.inj hsame).symm, hplace⟩
        rw [node, Arena.get_of_get? hv]
        dsimp only
        rw [Step.meets_bind, Step.meets_ofExcept, checkLayer]
        by_cases hhere : v.location.layer = l
        · rw [if_pos hhere]
          dsimp only
          rw [Step.meets_ite]
          refine ⟨fun hnot => ⟨.refl a, fun hcan => ?_⟩, fun hcemented => ?_⟩
          · obtain ⟨_, _, rfl⟩ := hfirst hcan
            exact hcan.cemented (by simpa [Category.isCemented] using hnot)
          · have hcemented : v.location.category ≠ .unprocessed := by simpa [Category.isCemented] using hcemented
            refine (h.bundle_outcome hlayer hcemented (first :: rest)).mono ?_ ?_
            · rintro id a' ⟨h', hcan, hbundled⟩
              exact ⟨h', layer, _, hcan, hbundled⟩
            · rintro e a' ⟨hlapsed, hcannot⟩
              refine ⟨hlapsed, fun hcan => ?_⟩
              obtain ⟨rfl, _, rfl⟩ := hfirst hcan
              exact hcannot hcan
        · rw [if_neg hhere]
          exact ⟨.refl a, fun hcan => hhere (hfirst hcan).2.1⟩

theorem accounting_wrap (l : Nat) (members : List NodeId) :
    Accounting (wrap l members : Step (Abstraction α) ArNodeId) := accounting_of_meets fun h =>
  (h.wrap_outcome l members).mono (fun _ _ hok => hok.1) fun _ _ hfail => hfail.1.accounted h

theorem accounting_unwrap (l : Nat) (id : ArNodeId) :
    Accounting (unwrap l id : Step (Abstraction α) (List NodeId)) := by
  refine accounting_of_meets fun {a} h => ?_
  rw [unwrap, Step.meets_bind, Step.meets_read]
  cases hread : a.layer l with
  | error e => exact h
  | ok layer =>
    dsimp only
    rw [Step.meets_bind, Step.meets_read]
    cases a.arnode id with
    | error e => exact h
    | ok v =>
      dsimp only
      rw [Step.meets_bind, Step.meets_ofExcept]
      cases checkLayer l v.location with
      | error e => exact h
      | ok _ =>
        dsimp only
        rw [Step.meets_bind]
        refine ((keeps_destroy id a).and ((accounting_destroy id).meets h)).mono ?_ fun _ _ hboth => hboth.2
        rintro members a₁ ⟨hsame, h₁⟩
        -- The tables are those of the layer that was read first, which destroying leaves alone.
        have hlayers : a₁.layers = a.layers := congrArg Prod.fst hsame
        have hlayer : a₁.layers[l]? = some layer := by rw [hlayers, getElem?_of_layer hread]
        obtain ⟨hchain, hkinds⟩ := h₁.tables _ (List.mem_of_getElem? (getElem?_arnodeChains hlayer))
        rw [Step.meets_bind, Step.meets_ofExcept]
        cases hremove : layer.arnodes.remove v.location.category.index v.location.slot with
        | error e => exact h₁
        | ok r =>
          have hremoved := TableChain.removed_of_remove hchain hremove
          change Accounted { a₁ with layers := a₁.layers.set l { layer with arnodes := r.2 } }
          rw [Accounted, accounts_setArnodes]
          exact h₁.of_tables l hremoved.sound (hremoved.kinds_eq.trans hkinds)

end Wrapping

end Abstraction

end ReluAbstraction
