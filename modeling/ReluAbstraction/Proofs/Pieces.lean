import ReluAbstraction.Proofs.Nodes

/-!
# Replacing a node by its pieces

A node whose outgoing edges ask for different categories is replaced by one piece for each of them. A piece takes over the
edges that ask for its category and shares the incoming edges. The pieces are made one after the other; while that goes on,
the node itself and its neighbours stay where they are.
-/

namespace ReluAbstraction.Abstraction

variable {α : Type} {a : Abstraction α} {l : Nat}

namespace NodesBecome

variable {bodies bodies' : NodeId → Option (Body (NodeData α))} {edges edges' : NodeId → NodeId → Option α}
  {a' a'' : Abstraction α}

theorem trans (h : NodesBecome a a' bodies edges) (h' : NodesBecome a' a'' bodies' edges') :
    NodesBecome a a'' bodies' edges' :=
  ⟨h'.sound, h'.body?_eq, h'.edge?_eq, h'.arnodePart_eq.trans h.arnodePart_eq, h.slots_le.trans h'.slots_le⟩

theorem congr (h : NodesBecome a a' bodies edges) (hbodies : ∀ x, bodies x = bodies' x)
    (hedges : ∀ x y, edges x y = edges' x y) : NodesBecome a a' bodies' edges' :=
  ⟨h.sound, fun x => (h.body?_eq x).trans (hbodies x), fun x y => (h.edge?_eq x y).trans (hedges x y), h.arnodePart_eq,
    h.slots_le⟩

end NodesBecome

theorem NodesSound.becomes (h : a.NodesSound) : NodesBecome a a a.nodes.body? a.nodes.edge? :=
  ⟨h, fun _ => rfl, fun _ _ => rfl, rfl, le_rfl⟩

/-- Layers stay layers while the half of the arnodes is left alone. -/
theorem exists_layer_of_arnodePart {a' : Abstraction α} {layer : Layer} (h : a'.arnodePart = a.arnodePart)
    (hlayer : a.layers[l]? = some layer) :
    ∃ layer', a'.layers[l]? = some layer' ∧ layer'.role = layer.role ∧ layer'.arnodes = layer.arnodes := by
  have hmap : a'.layers.map Layer.arnodeSide = a.layers.map Layer.arnodeSide := congrArg Prod.fst h
  have hget : (a'.layers.map Layer.arnodeSide)[l]? = some layer.arnodeSide := by
    rw [hmap, List.getElem?_map, hlayer, Option.map_some]
  rw [List.getElem?_map, Option.map_eq_some_iff] at hget
  obtain ⟨layer', hlayer', hside⟩ := hget
  exact ⟨layer', hlayer', congrArg Prod.fst hside, congrArg Prod.snd hside⟩

/-- Linking two nodes of neighbouring layers. -/
theorem linkNodes_meets (h : a.NodesSound) {x y : NodeId} {b c : Body (NodeData α)} {d : Direction}
    (hx : a.nodes.body? x = some b) (hy : a.nodes.body? y = some c) (hfaces : d.Faces b.location.layer c.location.layer)
    (weight : α) :
    (onNodes (Graph.link x d y weight true)).Meets a
      (fun _ a' => NodesBecome a a' a.nodes.body? (d.assign a.nodes.edge? x y weight)) Step.Never := by
  obtain ⟨v, hv, rfl⟩ := Graph.body?_eq_some_iff.mp hx
  obtain ⟨u, hu, rfl⟩ := Graph.body?_eq_some_iff.mp hy
  unfold onNodes
  rw [Step.meets_zoom]
  refine (Graph.link_meets h.graph hv hu hfaces weight).mono ?_ fun _ _ hfalse => hfalse.elim
  rintro _ g ⟨hg, hbody, hsize⟩
  have hedge : g.edge? = d.assign a.nodes.edge? x y weight := funext fun p => funext fun q => hg.edge?_eq p q
  refine ⟨⟨?_, ?_, ?_⟩, hbody, fun p q => hg.edge?_eq p q, rfl, hsize.ge⟩
  · change g.Realizes 5 g.edge?
    rw [hedge]
    exact hg
  · exact h.housed.of_same_bodies fun p => by rw [hbody]
  · intro id b hb
    change g.body? id = some b at hb
    rw [hbody] at hb
    exact h.movable_iff hb

/-- Linking a node to several others, each named once. -/
theorem linkAll_meets {ι : Type} (other : ι → NodeId) (weight : ι → α) {xs : List ι} {p : NodeId}
    {b : Body (NodeData α)} {d : Direction} (h : a.NodesSound) (hp : a.nodes.body? p = some b)
    (hother : ∀ e ∈ xs, ∃ c, a.nodes.body? (other e) = some c ∧ d.Faces b.location.layer c.location.layer) :
    (xs.forM fun e => onNodes (Graph.link p d (other e) (weight e) true)).Meets a
      (fun _ a' => NodesBecome a a' a.nodes.body?
        (xs.foldl (fun F e => d.assign F p (other e) (weight e)) a.nodes.edge?)) Step.Never := by
  refine Step.Meets.forM (fun done a' => NodesBecome a a' a.nodes.body?
    (done.foldl (fun F e => d.assign F p (other e) (weight e)) a.nodes.edge?)) h.becomes ?_
  intro done e rest a' hxs ha'
  obtain ⟨c, hc, hfaces⟩ := hother e (by rw [hxs]; simp)
  have hlink := linkNodes_meets ha'.sound ((ha'.body?_eq p).trans hp) ((ha'.body?_eq _).trans hc) hfaces (weight e)
  refine hlink.imp fun _ a'' ha'' => ?_
  refine (ha'.trans ha'').congr ha'.body?_eq fun x y => ?_
  rw [List.foldl_append]
  have hedge : a'.nodes.edge? = done.foldl (fun F e => d.assign F p (other e) (weight e)) a.nodes.edge? :=
    funext fun x => funext fun y => ha'.edge?_eq x y
  rw [hedge]
  rfl

/-- A piece of `v` at the given place. -/
def pieceBody (v : Node α) (place : Location) : Body (NodeData α) :=
  ⟨place, false, { v.data with owner := none }⟩

/-- Edges lead to live nodes only. -/
theorem NodesSound.edge?_eq_none (h : a.NodesSound) {x y : NodeId}
    (hnone : a.nodes.body? x = none ∨ a.nodes.body? y = none) : a.nodes.edge? x y = none := by
  cases hedge : a.nodes.edge? x y with
  | none => rfl
  | some w =>
    obtain ⟨v, u, hv, hu, _⟩ := h.graph.ends hedge
    rcases hnone with hx | hy
    · rw [Graph.body?_of_get? hv] at hx
      cases hx
    · rw [Graph.body?_of_get? hu] at hy
      cases hy

/-- A step failed as the arena of the nodes has no slot left. -/
def NodesFull (e : Error) (a : Abstraction α) : Prop :=
  (∃ limit, e = .exhausted limit) ∧ Arena.span ≤ a.nodes.slots.size

/-- Pieces of `v` were made in layer `l` that nobody holds, and nothing else has changed. -/
structure Crowded (a a' : Abstraction α) (l : Nat) (v : Node α) : Prop where
  sound : a'.NodesSound
  arnodePart_eq : a'.arnodePart = a.arnodePart
  kept : ∀ {x b}, a.nodes.body? x = some b → a'.nodes.body? x = some b
  new : ∀ {x b}, a'.nodes.body? x = some b → a.nodes.body? x = some b ∨
    a.nodes.body? x = none ∧ b.data.owner = none ∧ b.movable = false ∧ b.location.layer = l ∧
      b.data.origin = v.data.origin

open Direction in
/-- Making a piece fails only when the arena of the nodes is full. -/
theorem makePiece_meets (h : a.NodesSound) {layer : Layer} (hlayer : a.layers[l]? = some layer) (v : Node α)
    {category : Category} (hcategory : category ≠ .unprocessed) {edges : List (Edge α NodeId)}
    (hnodup : (edges.map Edge.neighbor).Nodup)
    (hout : ∀ e ∈ edges, ∃ b, a.nodes.body? e.neighbor = some b ∧ b.location.layer = l + 1)
    (hnodup' : (v.incoming.toList.map (·.2.neighbor)).Nodup)
    (hin : ∀ e ∈ v.incoming.toList, ∃ b, a.nodes.body? e.2.neighbor = some b ∧ l = b.location.layer + 1) :
    (makePiece l v category edges).Meets a
      (fun p a' => a.nodes.body? p = none ∧ ∃ slot, NodesBecome a a'
        (fun x => if x = p then some (pieceBody v ⟨l, category, slot⟩) else a.nodes.body? x)
        (fun x y => if x = p then lookupBy edges Edge.neighbor Edge.weight y
          else if y = p then lookupBy v.incoming.toList (·.2.neighbor) (·.2.weight) x else a.nodes.edge? x y))
      (fun e a' => NodesFull e a' ∧ a' = a) := by
  unfold makePiece
  rw [Step.meets_bind]
  refine (insertNode_meets h hlayer (by simp [hcategory]) v.data.bias v.data.origin).mono ?_ ?_
  swap
  · rintro e a' ⟨rfl, hlimit, hroom⟩
    have hfull := hroom hcategory
    simp only [Arena.HasRoom, not_or, not_lt] at hfull
    exact ⟨⟨hlimit, hfull.2⟩, rfl⟩
  rintro ⟨p, place⟩ a₁ ⟨slot, _, hnone, h₁⟩
  dsimp only at hnone h₁ ⊢
  have hp : a₁.nodes.body? p = some (pieceBody v ⟨l, category, slot⟩) := by
    rw [h₁.body?_eq, if_pos rfl]
    rfl
  -- Nodes that were live before keep their bodies, being other than the piece.
  have hkept : ∀ {x b}, a.nodes.body? x = some b → a₁.nodes.body? x = some b := by
    intro x b hb
    rw [h₁.body?_eq, if_neg, hb]
    rintro rfl
    rw [hnone] at hb
    cases hb
  rw [Step.meets_bind]
  have hlinkOut := linkAll_meets Edge.neighbor Edge.weight (d := .outgoing) h₁.sound hp
    fun e he => by
      obtain ⟨b, hb, hl⟩ := hout e he
      exact ⟨b, hkept hb, hl⟩
  refine hlinkOut.mono ?_ fun _ _ hfalse => hfalse.elim
  rintro _ a₂ h₂
  rw [Step.meets_bind]
  have hlinkIn := linkAll_meets (fun e : EdgeKey × Edge α NodeId => e.2.neighbor) (fun e => e.2.weight)
    (d := .incoming) h₂.sound ((h₂.body?_eq p).trans hp) fun e he => by
      obtain ⟨b, hb, hl⟩ := hin e he
      exact ⟨b, (h₂.body?_eq _).trans (hkept hb), hl⟩
  refine hlinkIn.mono ?_ fun _ _ hfalse => hfalse.elim
  rintro _ a₃ h₃
  refine ⟨hnone, slot, ((h₁.trans h₂).trans h₃).congr ?_ ?_⟩
  · intro x
    rw [h₂.body?_eq, h₁.body?_eq]
    rfl
  · intro x y
    have hout' : a₂.nodes.edge? x y = if x = p then (lookupBy edges Edge.neighbor Edge.weight y).or (a.nodes.edge? x y)
        else a.nodes.edge? x y := by
      have hfold := along_foldl_assign a₁.nodes.edge? .outgoing p Edge.weight hnodup x y
      simp only [along, h₁.edge?_eq] at hfold
      rw [h₂.edge?_eq, hfold]
    have hin' := along_foldl_assign a₂.nodes.edge? .incoming p
      (fun e : EdgeKey × Edge α NodeId => e.2.weight) hnodup' y x
    simp only [along] at hin'
    rw [hin', hout']
    by_cases hx : x = p
    · -- The piece has no edge to itself, as its sources were live before it.
      subst hx
      have hself : lookupBy v.incoming.toList (fun e => e.2.neighbor) (fun e => e.2.weight) x = none := by
        rw [lookupBy, Option.map_eq_none_iff, List.find?_eq_none]
        intro e he heq
        obtain ⟨b, hb, _⟩ := hin e he
        rw [of_decide_eq_true heq, hnone] at hb
        cases hb
      simp [h.edge?_eq_none (Or.inl hnone), hself]
    · by_cases hy : y = p
      · subst hy
        simp [hx, h.edge?_eq_none (Or.inr hnone)]
      · simp [hx, hy]

/-- Removing an unprocessed node from the graph and from its table. -/
theorem removeNode_meets (h : a.NodesSound) {id : NodeId} {b : Body (NodeData α)} {slot : Slot}
    (hb : a.nodes.body? id = some b) (hplace : b.location = ⟨l, .unprocessed, slot⟩) :
    (discard (onNodes (Graph.destroy id))).Meets a
      (fun _ a₁ => (unlistNode l .unprocessed slot).Meets a₁
        (fun _ a' => NodesBecome a a' (fun x => if x = id then none else a.nodes.body? x)
          (fun x y => if x = id ∨ y = id then none else a.nodes.edge? x y)) Step.Never) Step.Never := by
  obtain ⟨layer, hlayer, hat⟩ := h.exists_layer hb
  rw [hplace] at hlayer hat
  have hchain := getElem?_nodeChains hlayer
  obtain ⟨v, hv, rfl⟩ := Graph.body?_eq_some_iff.mp hb
  rw [Step.meets_discard, onNodes, Step.meets_zoom]
  refine (Graph.destroyIn_meets h.graph hv .bySlot).mono ?_ fun _ _ hfalse => hfalse.elim
  rintro _ g ⟨_, hg, hbody, hsize⟩
  have hunlist := unlistNode_meets (a := { a with nodes := g }) hlayer (h.chain_sound hlayer)
    (h.housed.kinds_eq _ (List.mem_of_getElem? hchain)) hat
  refine hunlist.imp ?_
  rintro _ a' ⟨c, hrem, rfl⟩
  have hedge : g.edge? = fun x y => if x = id ∨ y = id then none else a.nodes.edge? x y :=
    funext fun x => funext fun y => hg.edge?_eq x y
  refine ⟨⟨?_, ?_, ?_⟩, hbody, fun x y => hg.edge?_eq x y, arnodePart_setNodes hlayer c g, hsize.ge⟩
  · change g.Realizes 5 g.edge?
    rw [hedge]
    exact hg
  · have hhoused := h.housed.remove hchain hrem hb hplace hbody
    simpa [nodeChains, List.map_set] using hhoused
  · intro x b hx
    change g.body? x = some b at hx
    rw [hbody] at hx
    split at hx
    · cases hx
    · exact h.movable_iff hx

/-- Edges of one category. -/
def bucket (classified : List (Category × Edge α NodeId)) (category : Category) : List (Edge α NodeId) :=
  classified.filterMap fun (c, edge) => if c = category then some edge else none

theorem mem_bucket {classified : List (Category × Edge α NodeId)} {category : Category} {e : Edge α NodeId} :
    e ∈ bucket classified category ↔ (category, e) ∈ classified := by
  simp only [bucket, List.mem_filterMap, Prod.exists, Option.ite_none_right_eq_some, Option.some.injEq]
  constructor
  · rintro ⟨c, e', hmem, rfl, rfl⟩
    exact hmem
  · intro hmem
    exact ⟨category, e, hmem, rfl, rfl⟩

theorem bucket_sublist (classified : List (Category × Edge α NodeId)) (category : Category) :
    (bucket classified category).Sublist (classified.map Prod.snd) := by
  induction classified with
  | nil => exact List.Sublist.refl _
  | cons x rest ih =>
    obtain ⟨c, e⟩ := x
    by_cases hc : c = category
    · simpa [bucket, hc] using ih.cons_cons e
    · simpa [bucket, hc] using ih.cons e

/-- The buckets are those of the categories that have edges, in table order. -/
theorem buckets_eq (classified : List (Category × Edge α NodeId)) :
    buckets classified = (Category.cemented.filter fun c => bucket classified c ≠ []).map
      fun c => (c, bucket classified c) := by
  unfold buckets
  induction Category.cemented with
  | nil => rfl
  | cons c rest ih =>
    rw [List.filterMap_cons, List.filter_cons, ih]
    cases hb : bucket classified c with
    | nil =>
      unfold bucket at hb
      simp [hb]
    | cons e es =>
      have hb' := hb
      unfold bucket at hb'
      simp [hb, hb']

/-- Place of a piece among those made. -/
def placeOf (made : List (NodeId × Location)) (x : NodeId) : Option Location := lookupBy made Prod.fst Prod.snd x

/-- Categories of the pieces made. -/
def categoriesOf (made : List (NodeId × Location)) : List Category := made.map fun p => p.2.category

/-- Bodies of the nodes once the given pieces of `v` are made. -/
def bodyWith (a : Abstraction α) (v : Node α) (made : List (NodeId × Location)) (x : NodeId) :
    Option (Body (NodeData α)) :=
  match placeOf made x with
  | some place => some (pieceBody v place)
  | none => a.nodes.body? x

/-- Pieces made in layer `l` under new handles. -/
structure Pieces (a : Abstraction α) (l : Nat) (made : List (NodeId × Location)) : Prop where
  fresh : ∀ p ∈ made, a.nodes.body? p.1 = none
  nodup : (made.map Prod.fst).Nodup
  layer_eq : ∀ p ∈ made, p.2.layer = l

theorem Pieces.placeOf_eq_none {made : List (NodeId × Location)} (h : Pieces a l made) {x : NodeId}
    {b : Body (NodeData α)} (hb : a.nodes.body? x = some b) : placeOf made x = none := by
  refine lookupBy_eq_none_iff.mpr ?_
  rintro p hp rfl
  rw [h.fresh p hp] at hb
  cases hb

/-- Pieces that were made next to the node are in the way of nobody. -/
theorem Pieces.crowded {a' : Abstraction α} {made : List (NodeId × Location)} (h : Pieces a l made) {v : Node α}
    {edges : NodeId → NodeId → Option α} (hbecome : NodesBecome a a' (a.bodyWith v made) edges) : Crowded a a' l v := by
  refine ⟨hbecome.sound, hbecome.arnodePart_eq, fun {x b} hb => ?_, fun {x b} hb => ?_⟩
  · rw [hbecome.body?_eq, bodyWith, h.placeOf_eq_none hb]
    exact hb
  · rw [hbecome.body?_eq, bodyWith] at hb
    cases hplace : placeOf made x with
    | none =>
      rw [hplace] at hb
      exact .inl hb
    | some place =>
      rw [hplace] at hb
      obtain ⟨p, hp, rfl, rfl⟩ := exists_of_lookupBy hplace
      cases hb
      exact .inr ⟨h.fresh p hp, rfl, rfl, h.layer_eq p hp, rfl⟩

variable [Scalar α]

/-- Category that the edge from `id` to `y` asks for. -/
def asks (a : Abstraction α) (id y : NodeId) : Option Category :=
  (a.nodes.edge? id y).bind fun w => (a.nodes.body? y).bind fun b => Category.classify? w b.location.category

/-- The edge from `id` to `y`, if it asks for the given category. -/
def share (a : Abstraction α) (id : NodeId) (category : Category) (y : NodeId) : Option α :=
  if a.asks id y = some category then a.nodes.edge? id y else none

theorem share_eq_some_iff {id y : NodeId} {category : Category} {w : α} :
    a.share id category y = some w ↔ a.nodes.edge? id y = some w ∧
      ∃ b, a.nodes.body? y = some b ∧ Category.classify? w b.location.category = some category := by
  unfold share asks
  cases a.nodes.edge? id y with
  | none => simp
  | some w' =>
    cases a.nodes.body? y with
    | none => simp
    | some b =>
      simp only [Option.bind_some, Option.some.injEq, exists_eq_left', Option.ite_none_right_eq_some]
      constructor
      · rintro ⟨hc, rfl⟩
        exact ⟨rfl, hc⟩
      · rintro ⟨rfl, hc⟩
        exact ⟨hc, rfl⟩

/-- The node feeds one that is not classified yet. -/
def FeedsUnprocessed (a : Abstraction α) (id : NodeId) : Prop :=
  ∃ y w b, a.nodes.edge? id y = some w ∧ a.nodes.body? y = some b ∧ b.location.category = .unprocessed

theorem classify?_eq_none {w : α} {category : Category} (h : Category.classify? w category = none) :
    category = .unprocessed := by
  cases category <;> first | rfl | cases h

/-- Classification fails only at an unprocessed target. -/
theorem classifyEdges_error (h : a.NodesSound) {id : NodeId} {v : Node α} (hv : a.nodes.get? id = some v) {e : Error}
    (herror : classifyEdges l id v = .error e) : e = .successorUnprocessed id (l + 1) ∧ a.FeedsUnprocessed id := by
  obtain ⟨⟨key, edge⟩, hmem, herror⟩ := exists_of_mapM_error herror
  dsimp only at herror
  split at herror
  · cases herror
  · next hnone =>
    obtain ⟨u, hu, hkey, hedge⟩ :=
      (h.graph.edges_iff hv .outgoing key edge.weight edge.neighbor).mp (EdgeSet.mem_toList_iff.mp hmem)
    refine ⟨(Except.error.inj herror).symm, edge.neighbor, edge.weight, u.body, hedge, Graph.body?_of_get? hu, ?_⟩
    rw [← classify?_eq_none hnone, ← hkey]
    rfl

/-- Each edge comes with the category that its weight and the table of its target ask for. -/
theorem mem_classified_iff {id : NodeId} {v : Node α} {classified : List (Category × Edge α NodeId)}
    (h : classifyEdges l id v = .ok classified) {category : Category} {e : Edge α NodeId} :
    (category, e) ∈ classified ↔
      ∃ key, v.outgoing.get? key = some e ∧ Category.classify? e.weight key.category = some category := by
  obtain ⟨hleft, hright⟩ := mem_of_mapM_ok h
  constructor
  · intro hmem
    obtain ⟨⟨key, edge⟩, hedge, hok⟩ := hright _ hmem
    dsimp only at hok
    split at hok
    · next c hc =>
      injection hok with hok
      obtain ⟨rfl, rfl⟩ := Prod.mk.inj hok
      exact ⟨key, EdgeSet.mem_toList_iff.mp hedge, hc⟩
    · cases hok
  · rintro ⟨key, hget, hc⟩
    obtain ⟨y, hy, hok⟩ := hleft (key, e) (EdgeSet.mem_toList_iff.mpr hget)
    dsimp only at hok
    rw [hc] at hok
    injection hok with hok
    rwa [hok]

theorem map_snd_classified {id : NodeId} {v : Node α} {classified : List (Category × Edge α NodeId)}
    (h : classifyEdges l id v = .ok classified) :
    classified.map Prod.snd = v.outgoing.toList.map Prod.snd := by
  rw [classifyEdges, mapM_eq_ok_iff] at h
  have hsnd : List.Forall₂ (fun e e' => e = e') (v.outgoing.toList.map Prod.snd) (classified.map Prod.snd) := by
    rw [List.forall₂_map_left_iff, List.forall₂_map_right_iff]
    refine h.imp fun x y hxy => ?_
    obtain ⟨key, edge⟩ := x
    dsimp only at hxy
    split at hxy
    · injection hxy with hxy
      rw [← hxy]
    · cases hxy
  rw [List.forall₂_eq_eq_eq] at hsnd
  exact hsnd.symm

/-- What a piece takes over is its share of the node's edges. -/
theorem lookupBy_bucket (h : a.NodesSound) {id : NodeId} {v : Node α} (hv : a.nodes.get? id = some v)
    {classified : List (Category × Edge α NodeId)} (hok : classifyEdges l id v = .ok classified) (category : Category) :
    ((bucket classified category).map Edge.neighbor).Nodup ∧
      ∀ y, lookupBy (bucket classified category) Edge.neighbor Edge.weight y = a.share id category y := by
  have hnodup : ((bucket classified category).map Edge.neighbor).Nodup := by
    have hsub := (bucket_sublist classified category).map Edge.neighbor
    rw [map_snd_classified hok, List.map_map] at hsub
    exact hsub.nodup (h.graph.neighbors_nodup hv .outgoing)
  refine ⟨hnodup, fun y => ?_⟩
  ext w
  rw [lookupBy_eq_some_iff hnodup, share_eq_some_iff]
  constructor
  · rintro ⟨⟨w', y'⟩, hmem, rfl, rfl⟩
    obtain ⟨key, hget, hc⟩ := (mem_classified_iff hok).mp (mem_bucket.mp hmem)
    obtain ⟨u, hu, rfl, hedge⟩ := (h.graph.edges_iff hv .outgoing _ _ _).mp hget
    exact ⟨hedge, u.body, Graph.body?_of_get? hu, hc⟩
  · rintro ⟨hedge, b, hb, hc⟩
    obtain ⟨u, hu, rfl⟩ := Graph.body?_eq_some_iff.mp hb
    have hget := (h.graph.edges_iff hv .outgoing u.location.key w y).mpr ⟨u, hu, rfl, hedge⟩
    exact ⟨⟨w, y⟩, mem_bucket.mpr ((mem_classified_iff hok).mpr ⟨_, hget, hc⟩), rfl, rfl⟩

omit [Scalar α] in
/-- Each piece takes over all incoming edges of the node. -/
theorem lookupBy_incoming (h : a.NodesSound) {id : NodeId} {v : Node α} (hv : a.nodes.get? id = some v) (x : NodeId) :
    lookupBy v.incoming.toList (·.2.neighbor) (·.2.weight) x = a.nodes.edge? x id := by
  have hnodup : (v.incoming.toList.map (·.2.neighbor)).Nodup := h.graph.neighbors_nodup hv .incoming
  ext w
  rw [lookupBy_eq_some_iff hnodup]
  constructor
  · rintro ⟨⟨key, w', x'⟩, he, rfl, rfl⟩
    obtain ⟨_, _, _, hedge⟩ := (h.graph.edges_iff hv .incoming _ _ _).mp (EdgeSet.mem_toList_iff.mp he)
    exact hedge
  · intro hedge
    obtain ⟨u, _, hu, _, _⟩ := h.graph.ends hedge
    have hget := (h.graph.edges_iff hv .incoming u.location.key w x).mpr ⟨u, hu, rfl, hedge⟩
    exact ⟨(_, ⟨w, x⟩), EdgeSet.mem_toList_iff.mpr hget, rfl, rfl⟩

/-- Edges of the nodes once the given pieces of `id` are made. -/
def edgeWith (a : Abstraction α) (id : NodeId) (made : List (NodeId × Location)) (x y : NodeId) : Option α :=
  match placeOf made x with
  | some place => a.share id place.category y
  | none => if (placeOf made y).isSome then a.nodes.edge? x id else a.nodes.edge? x y

/-- One more piece. Its edges do not meet those of the pieces made before. -/
theorem Pieces.snoc {made : List (NodeId × Location)} (h : Pieces a l made) {a₁ a₂ : Abstraction α} {id p : NodeId}
    {v : Node α} {place : Location} (hsound : a.NodesSound)
    (h₁ : NodesBecome a a₁ (a.bodyWith v made) (a.edgeWith id made)) (hp : a₁.nodes.body? p = none)
    (h₂ : NodesBecome a₁ a₂ (fun x => if x = p then some (pieceBody v place) else a₁.nodes.body? x)
      (fun x y => if x = p then a.share id place.category y else if y = p then a.nodes.edge? x id
        else a₁.nodes.edge? x y)) (hplace : place.layer = l) :
    Pieces a l (made ++ [(p, place)]) ∧
      NodesBecome a a₂ (a.bodyWith v (made ++ [(p, place)])) (a.edgeWith id (made ++ [(p, place)])) := by
  rw [h₁.body?_eq] at hp
  obtain ⟨hnew, hfresh⟩ : placeOf made p = none ∧ a.nodes.body? p = none := by
    unfold bodyWith at hp
    cases hfind : placeOf made p with
    | none => exact ⟨rfl, by simpa [hfind] using hp⟩
    | some place => simp [hfind] at hp
  have hplaceOf : ∀ x, placeOf (made ++ [(p, place)]) x = if x = p then some place else placeOf made x := by
    intro x
    unfold placeOf at hnew ⊢
    rw [lookupBy_append]
    by_cases hx : x = p
    · subst hx
      rw [hnew]
      simp [lookupBy]
    · simp [lookupBy, hx, Ne.symm hx]
  constructor
  · refine ⟨?_, ?_, ?_⟩
    · intro q hq
      rcases List.mem_append.mp hq with hq | hq
      · exact h.fresh q hq
      · rw [List.mem_singleton.mp hq]
        exact hfresh
    · rw [List.map_append, List.nodup_append]
      refine ⟨h.nodup, by simp, ?_⟩
      rintro x hx y hy rfl
      obtain ⟨q, hq, rfl⟩ := List.mem_map.mp hx
      rw [List.map_singleton, List.mem_singleton] at hy
      exact lookupBy_eq_none_iff.mp hnew q hq hy
    · intro q hq
      rcases List.mem_append.mp hq with hq | hq
      · exact h.layer_eq q hq
      · rw [List.mem_singleton.mp hq]
        exact hplace
  · refine (h₁.trans h₂).congr ?_ ?_
    · intro x
      rw [h₁.body?_eq]
      simp only [bodyWith, hplaceOf]
      split <;> rfl
    · intro x y
      rw [h₁.edge?_eq]
      simp only [edgeWith, hplaceOf]
      by_cases hx : x = p
      · simp [hx]
      · simp only [if_neg hx]
        by_cases hy : y = p
        · subst hy
          cases hfind : placeOf made x with
          | none => simp
          | some place' =>
            -- Neither an edge from a piece nor one into the new piece was there before.
            obtain ⟨q, hq, rfl, _⟩ := exists_of_lookupBy hfind
            have hshare : a.share id place'.category y = none := by
              rw [share, hsound.edge?_eq_none (Or.inr hfresh)]
              simp
            simp [hshare, hsound.edge?_eq_none (Or.inl (h.fresh q hq))]
        · simp [hy]

/-- What a node is replaced by: pieces of different categories, among them one for each edge, and nothing of the node
itself. -/
structure Divided (a a' : Abstraction α) (l : Nat) (id : NodeId) (v : Node α) (made : List (NodeId × Location)) :
    Prop where
  pieces : Pieces a l made
  cemented : ∀ p ∈ made, p.2.category ≠ .unprocessed
  categories_nodup : (categoriesOf made).Nodup
  asks_some : ∀ {y w}, a.nodes.edge? id y = some w → ∃ category, a.asks id y = some category
  asked : ∀ {y category}, a.asks id y = some category → ∃ p ∈ made, p.2.category = category
  asking : ∀ p ∈ made, ∃ y, a.asks id y = some p.2.category
  becomes : NodesBecome a a' (fun x => if x = id then none else a.bodyWith v made x)
    (fun x y => if x = id ∨ y = id then none else a.edgeWith id made x y)

/-- Every edge of a node that could be classified has its bucket. -/
private theorem exists_bucket (h : a.NodesSound) {id : NodeId} {v : Node α} (hv : a.nodes.get? id = some v)
    {classified : List (Category × Edge α NodeId)} (hok : classifyEdges l id v = .ok classified) {y : NodeId}
    {category : Category} (hasks : a.asks id y = some category) : category ∈ (buckets classified).map Prod.fst := by
  obtain ⟨w, hedge, hw⟩ := Option.bind_eq_some_iff.mp hasks
  obtain ⟨b, hb, hc⟩ := Option.bind_eq_some_iff.mp hw
  have hshare := share_eq_some_iff.mpr ⟨hedge, b, hb, hc⟩
  rw [← (lookupBy_bucket h hv hok category).2] at hshare
  obtain ⟨e, he, _⟩ := exists_of_lookupBy hshare
  have hcemented : category ∈ Category.cemented := by
    cases hb' : b.location.category <;> rw [hb'] at hc <;>
      simp only [Category.classify?, Category.isIncreasing?, Option.map_some, Option.map_none, Option.some.injEq,
        reduceCtorEq] at hc <;> subst hc <;> unfold Category.ofSigns <;> split <;> decide
  rw [buckets_eq, List.map_map]
  refine List.mem_map.mpr ⟨category, List.mem_filter.mpr ⟨hcemented, ?_⟩, rfl⟩
  simpa using List.ne_nil_of_mem he

/-- The pieces of a node, made one after the other. -/
theorem makePieces_meets (h : a.NodesSound) {id : NodeId} {v : Node α} {slot : Slot} (hv : a.nodes.get? id = some v)
    (hplace : v.location = ⟨l, .unprocessed, slot⟩) {classified : List (Category × Edge α NodeId)}
    (hok : classifyEdges l id v = .ok classified) :
    ((buckets classified).mapM fun (category, edges) => makePiece l v category edges).Meets a
      (fun pieces a₁ => ∃ made : List (NodeId × Location), pieces = made.map Prod.fst ∧
        categoriesOf made = (buckets classified).map Prod.fst ∧
        Pieces a l made ∧ NodesBecome a a₁ (a.bodyWith v made) (a.edgeWith id made))
      (fun e a' => NodesFull e a' ∧ Crowded a a' l v) := by
  have hbody := Graph.body?_of_get? hv
  obtain ⟨layer, hlayer, _⟩ := h.exists_layer hbody
  rw [Vertex.body_location, hplace] at hlayer
  -- The invariant: the pieces made so far have the categories of the buckets done.
  refine Step.Meets.mapM (fun done pieces a₁ => ∃ made : List (NodeId × Location), pieces = made.map Prod.fst ∧
    categoriesOf made = done.map Prod.fst ∧ Pieces a l made ∧
      NodesBecome a a₁ (a.bodyWith v made) (a.edgeWith id made)) ?_ ?_
  · exact ⟨[], rfl, rfl, ⟨by simp, by simp, by simp⟩, h.becomes⟩
  rintro done pieces ⟨given, edges⟩ rest a₁ hbuckets ⟨made, hpieces, hcategories, hmade, h₁⟩
  have hmem : (given, edges) ∈ buckets classified := by rw [hbuckets]; simp
  rw [buckets_eq, List.mem_map] at hmem
  obtain ⟨category, hc, heq⟩ := hmem
  obtain ⟨rfl, rfl⟩ := Prod.mk.inj heq
  have hcategory : category ≠ .unprocessed := by
    rintro rfl
    exact absurd (List.mem_of_mem_filter hc) (by decide)
  obtain ⟨hnodup, hlookup⟩ := lookupBy_bucket h hv hok category
  obtain ⟨layer₁, hlayer₁, _⟩ := exists_layer_of_arnodePart h₁.arnodePart_eq hlayer
  have hkept : ∀ {x u}, a.nodes.get? x = some u → a₁.nodes.body? x = some u.body := by
    intro x u hu
    rw [h₁.body?_eq, bodyWith, hmade.placeOf_eq_none (Graph.body?_of_get? hu), Graph.body?_of_get? hu]
  have hout : ∀ e ∈ bucket classified category, ∃ b, a₁.nodes.body? e.neighbor = some b ∧ b.location.layer = l + 1 := by
    rintro ⟨w, y⟩ he
    obtain ⟨key, hget, _⟩ := (mem_classified_iff hok).mp (mem_bucket.mp he)
    obtain ⟨u, hu, _, hedge⟩ := (h.graph.edges_iff hv .outgoing _ _ _).mp hget
    obtain ⟨_, _, hv', hu', hl⟩ := h.graph.ends hedge
    rw [hv] at hv'
    rw [hu] at hu'
    cases hv'
    cases hu'
    rw [hplace] at hl
    exact ⟨u.body, hkept hu, hl⟩
  have hin : ∀ e ∈ v.incoming.toList, ∃ b, a₁.nodes.body? e.2.neighbor = some b ∧ l = b.location.layer + 1 := by
    rintro ⟨key, w, x⟩ he
    obtain ⟨u, hu, _, hedge⟩ := (h.graph.edges_iff hv .incoming _ _ _).mp (EdgeSet.mem_toList_iff.mp he)
    obtain ⟨_, _, hu', hv', hl⟩ := h.graph.ends hedge
    rw [hv] at hv'
    rw [hu] at hu'
    cases hv'
    cases hu'
    rw [hplace] at hl
    exact ⟨u.body, hkept hu, hl⟩
  have hnodup' : (v.incoming.toList.map (·.2.neighbor)).Nodup := h.graph.neighbors_nodup hv .incoming
  refine (makePiece_meets h₁.sound hlayer₁ v hcategory hnodup hout hnodup' hin).mono ?_ ?_
  swap
  · rintro e a₂ ⟨hfull, rfl⟩
    exact ⟨hfull, hmade.crowded h₁⟩
  rintro p a₂ ⟨hnone, newSlot, h₂⟩
  simp only [hlookup, lookupBy_incoming h hv] at h₂
  obtain ⟨hmade', h₃⟩ := hmade.snoc h h₁ hnone h₂ rfl
  exact ⟨made ++ [(p, ⟨l, category, newSlot⟩)], by simp [hpieces], by simpa [categoriesOf] using hcategories, hmade', h₃⟩

theorem divide_meets (h : a.NodesSound) {id : NodeId} {v : Node α} {slot : Slot} (hv : a.nodes.get? id = some v)
    (hplace : v.location = ⟨l, .unprocessed, slot⟩) :
    (divide l id v).Meets a
      (fun pieces a' => ∃ made : List (NodeId × Location), pieces = made.map Prod.fst ∧ Divided a a' l id v made)
      (fun e a' => (e = .successorUnprocessed id (l + 1) ∧ a.FeedsUnprocessed id) ∧ a' = a ∨
        NodesFull e a' ∧ Crowded a a' l v) := by
  have hbody := Graph.body?_of_get? hv
  unfold divide
  rw [Step.meets_bind, Step.meets_ofExcept]
  cases hok : classifyEdges l id v with
  | error e => exact Or.inl ⟨classifyEdges_error h hv hok, rfl⟩
  | ok classified =>
    dsimp only
    rw [Step.meets_bind]
    refine (makePieces_meets h hv hplace hok).mono ?_ fun e a' hfull => Or.inr hfull
    rintro pieces a₁ ⟨made, hpieces, hcategories, hmade, h₁⟩
    have hid : placeOf made id = none := hmade.placeOf_eq_none hbody
    have hbody₁ : a₁.nodes.body? id = some v.body := by rw [h₁.body?_eq, bodyWith, hid, hbody]
    rw [Step.meets_bind]
    refine (removeNode_meets h₁.sound hbody₁ hplace).mono ?_ fun _ _ hfalse => hfalse.elim
    intro _ a₂ hunlist
    have hslot : v.location.slot = slot := by rw [hplace]
    rw [Step.meets_bind, hslot]
    refine hunlist.mono ?_ fun _ _ hfalse => hfalse.elim
    intro _ a₃ h₃
    have hcats : categoriesOf made = Category.cemented.filter fun c => bucket classified c ≠ [] := by
      rw [hcategories, buckets_eq, List.map_map]
      exact List.map_id _
    refine ⟨made, hpieces, hmade, ?_, ?_, ?_, ?_, ?_, ?_⟩
    · intro p hp hunprocessed
      have hmem : Category.unprocessed ∈ categoriesOf made := List.mem_map.mpr ⟨p, hp, hunprocessed⟩
      rw [hcats] at hmem
      exact absurd (List.mem_of_mem_filter hmem) (by decide)
    · rw [hcats]
      exact List.Nodup.filter _ (by decide)
    · intro y w hedge
      obtain ⟨_, u, hv', hu, _⟩ := h.graph.ends hedge
      rw [hv] at hv'
      cases hv'
      have hget := (h.graph.edges_iff hv .outgoing u.location.key w y).mpr ⟨u, hu, rfl, hedge⟩
      obtain ⟨⟨category, e⟩, _, hok'⟩ := (mem_of_mapM_ok hok).1 (_, ⟨w, y⟩) (EdgeSet.mem_toList_iff.mpr hget)
      dsimp only at hok'
      split at hok'
      · next c hc => exact ⟨c, by simpa [asks, hedge, Graph.body?_of_get? hu, Location.key] using hc⟩
      · cases hok'
    · intro y category hasks
      have hmem := exists_bucket h hv hok hasks
      rw [← hcategories] at hmem
      obtain ⟨p, hp, hc⟩ := List.mem_map.mp hmem
      exact ⟨p, hp, hc⟩
    · intro p hp
      have hmem : p.2.category ∈ categoriesOf made := List.mem_map.mpr ⟨p, hp, rfl⟩
      rw [hcats, List.mem_filter, decide_eq_true_eq] at hmem
      obtain ⟨e, he⟩ := List.exists_mem_of_ne_nil _ hmem.2
      obtain ⟨key, hget, hclass⟩ := (mem_classified_iff hok).mp (mem_bucket.mp he)
      obtain ⟨u, hu, hkey, hedge⟩ := (h.graph.edges_iff hv .outgoing key e.weight e.neighbor).mp hget
      have hedge : a.nodes.edge? id e.neighbor = some e.weight := hedge
      refine ⟨e.neighbor, ?_⟩
      rw [asks, hedge, Option.bind_some, Graph.body?_of_get? hu, Option.bind_some, ← hclass, ← hkey]
      rfl
    · have h₄ : NodesBecome a a₃ _ _ := h₁.trans h₃
      refine ⟨⟨h₄.sound.graph, h₄.sound.housed, h₄.sound.movable_iff⟩, ?_, ?_, h₄.arnodePart_eq, h₄.slots_le⟩
      · intro x
        exact (h₄.body?_eq x).trans (by rw [h₁.body?_eq])
      · intro x y
        exact (h₄.edge?_eq x y).trans (by rw [h₁.edge?_eq])

end ReluAbstraction.Abstraction
