import ReluAbstraction.Proofs.Preprocessing

/-!
# Loading a network

Taking up a network makes a node for each neuron and an edge for each weight that is not zero. While it goes on, the rows of
nodes made so far tell which node is which neuron. The abstraction that comes of it represents the network.
-/

namespace ReluAbstraction.Network

variable {α : Type}

theorem realizes_edge?_empty {k : EntityKind} {δ : Type} (tables : Nat) :
    Graph.Realizes (Arena.empty : Graph k α δ) tables (Graph.edge? (Arena.empty : Graph k α δ)) := by
  have hedge : Graph.edge? (Arena.empty : Graph k α δ) = fun _ _ => none := by
    funext x y
    simp [Graph.edge?]
  rw [hedge]
  exact Graph.realizes_empty tables

/-- An abstraction without nodes. -/
theorem nodesSound_empty (roles : List LayerRole) (limit : Option Nat) (policy : Policy) :
    (Abstraction.empty roles limit policy : Abstraction α).NodesSound := by
  refine ⟨realizes_edge?_empty 5, housed_empty fun c hc => ?_, fun {id b} hb => ?_⟩
  · simp only [Abstraction.nodeChains, Abstraction.empty, List.map_map, List.mem_map] at hc
    obtain ⟨role, _, rfl⟩ := hc
    rfl
  · change (Arena.get? Arena.empty id).map _ = some b at hb
    simp at hb

variable [Scalar α] {net : Feedforward α}

/-- In the rows of nodes made so far, `x` is the node of neuron `r`. -/
def Holds (rows : List (List NodeId)) (x : NodeId) (r : NeuronRef) : Prop :=
  ∃ row, rows[r.layer]? = some row ∧ row[r.index]? = some x

theorem Holds.unique {rows : List (List NodeId)} {x x' : NodeId} {r : NeuronRef} (h : Holds rows x r)
    (h' : Holds rows x' r) : x = x' := by
  obtain ⟨row, hrow, hx⟩ := h
  obtain ⟨row', hrow', hx'⟩ := h'
  rw [hrow] at hrow'
  cases hrow'
  rw [hx] at hx'
  exact Option.some.inj hx'

/-- One more node at the end of the last row. -/
theorem holds_snoc {rows : List (List NodeId)} {row : List NodeId} {x y : NodeId} {r : NeuronRef} :
    Holds (rows ++ [row ++ [x]]) y r ↔ Holds (rows ++ [row]) y r ∨ y = x ∧ r = ⟨rows.length, row.length⟩ := by
  obtain ⟨l, j⟩ := r
  simp only [Holds, NeuronRef.mk.injEq]
  rcases Nat.lt_trichotomy l rows.length with hl | rfl | hl
  · simp [List.getElem?_append_left hl, hl.ne]
  · simp only [List.getElem?_concat_length, Option.some.injEq, exists_eq_left', true_and]
    rcases Nat.lt_trichotomy j row.length with hj | rfl | hj
    · simp [List.getElem?_append_left hj, hj.ne]
    · simp [eq_comm]
    · have hnone : (row ++ [x])[j]? = none := List.getElem?_eq_none (by simp; omega)
      have hnone' : row[j]? = none := List.getElem?_eq_none (by omega)
      simp [hnone, hnone', hj.ne']
  · have hnone : ∀ row' : List NodeId, (rows ++ [row'])[l]? = none := fun row' => List.getElem?_eq_none (by simp; omega)
    simp [hnone, hl.ne']

theorem holds_new_row {rows : List (List NodeId)} {x : NodeId} {r : NeuronRef} :
    Holds (rows ++ [[]]) x r ↔ Holds rows x r := by
  obtain ⟨l, j⟩ := r
  simp only [Holds]
  rcases Nat.lt_trichotomy l rows.length with hl | rfl | hl
  · simp [List.getElem?_append_left hl]
  · simp
  · have hnone : (rows ++ [[]])[l]? = none := List.getElem?_eq_none (by simp; omega)
    have hnone' : rows[l]? = none := List.getElem?_eq_none (by omega)
    simp [hnone, hnone']

/-- The nodes are those of the rows, all of them unprocessed and without a holder. -/
structure Seeded (net : Feedforward α) (blank a : Abstraction α) (rows : List (List NodeId)) : Prop where
  sound : a.NodesSound
  arnodePart_eq : a.arnodePart = blank.arnodePart
  live : ∀ {x r}, Holds rows x r → ∃ b, a.nodes.body? x = some b ∧ b.data.origin = r
  origin : ∀ {x b}, a.nodes.body? x = some b → Holds rows x b.data.origin ∧ b.location.layer = b.data.origin.layer ∧
    b.location.category = .unprocessed ∧ b.data.bias = net.bias b.data.origin.layer b.data.origin.index ∧
    b.data.owner = none

theorem Seeded.neuron_unique {blank a : Abstraction α} {rows : List (List NodeId)} (h : Seeded net blank a rows)
    {x : NodeId} {r r' : NeuronRef} (hr : Holds rows x r) (hr' : Holds rows x r') : r = r' := by
  obtain ⟨b, hb, rfl⟩ := h.live hr
  obtain ⟨b', hb', rfl⟩ := h.live hr'
  rw [hb] at hb'
  cases hb'
  rfl

/-- Making the node of the next neuron. -/
theorem createNode_meets {blank a : Abstraction α} {rows : List (List NodeId)} {row : List NodeId}
    (h : Seeded net blank a (rows ++ [row])) (hedge : ∀ x y, a.nodes.edge? x y = none)
    (hlayer : ∃ layer, blank.layers[rows.length]? = some layer) :
    (Abstraction.createNode rows.length (net.bias rows.length row.length) ⟨rows.length, row.length⟩).Meets a
      (fun r a' => Seeded net blank a' (rows ++ [row ++ [r.1]]) ∧ ∀ x y, a'.nodes.edge? x y = none)
      (fun _ _ => True) := by
  obtain ⟨layer₀, hlayer₀⟩ := hlayer
  obtain ⟨layer, hlayer, _⟩ := Abstraction.exists_layer_of_arnodePart h.arnodePart_eq hlayer₀
  unfold Abstraction.createNode
  refine (Abstraction.insertNode_meets h.sound hlayer (by simp) _ _).mono ?_ fun _ _ _ => trivial
  rintro ⟨x, place⟩ a' ⟨slot, _, hnone, ha'⟩
  dsimp only at hnone ha' ⊢
  refine ⟨⟨ha'.sound, ha'.arnodePart_eq.trans h.arnodePart_eq, ?_, ?_⟩, fun y z => (ha'.edge?_eq y z).trans (hedge y z)⟩
  · intro y r hy
    rw [ha'.body?_eq]
    rcases holds_snoc.mp hy with hold | ⟨rfl, rfl⟩
    · obtain ⟨b, hb, horigin⟩ := h.live hold
      have hne : y ≠ x := by
        rintro rfl
        rw [hnone] at hb
        cases hb
      exact ⟨b, by rw [if_neg hne, hb], horigin⟩
    · exact ⟨_, if_pos rfl, rfl⟩
  · intro y b hb
    rw [ha'.body?_eq] at hb
    split at hb
    · next hyx =>
      injection hb with hb
      subst hb
      exact ⟨holds_snoc.mpr (Or.inr ⟨hyx, rfl⟩), rfl, rfl, rfl, rfl⟩
    · obtain ⟨hold, hrest⟩ := h.origin hb
      exact ⟨holds_snoc.mpr (Or.inl hold), hrest⟩

/-- An element of a range stands at its own place. -/
private theorem eq_length_of_range {n x : Nat} {done rest : List Nat} (h : List.range n = done ++ x :: rest) :
    x = done.length := by
  have hget : (List.range n)[done.length]? = some x := by rw [h]; simp
  obtain ⟨hlt, hx⟩ := List.getElem?_eq_some_iff.mp hget
  simpa using hx.symm

/-- Making the nodes of the next layer. -/
theorem loadLayer_meets {blank a : Abstraction α} {rows : List (List NodeId)} (h : Seeded net blank a rows)
    (hedge : ∀ x y, a.nodes.edge? x y = none) (hlayer : ∃ layer, blank.layers[rows.length]? = some layer) :
    (loadLayer net rows.length).Meets a
      (fun row a' => row.length = net.width rows.length ∧ Seeded net blank a' (rows ++ [row]) ∧
        ∀ x y, a'.nodes.edge? x y = none) (fun _ _ => True) := by
  unfold loadLayer
  refine (Step.Meets.mapM (fun done row a' => row.length = done.length ∧ Seeded net blank a' (rows ++ [row]) ∧
    ∀ x y, a'.nodes.edge? x y = none) ?_ ?_).imp fun row a' ha' => ?_
  · refine ⟨rfl, ⟨h.sound, h.arnodePart_eq, fun hx => h.live (holds_new_row.mp hx), fun hb => ?_⟩, hedge⟩
    obtain ⟨hold, hrest⟩ := h.origin hb
    exact ⟨holds_new_row.mpr hold, hrest⟩
  · rintro done row neuron rest a' hrange ⟨hlength, hseeded, hnone⟩
    have hneuron : neuron = row.length := by rw [eq_length_of_range hrange, hlength]
    subst hneuron
    rw [Step.meets_bind]
    refine (createNode_meets hseeded hnone hlayer).imp fun r a'' ha'' => ?_
    exact ⟨by simp [hlength], ha''⟩
  · rwa [List.length_range] at ha'

/-- Making the nodes of all layers. -/
theorem loadLayers_meets {blank : Abstraction α} (hblank : blank.NodesSound) (hempty : ∀ x, blank.nodes.body? x = none)
    (hlayers : blank.layers.length = net.depth) :
    ((List.range net.depth).mapM (loadLayer net)).Meets blank
      (fun rows a => rows.length = net.depth ∧ (∀ l row, rows[l]? = some row → row.length = net.width l) ∧
        Seeded net blank a rows ∧ ∀ x y, a.nodes.edge? x y = none) (fun _ _ => True) := by
  refine (Step.Meets.mapM (fun done rows a => rows.length = done.length ∧
    (∀ l row, rows[l]? = some row → row.length = net.width l) ∧ Seeded net blank a rows ∧
      ∀ x y, a.nodes.edge? x y = none) ?_ ?_).imp fun rows a ha => ?_
  · refine ⟨rfl, by simp, ⟨hblank, rfl, ?_, ?_⟩, fun x y => hblank.edge?_eq_none (Or.inl (hempty x))⟩
    · rintro x r ⟨row, hrow, _⟩
      simp at hrow
    · intro x b hb
      rw [hempty] at hb
      cases hb
  · rintro done rows l rest a hrange ⟨hlength, hwidths, hseeded, hnone⟩
    have hl : l = rows.length := by rw [eq_length_of_range hrange, hlength]
    have hlt : l < net.depth := List.mem_range.mp (by rw [hrange]; simp)
    subst hl
    have hlayer : ∃ layer, blank.layers[rows.length]? = some layer :=
      ⟨_, List.getElem?_eq_getElem (by rw [hlayers]; exact hlt)⟩
    refine (loadLayer_meets hseeded hnone hlayer).imp ?_
    rintro row a' ⟨hrow, hseeded', hnone'⟩
    refine ⟨by simp [hlength], ?_, hseeded', hnone'⟩
    intro m row' hrow'
    rw [List.getElem?_append] at hrow'
    split at hrow'
    · exact hwidths m row' hrow'
    · next hm =>
      rw [List.getElem?_singleton] at hrow'
      split at hrow'
      · next hzero =>
        injection hrow' with hrow'
        have hmeq : m = rows.length := by omega
        rw [← hrow', hrow, hmeq]
      · cases hrow'
  · rwa [List.length_range] at ha

/-- Weight that the neurons of `x` and `y` ask for, if it is not zero. -/
def IsWeight (net : Feedforward α) (rows : List (List NodeId)) (x y : NodeId) (w : α) : Prop :=
  ∃ l i j, Holds rows x ⟨l, i⟩ ∧ Holds rows y ⟨l + 1, j⟩ ∧ w = net.weight (l + 1) j i ∧ (w == 0) = false

/-- The nodes are those of the rows, and between the given pairs of them there are the edges of the network. -/
structure Wired (net : Feedforward α) (blank a : Abstraction α) (rows : List (List NodeId))
    (done : NodeId → NodeId → Prop) : Prop where
  seeded : Seeded net blank a rows
  edge?_iff : ∀ {x y w}, a.nodes.edge? x y = some w ↔ done x y ∧ IsWeight net rows x y w

theorem Wired.congr {blank a : Abstraction α} {rows : List (List NodeId)} {done done' : NodeId → NodeId → Prop}
    (h : Wired net blank a rows done) (hdone : ∀ x y, done x y ↔ done' x y) : Wired net blank a rows done' :=
  ⟨h.seeded, by simp only [h.edge?_iff, hdone, implies_true]⟩

/-- Making one edge, or none if its weight is zero. -/
theorem loadEdge_meets {blank a : Abstraction α} {rows : List (List NodeId)} {done : NodeId → NodeId → Prop}
    (h : Wired net blank a rows done) {source target : NodeId} {l i j : Nat} (hs : Holds rows source ⟨l, i⟩)
    (ht : Holds rows target ⟨l + 1, j⟩) :
    (if net.weight (l + 1) j i == 0 then pure () else
      Abstraction.onNodes (Graph.link source .outgoing target (net.weight (l + 1) j i) true) :
        Step (Abstraction α) Unit).Meets a
      (fun _ a' => Wired net blank a' rows fun x y => done x y ∨ x = source ∧ y = target) (fun _ _ => True) := by
  have hweight : ∀ {w}, IsWeight net rows source target w ↔
      w = net.weight (l + 1) j i ∧ (net.weight (l + 1) j i == 0) = false := by
    intro w
    constructor
    · rintro ⟨l', i', j', hs', ht', hw, hne⟩
      have hsource := h.seeded.neuron_unique hs hs'
      have htarget := h.seeded.neuron_unique ht ht'
      simp only [NeuronRef.mk.injEq] at hsource htarget
      obtain ⟨rfl, rfl⟩ := hsource
      obtain ⟨_, rfl⟩ := htarget
      exact ⟨hw, hw ▸ hne⟩
    · rintro ⟨rfl, hne⟩
      exact ⟨l, i, j, hs, ht, rfl, hne⟩
  rw [Step.meets_ite]
  constructor
  · intro hzero
    refine ⟨h.seeded, fun {x y w} => ?_⟩
    rw [h.edge?_iff]
    constructor
    · rintro ⟨hdone, hw⟩
      exact ⟨Or.inl hdone, hw⟩
    · rintro ⟨hdone | ⟨rfl, rfl⟩, hw⟩
      · exact ⟨hdone, hw⟩
      · rw [hweight, hzero] at hw
        exact absurd hw.2 (by simp)
  · intro hne
    obtain ⟨b, hb, hbo⟩ := h.seeded.live hs
    obtain ⟨c, hc, hco⟩ := h.seeded.live ht
    have hbl := (h.seeded.origin hb).2.1
    have hcl := (h.seeded.origin hc).2.1
    rw [hbo] at hbl
    rw [hco] at hcl
    have hfaces : Direction.outgoing.Faces b.location.layer c.location.layer := by
      rw [hbl, hcl]
      rfl
    refine (Abstraction.linkNodes_meets h.seeded.sound hb hc hfaces _).mono ?_ fun _ _ hfalse => hfalse.elim
    intro _ a' ha'
    refine ⟨⟨ha'.sound, ha'.arnodePart_eq.trans h.seeded.arnodePart_eq, ?_, ?_⟩, fun {x y w} => ?_⟩
    · intro x r hx
      rw [ha'.body?_eq]
      exact h.seeded.live hx
    · intro x b hb
      rw [ha'.body?_eq] at hb
      exact h.seeded.origin hb
    · rw [ha'.edge?_eq]
      simp only [Direction.assign]
      split
      · next hpair =>
        obtain ⟨rfl, rfl⟩ := hpair
        rw [hweight]
        simp only [Bool.not_eq_true] at hne
        simp [hne, eq_comm]
      · next hpair => simp [h.edge?_iff, hpair]

/-- Making the edges between two neighbouring layers. -/
theorem loadEdges_meets {blank a : Abstraction α} {rows : List (List NodeId)} {done : NodeId → NodeId → Prop}
    (h : Wired net blank a rows done) {l : Nat} {sources targets : List NodeId} (hs : rows[l]? = some sources)
    (ht : rows[l + 1]? = some targets) :
    (loadEdges net (l + 1) sources targets).Meets a
      (fun _ a' => Wired net blank a' rows fun x y => done x y ∨ x ∈ sources ∧ y ∈ targets) (fun _ _ => True) := by
  unfold loadEdges
  refine (Step.Meets.forM (fun first a' => Wired net blank a' rows
    fun x y => done x y ∨ x ∈ sources ∧ y ∈ first.map Prod.fst) ?_ ?_).imp fun _ a' ha' => ?_
  · exact h.congr fun x y => by simp
  · rintro first ⟨target, j⟩ rest a₁ htargets h₁
    have htarget : Holds rows target ⟨l + 1, j⟩ := by
      have hmem : (target, j) ∈ targets.zipIdx := by rw [htargets]; simp
      exact ⟨targets, ht, List.mem_zipIdx_iff_getElem?.mp hmem⟩
    refine (Step.Meets.forM (fun first' a' => Wired net blank a' rows fun x y =>
      (done x y ∨ x ∈ sources ∧ y ∈ first.map Prod.fst) ∨ x ∈ first'.map Prod.fst ∧ y = target) ?_ ?_).imp
        fun _ a' ha' => ha'.congr fun x y => ?_
    · exact h₁.congr fun x y => by simp
    · rintro first' ⟨source, i⟩ rest' a₂ hsources h₂
      have hsource : Holds rows source ⟨l, i⟩ := by
        have hmem : (source, i) ∈ sources.zipIdx := by rw [hsources]; simp
        exact ⟨sources, hs, List.mem_zipIdx_iff_getElem?.mp hmem⟩
      refine (loadEdge_meets h₂ hsource htarget).imp fun _ a₃ h₃ => h₃.congr fun x y => ?_
      rw [List.map_append, List.mem_append, List.map_singleton, List.mem_singleton, or_and_right, or_assoc]
    · rw [List.zipIdx_map_fst, List.map_append, List.mem_append, List.map_singleton, List.mem_singleton, and_or_left,
        or_assoc]
  · rwa [List.zipIdx_map_fst] at ha'

/-- Neighbouring rows, as the edges are made between them. -/
private theorem mem_zip_tail {rows : List (List NodeId)} {sources targets : List NodeId} {l : Nat} :
    ((sources, targets), l) ∈ (rows.zip rows.tail).zipIdx 1 ↔
      ∃ m, l = m + 1 ∧ rows[m]? = some sources ∧ rows[m + 1]? = some targets := by
  rw [List.mem_zipIdx_iff_le_and_getElem?_sub]
  constructor
  · rintro ⟨hl, hget⟩
    rw [List.getElem?_zip_eq_some, List.getElem?_tail] at hget
    exact ⟨l - 1, by omega, hget.1, hget.2⟩
  · rintro ⟨m, rfl, hs, ht⟩
    refine ⟨by omega, ?_⟩
    rw [List.getElem?_zip_eq_some, List.getElem?_tail]
    exact ⟨hs, ht⟩

/-- Loading makes the nodes and all edges of the network. -/
theorem load_meets {blank : Abstraction α} (hblank : blank.NodesSound) (hempty : ∀ x, blank.nodes.body? x = none)
    (hlayers : blank.layers.length = net.depth) :
    (load net).Meets blank (fun _ a => ∃ rows, rows.length = net.depth ∧
      (∀ l row, rows[l]? = some row → row.length = net.width l) ∧ Seeded net blank a rows ∧
      ∀ {x y w}, a.nodes.edge? x y = some w ↔ IsWeight net rows x y w) (fun _ _ => True) := by
  unfold load
  rw [Step.meets_bind]
  refine (loadLayers_meets hblank hempty hlayers).imp ?_
  rintro rows a ⟨hlength, hwidths, hseeded, hnone⟩
  refine (Step.Meets.forM (fun first a' => Wired net blank a' rows
    fun x y => ∃ e ∈ first, x ∈ e.1.1 ∧ y ∈ e.1.2) ?_ ?_).imp fun _ a' ha' => ?_
  · exact ⟨hseeded, fun {x y w} => by simp [hnone]⟩
  · rintro first ⟨⟨sources, targets⟩, l⟩ rest a' hpairs ha'
    have hmem : ((sources, targets), l) ∈ (rows.zip rows.tail).zipIdx 1 := by rw [hpairs]; simp
    obtain ⟨m, rfl, hs, ht⟩ := mem_zip_tail.mp hmem
    refine (loadEdges_meets ha' hs ht).imp fun _ a'' ha'' => ha''.congr fun x y => ?_
    simp only [List.mem_append, List.mem_singleton, or_and_right, exists_or, exists_eq_left]
  · refine ⟨rows, hlength, hwidths, ha'.seeded, fun {x y w} => ?_⟩
    rw [ha'.edge?_iff]
    refine ⟨And.right, fun hw => ⟨?_, hw⟩⟩
    obtain ⟨l, i, j, ⟨sources, hs, hx⟩, ⟨targets, ht, hy⟩, _⟩ := hw
    exact ⟨((sources, targets), l + 1), mem_zip_tail.mpr ⟨l, rfl, hs, ht⟩, List.mem_of_getElem? hx,
      List.mem_of_getElem? hy⟩

section Rows

variable {blank a : Abstraction α} {rows : List (List NodeId)}

/-- A loaded node stands for the neuron in whose place it is. -/
theorem Seeded.of_info? (h : Seeded net blank a rows) {x : NodeId} {c : NodeInfo α} (hx : a.info? x = some c) :
    Holds rows x c.origin ∧ c.place.layer = c.origin.layer ∧ c.place.category = .unprocessed ∧
      c.bias = net.bias c.origin.layer c.origin.index := by
  obtain ⟨b, hb, rfl⟩ := Option.map_eq_some_iff.mp hx
  obtain ⟨hold, hl, hc, hbias, _⟩ := h.origin hb
  exact ⟨hold, hl, hc, hbias⟩

theorem Seeded.exists_info? (h : Seeded net blank a rows) {x : NodeId} {r : NeuronRef} (hx : Holds rows x r) :
    ∃ c, a.info? x = some c ∧ c.origin = r := by
  obtain ⟨b, hb, horigin⟩ := h.live hx
  exact ⟨b.info, by rw [Abstraction.info?, hb, Option.map_some], horigin⟩

omit [Scalar α] in
/-- Rows of the network's shape have a node in the place of each neuron, and no other places. -/
theorem exists_holds_iff (hlength : rows.length = net.depth)
    (hwidths : ∀ l row, rows[l]? = some row → row.length = net.width l) {r : NeuronRef} :
    (∃ x, Holds rows x r) ↔ r.layer < net.depth ∧ r.index < net.width r.layer := by
  constructor
  · rintro ⟨x, row, hrow, hx⟩
    rw [← hlength, ← hwidths r.layer row hrow]
    exact ⟨(List.getElem?_eq_some_iff.mp hrow).1, (List.getElem?_eq_some_iff.mp hx).1⟩
  · rintro ⟨hl, hj⟩
    rw [← hlength] at hl
    have hrow := List.getElem?_eq_getElem hl
    have hlt : r.index < rows[r.layer].length := by rwa [hwidths r.layer _ hrow]
    exact ⟨rows[r.layer][r.index], rows[r.layer], hrow, List.getElem?_eq_getElem hlt⟩

end Rows

/-- Loaded nodes represent the network. -/
theorem Seeded.represents {blank a : Abstraction α} {rows : List (List NodeId)} (h : Seeded net blank a rows)
    (hlength : rows.length = net.depth) (hwidths : ∀ l row, rows[l]? = some row → row.length = net.width l)
    (hedge : ∀ {x y w}, a.nodes.edge? x y = some w ↔ IsWeight net rows x y w)
    (hroles : blank.roles = (List.range net.depth).map (roleOf net.depth)) : a.Represents net := by
  have hbounds : ∀ {x c}, a.info? x = some c → c.origin.layer < net.depth ∧ c.origin.index < net.width c.origin.layer :=
    fun {x c} hx => (exists_holds_iff hlength hwidths).mp ⟨x, (h.of_info? hx).1⟩
  refine ⟨h.sound, ?_, (Abstraction.roles_of_arnodePart h.arnodePart_eq).trans hroles⟩
  refine ⟨?_, ?_, ?_, ?_, ?_, ?_, ?_, ?_, ?_, ?_, ?_, ?_, ?_⟩
  · intro x y w hw
    obtain ⟨l, i, j, hx, hy, _⟩ := hedge.mp hw
    obtain ⟨b, hb, hbo⟩ := h.exists_info? hx
    obtain ⟨c, hc, hco⟩ := h.exists_info? hy
    exact ⟨b, c, hb, hc, by rw [(h.of_info? hb).2.1, (h.of_info? hc).2.1, hbo, hco]⟩
  · intro x b hx
    exact (h.of_info? hx).2.1.symm
  · intro x b hx
    rw [(h.of_info? hx).2.1]
    exact (hbounds hx).1
  · intro x b hx
    rw [(h.of_info? hx).2.1]
    exact (hbounds hx).2
  · intro x b hx
    rw [(h.of_info? hx).2.1]
    exact (h.of_info? hx).2.2.2
  · intro x y w b c hw hb hc
    obtain ⟨l, i, j, hx, hy, hweight, _⟩ := hedge.mp hw
    have hbo := h.neuron_unique (h.of_info? hb).1 hx
    have hco := h.neuron_unique (h.of_info? hc).1 hy
    rw [(h.of_info? hc).2.1, hbo, hco, hweight]
  · intro x y w hw
    obtain ⟨l, i, j, _, _, _, hne⟩ := hedge.mp hw
    exact hne
  · intro x x' y w w' b b' hw hw' hb hb' hindex
    obtain ⟨l, i, j, hx, hy, _⟩ := hedge.mp hw
    obtain ⟨l', i', j', hx', hy', _⟩ := hedge.mp hw'
    have hyo := h.neuron_unique hy hy'
    rw [h.neuron_unique (h.of_info? hb).1 hx, h.neuron_unique (h.of_info? hb').1 hx'] at hindex
    simp only [NeuronRef.mk.injEq, Nat.add_right_cancel_iff] at hyo hindex
    obtain ⟨rfl, _⟩ := hyo
    subst hindex
    exact hx.unique hx'
  · intro y c l i hc hl hi hne
    have hlt : l < net.depth := by
      have hcl := (hbounds hc).1
      rw [← (h.of_info? hc).2.1, hl] at hcl
      omega
    obtain ⟨x, hx⟩ := (exists_holds_iff hlength hwidths (r := ⟨l, i⟩)).mpr ⟨hlt, hi⟩
    obtain ⟨b, hb, hbo⟩ := h.exists_info? hx
    have hy : Holds rows y ⟨l + 1, c.origin.index⟩ := by
      have hold := (h.of_info? hc).1
      have horigin : c.origin = ⟨l + 1, c.origin.index⟩ := by rw [← hl, (h.of_info? hc).2.1]
      rwa [horigin] at hold
    exact ⟨x, b, _, hb, by rw [hbo], hedge.mpr ⟨l, i, _, hx, hy, rfl, hne⟩⟩
  · intro l j hl hj
    obtain ⟨x, hx⟩ := (exists_holds_iff hlength hwidths (r := ⟨l, j⟩)).mpr ⟨hl, hj⟩
    obtain ⟨b, hb, hbo⟩ := h.exists_info? hx
    exact ⟨x, b, hb, by rw [(h.of_info? hb).2.1, hbo], by rw [hbo]⟩
  · intro x y w b c _ hb _ hcemented _
    exact absurd (h.of_info? hb).2.2.1 hcemented
  · intro x x' b b' hb hb' _ hl hindex
    have hsame : b.origin = b'.origin := by
      rw [(h.of_info? hb).2.1, (h.of_info? hb').2.1] at hl
      cases horigin : b.origin
      cases horigin' : b'.origin
      simp_all
    exact (h.of_info? hb).1.unique (hsame ▸ (h.of_info? hb').1)
  · intro x b hb hcemented
    exact absurd (h.of_info? hb).2.2.1 hcemented

/-- The abstraction that a network is loaded into. -/
def blank (net : Feedforward α) (property : Property α) (options : Options) : Abstraction α :=
  Abstraction.empty ((List.range net.depth).map (roleOf net.depth)) options.variableLimit
    (options.policyFor property.goal)

/-- What a network taken up consists of. -/
theorem build_eq_ok {property : Property α} {options : Options} {n : Network α}
    (h : build net property options = .ok n) :
    2 ≤ net.depth ∧ property.output < net.width net.layers.length ∧ (∀ l < net.depth, net.width l ≠ 0) ∧
      ∃ a, load net (blank net property options) = .ok () a ∧
        n = ⟨a, options.checkActivation, .start net.depth, property, .ofNetwork net property, net.inputs, 0⟩ := by
  unfold build at h
  by_cases hdepth : net.depth < 2
  · rw [if_pos hdepth] at h
    cases h
  rw [if_neg hdepth] at h
  dsimp only at h
  by_cases hout : net.width net.layers.length ≤ property.output
  · rw [if_pos hout] at h
    cases h
  rw [if_neg hout] at h
  cases hfind : (List.range net.depth).find? fun l => decide (net.width l = 0) with
  | some l =>
    rw [hfind] at h
    cases h
  | none =>
    rw [hfind] at h
    dsimp only at h
    refine ⟨by omega, by omega, ?_, ?_⟩
    · intro l hl
      have hnone := List.find?_eq_none.mp hfind l (List.mem_range.mpr hl)
      simpa using hnone
    · unfold blank
      unfold Step.outcome at h
      cases hload : load net (Abstraction.empty ((List.range net.depth).map (roleOf net.depth)) options.variableLimit
          (options.policyFor property.goal)) with
      | error e a =>
        rw [hload] at h
        cases h
      | ok u a =>
        rw [hload] at h
        exact ⟨a, rfl, (Except.ok.inj h).symm⟩

/-- A network that is taken up is represented by unprocessed nodes without holders, and there are no arnodes. -/
theorem build_represents {property : Property α} {options : Options} {n : Network α}
    (h : build net property options = .ok n) :
    n.abstraction.Represents net ∧ n.abstraction.arnodePart = (blank net property options).arnodePart ∧
      ∀ {x b}, n.abstraction.nodes.body? x = some b → b.location.category = .unprocessed ∧ b.data.owner = none := by
  obtain ⟨_, _, _, a, hload, rfl⟩ := build_eq_ok h
  have hempty : ∀ x, (blank net property options).nodes.body? x = none := by
    intro x
    change (Arena.get? Arena.empty x).map _ = none
    simp
  have hlayers : (blank net property options).layers.length = net.depth := by simp [blank, Abstraction.empty]
  have hroles : (blank net property options).roles = (List.range net.depth).map (roleOf net.depth) := by
    simp [blank, Abstraction.empty, Abstraction.roles, Function.comp_def, Layer.empty]
  obtain ⟨rows, hlength, hwidths, hseeded, hedge⟩ :=
    (load_meets (nodesSound_empty _ _ _) hempty hlayers).of_ok hload
  refine ⟨hseeded.represents hlength hwidths hedge hroles, hseeded.arnodePart_eq, fun {x b} hb => ?_⟩
  obtain ⟨_, _, hcategory, _, howner⟩ := hseeded.origin hb
  exact ⟨hcategory, howner⟩

end ReluAbstraction.Network
