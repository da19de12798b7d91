import ReluAbstraction.Proofs.GraphEdits

/-!
# Symmetry of the node graph

Nodes know each other by place, and places change. As long as every edit is made at both ends and no two nodes share a
place, the two records of an edge agree in every state, and none leads to a node that is gone or has moved away. So moving
and destroying a node find all records they have to change.
-/

namespace ReluAbstraction

namespace Direction

instance (d : Direction) (l m : Nat) : Decidable (d.Faces l m) :=
  match d with
  | .incoming => inferInstanceAs (Decidable (l = m + 1))
  | .outgoing => inferInstanceAs (Decidable (m = l + 1))

variable {η α : Type} [DecidableEq η]

/-- The relation without the pair of `a` and its neighbour `b` on side `d`. -/
def retract (E : η → η → Option α) (d : Direction) (a b : η) : η → η → Option α :=
  match d with
  | .incoming => fun x y => if x = b ∧ y = a then none else E x y
  | .outgoing => fun x y => if x = a ∧ y = b then none else E x y

/-- Neither end sees the pair any more, and no other pair changes. -/
theorem along_retract (E : η → η → Option α) (d d' : Direction) (a b x y : η) :
    d'.along (retract E d a b) x y =
      if d' = d ∧ x = a ∧ y = b ∨ d' = d.reverse ∧ x = b ∧ y = a then none else d'.along E x y := by
  cases d <;> cases d' <;> simp [along, retract, reverse, and_comm]

theorem of_retract {E : η → η → Option α} {d : Direction} {a b x y : η} {w : α} (h : retract E d a b x y = some w) :
    E x y = some w := by
  cases d <;>
  · simp only [retract] at h
    split at h
    · cases h
    · exact h

end Direction

/-- There is no edge to take out under a key that is not in use. -/
theorem EdgeSet.remove_of_none {α η : Type} {s : EdgeSet α η} {key : EdgeKey} (hkey : key.category.index < s.tables)
    (hnone : s.get? key = none) : s.remove key = .error (.noSuchEdge key) := by
  simp only [remove, check, covers, hkey, decide_true, if_true, hnone]
  rfl

namespace Graph

variable {k : EntityKind} {α δ : Type} {g : Graph k α δ} {tables : Nat} {E : Handle k → Handle k → Option α}

theorem dropEdge_meets_of_none {id : Handle k} {v : Vertex k α δ} {d : Direction} {key : EdgeKey} (hv : g.get? id = some v)
    (hkey : key.category.index < (v.edges d).tables) (hnone : (v.edges d).get? key = none)
    {post : Edge α (Handle k) → Graph k α δ → Prop} {fail : Error → Graph k α δ → Prop} (h : fail (.noSuchEdge key) g) :
    (dropEdge id d key).Meets g post fail := by
  unfold dropEdge
  rw [Step.meets_bind]
  refine find_meets hv ?_
  rw [Step.meets_bind, Step.meets_ofExcept, EdgeSet.remove_of_none hkey hnone]
  exact h

/-- What a record leads to. -/
theorem Realizes.faces_of_record (hg : g.Realizes tables E) {a : Handle k} {v : Vertex k α δ} (ha : g.get? a = some v)
    {d : Direction} {key : EdgeKey} {e : Edge α (Handle k)} (he : (v.edges d).get? key = some e) :
    ∃ u, g.get? e.neighbor = some u ∧ u.location.key = key ∧ d.along E a e.neighbor = some e.weight ∧
      d.Faces v.location.layer u.location.layer := by
  obtain ⟨u, hb, hkey, hE⟩ := (hg.edges_iff ha d key e.weight e.neighbor).mp he
  obtain ⟨v', u', hv', hu', hfaces⟩ := hg.faces hE
  rw [ha] at hv'
  rw [hb] at hu'
  cases hv'
  cases hu'
  exact ⟨u, hb, hkey, hE, hfaces⟩

/-- After the link to `b` was taken out, the edges of `a`. -/
private theorem unlinked_edges_iff (hg : g.Realizes tables E) {a b : Handle k} {v u : Vertex k α δ} {d : Direction}
    (ha : g.get? a = some v) (hb : g.get? b = some u) (hfaces : d.Faces v.location.layer u.location.layer)
    (d' : Direction) (key : EdgeKey) (w : α) (x : Handle k) :
    ((v.setEdges d ((v.edges d).without u.location.key)).edges d').get? key = some ⟨w, x⟩ ↔
      ∃ y, g.get? x = some y ∧ y.location.key = key ∧ (if d' = d ∧ x = b then none else d'.along E a x) = some w := by
  rw [Vertex.edges_setEdges]
  by_cases hd : d' = d
  · subst hd
    rw [if_pos rfl]
    change ((v.edges d').edges.erase u.location.key).get? key = some ⟨w, x⟩ ↔ _
    rw [SortedMap.get?_erase]
    by_cases hkey : key = u.location.key
    · rw [if_pos hkey]
      refine iff_of_false (by simp) ?_
      rintro ⟨y, hy, hyk, hE⟩
      by_cases hx : x = b
      · simp [hx] at hE
      · simp only [hx, and_false, if_false] at hE
        obtain ⟨v', y', hv', hy', hf⟩ := hg.faces hE
        rw [ha] at hv'
        rw [hy] at hy'
        cases hv'
        cases hy'
        exact hx (hg.eq_of_key hy hb hf hfaces (hyk.trans hkey))
    · rw [if_neg hkey]
      refine (hg.edges_iff ha d' key w x).trans (exists_congr fun y => and_congr_right fun hy => and_congr_right fun hyk => ?_)
      have hx : x ≠ b := by
        rintro rfl
        rw [hb] at hy
        cases hy
        exact hkey hyk.symm
      simp [hx]
  · rw [if_neg hd, hg.edges_iff ha]
    simp [hd]

/-- Unlinking two vertices of neighbouring layers drops their pair. Nothing changes if there is none. -/
theorem unlink_meets (hg : g.Realizes tables E) {a b : Handle k} {v u : Vertex k α δ} {d : Direction}
    (ha : g.get? a = some v) (hb : g.get? b = some u) (hfaces : d.Faces v.location.layer u.location.layer) :
    (unlink a d b true).Meets g (fun w g' => d.along E a b = some w ∧ g'.Realizes tables (d.retract E a b) ∧
        (∀ x, g'.body? x = g.body? x) ∧ g'.slots.size = g.slots.size)
      (fun e g' => d.along E a b = none ∧ e = .noSuchEdge u.location.key ∧ g' = g) := by
  have hne : b ≠ a := by
    rintro rfl
    rw [ha] at hb
    cases hb
    exact hfaces.ne rfl
  have hweight := hg.weight_at_key ha hb hfaces
  have hcovers : u.location.key.category.index < (v.edges d).tables := by rw [hg.sized ha]; exact hg.covered hb
  have hcovers' : v.location.key.category.index < (u.edges d.reverse).tables := by rw [hg.sized hb]; exact hg.covered ha
  unfold unlink
  rw [Step.meets_bind]
  refine find_meets hb ?_
  rw [Step.meets_bind]
  refine find_meets ha ?_
  rw [Step.meets_bind]
  cases hE : d.along E a b with
  | none =>
    rw [hE, Option.map_eq_none_iff] at hweight
    exact dropEdge_meets_of_none ha hcovers hweight ⟨rfl, rfl, rfl⟩
  | some w =>
    have hrecord := (hg.edges_iff ha d u.location.key w b).mpr ⟨u, hb, rfl, hE⟩
    have hback := (hg.edges_iff hb d.reverse v.location.key w a).mpr ⟨v, ha, rfl, by rw [Direction.along_reverse, hE]⟩
    refine (dropEdge_meets ha hcovers hrecord).mono (fun e g₁ h₁ => ?_) fun _ _ hfalse => hfalse.elim
    obtain ⟨rfl, h₁⟩ := h₁
    rw [if_pos rfl, Step.meets_bind, Step.meets_discard]
    have hb₁ : Arena.get? g₁ b = some u := by rw [h₁.get?_eq, if_neg hne, hb]
    refine (dropEdge_meets hb₁ hcovers' hback).mono (fun _ g₂ h₂ => ?_) fun _ _ hfalse => hfalse.elim
    have hrewired := h₁.rewired h₂.2
    refine ⟨rfl, hrewired.realizes hg ha hb (hg.sized ha d) (hg.sized hb _) (fun d' key w x => ?_) (fun d' key w x => ?_)
      (fun d' x y hxa hxb => ?_) (fun {x y w} hE => hg.ends (Direction.of_retract hE)), hrewired.body?_eq ha hb,
      hrewired.size_eq⟩
    · rw [unlinked_edges_iff hg ha hb hfaces, Direction.along_retract]
      simp [hne.symm]
    · rw [unlinked_edges_iff hg hb ha (Direction.faces_reverse.mpr hfaces), Direction.along_retract]
      simp [hne]
    · rw [Direction.along_retract]
      simp [hxa, hxb]

/-- No vertex is at a place. -/
def Vacant (g : Graph k α δ) (place : Location) : Prop := ∀ entry ∈ Arena.toList g, entry.2.location ≠ place

instance (g : Graph k α δ) (place : Location) : Decidable (g.Vacant place) :=
  inferInstanceAs (Decidable (∀ entry ∈ Arena.toList g, entry.2.location ≠ place))

theorem Vacant.ne {place : Location} (h : g.Vacant place) {x : Handle k} {v : Vertex k α δ} (hx : g.get? x = some v) :
    v.location ≠ place := h (x, v) (Arena.mem_toList_iff.mpr hx)

/-- An edit of the node graph that changes an edge at both of its ends. -/
inductive Edit (α : Type) where
  /-- A new node. -/
  | add (place : Location) (movable : Bool) (bias : α) (origin : NeuronRef)
  /-- Add an edge or change its weight. -/
  | link (source : NodeId) (d : Direction) (target : NodeId) (weight : α)
  /-- Remove an edge. -/
  | unlink (source : NodeId) (d : Direction) (target : NodeId)
  /-- Fix the place of a node. -/
  | cement (id : NodeId)
  /-- Move a node within its layer. -/
  | relocate (order : Vertex.Listing .node α (NodeData α)) (id : NodeId) (category : Category) (slot : Slot)
  /-- Remove a node and its edges. -/
  | destroy (order : Vertex.Listing .node α (NodeData α)) (id : NodeId)

namespace Edit

/-- Makes the edit. -/
def run : Edit α → Step (Graph .node α (NodeData α)) Unit
  | .add place movable bias origin => discard (Graph.add (Node.create place movable bias origin))
  | .link source d target weight => Graph.link source d target weight true
  | .unlink source d target => discard (Graph.unlink source d target true)
  | .cement id => Graph.edit id fun v => .ok v.cement
  | .relocate order id category slot => discard (Graph.relocateIn order id category slot)
  | .destroy order id => discard (Graph.destroyIn order id)

/-- What the caller sees to: nodes are put where no node is, and edges lead from a layer to the next. Handles may be those
of nodes that are gone. -/
def Proper (g : Graph .node α (NodeData α)) : Edit α → Prop
  | .add place _ _ _ => g.Vacant place
  | .link source d target _ | .unlink source d target =>
    ∀ v ∈ g.get? source, ∀ u ∈ g.get? target, d.Faces v.location.layer u.location.layer
  | .relocate _ id category slot => ∀ v ∈ g.get? id, v.movable = true → g.Vacant { v.location with category, slot }
  | .cement _ | .destroy _ _ => True

instance (g : Graph .node α (NodeData α)) : (e : Edit α) → Decidable (e.Proper g)
  | .add place _ _ _ => inferInstanceAs (Decidable (g.Vacant place))
  | .link source d target _ | .unlink source d target =>
    inferInstanceAs (Decidable (∀ v ∈ g.get? source, ∀ u ∈ g.get? target, d.Faces v.location.layer u.location.layer))
  | .relocate _ id category slot =>
    inferInstanceAs (Decidable (∀ v ∈ g.get? id, v.movable = true → g.Vacant { v.location with category, slot }))
  | .cement _ | .destroy _ _ => inferInstanceAs (Decidable True)

end Edit

/-- Graphs that proper edits, failed ones among them, make of the empty one. -/
inductive Mirrored : Graph .node α (NodeData α) → Prop
  | start : Mirrored Arena.empty
  | edited {g : Graph .node α (NodeData α)} {e : Edit α} (h : Mirrored g) (hproper : e.Proper g) :
    Mirrored (e.run.outcome g).2

section Nodes

variable {g : Graph .node α (NodeData α)} {E : NodeId → NodeId → Option α}

/-- A proper edit leaves a graph that realizes some relation. -/
theorem Realizes.run_meets (hg : g.Realizes 5 E) {e : Edit α} (hproper : e.Proper g) :
    e.run.Meets g (fun _ g' => ∃ E', g'.Realizes 5 E') (fun _ g' => ∃ E', g'.Realizes 5 E') := by
  cases e with
  | add place movable bias origin =>
    rw [Edit.run, Step.meets_discard]
    refine (add_meets hg (fun d => by cases d <;> rfl) (Category.index_lt _) fun hx => Vacant.ne hproper hx).mono ?_ ?_
    · exact fun _ _ hadded => ⟨E, hadded.1⟩
    · rintro _ _ ⟨_, _, rfl⟩
      exact ⟨E, hg⟩
  | link source d target weight =>
    rw [Edit.run]
    cases hu : g.get? target with
    | none => exact find_bind_meets_of_none hu ⟨E, hg⟩
    | some u =>
      cases hv : g.get? source with
      | none =>
        refine (Step.meets_bind).mpr (find_meets hu ?_)
        exact find_bind_meets_of_none hv ⟨E, hg⟩
      | some v =>
        exact (link_meets hg hv hu (hproper v hv u hu) weight).mono (fun _ _ hlinked => ⟨_, hlinked.1⟩)
          fun _ _ hfalse => hfalse.elim
  | unlink source d target =>
    rw [Edit.run, Step.meets_discard]
    cases hu : g.get? target with
    | none => exact find_bind_meets_of_none hu ⟨E, hg⟩
    | some u =>
      cases hv : g.get? source with
      | none =>
        refine (Step.meets_bind).mpr (find_meets hu ?_)
        exact find_bind_meets_of_none hv ⟨E, hg⟩
      | some v =>
        refine (unlink_meets hg hv hu (hproper v hv u hu)).mono (fun _ _ hunlinked => ⟨_, hunlinked.2.1⟩) ?_
        rintro _ _ ⟨_, _, rfl⟩
        exact ⟨E, hg⟩
  | cement id =>
    rw [Edit.run]
    cases hv : g.get? id with
    | none => exact edit_meets_of_none hv ⟨E, hg⟩
    | some v =>
      have hedit := edit_meets (f := fun v => .ok v.cement) hv rfl
      refine hedit.mono (fun _ _ hedited => ⟨E, hg.of_edited hv hedited rfl fun d => ?_⟩) fun _ _ hfalse => hfalse.elim
      cases d <;> rfl
  | relocate order id category slot =>
    rw [Edit.run, Step.meets_discard]
    cases hv : g.get? id with
    | none => exact find_bind_meets_of_none hv ⟨E, hg⟩
    | some v =>
      cases hmovable : v.movable with
      | false =>
        refine (Step.meets_bind).mpr (find_meets hv ?_)
        simp only [hmovable, Bool.not_false, if_true]
        exact ⟨E, hg⟩
      | true =>
        have hvacant := hproper v hv hmovable
        refine (relocateIn_meets hg hv hmovable category.index_lt (fun hx => Vacant.ne hvacant hx) order).mono
          (fun _ _ h => ⟨E, h.2.1⟩) fun _ _ hfalse => hfalse.elim
  | destroy order id =>
    rw [Edit.run, Step.meets_discard]
    cases hv : g.get? id with
    | none => exact find_bind_meets_of_none hv ⟨E, hg⟩
    | some v => exact (destroyIn_meets hg hv order).mono (fun _ _ h => ⟨_, h.2.1⟩) fun _ _ hfalse => hfalse.elim

theorem Mirrored.realizes (h : Mirrored g) : g.Realizes 5 g.edge? := by
  have hsome : ∃ E, g.Realizes 5 E := by
    induction h with
    | start => exact ⟨_, realizes_empty 5⟩
    | edited _ hproper ih =>
      obtain ⟨E, hg⟩ := ih
      exact (hg.run_meets hproper).outcome
  obtain ⟨E, hg⟩ := hsome
  have hedge : g.edge? = E := funext fun a => funext fun b => hg.edge?_eq a b
  rwa [hedge]

/-- Both ends of every edge agree on it, and every edit does what it is meant to. -/
structure Symmetric (g : Graph .node α (NodeData α)) : Prop where
  /-- An edge stands at both ends, under the current place of the other end and with the same weight. -/
  recorded_iff : ∀ {a b v u}, g.get? a = some v → g.get? b = some u → ∀ d w,
    (v.edges d).get? u.location.key = some ⟨w, b⟩ ↔ (u.edges d.reverse).get? v.location.key = some ⟨w, a⟩
  /-- A record leads to a node of the layer on its side, which is live and has the place that the record is under. -/
  live : ∀ {a v}, g.get? a = some v → ∀ {d key e}, (v.edges d).get? key = some e →
    ∃ u, g.get? e.neighbor = some u ∧ u.location.key = key ∧ d.Faces v.location.layer u.location.layer
  /-- The neighbours of a node are listed once for each side, and they are those that its records lead to. -/
  neighbors : ∀ {a v}, g.get? a = some v → v.neighbors.Nodup ∧
    ∀ d b, (d, b) ∈ v.neighbors ↔ ∃ key w, (v.edges d).get? key = some ⟨w, b⟩
  /-- Nodes of neighbouring layers can be linked. Only the weight of their edge changes. -/
  linked : ∀ {a b v u d} w, g.get? a = some v → g.get? b = some u → d.Faces v.location.layer u.location.layer →
    ∃ g', link a d b w true g = .ok () g' ∧ (∀ x, g'.body? x = g.body? x) ∧ g'.edge? = d.assign g.edge? a b w
  /-- An edge can be removed, which gives its weight. -/
  unlinked : ∀ {a b v u d w}, g.get? a = some v → g.get? b = some u → (v.edges d).get? u.location.key = some ⟨w, b⟩ →
    ∃ g', unlink a d b true g = .ok w g' ∧ (∀ x, g'.body? x = g.body? x) ∧ g'.edge? = d.retract g.edge? a b
  /-- A movable node can be moved to a place in its layer where no node is. Nothing changes but its place and the keys of
  the records that lead to it, in whatever order the neighbours are taken. -/
  relocated : ∀ {a v category slot}, g.get? a = some v → v.movable = true →
    g.Vacant { v.location with category, slot } → ∀ order,
      ∃ g', relocateIn order a category slot g = .ok v.location g' ∧
        Relocated g g' a v { v.location with category, slot }
  /-- A node can be destroyed, which gives it and its neighbours. Nothing goes but the node and the records that lead
  to it, in whatever order the neighbours are taken. -/
  destroyed : ∀ {a v}, g.get? a = some v → ∀ order,
    ∃ g', destroyIn order a g = .ok (v, order.neighbors v) g' ∧ Destroyed g g' a v

/-- Whatever proper edits were made, the node graph is symmetric. -/
theorem symmetric_of_mirrored (h : Mirrored g) : Symmetric g := by
  have hg := h.realizes
  refine ⟨fun {a b v u} ha hb d w => ?_, fun {a v} ha {d key e} he => ?_, fun {a v} ha => ⟨hg.listing_nodup ha .bySlot, ?_⟩,
    fun {a b v u d} w ha hb hfaces => ?_, fun {a b v u d w} ha hb he => ?_,
    fun {a v category slot} ha hmovable hvacant order => ?_, fun {a v} ha order => ?_⟩
  · rw [hg.edges_iff ha, hg.edges_iff hb, Direction.along_reverse]
    simp [ha, hb]
  · obtain ⟨u, hb, hkey, _, hfaces⟩ := hg.faces_of_record ha he
    exact ⟨u, hb, hkey, hfaces⟩
  · intro d b
    rw [Vertex.mem_neighbors_iff, EdgeSet.mem_neighbors_iff]
  · obtain ⟨_, g', hlink, hg', hbody, _⟩ := (link_meets hg ha hb hfaces w).exists_ok
    exact ⟨g', hlink, hbody, funext fun x => funext fun y => hg'.edge?_eq x y⟩
  · obtain ⟨u', hb', _, hE, hfaces⟩ := hg.faces_of_record ha he
    rw [hb] at hb'
    cases hb'
    have hunlink := unlink_meets hg ha hb hfaces
    cases hresult : unlink a d b true g with
    | error e g' =>
      obtain ⟨hnone, _⟩ := hunlink.of_error hresult
      rw [hE] at hnone
      cases hnone
    | ok w' g' =>
      obtain ⟨hw, hg', hbody, _⟩ := hunlink.of_ok hresult
      rw [hE] at hw
      cases hw
      exact ⟨g', rfl, hbody, funext fun x => funext fun y => hg'.edge?_eq x y⟩
  · have hrelocate := hg.relocated_meets ha hmovable category.index_lt (fun hx => hvacant.ne hx) order
    obtain ⟨old, g', hok, hold, hrelocated⟩ := hrelocate.exists_ok
    exact ⟨g', hold ▸ hok, hrelocated⟩
  · obtain ⟨r, g', hdestroy, hr, hdestroyed⟩ := (hg.destroyed_meets ha order).exists_ok
    exact ⟨g', hr ▸ hdestroy, hdestroyed⟩

/-- A node has moved, another was destroyed, and a third has come to the place of the second: the node before them knows
the first under its new place, and neither of the others. -/
theorem symmetric_of_mirrored_reused : ∃ g : Graph .node Nat (NodeData Nat), Mirrored g ∧
    (g.get? ⟨2, 1⟩).map (·.location) = some ⟨1, .unprocessed, 1⟩ ∧
    (g.get? ⟨0, 0⟩).map (·.outgoing.toList) = some [(⟨.posInc, 0⟩, ⟨5, ⟨1, 0⟩⟩)] ∧ Symmetric g := by
  have h₁ := Mirrored.edited (e := .add ⟨0, .unprocessed, 0⟩ true 0 ⟨0, 0⟩) (.start (α := Nat)) (by decide)
  have h₂ := h₁.edited (e := .add ⟨1, .unprocessed, 0⟩ true 0 ⟨1, 0⟩) (by decide)
  have h₃ := h₂.edited (e := .add ⟨1, .unprocessed, 1⟩ true 0 ⟨1, 1⟩) (by decide)
  have h₄ := h₃.edited (e := .link ⟨0, 0⟩ .outgoing ⟨1, 0⟩ 5) (by decide)
  have h₅ := h₄.edited (e := .link ⟨2, 0⟩ .incoming ⟨0, 0⟩ 7) (by decide)
  have h₆ := h₅.edited (e := .relocate .bySlot ⟨1, 0⟩ .posInc 0) (by decide)
  have h₇ := h₆.edited (e := .destroy .bySlot ⟨2, 0⟩) (by decide)
  have h₈ := h₇.edited (e := .add ⟨1, .unprocessed, 1⟩ true 0 ⟨1, 1⟩) (by decide)
  exact ⟨_, h₈, by decide, by decide, symmetric_of_mirrored h₈⟩

end Nodes

end Graph

end ReluAbstraction
