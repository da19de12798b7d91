import ReluAbstraction.Graph.Edit
import ReluAbstraction.Proofs.Arena
import ReluAbstraction.Proofs.SortedMap
import ReluAbstraction.Proofs.Steps

/-!
# Graphs as weighted relations

A graph whose vertices record each edge at both ends, under the current place of the other end, stands for a weighted
relation between handles. `Graph.Realizes` says so. In terms of the relation the edits are simple: linking sets one weight,
moving a vertex changes nothing, and destroying a vertex drops its pairs.
-/

namespace ReluAbstraction

namespace EdgeSet

variable {α η : Type} {s : EdgeSet α η} {key : EdgeKey} {e : Edge α η}

/-- Putting an edge under a key of a table that the set has. -/
theorem add_eq (hkey : key.category.index < s.tables) (w : α) (n : η) :
    s.add key w n = .ok { s with edges := s.edges.insert key ⟨w, n⟩ } := by
  simp only [add, check, covers, hkey, decide_true, if_true]
  rfl

/-- Taking an edge out. -/
theorem remove_eq (hkey : key.category.index < s.tables) (he : s.get? key = some e) :
    s.remove key = .ok (e, { s with edges := s.edges.erase key }) := by
  simp only [remove, check, covers, hkey, decide_true, if_true, he]
  rfl

/-- Moving an edge to a key that is not in use. -/
theorem moveEdge_eq {target : EdgeKey} (hkey : key.category.index < s.tables) (htarget : target.category.index < s.tables)
    (he : s.get? key = some e) (hnone : s.get? target = none) :
    s.moveEdge key target false = .ok { s with edges := (s.edges.erase key).insert target e } := by
  have hne : key ≠ target := by
    rintro rfl
    rw [he] at hnone
    cases hnone
  simp only [moveEdge, hne, hnone, if_false, Bool.not_false, Bool.true_and, Option.isSome_none, Bool.false_eq_true,
    check, covers, htarget, decide_true, if_true, remove_eq hkey he]
  exact add_eq (s := { s with edges := s.edges.erase key }) htarget e.weight e.neighbor

theorem mem_toList_iff : (key, e) ∈ s.toList ↔ s.get? key = some e := SortedMap.mem_toList_iff

/-- The neighbours are those that some key leads to. -/
theorem mem_neighbors_iff {n : η} : n ∈ s.neighbors ↔ ∃ key w, s.get? key = some ⟨w, n⟩ := by
  simp only [neighbors, List.mem_map, Prod.exists, mem_toList_iff]
  constructor
  · rintro ⟨key, e, he, rfl⟩
    exact ⟨key, e.weight, he⟩
  · rintro ⟨key, w, he⟩
    exact ⟨key, ⟨w, n⟩, he, rfl⟩

theorem isEmpty_iff : s.isEmpty ↔ ∀ key, s.get? key = none := SortedMap.isEmpty_iff

end EdgeSet

theorem Category.index_lt (category : Category) : category.index < 5 := by cases category <;> decide

/-- A place is known by its layer and its key. -/
theorem Location.eq_of_key {p q : Location} (hlayer : p.layer = q.layer) (hkey : p.key = q.key) : p = q := by
  cases p
  cases q
  simp_all [Location.key]

namespace Direction

@[simp] theorem reverse_reverse (d : Direction) : d.reverse.reverse = d := by cases d <;> rfl

@[simp] theorem reverse_ne (d : Direction) : d.reverse ≠ d := by cases d <;> decide

/-- Side `d` of a vertex of layer `l` faces layer `m`. -/
def Faces : Direction → Nat → Nat → Prop
  | .incoming, l, m => l = m + 1
  | .outgoing, l, m => m = l + 1

theorem faces_reverse {d : Direction} {l m : Nat} : d.reverse.Faces m l ↔ d.Faces l m := by cases d <;> rfl

theorem Faces.ne {d : Direction} {l m : Nat} (h : d.Faces l m) : l ≠ m := by
  cases d <;> simp only [Faces] at h <;> omega

theorem Faces.unique {d : Direction} {l m m' : Nat} (h : d.Faces l m) (h' : d.Faces l m') : m = m' := by
  cases d <;> simp only [Faces] at h h' <;> omega

/-- Weight of the pair of a vertex and its neighbour on side `d`, where pairs go from earlier to later layers. -/
def along {η α : Type} (E : η → η → Option α) (d : Direction) (a b : η) : Option α :=
  match d with
  | .incoming => E b a
  | .outgoing => E a b

theorem along_reverse {η α : Type} (E : η → η → Option α) (d : Direction) (a b : η) :
    d.reverse.along E a b = d.along E b a := by cases d <;> rfl

end Direction

/-- What a vertex is apart from its edges. -/
structure Body (δ : Type) where
  /-- Where the vertex sits. -/
  location : Location
  /-- Whether the vertex may still move. -/
  movable : Bool
  /-- What the vertex stands for. -/
  data : δ

namespace Vertex

variable {k : EntityKind} {α δ : Type}

/-- The vertex apart from its edges. -/
def body (v : Vertex k α δ) : Body δ := ⟨v.location, v.movable, v.data⟩

@[simp] theorem body_location (v : Vertex k α δ) : v.body.location = v.location := rfl

@[simp] theorem body_data (v : Vertex k α δ) : v.body.data = v.data := rfl

@[simp] theorem body_movable (v : Vertex k α δ) : v.body.movable = v.movable := rfl

@[simp] theorem body_setEdges (v : Vertex k α δ) (d : Direction) (s : EdgeSet α (Handle k)) :
    (v.setEdges d s).body = v.body := by cases d <;> rfl

theorem edges_setEdges (v : Vertex k α δ) (d d' : Direction) (s : EdgeSet α (Handle k)) :
    (v.setEdges d s).edges d' = if d' = d then s else v.edges d' := by cases d <;> cases d' <;> rfl

theorem mem_neighbors_iff {v : Vertex k α δ} {d : Direction} {x : Handle k} :
    (d, x) ∈ v.neighbors ↔ x ∈ (v.edges d).neighbors := by
  cases d <;> simp [neighbors, edges]

@[simp] theorem Listing.mem_neighbors_iff (order : Listing k α δ) {v : Vertex k α δ} {p : Direction × Handle k} :
    p ∈ order.neighbors v ↔ p ∈ v.neighbors := (order.perm v).mem_iff

end Vertex

namespace Graph

variable {k : EntityKind} {α δ : Type}

/-- The vertex under a handle, apart from its edges. -/
def body? (g : Graph k α δ) (id : Handle k) : Option (Body δ) := (g.get? id).map Vertex.body

/-- Weight of the edge from `a` to `b`, as recorded at `a`. -/
def edge? (g : Graph k α δ) (a b : Handle k) : Option α := do
  let v ← g.get? a
  let u ← g.get? b
  let e ← v.outgoing.get? u.location.key
  if e.neighbor = b then some e.weight else none

theorem body?_eq_some_iff {g : Graph k α δ} {id : Handle k} {b : Body δ} :
    g.body? id = some b ↔ ∃ v, g.get? id = some v ∧ v.body = b := Option.map_eq_some_iff

theorem body?_of_get? {g : Graph k α δ} {id : Handle k} {v : Vertex k α δ} (h : g.get? id = some v) :
    g.body? id = some v.body := by simp [body?, h]

/-- The handles of a graph are those with a body. -/
theorem mem_handles_iff {g : Graph k α δ} {x : Handle k} : x ∈ Arena.handles g ↔ ∃ b, g.body? x = some b := by
  rw [Arena.mem_handles_iff]
  constructor
  · rintro ⟨v, hv⟩
    exact ⟨v.body, body?_of_get? hv⟩
  · rintro ⟨b, hb⟩
    obtain ⟨v, hv, _⟩ := body?_eq_some_iff.mp hb
    exact ⟨v, hv⟩

/-- The graph records exactly the pairs of the relation `E`, each at both of its ends and under the place of the other
end. Places are in one of the first `tables` tables, and no two vertices share one. -/
structure Realizes (g : Graph k α δ) (tables : Nat) (E : Handle k → Handle k → Option α) : Prop where
  arena : Arena.WellFormed g
  sized : ∀ {a v}, g.get? a = some v → ∀ d, (v.edges d).tables = tables
  covered : ∀ {a v}, g.get? a = some v → v.location.category.index < tables
  place_unique : ∀ {a b v u}, g.get? a = some v → g.get? b = some u → v.location = u.location → a = b
  edges_iff : ∀ {a v}, g.get? a = some v → ∀ d key w b, (v.edges d).get? key = some ⟨w, b⟩ ↔
    ∃ u, g.get? b = some u ∧ u.location.key = key ∧ d.along E a b = some w
  ends : ∀ {a b w}, E a b = some w → ∃ v u, g.get? a = some v ∧ g.get? b = some u ∧
    u.location.layer = v.location.layer + 1

theorem realizes_empty (tables : Nat) : Realizes (Arena.empty : Graph k α δ) tables fun _ _ => none where
  arena := Arena.wellFormed_empty
  sized h := by simp at h
  covered h := by simp at h
  place_unique h := by simp at h
  edges_iff h := by simp at h
  ends h := by cases h

namespace Realizes

variable {g : Graph k α δ} {tables : Nat} {E : Handle k → Handle k → Option α}

/-- The ends of a pair along side `d`. -/
theorem faces (hg : g.Realizes tables E) {d : Direction} {a b : Handle k} {w : α} (h : d.along E a b = some w) :
    ∃ v u, g.get? a = some v ∧ g.get? b = some u ∧ d.Faces v.location.layer u.location.layer := by
  cases d with
  | incoming =>
    obtain ⟨v, u, hv, hu, hlayer⟩ := hg.ends h
    exact ⟨u, v, hu, hv, hlayer⟩
  | outgoing => exact hg.ends h

/-- Places on one side of a vertex are told apart by their keys. -/
theorem eq_of_key (hg : g.Realizes tables E) {d : Direction} {l : Nat} {a b : Handle k} {v u : Vertex k α δ}
    (ha : g.get? a = some v) (hb : g.get? b = some u) (hfa : d.Faces l v.location.layer)
    (hfb : d.Faces l u.location.layer) (hkey : v.location.key = u.location.key) : a = b := by
  refine hg.place_unique ha hb ?_
  exact Location.eq_of_key (hfa.unique hfb) hkey

/-- The relation is what the vertices record. -/
theorem edge?_eq (hg : g.Realizes tables E) (a b : Handle k) : g.edge? a b = E a b := by
  ext w
  constructor
  · intro h
    simp only [edge?, Option.bind_eq_bind, Option.bind_eq_some_iff] at h
    obtain ⟨v, hv, u, hu, e, he, hw⟩ := h
    split at hw
    · next hb =>
      injection hw with hw
      obtain ⟨weight, neighbor⟩ := e
      simp only at hb hw
      subst hb
      subst hw
      obtain ⟨_, _, _, hE⟩ := (hg.edges_iff hv .outgoing _ _ _).mp he
      exact hE
    · cases hw
  · intro h
    obtain ⟨v, u, hv, hu, _⟩ := hg.ends h
    have he := (hg.edges_iff hv .outgoing u.location.key w b).mpr ⟨u, hu, rfl, h⟩
    simp only [Vertex.edges] at he
    simp [edge?, hv, hu, he]

/-- Between vertices of neighbouring layers, the record under the place of the other end is that of the pair. -/
theorem weight_at_key (hg : g.Realizes tables E) {d : Direction} {a b : Handle k} {v u : Vertex k α δ}
    (ha : g.get? a = some v) (hb : g.get? b = some u) (hfaces : d.Faces v.location.layer u.location.layer) :
    ((v.edges d).get? u.location.key).map (·.weight) = d.along E a b := by
  ext w
  rw [Option.map_eq_some_iff]
  constructor
  · rintro ⟨⟨weight, c⟩, he, rfl⟩
    obtain ⟨x, hx, hkey, hE⟩ := (hg.edges_iff ha d _ _ _).mp he
    obtain ⟨v', x', hv', hx', hf⟩ := hg.faces hE
    rw [ha] at hv'
    rw [hx] at hx'
    cases hv'
    cases hx'
    have hcb : c = b := hg.eq_of_key hx hb hf hfaces hkey
    rw [← hcb]
    exact hE
  · intro hE
    exact ⟨⟨w, b⟩, (hg.edges_iff ha d _ _ _).mpr ⟨u, hb, rfl, hE⟩, rfl⟩

/-- The neighbours on a side are the other ends of the pairs. -/
theorem mem_neighbors_iff (hg : g.Realizes tables E) {a : Handle k} {v : Vertex k α δ} (ha : g.get? a = some v)
    {d : Direction} {b : Handle k} : b ∈ (v.edges d).neighbors ↔ ∃ w, d.along E a b = some w := by
  rw [EdgeSet.mem_neighbors_iff]
  constructor
  · rintro ⟨key, w, he⟩
    obtain ⟨_, _, _, hE⟩ := (hg.edges_iff ha d _ _ _).mp he
    exact ⟨w, hE⟩
  · rintro ⟨w, hE⟩
    obtain ⟨_, u, _, hu, _⟩ := hg.faces hE
    exact ⟨_, w, (hg.edges_iff ha d _ _ _).mpr ⟨u, hu, rfl, hE⟩⟩

/-- No vertex is listed twice among the neighbours on a side. -/
theorem neighbors_nodup (hg : g.Realizes tables E) {a : Handle k} {v : Vertex k α δ} (ha : g.get? a = some v)
    (d : Direction) : (v.edges d).neighbors.Nodup := by
  unfold EdgeSet.neighbors EdgeSet.toList
  rw [List.nodup_iff_pairwise_ne, List.pairwise_map]
  refine (v.edges d).edges.sorted.imp_of_mem fun {x y} hx hy hlt heq => ?_
  obtain ⟨kx, wx, bx⟩ := x
  obtain ⟨ky, wy, bY⟩ := y
  simp only at heq
  subst heq
  obtain ⟨u, hu, hkx, _⟩ := (hg.edges_iff ha d _ _ _).mp (EdgeSet.mem_toList_iff.mp hx)
  obtain ⟨u', hu', hky, _⟩ := (hg.edges_iff ha d _ _ _).mp (EdgeSet.mem_toList_iff.mp hy)
  rw [hu] at hu'
  cases hu'
  rw [← hkx, ← hky] at hlt
  simp at hlt

/-- No vertex is listed twice on a side. -/
theorem listing_nodup (hg : g.Realizes tables E) {a : Handle k} {v : Vertex k α δ} (ha : g.get? a = some v)
    (order : Vertex.Listing k α δ) : (order.neighbors v).Nodup := by
  rw [(order.perm v).nodup_iff]
  unfold Vertex.neighbors
  refine List.nodup_append.mpr ⟨?_, ?_, ?_⟩
  · exact (hg.neighbors_nodup ha .incoming).map fun x y h => (Prod.mk.inj h).2
  · exact (hg.neighbors_nodup ha .outgoing).map fun x y h => (Prod.mk.inj h).2
  · intro x hx y hy hxy
    obtain ⟨b, _, rfl⟩ := List.mem_map.mp hx
    obtain ⟨c, _, rfl⟩ := List.mem_map.mp hy
    cases hxy

end Realizes

end Graph

end ReluAbstraction
