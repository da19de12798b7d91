import ReluAbstraction.Abstraction.Refine
import ReluAbstraction.Proofs.Housing

/-!
# The two halves of an abstraction

An abstraction holds the nodes with their tables and the arnodes with their tables and their query. The halves meet in one
place only: a node knows the arnode that holds it. `nodePart` is the half of the nodes with the holders left out. Making,
activating, merging and splitting arnodes leaves it alone, whether or not the operation succeeds.
-/

namespace ReluAbstraction

namespace Arena

variable {k : EntityKind} {β γ : Type}

/-- Changes every entity, live handles staying as they are. -/
def map (f : β → γ) (a : Arena k β) : Arena k γ :=
  { slots := a.slots.map fun slot => ⟨slot.generation, slot.value.map f⟩, free := a.free, size := a.size }

theorem get?_map (f : β → γ) (a : Arena k β) (h : Handle k) : (a.map f).get? h = (a.get? h).map f := by
  simp only [get?, map, Array.getElem?_map]
  cases a.slots[h.index]? with
  | none => rfl
  | some slot => by_cases hg : slot.generation = h.generation <;> simp [hg]

theorem wellFormed_map {f : β → γ} {a : Arena k β} : (a.map f).WellFormed ↔ a.WellFormed := by
  have hempty : ∀ i : Nat, (∃ slot : ArenaSlot γ, (a.map f).slots[i]? = some slot ∧ slot.value = none) ↔
      ∃ slot : ArenaSlot β, a.slots[i]? = some slot ∧ slot.value = none := by
    intro i
    simp only [map, Array.getElem?_map]
    cases a.slots[i]? with
    | none => simp
    | some slot => simp
  constructor
  · intro h
    exact ⟨h.nodup, fun i => (h.mem_free_iff i).trans (hempty i), by simpa [map] using h.size_le, by simpa [map] using h.size_eq⟩
  · intro h
    exact ⟨h.nodup, fun i => (h.mem_free_iff i).trans (hempty i).symm, by simpa [map] using h.size_le,
      by simpa [map] using h.size_eq⟩

/-- A change that `f` does not see leaves the image alone. -/
theorem map_of_modify {f : β → γ} {a a' : Arena k β} {h : Handle k} {g : β → Except Error β}
    (hg : ∀ v v', g v = .ok v' → f v' = f v) (hmodify : a.modify h g = .ok a') : a'.map f = a.map f := by
  unfold modify at hmodify
  cases hv : a.get? h with
  | none =>
    rw [get_of_none hv] at hmodify
    cases hmodify
  | some v =>
    rw [get_of_get? hv] at hmodify
    cases hgv : g v with
    | error e =>
      simp only [hgv, bind, Except.bind] at hmodify
      cases hmodify
    | ok v' =>
      simp only [hgv, bind, Except.bind, set, hv] at hmodify
      injection hmodify with hmodify
      subst hmodify
      have hslot := get?_eq_some_iff.mp hv
      simp only [map, Arena.mk.injEq, and_true]
      ext1
      · simp
      · rename_i i hi _
        simp only [Array.getElem_map, Array.getElem_modify]
        split
        · next hindex =>
          subst hindex
          obtain ⟨_, hget⟩ := Array.getElem?_eq_some_iff.mp hslot
          simp [hget, hg v v' hgv]
        · rfl

end Arena

namespace Graph

variable {k : EntityKind} {α δ ε : Type}

/-- The relation that a graph stands for does not depend on the data of the vertices. -/
theorem realizes_map {g : Graph k α δ} {tables : Nat} {E : Handle k → Handle k → Option α}
    {f : Vertex k α δ → Vertex k α ε} (hlocation : ∀ v, (f v).location = v.location)
    (hedges : ∀ v d, (f v).edges d = v.edges d) :
    Realizes (Arena.map f g) tables E ↔ g.Realizes tables E := by
  constructor
  · intro h
    have hmap : ∀ {x v}, g.get? x = some v → Arena.get? (Arena.map f g) x = some (f v) := by
      intro x v hx
      rw [Arena.get?_map, hx, Option.map_some]
    refine ⟨Arena.wellFormed_map.mp h.arena, ?_, ?_, ?_, ?_, ?_⟩
    · intro a v hv d
      rw [← hedges]
      exact h.sized (hmap hv) d
    · intro a v hv
      rw [← hlocation]
      exact h.covered (hmap hv)
    · intro a b v u hv hu heq
      rw [← hlocation v, ← hlocation u] at heq
      exact h.place_unique (hmap hv) (hmap hu) heq
    · intro a v hv d key w b
      rw [← hedges, h.edges_iff (hmap hv)]
      simp [Arena.get?_map, hlocation]
    · intro a b w hE
      obtain ⟨v', u', hv', hu', hlayer⟩ := h.ends hE
      rw [Arena.get?_map, Option.map_eq_some_iff] at hv' hu'
      obtain ⟨v, hv, rfl⟩ := hv'
      obtain ⟨u, hu, rfl⟩ := hu'
      rw [hlocation, hlocation] at hlayer
      exact ⟨v, u, hv, hu, hlayer⟩
  · intro h
    have hmap : ∀ {x v'}, Arena.get? (Arena.map f g) x = some v' → ∃ v, g.get? x = some v ∧ f v = v' := by
      intro x v' hx
      rwa [Arena.get?_map, Option.map_eq_some_iff] at hx
    refine ⟨Arena.wellFormed_map.mpr h.arena, ?_, ?_, ?_, ?_, ?_⟩
    · intro a v' hv' d
      obtain ⟨v, hv, rfl⟩ := hmap hv'
      rw [hedges]
      exact h.sized hv d
    · intro a v' hv'
      obtain ⟨v, hv, rfl⟩ := hmap hv'
      rw [hlocation]
      exact h.covered hv
    · intro a b v' u' hv' hu' heq
      obtain ⟨v, hv, rfl⟩ := hmap hv'
      obtain ⟨u, hu, rfl⟩ := hmap hu'
      rw [hlocation, hlocation] at heq
      exact h.place_unique hv hu heq
    · intro a v' hv' d key w b
      obtain ⟨v, hv, rfl⟩ := hmap hv'
      rw [hedges, h.edges_iff hv]
      simp [Arena.get?_map, hlocation]
    · intro a b w hE
      obtain ⟨v, u, hv, hu, hlayer⟩ := h.ends hE
      refine ⟨f v, f u, ?_, ?_, ?_⟩
      · rw [Arena.get?_map, hv, Option.map_some]
      · rw [Arena.get?_map, hu, Option.map_some]
      · rw [hlocation, hlocation, hlayer]

end Graph

/-- A node with its holder left out. -/
def Node.disowned {α : Type} (v : Node α) : Node α := { v with data := { v.data with owner := none } }

/-- A layer with its arnodes left out. -/
def Layer.nodeSide (l : Layer) : LayerRole × TableChain NodeId := (l.role, l.nodes)

/-- A layer with its nodes left out. -/
def Layer.arnodeSide (l : Layer) : LayerRole × TableChain ArNodeId := (l.role, l.arnodes)

namespace Abstraction

variable {α β : Type}

/-- The half of the nodes, holders left out, together with the reductions. -/
def nodePart (a : Abstraction α) : List (LayerRole × TableChain NodeId) × Graph .node α (NodeData α) × Policy :=
  (a.layers.map Layer.nodeSide, a.nodes.map Node.disowned, a.policy)

/-- The half of the arnodes, together with the reductions. -/
def arnodePart (a : Abstraction α) :
    List (LayerRole × TableChain ArNodeId) × Graph .arnode α (ArNodeData α) × Encoding α × Policy :=
  (a.layers.map Layer.arnodeSide, a.arnodes, a.encoding, a.policy)

/-- Tables of the nodes, layer by layer. -/
def nodeChains (a : Abstraction α) : List (TableChain NodeId) := a.layers.map Layer.nodes

/-- Tables of the arnodes, layer by layer. -/
def arnodeChains (a : Abstraction α) : List (TableChain ArNodeId) := a.layers.map Layer.arnodes

/-- Places of the layers. -/
def roles (a : Abstraction α) : List LayerRole := a.layers.map Layer.role

theorem layer_of_getElem? {a : Abstraction α} {l : Nat} {layer : Layer} (h : a.layers[l]? = some layer) :
    a.layer l = .ok layer := by simp [Abstraction.layer, h]

theorem getElem?_of_layer {a : Abstraction α} {l : Nat} {layer : Layer} (h : a.layer l = .ok layer) :
    a.layers[l]? = some layer := by
  unfold Abstraction.layer at h
  cases hget : a.layers[l]? with
  | none =>
    rw [hget] at h
    cases h
  | some layer' =>
    rw [hget] at h
    injection h with h
    rw [h]

/-- Layers and nodes, holders left out: what an operation on single arnodes leaves alone. -/
def surroundings (a : Abstraction α) :
    List Layer × List (LayerRole × TableChain NodeId) × Graph .node α (NodeData α) × Policy :=
  (a.layers, a.nodePart)

open Step

theorem keeps_onArnodes (step : Step (Graph .arnode α (ArNodeData α)) β) : Keeps surroundings (onArnodes step) := by
  intro a
  unfold onArnodes
  rw [meets_zoom]
  unfold Meets
  cases step a.arnodes <;> rfl

theorem keeps_onEncoding (step : Step (Encoding α) β) : Keeps surroundings (onEncoding step) := by
  intro a
  unfold onEncoding
  rw [meets_zoom]
  unfold Meets
  cases step a.encoding <;> rfl

theorem keeps_recode (f : Encoding α → Encoding α) : Keeps surroundings (recode f) := fun _ => rfl

theorem keeps_count (event : Event) : Keeps surroundings (count event : Step (Abstraction α) Unit) := fun _ => rfl

/-- Whose a node is does not show in the half of the nodes. -/
theorem keeps_setOwner (owner : Option ArNodeId) (id : NodeId) :
    Keeps surroundings (setOwner owner id : Step (Abstraction α) Unit) := by
  intro a
  unfold setOwner onNodes Graph.edit
  rw [meets_zoom, meets_update]
  cases hmodify : Arena.modify a.nodes id fun v => .ok { v with data := { v.data with owner } } with
  | error e => rfl
  | ok g =>
    have hmap := Arena.map_of_modify (f := Node.disowned) (fun v v' h => by cases h; rfl) hmodify
    simp [Same, surroundings, nodePart, hmap]

/-- Storing new arnode tables in the layer they come from. -/
theorem nodePart_setArnodes {a : Abstraction α} {l : Nat} {layer : Layer} (hlayer : a.layers[l]? = some layer)
    (arnodes : TableChain ArNodeId) :
    nodePart { a with layers := a.layers.set l { layer with arnodes } } = nodePart a := by
  have hset : (a.layers.set l { layer with arnodes }).map Layer.nodeSide = a.layers.map Layer.nodeSide := by
    apply List.ext_getElem?
    intro i
    rw [List.map_set, List.getElem?_set]
    split
    · next h =>
      subst h
      have hlt := (List.getElem?_eq_some_iff.mp hlayer).1
      rw [if_pos (by simpa using hlt), List.getElem?_map, hlayer]
      rfl
    · rfl
  simp [nodePart, hset]

theorem keeps_preparedQuery : Keeps surroundings (preparedQuery : Step (Abstraction α) (Query α)) := by
  unfold preparedQuery
  exact (keeps_recode _).bind fun _ => Within.get.bind fun a => Within.pure _

theorem keeps_advance (id : ArNodeId) (state : ActivationState) :
    Keeps surroundings (advance id state : Step (Abstraction α) Unit) := keeps_onArnodes _

theorem keeps_confirm (id : ArNodeId) (check : Bool) :
    Keeps surroundings (confirm id check : Step (Abstraction α) Unit) := by
  unfold confirm
  refine (Within.read _).bind fun arnode => Within.ite (Within.pure _) ?_
  refine (Within.ofExcept _).bind fun _ => ?_
  refine Within.ite ((Within.forM _ fun source => Within.read _).bind fun _ => keeps_advance _ _) (keeps_advance _ _)

theorem keeps_confirmLayer (l : Nat) (check : Bool) :
    Keeps surroundings (confirmLayer l check : Step (Abstraction α) Unit) := by
  refine Within.forM _ fun category => ?_
  unfold confirmTable
  exact (Within.read _).bind fun ids => Within.forM ids fun id => keeps_confirm id check

/-- A step whose first part leaves the surroundings alone keeps the nodes if the rest does. -/
private theorem meets_bind_of_keeps {γ : Type} {a a' : Abstraction α} {step : Step (Abstraction α) γ}
    {next : γ → Step (Abstraction α) β} (hs : surroundings a' = surroundings a) (h : Keeps surroundings step)
    (hnext : ∀ c a'', surroundings a'' = surroundings a →
      Meets (next c) a'' (fun _ b => nodePart b = nodePart a) (fun _ b => nodePart b = nodePart a)) :
    Meets (step >>= next) a' (fun _ b => nodePart b = nodePart a) (fun _ b => nodePart b = nodePart a) := by
  rw [meets_bind]
  exact (h a').mono (fun c a'' hs' => hnext c a'' (hs'.trans hs)) fun _ _ hs' => congrArg Prod.snd (hs'.trans hs)

/-- Storing arnode tables into a layer that is still as it was read. -/
private theorem nodePart_setArnodes_of_eq {a a' : Abstraction α} {l : Nat} {layer : Layer}
    (hlayer : a.layer l = .ok layer) (hs : surroundings a' = surroundings a) (arnodes : TableChain ArNodeId) :
    nodePart { a' with layers := a'.layers.set l { layer with arnodes } } = nodePart a := by
  have hlayers : a'.layers = a.layers := congrArg Prod.fst hs
  have hnodes : nodePart a' = nodePart a := congrArg Prod.snd hs
  have hget := getElem?_of_layer hlayer
  rw [← hlayers] at hget
  exact (nodePart_setArnodes hget arnodes).trans hnodes

variable [Scalar α]

theorem keeps_spawn (loc : Location) (members : List NodeId) (boundary : Bool) :
    Keeps surroundings (spawn loc members boundary : Step (Abstraction α) ArNodeId) := by
  unfold spawn
  refine (Within.read _).bind fun bias => (keeps_onEncoding _).bind fun vars => ?_
  refine (Within.tryCatch (keeps_onArnodes _) fun e => (keeps_recode _).bind fun _ => Within.throw e).bind fun id => ?_
  refine (Within.forM members fun m => keeps_setOwner (some id) m).bind fun _ => ?_
  exact (keeps_recode _).bind fun _ => (keeps_count _).bind fun _ => Within.pure id

theorem keeps_destroy (id : ArNodeId) : Keeps surroundings (destroy id : Step (Abstraction α) (List NodeId)) := by
  unfold destroy
  refine (keeps_onArnodes _).bind fun (arnode, neighbors) => ?_
  refine (Within.forM arnode.data.members fun m => keeps_setOwner none m).bind fun _ => ?_
  refine (Within.forM neighbors fun n => Within.ite (keeps_recode _) (Within.pure _)).bind fun _ => ?_
  exact (keeps_recode _).bind fun _ => (keeps_recode _).bind fun _ => (keeps_count _).bind fun _ => Within.pure _

theorem keeps_refresh (id : ArNodeId) : Keeps surroundings (refresh id : Step (Abstraction α) Unit) := by
  unfold refresh
  refine (Within.read _).bind fun arnode => (Within.read _).bind fun equation => ?_
  exact (keeps_onArnodes _).bind fun _ => keeps_recode _

theorem keeps_refreshEquations : Keeps surroundings (refreshEquations : Step (Abstraction α) Nat) := by
  unfold refreshEquations
  refine (keeps_onEncoding _).bind fun stale => Within.foldlM stale 0 fun rebuilt id => Within.get.bind fun a => ?_
  exact Within.ite ((keeps_refresh id).bind fun _ => Within.pure _) (Within.pure _)

theorem keeps_forwardActivate (id : ArNodeId) :
    Keeps surroundings (forwardActivate id : Step (Abstraction α) Unit) := by
  unfold forwardActivate
  refine (Within.read _).bind fun arnode => Within.ite (Within.pure _) ?_
  refine (Within.read _).bind fun targets => ?_
  refine (Within.forM targets fun target => (Within.read _).bind fun weight => ?_).bind fun _ => keeps_advance _ _
  cases weight with
  | some weight => exact (keeps_onArnodes _).bind fun _ => keeps_recode _
  | none => exact Within.pure _

theorem keeps_recalculate (id source : ArNodeId) :
    Keeps surroundings (recalculate id source : Step (Abstraction α) Unit) := by
  unfold recalculate
  refine (Within.read _).bind fun weight => ?_
  cases weight with
  | some weight => exact keeps_onArnodes _
  | none =>
    refine (Within.read _).bind fun arnode => (Within.read _).bind fun target => ?_
    exact Within.ite (keeps_onArnodes _).discard (Within.pure _)

theorem keeps_fullyActivate (id : ArNodeId) :
    Keeps surroundings (fullyActivate id : Step (Abstraction α) Unit) := by
  unfold fullyActivate
  refine (Within.read _).bind fun arnode => Within.ite (Within.pure _) ?_
  refine (Within.ofExcept _).bind fun _ => (Within.read _).bind fun sources => ?_
  refine (Within.forM sources fun source => Within.read _).bind fun _ => (Within.read _).bind fun current => ?_
  refine (Within.forM _ fun neighbor => Within.ite (Within.pure _) (keeps_onArnodes _).discard).bind fun _ => ?_
  refine (Within.forM sources fun source => keeps_recalculate id source).bind fun _ => ?_
  exact (keeps_recode _).bind fun _ => keeps_advance _ _

theorem keeps_forwardActivateLayer (l : Nat) :
    Keeps surroundings (forwardActivateLayer l : Step (Abstraction α) Unit) := by
  refine Within.forM _ fun category => ?_
  unfold forwardActivateTable
  exact (Within.read _).bind fun ids => Within.forM ids keeps_forwardActivate

theorem keeps_wrap (l : Nat) (nodes : List NodeId) :
    Keeps nodePart (wrap l nodes : Step (Abstraction α) ArNodeId) := by
  intro a
  unfold wrap
  rw [meets_bind, meets_read]
  cases hlayer : a.layer l with
  | error e => rfl
  | ok layer =>
    cases nodes with
    | nil => rfl
    | cons first rest =>
      refine meets_bind_of_keeps rfl (Within.read _) fun node a₁ h₁ => ?_
      refine meets_bind_of_keeps h₁ (Within.ofExcept _) fun _ a₂ h₂ => ?_
      rw [meets_ite]
      refine ⟨fun _ => congrArg Prod.snd h₂, fun _ => ?_⟩
      refine meets_bind_of_keeps h₂ ?_ fun (_, id, arnodes) a₃ h₃ => ?_
      · exact (Within.ofExcept _).bind fun _ => (keeps_spawn _ _ _).bind fun _ => Within.pure _
      · exact nodePart_setArnodes_of_eq hlayer h₃ arnodes

theorem keeps_unwrap (l : Nat) (id : ArNodeId) :
    Keeps nodePart (unwrap l id : Step (Abstraction α) (List NodeId)) := by
  intro a
  unfold unwrap
  rw [meets_bind, meets_read]
  cases hlayer : a.layer l with
  | error e => rfl
  | ok layer =>
    refine meets_bind_of_keeps rfl (Within.read _) fun arnode a₁ h₁ => ?_
    refine meets_bind_of_keeps h₁ (Within.ofExcept _) fun _ a₂ h₂ => ?_
    refine meets_bind_of_keeps h₂ (keeps_destroy id) fun members a₃ h₃ => ?_
    refine meets_bind_of_keeps h₃ (Within.ofExcept _) fun (_, arnodes) a₄ h₄ => ?_
    exact nodePart_setArnodes_of_eq hlayer h₄ arnodes

theorem keeps_rebuild (l : Nat) (members : List NodeId) :
    Keeps nodePart (rebuild l members : Step (Abstraction α) ArNodeId) := by
  unfold rebuild
  refine (keeps_wrap l members).bind fun id => ?_
  refine ((keeps_forwardActivate id).comp Prod.snd).bind fun _ => ?_
  exact ((keeps_fullyActivate id).comp Prod.snd).bind fun _ => Within.pure id

theorem keeps_merge (l : Nat) (first second : ArNodeId) :
    Keeps nodePart (merge l first second : Step (Abstraction α) ArNodeId) := by
  unfold merge
  refine (Within.read _).bind fun layer => Within.ite (Within.throw _) ?_
  refine Within.ite (Within.throw _) ?_
  refine (Within.read _).bind fun firstLoc => (Within.read _).bind fun secondLoc => Within.ite (Within.throw _) ?_
  refine (Within.read _).bind fun _ => (keeps_unwrap l first).bind fun left => (keeps_unwrap l second).bind fun right => ?_
  refine (keeps_rebuild l _).bind fun merged => ?_
  exact ((keeps_count _).comp Prod.snd).bind fun _ => Within.pure merged

theorem keeps_split (l : Nat) (id : ArNodeId) (cells : List (List NodeId)) :
    Keeps nodePart (split l id cells : Step (Abstraction α) (List ArNodeId)) := by
  unfold split
  refine (Within.read _).bind fun layer => Within.ite (Within.throw _) ?_
  refine (Within.read _).discard.bind fun _ => (Within.read _).bind fun arnode => ?_
  refine (Within.ofExcept _).bind fun _ => (Within.read _).bind fun _ => (keeps_unwrap l id).discard.bind fun _ => ?_
  refine (Within.mapM cells (keeps_rebuild l)).bind fun parts => ?_
  exact ((keeps_count _).comp Prod.snd).bind fun _ => Within.pure parts

end Abstraction

end ReluAbstraction
