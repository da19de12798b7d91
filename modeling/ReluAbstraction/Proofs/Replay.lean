import ReluAbstraction.Proofs.Orderly

/-!
# Replaying the stages

What preprocessing does to the nodes depends on the nodes alone: not on who holds them, on the arnodes or on the abstract
query. So two runs that have preprocessed the same layers have the same nodes, with the same handles and edges, whatever
else they did. A run that is further ahead still has the classified nodes of the other.
-/

namespace ReluAbstraction

namespace Step

variable {σ τ ν β γ ι : Type}

theorem bind_eq_ok {step : Step σ γ} {next : γ → Step σ β} {s t : σ} {b : β} (h : (step >>= next) s = .ok b t) :
    ∃ c u, step s = .ok c u ∧ next c u = .ok b t := by
  change EStateM.bind step next s = .ok b t at h
  unfold EStateM.bind at h
  cases hstep : step s with
  | ok c u =>
    rw [hstep] at h
    exact ⟨c, u, rfl, h⟩
  | error e u =>
    rw [hstep] at h
    cases h

/-- If two steps succeed from states with the same view, they end with the same view and with related results. -/
def Coupled (view : σ → ν) (r : β → γ → Prop) (step : Step σ β) (step' : Step σ γ) : Prop :=
  ∀ s s' t t' b c, view s = view s' → step s = .ok b t → step' s' = .ok c t' → view t = view t' ∧ r b c

namespace Coupled

variable {view : σ → ν} {r : β → γ → Prop}

theorem mono {r' : β → γ → Prop} {step : Step σ β} {step' : Step σ γ} (h : Coupled view r step step')
    (hr : ∀ b c, r b c → r' b c) : Coupled view r' step step' := by
  intro s s' t t' b c hs hb hc
  obtain ⟨ht, hbc⟩ := h _ _ _ _ _ _ hs hb hc
  exact ⟨ht, hr b c hbc⟩

theorem pure {b : β} {c : γ} (h : r b c) : Coupled view r (Pure.pure b) (Pure.pure c) := by
  intro s s' t t' b' c' hs hb hc
  cases hb
  cases hc
  exact ⟨hs, h⟩

theorem throw (e : Error) (step' : Step σ γ) : Coupled view r (MonadExcept.throw e) step' := by
  intro s s' t t' b c _ hb
  cases hb

theorem ite {p : Prop} [Decidable p] {yes no : Step σ β} {yes' no' : Step σ γ} (hyes : Coupled view r yes yes')
    (hno : Coupled view r no no') : Coupled view r (if p then yes else no) (if p then yes' else no') := by
  split
  · exact hyes
  · exact hno

theorem bind {β' γ' : Type} {r' : β' → γ' → Prop} {step : Step σ β} {step' : Step σ γ} {next : β → Step σ β'}
    {next' : γ → Step σ γ'} (h : Coupled view r step step') (hnext : ∀ b c, r b c → Coupled view r' (next b) (next' c)) :
    Coupled view r' (step >>= next) (step' >>= next') := by
  intro s s' t t' b c hs hb hc
  obtain ⟨x, u, hx, hxb⟩ := bind_eq_ok hb
  obtain ⟨y, u', hy, hyc⟩ := bind_eq_ok hc
  obtain ⟨hu, hxy⟩ := h _ _ _ _ _ _ hs hx hy
  exact hnext x y hxy _ _ _ _ _ _ hu hxb hyc

theorem read {f : σ → Except Error β} {f' : σ → Except Error γ}
    (h : ∀ {s s' b c}, view s = view s' → f s = .ok b → f' s' = .ok c → r b c) :
    Coupled view r (Step.read f) (Step.read f') := by
  intro s s' t t' b c hs hb hc
  unfold Step.read at hb hc
  cases hf : f s with
  | error e =>
    rw [hf] at hb
    cases hb
  | ok x =>
    cases hf' : f' s' with
    | error e =>
      rw [hf'] at hc
      cases hc
    | ok y =>
      rw [hf] at hb
      rw [hf'] at hc
      cases hb
      cases hc
      exact ⟨hs, h hs hf hf'⟩

theorem update {f f' : σ → Except Error σ} (h : ∀ {s s' t t'}, view s = view s' → f s = .ok t → f' s' = .ok t' →
    view t = view t') : Coupled view Eq (Step.update f) (Step.update f') := by
  intro s s' t t' b c hs hb hc
  unfold Step.update at hb hc
  cases hf : f s with
  | error e =>
    rw [hf] at hb
    cases hb
  | ok x =>
    cases hf' : f' s' with
    | error e =>
      rw [hf'] at hc
      cases hc
    | ok y =>
      rw [hf] at hb
      rw [hf'] at hc
      cases hb
      cases hc
      exact ⟨h hs hf hf', rfl⟩

theorem ofExcept (x : Except Error β) : Coupled view Eq (Step.ofExcept x) (Step.ofExcept x) := by
  intro s s' t t' b c hs hb hc
  cases x with
  | error e => cases hb
  | ok x =>
    cases hb
    cases hc
    exact ⟨hs, rfl⟩

/-- Steps that leave the view alone may differ in everything else. -/
theorem of_keeps {step : Step σ β} {step' : Step σ γ} (h : Keeps view step) (h' : Keeps view step') :
    Coupled view (fun _ _ => True) step step' := by
  intro s s' t t' b c hs hb hc
  have ht : view t = view s := (h s).of_ok hb
  have ht' : view t' = view s' := (h' s').of_ok hc
  exact ⟨by rw [ht, ht', hs], trivial⟩

theorem discard {step : Step σ β} {step' : Step σ γ} (h : Coupled view r step step') :
    Coupled view Eq (Functor.discard step) (Functor.discard step') := by
  intro s s' t t' b c hs hb hc
  obtain ⟨x, hx⟩ : ∃ x, step s = .ok x t := by
    change EStateM.map _ step s = .ok b t at hb
    unfold EStateM.map at hb
    cases hstep : step s with
    | ok x u =>
      rw [hstep] at hb
      cases hb
      exact ⟨x, rfl⟩
    | error e u =>
      rw [hstep] at hb
      cases hb
  obtain ⟨y, hy⟩ : ∃ y, step' s' = .ok y t' := by
    change EStateM.map _ step' s' = .ok c t' at hc
    unfold EStateM.map at hc
    cases hstep : step' s' with
    | ok y u =>
      rw [hstep] at hc
      cases hc
      exact ⟨y, rfl⟩
    | error e u =>
      rw [hstep] at hc
      cases hc
  exact ⟨(h _ _ _ _ _ _ hs hx hy).1, rfl⟩

theorem zoom {part : σ → τ} {restore : σ → τ → σ} {view' : τ → ι} {step : Step τ β} {step' : Step τ γ}
    (h : Coupled view' r step step') (hpart : ∀ {s s'}, view s = view s' → view' (part s) = view' (part s'))
    (hrestore : ∀ {s s' t t'}, view s = view s' → view' t = view' t' → view (restore s t) = view (restore s' t')) :
    Coupled view r (Step.zoom part restore step) (Step.zoom part restore step') := by
  intro s s' t t' b c hs hb hc
  unfold Step.zoom at hb hc
  cases hstep : step (part s) with
  | error e u =>
    rw [hstep] at hb
    cases hb
  | ok x u =>
    cases hstep' : step' (part s') with
    | error e u' =>
      rw [hstep'] at hc
      cases hc
    | ok y u' =>
      rw [hstep] at hb
      rw [hstep'] at hc
      cases hb
      cases hc
      obtain ⟨hu, hbc⟩ := h _ _ _ _ _ _ (hpart hs) hstep hstep'
      exact ⟨hrestore hs hu, hbc⟩

theorem set {s s' : σ} (h : view s = view s') : Coupled view Eq (MonadStateOf.set s : Step σ PUnit) (MonadStateOf.set s') := by
  intro _ _ t t' b c _ hb hc
  cases hb
  cases hc
  exact ⟨h, rfl⟩

theorem forM {f f' : ι → Step σ PUnit} (xs : List ι) (h : ∀ x, Coupled view Eq (f x) (f' x)) :
    Coupled view Eq (xs.forM f) (xs.forM f') := by
  induction xs with
  | nil => exact .pure rfl
  | cons x xs ih => exact (h x).bind fun _ _ _ => ih

theorem mapM {f : ι → Step σ β} {f' : ι → Step σ γ} (xs : List ι) (h : ∀ x, Coupled view r (f x) (f' x)) :
    Coupled view (List.Forall₂ r) (xs.mapM f) (xs.mapM f') := by
  induction xs with
  | nil => exact .pure .nil
  | cons x xs ih =>
    rw [List.mapM_cons, List.mapM_cons]
    exact (h x).bind fun b c hbc => ih.bind fun bs cs hrest => .pure (.cons hbc hrest)

end Coupled

end Step

namespace Arena

variable {k : EntityKind} {β γ : Type} (f : β → γ) (a : Arena k β)

private theorem map_modify {δ ε : Type} {f : δ → ε} {g : δ → δ} {g' : ε → ε} (hfg : ∀ x, f (g x) = g' (f x))
    (xs : Array δ) (i : Nat) : (xs.modify i g).map f = (xs.map f).modify i g' := by
  ext j hj hj'
  · simp
  · simp only [Array.getElem_map, Array.getElem_modify]
    split
    · exact hfg _
    · rfl

theorem nextHandle_map : (a.map f).nextHandle = a.nextHandle := by
  unfold nextHandle
  simp only [map, Array.size_map, Array.getElem?_map, Option.map_map]
  rfl

theorem map_push (v : β) : (a.push v).map f = (a.map f).push (f v) := by
  unfold push map
  cases a.free with
  | nil => simp
  | cons index rest =>
    simp only [Arena.mk.injEq, and_true]
    exact map_modify (by simp) _ _

variable {a} {a' : Arena k β} {h : Handle k}

theorem map_of_set {v : β} (hset : a.set h v = .ok a') : (a.map f).set h (f v) = .ok (a'.map f) := by
  unfold set at hset ⊢
  cases hget : a.get? h with
  | none =>
    rw [hget] at hset
    cases hset
  | some u =>
    rw [hget] at hset
    cases hset
    rw [get?_map, hget, Option.map_some]
    simp only [map, Except.ok.injEq, Arena.mk.injEq, and_true]
    exact (map_modify (by simp) _ _).symm

theorem map_of_remove {v : β} (hremove : a.remove h = .ok (v, a')) : (a.map f).remove h = .ok (f v, a'.map f) := by
  unfold remove at hremove ⊢
  cases hget : a.get? h with
  | none =>
    rw [hget] at hremove
    cases hremove
  | some u =>
    rw [hget] at hremove
    cases hremove
    rw [get?_map, hget, Option.map_some]
    simp only [map, Except.ok.injEq, Prod.mk.injEq, Arena.mk.injEq, and_true, true_and]
    exact (map_modify (by simp) _ _).symm

end Arena

theorem TableChain.coupled_insertWith {η τ ν : Type} {view : τ → ν} (c : TableChain η) (t : Nat)
    {build : Slot → Step τ η} (h : ∀ slot, Step.Coupled view Eq (build slot) (build slot)) :
    Step.Coupled view Eq (c.insertWith t build) (c.insertWith t build) := by
  refine (Step.Coupled.ofExcept _).bind ?_
  rintro ⟨slot, reserved⟩ _ rfl
  refine (h slot).bind ?_
  rintro entry _ rfl
  exact .pure rfl

namespace Graph

open Step

variable {α : Type}

/-- The nodes, holders left out. -/
def bare (g : Graph .node α (NodeData α)) : Graph .node α (NodeData α) := Arena.map Node.disowned g

theorem coupled_find (id : NodeId) : Coupled (bare (α := α)) (fun v v' => Node.disowned v = Node.disowned v') (find id) (find id) := by
  refine Coupled.read fun {g g' v v'} hg hv hv' => ?_
  have hget := congrArg (fun g => Arena.get? g id) hg
  simp only [bare, Arena.get?_map, Arena.get?_of_get_eq_ok hv, Arena.get?_of_get_eq_ok hv', Option.map_some] at hget
  exact Option.some.inj hget

/-- A change of a node that does not look at its holder. -/
theorem coupled_edit (id : NodeId) {f : Node α → Except Error (Node α)}
    (hf : ∀ v, f (Node.disowned v) = (f v).map Node.disowned) : Coupled (bare (α := α)) Eq (edit id f) (edit id f) := by
  have hmodify : ∀ {g g₁ : Graph .node α (NodeData α)}, Arena.modify g id f = .ok g₁ →
      Arena.modify (bare g) id f = .ok (bare g₁) := by
    intro g g₁ hg
    unfold Arena.modify at hg ⊢
    cases hv : Arena.get? g id with
    | none =>
      rw [Arena.get_of_none hv] at hg
      cases hg
    | some v =>
      rw [Arena.get_of_get? hv] at hg
      have hv' : Arena.get? (bare g) id = some (Node.disowned v) := by rw [bare, Arena.get?_map, hv, Option.map_some]
      rw [Arena.get_of_get? hv']
      cases hw : f v with
      | error e =>
        simp only [hw, bind, Except.bind] at hg
        cases hg
      | ok w =>
        simp only [hw, bind, Except.bind] at hg
        simp only [hf, hw, Except.map, bind, Except.bind]
        exact Arena.map_of_set _ hg
  refine Coupled.update fun {g g' g₁ g₁'} hg h₁ h₁' => ?_
  have h₂ := hmodify h₁
  rw [hg, hmodify h₁'] at h₂
  exact (Except.ok.inj h₂).symm

theorem editEdges_disowned (v : Node α) (d : Direction)
    (f : EdgeSet α NodeId → Except Error (EdgeSet α NodeId)) :
    Vertex.editEdges (Node.disowned v) d f = (Vertex.editEdges v d f).map Node.disowned := by
  cases d with
  | incoming =>
    change (f v.incoming >>= _) = (f v.incoming >>= _ : Except Error (Node α)).map _
    cases f v.incoming <;> rfl
  | outgoing =>
    change (f v.outgoing >>= _) = (f v.outgoing >>= _ : Except Error (Node α)).map _
    cases f v.outgoing <;> rfl

/-- A new vertex, added to graphs that look the same through a function of their vertices. -/
theorem coupled_add {k : EntityKind} {δ : Type} (f : Vertex k α δ → Vertex k α δ) (v : Vertex k α δ) :
    Coupled (Arena.map f) Eq (add v) (add v) := by
  have hinsert : ∀ {g g' : Graph k α δ} {p p' : Handle k × Graph k α δ}, Arena.map f g = Arena.map f g' →
      Arena.insert g v = .ok p → Arena.insert g' v = .ok p' → p.1 = p'.1 ∧ Arena.map f p.2 = Arena.map f p'.2 := by
    intro g g' p p' hg hp hp'
    have hnext : Arena.nextHandle g = Arena.nextHandle g' := by
      rw [← Arena.nextHandle_map f g, ← Arena.nextHandle_map f g', hg]
    simp only [Arena.insert, Arena.insertWith] at hp hp'
    rw [hnext] at hp
    cases hh : Arena.nextHandle g' with
    | error e =>
      rw [hh] at hp
      cases hp
    | ok id =>
      rw [hh] at hp hp'
      cases hp
      cases hp'
      refine ⟨rfl, ?_⟩
      simp only [Arena.map_push, hg]
  refine (Coupled.read (r := fun p p' => p.1 = p'.1 ∧ Arena.map f p.2 = Arena.map f p'.2) hinsert).bind ?_
  rintro ⟨id, g⟩ ⟨id', g'⟩ ⟨rfl, hg⟩
  exact (Coupled.set hg).bind fun _ _ _ => .pure rfl

theorem coupled_link (x : NodeId) (d : Direction) (y : NodeId) (w : α) (both : Bool) :
    Coupled (bare (α := α)) Eq (link x d y w both) (link x d y w both) := by
  unfold link
  refine (coupled_find y).bind fun u u' hu => (coupled_find x).bind fun v v' hv => ?_
  have hukey : u.location.key = u'.location.key := congrArg (fun v => v.location.key) hu
  have hvkey : v.location.key = v'.location.key := congrArg (fun v => v.location.key) hv
  rw [hukey, hvkey]
  refine (coupled_edit x fun v => editEdges_disowned v d _).bind fun _ _ _ => ?_
  cases both with
  | true => exact coupled_edit y fun v => editEdges_disowned v d.reverse _
  | false => exact .pure rfl

theorem coupled_dropEdge (id : NodeId) (d : Direction) (key : EdgeKey) :
    Coupled (bare (α := α)) Eq (dropEdge id d key) (dropEdge id d key) := by
  unfold dropEdge
  refine (coupled_find id).bind fun v v' hv => ?_
  have hedges : v.edges d = v'.edges d := by
    have hedges := congrArg (fun v => Vertex.edges v d) hv
    cases d <;> exact hedges
  rw [hedges]
  refine (Coupled.ofExcept _).bind ?_
  rintro ⟨edge, rest⟩ _ rfl
  exact (coupled_edit id fun v => by cases d <;> rfl).bind fun _ _ _ => .pure rfl

theorem coupled_relocate (id : NodeId) (category : Category) (slot : Slot) :
    Coupled (bare (α := α)) Eq (relocate id category slot) (relocate id category slot) := by
  unfold relocate relocateIn
  refine (coupled_find id).bind fun v v' hv => ?_
  have hmovable : v.movable = v'.movable := congrArg (fun v => v.movable) hv
  have hlocation : v.location = v'.location := congrArg (fun v => v.location) hv
  have hneighbors : Vertex.Listing.bySlot.neighbors v = Vertex.Listing.bySlot.neighbors v' :=
    congrArg (fun v => v.neighbors) hv
  rw [hmovable, hlocation, hneighbors]
  split
  · exact .throw _ _
  · refine (coupled_edit id fun v => rfl).bind fun _ _ _ => ?_
    refine (Coupled.forM _ fun p => ?_).bind fun _ _ _ => .pure rfl
    exact coupled_edit p.2 fun v => editEdges_disowned v p.1.reverse _

private theorem bare_of_remove {g g' g₁ g₁' : Graph .node α (NodeData α)} {id : NodeId} {v v' : Node α}
    (hg : bare g = bare g') (h : Arena.remove g id = .ok (v, g₁)) (h' : Arena.remove g' id = .ok (v', g₁')) :
    bare g₁ = bare g₁' := by
  have h₁ : Arena.remove (bare g) id = .ok (Node.disowned v, bare g₁) := Arena.map_of_remove _ h
  have h₁' : Arena.remove (bare g') id = .ok (Node.disowned v', bare g₁') := Arena.map_of_remove _ h'
  rw [hg, h₁', Except.ok.injEq, Prod.mk.injEq] at h₁
  exact h₁.2.symm

theorem coupled_destroy (id : NodeId) : Coupled (bare (α := α)) (fun _ _ => True) (destroy id) (destroy id) := by
  unfold destroy destroyIn
  refine (coupled_find id).bind fun v v' hv => ?_
  have hlocation : v.location = v'.location := congrArg (fun v => v.location) hv
  have hneighbors : Vertex.Listing.bySlot.neighbors v = Vertex.Listing.bySlot.neighbors v' :=
    congrArg (fun v => v.neighbors) hv
  rw [hlocation, hneighbors]
  have hdrop : ∀ p : Direction × NodeId, Coupled (bare (α := α)) Eq
      (discard (dropEdge p.2 p.1.reverse v'.location.key)) (discard (dropEdge p.2 p.1.reverse v'.location.key)) :=
    fun p => (coupled_dropEdge p.2 p.1.reverse v'.location.key).discard
  refine (Coupled.forM _ hdrop).bind fun _ _ _ => ?_
  refine (Coupled.read (r := fun p p' => bare p.2 = bare p'.2) fun hg hp hp' => bare_of_remove hg hp hp').bind ?_
  rintro ⟨v, g⟩ ⟨v', g'⟩ hg
  exact (Coupled.set hg).bind fun _ _ _ => .pure trivial

end Graph

namespace Abstraction

open Step

variable {α : Type}

theorem coupled_onNodes {β γ : Type} {r : β → γ → Prop} {step : Step (Graph .node α (NodeData α)) β}
    {step' : Step (Graph .node α (NodeData α)) γ} (h : Coupled Graph.bare r step step') :
    Coupled nodePart r (onNodes step) (onNodes step') := by
  refine h.zoom (fun {a a'} ha => congrArg (fun p => p.2.1) ha) fun {a a' g g'} ha hg => ?_
  have hlayers : a.layers.map Layer.nodeSide = a'.layers.map Layer.nodeSide := congrArg Prod.fst ha
  have hpolicy : a.policy = a'.policy := congrArg (fun p => p.2.2) ha
  change (_, Graph.bare g, a.policy) = (_, Graph.bare g', a'.policy)
  rw [hlayers, hg, hpolicy]

theorem coupled_layer (l : Nat) : Coupled (nodePart (α := α)) (fun layer layer' => layer.nodeSide = layer'.nodeSide)
    (Step.read fun a => a.layer l) (Step.read fun a => a.layer l) := by
  refine Coupled.read fun {a a' layer layer'} ha hlayer hlayer' => ?_
  have hlayers : a.layers.map Layer.nodeSide = a'.layers.map Layer.nodeSide := congrArg Prod.fst ha
  have hget := congrArg (fun layers => layers[l]?) hlayers
  simp only [List.getElem?_map, getElem?_of_layer hlayer, getElem?_of_layer hlayer', Option.map_some] at hget
  exact Option.some.inj hget

theorem coupled_node (id : NodeId) : Coupled (nodePart (α := α)) (fun v v' => Node.disowned v = Node.disowned v')
    (Step.read fun a => a.node id) (Step.read fun a => a.node id) := by
  refine Coupled.read fun {a a' v v'} ha hv hv' => ?_
  have hnodes : Graph.bare a.nodes = Graph.bare a'.nodes := congrArg (fun p => p.2.1) ha
  have hget := congrArg (fun g => Arena.get? g id) hnodes
  have hv₁ : a.nodes.get? id = some v := Arena.get?_of_get_eq_ok hv
  have hv₁' : a'.nodes.get? id = some v' := Arena.get?_of_get_eq_ok hv'
  simp only [Graph.bare, Arena.get?_map, hv₁, hv₁', Option.map_some] at hget
  exact Option.some.inj hget

theorem coupled_setLayer (l : Nat) {layer layer' : Layer} (h : layer.nodeSide = layer'.nodeSide) :
    Coupled (nodePart (α := α)) Eq (setLayer l layer) (setLayer l layer') := by
  intro a a' t t' b c ha hb hc
  cases hb
  cases hc
  refine ⟨?_, rfl⟩
  have hlayers : a.layers.map Layer.nodeSide = a'.layers.map Layer.nodeSide := congrArg Prod.fst ha
  have hrest : (Graph.bare a.nodes, a.policy) = (Graph.bare a'.nodes, a'.policy) := congrArg Prod.snd ha
  change ((a.layers.set l layer).map Layer.nodeSide, _) = ((a'.layers.set l layer').map Layer.nodeSide, _)
  rw [List.map_set, List.map_set, hlayers, h]
  exact congrArg _ hrest

theorem coupled_count (event : Event) : Coupled (nodePart (α := α)) (fun _ _ => True) (count event) (count event) :=
  .of_keeps ((keeps_count event).comp Prod.snd) ((keeps_count event).comp Prod.snd)

theorem coupled_insertNode (l : Nat) (category : Category) (movable : Bool) (bias : α) (origin : NeuronRef) :
    Coupled (nodePart (α := α)) Eq (insertNode l category movable bias origin) (insertNode l category movable bias origin) := by
  unfold insertNode
  refine (coupled_layer l).bind fun layer layer' hlayer => ?_
  have hrole : layer.role = layer'.role := congrArg Prod.fst hlayer
  have hnodes : layer.nodes = layer'.nodes := congrArg Prod.snd hlayer
  rw [hnodes]
  refine (TableChain.coupled_insertWith layer'.nodes category.index fun slot =>
    coupled_onNodes (Graph.coupled_add Node.disowned (Node.create ⟨l, category, slot⟩ movable bias origin))).bind ?_
  rintro ⟨slot, id, nodes⟩ _ rfl
  refine (coupled_setLayer l ?_).bind fun _ _ _ => .pure rfl
  simp [Layer.nodeSide, hrole]

theorem coupled_unlistNode (l : Nat) (category : Category) (slot : Slot) :
    Coupled (nodePart (α := α)) Eq (unlistNode l category slot) (unlistNode l category slot) := by
  unfold unlistNode
  refine (coupled_layer l).bind fun layer layer' hlayer => ?_
  have hrole : layer.role = layer'.role := congrArg Prod.fst hlayer
  have hnodes : layer.nodes = layer'.nodes := congrArg Prod.snd hlayer
  rw [hnodes]
  refine (Coupled.ofExcept _).bind ?_
  rintro ⟨id, nodes⟩ _ rfl
  refine coupled_setLayer l ?_
  simp [Layer.nodeSide, hrole]

theorem coupled_promote (l : Nat) (id : NodeId) :
    Coupled (nodePart (α := α)) (fun _ _ => True) (promote l id) (promote l id) := by
  unfold promote
  refine (coupled_layer l).bind fun layer layer' hlayer => ?_
  have hrole : layer.role = layer'.role := congrArg Prod.fst hlayer
  have hnodes : layer.nodes = layer'.nodes := congrArg Prod.snd hlayer
  rw [hnodes]
  refine (Coupled.ofExcept _).bind ?_
  rintro ⟨slot, nodes⟩ _ rfl
  refine (coupled_setLayer l (by simp [Layer.nodeSide, hrole])).bind fun _ _ _ => ?_
  refine (coupled_onNodes (Graph.coupled_relocate id .posInc slot)).bind ?_
  rintro old _ rfl
  refine (coupled_unlistNode l .unprocessed old.slot).bind fun _ _ _ => ?_
  refine (coupled_onNodes (Graph.coupled_edit id fun v => rfl)).bind fun _ _ _ => ?_
  exact coupled_count _

theorem coupled_makePiece (l : Nat) (v : Node α) (category : Category) (edges : List (Edge α NodeId)) :
    Coupled (nodePart (α := α)) Eq (makePiece l v category edges) (makePiece l v category edges) := by
  unfold makePiece
  refine (coupled_insertNode l category false v.data.bias v.data.origin).bind ?_
  rintro ⟨piece, _⟩ _ rfl
  refine (Coupled.forM edges fun edge => coupled_onNodes (Graph.coupled_link piece .outgoing _ _ true)).bind fun _ _ _ => ?_
  refine (Coupled.forM _ fun entry => ?_).bind fun _ _ _ => .pure rfl
  exact coupled_onNodes (Graph.coupled_link piece .incoming entry.2.neighbor entry.2.weight true)

variable [Scalar α]

theorem coupled_divide (l : Nat) (id : NodeId) (v : Node α) :
    Coupled (nodePart (α := α)) Eq (divide l id v) (divide l id v) := by
  unfold divide
  refine (Coupled.ofExcept _).bind ?_
  rintro classified _ rfl
  have hmake : ∀ p : Category × List (Edge α NodeId),
      Coupled (nodePart (α := α)) Eq (makePiece l v p.1 p.2) (makePiece l v p.1 p.2) :=
    fun p => coupled_makePiece l v p.1 p.2
  refine (Coupled.mapM _ hmake).bind fun pieces pieces' hpieces => ?_
  rw [List.forall₂_eq_eq_eq] at hpieces
  subst hpieces
  refine (coupled_onNodes (Graph.coupled_destroy id)).discard.bind fun _ _ _ => ?_
  refine (coupled_unlistNode l .unprocessed v.location.slot).bind fun _ _ _ => ?_
  exact (coupled_count _).bind fun _ _ _ => .pure rfl

/-- What classifying a node does to the nodes depends on the nodes alone. -/
theorem coupled_classifyNode (l : Nat) (id : NodeId) :
    Coupled (nodePart (α := α)) (fun _ _ => True) (classifyNode l id) (classifyNode l id) := by
  unfold classifyNode
  refine (coupled_layer l).bind fun layer layer' hlayer => (coupled_node id).bind fun v v' hv => ?_
  have hrole : layer.role = layer'.role := congrArg Prod.fst hlayer
  have hlocation : v.location = v'.location := congrArg (fun v => v.location) hv
  have houtgoing : v.outgoing = v'.outgoing := congrArg (fun v => v.outgoing) hv
  have hdisowned : ∀ u : Node α, divide l id u = divide l id (Node.disowned u) := fun _ => rfl
  have hdivide : divide l id v = divide l id v' := by rw [hdisowned v, hv, ← hdisowned]
  rw [hrole, hlocation, houtgoing, hdivide]
  refine (Coupled.ofExcept _).bind fun _ _ _ => ?_
  dsimp only
  refine Coupled.ite ((Coupled.throw _ _).bind fun _ _ h => h) ?_
  · refine Coupled.ite ?_ ?_
    · refine (coupled_promote l id).bind fun _ _ _ => ?_
      exact (Coupled.of_keeps (keeps_wrap l [id]) (keeps_wrap l [id])).bind fun _ _ _ => .pure trivial
    · refine (coupled_divide l id v').bind ?_
      rintro pieces _ rfl
      have hwrap : Keeps (nodePart (α := α)) (pieces.mapM fun piece => wrap l [piece]) :=
        Within.mapM pieces fun piece => keeps_wrap l [piece]
      exact .of_keeps hwrap hwrap

theorem coupled_preprocess (l : Nat) :
    Coupled (nodePart (α := α)) (fun _ _ => True) (preprocess l) (preprocess l) := by
  unfold preprocess
  refine (coupled_layer l).bind fun layer layer' hlayer => ?_
  have hnodes : layer.nodes = layer'.nodes := congrArg Prod.snd hlayer
  rw [hnodes]
  have hclassify : ∀ entry : Slot × NodeId, Coupled (nodePart (α := α)) (fun _ _ => True)
      (classifyNode l entry.2) (classifyNode l entry.2) := fun entry => coupled_classifyNode l entry.2
  exact (Coupled.mapM _ hclassify).bind fun _ _ _ => .pure trivial

namespace Traced

variable {start a a' : Abstraction α} {left left' : Nat}

theorem le_length (h : Traced start left a) : left ≤ start.layers.length := by
  induction h with
  | start _ hdepth => exact hdepth.ge
  | next _ _ _ _ ih => exact Nat.le_of_succ_le ih

/-- Two runs that have preprocessed the same layers have the same nodes. -/
theorem nodePart_eq (h : Traced start left a) (h' : Traced start left a') : a.nodePart = a'.nodePart := by
  induction h generalizing a' with
  | start hpart hdepth =>
    cases h' with
    | start hpart' _ => rw [hpart, hpart']
    | next h' _ _ _ =>
      have hle := h'.le_length
      omega
  | next h hstage _ hpart ih =>
    cases h' with
    | start _ hdepth =>
      have hle := h.le_length
      omega
    | next h' hstage' _ hpart' =>
      rw [hpart, hpart']
      exact (coupled_preprocess _ _ _ _ _ _ _ (ih h') hstage hstage').1

/-- A run that is at least as far has the classified nodes of the other. -/
theorem persists (h : Traced start left a) (h' : Traced start left' a') (hle : left' ≤ left) : Persists a a' := by
  induction h' with
  | start hpart hdepth =>
    have hge := h.le_length
    obtain rfl : left = _ := Nat.le_antisymm (hdepth ▸ hge) hle
    exact .of_nodePart (h.nodePart_eq (.start hpart hdepth))
  | @next l _ _ _ _ h' hstage hkept hpart ih =>
    rcases Nat.eq_or_lt_of_le hle with rfl | hlt
    · exact .of_nodePart (h.nodePart_eq (.next h' hstage hkept hpart))
    · exact ((ih hlt).trans hkept).trans (.of_nodePart hpart.symm)

end Traced

end Abstraction

end ReluAbstraction
