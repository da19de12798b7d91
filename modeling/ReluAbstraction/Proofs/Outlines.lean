import ReluAbstraction.Proofs.Advancing
import ReluAbstraction.Proofs.Replay

/-!
# Outlines of a network

The outline of a network is what preprocessing alone gives: the nodes, the tables, the arnodes without their edges, the
variables, the ReLUs and the bounds. Activation fills in edges, states and marks and leaves the outline alone. What
preprocessing does to the outline depends on the outline alone, so two runs that have preprocessed the same number of
layers have the same outline, whatever they have activated.
-/

namespace ReluAbstraction

namespace Step

variable {σ τ ν β γ ι : Type} {view : σ → ν}

/-- What the step gives and does to the view when it succeeds depends on the view alone. -/
abbrev Determined (view : σ → ν) (step : Step σ β) : Prop := Coupled view Eq step step

namespace Determined

theorem pure (b : β) : Determined view (Pure.pure b) := Coupled.pure rfl

theorem throw (e : Error) : Determined view (MonadExcept.throw e : Step σ β) := Coupled.throw e _

theorem bind {step : Step σ γ} {next : γ → Step σ β} (h : Determined view step) (hnext : ∀ c, Determined view (next c)) :
    Determined view (step >>= next) := by
  refine Coupled.bind h ?_
  rintro c _ rfl
  exact hnext c

/-- Reading what the view shows. -/
theorem read {f : σ → Except Error β} (g : ν → Except Error β) (h : ∀ s, f s = g (view s)) :
    Determined view (Step.read f) := by
  refine Coupled.read fun {s s' b c} hs hb hc => ?_
  rw [h, hs, ← h, hc] at hb
  exact (Except.ok.inj hb).symm

/-- A change that the view shows. -/
theorem modify {f : σ → σ} (g : ν → ν) (h : ∀ s, view (f s) = g (view s)) :
    Determined view (MonadState.modifyGet fun s => ((), f s) : Step σ Unit) := by
  intro s s' t t' b c hs hb hc
  cases hb
  cases hc
  exact ⟨by rw [h, h, hs], rfl⟩

/-- A step without a result that leaves the view alone. -/
theorem of_keeps {step : Step σ Unit} (h : Keeps view step) : Determined view step :=
  (Coupled.of_keeps h h).mono fun _ _ _ => rfl

theorem mapM {f : ι → Step σ γ} (xs : List ι) (h : ∀ x, Determined view (f x)) : Determined view (xs.mapM f) := by
  refine (Coupled.mapM xs h).mono fun bs cs hall => ?_
  rwa [List.forall₂_eq_eq_eq] at hall

/-- A handler that only cleans up does not matter to what succeeds. -/
theorem tryCatch {step : Step σ β} {handler : Error → Step σ β} (h : Determined view step)
    (hhandler : ∀ e s b t, handler e s ≠ .ok b t) : Determined view (MonadExcept.tryCatch step handler) := by
  have hok : ∀ {s t b}, MonadExcept.tryCatch step handler s = .ok b t → step s = .ok b t := by
    intro s t b hcatch
    change EStateM.tryCatch step handler s = .ok b t at hcatch
    unfold EStateM.tryCatch at hcatch
    cases hstep : step s with
    | ok c u =>
      rw [hstep] at hcatch
      exact hcatch
    | error e u =>
      rw [hstep] at hcatch
      exact absurd hcatch (hhandler e _ b t)
  intro s s' t t' b c hs hb hc
  exact h _ _ _ _ _ _ hs (hok hb) (hok hc)

/-- A step on a part that the view shows in full. -/
theorem zoom_of_shown {part : σ → τ} {restore : σ → τ → σ} (step : Step τ β) (shown : ν → τ) (put : ν → τ → ν)
    (hpart : ∀ s, part s = shown (view s)) (hrestore : ∀ s t, view (restore s t) = put (view s) t) :
    Determined view (Step.zoom part restore step) := by
  have hsame : Determined (fun t : τ => t) step := by
    intro s s' t t' b c hs hb hc
    subst hs
    rw [hb] at hc
    cases hc
    exact ⟨rfl, rfl⟩
  refine Coupled.zoom hsame (fun {s s'} hs => ?_) fun {s s' t t'} hs ht => ?_
  · rw [hpart, hpart, hs]
  · rw [hrestore, hrestore, hs, ht]

end Determined

end Step

open Step

variable {α : Type}

/-- An arnode without edges, as if it had just been made. -/
def ArNode.outline (v : ArNode α) : ArNode α :=
  { v with incoming := .empty 4, outgoing := .empty 4, data := { v.data with state := .notActivated } }

/-- The variables and the query without the marks. -/
def Encoding.unmarked (e : Encoding α) : Encoding α := { e with stale := .empty }

/-- Arenas that look the same through a function, and give the same under every handle. -/
theorem Arena.eq_of_map {k : EntityKind} {β γ : Type} {f : β → γ} {a a' : Arena k β} (hmap : a.map f = a'.map f)
    (hget : ∀ h, a.get? h = a'.get? h) : a = a' := by
  have hslots : a.slots.map (fun slot => (⟨slot.generation, slot.value.map f⟩ : ArenaSlot γ)) =
      a'.slots.map fun slot => ⟨slot.generation, slot.value.map f⟩ := congrArg (fun a => a.slots) hmap
  have hfree : a.free = a'.free := congrArg (fun a => a.free) hmap
  have hsize : a.size = a'.size := congrArg (fun a => a.size) hmap
  have hsame : a.slots = a'.slots := by
    refine Array.ext_getElem? fun i => ?_
    have hi := congrArg (fun slots => slots[i]?) hslots
    simp only [Array.getElem?_map] at hi
    cases hslot : a.slots[i]? with
    | none =>
      rw [hslot, Option.map_none, eq_comm, Option.map_eq_none_iff] at hi
      rw [hi]
    | some slot =>
      rw [hslot, Option.map_some, eq_comm, Option.map_eq_some_iff] at hi
      obtain ⟨slot', hslot', heq⟩ := hi
      obtain ⟨generation, value⟩ := slot
      obtain ⟨generation', value'⟩ := slot'
      obtain ⟨rfl, hvalue⟩ := ArenaSlot.mk.inj heq
      rw [hslot', Option.some.injEq, ArenaSlot.mk.injEq]
      refine ⟨rfl, ?_⟩
      cases value with
      | none => exact (Option.map_eq_none_iff.mp hvalue).symm
      | some v =>
        have hv : a'.get? ⟨i, generation'⟩ = some v := by rw [← hget, get?_eq_some_iff, hslot]
        rw [get?_eq_some_iff, hslot', Option.some.injEq, ArenaSlot.mk.injEq] at hv
        exact hv.2.symm
  obtain ⟨slots, free, size⟩ := a
  obtain ⟨slots', free', size'⟩ := a'
  simp_all

namespace Graph

/-- Graphs of one relation with the same vertices have the same records. -/
theorem Realizes.get?_eq {k : EntityKind} {δ : Type} {g g' : Graph k α δ} {tables : Nat}
    {E : Handle k → Handle k → Option α} (hg : g.Realizes tables E) (hg' : g'.Realizes tables E)
    (hbody : ∀ x, g.body? x = g'.body? x) (x : Handle k) : g.get? x = g'.get? x := by
  have hplace : ∀ y key, (∃ u, g.get? y = some u ∧ u.location.key = key) ↔ ∃ u, g'.get? y = some u ∧ u.location.key = key := by
    intro y key
    have hy := congrArg (fun o => o.map fun b : Body δ => b.location.key) (hbody y)
    simp only [body?, Option.map_map] at hy
    rw [← Option.map_eq_some_iff, ← Option.map_eq_some_iff]
    exact iff_of_eq (congrArg (· = some key) hy)
  have hx := hbody x
  cases hv : g.get? x with
  | none =>
    rw [body?, hv, Option.map_none, eq_comm, body?, Option.map_eq_none_iff] at hx
    exact hx.symm
  | some v =>
    rw [body?_of_get? hv, eq_comm, body?_eq_some_iff] at hx
    obtain ⟨v', hv', hsame⟩ := hx
    rw [hv', Option.some.injEq]
    refine Vertex.eq_of_edges hsame.symm fun d => ?_
    have htables : (v.edges d).tables = (v'.edges d).tables := by rw [hg.sized hv, hg'.sized hv']
    have hedges : (v.edges d).edges = (v'.edges d).edges := by
      refine SortedMap.ext_get? fun key => Option.ext fun e => ?_
      have hiff : (v.edges d).get? key = some ⟨e.weight, e.neighbor⟩ ↔ (v'.edges d).get? key = some ⟨e.weight, e.neighbor⟩ := by
        rw [hg.edges_iff hv, hg'.edges_iff hv']
        simp only [← and_assoc, exists_and_right, hplace]
      exact hiff
    cases hleft : v.edges d
    cases hright : v'.edges d
    simp_all

/-- A change of edges and state only. -/
theorem keepsOutline_edit (id : ArNodeId) {f : ArNode α → Except Error (ArNode α)}
    (hf : ∀ v v', f v = .ok v' → v'.outline = v.outline) : Keeps (Arena.map ArNode.outline) (edit id f) := by
  intro g
  rw [edit, meets_update]
  cases hmodify : Arena.modify g id f with
  | error e => exact rfl
  | ok g' => exact Arena.map_of_modify hf hmodify

theorem outline_editEdges {v v' : ArNode α} {d : Direction}
    {f : EdgeSet α ArNodeId → Except Error (EdgeSet α ArNodeId)} (h : Vertex.editEdges v d f = .ok v') :
    v'.outline = v.outline := by
  unfold Vertex.editEdges at h
  cases hf : f (v.edges d) with
  | error e =>
    rw [hf] at h
    cases h
  | ok edges =>
    rw [hf] at h
    cases h
    cases d <;> rfl

theorem keepsOutline_link (x : ArNodeId) (d : Direction) (y : ArNodeId) (w : α) (both : Bool) :
    Keeps (Arena.map ArNode.outline) (link x d y w both : Step (Graph .arnode α (ArNodeData α)) Unit) := by
  unfold link find
  refine (Within.read _).bind fun u => (Within.read _).bind fun v => ?_
  refine (keepsOutline_edit x fun _ _ => outline_editEdges).bind fun _ => ?_
  exact Within.ite (keepsOutline_edit y fun _ _ => outline_editEdges) (Within.pure _)

end Graph

namespace Abstraction

/-- The abstraction without what activation adds. -/
def outline (a : Abstraction α) : Abstraction α :=
  { a with arnodes := Arena.map ArNode.outline a.arnodes, encoding := a.encoding.unmarked }

section Activation

theorem keepsOutline_onArnodes {β : Type} {step : Step (Graph .arnode α (ArNodeData α)) β}
    (h : Keeps (Arena.map ArNode.outline) step) : Keeps outline (onArnodes step) := by
  refine h.zoom fun a g hg => ?_
  change ({ a.outline with arnodes := Arena.map ArNode.outline g } : Abstraction α) = a.outline
  rw [hg]
  rfl

theorem keepsOutline_markStale (id : ArNodeId) : Keeps outline (recode (·.markStale id) : Step (Abstraction α) Unit) :=
  fun _ => rfl

theorem keepsOutline_advance (id : ArNodeId) (state : ActivationState) :
    Keeps outline (advance id state : Step (Abstraction α) Unit) := by
  refine keepsOutline_onArnodes (Graph.keepsOutline_edit id fun v v' hv => ?_)
  cases hstate : v.data.state.advance state with
  | error e =>
    rw [hstate] at hv
    cases hv
  | ok next =>
    rw [hstate] at hv
    cases hv
    rfl

theorem keepsOutline_confirmLayer (l : Nat) (check : Bool) :
    Keeps outline (confirmLayer l check : Step (Abstraction α) Unit) := by
  refine Within.forM _ fun category => ?_
  unfold confirmTable confirm
  refine (Within.read _).bind fun ids => Within.forM ids fun id => ?_
  refine (Within.read _).bind fun arnode => Within.ite (Within.pure _) ((Within.ofExcept _).bind fun _ => ?_)
  refine Within.ite ((Within.forM _ fun source => Within.read _).bind fun _ => ?_) (keepsOutline_advance _ _)
  exact keepsOutline_advance _ _

/-- Forward activation adds edges and marks, and moves the states on. -/
theorem keepsOutline_forwardActivateLayer [Scalar α] (l : Nat) :
    Keeps outline (forwardActivateLayer l : Step (Abstraction α) Unit) := by
  refine Within.forM _ fun category => ?_
  unfold forwardActivateTable forwardActivate
  refine (Within.read _).bind fun ids => Within.forM ids fun id => ?_
  refine (Within.read _).bind fun arnode => Within.ite (Within.pure _) ((Within.read _).bind fun targets => ?_)
  refine (Within.forM targets fun target => (Within.read _).bind fun weight => ?_).bind fun _ => keepsOutline_advance _ _
  cases weight with
  | some weight =>
    exact (keepsOutline_onArnodes (Graph.keepsOutline_link _ _ _ _ _)).bind fun _ => keepsOutline_markStale _
  | none => exact Within.pure _

end Activation

section Preprocessing

/-- The outline shows nodes in full, and so are layers, metrics and reductions. -/
theorem determined_onNodes {β : Type} (step : Step (Graph .node α (NodeData α)) β) : Determined outline (onNodes step) :=
  Determined.zoom_of_shown step (·.nodes) (fun a nodes => { a with nodes }) (fun _ => rfl) fun _ _ => rfl

theorem determined_layer (l : Nat) : Determined (outline (α := α)) (Step.read fun a => a.layer l) :=
  Determined.read (·.layer l) fun _ => rfl

theorem determined_node (id : NodeId) : Determined (outline (α := α)) (Step.read fun a => a.node id) :=
  Determined.read (·.node id) fun _ => rfl

theorem determined_setLayer (l : Nat) (layer : Layer) : Determined (outline (α := α)) (setLayer l layer) :=
  Determined.modify (fun a => { a with layers := a.layers.set l layer }) fun _ => rfl

theorem determined_count (event : Event) : Determined (outline (α := α)) (count event) :=
  Determined.modify (fun a => { a with metrics := a.metrics.count event }) fun _ => rfl

theorem determined_insertNode (l : Nat) (category : Category) (movable : Bool) (bias : α) (origin : NeuronRef) :
    Determined outline (insertNode l category movable bias origin) := by
  refine (determined_layer l).bind fun layer => ?_
  refine Determined.bind (TableChain.coupled_insertWith layer.nodes category.index fun slot => determined_onNodes _)
    fun r => (determined_setLayer _ _).bind fun _ => Determined.pure _

theorem determined_unlistNode (l : Nat) (category : Category) (slot : Slot) :
    Determined (outline (α := α)) (unlistNode l category slot) :=
  (determined_layer l).bind fun _ => Determined.bind (Coupled.ofExcept _) fun _ => determined_setLayer _ _

theorem determined_promote (l : Nat) (id : NodeId) : Determined (outline (α := α)) (promote l id) := by
  refine (determined_layer l).bind fun layer => Determined.bind (Coupled.ofExcept _) fun r => ?_
  refine (determined_setLayer _ _).bind fun _ => (determined_onNodes _).bind fun old => ?_
  exact (determined_unlistNode _ _ _).bind fun _ => (determined_onNodes _).bind fun _ => determined_count _

theorem determined_makePiece (l : Nat) (v : Node α) (category : Category) (edges : List (Edge α NodeId)) :
    Determined outline (makePiece l v category edges) := by
  refine (determined_insertNode _ _ _ _ _).bind fun r => ?_
  refine Determined.bind (Coupled.forM _ fun edge => determined_onNodes _) fun _ => ?_
  exact Determined.bind (Coupled.forM _ fun entry => determined_onNodes _) fun _ => Determined.pure _

/-- Borrowing variables does not look at marks. -/
theorem determined_borrowVars (boundary : Bool) : Determined (Encoding.unmarked (α := α)) (Encoding.borrowVars boundary) := by
  have htake : Determined (Encoding.unmarked (α := α)) Encoding.takeVar := by
    refine Determined.bind (.read (fun e : Encoding α => e.pool.allocate) fun _ => rfl) fun r => ?_
    exact Determined.bind (.modify (fun e : Encoding α => { e with pool := r.2 }) fun _ => rfl) fun _ => .pure _
  unfold Encoding.borrowVars
  refine htake.bind fun incoming => Coupled.ite (Determined.pure _) ?_
  refine Determined.bind (.tryCatch htake fun e s b t => ?_) fun outgoing => ?_
  · rintro ⟨⟩
  · let join (e : Encoding α) : Encoding α := { e with query := e.query.addRelu ⟨incoming, outgoing⟩ }
    exact Determined.bind (.modify join fun _ => rfl) fun _ => .pure _

theorem determined_setOwner (owner : Option ArNodeId) (id : NodeId) :
    Determined (outline (α := α)) (setOwner owner id) := determined_onNodes _

variable [Scalar α]

theorem determined_divide (l : Nat) (id : NodeId) (v : Node α) : Determined outline (divide l id v) := by
  have hmake : ∀ p : Category × List (Edge α NodeId), Determined outline (makePiece l v p.1 p.2) :=
    fun p => determined_makePiece l v p.1 p.2
  unfold divide
  refine Determined.bind (Coupled.ofExcept _) fun classified => Determined.bind (.mapM _ hmake) fun pieces => ?_
  refine Determined.bind (determined_onNodes _).discard fun _ => (determined_unlistNode _ _ _).bind fun _ => ?_
  exact (determined_count _).bind fun _ => .pure _

theorem determined_spawn (loc : Location) (members : List NodeId) (boundary : Bool) :
    Determined (outline (α := α)) (spawn loc members boundary) := by
  have hvars : Determined (outline (α := α)) (onEncoding (Encoding.borrowVars boundary)) := by
    refine Coupled.zoom (determined_borrowVars boundary) (fun ha => congrArg (fun a => a.encoding) ha)
      fun {a a' e e'} ha he => ?_
    change ({ a.outline with encoding := e.unmarked } : Abstraction α) = { a'.outline with encoding := e'.unmarked }
    rw [ha, he]
  have hadd : ∀ v : ArNode α, Determined (outline (α := α)) (onArnodes (Graph.add v)) := by
    intro v
    refine Coupled.zoom (Graph.coupled_add ArNode.outline v) (fun ha => congrArg (fun a => a.arnodes) ha)
      fun {a a' g g'} ha hg => ?_
    change ({ a.outline with arnodes := Arena.map ArNode.outline g } : Abstraction α) =
      { a'.outline with arnodes := Arena.map ArNode.outline g' }
    rw [ha, hg]
  unfold spawn
  refine Determined.bind (.read (fun a : Abstraction α => a.foldBias loc members) fun _ => rfl) fun bias => ?_
  refine hvars.bind fun vars => Determined.bind (.tryCatch (hadd _) fun e s b t => ?_) fun id => ?_
  · rintro ⟨⟩
  refine Determined.bind (Coupled.forM _ fun m => determined_setOwner (some id) m) fun _ => ?_
  exact Determined.bind (.of_keeps (keepsOutline_markStale id)) fun _ => (determined_count _).bind fun _ => .pure _

theorem determined_wrap (l : Nat) (members : List NodeId) : Determined (outline (α := α)) (wrap l members) := by
  unfold wrap
  refine (determined_layer l).bind fun layer => ?_
  cases members with
  | nil => exact Determined.throw _
  | cons first rest =>
    refine (determined_node first).bind fun v => Determined.bind (Coupled.ofExcept _) fun _ => ?_
    refine Coupled.ite (.throw _ _) ?_
    refine Determined.bind (TableChain.coupled_insertWith _ _ fun slot => determined_spawn _ _ _) fun r => ?_
    exact (determined_setLayer _ _).bind fun _ => .pure _

theorem determined_classifyNode (l : Nat) (id : NodeId) : Determined (outline (α := α)) (classifyNode l id) := by
  unfold classifyNode
  refine (determined_layer l).bind fun layer => (determined_node id).bind fun v => ?_
  refine Determined.bind (Coupled.ofExcept _) fun _ => Coupled.ite (.throw _ _) (Coupled.ite ?_ ?_)
  · exact (determined_promote l id).bind fun _ => (determined_wrap l [id]).bind fun _ => .pure _
  · exact (determined_divide l id v).bind fun pieces => .mapM _ fun p => determined_wrap l [p]

/-- What preprocessing does to the outline, and the arnodes it makes, do not depend on what is activated. -/
theorem determined_preprocess (l : Nat) : Determined (outline (α := α)) (preprocess l) := by
  have hclassify : ∀ entry : Slot × NodeId, Determined (outline (α := α)) (classifyNode l entry.2) :=
    fun entry => determined_classifyNode l entry.2
  unfold preprocess
  exact (determined_layer l).bind fun layer => Determined.bind (.mapM _ hclassify) fun _ => .pure _

end Preprocessing

section Filling

variable {a a' : Abstraction α}

theorem body?_outline (a : Abstraction α) (x : ArNodeId) :
    a.outline.arnodes.body? x = (a.arnodes.body? x).map (·.reaching .notActivated) := by
  change (Arena.get? (Arena.map ArNode.outline a.arnodes) x).map Vertex.body = _
  rw [Arena.get?_map, Graph.body?, Option.map_map, Option.map_map]
  rfl

/-- Arnodes with the same outline whose states are a matter of their layers. -/
theorem body?_eq_of_outline (h : a.outline = a'.outline) {state : Nat → ActivationState}
    (hstate : ∀ {x b}, a.arnodes.body? x = some b → b.data.state = state b.location.layer)
    (hstate' : ∀ {x b}, a'.arnodes.body? x = some b → b.data.state = state b.location.layer) (x : ArNodeId) :
    a.arnodes.body? x = a'.arnodes.body? x := by
  have hbody : (a.arnodes.body? x).map (·.reaching .notActivated) = (a'.arnodes.body? x).map (·.reaching .notActivated) := by
    rw [← body?_outline, ← body?_outline, h]
  cases hb : a.arnodes.body? x with
  | none =>
    rw [hb, Option.map_none, eq_comm, Option.map_eq_none_iff] at hbody
    rw [hbody]
  | some b =>
    rw [hb, Option.map_some, eq_comm, Option.map_eq_some_iff] at hbody
    obtain ⟨b', hb', heq⟩ := hbody
    have hlocation : b'.location = b.location := congrArg (fun b => b.location) heq
    have hsame : b'.data.state = b.data.state := by rw [hstate hb, hstate' hb', hlocation]
    rw [hb', Option.some.injEq]
    have hback := congrArg (fun c : Body (ArNodeData α) => c.reaching b.data.state) heq
    have hself : b'.reaching b.data.state = b' := by rw [← hsame]; rfl
    exact (hself.symm.trans hback).symm

variable [Scalar α]

/-- What activation adds is known from the outline and from how far each layer is: the edges are the folds between the
members, and all arnodes are marked. -/
theorem eq_of_outline (h : a.outline = a'.outline) (hw : Woven a none) (hw' : Woven a' none) (hm : a.Marked)
    (hm' : a'.Marked) {state : Nat → ActivationState}
    (hstate : ∀ {x b}, a.arnodes.body? x = some b → b.data.state = state b.location.layer)
    (hstate' : ∀ {x b}, a'.arnodes.body? x = some b → b.data.state = state b.location.layer) : a = a' := by
  have hbody := body?_eq_of_outline h hstate hstate'
  have hpart : a.nodePart = a'.nodePart := by
    change a.outline.nodePart = a'.outline.nodePart
    rw [h]
  have hedge : a.arnodes.edge? = a'.arnodes.edge? := by
    funext x y
    rw [hw.edge?_eq, hw'.edge?_eq, isForward, isForward, hbody x, folded?_congr hpart (hbody x) (hbody y)]
  have hgraph := hw'.grounded.arnodes.graph
  rw [← hedge] at hgraph
  have hget := Graph.Realizes.get?_eq hw.grounded.arnodes.graph hgraph hbody
  have harnodes : a.arnodes = a'.arnodes := Arena.eq_of_map (congrArg (fun a => a.arnodes) h) hget
  have hstale : a.encoding.stale = a'.encoding.stale := by
    refine SortedSet.ext_contains fun x => ?_
    have hx : a.encoding.isStale x = true ↔ a'.encoding.isStale x = true := by rw [hm x, hm' x, hbody x]
    exact Bool.eq_iff_iff.mpr hx
  have hencoding : a.encoding = a'.encoding := by
    have hrest : a.encoding.unmarked = a'.encoding.unmarked := congrArg (fun a => a.encoding) h
    have hback := congrArg (fun e : Encoding α => { e with stale := a.encoding.stale }) hrest
    exact hback.trans (by rw [hstale]; rfl)
  have hback := congrArg (fun b : Abstraction α => { b with arnodes := a.arnodes, encoding := a.encoding }) h
  exact hback.trans (by rw [harnodes, hencoding]; rfl)

end Filling

end Abstraction

namespace Network

/-- The network without what activation adds and without how far activation is. -/
def outline (n : Network α) : Network α :=
  { n with abstraction := n.abstraction.outline, frontier := { n.frontier with forward := none, full := none } }

theorem keepsOutline_onAbstraction {β : Type} {step : Step (Abstraction α) β} (h : Keeps Abstraction.outline step) :
    Keeps outline (onAbstraction step) := by
  refine h.zoom fun n a ha => ?_
  change ({ n.outline with abstraction := a.outline } : Network α) = n.outline
  rw [ha]
  rfl

theorem keepsOutline_fullNext : Keeps outline (fullNext : Step (Network α) (Option Nat)) := by
  unfold fullNext
  refine Within.get.bind fun n => ?_
  dsimp only
  cases n.frontier.full with
  | none => exact Within.pure _
  | some l =>
    refine Within.ite (Within.throw _) (Within.get.bind fun m => ?_)
    refine (keepsOutline_onAbstraction (Abstraction.keepsOutline_confirmLayer l _)).bind fun _ => ?_
    exact Within.bind (fun _ => rfl) fun _ => Within.pure _

theorem keepsOutline_forwardNext [Scalar α] : Keeps outline (forwardNext : Step (Network α) (Option Nat)) := by
  unfold forwardNext
  refine Within.get.bind fun n => ?_
  dsimp only
  cases n.frontier.forward with
  | none => exact Within.pure _
  | some l =>
    refine Within.ite (Within.throw _) ?_
    refine (keepsOutline_onAbstraction (Abstraction.keepsOutline_forwardActivateLayer l)).bind fun _ => ?_
    exact Within.bind (fun _ => rfl) fun _ => Within.pure _

/-- What is read of the whole network looks the same. -/
theorem coupled_get : Coupled (outline (α := α)) (fun n n' => n.outline = n'.outline) MonadState.get MonadState.get := by
  intro n n' t t' b c hn hb hc
  cases hb
  cases hc
  exact ⟨hn, hn⟩

theorem coupled_arnode (id : ArNodeId) : Coupled (outline (α := α)) (fun v v' => v.outline = v'.outline)
    (Step.read fun n => n.abstraction.arnode id) (Step.read fun n => n.abstraction.arnode id) := by
  refine Coupled.read fun {n n' v v'} hn hv hv' => ?_
  have harnodes : Arena.map ArNode.outline n.abstraction.arnodes = Arena.map ArNode.outline n'.abstraction.arnodes :=
    congrArg (fun n => n.abstraction.arnodes) hn
  have hget := congrArg (fun g => Arena.get? g id) harnodes
  have hv₁ : n.abstraction.arnodes.get? id = some v := Arena.get?_of_get_eq_ok hv
  have hv₁' : n'.abstraction.arnodes.get? id = some v' := Arena.get?_of_get_eq_ok hv'
  simp only [Arena.get?_map, hv₁, hv₁', Option.map_some] at hget
  exact Option.some.inj hget

theorem coupled_firstNeuron {v v' : ArNode α} (hv : v.outline = v'.outline) : Coupled (outline (α := α)) Eq
    (Step.read fun n => n.firstNeuron? v) (Step.read fun n => n.firstNeuron? v') := by
  refine Coupled.read fun {n n' b c} hn hb hc => ?_
  have hsame : n.firstNeuron? v = n'.firstNeuron? v' := by
    change n.outline.firstNeuron? v.outline = n'.outline.firstNeuron? v'.outline
    rw [hn, hv]
  rw [hsame, hc] at hb
  exact (Except.ok.inj hb).symm

theorem determined_setBound (v : VarId) (bound : Bound α) : Determined (outline (α := α)) (setBound v bound) := by
  intro n n' t t' b c hn hb hc
  cases hb
  cases hc
  exact ⟨congrArg (fun n => n.bounded v bound) hn, rfl⟩

theorem determined_boundInput (id : ArNodeId) : Determined (outline (α := α)) (boundInput id) := by
  unfold boundInput
  refine (coupled_arnode id).bind fun v v' hv => (coupled_firstNeuron hv).bind ?_
  rintro neuron _ rfl
  have hvars : v.data.vars = v'.data.vars := congrArg (fun v => v.data.vars) hv
  rw [hvars]
  cases neuron with
  | none => exact Determined.pure _
  | some neuron =>
    refine coupled_get.bind fun n n' hn => ?_
    have hinputs : n.inputs = n'.inputs := congrArg (fun n => n.inputs) hn
    rw [hinputs]
    cases n'.inputs[neuron]? with
    | none => exact Determined.throw _
    | some range => exact (determined_setBound _ _).bind fun _ => determined_setBound _ _

theorem determined_boundOutput (id : ArNodeId) : Determined (outline (α := α)) (boundOutput id) := by
  unfold boundOutput
  refine (coupled_arnode id).bind fun v v' hv => coupled_get.bind fun n n' hn => (coupled_firstNeuron hv).bind ?_
  rintro neuron _ rfl
  have hvars : v.data.vars = v'.data.vars := congrArg (fun v => v.data.vars) hv
  have hproperty : n.property = n'.property := congrArg (fun n => n.property) hn
  rw [hvars, hproperty]
  cases neuron with
  | none => exact Determined.pure _
  | some neuron => exact Coupled.ite (determined_setBound _ _) (Determined.pure _)

variable [Scalar α]

/-- What preprocessing does to the outline of a network depends on the outline alone. -/
theorem determined_preprocessNext :
    Determined outline (preprocessNext : Step (Network α) (Option Nat)) := by
  unfold preprocessNext
  refine coupled_get.bind fun n n' hn => ?_
  have hnext : n.frontier.preprocess = n'.frontier.preprocess := congrArg (fun n => n.frontier.preprocess) hn
  rw [hnext]
  cases n'.frontier.preprocess with
  | none => exact Determined.pure _
  | some l =>
    have hstage : Determined outline (onAbstraction (Abstraction.preprocess l) : Step (Network α) (List ArNodeId)) := by
      refine Coupled.zoom (Abstraction.determined_preprocess l) (fun hn => congrArg (fun n => n.abstraction) hn)
        fun {n n' a a'} hn ha => ?_
      change ({ n.outline with abstraction := a.outline } : Network α) = { n'.outline with abstraction := a'.outline }
      rw [hn, ha]
    let moved (n : Network α) : Network α := { n with frontier := { n.frontier with preprocess := Frontier.before? l } }
    have hmove : Determined outline (do
        moveFrontier fun f => { f with preprocess := Frontier.before? l }
        return some l : Step (Network α) (Option Nat)) :=
      Determined.bind (.modify moved fun _ => rfl) fun _ => .pure _
    refine hstage.bind fun created => Coupled.ite ?_ (coupled_get.bind fun m m' hm => ?_)
    · exact Determined.bind (Coupled.forM _ determined_boundInput) fun _ => hmove
    · have hlayers : m.abstraction.layers = m'.abstraction.layers := congrArg (fun n => n.abstraction.layers) hm
      rw [hlayers]
      exact Coupled.ite (Determined.bind (Coupled.forM _ determined_boundOutput) fun _ => hmove) hmove

/-- The network has the outline that preprocessing some layers gives, from `start` on. -/
inductive Drawn (start : Network α) : Nat → Network α → Prop
  /-- No layer is preprocessed. -/
  | start {n : Network α} (h : n.outline = start.outline) : Drawn start 0 n
  /-- One more layer is preprocessed. -/
  | next {layers l : Nat} {n n' n'' : Network α} (h : Drawn start layers n) (hstage : preprocessNext n = .ok (some l) n')
      (hsame : n''.outline = n'.outline) : Drawn start (layers + 1) n''

variable {start n n' : Network α} {layers : Nat}

theorem Drawn.of_outline (h : Drawn start layers n) (hsame : n'.outline = n.outline) : Drawn start layers n' := by
  cases h with
  | start hstart => exact .start (hsame.trans hstart)
  | next h hstage hlast => exact .next h hstage (hsame.trans hlast)

/-- Runs that have preprocessed the same number of layers have the same outline. -/
theorem Drawn.outline_eq (h : Drawn start layers n) (h' : Drawn start layers n') : n.outline = n'.outline := by
  induction h generalizing n' with
  | start hstart =>
    cases h' with
    | start hstart' => rw [hstart, hstart']
  | next h hstage hsame ih =>
    cases h' with
    | next h' hstage' hsame' =>
      rw [hsame, hsame']
      exact (determined_preprocessNext _ _ _ _ _ _ (ih h') hstage hstage').1

end Network

end ReluAbstraction
