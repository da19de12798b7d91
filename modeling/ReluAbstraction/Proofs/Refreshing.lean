import ReluAbstraction.Proofs.Moves

/-!
# Bringing the query up to date

An equation is current if it has a term for each incoming edge of its arnode. Refreshing rebuilds the equations of the
marked arnodes and touches nothing but equations, marks and the query. Together with the moves, and with the bounds that
are set when a boundary layer is preprocessed, that is all that ever happens to an abstraction.
-/

namespace ReluAbstraction

variable {α : Type}

/-- An arnode with another equation. -/
def Body.balanced (b : Body (ArNodeData α)) (equation : Option (Equation α)) : Body (ArNodeData α) :=
  { b with data := { b.data with equation } }

theorem Encoding.pool_replaceEquation [BEq α] (e : Encoding α) (old new : Option (Equation α)) :
    (e.replaceEquation old new).pool = e.pool := by cases old <;> cases new <;> rfl

namespace Abstraction

/-- The variable that the layer after reads of an arnode. -/
def outgoingVar (a : Abstraction α) (x : ArNodeId) : VarId :=
  ((a.arnodes.body? x).map fun b => b.data.vars.outgoing).getD 0

theorem outgoingVar_of_body? {a : Abstraction α} {x : ArNodeId} {b : Body (ArNodeData α)}
    (hb : a.arnodes.body? x = some b) : a.outgoingVar x = b.data.vars.outgoing := by
  rw [outgoingVar, hb]
  rfl

/-- Only equations and the query have changed. -/
structure Refreshed (a a' : Abstraction α) : Prop where
  sound : a'.ArnodesSound
  nodePart_eq : a'.nodePart = a.nodePart
  holder?_eq : a'.holder? = a.holder?
  body?_eq : ∀ x, (a'.arnodes.body? x).map (·.balanced none) = (a.arnodes.body? x).map (·.balanced none)
  edge?_eq : ∀ x y, a'.arnodes.edge? x y = a.arnodes.edge? x y
  pool_eq : a'.encoding.pool = a.encoding.pool

namespace Refreshed

variable {a a' a'' : Abstraction α}

theorem refl (h : a.ArnodesSound) : Refreshed a a := ⟨h, rfl, rfl, fun _ => rfl, fun _ _ => rfl, rfl⟩

theorem trans (h : Refreshed a a') (h' : Refreshed a' a'') : Refreshed a a'' :=
  ⟨h'.sound, h'.nodePart_eq.trans h.nodePart_eq, h'.holder?_eq.trans h.holder?_eq,
    fun x => (h'.body?_eq x).trans (h.body?_eq x), fun x y => (h'.edge?_eq x y).trans (h.edge?_eq x y),
    h'.pool_eq.trans h.pool_eq⟩

theorem recast (h : Refreshed a a') : Recast a a' := by
  refine ⟨h.sound, h.nodePart_eq, h.holder?_eq, fun x => ?_, h.pool_eq⟩
  have hidle := congrArg (Option.map Body.idle) (h.body?_eq x)
  rw [Option.map_map, Option.map_map] at hidle
  exact hidle

/-- An arnode is as it was, but for its equation. -/
theorem exists_body? (h : Refreshed a a') {x : ArNodeId} {b' : Body (ArNodeData α)}
    (hb' : a'.arnodes.body? x = some b') : ∃ b, a.arnodes.body? x = some b ∧ b.balanced none = b'.balanced none := by
  have hx := h.body?_eq x
  rw [hb', Option.map_some, eq_comm, Option.map_eq_some_iff] at hx
  exact hx

/-- Another query, with the same variables in use. -/
theorem of_recode (h : a.ArnodesSound) (e : Encoding α) (hpool : e.pool = a.encoding.pool) :
    Refreshed a { a with encoding := e } := ⟨⟨h.graph, h.housed⟩, rfl, rfl, fun _ => rfl, fun _ _ => rfl, hpool⟩

theorem isForward_eq (h : Refreshed a a') (x : ArNodeId) : a'.isForward x = a.isForward x := by
  cases hx : a'.arnodes.body? x with
  | none =>
    have hold := h.body?_eq x
    rw [hx, Option.map_none, eq_comm, Option.map_eq_none_iff] at hold
    rw [isForward_eq_false hx, isForward_eq_false hold]
  | some b' =>
    obtain ⟨b, hb, heq⟩ := h.exists_body? hx
    have hstate : b.data.state = b'.data.state := congrArg (fun b => b.data.state) heq
    rw [isForward_of_body? hx, isForward_of_body? hb, hstate]

variable [Scalar α]

theorem woven {pending : Option ArNodeId} (h : Refreshed a a') (hw : Woven a pending) : Woven a' pending :=
  hw.of_recast h.recast h.edge?_eq h.isForward_eq

end Refreshed

variable [Scalar α] {a a' : Abstraction α}

/-- Term of the edge from `s` to `x`. -/
def term (a : Abstraction α) (x s : ArNodeId) : Addend α := ⟨(a.arnodes.edge? s x).getD 0, a.outgoingVar s⟩

/-- The equation of an arnode over given sources; none if there are none. -/
def equationOver (a : Abstraction α) (x : ArNodeId) (b : Body (ArNodeData α)) (sources : List ArNodeId) :
    Option (Equation α) :=
  if sources = [] then none else some ⟨⟨-1, b.data.vars.incoming⟩ :: sources.map (a.term x), -b.data.bias⟩

/-- The equation is the one over all arnodes that have an edge to `x`. -/
def Current (a : Abstraction α) (x : ArNodeId) (b : Body (ArNodeData α)) (equation : Option (Equation α)) : Prop :=
  ∃ sources : List ArNodeId, sources.Nodup ∧ (∀ s, s ∈ sources ↔ ∃ w, a.arnodes.edge? s x = some w) ∧
    equation = a.equationOver x b sources

/-- Building the equation of a live arnode gives the current one. -/
theorem buildEquation_eq (h : a.ArnodesSound) {id : ArNodeId} {v : ArNode α} (hv : a.arnodes.get? id = some v) :
    ∃ equation, (v.buildEquation fun source => do return (← a.arnode source).data.vars.outgoing) = .ok equation ∧
      Current a id v.body equation := by
  let read (s : ArNodeId) : Except Error VarId := do return (← a.arnode s).data.vars.outgoing
  have hterm : ∀ p ∈ v.incoming.toList, (do return ⟨p.2.weight, ← read p.2.neighbor⟩ : Except Error (Addend α)) =
      .ok (a.term id p.2.neighbor) := by
    rintro ⟨key, w, s⟩ hp
    obtain ⟨u, hu, _, hedge⟩ := (h.graph.edges_iff hv .incoming key w s).mp (EdgeSet.mem_toList_iff.mp hp)
    have hread : a.arnode s = .ok u := Arena.get_of_get? hu
    have hedge' : a.arnodes.edge? s id = some w := hedge
    simp only [read, hread, term, hedge', outgoingVar_of_body? (Graph.body?_of_get? hu), Option.getD_some]
    rfl
  have hterms := mapM_eq_ok_map (fun p : EdgeKey × Edge α ArNodeId => a.term id p.2.neighbor) hterm
  refine ⟨a.equationOver id v.body v.incoming.neighbors, ?_, v.incoming.neighbors, h.graph.neighbors_nodup hv .incoming,
    fun s => h.graph.mem_neighbors_iff hv (d := .incoming), rfl⟩
  have hnil : v.incoming.neighbors = [] ↔ v.incoming.isEmpty = true := by
    rw [List.eq_nil_iff_forall_not_mem, EdgeSet.isEmpty_iff]
    simp only [EdgeSet.mem_neighbors_iff, not_exists]
    constructor
    · intro hnone key
      by_contra hne
      obtain ⟨⟨w, s⟩, he⟩ := Option.ne_none_iff_exists'.mp hne
      exact hnone s key w he
    · intro hnone s key w he
      rw [hnone key] at he
      cases he
  unfold ArNode.buildEquation equationOver
  by_cases hempty : v.incoming.isEmpty = true
  · rw [if_pos hempty, if_pos (hnil.mpr hempty)]
    rfl
  · rw [if_neg hempty, if_neg (fun hn => hempty (hnil.mp hn)), hterms, EdgeSet.neighbors, List.map_map]
    rfl

/-- What rebuilding the equation of the arnode `id` leads to. -/
structure Rebalanced (a a' : Abstraction α) (id : ArNodeId) (b : Body (ArNodeData α)) (equation : Option (Equation α)) :
    Prop where
  sound : a'.ArnodesSound
  nodePart_eq : a'.nodePart = a.nodePart
  holder?_eq : a'.holder? = a.holder?
  live : a.arnodes.body? id = some b
  body?_eq : ∀ x, a'.arnodes.body? x = if x = id then some (b.balanced equation) else a.arnodes.body? x
  edge?_eq : ∀ x y, a'.arnodes.edge? x y = a.arnodes.edge? x y
  encoding_eq : a'.encoding = a.encoding.replaceEquation b.data.equation equation

theorem Rebalanced.refreshed {id : ArNodeId} {b : Body (ArNodeData α)} {equation : Option (Equation α)}
    (h : Rebalanced a a' id b equation) : Refreshed a a' := by
  refine ⟨h.sound, h.nodePart_eq, h.holder?_eq, fun x => ?_, h.edge?_eq, ?_⟩
  · rw [h.body?_eq]
    split
    · next hx =>
      rw [hx, h.live]
      rfl
    · rfl
  · rw [h.encoding_eq, Encoding.pool_replaceEquation]

/-- An arnode is the one with the new equation or was there before. -/
theorem Rebalanced.body?_cases {id x : ArNodeId} {b c : Body (ArNodeData α)} {equation : Option (Equation α)}
    (h : Rebalanced a a' id b equation) (hc : a'.arnodes.body? x = some c) :
    x = id ∧ c = b.balanced equation ∨ x ≠ id ∧ a.arnodes.body? x = some c := by
  rw [h.body?_eq] at hc
  split at hc
  · next hx => exact .inl ⟨hx, (Option.some.inj hc).symm⟩
  · next hx => exact .inr ⟨hx, hc⟩

/-- The equation of a live arnode can be rebuilt. -/
theorem refresh_meets (h : a.ArnodesSound) {id : ArNodeId} {b : Body (ArNodeData α)} (hb : a.arnodes.body? id = some b) :
    (refresh id).Meets a (fun _ a' => ∃ equation, Current a id b equation ∧ Rebalanced a a' id b equation) Step.Never := by
  obtain ⟨v, hv, rfl⟩ := Graph.body?_eq_some_iff.mp hb
  obtain ⟨equation, hbuild, hcurrent⟩ := buildEquation_eq h hv
  have hread : a.arnode id = .ok v := Arena.get_of_get? hv
  unfold refresh
  rw [Step.meets_bind, Step.meets_read, hread]
  dsimp only
  rw [Step.meets_bind, Step.meets_read, hbuild]
  dsimp only
  rw [Step.meets_bind, onArnodes, Step.meets_zoom]
  have hedit := Graph.edit_meets (f := fun v => .ok { v with data := { v.data with equation } }) hv rfl
  refine hedit.mono ?_ fun _ _ hfalse => hfalse.elim
  intro _ g hg
  have hgraph : g.Realizes 4 a.arnodes.edge? := h.graph.of_edited hv hg rfl fun d => by cases d <;> rfl
  have hedge : g.edge? = a.arnodes.edge? := funext fun x => funext fun y => hgraph.edge?_eq x y
  have hbody : ∀ x, g.body? x = if x = id then some (v.body.balanced equation) else a.arnodes.body? x := by
    intro x
    unfold Graph.body?
    rw [hg.get?_eq]
    split <;> rfl
  refine ⟨equation, hcurrent, ⟨?_, ?_⟩, rfl, rfl, hb, hbody, fun x y => hgraph.edge?_eq x y, rfl⟩
  · change g.Realizes 4 g.edge?
    rw [hedge]
    exact hgraph
  · refine h.housed.of_same_bodies fun x => ?_
    change (g.body? x).map Body.location = _
    rw [hbody]
    split
    · next hx =>
      rw [hx, hb]
      rfl
    · rfl

/-- Refreshing never fails, and changes equations and the query only. -/
theorem refreshEquations_meets (h : a.ArnodesSound) :
    refreshEquations.Meets a (fun _ a' => Refreshed a a') Step.Never := by
  unfold refreshEquations
  rw [Step.meets_bind, onEncoding, Step.meets_zoom]
  change Step.Meets (List.foldlM _ _ _) _ _ _
  refine Step.Meets.foldlM (fun _ _ a' => Refreshed a a') ?_ ?_
  · exact .of_recode h _ rfl
  · intro done rebuilt id rest a' _ hrefreshed
    rw [Step.meets_bind, Step.meets_get, Step.meets_ite]
    constructor
    · intro hlive
      obtain ⟨v, hv⟩ := Option.isSome_iff_exists.mp hlive
      rw [Step.meets_bind]
      refine (refresh_meets hrefreshed.sound (Graph.body?_of_get? hv)).imp ?_
      rintro _ a'' ⟨equation, _, hrebalanced⟩
      exact hrefreshed.trans hrebalanced.refreshed
    · intro _
      exact hrefreshed

/-- All that happens to an abstraction, where only the layers in `free` may be regrouped, `limits` tells the bounds that
belong to a neuron, and equations are only brought up to date in a state in `ripe`. -/
inductive Change (free : Nat → Prop) (limits : NeuronRef → Bound α → Prop) (ripe : Abstraction α → Prop)
    (a a' : Abstraction α) : Prop
  /-- A move. -/
  | move (h : Move free a a')
  /-- The incoming variable of an arnode gets a bound of the neuron of its first node. -/
  | bound {x : ArNodeId} {b : Body (ArNodeData α)} {m : NodeId} {c : NodeInfo α} {bound : Bound α}
      (hx : a.arnodes.body? x = some b) (hm : b.data.members.head? = some m) (hc : a.info? m = some c)
      (hbound : limits c.origin bound)
      (h : a' = { a with
        encoding := { a.encoding with query := a.encoding.query.setBound b.data.vars.incoming bound } })
  /-- All equations are brought up to date. -/
  | refresh {rebuilt : Nat} (hripe : ripe a) (h : refreshEquations a = .ok rebuilt a')
  /-- The variables in use are declared. -/
  | prepare (h : a' = { a with encoding := a.encoding.prepare })

/-- Any number of changes. -/
abbrev Changes (free : Nat → Prop) (limits : NeuronRef → Bound α → Prop) (ripe : Abstraction α → Prop) :
    Abstraction α → Abstraction α → Prop := Relation.ReflTransGen (Change free limits ripe)

section Changes

variable {free : Nat → Prop} {limits : NeuronRef → Bound α → Prop} {ripe : Abstraction α → Prop}

theorem Moves.changes (h : Moves free a a') : Changes free limits ripe a a' :=
  Relation.ReflTransGen.mono (fun _ _ hmove => .move hmove) _ _ h

theorem Change.grounded (h : Change free limits ripe a a') (hg : a.Grounded) : a'.Grounded := by
  have hrecode : ∀ e : Encoding α, e.pool = a.encoding.pool → Grounded { a with encoding := e } :=
    fun e hpool => (Refreshed.of_recode hg.arnodes e hpool).recast.grounded hg
  cases h with
  | move h => exact h.grounded hg
  | bound hx hm hc hbound h => exact h ▸ hrecode _ rfl
  | refresh _ h => exact ((refreshEquations_meets hg.arnodes).of_ok h).recast.grounded hg
  | prepare h => exact h ▸ hrecode _ rfl

/-- What every change keeps, changes keep. -/
theorem Changes.invariant {I : Abstraction α → Prop} (h : Changes free limits ripe a a') (hg : a.Grounded) (hi : I a)
    (hstep : ∀ {b b'}, Change free limits ripe b b' → b.Grounded → I b → I b') : a'.Grounded ∧ I a' := by
  induction h with
  | refl => exact ⟨hg, hi⟩
  | tail _ hchange ih => exact ⟨hchange.grounded ih.1, hstep hchange ih.1 ih.2⟩

/-- No change touches the reductions. -/
theorem Changes.policy_eq (h : Changes free limits ripe a a') (hg : a.Grounded) : a'.policy = a.policy := by
  refine (h.invariant (I := fun b => b.policy = a.policy) hg rfl fun {b b'} hchange hb hi => ?_).2
  rw [← hi]
  cases hchange with
  | move h =>
    cases h with
    | classify _ _ h => exact h.policy_eq
    | wrap _ h => exact policy_of_nodePart h.nodePart_eq
    | unwrap _ h => exact policy_of_nodePart h.nodePart_eq
    | activate _ _ h => exact policy_of_nodePart h.nodePart_eq
    | recount _ h => rw [h]
  | bound _ _ _ _ h => rw [h]
  | refresh _ h => exact policy_of_nodePart ((refreshEquations_meets hb.arnodes).of_ok h).nodePart_eq
  | prepare h => rw [h]

end Changes

end Abstraction

end ReluAbstraction
