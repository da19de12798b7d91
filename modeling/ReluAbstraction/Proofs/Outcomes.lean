import ReluAbstraction.Proofs.Orderly

/-!
# Whatever the outcome

A call that fails half way keeps what it has done. Even so, little can happen to an abstraction: the changes that successful
calls make, variables borrowed in vain, and pieces of a node made in vain. Nodes, arnodes and variables fit together through
all of them, and every call is a sequence of them.
-/

namespace ReluAbstraction

variable {α : Type}

namespace Abstraction

variable {a a' : Abstraction α} {l : Nat}

theorem Lapsed.isFree_eq (h : Lapsed a a') (v : VarId) : a'.encoding.pool.isFree v = a.encoding.pool.isFree v := by
  obtain ⟨e, he, rfl⟩ := h
  obtain ⟨used, hpool⟩ := he.pool_eq
  change e.pool.isFree v = _
  rw [hpool]
  rfl

theorem Crowded.holder?_eq {v : Node α} (h : Crowded a a' l v) (m : NodeId) : a'.holder? m = a.holder? m := by
  unfold holder?
  cases hb : a.nodes.body? m with
  | some b => rw [h.kept hb]
  | none =>
    cases hb' : a'.nodes.body? m with
    | none => rfl
    | some b' =>
      rcases h.new hb' with hold | ⟨_, howner, _⟩
      · rw [hold] at hb
        cases hb
      · exact howner

theorem Crowded.info?_of_holder? {v : Node α} (h : Crowded a a' l v) {m : NodeId} {x : ArNodeId}
    (hm : a.holder? m = some x) : a'.info? m = a.info? m := by
  obtain ⟨b, hb, _⟩ := Option.bind_eq_some_iff.mp hm
  rw [info?, info?, h.kept hb, hb]

/-- Classifying a node keeps every node in the layer of its neuron. -/
theorem Resolved.aligned {id : NodeId} {pieces : List NodeId} (h : Resolved a a' l id pieces) (ha : a.Aligned) :
    a'.Aligned := by
  intro x c hx
  by_cases hmem : x ∈ pieces
  · obtain ⟨b, _, hb, _⟩ := h.piece x hmem
    have hid : a.info? id = some b.info := by rw [info?, hb, Option.map_some]
    obtain ⟨horigin, hlayer⟩ := h.origin_eq x hmem hid hx
    rw [horigin, hlayer]
    exact ha hid
  · by_cases hne : x = id
    · subst hne
      rw [info?, h.gone hmem] at hx
      cases hx
    · rw [info?, h.body?_eq x hne hmem] at hx
      exact ha hx

theorem Aligned.of_nodePart (h : a.Aligned) (hpart : a'.nodePart = a.nodePart) : a'.Aligned := by
  intro x c hx
  rw [info?_of_nodePart hpart] at hx
  exact h hx

/-- A node passes the check of a member only if it could be one. -/
theorem memberBias_eq_ok {loc : Location} {m : NodeId} {bias : α} (h : a.memberBias loc m = .ok bias) :
    ∃ c, a.info? m = some c ∧ c.place.layer = loc.layer ∧ c.place.category = loc.category ∧ a.holder? m = none := by
  unfold memberBias at h
  cases hv : a.nodes.get? m with
  | none =>
    rw [node, Arena.get_of_none hv] at h
    cases h
  | some v =>
    rw [node, Arena.get_of_get? hv] at h
    simp only [bind, Except.bind] at h
    split at h
    · cases h
    · split at h
      · cases h
      · next howner =>
        split at h
        · cases h
        · next hplace =>
          rw [not_or, not_not, not_not] at hplace
          refine ⟨_, info?_of_get? hv, hplace.1, hplace.2, ?_⟩
          rw [holder?, Graph.body?_of_get? hv]
          exact Option.eq_none_iff_forall_ne_some.mpr howner

theorem isSome_of_ownerOf {m : NodeId} {x : ArNodeId} (h : a.ownerOf m = .ok x) : (a.holder? m).isSome := by
  unfold ownerOf at h
  cases hv : a.nodes.get? m with
  | none =>
    rw [node, Arena.get_of_none hv] at h
    cases h
  | some v =>
    rw [node, Arena.get_of_get? hv] at h
    simp only [bind, Except.bind] at h
    split at h
    · next owner howner => simp [holder?, Graph.body?_of_get? hv, howner]
    · cases h

theorem isForward_of_requireReady {x : ArNodeId} (h : a.requireReady x = .ok ()) : a.isForward x = true := by
  unfold requireReady at h
  cases hv : a.arnodes.get? x with
  | none =>
    rw [arnode, Arena.get_of_none hv] at h
    cases h
  | some v =>
    rw [arnode, Arena.get_of_get? hv] at h
    rw [isForward_of_body? (Graph.body?_of_get? hv), Vertex.body_data]
    cases hstate : v.data.state.isForward with
    | true => rfl
    | false =>
      simp only [bind, Except.bind, hstate, Bool.not_false, if_true] at h
      cases h

variable [Scalar α]

/-- All that happens to an abstraction when calls may fail. -/
inductive Drift (free : Nat → Prop) (limits : NeuronRef → Bound α → Prop) (ripe : Abstraction α → Prop)
    (a a' : Abstraction α) : Prop
  /-- What happens when calls succeed. -/
  | change (h : Change free limits ripe a a')
  /-- Variables are borrowed and given back, as there are too few. -/
  | lapse (h : Lapsed a a')
  /-- Pieces of a node are made next to it, until there is no room for more. -/
  | crowd {l : Nat} {id : NodeId} {v : Node α} (hv : a.nodes.get? id = some v) (hl : v.location.layer = l)
      (h : Crowded a a' l v)

/-- Any number of such things. -/
abbrev Drifts (free : Nat → Prop) (limits : NeuronRef → Bound α → Prop) (ripe : Abstraction α → Prop) :
    Abstraction α → Abstraction α → Prop := Relation.ReflTransGen (Drift free limits ripe)

/-- Nodes, arnodes and variables fit together, in layers with the roles that they have in the network. -/
structure Coherent (net : Feedforward α) (a : Abstraction α) : Prop where
  grounded : a.Grounded
  aligned : a.Aligned
  roles_eq : a.roles = (List.range net.depth).map (Network.roleOf net.depth)

variable {net : Feedforward α} {free : Nat → Prop} {limits : NeuronRef → Bound α → Prop} {ripe : Abstraction α → Prop}

theorem Lapsed.grounded (h : Lapsed a a') (hg : a.Grounded) : a'.Grounded := by
  have hfree := h.isFree_eq
  obtain ⟨e, he, rfl⟩ := h
  obtain ⟨used, hpool⟩ := he.pool_eq
  refine ⟨⟨hg.nodes.graph, hg.nodes.housed, hg.nodes.movable_iff⟩, ⟨hg.arnodes.graph, hg.arnodes.housed⟩,
    ⟨hg.owned.ne_nil, hg.owned.nodup, hg.owned.member, hg.owned.holder, hg.owned.bias_eq⟩, ?_⟩
  refine ⟨?_, fun {_ _} hb {v} hv => (hfree v).trans (hg.vars.used hb hv), hg.vars.isBoundary_eq, hg.vars.disjoint⟩
  change e.pool.WellFormed
  rw [hpool]
  exact hg.vars.pool

theorem Crowded.grounded {v : Node α} (h : Crowded a a' l v) (hg : a.Grounded) : a'.Grounded :=
  hg.of_held h.sound h.arnodePart_eq h.info?_of_holder? h.holder?_eq

namespace Coherent

theorem of_nodePart (h : Coherent net a) (hg : a'.Grounded) (hpart : a'.nodePart = a.nodePart) : Coherent net a' :=
  ⟨hg, h.aligned.of_nodePart hpart, (roles_of_nodePart hpart).trans h.roles_eq⟩

theorem move (h : Coherent net a) (hmove : Move free a a') : Coherent net a' := by
  have hg := hmove.grounded h.grounded
  cases hmove with
  | classify _ _ hr => exact ⟨hg, hr.aligned h.aligned, (roles_of_arnodePart hr.arnodePart_eq).trans h.roles_eq⟩
  | wrap _ hw => exact h.of_nodePart hg hw.nodePart_eq
  | unwrap _ hu => exact h.of_nodePart hg hu.nodePart_eq
  | activate _ _ ha => exact h.of_nodePart hg ha.nodePart_eq
  | recount _ hm => exact h.of_nodePart hg (by rw [hm]; rfl)

/-- What happens to an abstraction keeps it coherent. -/
theorem drift (h : Coherent net a) (hdrift : Drift free limits ripe a a') : Coherent net a' := by
  cases hdrift with
  | change hc =>
    have hg := hc.grounded h.grounded
    cases hc with
    | move hm => exact h.move hm
    | bound _ _ _ _ heq => exact h.of_nodePart hg (by rw [heq]; rfl)
    | refresh _ hr => exact h.of_nodePart hg ((refreshEquations_meets h.grounded.arnodes).of_ok hr).nodePart_eq
    | prepare heq => exact h.of_nodePart hg (by rw [heq]; rfl)
  | lapse hl =>
    have hg := hl.grounded h.grounded
    obtain ⟨e, _, rfl⟩ := hl
    exact h.of_nodePart hg rfl
  | @crowd l id v hv hl hc =>
    refine ⟨hc.grounded h.grounded, fun {x c} hx => ?_, (roles_of_arnodePart hc.arnodePart_eq).trans h.roles_eq⟩
    obtain ⟨b, hb, rfl⟩ := Option.map_eq_some_iff.mp hx
    rcases hc.new hb with hold | ⟨_, _, _, hlayer, horigin⟩
    · exact h.aligned (by rw [info?, hold, Option.map_some])
    · have hid := h.aligned (info?_of_get? hv)
      change b.data.origin.layer = b.location.layer
      rw [horigin, hlayer, ← hl]
      exact hid

theorem drifts (h : Coherent net a) (hdrifts : Drifts free limits ripe a a') : Coherent net a' := by
  induction hdrifts with
  | refl => exact h
  | tail _ hdrift ih => exact ih.drift hdrift

end Coherent

/-- What every single thing that happens keeps, all of them keep. -/
theorem Drifts.invariant {I : Abstraction α → Prop} (h : Drifts free limits ripe a a') (hc : Coherent net a) (hi : I a)
    (hstep : ∀ {b b'}, Drift free limits ripe b b' → Coherent net b → I b → I b') : Coherent net a' ∧ I a' := by
  induction h with
  | refl => exact ⟨hc, hi⟩
  | tail _ hdrift ih => exact ⟨ih.1.drift hdrift, hstep hdrift ih.1 ih.2⟩

/-- No node waits to be classified that did not wait before. -/
def Thins (a a' : Abstraction α) : Prop :=
  ∀ {m c}, a'.info? m = some c → c.place.category = .unprocessed → a.info? m = some c

/-- No node of layer `l` waits to be classified. -/
def Cleared (a : Abstraction α) (l : Nat) : Prop :=
  ∀ {m c}, a.info? m = some c → c.place.layer = l → c.place.category ≠ .unprocessed

omit [Scalar α] in
theorem thins_of_nodePart (h : a'.nodePart = a.nodePart) : Thins a a' := fun hm _ => info?_of_nodePart h ▸ hm

omit [Scalar α] in
theorem Cleared.thins (h : a.Cleared l) (hthins : Thins a a') : a'.Cleared l :=
  fun hm hl hc => h (hthins hm hc) hl hc

omit [Scalar α] in
/-- A node that was classified waits no more. -/
theorem Resolved.classified {id : NodeId} {pieces : List NodeId} (h : Resolved a a' l id pieces) {c : NodeInfo α}
    (hc : a'.info? id = some c) : c.place.category ≠ .unprocessed := by
  obtain ⟨b, hb, rfl⟩ := Option.map_eq_some_iff.mp hc
  by_cases hmem : id ∈ pieces
  · obtain ⟨_, b', _, hb', _, hcategory, _⟩ := h.piece id hmem
    obtain rfl : b = b' := Option.some.inj (hb.symm.trans hb')
    exact hcategory
  · rw [h.gone hmem] at hb
    cases hb

omit [Scalar α] in
theorem Resolved.thins {id : NodeId} {pieces : List NodeId} (h : Resolved a a' l id pieces) : Thins a a' := by
  intro m c hm hc
  by_cases hid : m = id
  · subst hid
    exact absurd hc (h.classified hm)
  · obtain ⟨b, hb, rfl⟩ := Option.map_eq_some_iff.mp hm
    by_cases hmem : m ∈ pieces
    · obtain ⟨_, b', _, hb', _, hcategory, _⟩ := h.piece m hmem
      obtain rfl : b = b' := Option.some.inj (hb.symm.trans hb')
      exact absurd hc hcategory
    · rw [info?, ← h.body?_eq m hid hmem, hb, Option.map_some]

omit [Scalar α] in
theorem Crowded.thins {v : Node α} (h : Crowded a a' l v) : Thins a a' := by
  intro m c hm hc
  obtain ⟨b, hb, rfl⟩ := Option.map_eq_some_iff.mp hm
  rcases h.new hb with hold | ⟨_, _, hmovable, _⟩
  · rw [info?, hold, Option.map_some]
  · rw [(h.sound.movable_iff hb).mpr hc] at hmovable
    cases hmovable

/-- Whatever happens to an abstraction, no node has to wait again. -/
theorem Coherent.thins_drift (h : Coherent net a) (hdrift : Drift free limits ripe a a') : Thins a a' := by
  cases hdrift with
  | change hc =>
    cases hc with
    | move hm =>
      cases hm with
      | classify _ _ hr => exact hr.thins
      | wrap _ hw => exact thins_of_nodePart hw.nodePart_eq
      | unwrap _ hu => exact thins_of_nodePart hu.nodePart_eq
      | activate _ _ ha => exact thins_of_nodePart ha.nodePart_eq
      | recount _ hm => exact thins_of_nodePart (by rw [hm]; rfl)
    | bound _ _ _ _ heq => exact thins_of_nodePart (by rw [heq]; rfl)
    | refresh _ hr => exact thins_of_nodePart ((refreshEquations_meets h.grounded.arnodes).of_ok hr).nodePart_eq
    | prepare heq => exact thins_of_nodePart (by rw [heq]; rfl)
  | lapse hl =>
    obtain ⟨e, _, rfl⟩ := hl
    exact thins_of_nodePart rfl
  | crowd _ _ hc => exact hc.thins

theorem Coherent.thins (h : Coherent net a) (hdrifts : Drifts free limits ripe a a') : Thins a a' :=
  (hdrifts.invariant (I := fun b => Thins a b) h (fun hm _ => hm) fun hdrift hb hthins _ _ hm hc =>
    hthins (hb.thins_drift hdrift hm hc) hc).2

theorem Changes.drifts (h : Changes free limits ripe a a') : Drifts free limits ripe a a' :=
  Relation.ReflTransGen.mono (fun _ _ hchange => .change hchange) _ _ h

theorem Move.drifts (h : Move free a a') : Drifts free limits ripe a a' := .single (.change (.move h))

section Wrapping

/-- Nodes that pass the checks of a new arnode, each named once, can be wrapped. -/
theorem wrappable_of_foldBias {loc : Location} {members : List NodeId} {bias : α} (h : a.foldBias loc members = .ok bias)
    (hnodup : members.Nodup) (hcemented : loc.category ≠ .unprocessed) :
    Wrappable a loc.layer loc.category members := by
  unfold foldBias at h
  cases hmap : members.mapM (a.memberBias loc) with
  | error e =>
    rw [hmap] at h
    cases h
  | ok biases =>
    refine ⟨?_, hnodup, hcemented, fun m hm => ?_⟩
    · rintro rfl
      cases hmap
      cases h
    · obtain ⟨_, _, hok⟩ := (mem_of_mapM_ok hmap).1 m hm
      exact memberBias_eq_ok hok

/-- Nodes that cannot be wrapped are refused, and nothing changes. -/
theorem wrap_refused {members : List NodeId} (hnodup : members.Nodup)
    (hnot : ∀ category, ¬Wrappable a l category members) :
    (wrap l members).Meets a (fun _ _ => False) (fun _ a' => a' = a) := by
  unfold wrap
  rw [Step.meets_bind, Step.meets_read]
  cases a.layer l with
  | error e => rfl
  | ok layer =>
    cases members with
    | nil => rfl
    | cons first rest =>
      dsimp only
      rw [Step.meets_bind, Step.meets_read]
      cases a.node first with
      | error e => rfl
      | ok v =>
        dsimp only
        rw [Step.meets_bind, Step.meets_ofExcept]
        cases checkLayer l v.location with
        | error e => rfl
        | ok _ =>
          dsimp only
          rw [Step.meets_ite]
          refine ⟨fun _ => rfl, fun hcemented => ?_⟩
          have hcategory : v.location.category ≠ .unprocessed := by
            simpa [Category.isCemented] using hcemented
          rw [Step.meets_bind, TableChain.insertWith, Step.meets_bind, Step.meets_ofExcept]
          split
          · next reserved hreserved =>
            rw [Step.meets_bind, spawn, Step.meets_bind, Step.meets_read]
            split
            · next bias hfold => exact (hnot _ (wrappable_of_foldBias hfold hnodup hcategory)).elim
            · rfl
          · rfl

/-- Wrapping nodes, each named once, makes an arnode or changes next to nothing. -/
theorem Grounded.wrap_outcome (h : a.Grounded) (l : Nat) {members : List NodeId} (hnodup : members.Nodup) :
    (wrap l members).Meets a (fun id a' => ∃ b, b.location.layer = l ∧ Wrapped a a' members id b)
      (fun _ a' => Lapsed a a') := by
  by_cases hw : ∃ category, Wrappable a l category members
  · obtain ⟨category, hw⟩ := hw
    refine (h.wrap_meets hw).mono ?_ fun _ _ hfail => hfail.2.2
    rintro id a' ⟨b, hl, _, hwrapped⟩
    exact ⟨b, hl, hwrapped⟩
  · refine (wrap_refused hnodup (not_exists.mp hw)).mono (fun _ _ hfalse => hfalse.elim) ?_
    rintro _ a' rfl
    exact .refl a'

end Wrapping

section Activation

variable (free)

/-- The holders of the neighbours are found only if every neighbour has one. -/
theorem Grounded.held_of_neighborOwners (h : a.Grounded) {x : ArNodeId} {b : Body (ArNodeData α)} {d : Direction}
    {owners : List ArNodeId} (hb : a.arnodes.body? x = some b) (hok : a.neighborOwners x d = .ok owners) :
    ∀ m ∈ b.data.members, ∀ t w, d.along a.nodes.edge? m t = some w → (a.holder? t).isSome := by
  intro m hm t w hedge
  obtain ⟨u, hu, rfl⟩ := Graph.body?_eq_some_iff.mp hb
  obtain ⟨c, hc, _⟩ := h.owned.member hb m hm
  obtain ⟨v, hv, rfl⟩ := get?_of_info? hc
  have ht : t ∈ (v.edges d).neighbors := (h.nodes.graph.mem_neighbors_iff hv).mpr ⟨w, hedge⟩
  unfold neighborOwners at hok
  rw [arnode, Arena.get_of_get? hu] at hok
  simp only [bind, Except.bind] at hok
  split at hok
  · cases hok
  · next found hfound =>
    obtain ⟨ys, _, hys⟩ := (mem_of_mapM_ok hfound).1 m hm
    rw [node, Arena.get_of_get? hv] at hys
    obtain ⟨y, _, hy⟩ := (mem_of_mapM_ok hys).1 t ht
    exact isSome_of_ownerOf hy

/-- Forward activation is a move or does nothing. It leaves the incoming edges alone. -/
theorem Grounded.forwardActivate_outcome (h : a.Grounded) (id : ArNodeId) :
    (forwardActivate id).Meets a
      (fun _ a' => Moves free a a' ∧ ∀ x, a'.arnodes.edge? x id = a.arnodes.edge? x id) (fun _ a' => a' = a) := by
  cases hv : a.arnodes.get? id with
  | none =>
    unfold forwardActivate
    rw [Step.meets_bind, Step.meets_read, arnode, Arena.get_of_none hv]
  | some v =>
    have hb := Graph.body?_of_get? hv
    by_cases hstate : v.data.state.isForward = true
    · unfold forwardActivate
      rw [Step.meets_bind, Step.meets_read, arnode, Arena.get_of_get? hv]
      simp only [hstate, if_true]
      exact ⟨.refl, fun _ => rfl⟩
    · cases howners : a.neighborOwners id .outgoing with
      | error e =>
        unfold forwardActivate
        rw [Step.meets_bind, Step.meets_read, arnode, Arena.get_of_get? hv]
        simp only [hstate, Bool.false_eq_true, if_false]
        rw [Step.meets_bind, Step.meets_read, howners]
      | ok owners =>
        have hheld := h.held_of_neighborOwners hb howners
        refine (forwardActivate_links h hb (by simpa using hstate) hheld).mono ?_ fun _ _ hfalse => hfalse.elim
        intro _ a' ha'
        constructor
        · refine .single (.activate (fun x hx => .inl hx) (fun x y hne => .inr ?_) ha')
          by_contra hnone
          exact hne (if_neg fun hboth => hnone hboth.2)
        · intro x
          rw [ha'.edge?_eq, h.folded?_self]
          simp

/-- Confirmation is a move or does nothing. -/
theorem Grounded.confirm_outcome (h : a.Grounded) (id : ArNodeId) (check : Bool) :
    (confirm id check).Meets a (fun _ a' => Moves free a a') (fun _ a' => a' = a) := by
  unfold confirm
  rw [Step.meets_bind, Step.meets_read]
  cases hv : a.arnodes.get? id with
  | none => rw [arnode, Arena.get_of_none hv]
  | some v =>
    rw [arnode, Arena.get_of_get? hv]
    dsimp only
    rw [Step.meets_ite]
    refine ⟨fun _ => .refl, fun hnot => ?_⟩
    rw [Step.meets_bind, Step.meets_ofExcept]
    cases requireForward v.data.state with
    | error e => rfl
    | ok _ =>
      have hrank : v.body.data.state.rank ≤ ActivationState.fullyActivated.rank := by
        cases v.body.data.state <;> decide
      have hadvance : (advance id .fullyActivated).Meets a (fun _ a' => Moves free a a') (fun _ a' => a' = a) :=
        (h.arnodes.linked_self.advance_meets h.arnodes (Graph.body?_of_get? hv) hrank).mono
          (fun _ a' ha' => .single (.activate (fun _ hx => hx) (fun x y hne => absurd rfl hne) ha'))
          fun _ _ hfalse => hfalse.elim
      dsimp only
      rw [Step.meets_ite]
      refine ⟨fun _ => ?_, fun _ => hadvance⟩
      rw [Step.meets_bind]
      refine (Step.Meets.forM (fun _ a' => a' = a) rfl ?_).imp fun _ a' ha' => by rw [ha']; exact hadvance
      rintro _ source _ a' _ rfl
      rw [Step.meets_read]
      cases a'.requireReady source <;> rfl

/-- Full activation of a forward activated arnode without incoming edges is a move, unless a source is missing or not
ready. -/
private theorem Grounded.confirmed_outcome (h : a.Grounded) {id : ArNodeId} {v : ArNode α}
    (hv : a.arnodes.get? id = some v) (hstate : v.data.state = .forwardActivated)
    (hnone : ∀ x, a.arnodes.edge? x id = none) :
    (fullyActivate id).Meets a (fun _ a' => Moves free a a') (fun _ a' => a' = a) := by
  have hb := Graph.body?_of_get? hv
  have hread : a.arnode id = .ok v := Arena.get_of_get? hv
  by_cases hready : (∀ m ∈ v.data.members, ∀ s w, a.nodes.edge? s m = some w → (a.holder? s).isSome) ∧
      ∀ x, (a.folded? x id).isSome → a.isForward x = true
  · refine (fullyActivate_meets h hb hstate hnone hready.1 hready.2).mono ?_ fun _ _ hfalse => hfalse.elim
    refine fun _ a' ha' => .single (.activate (fun x hx => .inr hx) (fun x y hne => .inl ?_) ha')
    by_contra hy
    exact hne (if_neg hy)
  · -- A source is missing or not ready, which one of the checks finds out.
    have hforward : requireForward v.data.state = .ok () := by rw [hstate]; rfl
    unfold fullyActivate
    rw [Step.meets_bind, Step.meets_read, hread]
    simp only [hforward]
    rw [if_neg (by rw [hstate]; decide), Step.meets_bind, Step.meets_ofExcept]
    dsimp only
    rw [Step.meets_bind, Step.meets_read]
    cases howners : a.neighborOwners id .incoming with
    | error e => rfl
    | ok owners =>
      have hheld := h.held_of_neighborOwners hb howners
      obtain ⟨owners', howners', _, hmem⟩ := h.incoming_owners hb hheld
      rw [howners] at howners'
      cases howners'
      dsimp only
      rw [Step.meets_bind]
      refine (Step.Meets.forM (fun done a' => a' = a ∧ ∀ x ∈ done, a.isForward x = true) ⟨rfl, by simp⟩ ?_).imp ?_
      · rintro done x _ a' _ ⟨rfl, hdone⟩
        rw [Step.meets_read]
        cases hx : a'.requireReady x with
        | error e => rfl
        | ok _ =>
          refine ⟨rfl, fun y hy => ?_⟩
          rcases List.mem_append.mp hy with hy | hy
          · exact hdone y hy
          · rw [List.mem_singleton.mp hy]
            exact isForward_of_requireReady hx
      · rintro _ a' ⟨_, hdone⟩
        exact absurd ⟨hheld, fun x hx => hdone x ((hmem x).mpr hx)⟩ hready

/-- Full activation of an arnode without incoming edges is a move or does nothing. -/
theorem Grounded.fullyActivate_outcome (h : a.Grounded) {id : ArNodeId} (hnone : ∀ x, a.arnodes.edge? x id = none) :
    (fullyActivate id).Meets a (fun _ a' => Moves free a a') (fun _ a' => a' = a) := by
  cases hv : a.arnodes.get? id with
  | none =>
    unfold fullyActivate
    rw [Step.meets_bind, Step.meets_read, arnode, Arena.get_of_none hv]
  | some v =>
    have hread : a.arnode id = .ok v := Arena.get_of_get? hv
    cases hstate : v.data.state with
    | forwardActivated => exact h.confirmed_outcome free hv hstate hnone
    | notActivated =>
      unfold fullyActivate
      rw [Step.meets_bind, Step.meets_read, hread]
      simp only [hstate]
      exact rfl
    | fullyActivated =>
      unfold fullyActivate
      rw [Step.meets_bind, Step.meets_read, hread]
      simp only [hstate, if_true]
      exact .refl

end Activation

/-- From a coherent abstraction, only the known things happen. -/
def Adrift (net : Feedforward α) (free : Nat → Prop) (limits : NeuronRef → Bound α → Prop) (ripe : Abstraction α → Prop)
    (a a' : Abstraction α) : Prop := Coherent net a → Drifts free limits ripe a a'

instance : Std.Refl (Adrift net free limits ripe) := ⟨fun _ _ => .refl⟩

instance : IsTrans (Abstraction α) (Adrift net free limits ripe) :=
  ⟨fun _ _ _ h h' hc => Relation.ReflTransGen.trans (h hc) (h' (hc.drifts (h hc)))⟩

theorem adrift_of_coherent {β : Type} {step : Step (Abstraction α) β}
    (h : ∀ {a}, Coherent net a → step.Meets a (fun _ a' => Drifts free limits ripe a a')
      (fun _ a' => Drifts free limits ripe a a')) : Step.Within (Adrift net free limits ripe) step :=
  Step.within_of_meets h

theorem Moves.drifts (h : Moves free a a') : Drifts free limits ripe a a' := h.changes.drifts

section Stages

theorem adrift_forwardActivate (id : ArNodeId) : Step.Within (Adrift net free limits ripe) (forwardActivate id) :=
  adrift_of_coherent fun hc => (hc.grounded.forwardActivate_outcome free id).mono (fun _ _ hm => hm.1.drifts)
    fun _ _ heq => heq ▸ .refl

theorem adrift_confirm (id : ArNodeId) (check : Bool) : Step.Within (Adrift net free limits ripe) (confirm id check) :=
  adrift_of_coherent fun hc => (hc.grounded.confirm_outcome free id check).mono (fun _ _ hm => hm.drifts)
    fun _ _ heq => heq ▸ .refl

theorem adrift_forwardActivateLayer (l : Nat) : Step.Within (Adrift net free limits ripe) (forwardActivateLayer l) :=
  .forM _ fun _ => .bind (.read _) fun ids => .forM ids adrift_forwardActivate

theorem adrift_confirmLayer (l : Nat) (check : Bool) : Step.Within (Adrift net free limits ripe) (confirmLayer l check) :=
  .forM _ fun _ => .bind (.read _) fun ids => .forM ids fun id => adrift_confirm id check

end Stages

section Regrouping

/-- Rebuilding an arnode in a layer that may be regrouped. -/
theorem Coherent.rebuild_outcome (h : Coherent net a) (hfree : free l) {members : List NodeId} (hnodup : members.Nodup) :
    (rebuild l members).Meets a (fun _ a' => Drifts free limits ripe a a') (fun _ a' => Drifts free limits ripe a a') := by
  unfold rebuild
  rw [Step.meets_bind]
  refine (h.grounded.wrap_outcome l hnodup).mono ?_ fun _ a' hl => .single (.lapse hl)
  rintro id a₁ ⟨b, hbl, hw⟩
  have hwrap : Drifts free limits ripe a a₁ := (Move.wrap (.inr (hbl ▸ hfree)) hw).drifts
  have h₁ := h.drifts hwrap
  have hnone : ∀ x, a₁.arnodes.edge? x id = none := by
    intro x
    rw [hw.edge?_eq]
    refine Option.eq_none_iff_forall_ne_some.mpr fun w hedge => ?_
    obtain ⟨_, c, _, hc, _⟩ := h.grounded.arnodes.live_of_edge hedge
    rw [hw.fresh] at hc
    cases hc
  rw [Step.meets_bind]
  refine (h₁.grounded.forwardActivate_outcome free id).mono ?_ fun _ _ heq => heq ▸ hwrap
  rintro _ a₂ ⟨hmoves, hedges⟩
  have hforward : Drifts free limits ripe a a₂ := Relation.ReflTransGen.trans hwrap hmoves.drifts
  have hnone₂ : ∀ x, a₂.arnodes.edge? x id = none := fun x => (hedges x).trans (hnone x)
  rw [Step.meets_bind]
  refine ((h.drifts hforward).grounded.fullyActivate_outcome free hnone₂).mono ?_ fun _ _ heq => heq ▸ hforward
  exact fun _ a₃ hmoves' => Relation.ReflTransGen.trans hforward hmoves'.drifts

/-- Unwrapping an arnode in a layer that may be regrouped never fails. -/
theorem Coherent.unwrap_outcome (h : Coherent net a) {id : ArNodeId} {b : Body (ArNodeData α)}
    (hb : a.arnodes.body? id = some b) (hl : b.location.layer = l) (hfree : free l) :
    (unwrap l id).Meets a (fun members a' => members = b.data.members ∧ Move free a a' ∧ Unwrapped a a' id b)
      Step.Never := by
  refine (unwrap_meets h.grounded.arnodes hb hl (h.grounded.owned.live_of_mem hb)).imp ?_
  rintro members a' ⟨rfl, hu⟩
  exact ⟨rfl, .unwrap (hl ▸ hfree) hu, hu⟩

theorem adrift_merge (hfree : free l) (first second : ArNodeId) :
    Step.Within (Adrift net free limits ripe) (merge l first second) := by
  refine adrift_of_coherent fun {a} h => ?_
  refine merge_meets_of_checked (fun _ => .refl) fun {b₁ b₂} hne _ hb₁ hb₂ hl₁ hl₂ _ _ _ => ?_
  rw [Step.meets_bind]
  refine (h.unwrap_outcome hb₁ hl₁ hfree).mono ?_ fun _ _ hfalse => hfalse.elim
  rintro _ a₁ ⟨rfl, hm₁, hu₁⟩
  have hb₂' : a₁.arnodes.body? second = some b₂ := hu₁.body?_of_ne hb₂ (Ne.symm hne)
  rw [Step.meets_bind]
  refine ((h.move hm₁).unwrap_outcome hb₂' hl₂ hfree).mono ?_ fun _ _ hfalse => hfalse.elim
  rintro _ a₂ ⟨rfl, hm₂, _⟩
  have hd : Drifts free limits ripe a a₂ := hm₁.drifts.trans hm₂.drifts
  have hnodup : (b₁.data.members ++ b₂.data.members).Nodup := by
    refine List.Nodup.append (h.grounded.owned.nodup hb₁) (h.grounded.owned.nodup hb₂) fun m hm hm' => ?_
    exact hne (h.grounded.owned.eq_of_mem hb₁ hb₂ hm hm')
  rw [Step.meets_bind]
  refine ((h.drifts hd).rebuild_outcome hfree hnodup).mono (fun merged a₃ hd₃ => ?_) fun _ _ hd₃ => hd.trans hd₃
  exact (hd.trans hd₃).trans (Move.recount _ rfl).drifts

theorem adrift_split (hfree : free l) (id : ArNodeId) (cells : List (List NodeId)) :
    Step.Within (Adrift net free limits ripe) (split l id cells) := by
  refine adrift_of_coherent fun {a} h => ?_
  refine split_meets_of_checked (fun _ => .refl) fun _ hb hl hpartition _ => ?_
  obtain ⟨_, hnodup, _⟩ := checkPartition_ok hpartition
  rw [Step.meets_bind, Step.meets_discard]
  refine (h.unwrap_outcome hb hl hfree).mono ?_ fun _ _ hfalse => hfalse.elim
  rintro _ a₁ ⟨_, hm₁, _⟩
  rw [Step.meets_bind]
  refine (Step.Meets.mapM (fun _ _ a' => Drifts free limits ripe a a') hm₁.drifts ?_).imp
    fun parts a₂ hd₂ => hd₂.trans (Move.recount _ rfl).drifts
  intro done parts cell rest a' hcells hd
  have hcell : cell.Nodup := (List.nodup_flatten.mp hnodup).1 cell (by simp [hcells])
  exact ((h.drifts hd).rebuild_outcome hfree hcell).mono (fun _ _ hd' => hd.trans hd') fun _ _ hd' => hd.trans hd'

end Regrouping

section Preprocessing

/-- Layer `l` has got the given new arnodes, and the arnodes before are as they were. -/
structure Grown (free : Nat → Prop) (limits : NeuronRef → Bound α → Prop) (ripe : Abstraction α → Prop)
    (a a' : Abstraction α) (l : Nat) (created : List ArNodeId) : Prop where
  drifts : Drifts free limits ripe a a'
  kept : ∀ {x b}, a.arnodes.body? x = some b → a'.arnodes.body? x = some b
  made : ∀ x ∈ created, ∃ b, a'.arnodes.body? x = some b ∧ b.location.layer = l

theorem grown_self (a : Abstraction α) (l : Nat) : Grown free limits ripe a a l [] := ⟨.refl, id, by simp⟩

theorem Grown.trans {a'' : Abstraction α} {created created' : List ArNodeId} (h : Grown free limits ripe a a' l created)
    (h' : Grown free limits ripe a' a'' l created') : Grown free limits ripe a a'' l (created ++ created') := by
  refine ⟨h.drifts.trans h'.drifts, fun hb => h'.kept (h.kept hb), fun x hx => ?_⟩
  rcases List.mem_append.mp hx with hx | hx
  · obtain ⟨b, hb, hl⟩ := h.made x hx
    exact ⟨b, h'.kept hb, hl⟩
  · exact h'.made x hx

/-- A node that is not classified has no holder. -/
theorem Grounded.holder?_of_unprocessed (h : a.Grounded) {m : NodeId} {c : NodeInfo α} (hm : a.info? m = some c)
    (hc : c.place.category = .unprocessed) : a.holder? m = none := by
  refine Option.eq_none_iff_forall_ne_some.mpr fun x hx => ?_
  obtain ⟨b, hb, _, _, hcategory⟩ := h.owned.exists_of_holder? hx hm
  exact h.arnodes.cemented hb (hcategory.symm.trans hc)

/-- Wrapping a node by itself. -/
theorem Grounded.wrapOne_outcome (h : a.Grounded) (l : Nat) (m : NodeId) :
    (wrap l [m]).Meets a (fun id a' => Grown free limits ripe a a' l [id])
      (fun _ a' => Drifts free limits ripe a a') := by
  refine (h.wrap_outcome l (List.nodup_singleton m)).mono ?_ fun _ _ hlapsed => .single (.lapse hlapsed)
  rintro id a' ⟨b, hl, hw⟩
  refine ⟨(Move.wrap (.inl rfl) hw).drifts, hw.body?_of_old, fun x hx => ⟨b, ?_, hl⟩⟩
  rw [List.mem_singleton.mp hx]
  exact hw.body?_self

theorem Coherent.wrapAll_outcome (h : Coherent net a) (l : Nat) (pieces : List NodeId) :
    (pieces.mapM fun piece => wrap l [piece]).Meets a (fun created a' => Grown free limits ripe a a' l created)
      (fun _ a' => Drifts free limits ripe a a') := by
  refine Step.Meets.mapM (fun _ created a' => Grown free limits ripe a a' l created) (grown_self a l) ?_
  intro _ created piece _ a' _ hgrown
  exact ((h.drifts hgrown.drifts).grounded.wrapOne_outcome l piece).mono (fun _ _ hone => hgrown.trans hone)
    fun _ _ hd => hgrown.drifts.trans hd

/-- Classifying a node leaves the arnodes alone, so they grow as the pieces are wrapped. -/
private theorem Resolved.grown {a₁ : Abstraction α} {id : NodeId} {pieces : List NodeId} {created : List ArNodeId}
    (hr : Resolved a a₁ l id pieces) (hmove : Move free a a₁) (h : Grown free limits ripe a₁ a' l created) :
    Grown free limits ripe a a' l created :=
  ⟨hmove.drifts.trans h.drifts, fun hb => h.kept (by rw [hr.arnodes_eq, hb]), h.made⟩

theorem Coherent.classifyNode_outcome (h : Coherent net a) (l : Nat) (id : NodeId) :
    (classifyNode l id).Meets a (fun created a' => Grown free limits ripe a a' l created ∧
        ∀ {c}, a'.info? id = some c → c.place.category ≠ .unprocessed)
      (fun _ a' => Drifts free limits ripe a a') := by
  unfold classifyNode
  rw [Step.meets_bind, Step.meets_read]
  cases a.layer l with
  | error e => exact .refl
  | ok layer =>
    dsimp only
    rw [Step.meets_bind, Step.meets_read]
    cases hv : a.nodes.get? id with
    | none => rw [node, Arena.get_of_none hv]
    | some v =>
      rw [node, Arena.get_of_get? hv]
      dsimp only
      rw [Step.meets_bind, Step.meets_ofExcept, checkLayer]
      by_cases hl : v.location.layer = l
      · rw [if_pos hl]
        dsimp only
        rw [Step.meets_ite]
        refine ⟨fun _ => .refl, fun hcategory => ?_⟩
        rw [not_not] at hcategory
        have hplace : v.location = ⟨l, .unprocessed, v.location.slot⟩ := by rw [← hl, ← hcategory]
        have hfree := h.grounded.holder?_of_unprocessed (info?_of_get? hv) hcategory
        rw [Step.meets_ite]
        constructor
        · intro _
          rw [Step.meets_bind]
          refine (promote_meets h.grounded.nodes hv hplace).mono ?_ fun _ _ hfalse => hfalse.elim
          rintro _ a₁ ⟨slot, hbecomes⟩
          have hr := resolved_promote hv hplace hbecomes
          have hmove : Move free a a₁ := .classify hbecomes.sound hfree hr
          rw [Step.meets_bind]
          refine ((h.move hmove).grounded.wrapOne_outcome l id).mono ?_ fun _ _ hd => hmove.drifts.trans hd
          exact fun _ _ hgrown => ⟨hr.grown hmove hgrown,
            fun hm hc => hr.classified ((h.move hmove).thins hgrown.drifts hm hc) hc⟩
        · intro hinner
          have hedge := h.grounded.nodes.exists_edge hv (not_or.mp hinner).2
          rw [Step.meets_bind]
          refine (divide_meets h.grounded.nodes hv hplace).mono ?_ ?_
          · rintro _ a₁ ⟨made, rfl, hdivided⟩
            have hr := hdivided.resolved hv hl hedge
            have hmove : Move free a a₁ := .classify hdivided.becomes.sound hfree hr
            refine ((h.move hmove).wrapAll_outcome l _).mono ?_ fun _ _ hd => hmove.drifts.trans hd
            exact fun _ _ hgrown => ⟨hr.grown hmove hgrown,
              fun hm hc => hr.classified ((h.move hmove).thins hgrown.drifts hm hc) hc⟩
          · rintro _ a' (⟨_, rfl⟩ | ⟨_, hcrowded⟩)
            · exact .refl
            · exact .single (.crowd hv hl hcrowded)
      · rw [if_neg hl]

/-- Preprocessing a layer, in whatever state. If it succeeds, no node of the layer waits to be classified. -/
theorem Coherent.preprocess_outcome (h : Coherent net a) (l : Nat) :
    (preprocess l).Meets a (fun created a' => Grown free limits ripe a a' l created ∧ a'.Cleared l)
      (fun _ a' => Drifts free limits ripe a a') := by
  unfold preprocess
  rw [Step.meets_bind, Step.meets_read]
  cases hlayer : a.layer l with
  | error e => exact .refl
  | ok layer =>
    dsimp only
    rw [Step.meets_bind]
    refine (Step.Meets.mapM (fun done created a' => Grown free limits ripe a a' l created.flatten ∧
      ∀ entry ∈ done, ∀ {c}, a'.info? entry.2 = some c → c.place.category ≠ .unprocessed)
      ⟨grown_self a l, by simp⟩ ?_).imp ?_
    · rintro done created entry _ a' _ ⟨hgrown, hdone⟩
      have hcoherent := h.drifts hgrown.drifts
      refine (hcoherent.classifyNode_outcome l entry.2).mono (fun new a'' ⟨hnew, hclassified⟩ => ⟨?_, ?_⟩)
        fun _ _ hd => hgrown.drifts.trans hd
      · rw [List.flatten_append, List.flatten_singleton]
        exact hgrown.trans hnew
      · intro entry' hentry c hc hwaits
        rcases List.mem_append.mp hentry with hold | hlast
        · exact hdone entry' hold (hcoherent.thins hnew.drifts hc hwaits) hwaits
        · rw [List.mem_singleton.mp hlast] at hc
          exact hclassified hc hwaits
    · -- A node that still waits has waited from the start, so it was an entry of the table.
      rintro created a' ⟨hgrown, hdone⟩
      refine ⟨hgrown, fun {m c} hm hl hc => ?_⟩
      have hlisted := (h.grounded.nodes.mem_unprocessed_iff (getElem?_of_layer hlayer)).mpr
        ⟨c, h.thins hgrown.drifts hm hc, hl, hc⟩
      obtain ⟨entry, hentry, rfl⟩ := List.mem_map.mp hlisted
      exact hdone entry hentry hm hc

end Preprocessing

end Abstraction

namespace Network

variable [Scalar α] {net : Feedforward α} {property : Property α} {free : Nat → Prop} {ripe : Abstraction α → Prop}
  {n n' : Network α}

/-- The abstraction is coherent, and the property and the ranges of the inputs are still the same. -/
structure Steady (net : Feedforward α) (property : Property α) (n : Network α) : Prop where
  coherent : Abstraction.Coherent net n.abstraction
  property_eq : n.property = property
  inputs_eq : n.inputs = net.inputs

/-- A network that was just taken up is steady. -/
theorem build_steady {options : Options} {start : Network α} (h : build net property options = .ok start) :
    Steady net property start := by
  have horderly := build_orderly h
  exact ⟨⟨horderly.woven.grounded, fun _ _ hx => horderly.represents.faithful.origin_layer hx,
    horderly.represents.roles_eq⟩, horderly.property_eq, horderly.inputs_eq⟩

theorem Steady.length_eq (h : Steady net property n) : n.abstraction.layers.length = net.depth := by
  have hlength := congrArg List.length h.coherent.roles_eq
  simpa [Abstraction.roles] using hlength

/-- From a steady network only the known things happen, and they keep it steady. -/
def Adrift (net : Feedforward α) (property : Property α) (free : Nat → Prop) (ripe : Abstraction α → Prop)
    (n n' : Network α) : Prop :=
  Steady net property n → Steady net property n' ∧
    Abstraction.Drifts free (net.Limits property) ripe n.abstraction n'.abstraction

instance : Std.Refl (Adrift net property free ripe) := ⟨fun _ h => ⟨h, .refl⟩⟩

instance : IsTrans (Network α) (Adrift net property free ripe) := by
  refine ⟨fun _ _ _ hfirst hnext h => ?_⟩
  obtain ⟨h', hd⟩ := hfirst h
  exact ⟨(hnext h').1, hd.trans (hnext h').2⟩

/-- It is enough to look at the abstraction if nothing else changes. -/
theorem adrift_of_drifts {a : Abstraction α}
    (hd : Abstraction.Coherent net n.abstraction → Abstraction.Drifts free (net.Limits property) ripe n.abstraction a) :
    Adrift net property free ripe n { n with abstraction := a } := fun h =>
  ⟨⟨h.coherent.drifts (hd h.coherent), h.property_eq, h.inputs_eq⟩, hd h.coherent⟩

theorem adrift_onAbstraction {β : Type} {step : Step (Abstraction α) β}
    (h : Step.Within (Abstraction.Adrift net free (net.Limits property) ripe) step) :
    Step.Within (Adrift net property free ripe) (onAbstraction step) := h.zoom fun _ _ hd => adrift_of_drifts hd

theorem adrift_moveFrontier (f : Frontier → Frontier) :
    Step.Within (Adrift net property free ripe) (moveFrontier f : Step (Network α) Unit) :=
  fun _ h => ⟨⟨h.coherent, h.property_eq, h.inputs_eq⟩, .refl⟩

section Stages

/-- Preprocessing the next layer, in whatever state and with whatever outcome. -/
theorem adrift_preprocessNext : Step.Within (Adrift net property free ripe) (preprocessNext : Step (Network α) (Option Nat)) := by
  intro n
  by_cases h : Steady net property n
  swap
  · exact Step.meets_of_forall _ _ (fun _ _ h' => absurd h' h) fun _ _ h' => absurd h' h
  unfold preprocessNext
  rw [Step.meets_bind, Step.meets_get]
  cases n.frontier.preprocess with
  | none => exact refl_of (Adrift net property free ripe) n
  | some l =>
    dsimp only
    rw [Step.meets_bind, onAbstraction, Step.meets_zoom]
    refine (h.coherent.preprocess_outcome l).mono ?_ fun _ _ hd => adrift_of_drifts fun _ => hd
    rintro created a₁ ⟨hgrown, _⟩
    have h₁ : Steady net property { n with abstraction := a₁ } :=
      ⟨h.coherent.drifts hgrown.drifts, h.property_eq, h.inputs_eq⟩
    have hgrew : Adrift net property free ripe n { n with abstraction := a₁ } := adrift_of_drifts fun _ => hgrown.drifts
    have hbounds : ∀ {n'}, Bounded net property { n with abstraction := a₁ } n' → Adrift net property free ripe n n' := by
      intro n' hbounded
      rw [hbounded.rest_eq]
      exact adrift_of_drifts fun _ => hgrown.drifts.trans (hbounded.changes free ripe).drifts
    have hdone : Step.Within (Adrift net property free ripe)
        (do moveFrontier fun f => { f with preprocess := Frontier.before? l }
            return some l : Step (Network α) (Option Nat)) := (adrift_moveFrontier _).bind fun _ => .pure _
    rw [Step.meets_ite]
    constructor
    · rintro rfl
      rw [Step.meets_bind]
      refine (boundAll_meets h₁.coherent.grounded h₁.coherent.aligned hgrown.made
        fun {n' x b} hbounded hg haligned hb hbl => ?_).mono (fun _ _ hb => hdone.after (hbounds hb.1))
        fun _ _ hfail => hbounds hfail.2
      refine boundInput_meets hg haligned ?_ hb hbl
      rw [hbounded.rest_eq]
      exact h.inputs_eq
    · intro _
      rw [Step.meets_bind, Step.meets_get, Step.meets_ite]
      constructor
      · intro hlast
        rw [Step.meets_bind]
        refine (boundAll_meets h₁.coherent.grounded h₁.coherent.aligned hgrown.made
          fun {n' x b} hbounded hg haligned hb hbl => ?_).mono (fun _ _ hb => hdone.after (hbounds hb.1))
          fun _ _ hfail => hbounds hfail.2
        refine (boundOutput_meets hg haligned ?_ hb ?_).mono (fun _ _ hb => hb) fun _ _ hfalse => hfalse.elim
        · rw [hbounded.rest_eq]
          exact h.property_eq
        · rw [hbl, ← h₁.length_eq]
          exact hlast
      · intro _
        exact hdone.after hgrew

theorem adrift_forwardNext : Step.Within (Adrift net property free ripe) (forwardNext : Step (Network α) (Option Nat)) := by
  refine .bind .get fun n => ?_
  dsimp only
  split
  · exact .pure _
  · next l _ =>
    refine .ite (.bind (.throw _) fun _ => ?_) ?_
    all_goals
      refine .bind (adrift_onAbstraction (Abstraction.adrift_forwardActivateLayer l)) fun _ => ?_
      exact .bind (adrift_moveFrontier _) fun _ => .pure _

theorem adrift_fullNext : Step.Within (Adrift net property free ripe) (fullNext : Step (Network α) (Option Nat)) := by
  refine .bind .get fun n => ?_
  dsimp only
  split
  · exact .pure _
  · next l _ =>
    refine .ite (.bind (.throw _) fun _ => ?_) ?_
    all_goals
      refine .bind .get fun n => .bind (adrift_onAbstraction (Abstraction.adrift_confirmLayer l _)) fun _ => ?_
      exact .bind (adrift_moveFrontier _) fun _ => .pure _

theorem adrift_advance : Step.Within (Adrift net property free ripe) (advance : Step (Network α) Bool) :=
  within_advance adrift_preprocessNext adrift_forwardNext adrift_fullNext

theorem adrift_complete : Step.Within (Adrift net property free ripe) (complete : Step (Network α) Unit) :=
  within_complete adrift_advance

end Stages

section Regrouping

/-- A step on a layer that may be regrouped, once this was checked. -/
theorem adrift_of_requireRefinable {β : Type} {l : Nat} {step : Step (Abstraction α) β}
    (h : net.Regroupable l → Step.Within (Abstraction.Adrift net net.Regroupable (net.Limits property) ripe) step) :
    Step.Within (Adrift net property net.Regroupable ripe) (do
      Step.read fun n : Network α => n.requireRefinable l
      onAbstraction step) := by
  intro n
  by_cases hn : Steady net property n
  swap
  · exact Step.meets_of_forall _ _ (fun _ _ h' => absurd h' hn) fun _ _ h' => absurd h' hn
  rw [Step.meets_bind, Step.meets_read]
  cases hl : n.requireRefinable l with
  | error e => exact refl_of (Adrift net property net.Regroupable ripe) n
  | ok _ => exact adrift_onAbstraction (h (regroupable_of_requireRefinable hn.inputs_eq hn.length_eq hl).1) n

theorem adrift_merge (l : Nat) (first second : ArNodeId) :
    Step.Within (Adrift net property net.Regroupable ripe) (merge l first second : Step (Network α) ArNodeId) :=
  adrift_of_requireRefinable fun hl => Abstraction.adrift_merge hl first second

theorem adrift_split (l : Nat) (id : ArNodeId) (cells : List (List NodeId)) :
    Step.Within (Adrift net property net.Regroupable ripe) (split l id cells : Step (Network α) (List ArNodeId)) :=
  adrift_of_requireRefinable fun hl => Abstraction.adrift_split hl id cells

end Regrouping

section Queries

/-- Giving the abstract query in a state in which equations may be brought up to date. -/
theorem Steady.abstractQuery_outcome (h : Steady net property n) (hripe : ripe n.abstraction) :
    abstractQuery.Meets n (fun _ n' => Adrift net property free ripe n n') Step.Never := by
  refine (abstractQuery_meets h.coherent.grounded.arnodes).imp ?_
  rintro q n' ⟨rebuilt, a, hrefresh, _, rfl, rfl⟩
  refine adrift_of_drifts fun _ => Abstraction.Changes.drifts ?_
  exact .tail (.single (.refresh hripe hrefresh)) (.prepare rfl)

theorem adrift_countCall (event : Event) :
    Step.Within (Adrift net property free ripe) (countCall event : Step (Network α) Unit) := by
  intro n h
  have hd : Abstraction.Drifts free (net.Limits property) ripe n.abstraction
    (countCall event |>.outcome n).2.abstraction := (Abstraction.Move.recount _ rfl).drifts
  exact ⟨⟨h.coherent.drifts hd, h.property_eq, h.inputs_eq⟩, hd⟩

variable {σ : Type}

theorem adrift_ask (solver : Solver σ α) (options : SolveOptions) (event : Event) (q : Query α) :
    Step.Within (fun s s' : Session σ α => Adrift net property free ripe s.network s'.network)
      (Session.ask solver options event q) := by
  intro s
  unfold Session.ask
  rw [Step.meets_bind, Session.onNetwork, Step.meets_zoom]
  refine (adrift_countCall event s.network).imp fun _ n' hn' => ?_
  rw [Session.onSolver, Step.meets_zoom]
  exact Step.meets_of_forall _ _ (fun _ _ => hn') fun _ _ => hn'

instance : IsTrans (Session σ α) (fun s s' => Adrift net property free ripe s.network s'.network) :=
  ⟨fun _ _ _ h h' => trans_of (Adrift net property free ripe) h h'⟩

instance : Std.Refl (fun s s' : Session σ α => Adrift net property free ripe s.network s'.network) :=
  ⟨fun s => refl_of (Adrift net property free ripe) s.network⟩

/-- Verification in a state in which equations may be brought up to date. -/
theorem Steady.verify_outcome {s : Session σ α} (h : Steady net property s.network) (hripe : ripe s.network.abstraction)
    (solver : Solver σ α) (options : SolveOptions) :
    (Session.verify solver options).Meets s (fun _ s' => Adrift net property free ripe s.network s'.network)
      (fun _ s' => Adrift net property free ripe s.network s'.network) := by
  unfold Session.verify
  rw [Step.meets_bind, Step.meets_get, Step.meets_ite]
  refine ⟨fun _ => refl_of (Adrift net property free ripe) s.network, fun _ => ?_⟩
  rw [Step.meets_bind, Session.onNetwork, Step.meets_zoom]
  have hquery : abstractQuery.Meets s.network (fun _ n' => Adrift net property free ripe s.network n') Step.Never :=
    h.abstractQuery_outcome hripe
  refine hquery.mono (fun q n' hn' => ?_) fun _ _ hfalse => hfalse.elim
  have hrest : Step.Within (fun s s' : Session σ α => Adrift net property free ripe s.network s'.network) (do
      let abstracted ← Session.ask solver options .abstractSolve q
      if !abstracted.isSat then return .unsat
      let inputs ← Step.read fun s => s.network.inputsOf abstracted.assignment
      let concrete := (← get).network.concrete
      let replay ← Session.ask solver options .concreteSolve (concrete.pinned inputs)
      if !replay.isSat then return .spurious
      return (.sat ⟨inputs, concrete.outputs.map replay.assignment.value⟩ : Verdict α)) := by
    refine .bind (adrift_ask solver options _ q) fun abstracted => .ite (.pure _) ?_
    refine .bind (.read _) fun inputs => .bind .get fun s => ?_
    exact .bind (adrift_ask solver options _ _) fun replay => .ite (.pure _) (.pure _)
  exact hrest.after (s := s) hn'

end Queries

/-- Whatever a call does to a steady network, and whether or not it succeeds. -/
theorem Steady.after (h : Steady net property n) (hripe : ripe n.abstraction) (c : Call α) :
    Adrift net property net.Regroupable ripe n (c.after n) := by
  refine Call.after_of_meets ?_
  cases c with
  | preprocess => exact adrift_preprocessNext.discard n
  | forward => exact adrift_forwardNext.discard n
  | full => exact adrift_fullNext.discard n
  | advance => exact adrift_advance.discard n
  | complete => exact adrift_complete n
  | merge l first second => exact (adrift_merge l first second).discard n
  | split l id cells => exact (adrift_split l id cells).discard n
  | abstractQuery =>
    rw [Call.run, Step.meets_discard]
    exact (h.abstractQuery_outcome hripe).mono (fun _ _ hn' => hn') fun _ _ hfalse => hfalse.elim
  | verify solver options state =>
    exact Call.meets_verify (h.verify_outcome (s := ⟨n, state⟩) hripe solver options)

/-- All that has happened to the abstraction of a network since it was taken up. -/
theorem ReachesWithin.adrift {options : Options} {start : Network α} (hbuild : build net property options = .ok start)
    (h : ReachesWithin (fun n => ripe n.abstraction) start n) : Steady net property n ∧
      Abstraction.Drifts net.Regroupable (net.Limits property) ripe start.abstraction n.abstraction := by
  induction h with
  | refl => exact ⟨build_steady hbuild, .refl⟩
  | step h c _ ih =>
    obtain ⟨hsteady, hdrifts⟩ := ih
    obtain ⟨hsteady', hdrifts'⟩ := hsteady.after h.holds c hsteady
    exact ⟨hsteady', hdrifts.trans hdrifts'⟩

theorem Reaches.adrift {options : Options} {start : Network α} (hbuild : build net property options = .ok start)
    (h : Reaches start n) : Steady net property n ∧
      Abstraction.Drifts net.Regroupable (net.Limits property) (fun _ => True) start.abstraction n.abstraction :=
  (h.within fun _ => trivial).adrift hbuild

end Network

end ReluAbstraction
