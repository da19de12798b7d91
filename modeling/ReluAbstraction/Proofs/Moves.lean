import ReluAbstraction.Proofs.Weaving

/-!
# Moves

Whatever a call does to the abstraction is a sequence of a few kinds of moves: nodes are classified, wrapped and unwrapped,
arnodes are activated, events are counted. Outside the layers that may be regrouped, nodes are only wrapped one by one and
nothing is unwrapped. A fact kept by every move is kept by every call.
-/

namespace ReluAbstraction.Abstraction

variable {α : Type}

theorem ArnodesSound.of_arnodePart {a a' : Abstraction α} (h : a.ArnodesSound) (hpart : a'.arnodePart = a.arnodePart) :
    a'.ArnodesSound := by
  have harnodes : a'.arnodes = a.arnodes := congrArg (fun p => p.2.1) hpart
  have hlayers : a'.layers.map Layer.arnodeSide = a.layers.map Layer.arnodeSide := congrArg Prod.fst hpart
  have hchains : a'.arnodeChains = a.arnodeChains := by
    have hsnd := congrArg (List.map Prod.snd) hlayers
    simpa [arnodeChains, Function.comp_def, Layer.arnodeSide] using hsnd
  refine ⟨?_, ?_⟩
  · rw [harnodes]
    exact h.graph
  · rw [harnodes, hchains]
    exact h.housed

theorem VarsSound.of_arnodePart {a a' : Abstraction α} (h : a.VarsSound) (hpart : a'.arnodePart = a.arnodePart) :
    a'.VarsSound := by
  have harnodes : a'.arnodes = a.arnodes := congrArg (fun p => p.2.1) hpart
  have hencoding : a'.encoding = a.encoding := congrArg (fun p => p.2.2.1) hpart
  have hboundary : a'.boundary = a.boundary := by
    funext l
    simp only [boundary, roles_of_arnodePart hpart]
  refine ⟨?_, ?_, ?_, ?_⟩
  · rw [hencoding]
    exact h.pool
  · rw [harnodes, hencoding]
    exact h.used
  · rw [harnodes, hboundary]
    exact h.isBoundary_eq
  · rw [harnodes]
    exact h.disjoint

variable {a a' : Abstraction α}

/-- What leaves the half of the arnodes, the nodes they hold and all holders alone. -/
theorem Owned.of_held [Scalar α] (ho : a.Owned) (hpart : a'.arnodePart = a.arnodePart)
    (hinfo : ∀ {m x}, a.holder? m = some x → a'.info? m = a.info? m) (hholder : ∀ m, a'.holder? m = a.holder? m) :
    a'.Owned := by
  have hbody : a'.arnodes.body? = a.arnodes.body? := by rw [show a'.arnodes = a.arnodes from congrArg (·.2.1) hpart]
  refine ⟨fun {x b} hb => ?_, fun {x b} hb => ?_, fun {x b} hb m hm => ?_, fun {m x} hm => ?_, fun {x b} hb => ?_⟩
  · rw [hbody] at hb
    exact ho.ne_nil hb
  · rw [hbody] at hb
    exact ho.nodup hb
  · rw [hbody] at hb
    obtain ⟨c, hc, hm, hplace⟩ := ho.member hb m hm
    exact ⟨c, by rw [hinfo hm, hc], by rw [hholder, hm], hplace⟩
  · rw [hholder] at hm
    rw [hbody]
    exact ho.holder hm
  · rw [hbody] at hb
    have hmap : b.data.members.map a'.biasOf = b.data.members.map a.biasOf := by
      refine List.map_congr_left fun m hm => ?_
      obtain ⟨c, _, hm, _⟩ := ho.member hb m hm
      rw [biasOf, biasOf, hinfo hm]
    rw [show a'.policy = a.policy from congrArg (·.2.2.2) hpart, hmap]
    exact ho.bias_eq hb

theorem Grounded.of_held [Scalar α] (h : a.Grounded) (hnodes : a'.NodesSound) (hpart : a'.arnodePart = a.arnodePart)
    (hinfo : ∀ {m x}, a.holder? m = some x → a'.info? m = a.info? m) (hholder : ∀ m, a'.holder? m = a.holder? m) :
    a'.Grounded :=
  ⟨hnodes, h.arnodes.of_arnodePart hpart, h.owned.of_held hpart hinfo hholder, h.vars.of_arnodePart hpart⟩

namespace Resolved

variable {l : Nat} {id : NodeId} {pieces : List NodeId}

theorem arnodes_eq (h : Resolved a a' l id pieces) : a'.arnodes = a.arnodes := congrArg (fun p => p.2.1) h.arnodePart_eq

theorem encoding_eq (h : Resolved a a' l id pieces) : a'.encoding = a.encoding :=
  congrArg (fun p => p.2.2.1) h.arnodePart_eq

theorem policy_eq (h : Resolved a a' l id pieces) : a'.policy = a.policy := congrArg (fun p => p.2.2.2) h.arnodePart_eq

/-- A node that has a holder is not the one that is classified, nor a piece of it. -/
theorem ne_of_holder? (h : Resolved a a' l id pieces) (hfree : a.holder? id = none) {m : NodeId} {x : ArNodeId}
    (hm : a.holder? m = some x) : m ≠ id ∧ m ∉ pieces := by
  have hne : m ≠ id := by
    rintro rfl
    rw [hfree] at hm
    cases hm
  refine ⟨hne, fun hmem => ?_⟩
  rw [holder?, h.fresh m hmem hne] at hm
  cases hm

/-- Classifying a node without a holder changes nobody's holder. -/
theorem holder?_eq (h : Resolved a a' l id pieces) (hfree : a.holder? id = none) (m : NodeId) :
    a'.holder? m = a.holder? m := by
  by_cases hmem : m ∈ pieces
  · obtain ⟨b, b', hb, hb', _, _, howner⟩ := h.piece m hmem
    have hold : b.data.owner = none := by simpa [holder?, hb] using hfree
    have hm : a.holder? m = none := by
      by_cases hm : m = id
      · rw [hm, hfree]
      · rw [holder?, h.fresh m hmem hm, Option.bind_none]
    rw [hm, holder?, hb', Option.bind_some, howner hold]
  · by_cases hm : m = id
    · subst hm
      rw [hfree, holder?, h.gone hmem, Option.bind_none]
    · rw [holder?, holder?, h.body?_eq m hm hmem]

theorem info?_of_holder? (h : Resolved a a' l id pieces) (hfree : a.holder? id = none) {m : NodeId} {x : ArNodeId}
    (hm : a.holder? m = some x) : a'.info? m = a.info? m := by
  obtain ⟨hne, hmem⟩ := h.ne_of_holder? hfree hm
  rw [info?, info?, h.body?_eq m hne hmem]

variable [Scalar α]

theorem grounded (h : Resolved a a' l id pieces) (hnodes : a'.NodesSound) (hfree : a.holder? id = none)
    (hg : a.Grounded) : a'.Grounded :=
  hg.of_held hnodes h.arnodePart_eq (fun hm => h.info?_of_holder? hfree hm) (h.holder?_eq hfree)

/-- The folds between arnodes do not see a node without a holder. -/
theorem folded?_eq (h : Resolved a a' l id pieces) (hfree : a.holder? id = none) (ho : a.Owned) (x y : ArNodeId) :
    a'.folded? x y = a.folded? x y := by
  have hbody : a'.arnodes.body? = a.arnodes.body? := by rw [h.arnodes_eq]
  cases hb : a.arnodes.body? x with
  | none => rw [folded?_eq_none_left hb, folded?_eq_none_left (by rw [hbody, hb])]
  | some b =>
    cases hc : a.arnodes.body? y with
    | none => rw [folded?_eq_none_right hc, folded?_eq_none_right (by rw [hbody, hc])]
    | some c =>
      have hedge : ∀ s ∈ b.data.members, ∀ t ∈ c.data.members, a'.nodes.edge? s t = a.nodes.edge? s t := by
        intro s hs t ht
        have hholder := (ho.mem_members_iff hb).mp hs
        have hholder' := (ho.mem_members_iff hc).mp ht
        obtain ⟨hsne, hsmem⟩ := h.ne_of_holder? hfree hholder
        obtain ⟨htne, htmem⟩ := h.ne_of_holder? hfree hholder'
        exact h.edge?_eq s t hsne htne hsmem htmem
      have hb' : a'.arnodes.body? x = some b := by rw [hbody, hb]
      have hc' : a'.arnodes.body? y = some c := by rw [hbody, hc]
      rw [folded?_of_body? hb hc, folded?_of_body? hb' hc', h.policy_eq, touches_congr hedge,
        Policy.fold_congr _ hedge]

end Resolved

variable [Scalar α]

theorem Woven.classify (h : Woven a none) {l : Nat} {id : NodeId} {pieces : List NodeId} (hnodes : a'.NodesSound)
    (hfree : a.holder? id = none) (hr : Resolved a a' l id pieces) : Woven a' none := by
  refine ⟨hr.grounded hnodes hfree h.grounded, fun x y => ?_⟩
  rw [hr.folded?_eq hfree h.grounded.owned, isForward, hr.arnodes_eq]
  exact h.edge?_eq x y

/-- A move, where only the layers in `free` may be regrouped. -/
inductive Move (free : Nat → Prop) (a a' : Abstraction α) : Prop
  /-- A node without a holder is classified. -/
  | classify {l : Nat} {id : NodeId} {pieces : List NodeId} (hnodes : a'.NodesSound) (hfree : a.holder? id = none)
      (h : Resolved a a' l id pieces)
  /-- Nodes are wrapped. -/
  | wrap {members : List NodeId} {id : ArNodeId} {b : Body (ArNodeData α)}
      (hsize : members.length = 1 ∨ free b.location.layer) (h : Wrapped a a' members id b)
  /-- An arnode is unwrapped. -/
  | unwrap {id : ArNodeId} {b : Body (ArNodeData α)} (hlayer : free b.location.layer) (h : Unwrapped a a' id b)
  /-- An arnode is activated; every arnode that gets or loses an incoming edge is marked. -/
  | activate {id : ArNodeId} {state : ActivationState} {edges : ArNodeId → ArNodeId → Option α}
      {marked : ArNodeId → Prop} (hmarks : ∀ x, a.encoding.isStale x = true → marked x)
      (hedges : ∀ x y, edges x y ≠ a.arnodes.edge? x y → marked y) (h : Activated a a' id state edges marked)
  /-- Events are counted. -/
  | recount (metrics : Metrics) (h : a' = { a with metrics })

/-- Any number of moves. -/
abbrev Moves (free : Nat → Prop) : Abstraction α → Abstraction α → Prop := Relation.ReflTransGen (Move free)

theorem Move.mono {free free' : Nat → Prop} (h : Move free a a') (hfree : ∀ l, free l → free' l) : Move free' a a' := by
  cases h with
  | classify hnodes hid h => exact .classify hnodes hid h
  | wrap hsize h => exact .wrap (hsize.imp_right (hfree _)) h
  | unwrap hlayer h => exact .unwrap (hfree _ hlayer) h
  | activate hmarks hedges h => exact .activate hmarks hedges h
  | recount metrics h => exact .recount metrics h

theorem Grounded.recount (h : a.Grounded) (metrics : Metrics) : Grounded { a with metrics } :=
  ⟨⟨h.nodes.graph, h.nodes.housed, h.nodes.movable_iff⟩, ⟨h.arnodes.graph, h.arnodes.housed⟩,
    ⟨h.owned.ne_nil, h.owned.nodup, h.owned.member, h.owned.holder, h.owned.bias_eq⟩,
    ⟨h.vars.pool, h.vars.used, h.vars.isBoundary_eq, h.vars.disjoint⟩⟩

theorem Woven.recount {pending : Option ArNodeId} (h : Woven a pending) (metrics : Metrics) :
    Woven { a with metrics } pending := ⟨h.grounded.recount metrics, h.edge?_eq⟩

theorem Move.grounded {free : Nat → Prop} (h : Move free a a') (hg : a.Grounded) : a'.Grounded := by
  cases h with
  | classify hnodes hid h => exact h.grounded hnodes hid hg
  | wrap hsize h => exact h.grounded hg
  | unwrap hlayer h => exact h.grounded hg
  | activate hmarks hedges h => exact h.recast.grounded hg
  | recount metrics h =>
    rw [h]
    exact hg.recount metrics

/-- What every move keeps, moves keep. -/
theorem Moves.invariant {free : Nat → Prop} {I : Abstraction α → Prop} (h : Moves free a a') (hg : a.Grounded) (hi : I a)
    (hstep : ∀ {b b'}, Move free b b' → b.Grounded → I b → I b') : a'.Grounded ∧ I a' := by
  induction h with
  | refl => exact ⟨hg, hi⟩
  | tail _ hmove ih => exact ⟨hmove.grounded ih.1, hstep hmove ih.1 ih.2⟩

end ReluAbstraction.Abstraction
