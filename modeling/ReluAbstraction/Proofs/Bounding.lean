import ReluAbstraction.Proofs.Constraints
import ReluAbstraction.Proofs.Refreshing

/-!
# Bounds stay

The bounds that belong to a neuron are set on the variables of the arnode that stands for it when its layer is
preprocessed. They go only when the arnode is unwrapped, which does not happen in the boundary layers.
-/

namespace ReluAbstraction.Abstraction

variable {α : Type} {a a' a'' : Abstraction α} {x : ArNodeId} {b : Body (ArNodeData α)}

/-- The bounds that belong to the neuron of the first node of an arnode are set. -/
def Sets (limits : NeuronRef → Bound α → Prop) (a : Abstraction α) (x : ArNodeId) : Prop :=
  ∀ ⦃b m c bound⦄, a.arnodes.body? x = some b → b.data.members.head? = some m → a.info? m = some c →
    limits c.origin bound → a.encoding.query.HasBound b.data.vars.incoming bound

/-- The arnode is still there, with the same nodes and variables, and has kept its bounds. -/
structure Lasts (a a' : Abstraction α) (x : ArNodeId) (b : Body (ArNodeData α)) : Prop where
  live : a.arnodes.body? x = some b
  body? : ∃ b', a'.arnodes.body? x = some b' ∧ b'.location = b.location ∧ b'.data.vars = b.data.vars ∧
    b'.data.members = b.data.members
  info?_eq : ∀ m ∈ b.data.members, a'.info? m = a.info? m
  bounds : ∀ {bound}, a.encoding.query.HasBound b.data.vars.incoming bound →
    a'.encoding.query.HasBound b.data.vars.incoming bound

namespace Lasts

theorem refl (hb : a.arnodes.body? x = some b) : Lasts a a x b :=
  ⟨hb, ⟨b, hb, rfl, rfl, rfl⟩, fun _ _ => rfl, fun h => h⟩

theorem trans (h : Lasts a a' x b) {b' : Body (ArNodeData α)} (h' : Lasts a' a'' x b') : Lasts a a'' x b := by
  obtain ⟨c, hc, hlocation, hvars, hmembers⟩ := h.body?
  rw [h'.live] at hc
  cases hc
  obtain ⟨c, hc, hlocation', hvars', hmembers'⟩ := h'.body?
  refine ⟨h.live, ⟨c, hc, hlocation'.trans hlocation, hvars'.trans hvars, hmembers'.trans hmembers⟩,
    fun m hm => ?_, ?_⟩
  · rw [h'.info?_eq m (hmembers ▸ hm), h.info?_eq m hm]
  · intro bound hbound
    have hstep := h.bounds hbound
    rw [← hvars] at hstep ⊢
    exact h'.bounds hstep

/-- An arnode that lasts keeps its bounds set. -/
theorem sets {limits : NeuronRef → Bound α → Prop} (h : Lasts a a' x b) (hsets : Sets limits a x) :
    Sets limits a' x := by
  intro b' m c bound hb' hm hc hbound
  obtain ⟨b'', hb'', _, hvars, hmembers⟩ := h.body?
  rw [hb'] at hb''
  cases hb''
  rw [hmembers] at hm
  have hmem : m ∈ b.data.members := List.mem_of_mem_head? (by rw [hm]; rfl)
  rw [h.info?_eq m hmem] at hc
  rw [hvars]
  exact h.bounds (hsets h.live hm hc hbound)

end Lasts

theorem Recast.sets {limits : NeuronRef → Bound α → Prop} (h : Recast a a')
    (hbounds : ∀ {v bound}, a.encoding.query.HasBound v bound → a'.encoding.query.HasBound v bound)
    (hsets : Sets limits a x) : Sets limits a' x := by
  intro b' m c bound hb' hm hc hbound
  obtain ⟨b, hb, _, hmembers, hvars, _⟩ := h.exists_body? hb'
  rw [info?_of_nodePart h.nodePart_eq] at hc
  rw [← hvars]
  exact hbounds (hsets hb (hmembers ▸ hm) hc hbound)

variable [Scalar α] {free : Nat → Prop}

/-- In a layer that is not regrouped, a move leaves every arnode its bounds. -/
theorem Move.lasts (h : Move free a a') (hg : a.Grounded) (hb : a.arnodes.body? x = some b)
    (hfree : ¬free b.location.layer) : Lasts a a' x b := by
  cases h with
  | classify _ hid hr =>
    refine ⟨hb, ⟨b, by rw [hr.arnodes_eq, hb], rfl, rfl, rfl⟩, fun m hm => ?_,
      fun hbound => by rw [hr.encoding_eq]; exact hbound⟩
    have hholder := (hg.owned.mem_members_iff hb).mp hm
    exact hr.info?_of_holder? hid hholder
  | @wrap members id b₀ _ hw =>
    obtain ⟨e, hborrowed, hencoding⟩ := hw.borrowed
    refine ⟨hb, ⟨b, hw.body?_of_old hb, rfl, rfl, rfl⟩, fun m _ => by rw [info?_of_nodePart hw.nodePart_eq],
      fun {bound} hbound => ?_⟩
    rw [hencoding]
    exact hborrowed.hasBound_iff.mpr hbound
  | @unwrap id b₀ hlayer hu =>
    have hne : x ≠ id := by
      rintro rfl
      rw [hu.live] at hb
      cases hb
      exact hfree hlayer
    obtain ⟨e, hremarked, hencoding⟩ := hu.returned
    refine ⟨hb, ⟨b, hu.body?_of_ne hb hne, rfl, rfl, rfl⟩,
      fun m _ => by rw [info?_of_nodePart hu.nodePart_eq], fun {bound} hbound => ?_⟩
    have hother : ¬b₀.data.vars.Uses b.data.vars.incoming :=
      fun huses => hne (hg.vars.disjoint hb hu.live (.inl rfl) huses)
    rw [hencoding]
    exact Encoding.hasBound_releaseVars_iff.mpr ⟨hother, by rw [hremarked.query_eq]; exact hbound⟩
  | activate _ _ ha =>
    refine ⟨hb, ?_, fun m _ => by rw [info?_of_nodePart ha.nodePart_eq],
      fun hbound => by rw [ha.remarked.query_eq]; exact hbound⟩
    rw [ha.body?_eq]
    split
    · next hx =>
      rw [← hx, hb, Option.map_some]
      exact ⟨_, rfl, rfl, rfl, rfl⟩
    · exact ⟨b, hb, rfl, rfl, rfl⟩
  | recount _ heq =>
    subst heq
    exact ⟨hb, ⟨b, hb, rfl, rfl, rfl⟩, fun _ _ => rfl, fun hbound => hbound⟩

theorem Moves.lasts (h : Moves free a a') (hg : a.Grounded) (hb : a.arnodes.body? x = some b)
    (hfree : ¬free b.location.layer) : a'.Grounded ∧ Lasts a a' x b := by
  induction h with
  | refl => exact ⟨hg, .refl hb⟩
  | tail _ hmove ih =>
    obtain ⟨hg', hlasts⟩ := ih
    obtain ⟨b', hb', hlocation, _⟩ := hlasts.body?
    exact ⟨hmove.grounded hg', hlasts.trans (hmove.lasts hg' hb' (by rw [hlocation]; exact hfree))⟩

/-- Bringing equations up to date leaves the bounds alone. -/
theorem preserves_hasBound_refreshEquations (v : VarId) (bound : Bound α) :
    Step.Preserves (fun a : Abstraction α => a.encoding.query.HasBound v bound) refreshEquations := by
  refine .bind (fun _ h => h) fun stale => .foldlM _ _ fun rebuilt id => .bind .get fun a => .ite ?_ (.pure _)
  refine .bind (.bind (.read _) fun arnode => .bind (.read _) fun equation => ?_) fun _ => .pure _
  refine .bind ?_ fun _ a => Encoding.hasBound_replaceEquation.mpr
  intro a
  rw [onArnodes, Step.meets_zoom]
  exact Step.meets_of_forall _ _ (fun _ _ h => h) fun _ _ h => h

end ReluAbstraction.Abstraction
