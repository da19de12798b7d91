import ReluAbstraction.Proofs.Advancing
import ReluAbstraction.Proofs.Counting
import ReluAbstraction.Proofs.Slots

/-!
# Room for preprocessing

An arnode takes at most two variables, and there are at most as many arnodes as slots for nodes. So where variables are not
limited, only the slots can run out, and five handles for each neuron are enough for all stages.
-/

namespace ReluAbstraction

variable {α : Type}

open Step

namespace Abstraction

section Ample

variable {a a' : Abstraction α} {budget : Nat}

/-- The nodes get by with `budget` slots, and all variables in use belong to arnodes. -/
structure Ample (budget : Nat) (a : Abstraction α) : Prop where
  demand_le : a.demand ≤ budget
  vars_le : IdPool.ceiling ≤ a.encoding.pool.available + 2 * (Arena.handles a.arnodes).card

theorem handles_of_live {a a' : Abstraction α}
    (h : ∀ x, (a'.arnodes.body? x).isSome ↔ (a.arnodes.body? x).isSome) :
    Arena.handles a'.arnodes = Arena.handles a.arnodes := by
  ext x
  simp only [Graph.mem_handles_iff, ← Option.isSome_iff_exists, h]

variable [Scalar α]

/-- A move that regroups nothing takes at most two variables for each new arnode. -/
theorem Move.vars_le (h : Move (fun _ => False) a a')
    (hvars : IdPool.ceiling ≤ a.encoding.pool.available + 2 * (Arena.handles a.arnodes).card) :
    IdPool.ceiling ≤ a'.encoding.pool.available + 2 * (Arena.handles a'.arnodes).card := by
  cases h with
  | classify _ _ h =>
    rw [h.encoding_eq, h.arnodes_eq]
    exact hvars
  | @wrap members id b _ h =>
    obtain ⟨e, hborrowed, hencoding⟩ := h.borrowed
    have havailable : a'.encoding.pool.available + varsNeeded (a.boundary b.location.layer) = a.encoding.pool.available := by
      rw [hencoding]
      exact hborrowed.available_eq
    have hneeded := varsNeeded_le (a.boundary b.location.layer)
    have hnew : id ∉ Arena.handles a.arnodes := by
      intro hmem
      obtain ⟨c, hc⟩ := Graph.mem_handles_iff.mp hmem
      exact h.ne_of_old hc rfl
    have hhandles : Arena.handles a'.arnodes = insert id (Arena.handles a.arnodes) := by
      ext x
      rw [Finset.mem_insert, Graph.mem_handles_iff, Graph.mem_handles_iff, h.body?_eq]
      by_cases hx : x = id
      · simp [hx]
      · simp [hx]
    rw [hhandles, Finset.card_insert_of_notMem hnew]
    omega
  | unwrap hfalse _ => exact hfalse.elim
  | @activate id _ _ _ _ _ h =>
    rw [h.remarked.pool_eq, handles_of_live fun x => ?_]
    · exact hvars
    · rw [h.body?_eq]
      by_cases hx : x = id
      · simp [hx]
      · simp [hx]
  | recount metrics h =>
    rw [h]
    exact hvars

theorem Moves.vars_le (h : Moves (fun _ => False) a a')
    (hvars : IdPool.ceiling ≤ a.encoding.pool.available + 2 * (Arena.handles a.arnodes).card) :
    IdPool.ceiling ≤ a'.encoding.pool.available + 2 * (Arena.handles a'.arnodes).card := by
  induction h with
  | refl => exact hvars
  | tail _ hmove ih => exact hmove.vars_le ih

/-- Activating arnodes takes neither slots nor variables. -/
theorem Ample.progress (h : a.Ample budget) {state : ActivationState} {done : List ArNodeId}
    (hp : Progress a a' state done) : a'.Ample budget := by
  refine ⟨?_, hp.moves.vars_le h.vars_le⟩
  rw [demand_of_nodePart hp.recast.nodePart_eq]
  exact h.demand_le

/-- There are at most as many arnodes as slots for nodes. -/
theorem Grounded.card_le_nodeSlots (h : a.Grounded) : (Arena.handles a.arnodes).card ≤ a.nodeSlots := by
  rw [h.arnodes.card_handles]
  exact h.size_le.trans h.nodes.size_le_nodeSlots

/-- Where variables are plenty, only the slots for nodes can run out. -/
theorem Starved.span_le {e : Error} (h : Starved a e a') (hg : a.Grounded) (hample : a.Ample budget) :
    Arena.span ≤ a'.nodeSlots := by
  rcases h.2 with hslots | ⟨a₁, hmoves, hpart, hfew⟩
  · exact hslots
  · obtain ⟨hg₁, _⟩ := hmoves.invariant hg trivial fun _ _ _ => trivial
    have hvars := hmoves.vars_le hample.vars_le
    have hle := hg₁.card_le_nodeSlots
    rw [nodeSlots_of_nodePart hpart]
    have hnumbers : Arena.span ≤ (IdPool.ceiling - 1) / 2 := by decide
    omega

end Ample

end Abstraction

namespace Network

variable [Scalar α] {net : Feedforward α} {property : Property α} {start n : Network α} {budget : Nat}

/-- Without a limit, a network that was just taken up has enough variables. -/
theorem build_ample {options : Options} (h : build net property options = .ok start)
    (hlimit : options.variableLimit = none) : start.abstraction.Ample (5 * net.shape.sum) := by
  obtain ⟨_, hpart, _⟩ := build_represents h
  have hencoding : start.abstraction.encoding = .empty options.variableLimit := congrArg (fun p => p.2.2.1) hpart
  refine ⟨(build_budgeted h).demand_le, ?_⟩
  rw [hencoding, hlimit]
  exact Nat.le_add_right _ _

section Stages

/-- Preprocessing does to the abstraction what its stage does, but for bounds. -/
theorem preprocessNext_meets_of {P : Abstraction α → Prop} {fail : Error → Abstraction α → Prop} {l : Nat}
    (hl : n.frontier.preprocess = some l) (h : (Abstraction.preprocess l).Meets n.abstraction (fun _ a => P a) fail)
    (hbound : ∀ {n : Network α} v bound, P n.abstraction → P (n.bounded v bound).abstraction) :
    preprocessNext.Meets n (fun _ n' => P n'.abstraction) (fun e n' => fail e n'.abstraction ∨ P n'.abstraction) := by
  unfold preprocessNext
  rw [meets_bind, meets_get, hl]
  dsimp only
  rw [meets_bind, onAbstraction, meets_zoom]
  refine h.mono (fun created a ha => ?_) fun _ _ hfail => .inl hfail
  have hrest := within_boundCreated (r := Sustained fun n : Network α => P n.abstraction)
    (fun v bound n => hbound v bound) (fun _ _ hn => hn) l created { n with abstraction := a }
  exact hrest.mono (fun _ _ hn => hn ha) fun _ _ hn => .inr (hn ha)

theorem Orderly.preprocess_ample (h : Orderly net property start n) (hample : n.abstraction.Ample budget) {l : Nat}
    (hl : n.frontier.preprocess = some l) :
    (Abstraction.preprocess l).Meets n.abstraction (fun _ a => a.Ample budget) (fun _ a => a.nodeSlots ≤ budget) := by
  have hbudgeted : n.abstraction.Budgeted net budget := ⟨h.represents, hample.demand_le⟩
  refine ((h.preprocess_meets hl).and (hbudgeted.preprocess_meets l)).mono ?_ ?_
  · rintro created a ⟨⟨ids, hc, _⟩, hkept⟩
    exact ⟨hkept.demand_le, hc.moves.vars_le hample.vars_le⟩
  · rintro e a ⟨_, hslots, _⟩
    exact hslots

/-- Preprocessing keeps within the budget of slots. It runs out of room only if the budget exceeds the number of handles. -/
theorem Orderly.preprocessNext_ample (h : Orderly net property start n) (hample : n.abstraction.Ample budget) :
    preprocessNext.Meets n (fun _ n' => n'.abstraction.Ample budget) (fun e _ => e.IsExhausted ∧ Arena.span ≤ budget) := by
  cases hl : n.frontier.preprocess with
  | none =>
    unfold preprocessNext
    rw [meets_bind, meets_get, hl]
    exact hample
  | some l =>
    have hslots := preprocessNext_meets_of hl (h.preprocess_ample hample hl) fun _ _ ha => ⟨ha.demand_le, ha.vars_le⟩
    refine (h.preprocessNext_meets.and hslots).mono (fun _ _ hboth => hboth.2) ?_
    rintro e n' ⟨hstarved, hwithin⟩
    have hspan := hstarved.span_le h.woven.grounded hample
    refine ⟨hstarved.1, hspan.trans ?_⟩
    rcases hwithin with hle | hample'
    · exact hle
    · exact (Nat.le_add_right _ _).trans hample'.demand_le

end Stages

end Network

end ReluAbstraction
