import ReluAbstraction.Proofs.AllOrNothing
import ReluAbstraction.Proofs.Outcomes

/-!
# Counting arnodes

Every arnode holds nodes that no other one holds, so there are at most as many arnodes as nodes, and fewer if an arnode
holds two. Completing the frontier gives each node an arnode of its own. From then on a merge leaves one arnode less and
two more free variables, and splitting an arnode in two takes this back.
-/

namespace ReluAbstraction

variable {α : Type}

namespace Abstraction

variable {a a' : Abstraction α} {l : Nat}

theorem ArnodesSound.card_handles (h : a.ArnodesSound) : (Arena.handles a.arnodes).card = a.arnodes.size :=
  h.graph.arena.card_handles

theorem nodes_size_of_nodePart (h : a'.nodePart = a.nodePart) : a'.nodes.size = a.nodes.size :=
  congrArg (fun part => part.2.1.size) h

section Regrouping

/-- A merge leaves one arnode less. -/
theorem Fusion.size_eq {first second merged : ArNodeId} {b₁ b₂ b : Body (ArNodeData α)}
    (h : Fusion a a' l first second merged b₁ b₂ b) (hne : first ≠ second) (hs : a.ArnodesSound) (hs' : a'.ArnodesSound) :
    a'.arnodes.size + 1 = a.arnodes.size := by
  obtain ⟨hb₁, hb₂, _⟩ := h.operands
  have hfirst : first ∈ Arena.handles a.arnodes := Graph.mem_handles_iff.mpr ⟨b₁, hb₁⟩
  have hsecond : second ∈ (Arena.handles a.arnodes).erase first :=
    Finset.mem_erase.mpr ⟨hne.symm, Graph.mem_handles_iff.mpr ⟨b₂, hb₂⟩⟩
  have hmerged : merged ∉ ((Arena.handles a.arnodes).erase first).erase second := by
    intro hmem
    obtain ⟨c, hc⟩ := Graph.mem_handles_iff.mp (Finset.mem_of_mem_erase (Finset.mem_of_mem_erase hmem))
    rw [h.new.1] at hc
    cases hc
  have hafter : Arena.handles a'.arnodes = insert merged (((Arena.handles a.arnodes).erase first).erase second) := by
    ext x
    simp only [Finset.mem_insert, Finset.mem_erase, Graph.mem_handles_iff]
    by_cases hx : x = merged
    · simp [hx, h.new.2]
    · by_cases hx₁ : x = first
      · simp [hx₁, h.gone.1, hx₁ ▸ hx]
      · by_cases hx₂ : x = second
        · simp [hx₂, h.gone.2, hx₂ ▸ hx]
        · simp [hx, hx₁, hx₂, h.rest x hx₁ hx₂ hx]
  have hcard := hs'.card_handles
  rw [hafter, Finset.card_insert_of_notMem hmerged, Finset.card_erase_of_mem hsecond, Finset.card_erase_of_mem hfirst,
    hs.card_handles] at hcard
  have htwo : 1 ≤ ((Arena.handles a.arnodes).erase first).card := Finset.card_pos.mpr ⟨second, hsecond⟩
  rw [Finset.card_erase_of_mem hfirst, hs.card_handles] at htwo
  omega

/-- A split leaves as many arnodes more as there are cells, less one. -/
theorem Fission.size_eq {id : ArNodeId} {cells : List (List NodeId)} {parts : List ArNodeId} {b : Body (ArNodeData α)}
    (h : Fission a a' l id cells parts b) (hs : a.ArnodesSound) (hs' : a'.ArnodesSound) :
    a'.arnodes.size + 1 = a.arnodes.size + cells.length := by
  have hid : id ∈ Arena.handles a.arnodes := Graph.mem_handles_iff.mpr ⟨b, h.operand.1⟩
  have hdisjoint : Disjoint ((Arena.handles a.arnodes).erase id) parts.toFinset := by
    rw [Finset.disjoint_left]
    intro x hx hpart
    obtain ⟨c, hc⟩ := Graph.mem_handles_iff.mp (Finset.mem_of_mem_erase hx)
    rw [h.new x (List.mem_toFinset.mp hpart)] at hc
    cases hc
  have hafter : Arena.handles a'.arnodes = (Arena.handles a.arnodes).erase id ∪ parts.toFinset := by
    ext x
    simp only [Finset.mem_union, Finset.mem_erase, List.mem_toFinset, Graph.mem_handles_iff]
    by_cases hpart : x ∈ parts
    · obtain ⟨_, _, c, hc, _⟩ := exists_mem_of_forall₂_right h.result hpart
      simp [hpart, hc]
    · by_cases hx : x = id
      · simp [hx, h.gone, hx ▸ hpart]
      · simp [hpart, hx, h.rest x hx hpart]
  have hcard := hs'.card_handles
  rw [hafter, Finset.card_union_of_disjoint hdisjoint, Finset.card_erase_of_mem hid, hs.card_handles,
    List.toFinset_card_of_nodup h.nodup, ← h.result.length_eq] at hcard
  have hpos : 1 ≤ a.arnodes.size := hs.card_handles ▸ Finset.card_pos.mpr ⟨id, hid⟩
  omega

end Regrouping

variable [Scalar α]

section Holders

/-- The arnode that holds a node. -/
private def keeper (a : Abstraction α) (m : NodeId) : ArNodeId := (a.holder? m).getD default

private theorem Owned.keeper_eq (h : a.Owned) {x : ArNodeId} {b : Body (ArNodeData α)} (hb : a.arnodes.body? x = some b)
    {m : NodeId} (hm : m ∈ b.data.members) : a.keeper m = x := by
  have hholder := (h.mem_members_iff hb).mp hm
  simp [keeper, hholder]

private theorem Owned.mem_handles (h : a.Owned) {x : ArNodeId} {b : Body (ArNodeData α)} (hb : a.arnodes.body? x = some b)
    {m : NodeId} (hm : m ∈ b.data.members) : m ∈ Arena.handles a.nodes := by
  obtain ⟨c, hc, _⟩ := h.member hb m hm
  obtain ⟨d, hd, _⟩ := Option.map_eq_some_iff.mp hc
  exact Graph.mem_handles_iff.mpr ⟨d, hd⟩

/-- There are at most as many arnodes as nodes. -/
theorem Grounded.size_le (h : a.Grounded) : a.arnodes.size ≤ a.nodes.size := by
  rw [← h.arnodes.card_handles, ← h.nodes.card_handles]
  refine Finset.card_le_card_of_surjOn a.keeper fun x hx => ?_
  obtain ⟨b, hb⟩ := Graph.mem_handles_iff.mp hx
  obtain ⟨m, hm⟩ := List.exists_mem_of_ne_nil _ (h.owned.ne_nil hb)
  exact ⟨m, h.owned.mem_handles hb hm, h.owned.keeper_eq hb hm⟩

/-- There are fewer arnodes than nodes if an arnode holds two. -/
theorem Grounded.size_lt (h : a.Grounded) {x : ArNodeId} {b : Body (ArNodeData α)} (hb : a.arnodes.body? x = some b)
    (htwo : 2 ≤ b.data.members.length) : a.arnodes.size < a.nodes.size := by
  obtain ⟨m, m', rest, hmembers⟩ : ∃ m m' rest, b.data.members = m :: m' :: rest := by
    match hmembers : b.data.members, htwo with
    | m :: m' :: rest, _ => exact ⟨m, m', rest, rfl⟩
  have hne : m' ≠ m := by
    have hnodup := h.owned.nodup hb
    rw [hmembers] at hnodup
    simp only [List.nodup_cons, List.mem_cons, not_or] at hnodup
    exact Ne.symm hnodup.1.1
  have hm : m ∈ Arena.handles a.nodes := h.owned.mem_handles hb (by simp [hmembers])
  -- The other nodes still lead to every arnode.
  have hle : (Arena.handles a.arnodes).card ≤ ((Arena.handles a.nodes).erase m).card := by
    refine Finset.card_le_card_of_surjOn a.keeper fun y hy => ?_
    obtain ⟨c, hc⟩ := Graph.mem_handles_iff.mp hy
    obtain ⟨p, hp⟩ := List.exists_mem_of_ne_nil _ (h.owned.ne_nil hc)
    by_cases hpm : p = m
    · obtain rfl : y = x := by
        rw [← h.owned.keeper_eq hc hp, hpm]
        exact h.owned.keeper_eq hb (by simp [hmembers])
      exact ⟨m', Finset.mem_coe.mpr (Finset.mem_erase.mpr ⟨hne, h.owned.mem_handles hb (by simp [hmembers])⟩),
        h.owned.keeper_eq hb (by simp [hmembers])⟩
    · exact ⟨p, Finset.mem_coe.mpr (Finset.mem_erase.mpr ⟨hpm, h.owned.mem_handles hc hp⟩), h.owned.keeper_eq hc hp⟩
  have hpos : 0 < (Arena.handles a.nodes).card := Finset.card_pos.mpr ⟨m, hm⟩
  rw [Finset.card_erase_of_mem hm, h.arnodes.card_handles, h.nodes.card_handles] at hle
  rw [h.nodes.card_handles] at hpos
  omega

/-- Every arnode holds one node, except in the layers in `free`. -/
def Alone (free : Nat → Prop) (a : Abstraction α) : Prop :=
  ∀ ⦃x b⦄, a.arnodes.body? x = some b → b.data.members.length = 1 ∨ free b.location.layer

/-- If every node has an arnode of its own, there are as many arnodes as nodes. -/
theorem Grounded.size_eq_of_alone (h : a.Grounded) (halone : a.Alone fun _ => False)
    (hheld : ∀ {m c}, a.info? m = some c → (a.holder? m).isSome) : a.arnodes.size = a.nodes.size := by
  refine le_antisymm h.size_le ?_
  rw [← h.arnodes.card_handles, ← h.nodes.card_handles]
  have hholder : ∀ m ∈ Arena.handles a.nodes, ∃ b, a.arnodes.body? (a.keeper m) = some b ∧ b.data.members = [m] := by
    intro m hm
    obtain ⟨d, hd⟩ := Graph.mem_handles_iff.mp hm
    obtain ⟨x, hx⟩ := Option.isSome_iff_exists.mp (hheld (m := m) (by rw [info?, hd, Option.map_some]))
    obtain ⟨b, hb, hmem⟩ := h.owned.holder hx
    obtain ⟨m', hmembers⟩ := List.length_eq_one_iff.mp ((halone hb).resolve_right not_false)
    rw [hmembers, List.mem_singleton] at hmem
    exact ⟨b, by simpa [keeper, hx] using hb, by rw [hmembers, hmem]⟩
  refine Finset.card_le_card_of_injOn a.keeper (fun m hm => ?_) fun m hm m' hm' heq => ?_
  · obtain ⟨b, hb, _⟩ := hholder m hm
    exact Graph.mem_handles_iff.mpr ⟨b, hb⟩
  · obtain ⟨b, hb, hmembers⟩ := hholder m hm
    obtain ⟨b', hb', hmembers'⟩ := hholder m' hm'
    rw [← heq, hb] at hb'
    cases hb'
    exact List.singleton_injective (hmembers.symm.trans hmembers')

end Holders

section Alone

variable {net : Feedforward α} {free : Nat → Prop} {limits : NeuronRef → Bound α → Prop}
  {ripe : Abstraction α → Prop}

omit [Scalar α] in
theorem Alone.of_arnodes (h : a.Alone free) (hbody : ∀ {x b'}, a'.arnodes.body? x = some b' → ∃ b,
      a.arnodes.body? x = some b ∧ b.location = b'.location ∧ b.data.members = b'.data.members) : a'.Alone free := by
  intro x b' hb'
  obtain ⟨b, hb, hlocation, hmembers⟩ := hbody hb'
  rw [← hlocation, ← hmembers]
  exact h hb

/-- No move puts nodes together where this is not allowed. -/
theorem Alone.move (h : a.Alone free) (hmove : Move free a a') : a'.Alone free := by
  cases hmove with
  | classify _ _ hr =>
    have harnodes : a'.arnodes = a.arnodes := congrArg (fun part => part.2.1) hr.arnodePart_eq
    exact h.of_arnodes fun {x b'} hb' => ⟨b', harnodes ▸ hb', rfl, rfl⟩
  | @wrap members id b hsize hw =>
    intro x c hc
    rcases hw.body?_cases hc with ⟨_, rfl⟩ | hc
    · rw [hw.members_eq]
      exact hsize
    · exact h hc
  | unwrap _ hu => exact h.of_arnodes fun {x b'} hb' => ⟨b', (hu.body?_of_some hb').2, rfl, rfl⟩
  | activate _ _ ha =>
    refine h.of_arnodes fun {x b'} hb' => ?_
    rw [ha.body?_eq] at hb'
    split at hb'
    · next hx =>
      obtain ⟨b, hb, rfl⟩ := Option.map_eq_some_iff.mp hb'
      exact ⟨b, hx ▸ hb, rfl, rfl⟩
    · exact ⟨b', hb', rfl, rfl⟩
  | recount _ heq => exact h.of_arnodes fun {x b'} hb' => ⟨b', by rwa [heq] at hb', rfl, rfl⟩

/-- Nothing that happens puts nodes together where this is not allowed. -/
theorem Alone.drift (h : a.Alone free) (hcoherent : Coherent net a) (hdrift : Drift free limits ripe a a') :
    a'.Alone free := by
  cases hdrift with
  | change hc =>
    cases hc with
    | move hm => exact h.move hm
    | bound _ _ _ _ heq => exact h.of_arnodes fun {x b'} hb' => ⟨b', by rwa [heq] at hb', rfl, rfl⟩
    | refresh _ hr =>
      have hrefreshed := (refreshEquations_meets hcoherent.grounded.arnodes).of_ok hr
      refine h.of_arnodes fun {x b'} hb' => ?_
      obtain ⟨b, hb, hlocation, hmembers, _⟩ := hrefreshed.recast.exists_body? hb'
      exact ⟨b, hb, hlocation, hmembers⟩
    | prepare heq => exact h.of_arnodes fun {x b'} hb' => ⟨b', by rwa [heq] at hb', rfl, rfl⟩
  | lapse hl =>
    obtain ⟨e, _, rfl⟩ := hl
    exact h
  | crowd _ _ hc =>
    have harnodes : a'.arnodes = a.arnodes := congrArg (fun part => part.2.1) hc.arnodePart_eq
    exact h.of_arnodes fun {x b'} hb' => ⟨b', harnodes ▸ hb', rfl, rfl⟩

/-- Nor does any number of such things. -/
theorem Alone.drifts (h : a.Alone free) (hcoherent : Coherent net a) (hdrifts : Drifts free limits ripe a a') :
    a'.Alone free :=
  (hdrifts.invariant hcoherent h fun hdrift hc hi => hi.drift hc hdrift).2

end Alone

end Abstraction

namespace Network

variable [Scalar α] {net : Feedforward α} {property : Property α} {options : Options} {start n : Network α}

/-- A network that was just taken up has no arnodes. -/
theorem build_alone (h : build net property options = .ok start) (free : Nat → Prop) : start.abstraction.Alone free := by
  obtain ⟨_, hpart, _⟩ := build_represents h
  have harnodes : start.abstraction.arnodes = Arena.empty := congrArg (fun p => p.2.1) hpart
  intro x b hb
  simp [harnodes, Graph.body?] at hb

/-- Outside the layers that may be regrouped, every arnode holds one node. -/
theorem Orderly.alone (h : Orderly net property start n) (hbuild : build net property options = .ok start) :
    n.abstraction.Alone net.Regroupable :=
  (build_alone hbuild _).drifts (build_steady hbuild).coherent h.history.drifts

/-- Completing the frontier gives every arnode one node. -/
theorem complete_alone (hbuild : build net property options = .ok start) (hcomplete : complete start = .ok () n) :
    n.abstraction.Alone fun _ => False := by
  have hdrifts : Adrift net property (fun _ => False) (fun _ => True) start n := (adrift_complete start).of_ok hcomplete
  exact (build_alone hbuild _).drifts (build_steady hbuild).coherent (hdrifts (build_steady hbuild)).2

end Network

end ReluAbstraction
