import ReluAbstraction.Proofs.Loading

/-!
# Slots for nodes

Slots of the arena of the nodes are never given up. Preprocessing puts at most four nodes in the place of one that is not
classified yet, and never makes another of that kind. So the slots in use, together with four for each node that is still to
be classified, do not get more, and five slots for each neuron are enough. As long as there are that many, the nodes
represent the network whatever the outcome.
-/

namespace ReluAbstraction

namespace Step

variable {σ β γ ι : Type} {size : σ → Nat} {c d : Nat}

/-- What `size` measures gets larger by at most `c`. -/
def Spent (size : σ → Nat) (c : Nat) (s s' : σ) : Prop := size s' ≤ size s + c

/-- The step makes what `size` measures larger by at most `c`, whether it succeeds or fails. -/
abbrev Spends (size : σ → Nat) (c : Nat) (step : Step σ β) : Prop := Within (Spent size c) step

namespace Spends

theorem of_keeps {step : Step σ β} (h : Keeps size step) : Spends size 0 step := h.mono fun _ _ hs => Nat.le_of_eq hs

theorem mono {step : Step σ β} (h : Spends size c step) (hcd : c ≤ d) : Spends size d step :=
  Within.mono h fun _ _ hs => Nat.le_trans hs (Nat.add_le_add_left hcd _)

theorem bind {step : Step σ γ} {next : γ → Step σ β} (h : Spends size c step) (hnext : ∀ b, Spends size d (next b)) :
    Spends size (c + d) (step >>= next) := by
  intro s
  rw [meets_bind]
  refine (h s).mono (fun b s' hs => ?_) fun _ s' hs => Nat.le_trans hs (by omega)
  exact (hnext b s').mono (fun _ s'' hs' => Nat.le_trans hs' (by unfold Spent at hs; omega))
    fun _ s'' hs' => Nat.le_trans hs' (by unfold Spent at hs; omega)

/-- Steps taken one after another spend what each of them does. -/
theorem mapM (cost : ι → Nat) {f : ι → Step σ γ} (xs : List ι) (h : ∀ x ∈ xs, Spends size (cost x) (f x)) :
    Spends size (xs.map cost).sum (xs.mapM f) := by
  induction xs with
  | nil => exact of_keeps (Within.pure _)
  | cons x xs ih =>
    rw [List.mapM_cons, List.map_cons, List.sum_cons]
    have hrest := ih fun y hy => h y (List.mem_cons_of_mem x hy)
    exact (h x List.mem_cons_self).bind fun _ => hrest.bind fun _ => of_keeps (Within.pure _)

end Spends

end Step

variable {α : Type}

open Step

namespace Arena

variable {k : EntityKind} {β : Type} {a a' : Arena k β}

/-- A new entity takes a free slot or a new one. -/
theorem slots_insert_le {v : β} {h : Handle k} (hins : a.insert v = .ok (h, a')) : a'.slots.size ≤ a.slots.size + 1 := by
  unfold insert insertWith at hins
  cases hnext : a.nextHandle with
  | error e =>
    rw [hnext] at hins
    cases hins
  | ok h' =>
    rw [hnext] at hins
    injection hins with hins
    obtain ⟨_, rfl⟩ := Prod.mk.inj hins
    unfold push
    split
    · simp
    · simp

end Arena

theorem Graph.spends_add {k : EntityKind} {δ : Type} (v : Vertex k α δ) : Spends slotCount 1 (add v) := by
  intro g
  rw [add, meets_bind, meets_read]
  cases hins : Arena.insert g v with
  | error e => exact Nat.le_succ _
  | ok r => exact Arena.slots_insert_le hins

namespace Abstraction

section Slots

theorem spends_insertNode (l : Nat) (category : Category) (movable : Bool) (bias : α) (origin : NeuronRef) :
    Spends nodeSlots 1 (insertNode l category movable bias origin) := by
  have hadd : ∀ v : Node α, Spends nodeSlots 1 (onNodes (Graph.add v)) :=
    fun v => (Graph.spends_add v).zoom fun _ _ ht => ht
  unfold insertNode TableChain.insertWith
  refine Spends.mono (c := 0 + (0 + (1 + 0) + 0)) ((Spends.of_keeps (Within.read _)).bind fun layer => ?_) (by omega)
  refine Spends.bind ?_ fun r => .of_keeps ((keepsSlots_setLayer _ _).bind fun _ => Within.pure _)
  exact (Spends.of_keeps (Within.ofExcept _)).bind fun r => (hadd _).bind fun _ => .of_keeps (Within.pure _)

theorem spends_makePiece (l : Nat) (v : Node α) (category : Category) (edges : List (Edge α NodeId)) :
    Spends nodeSlots 1 (makePiece l v category edges) := by
  have hlink : ∀ x d y w both, Keeps nodeSlots (onNodes (Graph.link x d y w both) : Step (Abstraction α) Unit) :=
    fun _ _ _ _ _ => keepsSlots_onNodes (Graph.keepsSlots_link _ _ _ _ _)
  unfold makePiece
  refine (spends_insertNode _ _ _ _ _).bind fun r => .of_keeps ?_
  exact (Within.forM _ fun e => hlink _ _ _ _ _).bind fun _ =>
    (Within.forM _ fun e => hlink _ _ _ _ _).bind fun _ => Within.pure _

/-- A node has at most one piece for each category. -/
theorem length_buckets_le (classified : List (Category × Edge α NodeId)) : (buckets classified).length ≤ 4 :=
  List.length_filterMap_le _ _

variable [Scalar α]

theorem spends_divide (l : Nat) (id : NodeId) (v : Node α) : Spends nodeSlots 4 (divide l id v) := by
  unfold divide
  refine Spends.mono (c := 0 + (4 + 0)) ((Spends.of_keeps (Within.ofExcept _)).bind fun classified => ?_) (by omega)
  refine Spends.bind ?_ fun pieces => .of_keeps ?_
  · refine (Spends.mapM (fun _ => 1) _ fun p _ => spends_makePiece l v p.1 p.2).mono ?_
    simpa using length_buckets_le classified
  · refine (keepsSlots_onNodes (Graph.keepsSlots_destroy _)).discard.bind fun _ => ?_
    exact (keepsSlots_unlistNode _ _ _).bind fun _ => (keepsSlots_count _).bind fun _ => Within.pure _

theorem spends_classifyNode (l : Nat) (id : NodeId) : Spends nodeSlots 4 (classifyNode l id : Step (Abstraction α) _) := by
  have hwrap : ∀ members, Keeps nodeSlots (wrap l members : Step (Abstraction α) ArNodeId) :=
    fun members => keepsSlots_of_keeps (keeps_wrap l members)
  unfold classifyNode
  refine Spends.mono (c := 0 + (0 + (0 + 4))) ((Spends.of_keeps (Within.read _)).bind fun layer => ?_) (by omega)
  refine (Spends.of_keeps (Within.read _)).bind fun node => (Spends.of_keeps (Within.ofExcept _)).bind fun _ => ?_
  refine Within.ite (Spends.mono (.of_keeps (Within.throw _)) (Nat.zero_le 4)) (Within.ite ?_ ?_)
  · refine Spends.mono (.of_keeps ?_) (Nat.zero_le 4)
    exact (keepsSlots_promote _ _).bind fun _ => (hwrap _).bind fun _ => Within.pure _
  · exact (spends_divide _ _ _).bind fun pieces => .of_keeps (Within.mapM _ fun p => hwrap _)

end Slots

section Unclassified

variable {a a' : Abstraction α} {l : Nat}

/-- The nodes that are still to be classified. -/
def unclassified (a : Abstraction α) : Finset NodeId :=
  (Arena.handles a.nodes).filter fun m => (a.info? m).any fun c => c.place.category = .unprocessed

theorem mem_unclassified_iff {m : NodeId} :
    m ∈ a.unclassified ↔ ∃ c, a.info? m = some c ∧ c.place.category = .unprocessed := by
  rw [unclassified, Finset.mem_filter, Graph.mem_handles_iff, Option.any_eq_true_iff_get]
  constructor
  · rintro ⟨_, hsome, hcategory⟩
    exact ⟨_, Option.some_get hsome |>.symm, by simpa using hcategory⟩
  · rintro ⟨c, hc, hcategory⟩
    obtain ⟨b, hb, _⟩ := Option.map_eq_some_iff.mp hc
    refine ⟨⟨b, hb⟩, by simp [hc], by simp [hc, hcategory]⟩

theorem unclassified_of_nodePart (h : a'.nodePart = a.nodePart) : a'.unclassified = a.unclassified := by
  ext m
  rw [mem_unclassified_iff, mem_unclassified_iff, info?_of_nodePart h]

theorem NodesSound.card_handles (h : a.NodesSound) : (Arena.handles a.nodes).card = a.nodes.size :=
  h.graph.arena.card_handles

theorem NodesSound.size_le_nodeSlots (h : a.NodesSound) : a.nodes.size ≤ a.nodeSlots := by
  have hsize := h.graph.arena.size_eq
  change a.nodes.size ≤ a.nodes.slots.size
  omega

theorem NodesSound.card_unclassified_le (h : a.NodesSound) : a.unclassified.card ≤ a.nodeSlots := by
  have hle := Finset.card_filter_le (Arena.handles a.nodes) fun m =>
    (a.info? m).any fun c => c.place.category = .unprocessed
  rw [h.card_handles] at hle
  exact hle.trans h.size_le_nodeSlots

/-- Slots that the nodes use, and those that they may still need. -/
def demand (a : Abstraction α) : Nat := a.nodeSlots + 4 * a.unclassified.card

theorem demand_of_nodePart (h : a'.nodePart = a.nodePart) : a'.demand = a.demand := by
  rw [demand, demand, nodeSlots_of_nodePart h, unclassified_of_nodePart h]

/-- A node that is resolved leaves one less to be classified. -/
theorem Resolved.card_unclassified {id : NodeId} {pieces : List NodeId} (h : Resolved a a' l id pieces)
    (hid : id ∈ a.unclassified) : a'.unclassified.card + 1 ≤ a.unclassified.card := by
  have hsubset : a'.unclassified ⊆ a.unclassified.erase id := by
    intro m hm
    obtain ⟨c, hc, hcategory⟩ := mem_unclassified_iff.mp hm
    have hpiece : m ∉ pieces := by
      intro hmem
      obtain ⟨_, b, _, hb, _, hclassified, _⟩ := h.piece m hmem
      rw [info?, hb] at hc
      cases hc
      exact hclassified hcategory
    have hne : m ≠ id := by
      rintro rfl
      rw [info?, h.gone hpiece] at hc
      cases hc
    rw [info?, h.body?_eq m hne hpiece] at hc
    exact Finset.mem_erase.mpr ⟨hne, mem_unclassified_iff.mpr ⟨c, hc, hcategory⟩⟩
  have hcard := Finset.card_le_card hsubset
  rw [Finset.card_erase_of_mem hid] at hcard
  have hpos := Finset.card_pos.mpr ⟨id, hid⟩
  omega

end Unclassified

section Budgets

variable [Scalar α] {net : Feedforward α} {a a' : Abstraction α} {budget : Nat}

/-- The nodes represent the network and get by with `budget` slots. -/
structure Budgeted (net : Feedforward α) (budget : Nat) (a : Abstraction α) : Prop where
  represents : a.Represents net
  demand_le : a.demand ≤ budget

theorem Budgeted.of_nodePart (h : Budgeted net budget a) (hpart : a'.nodePart = a.nodePart) : Budgeted net budget a' :=
  ⟨h.represents.of_nodePart hpart, (demand_of_nodePart hpart).le.trans h.demand_le⟩

theorem Budgeted.slots_le (h : Budgeted net budget a) : a.nodeSlots ≤ budget := (Nat.le_add_right _ _).trans h.demand_le

/-- Classifying a node keeps within the budget. It runs out of slots only if the budget exceeds the number of handles. -/
theorem Budgeted.classifyNode_meets (h : Budgeted net budget a) (l : Nat) (id : NodeId) :
    (classifyNode l id).Meets a (fun _ a' => Budgeted net budget a')
      (fun _ a' => a'.nodeSlots ≤ budget ∧ (Budgeted net budget a' ∨ Arena.span ≤ a'.nodeSlots)) := by
  have hdemand : a.nodeSlots + 4 * a.unclassified.card ≤ budget := h.demand_le
  have htreated : ∀ {a'}, Treated net a a' l id → a'.nodeSlots ≤ a.nodeSlots + 4 → Budgeted net budget a' := by
    intro a' ht hspent
    refine ⟨ht.represents h.represents, ?_⟩
    cases ht with
    | kept hpart => exact (demand_of_nodePart hpart).le.trans h.demand_le
    | resolved hid hcategory _ hresolved hpart =>
      have hcard := hresolved.card_unclassified (mem_unclassified_iff.mpr ⟨_, hid, hcategory⟩)
      rw [← unclassified_of_nodePart hpart] at hcard
      unfold demand
      omega
  refine ((classifyNode_treated h.represents l id).and (spends_classifyNode l id a)).mono ?_ ?_
  · rintro _ a' ⟨ht, hspent⟩
    exact htreated ht hspent
  · rintro _ a' ⟨ht | ⟨hid, hfull⟩, hspent⟩
    · have hbudgeted := htreated ht hspent
      exact ⟨hbudgeted.slots_le, .inl hbudgeted⟩
    · have hpos := Finset.card_pos.mpr ⟨id, mem_unclassified_iff.mpr hid⟩
      unfold Spent at hspent
      exact ⟨by omega, .inr hfull⟩

theorem Budgeted.preprocess_meets (h : Budgeted net budget a) (l : Nat) :
    (preprocess l).Meets a (fun _ a' => Budgeted net budget a')
      (fun _ a' => a'.nodeSlots ≤ budget ∧ (Budgeted net budget a' ∨ Arena.span ≤ a'.nodeSlots)) :=
  preprocess_meets_of (fun ha id => ha.classifyNode_meets l id) h fun _ => ⟨h.slots_le, .inl h⟩

/-- With enough handles, preprocessing keeps within the budget whether or not it succeeds. -/
theorem preserves_budgeted (hroom : budget < Arena.span) (l : Nat) :
    Preserves (Budgeted net budget) (preprocess l : Step (Abstraction α) (List ArNodeId)) := by
  refine within_of_meets (r := fun _ a' => Budgeted net budget a') fun h =>
    (h.preprocess_meets l).mono (fun _ _ ha => ha) ?_
  rintro _ a' ⟨hslots, ha | hfull⟩
  · exact ha
  · omega

end Budgets

end Abstraction

namespace Network

variable [Scalar α] {net : Feedforward α}

/-- Taking up a network takes one slot for each neuron. -/
theorem spends_load (net : Feedforward α) : Spends Abstraction.nodeSlots net.shape.sum (load net) := by
  have hlayer : ∀ l, Spends Abstraction.nodeSlots (net.width l) (loadLayer net l) := by
    intro l
    refine (Spends.mapM (fun _ => 1) _ fun neuron _ => ?_).mono (by simp)
    exact (Abstraction.spends_insertNode _ _ _ _ _).bind fun _ => .of_keeps (Within.pure _)
  have hedges : ∀ l sources targets, Keeps Abstraction.nodeSlots (loadEdges net l sources targets) := by
    intro l sources targets
    refine Within.forM _ fun target => Within.forM _ fun source => Within.ite (Within.pure _) ?_
    exact Abstraction.keepsSlots_onNodes (Graph.keepsSlots_link _ _ _ _ _)
  refine Spends.bind (Spends.mapM net.width _ fun l _ => hlayer l) fun layers => .of_keeps ?_
  exact Within.forM _ fun p => hedges _ _ _

/-- A network that was just taken up gets by with five slots for each neuron. -/
theorem build_budgeted {property : Property α} {options : Options} {start : Network α}
    (h : build net property options = .ok start) : start.abstraction.Budgeted net (5 * net.shape.sum) := by
  obtain ⟨_, _, _, a, hload, hstart⟩ := build_eq_ok h
  have hrep := (build_represents h).1
  have hslots : start.abstraction.nodeSlots ≤ net.shape.sum := by
    have hspent : a.nodeSlots ≤ (blank net property options).nodeSlots + net.shape.sum :=
      (spends_load net (blank net property options)).of_ok hload
    have hblank : (blank net property options).nodeSlots = 0 := rfl
    have hsame : start.abstraction = a := by rw [hstart]
    rw [hsame]
    omega
  have hcard := hrep.sound.card_unclassified_le
  refine ⟨hrep, ?_⟩
  unfold Abstraction.demand
  omega

end Network

end ReluAbstraction
