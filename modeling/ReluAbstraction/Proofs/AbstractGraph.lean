import ReluAbstraction.Proofs.NeuronSplitting
import ReluAbstraction.Proofs.Replay

/-!
# The abstract graph

In a network in order the abstract graph is a function of the partition of the nodes. The edge between two arnodes, its
weight and the biases are folds over their members, so they do not depend on the merges and splits that led there. Merging
two arnodes and splitting the result along the old members gives the old graph.
-/

namespace ReluAbstraction

variable {α : Type}

namespace Abstraction

/-- Arnodes of two abstractions that have the same members are alike. -/
structure Agrees (a a' : Abstraction α) : Prop where
  /-- They have the same place in the network and the same bias. -/
  bias_eq : ∀ {x x' b b'}, a.arnodes.body? x = some b → a'.arnodes.body? x' = some b' →
    b.data.members = b'.data.members → b.location.layer = b'.location.layer ∧
      b.location.category = b'.location.category ∧ b.data.bias = b'.data.bias
  /-- Once forward activated, they have the same edges. -/
  edge?_eq : ∀ {x x' y y' b b' c c'}, a.arnodes.body? x = some b → a'.arnodes.body? x' = some b' →
    a.arnodes.body? y = some c → a'.arnodes.body? y' = some c' → b.data.members = b'.data.members →
    c.data.members = c'.data.members → b.data.state.isForward = true → b'.data.state.isForward = true →
    a.arnodes.edge? x y = a'.arnodes.edge? x' y'

theorem Agrees.symm {a a' : Abstraction α} (h : Agrees a a') : Agrees a' a := by
  refine ⟨fun hb hb' hmembers => ?_, fun hb hb' hc hc' hmembers hmembers' hforward hforward' => ?_⟩
  · obtain ⟨hlayer, hcategory, hbias⟩ := h.bias_eq hb' hb hmembers.symm
    exact ⟨hlayer.symm, hcategory.symm, hbias.symm⟩
  · exact (h.edge?_eq hb' hb hc' hc hmembers.symm hmembers'.symm hforward' hforward).symm

variable [Scalar α]

/-- What the arnodes record is folded from their nodes. -/
structure FoldsNodes (a : Abstraction α) : Prop where
  /-- The members of an arnode are live nodes of its layer and category. -/
  member : ∀ {x s}, a.arnodes.get? x = some s → ∀ m ∈ s.data.members, ∃ v, a.nodes.get? m = some v ∧
    v.location.layer = s.location.layer ∧ v.location.category = s.location.category
  /-- A forward activated arnode has an edge to an arnode of the next layer if a member of the one has an edge to a member
  of the other, and only then. -/
  edge_iff : ∀ {x y s t}, a.arnodes.get? x = some s → a.arnodes.get? y = some t →
    t.location.layer = s.location.layer + 1 → s.data.state.isForward = true →
    ((∃ w, s.outgoing.get? t.location.key = some ⟨w, y⟩) ↔
      ∃ m ∈ s.data.members, ∃ m' ∈ t.data.members, ∃ w, a.nodes.edge? m m' = some w)
  /-- The weight of an edge is the fold of the edges between the members. -/
  weight_eq : ∀ {x y s t w}, a.arnodes.get? x = some s → a.arnodes.get? y = some t →
    s.outgoing.get? t.location.key = some ⟨w, y⟩ → a.policy.fold a.nodes.edge? s.location.category t.location.category
      s.data.members t.data.members = some w
  /-- Every outgoing edge leads to an arnode of the next layer, where it is recorded under the place of its source. -/
  mirrored : ∀ {x s key w y}, a.arnodes.get? x = some s → s.outgoing.get? key = some ⟨w, y⟩ →
    ∃ t, a.arnodes.get? y = some t ∧ t.location.key = key ∧ t.location.layer = s.location.layer + 1 ∧
      t.incoming.get? s.location.key = some ⟨w, x⟩
  /-- Every incoming edge is the mirror of an outgoing one. -/
  mirrors : ∀ {y t key w x}, a.arnodes.get? y = some t → t.incoming.get? key = some ⟨w, x⟩ →
    ∃ s, a.arnodes.get? x = some s ∧ s.location.key = key ∧ s.outgoing.get? t.location.key = some ⟨w, y⟩
  /-- An arnode that is not forward activated has no outgoing edges. -/
  idle : ∀ {x s}, a.arnodes.get? x = some s → s.data.state.isForward = false → ∀ key, s.outgoing.get? key = none
  /-- The bias of an arnode is the reduction of the biases of its members. -/
  bias_eq : ∀ {x s}, a.arnodes.get? x = some s →
    (a.policy.bias s.location.category).reduce? (s.data.members.map a.biasOf) = some s.data.bias

variable {a a' : Abstraction α}

/-- A weave folds the nodes. -/
theorem Woven.foldsNodes (h : Woven a none) : FoldsNodes a := by
  have hg := h.grounded
  have hout : ∀ {x s}, a.arnodes.get? x = some s → ∀ {key w y}, s.outgoing.get? key = some ⟨w, y⟩ ↔
      ∃ t, a.arnodes.get? y = some t ∧ t.location.key = key ∧ a.arnodes.edge? x y = some w := by
    intro x s hs key w y
    exact hg.arnodes.graph.edges_iff hs .outgoing key w y
  have hfolded : ∀ {x y s t w}, a.arnodes.get? x = some s → a.arnodes.get? y = some t → a.arnodes.edge? x y = some w →
      s.data.state.isForward = true ∧ touches a.nodes.edge? s.data.members t.data.members = true ∧
        a.policy.fold a.nodes.edge? s.location.category t.location.category s.data.members t.data.members = some w := by
    intro x y s t w hs ht hedge
    obtain ⟨hforward, hfold⟩ := h.of_edge hedge
    rw [isForward_of_body? (Graph.body?_of_get? hs)] at hforward
    rw [folded?_of_body? (Graph.body?_of_get? hs) (Graph.body?_of_get? ht)] at hfold
    split at hfold
    · next htouches => exact ⟨hforward, htouches, hfold⟩
    · cases hfold
  refine ⟨fun {x s} hs m hm => ?_, fun {x y s t} hs ht hl hforward => ⟨?_, ?_⟩, fun {x y s t w} hs ht hget => ?_,
    fun {x s key w y} hs hget => ?_, fun {y t key w x} ht hget => ?_, fun {x s} hs hidle key => ?_, fun {x s} hs => ?_⟩
  · obtain ⟨c, hc, _, hlayer, hcategory⟩ := hg.owned.member (Graph.body?_of_get? hs) m hm
    obtain ⟨v, hv, rfl⟩ := get?_of_info? hc
    exact ⟨v, hv, hlayer, hcategory⟩
  · rintro ⟨w, hget⟩
    obtain ⟨_, _, _, hedge⟩ := (hout hs).mp hget
    exact touches_iff.mp (hfolded hs ht hedge).2.1
  · intro htouches
    obtain ⟨w, hw⟩ := a.policy.exists_fold a.nodes.edge? s.location.category t.location.category
      (hg.owned.ne_nil (Graph.body?_of_get? hs)) (hg.owned.ne_nil (Graph.body?_of_get? ht))
    refine ⟨w, (hout hs).mpr ⟨t, ht, rfl, ?_⟩⟩
    rw [h.edge?_eq, if_pos ⟨by rw [isForward_of_body? (Graph.body?_of_get? hs)]; exact hforward, by simp⟩,
      folded?_of_body? (Graph.body?_of_get? hs) (Graph.body?_of_get? ht)]
    exact (if_pos (touches_iff.mpr htouches)).trans hw
  · obtain ⟨_, _, _, hedge⟩ := (hout hs).mp hget
    exact (hfolded hs ht hedge).2.2
  · obtain ⟨t, ht, hkey, hedge⟩ := (hout hs).mp hget
    obtain ⟨s', t', hs', ht', hlayer⟩ := hg.arnodes.graph.ends hedge
    rw [hs] at hs'
    rw [ht] at ht'
    cases hs'
    cases ht'
    exact ⟨t, ht, hkey, hlayer, (hg.arnodes.graph.edges_iff ht .incoming _ w x).mpr ⟨s, hs, rfl, hedge⟩⟩
  · obtain ⟨s, hs, hkey, hedge⟩ := (hg.arnodes.graph.edges_iff ht .incoming key w x).mp hget
    exact ⟨s, hs, hkey, (hout hs).mpr ⟨t, ht, rfl, hedge⟩⟩
  · by_contra hne
    obtain ⟨⟨w, y⟩, hget⟩ := Option.ne_none_iff_exists'.mp hne
    obtain ⟨t, ht, _, hedge⟩ := (hout hs).mp hget
    rw [(hfolded hs ht hedge).1] at hidle
    cases hidle
  · exact hg.owned.bias_eq (Graph.body?_of_get? hs)

/-- The members of an arnode are classified. -/
theorem Grounded.member_cemented (h : a.Grounded) {x : ArNodeId} {b : Body (ArNodeData α)}
    (hb : a.arnodes.body? x = some b) {m : NodeId} (hm : m ∈ b.data.members) : ∃ c, a.info? m = some c ∧
      c.place.layer = b.location.layer ∧ c.place.category = b.location.category ∧ c.place.category ≠ .unprocessed := by
  obtain ⟨c, hc, _, hlayer, hcategory⟩ := h.owned.member hb m hm
  exact ⟨c, hc, hlayer, hcategory, by rw [hcategory]; exact h.arnodes.cemented hb⟩

/-- Two weaves, of which the second has the classified nodes of the first. -/
theorem Woven.agrees (h : Woven a none) (h' : Woven a' none) (hpolicy : a'.policy = a.policy) (hp : Persists a a') :
    Agrees a a' := by
  have hplace : ∀ {x x' b b'}, a.arnodes.body? x = some b → a'.arnodes.body? x' = some b' →
      b.data.members = b'.data.members → b.location.layer = b'.location.layer ∧
        b.location.category = b'.location.category := by
    intro x x' b b' hb hb' hmembers
    obtain ⟨m, hm⟩ := List.exists_mem_of_ne_nil _ (h.grounded.owned.ne_nil hb)
    obtain ⟨c, hc, hlayer, hcategory, hcemented⟩ := h.grounded.member_cemented hb hm
    obtain ⟨c', hc', hlayer', hcategory', _⟩ := h'.grounded.member_cemented hb' (hmembers ▸ hm)
    rw [hp.info?_eq hc hcemented] at hc'
    cases hc'
    exact ⟨hlayer.symm.trans hlayer', hcategory.symm.trans hcategory'⟩
  refine ⟨fun {x x' b b'} hb hb' hmembers => ?_, fun {x x' y y' b b' c c'} hb hb' hc hc' hmembers hmembers' hforward
    hforward' => ?_⟩
  · obtain ⟨hlayer, hcategory⟩ := hplace hb hb' hmembers
    refine ⟨hlayer, hcategory, ?_⟩
    have hbias : b'.data.members.map a'.biasOf = b.data.members.map a.biasOf := by
      rw [← hmembers]
      refine List.map_congr_left fun m hm => ?_
      obtain ⟨d, hd, _, _, hcemented⟩ := h.grounded.member_cemented hb hm
      rw [biasOf, biasOf, hp.info?_eq hd hcemented, hd]
    have hreduced := h'.grounded.owned.bias_eq hb'
    rw [hbias, hpolicy, ← hcategory, h.grounded.owned.bias_eq hb] at hreduced
    exact Option.some.inj hreduced
  · have hedge : ∀ s ∈ b.data.members, ∀ t ∈ c.data.members, a'.nodes.edge? s t = a.nodes.edge? s t := by
      intro s hs t ht
      obtain ⟨d, hd, _, _, hcemented⟩ := h.grounded.member_cemented hb hs
      obtain ⟨e, he, _, _, hcemented'⟩ := h.grounded.member_cemented hc ht
      exact hp.edge?_eq hd hcemented he hcemented'
    have hon : a.isForward x = true := by rw [isForward_of_body? hb, hforward]
    have hon' : a'.isForward x' = true := by rw [isForward_of_body? hb', hforward']
    rw [h.edge?_eq, h'.edge?_eq, if_pos ⟨hon, by simp⟩, if_pos ⟨hon', by simp⟩, folded?_of_body? hb hc,
      folded?_of_body? hb' hc', hpolicy, ← (hplace hb hb' hmembers).2, ← (hplace hc hc' hmembers').2, ← hmembers,
      ← hmembers', touches_congr hedge, Policy.fold_congr _ hedge]

/-- Renaming the arnodes of the first abstraction gives the graph of the second. -/
structure Renames (a a' : Abstraction α) (rename : ArNodeId → ArNodeId) : Prop where
  /-- Every arnode keeps its place in the network, members and bias. -/
  body : ∀ {x b}, a.arnodes.body? x = some b → ∃ b', a'.arnodes.body? (rename x) = some b' ∧
    b'.location.layer = b.location.layer ∧ b'.location.category = b.location.category ∧
    b'.data.members = b.data.members ∧ b'.data.state = b.data.state ∧ b'.data.bias = b.data.bias
  /-- There are no other arnodes. -/
  onto : ∀ {x' b'}, a'.arnodes.body? x' = some b' → ∃ x b, a.arnodes.body? x = some b ∧ rename x = x'
  /-- Every edge keeps its weight, and there are no other edges. -/
  edge?_eq : ∀ {x y b c}, a.arnodes.body? x = some b → a.arnodes.body? y = some c →
    a'.arnodes.edge? (rename x) (rename y) = a.arnodes.edge? x y

/-- A renaming that keeps members and states gives the same graph, if arnodes with the same members are alike. -/
theorem Agrees.renames (h : Agrees a a') (hw : Woven a none) (hw' : Woven a' none) {rename : ArNodeId → ArNodeId}
    (hbody : ∀ {x b}, a.arnodes.body? x = some b → ∃ b', a'.arnodes.body? (rename x) = some b' ∧
      b'.data.members = b.data.members ∧ b'.data.state = b.data.state)
    (honto : ∀ {x' b'}, a'.arnodes.body? x' = some b' → ∃ x b, a.arnodes.body? x = some b ∧ rename x = x') :
    Renames a a' rename := by
  refine ⟨fun {x b} hb => ?_, honto, fun {x y b c} hb hc => ?_⟩
  · obtain ⟨b', hb', hmembers, hstate⟩ := hbody hb
    obtain ⟨hlayer, hcategory, hbias⟩ := h.bias_eq hb hb' hmembers.symm
    exact ⟨b', hb', hlayer.symm, hcategory.symm, hmembers, hstate, hbias.symm⟩
  · obtain ⟨b', hb', hmembers, hstate⟩ := hbody hb
    obtain ⟨c', hc', hmembers', _⟩ := hbody hc
    cases hforward : b.data.state.isForward with
    | true => exact (h.edge?_eq hb hb' hc hc' hmembers.symm hmembers'.symm hforward (by rw [hstate, hforward])).symm
    | false =>
      have hoff : a.isForward x = false := by rw [isForward_of_body? hb, hforward]
      have hoff' : a'.isForward (rename x) = false := by rw [isForward_of_body? hb', hstate, hforward]
      rw [hw.edge?_eq, hw'.edge?_eq, hoff, hoff']
      simp

end Abstraction

namespace Network

variable [Scalar α] {net : Feedforward α} {property : Property α} {start n : Network α}

/-- The reductions are those that were chosen when the network was taken up. -/
theorem Orderly.policy_eq {options : Options} (h : Orderly net property start n)
    (hbuild : build net property options = .ok start) : n.abstraction.policy = options.policyFor property.goal := by
  have hstart : start.abstraction.policy = options.policyFor property.goal :=
    congrArg (fun p => p.2.2.2) (build_represents hbuild).2.1
  rw [← hstart]
  exact h.history.policy_eq (build_orderly hbuild).woven.grounded

/-- Networks in order that were taken up as one agree on arnodes with the same members. -/
theorem Orderly.agrees {n' : Network α} (h : Orderly net property start n) (h' : Orderly net property start n')
    (hpolicy : n'.abstraction.policy = n.abstraction.policy) : n.abstraction.Agrees n'.abstraction := by
  obtain ⟨left, _, htraced⟩ := h.traced
  obtain ⟨left', _, htraced'⟩ := h'.traced
  rcases Nat.le_total left' left with hle | hle
  · exact h.woven.agrees h'.woven hpolicy (htraced.persists htraced' hle)
  · exact (h'.woven.agrees h.woven hpolicy.symm (htraced'.persists htraced hle)).symm

theorem Orderly.boundary_eq_false (h : Orderly net property start n) {l : Nat} (hl : net.Regroupable l) :
    n.abstraction.boundary l = false := by
  have hone : l ≠ 0 := Nat.one_le_iff_ne_zero.mp (net.floor_pos.trans hl.1)
  have hlast : l + 1 ≠ net.depth := Nat.ne_of_lt hl.2
  have hrole : n.abstraction.roles[l]? = some .hidden := by
    rw [h.represents.roles_eq, List.getElem?_map, List.getElem?_range (Nat.lt_of_succ_lt hl.2)]
    simp [roleOf, hone, hlast]
  rw [Abstraction.boundary, hrole]
  rfl

/-- Whatever was merged can be split again along the old members. -/
theorem Orderly.split_merged (h : Orderly net property start n) {l : Nat} {x y z : ArNodeId} {n₁ : Network α}
    (hmerge : merge l x y n = .ok z n₁) : ∃ b₁ b₂ b parts n₂, Abstraction.MergedInto n.abstraction n₁.abstraction l x y z b₁ b₂ b ∧
      split l z [b₁.data.members, b₂.data.members] n₁ = .ok parts n₂ ∧ Orderly net property start n₂ ∧
      Abstraction.SplitInto n₁.abstraction n₂.abstraction z [b₁.data.members, b₂.data.members] parts := by
  obtain ⟨hrefinable, h₁, hrest, b₁, b₂, b, hm⟩ := (h.merge_meets l x y).of_ok hmerge
  have hrefinable₁ : n₁.requireRefinable l = .ok () := by
    have hlength : n₁.abstraction.layers.length = n.abstraction.layers.length := by rw [h₁.length_eq, h.length_eq]
    have hrange : n₁.refinable = n.refinable := by
      unfold refinable
      rw [hlength, hrest]
      rfl
    rw [requireRefinable, hrange]
    exact hrefinable
  have hregroup := (h.of_requireRefinable hrefinable).1
  have hb : n₁.abstraction.arnodes.body? z = some b := by rw [hm.body?_eq, if_pos rfl]
  have hg := h.woven.grounded
  have hpartition : Abstraction.checkPartition b.data.members [b₁.data.members, b₂.data.members] = .ok () := by
    refine Abstraction.checkPartition_eq_ok (by simp) ?_ ?_ (h₁.woven.grounded.owned.nodup hb)
    · simp [hg.owned.ne_nil hm.first_eq, hg.owned.ne_nil hm.second_eq]
    · simp [hm.members_eq]
  have hvars : 2 * [b₁.data.members, b₂.data.members].length - 2 ≤ n₁.abstraction.encoding.pool.available := by
    rw [hm.available_eq]
    exact Nat.le_add_left 2 _
  have hsplit : (split l z [b₁.data.members, b₂.data.members]).Meets n₁ (fun _ _ => True) Step.Never := by
    unfold split
    rw [Step.meets_bind, Step.meets_read, hrefinable₁]
    dsimp only
    rw [onAbstraction, Step.meets_zoom]
    exact (Abstraction.split_succeeds h₁.woven (h₁.framed hrefinable₁) (h₁.boundary_eq_false hregroup) hb hm.layer_eq
      hm.state_eq hpartition hvars).imp fun _ _ _ => trivial
  obtain ⟨parts, n₂, hok, _⟩ := hsplit.exists_ok
  obtain ⟨h₂, hs⟩ := (h₁.split_meets l z _).of_ok hok
  exact ⟨b₁, b₂, b, parts, n₂, hm, hok, h₂, hs⟩

/-- Merging two arnodes and splitting the result along the old members gives the old graph, with two new names. -/
theorem Orderly.renames_of_merge (h : Orderly net property start n) {options : Options}
    (hbuild : build net property options = .ok start) {l : Nat} {x y z : ArNodeId} {n₁ : Network α}
    (hmerge : merge l x y n = .ok z n₁) : ∃ b₁ b₂ x' y' n₂, n.abstraction.arnodes.body? x = some b₁ ∧
      n.abstraction.arnodes.body? y = some b₂ ∧ split l z [b₁.data.members, b₂.data.members] n₁ = .ok [x', y'] n₂ ∧
      n.abstraction.Renames n₂.abstraction fun u => if u = x then x' else if u = y then y' else u := by
  obtain ⟨b₁, b₂, b, parts, n₂, hm, hsplit, h₂, hmade, hfresh, hother, _⟩ := h.split_merged hmerge
  obtain ⟨x', y', rfl, ⟨c₁, hc₁, hmembers₁, hstate₁⟩, c₂, hc₂, hmembers₂, hstate₂⟩ : ∃ x' y', parts = [x', y'] ∧
      (∃ c, n₂.abstraction.arnodes.body? x' = some c ∧ c.data.members = b₁.data.members ∧ c.data.state = .fullyActivated) ∧
      ∃ c, n₂.abstraction.arnodes.body? y' = some c ∧ c.data.members = b₂.data.members ∧ c.data.state = .fullyActivated := by
    cases hmade with
    | cons hx' hrest =>
      cases hrest with
      | cons hy' hrest =>
        cases hrest
        exact ⟨_, _, rfl, hx', hy'⟩
  refine ⟨b₁, b₂, x', y', n₂, hm.first_eq, hm.second_eq, hsplit, ?_⟩
  have hpolicy : n₂.abstraction.policy = n.abstraction.policy := by rw [h₂.policy_eq hbuild, h.policy_eq hbuild]
  refine (h.agrees h₂ hpolicy).renames h.woven h₂.woven (fun {u c} hu => ?_) fun {u' c'} hu' => ?_
  · by_cases hux : u = x
    · subst hux
      rw [hm.first_eq] at hu
      cases hu
      exact ⟨c₁, by rw [if_pos rfl, hc₁], hmembers₁, hstate₁.trans hm.first_state.symm⟩
    · by_cases huy : u = y
      · subst huy
        rw [hm.second_eq] at hu
        cases hu
        exact ⟨c₂, by rw [if_neg hux, if_pos rfl, hc₂], hmembers₂, hstate₂.trans hm.second_state.symm⟩
      · -- Any other arnode outlives both steps, since neither takes a handle that is in use.
        have huz : u ≠ z := by
          rintro rfl
          rw [hm.fresh hux huy] at hu
          cases hu
        have hu₁ : n₁.abstraction.arnodes.body? u = some c := by simp [hm.body?_eq, huz, hux, huy, hu]
        have hparts : u ∉ [x', y'] := by
          intro hmem
          rw [hfresh u hmem huz] at hu₁
          cases hu₁
        refine ⟨c, ?_, rfl, rfl⟩
        rw [if_neg hux, if_neg huy, hother u hparts, if_neg huz, hu₁]
  · by_cases hparts : u' ∈ [x', y']
    · rcases List.mem_pair.mp hparts with rfl | rfl
      · exact ⟨x, b₁, hm.first_eq, if_pos rfl⟩
      · exact ⟨y, b₂, hm.second_eq, by rw [if_neg hm.ne.symm, if_pos rfl]⟩
    · rw [hother u' hparts] at hu'
      have huz : u' ≠ z := by
        rintro rfl
        simp at hu'
      rw [if_neg huz, hm.body?_eq, if_neg huz] at hu'
      have huxy : ¬(u' = x ∨ u' = y) := by
        intro heq
        rw [if_pos heq] at hu'
        cases hu'
      rw [if_neg huxy] at hu'
      rw [not_or] at huxy
      exact ⟨u', c', hu', by rw [if_neg huxy.1, if_neg huxy.2]⟩

/-- The abstract graph is a function of the partition. In a network reached by calls whose stages were in turn, edges,
weights and biases of the arnodes are folded from their members by the chosen reductions. Two such networks agree on arnodes
with the same members, and merging followed by splitting along the old members gives the old graph. -/
theorem abstractGraph_of_partition {options : Options} (hbuild : build net property options = .ok start)
    (hreach : ReachesInOrder start n) : n.abstraction.policy = options.policyFor property.goal ∧
      n.abstraction.FoldsNodes ∧
      (∀ n', ReachesInOrder start n' → n.abstraction.Agrees n'.abstraction) ∧
      ∀ l x y z n₁, merge l x y n = .ok z n₁ → ∃ b₁ b₂ x' y' n₂, n.abstraction.arnodes.body? x = some b₁ ∧
        n.abstraction.arnodes.body? y = some b₂ ∧ split l z [b₁.data.members, b₂.data.members] n₁ = .ok [x', y'] n₂ ∧
        n.abstraction.Renames n₂.abstraction fun u => if u = x then x' else if u = y then y' else u := by
  have h := hreach.orderly hbuild
  have hpolicy := h.policy_eq hbuild
  refine ⟨hpolicy, h.woven.foldsNodes, fun n' hreach' => ?_, fun l x y z n₁ hmerge => h.renames_of_merge hbuild hmerge⟩
  have h' := hreach'.orderly hbuild
  exact h.agrees h' ((h'.policy_eq hbuild).trans hpolicy.symm)

/-- In the forked network, the arnodes of the second hidden neuron and of one piece of the first can be merged and split
again. -/
theorem abstractGraph_of_partition_fork : ∃ start n z n₁, build .fork ⟨.maximize, 0, 1⟩ .standard = .ok start ∧
    ReachesInOrder start n ∧ n.frontier.isComplete = true ∧ n.abstraction.FoldsNodes ∧
    (∀ n', ReachesInOrder start n' → n.abstraction.Agrees n'.abstraction) ∧ merge 1 ⟨2, 0⟩ ⟨4, 0⟩ n = .ok z n₁ ∧
    ∃ b₁ b₂ x y n₂, n.abstraction.arnodes.body? ⟨2, 0⟩ = some b₁ ∧ n.abstraction.arnodes.body? ⟨4, 0⟩ = some b₂ ∧
      split 1 z [b₁.data.members, b₂.data.members] n₁ = .ok [x, y] n₂ ∧
      n.abstraction.Renames n₂.abstraction fun u => if u = ⟨2, 0⟩ then x else if u = ⟨4, 0⟩ then y else u := by
  obtain ⟨start, n, hbuild, _, hreach, hfinished, hmerge⟩ := exists_completed .fork ⟨.maximize, 0, 1⟩ .standard
    (P := fun _ n => n.frontier.isComplete = true ∧ (merge 1 ⟨2, 0⟩ ⟨4, 0⟩).Meets n (fun _ _ => True) Step.Never)
    (by decide +kernel)
  obtain ⟨z, n₁, hmerged, _⟩ := hmerge.exists_ok
  obtain ⟨_, hfolds, hagrees, hsplit⟩ := abstractGraph_of_partition hbuild hreach
  exact ⟨start, n, z, n₁, hbuild, hreach, hfinished, hfolds, hagrees, hmerged, hsplit 1 _ _ z n₁ hmerged⟩

end Network

end ReluAbstraction
