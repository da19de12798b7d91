import ReluAbstraction.Proofs.Counting
import ReluAbstraction.Proofs.Enumeration

/-!
# Candidates

Every candidate for a merge or a split is one that can be carried out: two arnodes of one table that may be regrouped, or
a node that is not the only one of its arnode. So the only reason to find no candidate is that there is none.
-/

namespace ReluAbstraction

section Search

variable {β : Type}

/-- One more element takes the place of what was chosen or leaves it. -/
theorem firstBest?_concat (beats : β → β → Bool) (xs : List β) (y : β) : firstBest? beats (xs ++ [y]) =
    some ((firstBest? beats xs).elim y fun best => if beats y best then y else best) := by
  cases xs with
  | nil => rfl
  | cons x xs => simp [firstBest?]

/-- What is chosen is one of the elements. -/
theorem mem_of_firstBest? {beats : β → β → Bool} {xs : List β} {x : β} (h : firstBest? beats xs = some x) : x ∈ xs := by
  induction xs using List.reverseRecOn generalizing x with
  | nil => cases h
  | append_singleton xs y ih =>
    rw [firstBest?_concat, Option.some.injEq] at h
    rw [List.mem_append, List.mem_singleton]
    cases hbest : firstBest? beats xs with
    | none =>
      rw [hbest] at h
      exact .inr h.symm
    | some best =>
      simp only [hbest, Option.elim_some] at h
      split at h
      · exact .inr h.symm
      · exact .inl (h ▸ ih hbest)

theorem firstBest?_eq_none_iff {beats : β → β → Bool} {xs : List β} : firstBest? beats xs = none ↔ xs = [] := by
  cases xs <;> simp [firstBest?]

/-- The elements of all the lists that a traversal gives. -/
theorem exists_mapM_flatten {ε γ : Type} {f : β → Except ε (List γ)} {xs : List β} {P : β → γ → Prop}
    (h : ∀ x ∈ xs, ∃ ys, f x = .ok ys ∧ ∀ y, y ∈ ys ↔ P x y) :
    ∃ yss, xs.mapM f = .ok yss ∧ ∀ y, y ∈ yss.flatten ↔ ∃ x ∈ xs, P x y := by
  obtain ⟨yss, hyss, heach, hall⟩ := exists_mapM_ok h
  refine ⟨yss, hyss, fun y => ?_⟩
  rw [List.mem_flatten]
  constructor
  · rintro ⟨ys, hys, hy⟩
    obtain ⟨x, hx, hiff⟩ := hall ys hys
    exact ⟨x, hx, (hiff y).mp hy⟩
  · rintro ⟨x, hx, hP⟩
    obtain ⟨ys, hys, hiff⟩ := heach x hx
    exact ⟨ys, hys, (hiff y).mpr hP⟩

/-- The pairs of edges into one table. -/
theorem EdgeSet.of_mem_combinationsIn {α η : Type} {order : Listing α η} {s : EdgeSet α η} {e e' : EdgeKey × Edge α η}
    (h : [e, e'] ∈ s.combinationsIn order 2) : s.get? e.1 = some e.2 ∧ s.get? e'.1 = some e'.2 ∧ e.1 ≠ e'.1 ∧
      e.1.category = e'.1.category := by
  obtain ⟨category, hsub, _⟩ := (mem_combinationsIn_iff order (by decide)).mp h
  have hperm := order.perm s category
  have hmem : ∀ x ∈ [e, e'], s.get? x.1 = some x.2 ∧ x.1.category = category :=
    fun x hx => mem_table_iff.mp (hperm.subset (hsub.subset hx))
  obtain ⟨hget, hcategory⟩ := hmem e (by simp)
  obtain ⟨hget', hcategory'⟩ := hmem e' (by simp)
  refine ⟨hget, hget', ?_, hcategory.trans hcategory'.symm⟩
  have hkeys : ((order.table s category).map Prod.fst).Nodup :=
    (hperm.map Prod.fst).nodup_iff.mpr ((List.filter_sublist.map Prod.fst).nodup SortedMap.keys_nodup)
  simpa using (hsub.map Prod.fst).nodup hkeys

/-- Two elements of a list stand in it one before the other. -/
theorem pair_sublist {xs : List β} {x y : β} (hx : x ∈ xs) (hy : y ∈ xs) (hne : x ≠ y) :
    [x, y].Sublist xs ∨ [y, x].Sublist xs := by
  induction xs with
  | nil => cases hx
  | cons z xs ih =>
    rcases List.mem_cons.mp hx with rfl | hxs
    · have hys := (List.mem_cons.mp hy).resolve_left hne.symm
      exact .inl ((List.singleton_sublist.mpr hys).cons_cons x)
    · rcases List.mem_cons.mp hy with rfl | hys
      · exact .inr ((List.singleton_sublist.mpr hxs).cons_cons y)
      · exact (ih hxs hys).imp (.cons z) (.cons z)

/-- Any two edges into one table are among the pairs, one way round or the other. -/
theorem EdgeSet.pair_mem_combinationsIn {α η : Type} (order : Listing α η) {s : EdgeSet α η} {e e' : EdgeKey × Edge α η}
    (he : s.get? e.1 = some e.2) (he' : s.get? e'.1 = some e'.2) (hne : e.1 ≠ e'.1)
    (hcategory : e.1.category = e'.1.category) :
    [e, e'] ∈ s.combinationsIn order 2 ∨ [e', e] ∈ s.combinationsIn order 2 := by
  have hperm := order.perm s e.1.category
  have hmem : e ∈ order.table s e.1.category := hperm.mem_iff.mpr (mem_table_iff.mpr ⟨he, rfl⟩)
  have hmem' : e' ∈ order.table s e.1.category := hperm.mem_iff.mpr (mem_table_iff.mpr ⟨he', hcategory.symm⟩)
  have hlisted : ∀ {pair : List (EdgeKey × Edge α η)}, pair.Sublist (order.table s e.1.category) → pair.length = 2 →
      pair ∈ s.combinationsIn order 2 :=
    fun hsub hlength => (mem_combinationsIn_iff order (by decide)).mpr ⟨e.1.category, hsub, hlength⟩
  rcases pair_sublist hmem hmem' (fun heq => hne (congrArg Prod.fst heq)) with hsub | hsub
  · exact .inl (hlisted hsub rfl)
  · exact .inr (hlisted hsub rfl)

/-- The layers of a range. -/
theorem LayerRange.mem_descending_iff {range : LayerRange} {l : Nat} : l ∈ range.descending ↔ range.contains l = true := by
  simp only [descending, contains, List.mem_reverse, List.mem_range'_1, decide_eq_true_eq]
  omega

end Search

namespace Network

variable {α : Type} {n : Network α}

/-- The arnodes of a layer. -/
theorem arnodesIn_eq (h : n.abstraction.ArnodesSound) {l : Nat} {layer : Layer}
    (hlayer : n.abstraction.layers[l]? = some layer) : ∃ ids, n.arnodesIn l = .ok ids ∧
      ∀ x, x ∈ ids ↔ ∃ b, n.abstraction.arnodes.body? x = some b ∧ b.location.layer = l := by
  refine ⟨layer.arnodes.handles, ?_, fun x => ?_⟩
  · simp only [arnodesIn, Abstraction.layer_of_getElem? hlayer, bind, Except.bind]
    rfl
  · exact h.housed.mem_handles_iff (Abstraction.getElem?_arnodeChains hlayer) (by decide)

variable [Scalar α] {net : Feedforward α} {property : Property α} {options : Options} {start : Network α} {l : Nat}

theorem requireRefinable_iff : n.requireRefinable l = .ok () ↔ l ∈ n.refinable.descending := by
  rw [LayerRange.mem_descending_iff, requireRefinable]
  split <;> simp_all

/-- Once the frontier is complete, all layers but the fixed ones may be regrouped. -/
theorem Orderly.requireRefinable_of_complete (h : Orderly net property start n)
    (hcomplete : n.frontier.isComplete = true) (hl : net.Regroupable l) : n.requireRefinable l = .ok () := by
  have hfull : n.frontier.full = none := by
    simp only [Frontier.isComplete, Bool.and_eq_true, Option.isNone_iff_eq_none] at hcomplete
    exact hcomplete.2
  have hfloor : (if n.hasSignedInputs then 2 else 1) = net.floor := by
    rw [hasSignedInputs, h.inputs_eq]
    rfl
  obtain ⟨hfirst, hlast⟩ := hl
  have hpos := net.floor_pos
  rw [requireRefinable, if_pos]
  simp only [LayerRange.contains, refinable, hfull, hfloor, h.length_eq, decide_eq_true_eq]
  refine ⟨?_, by omega⟩
  split <;> omega

section Merging

/-- Two arnodes of one table of a layer that may be regrouped. -/
structure CanMerge (n : Network α) (c : MergeCandidate α) : Prop where
  refinable : n.requireRefinable c.layer = .ok ()
  ne : c.first ≠ c.second
  bodies : ∃ b₁ b₂, n.abstraction.arnodes.body? c.first = some b₁ ∧ n.abstraction.arnodes.body? c.second = some b₂ ∧
    b₁.location.layer = c.layer ∧ b₂.location.layer = c.layer ∧ b₁.location.category = b₂.location.category

omit [Scalar α] in
/-- The arnode at the end of an outgoing edge. -/
theorem exists_target (h : n.abstraction.ArnodesSound) {x : ArNodeId} {v : ArNode α}
    (hv : n.abstraction.arnodes.get? x = some v) {key : EdgeKey} {e : Edge α ArNodeId}
    (he : v.outgoing.get? key = some e) : ∃ b, n.abstraction.arnodes.body? e.neighbor = some b ∧
      b.location.layer = v.location.layer + 1 ∧ b.location.key = key := by
  obtain ⟨u, hu, hkey, hedge⟩ := (h.graph.edges_iff hv .outgoing key e.weight e.neighbor).mp he
  obtain ⟨v', u', hv', hu', hlayer⟩ := h.graph.ends hedge
  obtain rfl : v = v' := Option.some.inj (hv.symm.trans hv')
  obtain rfl : u = u' := Option.some.inj (hu.symm.trans hu')
  exact ⟨u.body, Graph.body?_of_get? hu, hlayer, hkey⟩

/-- Two edges of an arnode into one table of the next layer, which may be regrouped. -/
structure Rivals (n : Network α) (l : Nat) (source : ArNodeId) (e e' : EdgeKey × Edge α ArNodeId) : Prop where
  refinable : n.refinable.contains l = true
  exists_source : ∃ v, n.abstraction.arnodes.get? source = some v ∧ v.location.layer + 1 = l ∧
    v.outgoing.get? e.1 = some e.2 ∧ v.outgoing.get? e'.1 = some e'.2
  ne : e.1 ≠ e'.1
  category_eq : e.1.category = e'.1.category

/-- Rivals lead to two arnodes that can be merged. -/
theorem Rivals.canMerge {x : ArNodeId} {e e' : EdgeKey × Edge α ArNodeId} (hr : n.Rivals l x e e')
    (h : n.abstraction.ArnodesSound) : n.CanMerge (MergeCandidate.ofEdges l e.2 e'.2) := by
  obtain ⟨v, hv, hlayer, hget, hget'⟩ := hr.exists_source
  obtain ⟨b, hb, hbl, hkey⟩ := exists_target h hv hget
  obtain ⟨b', hb', hbl', hkey'⟩ := exists_target h hv hget'
  have hl : n.requireRefinable l = .ok () := if_pos hr.refinable
  have hne : e.2.neighbor ≠ e'.2.neighbor := by
    intro heq
    rw [heq, hb'] at hb
    cases hb
    exact hr.ne (hkey.symm.trans hkey')
  have hsame : b.location.category = b'.location.category := by
    have hcategory := hr.category_eq
    rw [← hkey, ← hkey'] at hcategory
    exact hcategory
  by_cases hordered : (compare e.2.neighbor e'.2.neighbor).isLE = true
  · refine ⟨hl, ?_, b, b', ?_⟩ <;> simp only [MergeCandidate.ofEdges, hordered, if_true]
    · exact hne
    · exact ⟨hb, hb', hbl.trans hlayer, hbl'.trans hlayer, hsame⟩
  · refine ⟨hl, ?_, b', b, ?_⟩ <;> simp only [MergeCandidate.ofEdges, hordered]
    · exact hne.symm
    · exact ⟨hb', hb, hbl'.trans hlayer, hbl.trans hlayer, hsame.symm⟩

/-- The candidates are those of the rivals in layer `l`. -/
structure ListsMerges (n : Network α) (l : Nat) (cs : List (MergeCandidate α)) : Prop where
  sound : ∀ c ∈ cs, ∃ source e e', n.Rivals l source e e' ∧ c = .ofEdges l e.2 e'.2
  complete : ∀ {source e e'}, n.Rivals l source e e' → .ofEdges l e.2 e'.2 ∈ cs ∨ .ofEdges l e'.2 e.2 ∈ cs

/-- The candidates of one source. -/
theorem mergesFrom_eq {x : ArNodeId} {v : ArNode α} (hv : n.abstraction.arnodes.get? x = some v)
    (order : EdgeSet.Listing α ArNodeId) : ∃ cs, n.mergesFrom order l x = .ok cs ∧
      ∀ c, c ∈ cs ↔ ∃ e e', [e, e'] ∈ v.outgoing.combinationsIn order 2 ∧ c = .ofEdges l e.2 e'.2 := by
  have hread : n.abstraction.arnode x = .ok v := Arena.get_of_get? hv
  simp only [mergesFrom, hread, bind, Except.bind, pure, Except.pure]
  refine ⟨_, rfl, fun c => ?_⟩
  rw [List.mem_filterMap]
  constructor
  · rintro ⟨pair, hpair, hsome⟩
    split at hsome
    · next e e' => exact ⟨e, e', hpair, (Option.some.inj hsome).symm⟩
    · cases hsome
  · rintro ⟨e, e', hpair, rfl⟩
    exact ⟨[e, e'], hpair, rfl⟩

/-- The candidates of a layer. -/
theorem Orderly.mergesIn_eq (h : Orderly net property start n) (hl : n.requireRefinable l = .ok ())
    (order : ArNodeId → EdgeSet.Listing α ArNodeId) : ∃ cs, n.mergesIn order l = .ok cs ∧ n.ListsMerges l cs := by
  obtain ⟨⟨hfirst, hlast⟩, _⟩ := h.of_requireRefinable hl
  have hpos := net.floor_pos
  have hrefinable : n.refinable.contains l = true := LayerRange.mem_descending_iff.mp (requireRefinable_iff.mp hl)
  obtain ⟨layer, hlayer⟩ := h.exists_layer (l := l - 1) (by omega)
  obtain ⟨ids, hids, hmem⟩ := arnodesIn_eq h.woven.grounded.arnodes hlayer
  have hsource : ∀ x ∈ ids, ∃ cs, n.mergesFrom (order x) l x = .ok cs ∧ ∀ c, c ∈ cs ↔
      ∃ v, n.abstraction.arnodes.get? x = some v ∧
        ∃ e e', [e, e'] ∈ v.outgoing.combinationsIn (order x) 2 ∧ c = .ofEdges l e.2 e'.2 := by
    intro x hx
    obtain ⟨b, hb, _⟩ := (hmem x).mp hx
    obtain ⟨v, hv, _⟩ := Graph.body?_eq_some_iff.mp hb
    obtain ⟨cs, hcs, hpairs⟩ := mergesFrom_eq (l := l) hv (order x)
    refine ⟨cs, hcs, fun c => ?_⟩
    rw [hpairs, hv]
    simp only [Option.some.injEq, exists_eq_left']
  obtain ⟨css, hcss, hiff⟩ := exists_mapM_flatten hsource
  refine ⟨css.flatten, by simp only [mergesIn, hids, hcss, bind, Except.bind, pure, Except.pure], fun c hc => ?_, ?_⟩
  · obtain ⟨x, hx, v, hv, e, e', hpair, rfl⟩ := (hiff c).mp hc
    obtain ⟨b, hb, hbl⟩ := (hmem x).mp hx
    rw [Graph.body?_of_get? hv, Option.some.injEq] at hb
    rw [← hb, Vertex.body_location] at hbl
    obtain ⟨hget, hget', hne, hcategory⟩ := EdgeSet.of_mem_combinationsIn hpair
    exact ⟨x, e, e', ⟨hrefinable, ⟨v, hv, by omega, hget, hget'⟩, hne, hcategory⟩, rfl⟩
  · intro x e e' hr
    obtain ⟨v, hv, hvl, hget, hget'⟩ := hr.exists_source
    have hx : x ∈ ids := (hmem x).mpr ⟨v.body, Graph.body?_of_get? hv, by rw [Vertex.body_location]; omega⟩
    refine (EdgeSet.pair_mem_combinationsIn (order x) hget hget' hr.ne hr.category_eq).imp (fun hpair => ?_) fun hpair => ?_
    · exact (hiff _).mpr ⟨x, hx, v, hv, e, e', hpair, rfl⟩
    · exact (hiff _).mpr ⟨x, hx, v, hv, e', e, hpair, rfl⟩

/-- The best merge is the best one of the best of each layer. -/
theorem Orderly.bestMergeIn_eq (h : Orderly net property start n) (order : ArNodeId → EdgeSet.Listing α ArNodeId) :
    ∃ merges : Nat → List (MergeCandidate α), (∀ l ∈ n.refinable.descending, n.ListsMerges l (merges l)) ∧
    (∀ c, firstBest? (fun x y => decide (x.score < y.score)) (n.refinable.descending.filterMap fun l =>
      firstBest? (fun x y => decide (x.score < y.score)) (merges l)) = some c → n.bestMergeIn order = .ok c) ∧
    (firstBest? (fun x y => decide (x.score < y.score)) (n.refinable.descending.filterMap fun l =>
      firstBest? (fun x y => decide (x.score < y.score)) (merges l)) = none →
        n.bestMergeIn order = .error .noMergeCandidate) := by
  have hlayers : ∀ l, ∃ cs, l ∈ n.refinable.descending → n.mergesIn order l = .ok cs ∧ n.ListsMerges l cs := by
    intro l
    by_cases hl : l ∈ n.refinable.descending
    · obtain ⟨cs, hcs⟩ := h.mergesIn_eq (requireRefinable_iff.mpr hl) order
      exact ⟨cs, fun _ => hcs⟩
    · exact ⟨[], fun hmem => absurd hmem hl⟩
  choose merges hmerges using hlayers
  have hper : n.refinable.descending.mapM (n.mergesIn order) = .ok (n.refinable.descending.map merges) :=
    mapM_eq_ok_map merges fun l hl => (hmerges l hl).1
  refine ⟨merges, fun l hl => (hmerges l hl).2, fun c hc => ?_, fun hnone => ?_⟩
  · simp only [bestMergeIn, hper, bind, Except.bind, List.filterMap_map, Function.comp_def, hc]
    rfl
  · simp only [bestMergeIn, hper, bind, Except.bind, List.filterMap_map, Function.comp_def, hnone]
    rfl

/-- The best merge is one that can be carried out. -/
theorem Orderly.bestMergeIn_cases (h : Orderly net property start n) (order : ArNodeId → EdgeSet.Listing α ArNodeId) :
    (∃ c, n.bestMergeIn order = .ok c ∧ n.CanMerge c) ∨ n.bestMergeIn order = .error .noMergeCandidate := by
  obtain ⟨merges, hlists, hsome, hnone⟩ := h.bestMergeIn_eq order
  cases hbest : firstBest? (fun x y => decide (x.score < y.score)) (n.refinable.descending.filterMap fun l =>
      firstBest? (fun x y => decide (x.score < y.score)) (merges l)) with
  | none => exact .inr (hnone hbest)
  | some c =>
    obtain ⟨l, hl, hfirst⟩ := List.mem_filterMap.mp (mem_of_firstBest? hbest)
    obtain ⟨_, _, _, hr, rfl⟩ := (hlists l hl).sound c (mem_of_firstBest? hfirst)
    exact .inl ⟨_, hsome _ hbest, hr.canMerge h.woven.grounded.arnodes⟩

/-- A merge that can be carried out succeeds. -/
theorem Orderly.applyMerge_eq_ok (h : Orderly net property start n) {c : MergeCandidate α} (hc : n.CanMerge c) :
    ∃ merged n', applyMerge c n = .ok merged n' := by
  obtain ⟨b₁, b₂, hb₁, hb₂, hl₁, hl₂, hcategory⟩ := hc.bodies
  exact h.merge_eq_ok hc.refinable hc.ne hb₁ hb₂ hl₁ hl₂ hcategory

end Merging

section Splitting

/-- An arnode of a layer that may be regrouped, with a partition of its nodes. -/
structure CanSplit (n : Network α) (c : SplitCandidate α) : Prop where
  refinable : n.requireRefinable c.layer = .ok ()
  body : ∃ b, n.abstraction.arnodes.body? c.arnode = some b ∧ b.location.layer = c.layer ∧ 2 ≤ b.data.members.length ∧
    Abstraction.checkPartition b.data.members c.partition = .ok ()

/-- The edge from `p` to the node `m`, of weight `w`, goes into an edge to the arnode `x`, of weight `w'`. -/
structure FoldedInto (n : Network α) (x : ArNodeId) (m p : NodeId) (w w' : α) : Prop where
  edge : n.abstraction.nodes.edge? p m = some w
  exists_source : ∃ y, n.abstraction.ownerOf p = .ok y ∧ n.abstraction.arnodes.edge? y x = some w'

/-- In a layer that may be regrouped every edge to a node goes into one to its arnode. -/
theorem Orderly.distortion_eq (h : Orderly net property start n) {x : ArNodeId} {v : ArNode α}
    (hv : n.abstraction.arnodes.get? x = some v) (hl : n.requireRefinable v.location.layer = .ok ()) {m p : NodeId} {w : α}
    (hm : m ∈ v.data.members) (hedge : n.abstraction.nodes.edge? p m = some w) :
    ∃ w', n.FoldedInto x m p w w' ∧ n.distortion v ⟨w, p⟩ = .ok (Scalar.magnitude (w - w')) := by
  have hg := h.woven.grounded
  obtain ⟨c, hc, hheld, hlayer, _⟩ := hg.owned.member (Graph.body?_of_get? hv) m hm
  obtain ⟨u, t, hu, ht, hnext⟩ := hg.nodes.graph.ends hedge
  obtain rfl : c = t.body.info := Option.some.inj (hc.symm.trans (Abstraction.info?_of_get? ht))
  obtain ⟨y, hy, hforward⟩ := (h.framed hl).below (Abstraction.info?_of_get? hu) (hnext.symm.trans hlayer)
  obtain ⟨d, hd, _⟩ := hg.owned.holder hy
  obtain ⟨source, hsource, _⟩ := Graph.body?_eq_some_iff.mp hd
  obtain ⟨w', hw'⟩ := Option.isSome_iff_exists.mp (hg.owned.isSome_folded?_iff.mpr ⟨p, m, w, hy, hheld, hedge⟩)
  have habstract : n.abstraction.arnodes.edge? y x = some w' := by
    rw [h.woven.edge?_eq, if_pos ⟨hforward, by simp⟩, hw']
  obtain ⟨s, t', hs, ht', hfaces⟩ := hg.arnodes.graph.ends habstract
  obtain rfl : source = s := Option.some.inj (hsource.symm.trans hs)
  obtain rfl : v = t' := Option.some.inj (hv.symm.trans ht')
  have hweight : (v.incoming.get? source.location.key).map (·.weight) = some w' :=
    (hg.arnodes.graph.weight_at_key (d := .incoming) hv hsource hfaces).trans habstract
  obtain ⟨e, he, rfl⟩ := Option.map_eq_some_iff.mp hweight
  have hread : n.abstraction.arnode y = .ok source := Arena.get_of_get? hsource
  refine ⟨e.weight, ⟨hedge, y, Abstraction.ownerOf_eq hy, habstract⟩, ?_⟩
  simp only [distortion, Abstraction.ownerOf_eq hy, hread, he, bind, Except.bind, pure, Except.pure]

/-- The score of a node is folded from the distances of its edges. -/
theorem Orderly.memberScore_eq (h : Orderly net property start n) {x : ArNodeId} {v : ArNode α}
    (hv : n.abstraction.arnodes.get? x = some v) (hl : n.requireRefinable v.location.layer = .ok ()) {m : NodeId}
    (hm : m ∈ v.data.members) : ∃ distances : List α, n.memberScore v m = .ok (distances.foldl Scalar.larger 0) ∧
      (∀ {p w}, n.abstraction.nodes.edge? p m = some w →
        ∃ w', n.FoldedInto x m p w w' ∧ Scalar.magnitude (w - w') ∈ distances) ∧
      ∀ distance ∈ distances, ∃ p w w', n.FoldedInto x m p w w' ∧ distance = Scalar.magnitude (w - w') := by
  have hg := h.woven.grounded
  obtain ⟨c, hc, _⟩ := hg.owned.member (Graph.body?_of_get? hv) m hm
  obtain ⟨b, hb, rfl⟩ := Option.map_eq_some_iff.mp hc
  obtain ⟨t, ht, rfl⟩ := Graph.body?_eq_some_iff.mp hb
  have hread : n.abstraction.node m = .ok t := Arena.get_of_get? ht
  have hedge : ∀ e ∈ t.incoming.toList, ∃ distance, n.distortion v e.2 = .ok distance ∧
      ∃ w', n.FoldedInto x m e.2.neighbor e.2.weight w' ∧ distance = Scalar.magnitude (e.2.weight - w') := by
    intro e he
    obtain ⟨_, _, _, hedge⟩ := (hg.nodes.graph.edges_iff ht .incoming e.1 e.2.weight e.2.neighbor).mp
      (SortedMap.mem_toList_iff.mp he)
    obtain ⟨w', hfolded, hdistance⟩ := h.distortion_eq hv hl hm hedge
    exact ⟨_, hdistance, w', hfolded, rfl⟩
  obtain ⟨distances, hdistances, heach, hall⟩ := exists_mapM_ok hedge
  refine ⟨distances, ?_, fun {p w} hw => ?_, fun distance hdistance => ?_⟩
  · simp only [memberScore, hread, hdistances, bind, Except.bind, pure, Except.pure]
  · obtain ⟨u, _, hu, _, _⟩ := hg.nodes.graph.ends hw
    have hget := (hg.nodes.graph.edges_iff ht .incoming u.location.key w p).mpr ⟨u, hu, rfl, hw⟩
    obtain ⟨_, hmem, w', hfolded, rfl⟩ := heach (u.location.key, ⟨w, p⟩) (SortedMap.mem_toList_iff.mpr hget)
    exact ⟨w', hfolded, hmem⟩
  · obtain ⟨e, _, w', hfolded, rfl⟩ := hall distance hdistance
    exact ⟨_, _, w', hfolded, rfl⟩

/-- A node and the other nodes of its arnode are a partition. -/
theorem checkPartition_apart {members : List NodeId} (hnodup : members.Nodup) (htwo : 2 ≤ members.length) {m : NodeId}
    (hm : m ∈ members) : Abstraction.checkPartition members [[m], members.filter (· ≠ m)] = .ok () := by
  have hrest : members.filter (· ≠ m) = members.erase m := by
    rw [hnodup.erase_eq_filter]
    exact List.filter_congr fun x _ => by simp [bne, beq_eq_decide]
  have hperm : [[m], members.filter (· ≠ m)].flatten.Perm members := by
    rw [hrest]
    simpa using (List.perm_cons_erase hm).symm
  refine (Abstraction.checkPartition_eq_ok_iff hnodup).mpr ⟨by simp, fun cell hcell hempty => ?_, hperm⟩
  have hlength := hperm.length_eq
  rcases List.mem_cons.mp hcell with rfl | hcell
  · cases hempty
  · rw [List.mem_singleton] at hcell
    rw [← hcell, hempty] at hlength
    simp at hlength
    omega

/-- The candidate of a node that shares its arnode, in a layer that may be regrouped. -/
structure Splits (n : Network α) (c : SplitCandidate α) : Prop where
  refinable : n.refinable.contains c.layer = true
  exists_arnode : ∃ v, n.abstraction.arnodes.get? c.arnode = some v ∧ v.location.layer = c.layer ∧
    2 ≤ v.data.members.length ∧ c.member ∈ v.data.members ∧ c.rest = v.data.members.filter (· ≠ c.member) ∧
    n.memberScore v c.member = .ok c.score

/-- The node can be split off. -/
theorem Splits.canSplit {c : SplitCandidate α} (hc : n.Splits c) (h : n.abstraction.Owned) : n.CanSplit c := by
  obtain ⟨v, hv, hlayer, htwo, hm, hrest, _⟩ := hc.exists_arnode
  have hb := Graph.body?_of_get? hv
  refine ⟨if_pos hc.refinable, v.body, hb, hlayer, htwo, ?_⟩
  rw [SplitCandidate.partition, hrest]
  exact checkPartition_apart (h.nodup hb) htwo hm

/-- A candidate is determined by its node. -/
theorem Splits.ext {c c' : SplitCandidate α} (hc : n.Splits c) (hc' : n.Splits c') (harnode : c.arnode = c'.arnode)
    (hmember : c.member = c'.member) : c = c' := by
  obtain ⟨v, hv, hlayer, _, _, hrest, hscore⟩ := hc.exists_arnode
  obtain ⟨v', hv', hlayer', _, _, hrest', hscore'⟩ := hc'.exists_arnode
  rw [← harnode, hv, Option.some.injEq] at hv'
  subst hv'
  rw [← hmember] at hrest' hscore'
  cases c
  cases c'
  simp only [SplitCandidate.mk.injEq]
  exact ⟨hlayer.symm.trans hlayer', harnode, hmember, hrest.trans hrest'.symm, Except.ok.inj (hscore.symm.trans hscore')⟩

/-- Every node that shares its arnode gives a candidate. -/
theorem Orderly.exists_splits (h : Orderly net property start n) {x : ArNodeId} {v : ArNode α}
    (hv : n.abstraction.arnodes.get? x = some v) (hl : n.requireRefinable v.location.layer = .ok ())
    (htwo : 2 ≤ v.data.members.length) {m : NodeId} (hm : m ∈ v.data.members) :
    ∃ c, n.Splits c ∧ c.arnode = x ∧ c.member = m := by
  obtain ⟨_, hscore, _⟩ := h.memberScore_eq hv hl hm
  refine ⟨⟨v.location.layer, x, m, v.data.members.filter (· ≠ m), _⟩, ⟨?_, v, hv, rfl, htwo, hm, rfl, hscore⟩, rfl, rfl⟩
  exact LayerRange.mem_descending_iff.mp (requireRefinable_iff.mp hl)

/-- Without candidates the arnodes that may be split hold one node each. -/
theorem Orderly.length_members_eq_one (h : Orderly net property start n) (hnone : ∀ c, ¬ n.Splits c) {x : ArNodeId}
    {b : Body (ArNodeData α)} (hb : n.abstraction.arnodes.body? x = some b)
    (hl : n.requireRefinable b.location.layer = .ok ()) : b.data.members.length = 1 := by
  obtain ⟨v, hv, rfl⟩ := Graph.body?_eq_some_iff.mp hb
  rw [Vertex.body_location] at hl
  rw [Vertex.body_data]
  obtain ⟨m, hm⟩ := List.exists_mem_of_ne_nil v.data.members (h.woven.grounded.owned.ne_nil hb)
  have hpos := List.length_pos_of_mem hm
  by_contra hone
  obtain ⟨c, hc, _⟩ := h.exists_splits hv hl (by omega) hm
  exact hnone c hc

/-- The candidates of an arnode. -/
theorem Orderly.splitsOf_eq (h : Orderly net property start n) {x : ArNodeId} {v : ArNode α}
    (hv : n.abstraction.arnodes.get? x = some v) (hl : n.requireRefinable v.location.layer = .ok ()) :
    ∃ cs, n.splitsOf v.location.layer x = .ok cs ∧ ∀ c, c ∈ cs ↔ c.arnode = x ∧ n.Splits c := by
  have hread : n.abstraction.arnode x = .ok v := Arena.get_of_get? hv
  have hunfold : n.splitsOf v.location.layer x =
      if v.data.members.length < 2 then .ok [] else v.data.members.mapM fun m => do
        return ⟨v.location.layer, x, m, v.data.members.filter (· ≠ m), ← n.memberScore v m⟩ := by
    rw [splitsOf, hread]
    rfl
  rw [hunfold]
  split
  · next hfew =>
    refine ⟨[], rfl, fun c => ⟨fun hc => by simp at hc, ?_⟩⟩
    rintro ⟨rfl, hc⟩
    obtain ⟨v', hv', _, htwo, _⟩ := hc.exists_arnode
    obtain rfl : v = v' := Option.some.inj (hv.symm.trans hv')
    omega
  · next hmany =>
    have hsingle : ∀ m ∈ v.data.members, ∃ c, (do
        return ⟨v.location.layer, x, m, v.data.members.filter (· ≠ m), ← n.memberScore v m⟩ :
          Except Error (SplitCandidate α)) = .ok c ∧ n.Splits c ∧ c.arnode = x ∧ c.member = m := by
      intro m hm
      obtain ⟨c, hc, rfl, rfl⟩ := h.exists_splits hv hl (Nat.not_lt.mp hmany) hm
      obtain ⟨v', hv', hlayer, _, _, hrest, hscore⟩ := hc.exists_arnode
      obtain rfl : v = v' := Option.some.inj (hv.symm.trans hv')
      refine ⟨c, ?_, hc, rfl, rfl⟩
      rw [hscore, hlayer, ← hrest]
      rfl
    obtain ⟨cs, hcs, heach, hall⟩ := exists_mapM_ok hsingle
    refine ⟨cs, hcs, fun c => ⟨fun hc => ?_, ?_⟩⟩
    · obtain ⟨_, _, hsplits, harnode, _⟩ := hall c hc
      exact ⟨harnode, hsplits⟩
    · rintro ⟨harnode, hc⟩
      obtain ⟨v', hv', _, _, hm, _⟩ := hc.exists_arnode
      rw [harnode, hv, Option.some.injEq] at hv'
      subst hv'
      obtain ⟨c', hmem, hc', harnode', hmember⟩ := heach c.member hm
      rwa [hc.ext hc' (harnode.trans harnode'.symm) hmember.symm]

/-- The candidates of a layer. -/
theorem Orderly.splitsIn_eq (h : Orderly net property start n) (hl : n.requireRefinable l = .ok ()) :
    ∃ cs, n.splitsIn l = .ok cs ∧ ∀ c, c ∈ cs ↔ c.layer = l ∧ n.Splits c := by
  obtain ⟨layer, hlayer⟩ := h.exists_layer (Nat.lt_of_succ_lt (h.of_requireRefinable hl).1.2)
  obtain ⟨ids, hids, hmem⟩ := arnodesIn_eq h.woven.grounded.arnodes hlayer
  have harnodes : ∀ x ∈ ids, ∃ cs, n.splitsOf l x = .ok cs ∧ ∀ c, c ∈ cs ↔ c.arnode = x ∧ n.Splits c := by
    intro x hx
    obtain ⟨b, hb, hbl⟩ := (hmem x).mp hx
    obtain ⟨v, hv, rfl⟩ := Graph.body?_eq_some_iff.mp hb
    rw [Vertex.body_location] at hbl
    rw [← hbl] at hl ⊢
    exact h.splitsOf_eq hv hl
  obtain ⟨css, hcss, hiff⟩ := exists_mapM_flatten harnodes
  refine ⟨css.flatten, by simp only [splitsIn, hids, hcss, bind, Except.bind, pure, Except.pure], fun c => ?_⟩
  rw [hiff]
  constructor
  · rintro ⟨x, hx, rfl, hc⟩
    obtain ⟨v, hv, hvl, _⟩ := hc.exists_arnode
    obtain ⟨b, hb, hbl⟩ := (hmem c.arnode).mp hx
    rw [Graph.body?_of_get? hv, Option.some.injEq] at hb
    rw [← hb, Vertex.body_location] at hbl
    exact ⟨hvl.symm.trans hbl, hc⟩
  · rintro ⟨rfl, hc⟩
    obtain ⟨v, hv, hvl, _⟩ := hc.exists_arnode
    exact ⟨c.arnode, (hmem c.arnode).mpr ⟨v.body, Graph.body?_of_get? hv, hvl⟩, rfl, hc⟩

/-- The best split is the best one of all candidates. -/
theorem Orderly.bestSplit_eq (h : Orderly net property start n) : ∃ cs, (∀ c, c ∈ cs ↔ n.Splits c) ∧
    (∀ c, firstBest? (fun x y => decide (y.score < x.score)) cs = some c → n.bestSplit = .ok c) ∧
    (cs = [] → n.bestSplit = .error .noSplitCandidate) := by
  obtain ⟨css, hcss, hiff⟩ := exists_mapM_flatten fun l hl => h.splitsIn_eq (requireRefinable_iff.mpr hl)
  refine ⟨css.flatten, fun c => ?_, fun c hc => ?_, fun hempty => ?_⟩
  · rw [hiff]
    constructor
    · rintro ⟨_, _, _, hc⟩
      exact hc
    · intro hc
      exact ⟨c.layer, LayerRange.mem_descending_iff.mpr hc.refinable, rfl, hc⟩
  · simp only [bestSplit, hcss, bind, Except.bind, hc]
    rfl
  · simp only [bestSplit, hcss, bind, Except.bind, hempty]
    rfl

/-- The best split is one that can be carried out. If there is none, the arnodes that may be split hold one node each. -/
theorem Orderly.bestSplit_cases (h : Orderly net property start n) : (∃ c, n.bestSplit = .ok c ∧ n.CanSplit c) ∨
    n.bestSplit = .error .noSplitCandidate ∧ ∀ {x b}, n.abstraction.arnodes.body? x = some b →
      n.requireRefinable b.location.layer = .ok () → b.data.members.length = 1 := by
  obtain ⟨cs, hiff, hsome, hnone⟩ := h.bestSplit_eq
  cases hbest : firstBest? (fun x y => decide (y.score < x.score)) cs with
  | some c => exact .inl ⟨c, hsome c hbest, ((hiff c).mp (mem_of_firstBest? hbest)).canSplit h.woven.grounded.owned⟩
  | none =>
    rw [firstBest?_eq_none_iff] at hbest
    subst hbest
    exact .inr ⟨hnone rfl, h.length_members_eq_one fun c hc => List.not_mem_nil ((hiff c).mpr hc)⟩

/-- A split that can be carried out succeeds if two variables are free. -/
theorem Orderly.applySplit_eq_ok (h : Orderly net property start n) {c : SplitCandidate α} (hc : n.CanSplit c)
    (hvars : 2 ≤ n.abstraction.encoding.pool.available) : ∃ parts n', applySplit c n = .ok parts n' := by
  obtain ⟨b, hb, hl, _, hpartition⟩ := hc.body
  exact h.split_eq_ok hc.refinable hb hl hpartition (by simpa [SplitCandidate.partition] using hvars)

/-- If a complete abstraction has nothing left to split, every arnode holds one node. -/
theorem Orderly.alone_of_bestSplit (h : Orderly net property start n) (hbuild : build net property options = .ok start)
    (hcomplete : n.frontier.isComplete = true) (hnone : n.bestSplit = .error .noSplitCandidate) :
    n.abstraction.Alone fun _ => False := by
  rcases h.bestSplit_cases with ⟨c, hc, _⟩ | ⟨_, hone⟩
  · rw [hnone] at hc
    cases hc
  · intro x b hb
    rcases h.alone hbuild hb with halone | hregroupable
    · exact .inl halone
    · exact .inl (hone hb (h.requireRefinable_of_complete hcomplete hregroupable))

end Splitting

end Network

end ReluAbstraction
