import Mathlib.Tactic
import ReluAbstraction.Proofs.ExactArithmetic
import ReluAbstraction.Proofs.NeuronSplitting
import ReluAbstraction.Proofs.Choices

/-!
# Best candidates

Scores are distances of weights. Where distances and their comparisons are those of rationals, the chosen merge has the
least score of all, and no higher layer has that score. The chosen split has the largest score of all.
-/

namespace ReluAbstraction

section Search

variable {β : Type} {key : β → Rat} {xs : List β} {x : β}

/-- No key is less than that of `x`, and the keys before it are larger. -/
def FirstLeast (key : β → Rat) (xs : List β) (x : β) : Prop :=
  ∃ before after, xs = before ++ x :: after ∧ (∀ y ∈ before, key x < key y) ∧ ∀ y ∈ after, key x ≤ key y

theorem FirstLeast.le (h : FirstLeast key xs x) {y : β} (hy : y ∈ xs) : key x ≤ key y := by
  obtain ⟨before, after, rfl, hbefore, hafter⟩ := h
  rw [List.mem_append, List.mem_cons] at hy
  rcases hy with hy | rfl | hy
  · exact (hbefore y hy).le
  · exact le_rfl
  · exact hafter y hy

/-- In a sorted list, what is not to stand after the chosen element stands before it. -/
theorem FirstLeast.lt_of_pairwise {R : β → β → Prop} (h : FirstLeast key xs x) (hxs : xs.Pairwise R) {y : β} (hy : y ∈ xs)
    (hne : y ≠ x) (hnot : ¬ R x y) : key x < key y := by
  obtain ⟨before, after, rfl, hbefore, _⟩ := h
  rw [List.mem_append, List.mem_cons] at hy
  rcases hy with hy | rfl | hy
  · exact hbefore y hy
  · exact absurd rfl hne
  · exact absurd (List.rel_of_pairwise_cons (List.pairwise_append.mp hxs).2.1 hy) hnot

/-- Where one element takes the place of another if its key is less, the first of least key is chosen. -/
theorem firstLeast_of_firstBest? {beats : β → β → Bool} (hbeats : ∀ y ∈ xs, ∀ z ∈ xs, beats y z = true ↔ key y < key z)
    (h : firstBest? beats xs = some x) : FirstLeast key xs x := by
  induction xs using List.reverseRecOn generalizing x with
  | nil => cases h
  | append_singleton xs y ih =>
    rw [firstBest?_concat, Option.some.injEq] at h
    cases hbest : firstBest? beats xs with
    | none =>
      rw [firstBest?_eq_none_iff] at hbest
      subst hbest
      exact ⟨[], [], by simpa [firstBest?] using h, by simp, by simp⟩
    | some best =>
      have hfirst : FirstLeast key xs best :=
        ih (fun y hy z hz => hbeats y (List.mem_append_left _ hy) z (List.mem_append_left _ hz)) hbest
      have hlt := hbeats y (by simp) best (List.mem_append_left _ (mem_of_firstBest? hbest))
      simp only [hbest, Option.elim_some] at h
      split at h
      · next hy =>
        subst h
        exact ⟨xs, [], rfl, fun z hz => (hlt.mp hy).trans_le (hfirst.le hz), by simp⟩
      · next hy =>
        subst h
        obtain ⟨before, after, rfl, hbefore, hafter⟩ := hfirst
        refine ⟨before, after ++ [y], by simp, hbefore, fun z hz => ?_⟩
        rcases List.mem_append.mp hz with hz | hz
        · exact hafter z hz
        · rw [List.mem_singleton.mp hz]
          exact le_of_not_gt fun hless => hy (hlt.mpr hless)

end Search

namespace Network

variable {α : Type} [Scalar α] {net : Feedforward α} {property : Property α} {options : Options} {start n : Network α}
  {l : Nat} {value : α → Rat}

/-- A weight of an edge between nodes or between arnodes. -/
def Weighs (n : Network α) (w : α) : Prop :=
  (∃ p m, n.abstraction.nodes.edge? p m = some w) ∨ ∃ x y, n.abstraction.arnodes.edge? x y = some w

/-- Zero or a distance of two weights. -/
def Scores (n : Network α) (s : α) : Prop := s = 0 ∨ ∃ w w', n.Weighs w ∧ n.Weighs w' ∧ s = Scalar.magnitude (w - w')

/-- Weights stand for rationals, their distances are not rounded, and scores are ordered as the rationals are. -/
structure ReadsExactly (n : Network α) (value : α → Rat) : Prop where
  zero : value 0 = 0
  distance : ∀ {w w'}, n.Weighs w → n.Weighs w' → value (Scalar.magnitude (w - w')) = |value w - value w'|
  lt_iff : ∀ {s t}, n.Scores s → n.Scores t → (s < t ↔ value s < value t)
  self : ∀ {s}, n.Scores s → (s == s) = true

/-- Rationals stand for themselves. -/
theorem readsExactly_id (n : Network Rat) : n.ReadsExactly id where
  zero := rfl
  distance _ _ := Scalar.magnitude_exact _
  lt_iff _ _ := Iff.rfl
  self _ := beq_self_eq_true _

section Comparing

variable {β : Type} {score : β → α} {xs : List β} {x : β}

/-- Where smaller scores win, the first of least score is chosen. -/
theorem ReadsExactly.firstLeast (hvalue : n.ReadsExactly value) (hscores : ∀ y ∈ xs, n.Scores (score y))
    (hbest : firstBest? (fun y z => decide (score y < score z)) xs = some x) :
    FirstLeast (fun y => value (score y)) xs x := by
  refine firstLeast_of_firstBest? (fun y hy z hz => ?_) hbest
  rw [decide_eq_true_eq]
  exact hvalue.lt_iff (hscores y hy) (hscores z hz)

/-- Where larger scores win, the first of largest score is chosen. -/
theorem ReadsExactly.firstLeast_neg (hvalue : n.ReadsExactly value) (hscores : ∀ y ∈ xs, n.Scores (score y))
    (hbest : firstBest? (fun y z => decide (score z < score y)) xs = some x) :
    FirstLeast (fun y => -value (score y)) xs x := by
  refine firstLeast_of_firstBest? (fun y hy z hz => ?_) hbest
  rw [decide_eq_true_eq, neg_lt_neg_iff]
  exact hvalue.lt_iff (hscores z hz) (hscores y hy)

/-- Folding scores by the larger one is such a choice. -/
theorem ReadsExactly.firstBest?_larger (hvalue : n.ReadsExactly value) {s : α} {scores : List α} (hs : n.Scores s)
    (hscores : ∀ t ∈ scores, n.Scores t) :
    firstBest? (fun t u => decide (u < t)) (s :: scores) = some (scores.foldl Scalar.larger s) := by
  rw [firstBest?, Option.some.injEq]
  induction scores generalizing s with
  | nil => rfl
  | cons t scores ih =>
    have hlarger : Scalar.larger s t = if decide (s < t) = true then t else s := by
      simp only [Scalar.larger, hvalue.self hs, if_true, decide_eq_true_eq]
    rw [List.foldl_cons, List.foldl_cons, hlarger]
    refine ih ?_ fun u hu => hscores u (List.mem_cons_of_mem t hu)
    split
    · exact hscores t List.mem_cons_self
    · exact hs

end Comparing

section Merging

variable {source : ArNodeId} {e e' : EdgeKey × Edge α ArNodeId}

theorem Rivals.symm (hr : n.Rivals l source e e') : n.Rivals l source e' e := by
  obtain ⟨v, hv, hlayer, hget, hget'⟩ := hr.exists_source
  exact ⟨hr.refinable, ⟨v, hv, hlayer, hget', hget⟩, hr.ne.symm, hr.category_eq.symm⟩

theorem Rivals.weighs (hr : n.Rivals l source e e') (h : n.abstraction.ArnodesSound) : n.Weighs e.2.weight := by
  obtain ⟨v, hv, _, hget, _⟩ := hr.exists_source
  obtain ⟨_, _, _, hedge⟩ := (h.graph.edges_iff hv .outgoing e.1 e.2.weight e.2.neighbor).mp hget
  exact .inr ⟨source, e.2.neighbor, hedge⟩

/-- The score of rivals is the distance of their weights. -/
theorem Rivals.value_score (hr : n.Rivals l source e e') (h : n.abstraction.ArnodesSound) (hvalue : n.ReadsExactly value) :
    n.Scores (MergeCandidate.ofEdges l e.2 e'.2).score ∧
      value (MergeCandidate.ofEdges l e.2 e'.2).score = |value e.2.weight - value e'.2.weight| := by
  have hw := hr.weighs h
  have hw' := hr.symm.weighs h
  exact ⟨.inr ⟨_, _, hw, hw', rfl⟩, hvalue.distance hw hw'⟩

/-- The candidate of least score of a layer. -/
theorem ListsMerges.le {cs : List (MergeCandidate α)} {c : MergeCandidate α} (hcs : n.ListsMerges l cs)
    (h : n.abstraction.ArnodesSound) (hvalue : n.ReadsExactly value)
    (hbest : firstBest? (fun x y => decide (x.score < y.score)) cs = some c) (hr : n.Rivals l source e e') :
    value c.score ≤ |value e.2.weight - value e'.2.weight| := by
  have hscores : ∀ c ∈ cs, n.Scores c.score := by
    intro c hc
    obtain ⟨_, _, _, hr, rfl⟩ := hcs.sound c hc
    exact (hr.value_score h hvalue).1
  have hleast := hvalue.firstLeast hscores hbest
  rcases hcs.complete hr with hmem | hmem
  · exact (hleast.le hmem).trans_eq (hr.value_score h hvalue).2
  · exact (hleast.le hmem).trans_eq ((hr.symm.value_score h hvalue).2.trans (abs_sub_comm _ _))

/-- The best candidates of the layers, the highest layer first. -/
theorem Orderly.exists_bests (h : Orderly net property start n) (hvalue : n.ReadsExactly value)
    (order : ArNodeId → EdgeSet.Listing α ArNodeId) :
    ∃ bests : List (MergeCandidate α), bests.Pairwise (fun c c' => c'.layer < c.layer) ∧
      (∀ c ∈ bests, ∃ source e e', n.Rivals c.layer source e e' ∧ c = .ofEdges c.layer e.2 e'.2) ∧
      (∀ {l source e e'}, n.Rivals l source e e' →
        ∃ c ∈ bests, c.layer = l ∧ value c.score ≤ |value e.2.weight - value e'.2.weight|) ∧
      (∀ c, firstBest? (fun x y => decide (x.score < y.score)) bests = some c → n.bestMergeIn order = .ok c) ∧
      (firstBest? (fun x y => decide (x.score < y.score)) bests = none →
        n.bestMergeIn order = .error .noMergeCandidate) := by
  obtain ⟨merges, hlists, hsome, hnone⟩ := h.bestMergeIn_eq order
  have hlayer : ∀ l ∈ n.refinable.descending, ∀ c ∈ merges l, c.layer = l := by
    intro l hl c hc
    obtain ⟨_, _, _, _, rfl⟩ := (hlists l hl).sound c hc
    rfl
  refine ⟨_, ?_, fun c hc => ?_, fun {l source e e'} hr => ?_, hsome, hnone⟩
  · rw [List.pairwise_filterMap]
    have hdescending : n.refinable.descending.Pairwise (fun l l' => l' < l) := by
      rw [LayerRange.descending, List.pairwise_reverse]
      exact List.pairwise_lt_range'
    refine hdescending.imp_of_mem fun {l l'} hl hl' hlt c hc c' hc' => ?_
    rw [hlayer l hl c (mem_of_firstBest? hc), hlayer l' hl' c' (mem_of_firstBest? hc')]
    exact hlt
  · obtain ⟨l, hl, hfirst⟩ := List.mem_filterMap.mp hc
    have hmem := mem_of_firstBest? hfirst
    rw [hlayer l hl c hmem]
    exact (hlists l hl).sound c hmem
  · have hl : l ∈ n.refinable.descending := LayerRange.mem_descending_iff.mpr hr.refinable
    cases hfirst : firstBest? (fun x y => decide (x.score < y.score)) (merges l) with
    | none =>
      rw [firstBest?_eq_none_iff] at hfirst
      rcases (hlists l hl).complete hr with hmem | hmem <;> rw [hfirst] at hmem <;> cases hmem
    | some c =>
      exact ⟨c, List.mem_filterMap.mpr ⟨l, hl, hfirst⟩, hlayer l hl c (mem_of_firstBest? hfirst),
        (hlists l hl).le h.woven.grounded.arnodes hvalue hfirst hr⟩

/-- The candidate of two arnodes fed by one source, whose weights are closest. No higher layer has a pair as close. -/
structure LeastMerge (n : Network α) (value : α → Rat) (c : MergeCandidate α) : Prop where
  refinable : n.refinable.contains c.layer = true
  ordered : compare c.first c.second = .lt
  bodies : ∃ b b', n.abstraction.arnodes.body? c.first = some b ∧ n.abstraction.arnodes.body? c.second = some b' ∧
    b.location.layer = c.layer ∧ b'.location.layer = c.layer ∧ b.location.category = b'.location.category
  fed : ∃ source e e', n.Rivals c.layer source e e' ∧ e.2.neighbor = c.first ∧ e'.2.neighbor = c.second ∧
    value c.score = |value e.2.weight - value e'.2.weight|
  least : ∀ {l source e e'}, n.Rivals l source e e' → value c.score ≤ |value e.2.weight - value e'.2.weight|
  highest : ∀ {l source e e'}, n.Rivals l source e e' → c.layer < l →
    value c.score < |value e.2.weight - value e'.2.weight|

/-- The arnode with the smaller handle comes first. -/
theorem Rivals.ordered (hr : n.Rivals l source e e') (h : n.abstraction.ArnodesSound) :
    compare (MergeCandidate.ofEdges l e.2 e'.2).first (MergeCandidate.ofEdges l e.2 e'.2).second = .lt := by
  have hne := (hr.canMerge h).ne
  simp only [MergeCandidate.ofEdges] at hne ⊢
  split at hne
  · next hordered =>
    cases hcompare : compare e.2.neighbor e'.2.neighbor with
    | lt => simp [hcompare]
    | eq => exact absurd (Std.LawfulEqCmp.eq_of_compare hcompare) (by simpa [hordered] using hne)
    | gt => simp [hcompare] at hordered
  · next hordered =>
    rw [if_neg hordered, if_neg hordered]
    exact Std.OrientedCmp.gt_iff_lt.mp (by simpa using hordered)

/-- The candidate of rivals that are nowhere undercut. -/
theorem leastMerge_ofEdges (hr : n.Rivals l source e e') (h : n.abstraction.ArnodesSound) (hvalue : n.ReadsExactly value)
    (hleast : ∀ {l' source e₁ e₂}, n.Rivals l' source e₁ e₂ →
      value (MergeCandidate.ofEdges l e.2 e'.2).score ≤ |value e₁.2.weight - value e₂.2.weight|)
    (hhighest : ∀ {l' source e₁ e₂}, n.Rivals l' source e₁ e₂ → l < l' →
      value (MergeCandidate.ofEdges l e.2 e'.2).score < |value e₁.2.weight - value e₂.2.weight|) :
    n.LeastMerge value (.ofEdges l e.2 e'.2) := by
  have hscore := (hr.value_score h hvalue).2
  refine ⟨hr.refinable, hr.ordered h, (hr.canMerge h).bodies, ?_, hleast, hhighest⟩
  by_cases hordered : (compare e.2.neighbor e'.2.neighbor).isLE = true
  · exact ⟨source, e, e', hr, by simp [MergeCandidate.ofEdges, hordered], by simp [MergeCandidate.ofEdges, hordered], hscore⟩
  · exact ⟨source, e', e, hr.symm, by simp [MergeCandidate.ofEdges, hordered], by simp [MergeCandidate.ofEdges, hordered],
      hscore.trans (abs_sub_comm _ _)⟩

/-- In a network reached by calls whose stages were in turn, the merge that is chosen is of least score, in the highest layer
that has this score, in whatever order the edges of each source are taken. None is chosen if and only if no source has two
edges into one table of a layer that may be regrouped. -/
theorem bestMerge_least (hbuild : build net property options = .ok start) (hreach : ReachesInOrder start n)
    (hvalue : n.ReadsExactly value) (order : ArNodeId → EdgeSet.Listing α ArNodeId) :
    (n.bestMergeIn order = .error .noMergeCandidate ↔ ∀ l source e e', ¬ n.Rivals l source e e') ∧
      ((∃ l source e e', n.Rivals l source e e') → ∃ c, n.bestMergeIn order = .ok c ∧ n.LeastMerge value c) := by
  have h := hreach.orderly hbuild
  have harnodes := h.woven.grounded.arnodes
  obtain ⟨bests, hdescending, hsound, hcomplete, hsome, hnone⟩ := h.exists_bests hvalue order
  cases hbest : firstBest? (fun x y => decide (x.score < y.score)) bests with
  | none =>
    have hempty := firstBest?_eq_none_iff.mp hbest
    have hrivals : ∀ l source e e', ¬ n.Rivals l source e e' := by
      intro l source e e' hr
      obtain ⟨c, hc, _⟩ := hcomplete hr
      rw [hempty] at hc
      cases hc
    refine ⟨iff_of_true (hnone hbest) hrivals, ?_⟩
    rintro ⟨l, source, e, e', hr⟩
    exact absurd hr (hrivals l source e e')
  | some c =>
    obtain ⟨source, e, e', hr, hc⟩ := hsound c (mem_of_firstBest? hbest)
    have hchosen := hsome c hbest
    have hscores : ∀ c ∈ bests, n.Scores c.score := by
      intro c hc
      obtain ⟨_, _, _, hr, heq⟩ := hsound c hc
      rw [heq]
      exact (hr.value_score harnodes hvalue).1
    have hfirst := hvalue.firstLeast hscores hbest
    refine ⟨iff_of_false (by simp [hchosen]) fun hnot => hnot _ _ _ _ hr, fun _ => ⟨c, hchosen, ?_⟩⟩
    rw [hc]
    rw [hc] at hfirst
    refine leastMerge_ofEdges hr harnodes hvalue (fun hr' => ?_) fun hr' hlt => ?_
    · obtain ⟨c', hc', _, hle⟩ := hcomplete hr'
      exact (hfirst.le hc').trans hle
    · obtain ⟨c', hc', rfl, hle⟩ := hcomplete hr'
      refine (hfirst.lt_of_pairwise hdescending hc' (fun heq => ?_) hlt.not_gt).trans_le hle
      rw [heq] at hlt
      exact lt_irrefl _ hlt

/-- In the forked network two inputs have two edges each into one table. The edges of weights at distance one are chosen, not
those at distance two. -/
theorem bestMerge_least_fork : ∃ start n c, build .fork ⟨.maximize, 0, 1⟩ .standard = .ok start ∧ ReachesInOrder start n ∧
    n.ReadsExactly id ∧ n.bestMerge = .ok c ∧ c.first = ⟨2, 0⟩ ∧ c.second = ⟨4, 0⟩ ∧ c.score = 1 ∧
    n.LeastMerge id c := by
  obtain ⟨start, n, hbuild, _, hreach, hbest⟩ := exists_completed .fork ⟨.maximize, 0, 1⟩ .standard
    (P := fun _ n => ∃ c ∈ n.bestMerge.toOption, c.first = ⟨2, 0⟩ ∧ c.second = ⟨4, 0⟩ ∧ c.score = 1) (by decide +kernel)
  obtain ⟨c, hc, hfirst, hsecond, hscore⟩ := exists_ok_of_toOption hbest
  have hvalue := readsExactly_id n
  obtain ⟨hnone, hsome⟩ := bestMerge_least hbuild hreach hvalue fun _ => .bySlot
  have hrivals : ∃ l source e e', n.Rivals l source e e' := by
    by_contra hnot
    push Not at hnot
    cases hc.symm.trans (hnone.mpr hnot)
  obtain ⟨c', hc', hleast⟩ := hsome hrivals
  obtain rfl : c = c' := Except.ok.inj (hc.symm.trans hc')
  exact ⟨start, n, c, hbuild, hreach, hvalue, hc, hfirst, hsecond, hscore, hleast⟩

end Merging

section Splitting

variable {x : ArNodeId} {m : NodeId}

/-- The largest distance of a weight into the node `m` and the weight into the arnode `x` that stands for it, zero if there
is none. -/
structure LargestGap (n : Network α) (value : α → Rat) (x : ArNodeId) (m : NodeId) (s : Rat) : Prop where
  le : ∀ {p w}, n.abstraction.nodes.edge? p m = some w → ∃ w', n.FoldedInto x m p w w' ∧ |value w - value w'| ≤ s
  attained : (∃ p w w', n.FoldedInto x m p w w' ∧ s = |value w - value w'|) ∨
    s = 0 ∧ ∀ p, n.abstraction.nodes.edge? p m = none

/-- The score of an edge is the distance of its weight and the one that stands for it. -/
theorem FoldedInto.value_distance {p : NodeId} {w w' : α} (hf : n.FoldedInto x m p w w') (hvalue : n.ReadsExactly value) :
    n.Scores (Scalar.magnitude (w - w')) ∧ value (Scalar.magnitude (w - w')) = |value w - value w'| := by
  obtain ⟨y, _, hedge⟩ := hf.exists_source
  have hw : n.Weighs w := .inl ⟨p, m, hf.edge⟩
  have hw' : n.Weighs w' := .inr ⟨y, x, hedge⟩
  exact ⟨.inr ⟨w, w', hw, hw', rfl⟩, hvalue.distance hw hw'⟩

/-- The score of a node is its largest gap. -/
theorem Splits.largestGap {c : SplitCandidate α} (hc : n.Splits c) (h : Orderly net property start n)
    (hvalue : n.ReadsExactly value) : n.Scores c.score ∧ n.LargestGap value c.arnode c.member (value c.score) := by
  obtain ⟨v, hv, hlayer, _, hm, _, hscore⟩ := hc.exists_arnode
  have hl : n.requireRefinable v.location.layer = .ok () := by
    rw [hlayer]
    exact if_pos hc.refinable
  obtain ⟨distances, hfold, heach, hall⟩ := h.memberScore_eq hv hl hm
  rw [hscore, Except.ok.injEq] at hfold
  have hscores : ∀ s ∈ distances, n.Scores s := by
    intro s hs
    obtain ⟨_, _, _, hf, rfl⟩ := hall s hs
    exact (hf.value_distance hvalue).1
  have hlisted : ∀ s ∈ 0 :: distances, n.Scores s := List.forall_mem_cons.mpr ⟨.inl rfl, hscores⟩
  have hbest := hvalue.firstBest?_larger (.inl rfl) hscores
  rw [← hfold] at hbest
  have hfirst : FirstLeast (fun s => -value s) (0 :: distances) c.score := hvalue.firstLeast_neg hlisted hbest
  have hmem : c.score ∈ 0 :: distances := mem_of_firstBest? hbest
  have hle : ∀ {p w}, n.abstraction.nodes.edge? p c.member = some w →
      ∃ w', n.FoldedInto c.arnode c.member p w w' ∧ |value w - value w'| ≤ value c.score := by
    intro p w hw
    obtain ⟨w', hf, hdistance⟩ := heach hw
    refine ⟨w', hf, ?_⟩
    rw [← (hf.value_distance hvalue).2]
    exact neg_le_neg_iff.mp (hfirst.le (List.mem_cons_of_mem 0 hdistance))
  refine ⟨hlisted _ hmem, hle, ?_⟩
  rcases List.mem_cons.mp hmem with hzero | hdistance
  · rw [hzero, hvalue.zero] at hle ⊢
    by_cases hedge : ∃ p w, n.abstraction.nodes.edge? p c.member = some w
    · obtain ⟨p, w, hw⟩ := hedge
      obtain ⟨w', hf, hgap⟩ := hle hw
      exact .inl ⟨p, w, w', hf, (abs_nonneg _).antisymm hgap⟩
    · refine .inr ⟨rfl, fun p => ?_⟩
      rw [Option.eq_none_iff_forall_not_mem]
      exact fun w hw => hedge ⟨p, w, hw⟩
  · obtain ⟨p, w, w', hf, heq⟩ := hall _ hdistance
    rw [heq, (hf.value_distance hvalue).2]
    exact .inl ⟨p, w, w', hf, rfl⟩

/-- The candidate of a node that shares its arnode, with the largest gap of all such nodes. -/
structure LargestSplit (n : Network α) (value : α → Rat) (c : SplitCandidate α) : Prop where
  refinable : n.refinable.contains c.layer = true
  exists_body : ∃ b, n.abstraction.arnodes.body? c.arnode = some b ∧ b.location.layer = c.layer ∧
    2 ≤ b.data.members.length ∧ c.member ∈ b.data.members ∧
    c.partition = [[c.member], b.data.members.filter (· ≠ c.member)] ∧
    Abstraction.checkPartition b.data.members c.partition = .ok ()
  gap : n.LargestGap value c.arnode c.member (value c.score)
  largest : ∀ {x b}, n.abstraction.arnodes.body? x = some b → n.refinable.contains b.location.layer = true →
    2 ≤ b.data.members.length → ∀ m ∈ b.data.members, ∃ s, n.LargestGap value x m s ∧ s ≤ value c.score

/-- In a network reached by calls whose stages were in turn, the split that is chosen has the largest score and leaves a
partition that is accepted. None is chosen if and only if every arnode that may be regrouped holds one node. -/
theorem bestSplit_largest (hbuild : build net property options = .ok start) (hreach : ReachesInOrder start n)
    (hvalue : n.ReadsExactly value) :
    (n.bestSplit = .error .noSplitCandidate ↔ ∀ x b, n.abstraction.arnodes.body? x = some b →
      n.refinable.contains b.location.layer = true → b.data.members.length = 1) ∧
    ((∃ x b, n.abstraction.arnodes.body? x = some b ∧ n.refinable.contains b.location.layer = true ∧
      b.data.members.length ≠ 1) → ∃ c, n.bestSplit = .ok c ∧ n.LargestSplit value c) := by
  have h := hreach.orderly hbuild
  have ho := h.woven.grounded.owned
  obtain ⟨cs, hiff, hsome, hnone⟩ := h.bestSplit_eq
  cases hbest : firstBest? (fun x y => decide (y.score < x.score)) cs with
  | none =>
    rw [firstBest?_eq_none_iff] at hbest
    subst hbest
    have hone : ∀ x b, n.abstraction.arnodes.body? x = some b → n.refinable.contains b.location.layer = true →
        b.data.members.length = 1 := fun x b hb hl =>
      h.length_members_eq_one (fun c hc => List.not_mem_nil ((hiff c).mpr hc)) hb (if_pos hl)
    refine ⟨iff_of_true (hnone rfl) hone, ?_⟩
    rintro ⟨x, b, hb, hl, hlength⟩
    exact absurd (hone x b hb hl) hlength
  | some c =>
    have hc := (hiff c).mp (mem_of_firstBest? hbest)
    obtain ⟨v, hv, hlayer, htwo, hm, hrest, _⟩ := hc.exists_arnode
    have hb := Graph.body?_of_get? hv
    have hpartition : c.partition = [[c.member], v.data.members.filter (· ≠ c.member)] := by
      rw [SplitCandidate.partition, hrest]
    have hfirst := hvalue.firstLeast_neg (fun c hc => (((hiff c).mp hc).largestGap h hvalue).1) hbest
    refine ⟨iff_of_false (by simp [hsome c hbest]) fun hone => ?_, fun _ => ⟨c, hsome c hbest, hc.refinable, ?_,
      (hc.largestGap h hvalue).2, fun {x b} hb' hl htwo' m hm' => ?_⟩⟩
    · have hlength := hone c.arnode v.body hb (by rw [Vertex.body_location, hlayer]; exact hc.refinable)
      rw [Vertex.body_data] at hlength
      omega
    · refine ⟨v.body, hb, hlayer, htwo, hm, hpartition, ?_⟩
      rw [hpartition]
      exact checkPartition_apart (ho.nodup hb) htwo hm
    · obtain ⟨u, hu, rfl⟩ := Graph.body?_eq_some_iff.mp hb'
      obtain ⟨c', hc', rfl, rfl⟩ := h.exists_splits hu (if_pos hl) htwo' hm'
      exact ⟨_, (hc'.largestGap h hvalue).2, neg_le_neg_iff.mp (hfirst.le ((hiff c').mpr hc'))⟩

/-- In the forked network, after a merge, one of the two nodes gets the weights of its arnode and the other does not. The
latter is split off. -/
theorem bestSplit_largest_fork : ∃ start n c, build .fork ⟨.maximize, 0, 1⟩ .standard = .ok start ∧ ReachesInOrder start n ∧
    n.ReadsExactly id ∧ n.bestSplit = .ok c ∧ c.partition = [[⟨6, 0⟩], [⟨2, 1⟩]] ∧ c.score = 2 ∧ n.LargestSplit id c := by
  obtain ⟨start, n₀, hbuild, _, hreach₀, hmeets⟩ := exists_completed .fork ⟨.maximize, 0, 1⟩ .standard
    (P := fun _ n₀ => (merge 1 ⟨2, 0⟩ ⟨4, 0⟩).Meets n₀ (fun _ n => ∃ c ∈ n.bestSplit.toOption,
      c.partition = [[⟨6, 0⟩], [⟨2, 1⟩]] ∧ c.score = 2) Step.Never) (by decide +kernel)
  obtain ⟨_, n, hmerge, hbest⟩ := hmeets.exists_ok
  obtain ⟨c, hc, hpartition, hscore⟩ := exists_ok_of_toOption hbest
  have hreach := hreach₀.merge hmerge
  have hvalue := readsExactly_id n
  obtain ⟨hnone, hsome⟩ := bestSplit_largest hbuild hreach hvalue
  have hmany : ∃ x b, n.abstraction.arnodes.body? x = some b ∧ n.refinable.contains b.location.layer = true ∧
      b.data.members.length ≠ 1 := by
    by_contra hnot
    push Not at hnot
    rw [hnone.mpr hnot] at hc
    cases hc
  obtain ⟨c', hc', hlargest⟩ := hsome hmany
  obtain rfl : c = c' := Except.ok.inj (hc.symm.trans hc')
  exact ⟨start, n, c, hbuild, hreach, hvalue, hc, hpartition, hscore, hlargest⟩

end Splitting

end Network

end ReluAbstraction
