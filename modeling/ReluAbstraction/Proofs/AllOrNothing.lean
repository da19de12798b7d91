import ReluAbstraction.Proofs.AbstractGraph
import ReluAbstraction.Proofs.Generations

/-!
# Merging and splitting are all or nothing

Merging and splitting destroy arnodes before they build new ones. In a network in order a request that is turned down has
changed nothing at all, since whatever could go wrong is found before the first arnode is destroyed. A request that is
carried out replaces exactly the arnodes that it names. The conditions for that are known in advance: a request to merge
needs no free variables, and a request to split needs two for each additional arnode and can do with exactly that many.
-/

namespace ReluAbstraction

variable {α : Type}

/-- Pairs of two lists may be described with a view to where the first element comes from. -/
theorem forall₂_imp_mem {β γ : Type} {r s : β → γ → Prop} {xs : List β} {ys : List γ} (h : List.Forall₂ r xs ys)
    (hrs : ∀ x ∈ xs, ∀ y, r x y → s x y) : List.Forall₂ s xs ys := by
  induction h with
  | nil => exact .nil
  | cons hxy _ ih =>
    exact .cons (hrs _ List.mem_cons_self _ hxy) (ih fun x hx => hrs x (List.mem_cons_of_mem _ hx))

namespace Abstraction

theorem body?_eq_none_of_outdated {a : Abstraction α} {x : ArNodeId} (h : a.arnodes.Outdated x) :
    a.arnodes.body? x = none := by
  rw [Graph.body?, h.get?_eq_none, Option.map_none]

/-- Parts that hold the cells of a partition are different from each other. -/
theorem nodup_of_cells {a : Abstraction α} {cells : List (List NodeId)} {parts : List ArNodeId}
    (hmade : List.Forall₂ (fun cell part => ∃ b, a.arnodes.body? part = some b ∧ b.data.members = cell ∧
      b.data.state = .fullyActivated) cells parts)
    (hne : ∀ cell ∈ cells, cell ≠ []) (hnodup : cells.flatten.Nodup) : parts.Nodup := by
  induction hmade with
  | nil => exact .nil
  | @cons cell part cells parts hpart hrest ih =>
    rw [List.flatten_cons, List.nodup_append] at hnodup
    refine List.nodup_cons.mpr ⟨fun hmem => ?_, ih (fun c hc => hne c (List.mem_cons_of_mem _ hc)) hnodup.2.1⟩
    -- A part that came twice would hold two cells, which have no member in common.
    obtain ⟨b, hb, hmembers, _⟩ := hpart
    obtain ⟨other, hother, c, hc, hmembers', _⟩ := exists_mem_of_forall₂_right hrest hmem
    rw [hb] at hc
    cases hc
    obtain ⟨m, hm⟩ := List.exists_mem_of_ne_nil _ (hne cell List.mem_cons_self)
    refine hnodup.2.2 m hm m (List.mem_flatten.mpr ⟨other, hother, ?_⟩) rfl
    rw [← hmembers', hmembers]
    exact hm

variable [Scalar α]

/-- One arnode of layer `l` has taken the place of two. -/
structure Fusion (a a' : Abstraction α) (l : Nat) (first second merged : ArNodeId) (b₁ b₂ b : Body (ArNodeData α)) :
    Prop where
  /-- The two arnodes were there, in one table of the layer. -/
  operands : a.arnodes.body? first = some b₁ ∧ a.arnodes.body? second = some b₂ ∧ b₁.location.layer = l ∧
    b₂.location.layer = l ∧ b₂.location.category = b₁.location.category
  /-- They are gone. -/
  gone : a'.arnodes.body? first = none ∧ a'.arnodes.body? second = none
  /-- The third is new. -/
  new : a.arnodes.body? merged = none ∧ a'.arnodes.body? merged = some b
  /-- It is fully activated, in the same table, and holds the members of both. -/
  result : b.data.state = .fullyActivated ∧ b.location.layer = l ∧ b.location.category = b₁.location.category ∧
    b.data.members = b₁.data.members ++ b₂.data.members
  /-- All other arnodes are as they were. -/
  rest : ∀ x, x ≠ first → x ≠ second → x ≠ merged → a'.arnodes.body? x = a.arnodes.body? x
  /-- The nodes are as they were, but for the holder of the members. -/
  nodePart_eq : a'.nodePart = a.nodePart
  holder?_eq : ∀ m, a'.holder? m = if m ∈ b.data.members then some merged else a.holder? m

/-- Arnodes of layer `l` have taken the place of one, each with one cell of its members. -/
structure Fission (a a' : Abstraction α) (l : Nat) (id : ArNodeId) (cells : List (List NodeId)) (parts : List ArNodeId)
    (b : Body (ArNodeData α)) : Prop where
  /-- The arnode was there, and the cells list its members. -/
  operand : a.arnodes.body? id = some b ∧ b.location.layer = l ∧ cells.flatten.Perm b.data.members
  /-- It is gone. -/
  gone : a'.arnodes.body? id = none
  /-- The parts are new, and different from each other. -/
  new : ∀ x ∈ parts, a.arnodes.body? x = none
  nodup : parts.Nodup
  /-- Each part is fully activated, in the same table, and holds its cell. -/
  result : List.Forall₂ (fun cell part => ∃ c, a'.arnodes.body? part = some c ∧ c.data.state = .fullyActivated ∧
    c.location.layer = l ∧ c.location.category = b.location.category ∧ c.data.members = cell) cells parts
  /-- All other arnodes are as they were. -/
  rest : ∀ x, x ≠ id → x ∉ parts → a'.arnodes.body? x = a.arnodes.body? x
  /-- The nodes are as they were, but for the holder of the members. -/
  nodePart_eq : a'.nodePart = a.nodePart
  holder?_eq : ∀ m, m ∉ b.data.members → a'.holder? m = a.holder? m

variable {a a' : Abstraction α} {l : Nat}

/-- A node that no new arnode holds, and no arnode that is gone held, has the holder it had. -/
theorem holder?_eq_of_rest (ho : a.Owned) (ho' : a'.Owned) {m : NodeId}
    (hold : ∀ {x b}, a.arnodes.body? x = some b → m ∈ b.data.members → a'.arnodes.body? x = some b)
    (hnew : ∀ {x b}, a'.arnodes.body? x = some b → m ∈ b.data.members → a.arnodes.body? x = some b) :
    a'.holder? m = a.holder? m := by
  have hmem : ∀ {c : Abstraction α} {x b}, c.Owned → c.arnodes.body? x = some b → m ∈ b.data.members →
      c.holder? m = some x := by
    intro c x b hc hb hm
    exact (hc.mem_members_iff hb).mp hm
  cases hx : a.holder? m with
  | some x =>
    obtain ⟨b, hb, hm⟩ := ho.holder hx
    exact hmem ho' (hold hb hm) hm
  | none =>
    by_contra hne
    obtain ⟨x, hx'⟩ := Option.ne_none_iff_exists'.mp hne
    obtain ⟨b, hb, hm⟩ := ho'.holder hx'
    rw [hmem ho (hnew hb hm) hm] at hx
    cases hx

/-- An arnode that has a member of another one, in an abstraction with the same nodes, is in the same table. -/
theorem table_eq_of_mem (ho : a.Owned) (ho' : a'.Owned) (hpart : a'.nodePart = a.nodePart) {x y : ArNodeId}
    {b c : Body (ArNodeData α)} (hb : a.arnodes.body? x = some b) (hc : a'.arnodes.body? y = some c) {m : NodeId}
    (hm : m ∈ b.data.members) (hm' : m ∈ c.data.members) :
    c.location.layer = b.location.layer ∧ c.location.category = b.location.category := by
  obtain ⟨i, hi, _, hlayer, hcategory⟩ := ho.member hb m hm
  obtain ⟨hlayer', hcategory'⟩ := ho'.place_of_mem hc hm' (by rw [info?_of_nodePart hpart, hi])
  exact ⟨hlayer'.symm.trans hlayer, hcategory'.symm.trans hcategory⟩

/-- Merging gives a fusion, as the handles of the two arnodes are outdated. -/
theorem MergedInto.fusion {first second merged : ArNodeId} {b₁ b₂ b : Body (ArNodeData α)}
    (h : MergedInto a a' l first second merged b₁ b₂ b) (ho : a.Owned) (ho' : a'.Owned)
    (hpart : a'.nodePart = a.nodePart) (hfirst : a'.arnodes.Outdated first) (hsecond : a'.arnodes.Outdated second) :
    Fusion a a' l first second merged b₁ b₂ b := by
  have hmerged : a'.arnodes.body? merged = some b := by rw [h.body?_eq, if_pos rfl]
  have hgone := body?_eq_none_of_outdated hfirst
  have hgone' := body?_eq_none_of_outdated hsecond
  have hne : merged ≠ first := by
    rintro rfl
    rw [hmerged] at hgone
    cases hgone
  have hne' : merged ≠ second := by
    rintro rfl
    rw [hmerged] at hgone'
    cases hgone'
  have hrest : ∀ x, x ≠ first → x ≠ second → x ≠ merged → a'.arnodes.body? x = a.arnodes.body? x := by
    intro x hx₁ hx₂ hx
    rw [h.body?_eq, if_neg hx, if_neg (not_or.mpr ⟨hx₁, hx₂⟩)]
  have hnew := h.fresh hne hne'
  obtain ⟨m₁, hm₁⟩ := List.exists_mem_of_ne_nil _ (ho.ne_nil h.first_eq)
  obtain ⟨m₂, hm₂⟩ := List.exists_mem_of_ne_nil _ (ho.ne_nil h.second_eq)
  obtain ⟨hl₁, hc₁⟩ := table_eq_of_mem ho ho' hpart h.first_eq hmerged hm₁ (by simp [h.members_eq, hm₁])
  obtain ⟨hl₂, hc₂⟩ := table_eq_of_mem ho ho' hpart h.second_eq hmerged hm₂ (by simp [h.members_eq, hm₂])
  refine ⟨⟨h.first_eq, h.second_eq, hl₁.symm.trans h.layer_eq, hl₂.symm.trans h.layer_eq, hc₂.symm.trans hc₁⟩,
    ⟨hgone, hgone'⟩, ⟨hnew, hmerged⟩, ⟨h.state_eq, h.layer_eq, hc₁, h.members_eq⟩, hrest, hpart, fun m => ?_⟩
  split
  · next hm =>
    exact (ho'.mem_members_iff hmerged).mp hm
  · next hm =>
    rw [h.members_eq, List.mem_append, not_or] at hm
    refine holder?_eq_of_rest ho ho' (fun {x c} hc hmem => ?_) fun {x c} hc hmem => ?_
    · rw [hrest x ?_ ?_ ?_, hc]
      · rintro rfl
        rw [h.first_eq] at hc
        cases hc
        exact hm.1 hmem
      · rintro rfl
        rw [h.second_eq] at hc
        cases hc
        exact hm.2 hmem
      · rintro rfl
        rw [hnew] at hc
        cases hc
    · rw [← hrest x ?_ ?_ ?_, hc]
      · rintro rfl
        rw [hgone] at hc
        cases hc
      · rintro rfl
        rw [hgone'] at hc
        cases hc
      · rintro rfl
        rw [hmerged] at hc
        cases hc
        rw [h.members_eq, List.mem_append] at hmem
        exact hmem.elim hm.1 hm.2

/-- A partition is accepted if it has two cells or more, none of them empty, that list the members in some order. -/
theorem checkPartition_eq_ok_iff {members : List NodeId} (hnodup : members.Nodup) {cells : List (List NodeId)} :
    checkPartition members cells = .ok () ↔
      2 ≤ cells.length ∧ (∀ cell ∈ cells, cell ≠ []) ∧ cells.flatten.Perm members := by
  constructor
  · intro hcheck
    obtain ⟨hne, hflat, hmem⟩ := checkPartition_ok hcheck
    refine ⟨?_, hne, (List.perm_ext_iff_of_nodup hflat hnodup).mpr hmem⟩
    by_contra hfew
    simp [checkPartition, Nat.lt_of_not_le hfew, bind, Except.bind, throw, throwThe, MonadExceptOf.throw] at hcheck
  · rintro ⟨htwo, hne, hperm⟩
    exact checkPartition_eq_ok htwo hne hperm hnodup

/-- The arnode is there, the cells are a partition of its members, and two variables are free for each additional
part. -/
def Splittable (a : Abstraction α) (l : Nat) (id : ArNodeId) (cells : List (List NodeId)) : Prop :=
  ∃ b, a.arnodes.body? id = some b ∧ b.location.layer = l ∧ checkPartition b.data.members cells = .ok () ∧
    2 * cells.length ≤ a.encoding.pool.available + 2

/-- Splitting goes through only if it should. -/
theorem split_splittable (l : Nat) (id : ArNodeId) (cells : List (List NodeId)) (a : Abstraction α) :
    (split l id cells).Meets a (fun _ _ => Splittable a l id cells) (fun _ _ => True) := by
  refine split_meets_of_checked (fun _ => trivial) fun {b} _ hb hl hcells hvars => ?_
  exact Step.meets_of_forall _ a (fun _ _ => ⟨b, hb, hl, hcells, hvars⟩) fun _ _ => trivial

/-- Splitting gives a fission, as the handle of the arnode is outdated. -/
theorem SplitInto.fission {id : ArNodeId} {cells : List (List NodeId)} {parts : List ArNodeId}
    {b : Body (ArNodeData α)} (h : SplitInto a a' id cells parts) (ho : a.Owned) (ho' : a'.Owned)
    (hpart : a'.nodePart = a.nodePart) (hout : a'.arnodes.Outdated id) (hb : a.arnodes.body? id = some b)
    (hl : b.location.layer = l) (hcells : checkPartition b.data.members cells = .ok ()) :
    Fission a a' l id cells parts b := by
  obtain ⟨hmade, hfresh, hother, _⟩ := h
  obtain ⟨_, hne, hperm⟩ := (checkPartition_eq_ok_iff (ho.nodup hb)).mp hcells
  have hgone := body?_eq_none_of_outdated hout
  have hid : id ∉ parts := by
    intro hmem
    obtain ⟨cell, _, c, hc, _⟩ := exists_mem_of_forall₂_right hmade hmem
    rw [hgone] at hc
    cases hc
  have hnew : ∀ x ∈ parts, a.arnodes.body? x = none := fun x hx => hfresh x hx fun heq => hid (heq ▸ hx)
  have hrest : ∀ x, x ≠ id → x ∉ parts → a'.arnodes.body? x = a.arnodes.body? x := by
    intro x hx hxparts
    rw [hother x hxparts, if_neg hx]
  refine ⟨⟨hb, hl, hperm⟩, hgone, hnew, nodup_of_cells hmade hne (hperm.nodup_iff.mpr (ho.nodup hb)), ?_, hrest, hpart,
    fun m hm => ?_⟩
  · refine forall₂_imp_mem hmade fun cell hcell part ⟨c, hc, hmembers, hstate⟩ => ?_
    obtain ⟨m, hm⟩ := List.exists_mem_of_ne_nil _ (hne cell hcell)
    have hmember : m ∈ b.data.members := hperm.mem_iff.mp (List.mem_flatten.mpr ⟨cell, hcell, hm⟩)
    obtain ⟨hlayer, hcategory⟩ := table_eq_of_mem ho ho' hpart hb hc hmember (hmembers ▸ hm)
    exact ⟨c, hc, hstate, hlayer.trans hl, hcategory, hmembers⟩
  · refine holder?_eq_of_rest ho ho' (fun {x c} hc hmem => ?_) fun {x c} hc hmem => ?_
    · rw [hrest x ?_ ?_, hc]
      · rintro rfl
        rw [hb] at hc
        cases hc
        exact hm hmem
      · intro hx
        rw [hnew x hx] at hc
        cases hc
    · rw [← hrest x ?_ ?_, hc]
      · rintro rfl
        rw [hgone] at hc
        cases hc
      · intro hx
        obtain ⟨cell, hcell, d, hd, hmembers, _⟩ := exists_mem_of_forall₂_right hmade hx
        rw [hc] at hd
        cases hd
        exact hm (hperm.mem_iff.mp (List.mem_flatten.mpr ⟨cell, hcell, hmembers ▸ hmem⟩))

end Abstraction

namespace Network

variable [Scalar α] {net : Feedforward α} {property : Property α} {start n : Network α}

/-- A step on the abstraction of a network whose layer `l` may be regrouped, as the abstraction sees it. -/
theorem meets_refinable {β : Type} {l : Nat} {step : Step (Abstraction α) β} {post : β → Abstraction α → Prop}
    (h : step.Meets n.abstraction post (fun _ _ => True)) :
    (do
      Step.read fun n => n.requireRefinable l
      onAbstraction step : Step (Network α) β).Meets n
      (fun r n' => n.requireRefinable l = .ok () ∧ n' = { n with abstraction := n'.abstraction } ∧ post r n'.abstraction)
      (fun _ _ => True) := by
  rw [Step.meets_bind, Step.meets_read]
  cases n.requireRefinable l with
  | error e => trivial
  | ok _ =>
    dsimp only
    rw [onAbstraction, Step.meets_zoom]
    exact h.imp fun r a hpost => ⟨rfl, rfl, hpost⟩

/-- Merging either changes nothing or is a fusion. -/
theorem Orderly.merge_fusion (h : Orderly net property start n) (l : Nat) (first second : ArNodeId) :
    (merge l first second).Meets n (fun merged n' => n.requireRefinable l = .ok () ∧ first ≠ second ∧
        n' = { n with abstraction := n'.abstraction } ∧ ∃ b₁ b₂ b,
        Abstraction.Fusion n.abstraction n'.abstraction l first second merged b₁ b₂ b) (fun _ n' => n' = n) := by
  have hparts : (Abstraction.merge l first second).Meets n.abstraction (fun _ a => a.nodePart = n.abstraction.nodePart ∧
      a.arnodes.Outdated first ∧ a.arnodes.Outdated second) (fun _ _ => True) :=
    ((Abstraction.keeps_merge l first second n.abstraction).and
      (Abstraction.merge_outdates l first second n.abstraction)).mono (fun _ _ hs => hs) fun _ _ _ => trivial
  refine ((h.merge_meets l first second).and (meets_refinable hparts)).mono ?_ fun _ _ hfail => hfail.1
  rintro merged n' ⟨⟨_, h', _, b₁, b₂, b, hmerged⟩, hrefinable, hrest, hpart, hfirst, hsecond⟩
  exact ⟨hrefinable, hmerged.ne, hrest, b₁, b₂, b,
    hmerged.fusion h.woven.grounded.owned h'.woven.grounded.owned hpart hfirst hsecond⟩

/-- Arnodes of a layer that may be regrouped are fully activated. -/
theorem Orderly.fullyActivated (h : Orderly net property start n) {l : Nat} (hl : n.requireRefinable l = .ok ())
    {x : ArNodeId} {b : Body (ArNodeData α)} (hb : n.abstraction.arnodes.body? x = some b)
    (hlayer : b.location.layer = l) : b.data.state = .fullyActivated := by
  rw [h.staged.full hb, hlayer]
  exact (h.of_requireRefinable hl).2

/-- Two arnodes of one table of a layer that may be regrouped can be merged. -/
theorem Orderly.merge_eq_ok (h : Orderly net property start n) {l : Nat} (hl : n.requireRefinable l = .ok ())
    {first second : ArNodeId} {b₁ b₂ : Body (ArNodeData α)} (hne : first ≠ second)
    (hb₁ : n.abstraction.arnodes.body? first = some b₁) (hb₂ : n.abstraction.arnodes.body? second = some b₂)
    (hl₁ : b₁.location.layer = l) (hl₂ : b₂.location.layer = l) (hcategory : b₁.location.category = b₂.location.category) :
    ∃ merged n', merge l first second n = .ok merged n' := by
  have hmeets : (merge l first second).Meets n (fun _ _ => True) Step.Never := by
    unfold merge
    rw [Step.meets_bind, Step.meets_read, hl]
    dsimp only
    rw [onAbstraction, Step.meets_zoom]
    exact (Abstraction.merge_succeeds h.woven (h.framed hl) (h.boundary_eq_false (h.of_requireRefinable hl).1) hne hb₁ hb₂
      hl₁ hl₂ (h.fullyActivated hl hb₁ hl₁) (h.fullyActivated hl hb₂ hl₂) hcategory).imp fun _ _ _ => trivial
  obtain ⟨merged, n', hok, _⟩ := hmeets.exists_ok
  exact ⟨merged, n', hok⟩

/-- Splitting either changes nothing or is a fission. -/
theorem Orderly.split_fission (h : Orderly net property start n) (l : Nat) (id : ArNodeId) (cells : List (List NodeId)) :
    (split l id cells).Meets n (fun parts n' => n.requireRefinable l = .ok () ∧
        2 * cells.length ≤ n.abstraction.encoding.pool.available + 2 ∧
        n' = { n with abstraction := n'.abstraction } ∧ ∃ b, Abstraction.checkPartition b.data.members cells = .ok () ∧
        Abstraction.Fission n.abstraction n'.abstraction l id cells parts b) (fun _ n' => n' = n) := by
  have hparts : (Abstraction.split l id cells).Meets n.abstraction (fun _ a => a.nodePart = n.abstraction.nodePart ∧
      a.arnodes.Outdated id ∧ Abstraction.Splittable n.abstraction l id cells) (fun _ _ => True) :=
    ((Abstraction.keeps_split l id cells n.abstraction).and ((Abstraction.split_outdates l id cells n.abstraction).and
      (Abstraction.split_splittable l id cells n.abstraction))).mono (fun _ _ hs => hs) fun _ _ _ => trivial
  refine ((h.split_meets l id cells).and (meets_refinable hparts)).mono ?_ fun _ _ hfail => hfail.1
  rintro parts n' ⟨⟨h', hsplit⟩, hrefinable, hrest, hpart, hout, b, hb, hl, hcells, hvars⟩
  exact ⟨hrefinable, hvars, hrest, b, hcells,
    hsplit.fission h.woven.grounded.owned h'.woven.grounded.owned hpart hout hb hl hcells⟩

/-- An arnode of a layer that may be regrouped can be split along a partition of its members, if two variables are free for
each additional part. -/
theorem Orderly.split_eq_ok (h : Orderly net property start n) {l : Nat} (hl : n.requireRefinable l = .ok ())
    {id : ArNodeId} {cells : List (List NodeId)} {b : Body (ArNodeData α)}
    (hb : n.abstraction.arnodes.body? id = some b) (hlayer : b.location.layer = l)
    (hcells : Abstraction.checkPartition b.data.members cells = .ok ())
    (hvars : 2 * cells.length ≤ n.abstraction.encoding.pool.available + 2) :
    ∃ parts n', split l id cells n = .ok parts n' := by
  have hmeets : (split l id cells).Meets n (fun _ _ => True) Step.Never := by
    unfold split
    rw [Step.meets_bind, Step.meets_read, hl]
    dsimp only
    rw [onAbstraction, Step.meets_zoom]
    exact (Abstraction.split_succeeds h.woven (h.framed hl) (h.boundary_eq_false (h.of_requireRefinable hl).1) hb hlayer
      (h.fullyActivated hl hb hlayer) hcells (by omega)).imp fun _ _ _ => trivial
  obtain ⟨parts, n', hok, _⟩ := hmeets.exists_ok
  exact ⟨parts, n', hok⟩

/-- Merging and splitting are all or nothing. In a network reached by calls whose stages were in turn, a merge or a split
that is turned down has changed nothing, and one that is carried out replaces exactly the arnodes that it names. It is
carried out as soon as the arnodes are distinct, live and in one table of a layer that may be regrouped, the cells are a
partition, and there are two free variables for each additional part. -/
theorem regroups_all_or_nothing {options : Options} (hbuild : build net property options = .ok start)
    (hreach : ReachesInOrder start n) (l : Nat) :
    (∀ first second,
      (merge l first second).Meets n (fun merged n' => n' = { n with abstraction := n'.abstraction } ∧ ∃ b₁ b₂ b,
        Abstraction.Fusion n.abstraction n'.abstraction l first second merged b₁ b₂ b) (fun _ n' => n' = n) ∧
      ((∃ merged n', merge l first second n = .ok merged n') ↔ n.requireRefinable l = .ok () ∧ first ≠ second ∧
        ∃ b₁ b₂, n.abstraction.arnodes.body? first = some b₁ ∧ n.abstraction.arnodes.body? second = some b₂ ∧
          b₁.location.layer = l ∧ b₂.location.layer = l ∧ b₂.location.category = b₁.location.category)) ∧
    ∀ id cells,
      (split l id cells).Meets n (fun parts n' => n' = { n with abstraction := n'.abstraction } ∧ ∃ b,
        Abstraction.Fission n.abstraction n'.abstraction l id cells parts b) (fun _ n' => n' = n) ∧
      ((∃ parts n', split l id cells n = .ok parts n') ↔ n.requireRefinable l = .ok () ∧ 2 ≤ cells.length ∧
        (∀ cell ∈ cells, cell ≠ []) ∧ 2 * cells.length ≤ n.abstraction.encoding.pool.available + 2 ∧
        ∃ b, n.abstraction.arnodes.body? id = some b ∧ b.location.layer = l ∧ cells.flatten.Perm b.data.members) := by
  have h := hreach.orderly hbuild
  have ho := h.woven.grounded.owned
  refine ⟨fun first second => ⟨?_, ?_⟩, fun id cells => ⟨?_, ?_⟩⟩
  · exact (h.merge_fusion l first second).imp fun _ _ hpost => hpost.2.2
  · constructor
    · rintro ⟨merged, n', hok⟩
      obtain ⟨hl, hne, _, b₁, b₂, b, hfusion⟩ := (h.merge_fusion l first second).of_ok hok
      exact ⟨hl, hne, b₁, b₂, hfusion.operands⟩
    · rintro ⟨hl, hne, b₁, b₂, hb₁, hb₂, hl₁, hl₂, hcategory⟩
      exact h.merge_eq_ok hl hne hb₁ hb₂ hl₁ hl₂ hcategory.symm
  · exact (h.split_fission l id cells).imp fun _ _ ⟨_, _, hrest, b, _, hfission⟩ => ⟨hrest, b, hfission⟩
  · constructor
    · rintro ⟨parts, n', hok⟩
      obtain ⟨hl, hvars, _, b, hcells, hfission⟩ := (h.split_fission l id cells).of_ok hok
      obtain ⟨htwo, hne, _⟩ := (Abstraction.checkPartition_eq_ok_iff (ho.nodup hfission.operand.1)).mp hcells
      exact ⟨hl, htwo, hne, hvars, b, hfission.operand⟩
    · rintro ⟨hl, htwo, hne, hvars, b, hb, hlayer, hperm⟩
      exact h.split_eq_ok hl hb hlayer ((Abstraction.checkPartition_eq_ok_iff (ho.nodup hb)).mpr ⟨htwo, hne, hperm⟩) hvars

/-- With ten variables the forked network has none left once its abstraction is complete. Two of its arnodes can still be
merged. -/
theorem regroups_all_or_nothing_fork : ∃ start n,
    build .fork ⟨.maximize, 0, 1⟩ { Options.standard with variableLimit := some 10 } = .ok start ∧
    ReachesInOrder start n ∧ n.abstraction.encoding.pool.available = 0 ∧ ∃ merged n' b₁ b₂ b,
      merge 1 ⟨2, 0⟩ ⟨4, 0⟩ n = .ok merged n' ∧
      Abstraction.Fusion n.abstraction n'.abstraction 1 ⟨2, 0⟩ ⟨4, 0⟩ merged b₁ b₂ b := by
  obtain ⟨start, n, hbuild, _, hreach, hspent, hmerge⟩ :=
    exists_completed .fork ⟨.maximize, 0, 1⟩ { Options.standard with variableLimit := some 10 }
      (P := fun _ n => n.abstraction.encoding.pool.available = 0 ∧
        (merge 1 ⟨2, 0⟩ ⟨4, 0⟩).Meets n (fun _ _ => True) Step.Never) (by decide +kernel)
  obtain ⟨merged, n', hmerged, _⟩ := hmerge.exists_ok
  obtain ⟨_, b₁, b₂, b, hfusion⟩ := ((regroups_all_or_nothing hbuild hreach 1).1 ⟨2, 0⟩ ⟨4, 0⟩).1.of_ok hmerged
  exact ⟨start, n, hbuild, hreach, hspent, merged, n', b₁, b₂, b, hmerged, hfusion⟩

end Network

end ReluAbstraction
