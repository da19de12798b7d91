import ReluAbstraction.Proofs.Moves

/-!
# Regrouping a layer

Merging and splitting unwrap arnodes of one layer and wrap their nodes again. Once the checks at the start have passed,
nothing can fail half way: there are variables and slots enough, and the layers on both sides are held.
-/

namespace ReluAbstraction.Abstraction

variable {α : Type} {a a' : Abstraction α} {l : Nat}

theorem requireFull_ok {id : ArNodeId} {loc : Location} (h : a.requireFull l id = .ok loc) :
    ∃ b, a.arnodes.body? id = some b ∧ b.location = loc ∧ loc.layer = l ∧ b.data.state = .fullyActivated := by
  cases hget : a.arnodes.get? id with
  | none =>
    simp only [requireFull, arnode, Arena.get_of_none hget, bind, Except.bind] at h
    cases h
  | some v =>
    simp only [requireFull, arnode, Arena.get_of_get? hget, bind, Except.bind, checkLayer] at h
    by_cases hlayer : v.location.layer = l
    · by_cases hstate : v.data.state = .fullyActivated
      · simp only [if_pos hlayer, hstate, ne_eq, not_true_eq_false, if_false, pure, Except.pure, Except.ok.injEq] at h
        exact ⟨v.body, Graph.body?_of_get? hget, h, by rw [← h]; exact hlayer, hstate⟩
      · simp only [if_pos hlayer, ne_eq, hstate, not_false_eq_true, if_true] at h
        cases h
    · simp only [if_neg hlayer] at h
      cases h

/-- A fully activated arnode of layer `l` passes the check. -/
theorem requireFull_eq_ok {id : ArNodeId} {b : Body (ArNodeData α)} (hb : a.arnodes.body? id = some b)
    (hl : b.location.layer = l) (hstate : b.data.state = .fullyActivated) : a.requireFull l id = .ok b.location := by
  obtain ⟨v, hv, rfl⟩ := Graph.body?_eq_some_iff.mp hb
  have hread : a.arnode id = .ok v := Arena.get_of_get? hv
  rw [Vertex.body_location] at hl
  rw [Vertex.body_data] at hstate
  simp [requireFull, hread, checkLayer, hl, hstate, bind, Except.bind, pure, Except.pure]

variable [Scalar α]

/-- While a node has no holder there is a slot for one more arnode: every arnode holds another node. -/
theorem Grounded.hasRoom (h : a.Grounded) {m : NodeId} {c : NodeInfo α} (hm : a.info? m = some c)
    (hfree : a.holder? m = none) : a.arnodes.HasRoom := by
  by_contra hfull
  obtain ⟨hs, hnodup, hlength, hlive⟩ := h.arnodes.graph.arena.exists_live_of_full hfull
  have hfirst : ∀ x ∈ hs, ∃ n, a.holder? n = some x := by
    intro x hx
    obtain ⟨v, hv⟩ := hlive x hx
    have hb := Graph.body?_of_get? hv
    obtain ⟨n, hn⟩ := List.exists_mem_of_ne_nil _ (h.owned.ne_nil hb)
    have hholder := (h.owned.mem_members_iff hb).mp hn
    exact ⟨n, hholder⟩
  choose! first hfirst using hfirst
  -- The first members and the free node are one live node more than there are arnodes.
  have hnodes : (m :: hs.map first).Nodup := by
    refine List.nodup_cons.mpr ⟨fun hmem => ?_, ?_⟩
    · obtain ⟨x, hx, rfl⟩ := List.mem_map.mp hmem
      rw [hfirst x hx] at hfree
      cases hfree
    · refine hnodup.map_on fun x hx y hy heq => ?_
      have hholder := hfirst x hx
      rw [heq, hfirst y hy] at hholder
      exact (Option.some.inj hholder).symm
  have hcount : (m :: hs.map first).length ≤ a.nodes.slots.size := by
    refine Arena.length_le_of_live hnodes fun n hn => ?_
    rcases List.mem_cons.mp hn with rfl | hn
    · obtain ⟨v, hv, _⟩ := get?_of_info? hm
      exact ⟨v, hv⟩
    · obtain ⟨x, hx, rfl⟩ := List.mem_map.mp hn
      obtain ⟨b, hb, _⟩ := Option.bind_eq_some_iff.mp (hfirst x hx)
      obtain ⟨v, hv, _⟩ := Graph.body?_eq_some_iff.mp hb
      exact ⟨v, hv⟩
  have hspan := h.nodes.graph.arena.size_le
  simp only [List.length_cons, List.length_map, hlength] at hcount
  omega

/-- Wrapping free nodes fails only for want of variables, and then changes next to nothing. -/
theorem Grounded.wrap_meets (h : a.Grounded) {category : Category} {members : List NodeId}
    (hw : Wrappable a l category members) :
    (wrap l members).Meets a (fun id a' => ∃ b, b.location.layer = l ∧ b.location.category = category ∧
        Wrapped a a' members id b)
      (fun e a' => (∃ limit, e = .exhausted limit) ∧ a.encoding.pool.available < varsNeeded (a.boundary l) ∧
        Lapsed a a') := by
  refine (Abstraction.wrap_meets h.nodes h.arnodes h.vars.pool hw).mono (fun _ _ hok => hok) ?_
  rintro e a' ⟨hlimit, hfew | hfull⟩
  · exact ⟨hlimit, hfew⟩
  · obtain ⟨m, hm⟩ := List.exists_mem_of_ne_nil _ hw.ne_nil
    obtain ⟨c, hc, _, _, hfree⟩ := hw.free m hm
    exact absurd (h.hasRoom hc hfree) hfull

/-- The nodes of the layer after `l` are held, those of the layer before by forward activated arnodes. -/
structure Framed (a : Abstraction α) (l : Nat) : Prop where
  above : ∀ {m c}, a.info? m = some c → c.place.layer = l + 1 → (a.holder? m).isSome
  below : ∀ {m c}, a.info? m = some c → c.place.layer + 1 = l → ∃ x, a.holder? m = some x ∧ a.isForward x = true

/-- What happens in layer `l` leaves its frame alone. -/
theorem Framed.congr (h : Framed a l) (ho : a.Owned) (hinfo : a'.info? = a.info?)
    (hholder : ∀ {m c}, a.info? m = some c → c.place.layer ≠ l → a'.holder? m = a.holder? m)
    (hforward : ∀ {x b}, a.arnodes.body? x = some b → b.location.layer ≠ l → a'.isForward x = a.isForward x) :
    Framed a' l := by
  refine ⟨fun {m c} hm hl => ?_, fun {m c} hm hl => ?_⟩
  · rw [hinfo] at hm
    rw [hholder hm (by omega)]
    exact h.above hm hl
  · rw [hinfo] at hm
    obtain ⟨x, hx, hxf⟩ := h.below hm hl
    obtain ⟨b, hb, _, hlayer, _⟩ := ho.exists_of_holder? hx hm
    refine ⟨x, by rw [hholder hm (by omega), hx], ?_⟩
    rw [hforward hb (by omega), hxf]

theorem Framed.wrap (h : Framed a l) (ho : a.Owned) {members : List NodeId} {id : ArNodeId} {b : Body (ArNodeData α)}
    (hw : Wrapped a a' members id b) (hl : b.location.layer = l) : Framed a' l := by
  refine h.congr ho (info?_of_nodePart hw.nodePart_eq) (fun {m c} hm hne => ?_) fun {x c} hx _ => ?_
  · rw [hw.holder?_eq, if_neg]
    intro hmem
    obtain ⟨c', hc', hlayer, _⟩ := hw.wrappable.free m hmem
    rw [hm] at hc'
    cases hc'
    exact hne (hlayer.trans hl)
  · simp only [isForward, hw.body?_eq, if_neg (hw.ne_of_old hx)]

theorem Framed.unwrap (h : Framed a l) (ho : a.Owned) {id : ArNodeId} {b : Body (ArNodeData α)}
    (hu : Unwrapped a a' id b) (hl : b.location.layer = l) : Framed a' l := by
  refine h.congr ho (info?_of_nodePart hu.nodePart_eq) (fun {m c} hm hne => ?_) fun {x c} hx hne => ?_
  · rw [hu.holder?_eq, if_neg]
    intro hmem
    obtain ⟨hlayer, _⟩ := ho.place_of_mem hu.live hmem hm
    exact hne (hlayer.trans hl)
  · have hid : x ≠ id := by
      rintro rfl
      rw [hu.live] at hx
      cases hx
      exact hne hl
    simp only [isForward, hu.body?_eq, if_neg hid]

theorem Framed.activate (h : Framed a l) (ho : a.Owned) {id : ArNodeId} {state : ActivationState}
    {edges : ArNodeId → ArNodeId → Option α} {marked : ArNodeId → Prop} {b : Body (ArNodeData α)}
    (ha : Activated a a' id state edges marked) (hb : a.arnodes.body? id = some b) (hl : b.location.layer = l) :
    Framed a' l := by
  refine h.congr ho (info?_of_nodePart ha.nodePart_eq) (fun _ _ => by rw [ha.holder?_eq]) fun {x c} hx hne => ?_
  have hid : x ≠ id := by
    rintro rfl
    rw [hb] at hx
    cases hx
    exact hne hl
  rw [ha.isForward_eq hb, if_neg hid]

section Neighbours

variable {id : ArNodeId} {b : Body (ArNodeData α)} {m : NodeId} {w : α}

/-- In a framed layer the targets of an arnode's nodes are held. -/
theorem Framed.isSome_holder?_of_edge (h : Framed a l) (hg : a.Grounded) (hb : a.arnodes.body? id = some b)
    (hl : b.location.layer = l) (hm : m ∈ b.data.members) {t : NodeId} (hedge : a.nodes.edge? m t = some w) :
    (a.holder? t).isSome := by
  obtain ⟨v, u, hv, hu, hnext⟩ := hg.nodes.graph.ends hedge
  obtain ⟨hlayer, _⟩ := hg.owned.place_of_mem hb hm (info?_of_get? hv)
  refine h.above (info?_of_get? hu) ?_
  rw [← hl, ← hlayer]
  exact hnext

/-- In a framed layer the sources of an arnode's nodes are held by forward activated arnodes. -/
theorem Framed.exists_forward_of_edge (h : Framed a l) (hg : a.Grounded) (hb : a.arnodes.body? id = some b)
    (hl : b.location.layer = l) (hm : m ∈ b.data.members) {s : NodeId} (hedge : a.nodes.edge? s m = some w) :
    ∃ x, a.holder? s = some x ∧ a.isForward x = true := by
  obtain ⟨u, v, hu, hv, hnext⟩ := hg.nodes.graph.ends hedge
  obtain ⟨hlayer, _⟩ := hg.owned.place_of_mem hb hm (info?_of_get? hv)
  refine h.below (info?_of_get? hu) ?_
  rw [← hl, ← hlayer]
  exact hnext.symm

/-- In a framed layer every arnode with a fold to `id` is forward activated. -/
theorem Framed.isForward_of_folded? (h : Framed a l) (hg : a.Grounded) (hb : a.arnodes.body? id = some b)
    (hl : b.location.layer = l) {x : ArNodeId} (hx : (a.folded? x id).isSome) : a.isForward x = true := by
  obtain ⟨s, t, w, hs, ht, hedge⟩ := hg.owned.isSome_folded?_iff.mp hx
  have hmem := (hg.owned.mem_members_iff hb).mpr ht
  obtain ⟨y, hy, hforward⟩ := h.exists_forward_of_edge hg hb hl hmem hedge
  rw [hs] at hy
  cases hy
  exact hforward

end Neighbours

/-- What rebuilding an arnode over `members` leads to. -/
structure Rebuilt (a a' : Abstraction α) (l : Nat) (category : Category) (members : List NodeId) (id : ArNodeId)
    (b : Body (ArNodeData α)) : Prop where
  woven : Woven a' none
  framed : Framed a' l
  nodePart_eq : a'.nodePart = a.nodePart
  fresh : a.arnodes.body? id = none
  layer_eq : b.location.layer = l
  category_eq : b.location.category = category
  members_eq : b.data.members = members
  state_eq : b.data.state = .fullyActivated
  body?_eq : ∀ x, a'.arnodes.body? x = if x = id then some b else a.arnodes.body? x
  holder?_eq : ∀ x, a'.holder? x = if x ∈ members then some id else a.holder? x
  available_eq : a'.encoding.pool.available + varsNeeded (a.boundary l) = a.encoding.pool.available
  moves : Moves (· = l) a a'

/-- With variables left for it, an arnode over free nodes of a framed layer can be rebuilt. -/
theorem rebuild_meets (h : Woven a none) (hframed : Framed a l) {category : Category} {members : List NodeId}
    (hw : Wrappable a l category members) (hvars : varsNeeded (a.boundary l) ≤ a.encoding.pool.available) :
    (rebuild l members).Meets a (fun id a' => ∃ b, Rebuilt a a' l category members id b) Step.Never := by
  unfold rebuild
  rw [Step.meets_bind]
  refine (h.grounded.wrap_meets hw).mono ?_ fun e _ hfail => absurd hvars (Nat.not_le.mpr hfail.2.1)
  rintro id a₁ ⟨b, hlayer, hcategory, hwrapped⟩
  have hg₁ := hwrapped.grounded h.grounded
  have hwoven₁ := h.wrap hwrapped
  have hframed₁ := hframed.wrap h.grounded.owned hwrapped hlayer
  have hb₁ : a₁.arnodes.body? id = some b := hwrapped.body?_self
  have hnotForward : b.data.state.isForward = false := by rw [hwrapped.state_eq]; rfl
  have hnone : ∀ y, a₁.arnodes.edge? id y = none := by
    intro y
    rw [hwoven₁.edge?_eq, isForward_of_body? hb₁, hnotForward]
    simp
  rw [Step.meets_bind]
  refine (forwardActivate_meets hg₁ hb₁ hnotForward hnone fun m hm t w hedge => ?_).imp fun _ a₂ ha₂ => ?_
  · exact hframed₁.isSome_holder?_of_edge hg₁ hb₁ hlayer hm hedge
  have hself : ∀ y, some id = some y → a₁.folded? id y = none := by
    rintro _ ⟨⟩
    exact hg₁.folded?_self id
  have hwoven₂ := hwoven₁.forward hb₁ ha₂ hself
  have hg₂ := hwoven₂.grounded
  have hframed₂ := hframed₁.activate hg₁.owned ha₂ hb₁ hlayer
  have hb₂ : a₂.arnodes.body? id = some (b.reaching .forwardActivated) := by
    rw [ha₂.body?_eq, if_pos rfl, hb₁, Option.map_some]
  have hsources : ∀ x, (a₂.folded? x id).isSome → a₂.isForward x = true :=
    fun x => hframed₂.isForward_of_folded? hg₂ hb₂ hlayer
  rw [Step.meets_bind]
  refine (fullyActivate_meets hg₂ hb₂ rfl (fun x => ?_) (fun m hm s w hedge => ?_) hsources).imp fun _ a₃ ha₃ => ?_
  · rw [hwoven₂.edge?_eq]
    simp
  · obtain ⟨x, hx, _⟩ := hframed₂.exists_forward_of_edge hg₂ hb₂ hlayer hm hedge
    rw [hx]
    rfl
  obtain ⟨e, hborrowed, hencoding⟩ := hwrapped.borrowed
  refine ⟨b.reaching .fullyActivated, hwoven₂.complete hb₂ rfl hsources ha₃,
    hframed₂.activate hg₂.owned ha₃ hb₂ hlayer, ?_, hwrapped.fresh, hlayer, hcategory, hwrapped.members_eq,
    rfl, fun x => ?_, fun x => ?_, ?_, ?_⟩
  · exact ha₃.nodePart_eq.trans (ha₂.nodePart_eq.trans hwrapped.nodePart_eq)
  · by_cases hx : x = id
    · rw [ha₃.body?_eq, if_pos hx, if_pos hx, hb₂]
      rfl
    · rw [ha₃.body?_eq, if_neg hx, ha₂.body?_eq, if_neg hx, hwrapped.body?_eq, if_neg hx, if_neg hx]
  · rw [ha₃.holder?_eq, ha₂.holder?_eq, hwrapped.holder?_eq]
  · have hpool : a₃.encoding.pool = e.pool := by
      rw [ha₃.remarked.pool_eq, ha₂.remarked.pool_eq, hencoding]
      rfl
    rw [hpool, ← hborrowed.available_eq, hlayer]
  · refine .tail (.tail (.single (.wrap (.inr hlayer) hwrapped)) (.activate ?_ ?_ ha₂)) (.activate ?_ ?_ ha₃)
    · exact fun x hx => .inl hx
    · intro x y hne
      by_cases hx : x = id
      · subst hx
        right
        rw [if_pos rfl, hnone] at hne
        exact Option.isSome_iff_ne_none.mpr hne
      · rw [if_neg hx] at hne
        exact absurd rfl hne
    · exact fun x hx => .inr hx
    · intro x y hne
      by_cases hy : y = id
      · exact .inl hy
      · rw [if_neg hy] at hne
        exact absurd rfl hne

/-- A layer was regrouped: the same nodes are held as before, the arnodes of other layers are untouched, and every new
arnode of the layer is fully activated. -/
structure Regrouped (a a' : Abstraction α) (l : Nat) : Prop where
  woven : Woven a' none
  nodePart_eq : a'.nodePart = a.nodePart
  held_iff : ∀ m, (a'.holder? m).isSome ↔ (a.holder? m).isSome
  body?_cases : ∀ {x b}, a'.arnodes.body? x = some b →
    a.arnodes.body? x = some b ∨ b.location.layer = l ∧ b.data.state = .fullyActivated
  moves : Moves (· = l) a a'

/-- A hidden layer: its arnodes have two variables each. -/
theorem Grounded.isBoundary_eq_false (h : a.Grounded) (hl : a.boundary l = false) {id : ArNodeId} {b : Body (ArNodeData α)}
    (hb : a.arnodes.body? id = some b) (hlayer : b.location.layer = l) : varsNeeded b.data.vars.isBoundary = 2 := by
  rw [h.vars.isBoundary_eq hb, hlayer, hl]
  rfl

/-- Unwrapping an arnode of a hidden layer sets two variables free. -/
theorem Unwrapped.available_eq {id : ArNodeId} {b : Body (ArNodeData α)} (h : Unwrapped a a' id b) (hg : a.Grounded)
    (hl : a.boundary l = false) (hlayer : b.location.layer = l) :
    a'.encoding.pool.available = a.encoding.pool.available + 2 := by
  obtain ⟨e, hpool, hreturned⟩ := h.exists_returned hg.vars
  rw [hreturned.available_eq, hpool, hg.isBoundary_eq_false hl h.live hlayer]

section UnwrappedTwice

variable {a₁ a₂ : Abstraction α} {first second : ArNodeId} {b₁ b₂ : Body (ArNodeData α)}

/-- The holders after two arnodes were unwrapped. -/
theorem Unwrapped.holder?_trans (h₁ : Unwrapped a a₁ first b₁) (h₂ : Unwrapped a₁ a₂ second b₂) (m : NodeId) :
    a₂.holder? m = if m ∈ b₁.data.members ++ b₂.data.members then none else a.holder? m := by
  rw [h₂.holder?_eq, h₁.holder?_eq]
  by_cases hm₂ : m ∈ b₂.data.members <;> by_cases hm₁ : m ∈ b₁.data.members <;> simp [hm₁, hm₂]

/-- The nodes of two arnodes of one place can be wrapped together once both are unwrapped. -/
theorem Unwrapped.wrappable_append (h₁ : Unwrapped a a₁ first b₁) (h₂ : Unwrapped a₁ a₂ second b₂) (hg : a.Grounded)
    (hne : first ≠ second) (hb₂ : a.arnodes.body? second = some b₂) (hlayer : b₁.location.layer = b₂.location.layer)
    (hcategory : b₁.location.category = b₂.location.category) :
    Wrappable a₂ b₁.location.layer b₁.location.category (b₁.data.members ++ b₂.data.members) := by
  refine ⟨by simp [hg.owned.ne_nil h₁.live], ?_, hg.arnodes.cemented h₁.live, fun m hm => ?_⟩
  · refine List.nodup_append.mpr ⟨hg.owned.nodup h₁.live, hg.owned.nodup hb₂, fun x hx y hy hxy => hne ?_⟩
    exact hg.owned.eq_of_mem h₁.live hb₂ hx (hxy ▸ hy)
  · have hfree : a₂.holder? m = none := by rw [h₁.holder?_trans h₂, if_pos hm]
    rw [info?_of_nodePart (h₂.nodePart_eq.trans h₁.nodePart_eq)]
    rcases List.mem_append.mp hm with hm | hm
    · obtain ⟨c, hc, _, hl, hcat⟩ := hg.owned.member h₁.live m hm
      exact ⟨c, hc, hl, hcat, hfree⟩
    · obtain ⟨c, hc, _, hl, hcat⟩ := hg.owned.member hb₂ m hm
      exact ⟨c, hc, hl.trans hlayer.symm, hcat.trans hcategory.symm, hfree⟩

end UnwrappedTwice

/-- What merging `first` and `second` of layer `l` into `id` leads to. -/
structure MergedInto (a a' : Abstraction α) (l : Nat) (first second id : ArNodeId) (b₁ b₂ b : Body (ArNodeData α)) :
    Prop where
  ne : first ≠ second
  first_eq : a.arnodes.body? first = some b₁
  second_eq : a.arnodes.body? second = some b₂
  first_state : b₁.data.state = .fullyActivated
  second_state : b₂.data.state = .fullyActivated
  layer_eq : b.location.layer = l
  members_eq : b.data.members = b₁.data.members ++ b₂.data.members
  state_eq : b.data.state = .fullyActivated
  fresh : id ≠ first → id ≠ second → a.arnodes.body? id = none
  body?_eq : ∀ x, a'.arnodes.body? x =
    if x = id then some b else if x = first ∨ x = second then none else a.arnodes.body? x
  available_eq : a'.encoding.pool.available = a.encoding.pool.available + 2

/-- Merging checks its arguments, which changes nothing, and goes on with two arnodes that are fit for it. -/
theorem merge_meets_of_checked {first second : ArNodeId} {post : ArNodeId → Abstraction α → Prop}
    {fail : Error → Abstraction α → Prop} (hrefused : ∀ e, fail e a)
    (hchecked : ∀ {b₁ b₂ : Body (ArNodeData α)}, first ≠ second → a.boundary l = false →
      a.arnodes.body? first = some b₁ → a.arnodes.body? second = some b₂ → b₁.location.layer = l →
      b₂.location.layer = l → b₁.data.state = .fullyActivated → b₂.data.state = .fullyActivated →
      b₁.location.category = b₂.location.category →
      (do
        let left ← unwrap l first
        let right ← unwrap l second
        let merged ← rebuild l (left ++ right)
        count .mergeApplied
        return merged : Step (Abstraction α) ArNodeId).Meets a post fail) :
    (merge l first second).Meets a post fail := by
  unfold merge
  rw [Step.meets_bind, Step.meets_read]
  cases hlayer : a.layer l with
  | error e => exact hrefused e
  | ok layer =>
    dsimp only
    rw [Step.meets_ite]
    refine ⟨fun _ => hrefused _, fun hne => ?_⟩
    rw [Step.meets_ite]
    refine ⟨fun _ => hrefused _, fun hinner => ?_⟩
    have hboundary : a.boundary l = false := by simpa [boundary_of_layer (getElem?_of_layer hlayer)] using hinner
    rw [Step.meets_bind, Step.meets_read]
    cases hfirst : a.requireFull l first with
    | error e => exact hrefused e
    | ok firstLoc =>
      dsimp only
      rw [Step.meets_bind, Step.meets_read]
      cases hsecond : a.requireFull l second with
      | error e => exact hrefused e
      | ok secondLoc =>
        dsimp only
        rw [Step.meets_ite]
        refine ⟨fun _ => hrefused _, fun hcategory => ?_⟩
        rw [Step.meets_bind, Step.meets_read]
        cases a.reserveVars 1 2 with
        | error e => exact hrefused e
        | ok _ =>
          obtain ⟨b₁, hb₁, rfl, hl₁, hstate₁⟩ := requireFull_ok hfirst
          obtain ⟨b₂, hb₂, rfl, hl₂, hstate₂⟩ := requireFull_ok hsecond
          exact hchecked hne hboundary hb₁ hb₂ hl₁ hl₂ hstate₁ hstate₂ (not_not.mp hcategory)

/-- Once its checks have passed, merging succeeds. -/
private theorem mergeChecked_meets (h : Woven a none) (hframed : Framed a l) (hboundary : a.boundary l = false)
    {first second : ArNodeId} {b₁ b₂ : Body (ArNodeData α)} (hne : first ≠ second)
    (hb₁ : a.arnodes.body? first = some b₁) (hb₂ : a.arnodes.body? second = some b₂) (hl₁ : b₁.location.layer = l)
    (hl₂ : b₂.location.layer = l) (hstate₁ : b₁.data.state = .fullyActivated)
    (hstate₂ : b₂.data.state = .fullyActivated) (hcategory : b₁.location.category = b₂.location.category) :
    (do
      let left ← unwrap l first
      let right ← unwrap l second
      let merged ← rebuild l (left ++ right)
      count .mergeApplied
      return merged : Step (Abstraction α) ArNodeId).Meets a
      (fun id a' => Regrouped a a' l ∧ ∃ b, MergedInto a a' l first second id b₁ b₂ b) Step.Never := by
  have hg := h.grounded
  rw [Step.meets_bind]
  refine (unwrap_meets hg.arnodes hb₁ hl₁ (hg.owned.live_of_mem hb₁)).imp ?_
  rintro _ a₁ ⟨rfl, hu₁⟩
  have hwoven₁ := h.unwrap hu₁
  have hg₁ := hwoven₁.grounded
  have hb₂' : a₁.arnodes.body? second = some b₂ := hu₁.body?_of_ne hb₂ (Ne.symm hne)
  rw [Step.meets_bind]
  refine (unwrap_meets hg₁.arnodes hb₂' hl₂ (hg₁.owned.live_of_mem hb₂')).imp ?_
  rintro _ a₂ ⟨rfl, hu₂⟩
  have hwoven₂ := hwoven₁.unwrap hu₂
  have hframed₂ := (hframed.unwrap hg.owned hu₁ hl₁).unwrap hg₁.owned hu₂ hl₂
  have hpart : a₂.nodePart = a.nodePart := hu₂.nodePart_eq.trans hu₁.nodePart_eq
  have hwrap : Wrappable a₂ l b₁.location.category (b₁.data.members ++ b₂.data.members) :=
    hl₁ ▸ hu₁.wrappable_append hu₂ hg hne hb₂ (hl₁.trans hl₂.symm) hcategory
  have hboundary₁ : a₁.boundary l = false := by rw [boundary_of_nodePart hu₁.nodePart_eq, hboundary]
  have hneeded : varsNeeded (a₂.boundary l) = 2 := by
    rw [boundary_of_nodePart hpart, hboundary]
    rfl
  have hfour : a₂.encoding.pool.available = a.encoding.pool.available + 4 := by
    rw [hu₂.available_eq hg₁ hboundary₁ hl₂, hu₁.available_eq hg hboundary hl₁]
  have havailable : varsNeeded (a₂.boundary l) ≤ a₂.encoding.pool.available := by omega
  rw [Step.meets_bind]
  refine (rebuild_meets hwoven₂ hframed₂ hwrap havailable).imp ?_
  rintro id a₃ ⟨b, hrebuilt⟩
  have hbody : ∀ x, a₃.arnodes.body? x =
      if x = id then some b else if x = first ∨ x = second then none else a.arnodes.body? x := by
    intro x
    rw [hrebuilt.body?_eq, hu₂.body?_eq, hu₁.body?_eq]
    by_cases hx₁ : x = first <;> by_cases hx₂ : x = second <;> simp [hx₁, hx₂]
  refine ⟨⟨hrebuilt.woven.recount _, hrebuilt.nodePart_eq.trans hpart, fun m => ?_, fun {x c} hx => ?_, ?_⟩,
    b, hne, hb₁, hb₂, hstate₁, hstate₂, hrebuilt.layer_eq, hrebuilt.members_eq, hrebuilt.state_eq, fun hfirst hsecond => ?_, hbody,
    ?_⟩
  · change (a₃.holder? m).isSome ↔ _
    rw [hrebuilt.holder?_eq]
    by_cases hm : m ∈ b₁.data.members ++ b₂.data.members
    · have hold : (a.holder? m).isSome := by
        rcases List.mem_append.mp hm with hm | hm
        · exact Option.isSome_of_eq_some ((hg.owned.mem_members_iff hb₁).mp hm)
        · exact Option.isSome_of_eq_some ((hg.owned.mem_members_iff hb₂).mp hm)
      rw [if_pos hm]
      simp [hold]
    · rw [if_neg hm, hu₁.holder?_trans hu₂, if_neg hm]
  · change a₃.arnodes.body? x = some c at hx
    rw [hbody] at hx
    split at hx
    · cases hx
      exact .inr ⟨hrebuilt.layer_eq, hrebuilt.state_eq⟩
    · split at hx
      · cases hx
      · exact .inl hx
  · refine .tail (Relation.ReflTransGen.trans ?_ hrebuilt.moves) (.recount _ rfl)
    exact .tail (.single (.unwrap hl₁ hu₁)) (.unwrap hl₂ hu₂)
  · have hfresh := hrebuilt.fresh
    rwa [hu₂.body?_eq, if_neg hsecond, hu₁.body?_eq, if_neg hfirst] at hfresh
  · change a₃.encoding.pool.available = _
    have hleft := hrebuilt.available_eq
    omega

/-- Merging either is refused and changes nothing, or gives one arnode over the nodes of both. -/
theorem merge_meets (h : Woven a none) (hframed : Framed a l) (first second : ArNodeId) :
    (merge l first second).Meets a
      (fun id a' => Regrouped a a' l ∧ ∃ b₁ b₂ b, MergedInto a a' l first second id b₁ b₂ b) (fun _ a' => a' = a) := by
  refine merge_meets_of_checked (fun _ => rfl)
    fun {b₁ b₂} hne hboundary hb₁ hb₂ hl₁ hl₂ hstate₁ hstate₂ hcategory => ?_
  refine (mergeChecked_meets h hframed hboundary hne hb₁ hb₂ hl₁ hl₂ hstate₁ hstate₂ hcategory).mono ?_
    fun _ _ hfalse => hfalse.elim
  rintro id a' ⟨hr, b, hmerged⟩
  exact ⟨hr, b₁, b₂, b, hmerged⟩

/-- Two fully activated arnodes of one table can be merged. -/
theorem merge_succeeds (h : Woven a none) (hframed : Framed a l) (hboundary : a.boundary l = false)
    {first second : ArNodeId} {b₁ b₂ : Body (ArNodeData α)} (hne : first ≠ second)
    (hb₁ : a.arnodes.body? first = some b₁) (hb₂ : a.arnodes.body? second = some b₂) (hl₁ : b₁.location.layer = l)
    (hl₂ : b₂.location.layer = l) (hstate₁ : b₁.data.state = .fullyActivated)
    (hstate₂ : b₂.data.state = .fullyActivated) (hcategory : b₁.location.category = b₂.location.category) :
    (merge l first second).Meets a
      (fun id a' => Regrouped a a' l ∧ ∃ b, MergedInto a a' l first second id b₁ b₂ b) Step.Never := by
  obtain ⟨layer, hlayer, _⟩ := h.grounded.arnodes.exists_layer hb₁
  rw [hl₁] at hlayer
  have hinner : ¬layer.isBoundary = true := by
    rw [boundary_of_layer hlayer] at hboundary
    simp [hboundary]
  unfold merge
  rw [Step.meets_bind, Step.meets_read, layer_of_getElem? hlayer]
  dsimp only
  rw [if_neg hne, if_neg hinner, Step.meets_bind, Step.meets_read, requireFull_eq_ok hb₁ hl₁ hstate₁]
  dsimp only
  rw [Step.meets_bind, Step.meets_read, requireFull_eq_ok hb₂ hl₂ hstate₂]
  dsimp only
  rw [if_neg (not_not.mpr hcategory)]
  -- Two arnodes give back more variables than one needs.
  have hreserve : a.reserveVars 1 2 = .ok () := by simp [reserveVars, Encoding.reserve]
  rw [Step.meets_bind, Step.meets_read, hreserve]
  exact mergeChecked_meets h hframed hboundary hne hb₁ hb₂ hl₁ hl₂ hstate₁ hstate₂ hcategory

section Partition

/-- Every element on the right has a partner on the left. -/
theorem exists_mem_of_forall₂_right {β γ : Type} {r : β → γ → Prop} {xs : List β} {ys : List γ}
    (h : List.Forall₂ r xs ys) {y : γ} (hy : y ∈ ys) : ∃ x ∈ xs, r x y := by
  induction h with
  | nil => cases hy
  | cons hr _ ih =>
    rcases List.mem_cons.mp hy with rfl | hy
    · exact ⟨_, List.mem_cons_self, hr⟩
    · obtain ⟨x, hx, hr⟩ := ih hy
      exact ⟨x, List.mem_cons_of_mem _ hx, hr⟩

/-- Reading the nodes of one cell. -/
theorem readCell_fold {members seen out cell : List NodeId} (h : cell.foldlM (readCell members) seen = .ok out)
    (hnodup : seen.Nodup) (hsub : ∀ m ∈ seen, m ∈ members) :
    out.Nodup ∧ (∀ m ∈ out, m ∈ members) ∧ out.Perm (cell ++ seen) := by
  induction cell generalizing seen with
  | nil =>
    cases h
    exact ⟨hnodup, hsub, .refl _⟩
  | cons m rest ih =>
    rw [List.foldlM_cons] at h
    by_cases hmem : m ∈ members
    · by_cases hseen : m ∈ seen
      · simp only [readCell, hmem, hseen, not_true_eq_false, if_false, if_true, bind, Except.bind] at h
        cases h
      · simp only [readCell, hmem, hseen, not_true_eq_false, if_false, bind, Except.bind] at h
        obtain ⟨hout, hout', hperm⟩ := ih h (List.nodup_cons.mpr ⟨hseen, hnodup⟩) (by simpa [hmem] using hsub)
        refine ⟨hout, hout', hperm.trans ?_⟩
        exact List.perm_middle
    · simp only [readCell, hmem, not_false_eq_true, if_true, bind, Except.bind] at h
      cases h

/-- Reading the cells of a partition. -/
private theorem readCells_fold {members seen out : List NodeId} {cells : List (List NodeId)}
    (h : (cells.foldlM (fun seen cell => do
      if cell.isEmpty then throw .emptyCell
      cell.foldlM (readCell members) seen) seen : Except PartitionFault (List NodeId)) = .ok out)
    (hnodup : seen.Nodup) (hsub : ∀ m ∈ seen, m ∈ members) :
    out.Nodup ∧ (∀ m ∈ out, m ∈ members) ∧ (∀ cell ∈ cells, cell ≠ []) ∧ out.Perm (cells.flatten ++ seen) := by
  induction cells generalizing seen with
  | nil =>
    cases h
    exact ⟨hnodup, hsub, by simp, .refl _⟩
  | cons cell rest ih =>
    rw [List.foldlM_cons] at h
    cases hempty : cell.isEmpty with
    | true =>
      simp only [hempty, if_true, bind, Except.bind] at h
      cases h
    | false =>
      simp only [hempty, Bool.false_eq_true, if_false, bind, Except.bind] at h
      cases hcell : cell.foldlM (readCell members) seen with
      | error e =>
        rw [hcell] at h
        cases h
      | ok seen' =>
        rw [hcell] at h
        obtain ⟨hnodup', hsub', hperm'⟩ := readCell_fold hcell hnodup hsub
        obtain ⟨hout, hout', hne, hperm⟩ := ih h hnodup' hsub'
        refine ⟨hout, hout', ?_, ?_⟩
        · rintro c (_ | ⟨_, hc⟩)
          · simpa using hempty
          · exact hne c hc
        · refine hperm.trans ((hperm'.append_left _).trans ?_)
          rw [List.flatten_cons, ← List.append_assoc]
          exact List.perm_append_comm.append_right _

/-- A partition that passes its check has no empty cell and lists each member once and nothing else. -/
theorem checkPartition_ok {members : List NodeId} {cells : List (List NodeId)} (h : checkPartition members cells = .ok ()) :
    (∀ cell ∈ cells, cell ≠ []) ∧ cells.flatten.Nodup ∧ ∀ m, m ∈ cells.flatten ↔ m ∈ members := by
  unfold checkPartition at h
  by_cases hfew : cells.length < 2
  · simp only [hfew, if_true] at h
    cases h
  · simp only [hfew, if_false] at h
    cases hread : (cells.foldlM (fun seen cell => do
        if cell.isEmpty then throw .emptyCell
        cell.foldlM (readCell members) seen) [] : Except PartitionFault (List NodeId)) with
    | error e =>
      rw [hread] at h
      cases h
    | ok seen =>
      obtain ⟨hseen, hsub, hne, hperm⟩ := readCells_fold hread .nil (by simp)
      rw [List.append_nil] at hperm
      have hlength : seen.length = members.length := by
        by_contra hlength
        rw [hread] at h
        simp only [bind, Except.bind, ne_eq, hlength, not_false_eq_true, if_true] at h
        cases h
      refine ⟨hne, hperm.nodup_iff.mp hseen, fun m => ?_⟩
      rw [← hperm.mem_iff]
      -- As many nodes as there are members, all of them members, are the members.
      have hsame := (hseen.subperm hsub).perm_of_length_le hlength.ge
      exact hsame.mem_iff

/-- Reading a cell of members that are all new. -/
private theorem readCell_fold_eq {members cell : List NodeId} (seen : List NodeId) (hsub : ∀ m ∈ cell, m ∈ members)
    (hnodup : (cell ++ seen).Nodup) : cell.foldlM (readCell members) seen = .ok (cell.reverse ++ seen) := by
  induction cell generalizing seen with
  | nil => rfl
  | cons m rest ih =>
    rw [List.cons_append, List.nodup_cons, List.mem_append, not_or] at hnodup
    have hread : readCell members seen m = .ok (m :: seen) := by simp [readCell, hsub m (by simp), hnodup.1.2]
    have hrest : (rest ++ m :: seen).Nodup := by
      rw [List.nodup_middle, List.nodup_cons, List.mem_append, not_or]
      exact hnodup
    rw [List.foldlM_cons, hread]
    change rest.foldlM (readCell members) (m :: seen) = _
    rw [ih _ (fun x hx => hsub x (by simp [hx])) hrest, List.reverse_cons, List.append_assoc]
    rfl

private theorem readCells_fold_eq {members : List NodeId} {cells : List (List NodeId)} (seen : List NodeId)
    (hne : ∀ cell ∈ cells, cell ≠ []) (hsub : ∀ m ∈ cells.flatten, m ∈ members) (hnodup : (cells.flatten ++ seen).Nodup) :
    (cells.foldlM (fun seen cell => do
      if cell.isEmpty then throw .emptyCell
      cell.foldlM (readCell members) seen) seen : Except PartitionFault (List NodeId)) =
        .ok (cells.flatten.reverse ++ seen) := by
  induction cells generalizing seen with
  | nil => rfl
  | cons cell rest ih =>
    have hcell : cell.isEmpty = false := by simpa using hne cell (by simp)
    rw [List.flatten_cons, List.append_assoc] at hnodup
    have hperm : (cell ++ (rest.flatten ++ seen)).Perm (rest.flatten ++ (cell.reverse ++ seen)) := by
      rw [← List.append_assoc, ← List.append_assoc]
      refine List.Perm.append_right _ (List.perm_append_comm.trans ?_)
      exact List.Perm.append_left _ (List.reverse_perm cell).symm
    have hread := readCell_fold_eq seen (fun m hm => hsub m (by simp [hm]))
      (hnodup.sublist (List.Sublist.append_left (List.sublist_append_right _ _) _))
    rw [List.foldlM_cons, hcell]
    simp only [Bool.false_eq_true, if_false, hread]
    change rest.foldlM _ (cell.reverse ++ seen) = _
    rw [ih _ (fun c hc => hne c (by simp [hc])) (fun m hm => hsub m (by simp [List.mem_flatten.mp hm]))
      (hperm.nodup_iff.mp hnodup)]
    simp

/-- Two cells or more, none of them empty, that list the members in some order, pass the check. -/
theorem checkPartition_eq_ok {members : List NodeId} {cells : List (List NodeId)} (htwo : 2 ≤ cells.length)
    (hne : ∀ cell ∈ cells, cell ≠ []) (hperm : cells.flatten.Perm members) (hnodup : members.Nodup) :
    checkPartition members cells = .ok () := by
  have hread := readCells_fold_eq [] hne (fun m hm => hperm.mem_iff.mp hm)
    (by rw [List.append_nil]; exact hperm.nodup_iff.mpr hnodup)
  unfold checkPartition
  simp only [Nat.not_lt.mpr htwo, if_false]
  rw [hread]
  simp [bind, Except.bind, hperm.length_eq, pure, Except.pure]

end Partition

/-- What splitting `id` into `parts` leads to. -/
def SplitInto (a a' : Abstraction α) (id : ArNodeId) (cells : List (List NodeId)) (parts : List ArNodeId) : Prop :=
  List.Forall₂ (fun cell part => ∃ b, a'.arnodes.body? part = some b ∧ b.data.members = cell ∧
    b.data.state = .fullyActivated) cells parts ∧
  (∀ x ∈ parts, x ≠ id → a.arnodes.body? x = none) ∧
  (∀ x, x ∉ parts → a'.arnodes.body? x = if x = id then none else a.arnodes.body? x) ∧
  a'.encoding.pool.available + 2 * cells.length = a.encoding.pool.available + 2

/-- In the middle of a split: the cells read so far are wrapped again. `a` is the state after the old arnode was
unwrapped. -/
private structure Parted (a a' : Abstraction α) (l : Nat) (done : List (List NodeId)) (parts : List ArNodeId) : Prop where
  woven : Woven a' none
  framed : Framed a' l
  nodePart_eq : a'.nodePart = a.nodePart
  held : ∀ m ∈ done.flatten, (a'.holder? m).isSome
  holder?_eq : ∀ m, m ∉ done.flatten → a'.holder? m = a.holder? m
  made : List.Forall₂ (fun cell part => ∃ b, a'.arnodes.body? part = some b ∧ b.data.members = cell ∧
    b.location.layer = l ∧ b.data.state = .fullyActivated) done parts
  fresh : ∀ x ∈ parts, a.arnodes.body? x = none
  body?_eq : ∀ x, x ∉ parts → a'.arnodes.body? x = a.arnodes.body? x
  available_eq : a'.encoding.pool.available + 2 * done.length = a.encoding.pool.available
  moves : Moves (· = l) a a'

/-- Wrapping the cells of a partition one after another. -/
private theorem rebuildAll_meets {category : Category} {cells : List (List NodeId)} (h : Woven a none)
    (hframed : Framed a l) (hboundary : a.boundary l = false) (hnodup : cells.flatten.Nodup)
    (hwrap : ∀ cell ∈ cells, Wrappable a l category cell) (hvars : 2 * cells.length ≤ a.encoding.pool.available) :
    (cells.mapM (rebuild l)).Meets a (fun parts a' => Parted a a' l cells parts) Step.Never := by
  refine Step.Meets.mapM (fun done parts a' => Parted a a' l done parts) ?_ ?_
  · exact ⟨h, hframed, rfl, by simp, fun _ _ => rfl, .nil, by simp, fun _ _ => rfl, rfl, .refl⟩
  · intro done parts cell rest a' hsplit hparted
    subst hsplit
    have hold := hwrap cell (by simp)
    have hdisjoint : ∀ m ∈ cell, m ∉ done.flatten := by
      intro m hm hmem
      rw [List.flatten_append, List.nodup_append] at hnodup
      exact hnodup.2.2 m hmem m (by simp [hm]) rfl
    have hnew : Wrappable a' l category cell := by
      refine ⟨hold.ne_nil, hold.nodup, hold.cemented, fun m hm => ?_⟩
      obtain ⟨c, hc, hlayer, hcat, hfree⟩ := hold.free m hm
      exact ⟨c, by rw [info?_of_nodePart hparted.nodePart_eq, hc], hlayer, hcat,
        by rw [hparted.holder?_eq m (hdisjoint m hm), hfree]⟩
    have hneeded : varsNeeded (a'.boundary l) = 2 := by
      rw [boundary_of_nodePart hparted.nodePart_eq, hboundary]
      rfl
    have havailable := hparted.available_eq
    simp only [List.length_append, List.length_cons] at hvars
    refine (rebuild_meets hparted.woven hparted.framed hnew (by omega)).imp ?_
    rintro id a'' ⟨b, hb⟩
    have hkeep : ∀ {x c}, a'.arnodes.body? x = some c → a''.arnodes.body? x = some c := by
      intro x c hx
      rw [hb.body?_eq, if_neg, hx]
      rintro rfl
      rw [hb.fresh] at hx
      cases hx
    refine ⟨hb.woven, hb.framed, hb.nodePart_eq.trans hparted.nodePart_eq, fun m hm => ?_, fun m hm => ?_, ?_,
      fun x hx => ?_, fun x hx => ?_, ?_, hparted.moves.trans hb.moves⟩
    · rw [hb.holder?_eq]
      split
      · rfl
      · next hcell =>
        rw [List.flatten_append, List.flatten_singleton, List.mem_append] at hm
        exact hparted.held m (hm.resolve_right hcell)
    · rw [List.flatten_append, List.flatten_singleton, List.mem_append, not_or] at hm
      rw [hb.holder?_eq, if_neg hm.2, hparted.holder?_eq m hm.1]
    · refine List.rel_append (hparted.made.imp ?_) (.cons ⟨b, ?_, hb.members_eq, hb.layer_eq, hb.state_eq⟩ .nil)
      · rintro cell part ⟨c, hc, hrest⟩
        exact ⟨c, hkeep hc, hrest⟩
      · rw [hb.body?_eq, if_pos rfl]
    · rcases List.mem_append.mp hx with hx | hx
      · exact hparted.fresh x hx
      · rw [List.mem_singleton.mp hx]
        by_cases hid : id ∈ parts
        · exact hparted.fresh id hid
        · rw [← hparted.body?_eq id hid]
          exact hb.fresh
    · rw [List.mem_append, List.mem_singleton, not_or] at hx
      rw [hb.body?_eq, if_neg hx.2, hparted.body?_eq x hx.1]
    · have hleft := hb.available_eq
      rw [hneeded] at hleft
      simp only [List.length_append, List.length_cons, List.length_nil]
      omega

/-- Splitting checks its arguments, which changes nothing, and goes on with an arnode and a partition of its nodes. -/
theorem split_meets_of_checked {id : ArNodeId} {cells : List (List NodeId)}
    {post : List ArNodeId → Abstraction α → Prop} {fail : Error → Abstraction α → Prop} (hrefused : ∀ e, fail e a)
    (hchecked : ∀ {b : Body (ArNodeData α)}, a.boundary l = false → a.arnodes.body? id = some b → b.location.layer = l →
      checkPartition b.data.members cells = .ok () → 2 * cells.length ≤ a.encoding.pool.available + 2 →
      (do
        discard (unwrap l id)
        let parts ← cells.mapM (rebuild l)
        count .splitApplied
        return parts : Step (Abstraction α) (List ArNodeId)).Meets a post fail) :
    (split l id cells).Meets a post fail := by
  unfold split
  rw [Step.meets_bind, Step.meets_read]
  cases hlayer : a.layer l with
  | error e => exact hrefused e
  | ok layer =>
    dsimp only
    rw [Step.meets_ite]
    refine ⟨fun _ => hrefused _, fun hinner => ?_⟩
    have hboundary : a.boundary l = false := by simpa [boundary_of_layer (getElem?_of_layer hlayer)] using hinner
    rw [Step.meets_bind, Step.meets_discard, Step.meets_read]
    cases hfull : a.requireFull l id with
    | error e => exact hrefused e
    | ok loc =>
      obtain ⟨b, hb, rfl, hl, _⟩ := requireFull_ok hfull
      obtain ⟨v, hv, rfl⟩ := Graph.body?_eq_some_iff.mp hb
      have hread : a.arnode id = .ok v := Arena.get_of_get? hv
      dsimp only
      rw [Step.meets_bind, Step.meets_read, hread]
      dsimp only
      rw [Step.meets_bind, Step.meets_ofExcept]
      cases hpartition : checkPartition v.data.members cells with
      | error fault => exact hrefused _
      | ok _ =>
        change Step.Meets (Step.read _ >>= _) a _ _
        rw [Step.meets_bind, Step.meets_read]
        cases hreserve : a.reserveVars cells.length 1 with
        | error e => exact hrefused e
        | ok _ =>
          have hvars : 2 * cells.length ≤ a.encoding.pool.available + 2 := by
            simp only [reserveVars, Encoding.reserve] at hreserve
            split at hreserve
            · cases hreserve
            · omega
          exact hchecked hboundary hb hl hpartition hvars

/-- Once its checks have passed, splitting succeeds. -/
private theorem splitChecked_meets (h : Woven a none) (hframed : Framed a l) (hboundary : a.boundary l = false)
    {id : ArNodeId} {b : Body (ArNodeData α)} {cells : List (List NodeId)} (hb : a.arnodes.body? id = some b)
    (hl : b.location.layer = l) (hpartition : checkPartition b.data.members cells = .ok ())
    (hvars : 2 * cells.length - 2 ≤ a.encoding.pool.available) :
    (do
      discard (unwrap l id)
      let parts ← cells.mapM (rebuild l)
      count .splitApplied
      return parts : Step (Abstraction α) (List ArNodeId)).Meets a
      (fun parts a' => Regrouped a a' l ∧ SplitInto a a' id cells parts) Step.Never := by
  have hg := h.grounded
  obtain ⟨hne, hnodup, hmem⟩ := checkPartition_ok hpartition
  rw [Step.meets_bind, Step.meets_discard]
  refine (unwrap_meets hg.arnodes hb hl (hg.owned.live_of_mem hb)).imp ?_
  rintro _ a₁ ⟨rfl, hu⟩
  have hwrap : ∀ cell ∈ cells, Wrappable a₁ l b.location.category cell := by
    intro cell hcell
    rw [← hl]
    refine hu.wrappable hg (hne cell hcell) ?_ fun m hm => (hmem m).mp (List.mem_flatten.mpr ⟨cell, hcell, hm⟩)
    exact (List.nodup_flatten.mp hnodup).1 cell hcell
  have hboundary₁ : a₁.boundary l = false := by rw [boundary_of_nodePart hu.nodePart_eq, hboundary]
  have hvars₁ : 2 * cells.length ≤ a₁.encoding.pool.available := by
    rw [hu.available_eq hg hboundary hl]
    omega
  rw [Step.meets_bind]
  refine (rebuildAll_meets (h.unwrap hu) (hframed.unwrap hg.owned hu hl) hboundary₁ hnodup hwrap hvars₁).imp ?_
  intro parts a₂ hparted
  have hother : ∀ x, x ∉ parts → a₂.arnodes.body? x = if x = id then none else a.arnodes.body? x := by
    intro x hx
    rw [hparted.body?_eq x hx, hu.body?_eq]
  refine ⟨⟨hparted.woven.recount _, hparted.nodePart_eq.trans hu.nodePart_eq, fun m => ?_, fun {x c} hx => ?_, ?_⟩,
    hparted.made.imp fun cell part ⟨c, hc, hmembers, _, hstate⟩ => ⟨c, hc, hmembers, hstate⟩,
    fun x hx hne => ?_, hother, ?_⟩
  · change (a₂.holder? m).isSome ↔ _
    by_cases hm : m ∈ cells.flatten
    · have hold := (hg.owned.mem_members_iff hb).mp ((hmem m).mp hm)
      simp [hparted.held m hm, hold]
    · rw [hparted.holder?_eq m hm, hu.holder?_eq, if_neg fun hmember => hm ((hmem m).mpr hmember)]
  · change a₂.arnodes.body? x = some c at hx
    by_cases hpart : x ∈ parts
    · obtain ⟨cell, _, hrel⟩ := exists_mem_of_forall₂_right hparted.made hpart
      obtain ⟨c', hc', _, hlayer, hstate⟩ := hrel
      rw [hx] at hc'
      cases hc'
      exact .inr ⟨hlayer, hstate⟩
    · rw [hother x hpart] at hx
      split at hx
      · cases hx
      · exact .inl hx
  · exact .tail (Relation.ReflTransGen.head (.unwrap hl hu) hparted.moves) (.recount _ rfl)
  · have hfresh := hparted.fresh x hx
    rwa [hu.body?_eq, if_neg hne] at hfresh
  · change a₂.encoding.pool.available + _ = _
    rw [hparted.available_eq, hu.available_eq hg hboundary hl]

/-- With variables left for the new arnodes, a fully activated arnode can be split along a partition of its nodes. -/
theorem split_succeeds (h : Woven a none) (hframed : Framed a l) (hboundary : a.boundary l = false) {id : ArNodeId}
    {b : Body (ArNodeData α)} {cells : List (List NodeId)} (hb : a.arnodes.body? id = some b) (hl : b.location.layer = l)
    (hstate : b.data.state = .fullyActivated) (hpartition : checkPartition b.data.members cells = .ok ())
    (hvars : 2 * cells.length - 2 ≤ a.encoding.pool.available) :
    (split l id cells).Meets a (fun parts a' => Regrouped a a' l ∧ SplitInto a a' id cells parts) Step.Never := by
  obtain ⟨layer, hlayer, _⟩ := h.grounded.arnodes.exists_layer hb
  rw [hl] at hlayer
  have hinner : ¬layer.isBoundary = true := by
    rw [boundary_of_layer hlayer] at hboundary
    simp [hboundary]
  have hfull := requireFull_eq_ok hb hl hstate
  obtain ⟨v, hv, rfl⟩ := Graph.body?_eq_some_iff.mp hb
  have hread : a.arnode id = .ok v := Arena.get_of_get? hv
  have hreserve : a.reserveVars cells.length 1 = .ok () := by
    simp only [reserveVars, Encoding.reserve]
    rw [if_neg (Nat.not_lt.mpr hvars)]
  unfold split
  rw [Step.meets_bind, Step.meets_read, layer_of_getElem? hlayer]
  dsimp only
  rw [if_neg hinner, Step.meets_bind, Step.meets_discard, Step.meets_read, hfull]
  dsimp only
  rw [Step.meets_bind, Step.meets_read, hread]
  dsimp only
  rw [Step.meets_bind, Step.meets_ofExcept]
  rw [Vertex.body_data] at hpartition
  rw [hpartition]
  change Step.Meets (Step.read _ >>= _) a _ _
  rw [Step.meets_bind, Step.meets_read, hreserve]
  exact splitChecked_meets h hframed hboundary hb hl hpartition hvars

/-- Splitting either is refused and changes nothing, or gives an arnode for each cell. -/
theorem split_meets (h : Woven a none) (hframed : Framed a l) (id : ArNodeId) (cells : List (List NodeId)) :
    (split l id cells).Meets a (fun parts a' => Regrouped a a' l ∧ SplitInto a a' id cells parts)
      (fun _ a' => a' = a) := by
  refine split_meets_of_checked (fun _ => rfl) fun {b} hboundary hb hl hpartition hvars => ?_
  exact (splitChecked_meets h hframed hboundary hb hl hpartition (by omega)).mono (fun _ _ hpost => hpost)
    fun _ _ hfalse => hfalse.elim

end ReluAbstraction.Abstraction
