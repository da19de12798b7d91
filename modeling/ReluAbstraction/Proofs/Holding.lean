import ReluAbstraction.Proofs.Arnodes

/-!
# Who holds whom

Arnodes and nodes agree on who holds whom, and no two arnodes share a variable. Wrapping, unwrapping, and whatever leaves
the members and variables of the arnodes alone keep it that way.
-/

namespace ReluAbstraction

/-- An arnode without its progress: neither activated nor with an equation. -/
def Body.idle {α : Type} (b : Body (ArNodeData α)) : Body (ArNodeData α) :=
  { b with data := { b.data with state := .notActivated, equation := none } }

/-- Apart from their progress, arnodes have a place, members, variables and a bias. -/
theorem Body.eq_of_idle_eq {α : Type} {b b' : Body (ArNodeData α)} (h : b.idle = b'.idle) : b.location = b'.location ∧
    b.data.members = b'.data.members ∧ b.data.vars = b'.data.vars ∧ b.data.bias = b'.data.bias := by
  simp only [Body.idle, Body.mk.injEq, ArNodeData.mk.injEq] at h
  obtain ⟨hlocation, _, hmembers, _, hvars, hbias, _⟩ := h
  exact ⟨hlocation, hmembers, hvars, hbias⟩

namespace Abstraction

variable {α : Type}

theorem boundary_of_nodePart {a a' : Abstraction α} (h : a'.nodePart = a.nodePart) : a'.boundary = a.boundary := by
  funext l
  simp only [boundary, roles_of_nodePart h]

/-- The arnodes hold the same nodes and use the same variables as before; only their edges and their progress may
differ. -/
structure Recast (a a' : Abstraction α) : Prop where
  sound : a'.ArnodesSound
  nodePart_eq : a'.nodePart = a.nodePart
  holder?_eq : a'.holder? = a.holder?
  idle_eq : ∀ x, (a'.arnodes.body? x).map Body.idle = (a.arnodes.body? x).map Body.idle
  pool_eq : a'.encoding.pool = a.encoding.pool

theorem Recast.trans {a a' a'' : Abstraction α} (h : Recast a a') (h' : Recast a' a'') : Recast a a'' :=
  ⟨h'.sound, h'.nodePart_eq.trans h.nodePart_eq, h'.holder?_eq.trans h.holder?_eq,
    fun x => (h'.idle_eq x).trans (h.idle_eq x), h'.pool_eq.trans h.pool_eq⟩

theorem Recast.exists_body? {a a' : Abstraction α} (h : Recast a a') {x : ArNodeId} {b' : Body (ArNodeData α)}
    (hb' : a'.arnodes.body? x = some b') : ∃ b, a.arnodes.body? x = some b ∧ b.location = b'.location ∧
      b.data.members = b'.data.members ∧ b.data.vars = b'.data.vars ∧ b.data.bias = b'.data.bias := by
  have hidle := h.idle_eq x
  rw [hb', Option.map_some, eq_comm, Option.map_eq_some_iff] at hidle
  obtain ⟨b, hb, heq⟩ := hidle
  exact ⟨b, hb, Body.eq_of_idle_eq heq⟩

theorem Recast.symm_body? {a a' : Abstraction α} (h : Recast a a') {x : ArNodeId} {b : Body (ArNodeData α)}
    (hb : a.arnodes.body? x = some b) : ∃ b', a'.arnodes.body? x = some b' ∧ b'.location = b.location ∧
      b'.data.members = b.data.members ∧ b'.data.vars = b.data.vars ∧ b'.data.bias = b.data.bias := by
  have hidle := h.idle_eq x
  rw [hb, Option.map_some, Option.map_eq_some_iff] at hidle
  obtain ⟨b', hb', heq⟩ := hidle
  exact ⟨b', hb', Body.eq_of_idle_eq heq⟩

/-- Every arnode has variables of its own, none of them free; in a boundary layer one, else two. -/
structure VarsSound (a : Abstraction α) : Prop where
  pool : a.encoding.pool.WellFormed
  used : ∀ {x b}, a.arnodes.body? x = some b → ∀ {v}, b.data.vars.Uses v → a.encoding.pool.isFree v = false
  isBoundary_eq : ∀ {x b}, a.arnodes.body? x = some b → b.data.vars.isBoundary = a.boundary b.location.layer
  disjoint : ∀ {x y b c}, a.arnodes.body? x = some b → a.arnodes.body? y = some c →
    ∀ {v}, b.data.vars.Uses v → c.data.vars.Uses v → x = y

theorem Recast.varsSound {a a' : Abstraction α} (h : Recast a a') (hv : a.VarsSound) : a'.VarsSound := by
  refine ⟨by rw [h.pool_eq]; exact hv.pool, fun {x c} hc {v} hu => ?_, fun {x c} hc => ?_,
    fun {x y c d} hc hd {v} hu hu' => ?_⟩
  · obtain ⟨b, hb, _, _, hvars, _⟩ := h.exists_body? hc
    rw [h.pool_eq]
    exact hv.used hb (hvars ▸ hu)
  · obtain ⟨b, hb, hlocation, _, hvars, _⟩ := h.exists_body? hc
    rw [boundary_of_nodePart h.nodePart_eq, ← hvars, ← hlocation]
    exact hv.isBoundary_eq hb
  · obtain ⟨b, hb, _, _, hvars, _⟩ := h.exists_body? hc
    obtain ⟨b', hb', _, _, hvars', _⟩ := h.exists_body? hd
    exact hv.disjoint hb hb' (hvars ▸ hu) (hvars' ▸ hu')

variable [Scalar α]

/-- Every arnode holds nodes of its own layer and category and has their reduced bias; every holder holds. -/
structure Owned (a : Abstraction α) : Prop where
  ne_nil : ∀ {x b}, a.arnodes.body? x = some b → b.data.members ≠ []
  nodup : ∀ {x b}, a.arnodes.body? x = some b → b.data.members.Nodup
  member : ∀ {x b}, a.arnodes.body? x = some b → ∀ m ∈ b.data.members, ∃ c, a.info? m = some c ∧
    a.holder? m = some x ∧ c.place.layer = b.location.layer ∧ c.place.category = b.location.category
  holder : ∀ {m x}, a.holder? m = some x → ∃ b, a.arnodes.body? x = some b ∧ m ∈ b.data.members
  bias_eq : ∀ {x b}, a.arnodes.body? x = some b →
    (a.policy.bias b.location.category).reduce? (b.data.members.map a.biasOf) = some b.data.bias

/-- Nodes, arnodes and variables fit together. -/
structure Grounded (a : Abstraction α) : Prop where
  nodes : a.NodesSound
  arnodes : a.ArnodesSound
  owned : a.Owned
  vars : a.VarsSound

theorem biasOf_of_nodePart {a a' : Abstraction α} (h : a'.nodePart = a.nodePart) : a'.biasOf = a.biasOf := by
  funext m
  simp only [biasOf, info?_of_nodePart h]

section Owned

variable {a : Abstraction α} {x y : ArNodeId} {b c : Body (ArNodeData α)} {m : NodeId} {i : NodeInfo α}

/-- An arnode's members are the nodes that it holds. -/
theorem Owned.mem_members_iff (h : a.Owned) (hb : a.arnodes.body? x = some b) :
    m ∈ b.data.members ↔ a.holder? m = some x := by
  constructor
  · intro hm
    obtain ⟨_, _, hx, _⟩ := h.member hb m hm
    exact hx
  · intro hx
    obtain ⟨b', hb', hm⟩ := h.holder hx
    rw [hb] at hb'
    cases hb'
    exact hm

/-- A node has one holder. -/
theorem Owned.eq_of_mem (h : a.Owned) (hb : a.arnodes.body? x = some b) (hc : a.arnodes.body? y = some c)
    (hm : m ∈ b.data.members) (hm' : m ∈ c.data.members) : x = y := by
  rw [h.mem_members_iff hb] at hm
  rw [h.mem_members_iff hc, hm] at hm'
  exact Option.some.inj hm'

/-- A node is of the layer and the category of the arnode that holds it. -/
theorem Owned.place_of_mem (h : a.Owned) (hb : a.arnodes.body? x = some b) (hm : m ∈ b.data.members)
    (hi : a.info? m = some i) : i.place.layer = b.location.layer ∧ i.place.category = b.location.category := by
  obtain ⟨i', hi', _, hplace⟩ := h.member hb m hm
  rw [hi] at hi'
  cases hi'
  exact hplace

theorem Owned.exists_of_holder? (h : a.Owned) (hx : a.holder? m = some x) (hi : a.info? m = some i) :
    ∃ b, a.arnodes.body? x = some b ∧ m ∈ b.data.members ∧ i.place.layer = b.location.layer ∧
      i.place.category = b.location.category := by
  obtain ⟨b, hb, hm⟩ := h.holder hx
  exact ⟨b, hb, hm, h.place_of_mem hb hm hi⟩

theorem Owned.live_of_mem (h : a.Owned) (hb : a.arnodes.body? x = some b) (m : NodeId) (hm : m ∈ b.data.members) :
    ∃ i, a.info? m = some i := by
  obtain ⟨i, hi, _⟩ := h.member hb m hm
  exact ⟨i, hi⟩

end Owned

section Wrapped

variable {a a' : Abstraction α} {members : List NodeId} {id : ArNodeId} {b : Body (ArNodeData α)}

theorem Wrapped.body?_self (h : Wrapped a a' members id b) : a'.arnodes.body? id = some b := by
  rw [h.body?_eq, if_pos rfl]

theorem Wrapped.ne_of_old (h : Wrapped a a' members id b) {x : ArNodeId} {c : Body (ArNodeData α)}
    (hc : a.arnodes.body? x = some c) : x ≠ id := by
  rintro rfl
  rw [h.fresh] at hc
  cases hc

/-- The arnodes that were there before are there as they were. -/
theorem Wrapped.body?_of_old (h : Wrapped a a' members id b) {x : ArNodeId} {c : Body (ArNodeData α)}
    (hc : a.arnodes.body? x = some c) : a'.arnodes.body? x = some c := by
  rw [h.body?_eq, if_neg (h.ne_of_old hc), hc]

/-- An arnode is the new one or was there before. -/
theorem Wrapped.body?_cases (h : Wrapped a a' members id b) {x : ArNodeId} {c : Body (ArNodeData α)}
    (hc : a'.arnodes.body? x = some c) : x = id ∧ c = b ∨ a.arnodes.body? x = some c := by
  rw [h.body?_eq] at hc
  split at hc
  · next hx => exact .inl ⟨hx, (Option.some.inj hc).symm⟩
  · exact .inr hc

theorem Wrapped.owned (h : Wrapped a a' members id b) (ho : a.Owned) : a'.Owned := by
  have hinfo := info?_of_nodePart h.nodePart_eq
  have hpolicy := policy_of_nodePart h.nodePart_eq
  have hbias := biasOf_of_nodePart h.nodePart_eq
  refine ⟨fun {x c} hc => ?_, fun {x c} hc => ?_, fun {x c} hc m hm => ?_, fun {m x} hm => ?_, fun {x c} hc => ?_⟩
  · rcases h.body?_cases hc with ⟨_, rfl⟩ | hc
    · rw [h.members_eq]
      exact h.wrappable.ne_nil
    · exact ho.ne_nil hc
  · rcases h.body?_cases hc with ⟨_, rfl⟩ | hc
    · rw [h.members_eq]
      exact h.wrappable.nodup
    · exact ho.nodup hc
  · rcases h.body?_cases hc with ⟨rfl, rfl⟩ | hc
    · rw [h.members_eq] at hm
      obtain ⟨c, hc, hlayer, hcategory, _⟩ := h.wrappable.free m hm
      exact ⟨c, by rw [hinfo, hc], by rw [h.holder?_eq, if_pos hm], hlayer, hcategory⟩
    · obtain ⟨d, hd, hholder, hplace⟩ := ho.member hc m hm
      have hother : m ∉ members := by
        intro hmem
        obtain ⟨_, _, _, _, hfree⟩ := h.wrappable.free m hmem
        rw [hholder] at hfree
        cases hfree
      exact ⟨d, by rw [hinfo, hd], by rw [h.holder?_eq, if_neg hother, hholder], hplace⟩
  · rw [h.holder?_eq] at hm
    split at hm
    · next hmem =>
      cases hm
      exact ⟨b, h.body?_self, by rwa [h.members_eq]⟩
    · obtain ⟨c, hc, hmem⟩ := ho.holder hm
      exact ⟨c, h.body?_of_old hc, hmem⟩
  · rw [hpolicy, hbias]
    rcases h.body?_cases hc with ⟨_, rfl⟩ | hc
    · rw [h.members_eq]
      exact h.bias_eq
    · exact ho.bias_eq hc

theorem Wrapped.varsSound (h : Wrapped a a' members id b) (hv : a.VarsSound) : a'.VarsSound := by
  obtain ⟨e, hborrowed, hencoding⟩ := h.borrowed
  have hpool : a'.encoding.pool = e.pool := by rw [hencoding]; rfl
  have hboundary := boundary_of_nodePart h.nodePart_eq
  have hnew : ∀ {v x c}, b.data.vars.Uses v → a.arnodes.body? x = some c → ¬c.data.vars.Uses v := by
    intro v x c huse hc hother
    have hfree := hborrowed.free huse
    rw [hv.used hc hother] at hfree
    cases hfree
  refine ⟨by rw [hpool]; exact hborrowed.pool, fun {x c} hc {v} hu => ?_, fun {x c} hc => ?_,
    fun {x y c d} hc hd {v} hu hu' => ?_⟩
  · rw [hpool, ← Bool.not_eq_true, hborrowed.isFree_iff]
    rintro ⟨hfree, hnot⟩
    rcases h.body?_cases hc with ⟨_, rfl⟩ | hc
    · exact hnot hu
    · rw [hv.used hc hu] at hfree
      cases hfree
  · rw [hboundary]
    rcases h.body?_cases hc with ⟨_, rfl⟩ | hc
    · exact hborrowed.isBoundary_eq
    · exact hv.isBoundary_eq hc
  · rcases h.body?_cases hc with ⟨rfl, rfl⟩ | hc
    · rcases h.body?_cases hd with ⟨rfl, _⟩ | hd
      · rfl
      · exact absurd hu' (hnew hu hd)
    · rcases h.body?_cases hd with ⟨_, rfl⟩ | hd
      · exact absurd hu (hnew hu' hc)
      · exact hv.disjoint hc hd hu hu'

theorem Wrapped.grounded (h : Wrapped a a' members id b) (hg : a.Grounded) : a'.Grounded :=
  ⟨hg.nodes.of_nodePart h.nodePart_eq, h.sound, h.owned hg.owned, h.varsSound hg.vars⟩

end Wrapped

section Unwrapped

variable {a a' : Abstraction α} {id : ArNodeId} {b : Body (ArNodeData α)}

/-- An arnode that is left is another one and was there before. -/
theorem Unwrapped.body?_of_some (h : Unwrapped a a' id b) {x : ArNodeId} {c : Body (ArNodeData α)}
    (hc : a'.arnodes.body? x = some c) : x ≠ id ∧ a.arnodes.body? x = some c := by
  rw [h.body?_eq] at hc
  split at hc
  · cases hc
  · next hx => exact ⟨hx, hc⟩

theorem Unwrapped.body?_of_ne (h : Unwrapped a a' id b) {x : ArNodeId} {c : Body (ArNodeData α)}
    (hc : a.arnodes.body? x = some c) (hx : x ≠ id) : a'.arnodes.body? x = some c := by
  rw [h.body?_eq, if_neg hx, hc]

theorem Unwrapped.owned (h : Unwrapped a a' id b) (ho : a.Owned) : a'.Owned := by
  have hinfo := info?_of_nodePart h.nodePart_eq
  refine ⟨fun {x c} hc => ?_, fun {x c} hc => ?_, fun {x c} hc m hm => ?_, fun {m x} hm => ?_, fun {x c} hc => ?_⟩
  · exact ho.ne_nil (h.body?_of_some hc).2
  · exact ho.nodup (h.body?_of_some hc).2
  · obtain ⟨hx, hc⟩ := h.body?_of_some hc
    obtain ⟨d, hd, hholder, hplace⟩ := ho.member hc m hm
    have hother : m ∉ b.data.members := fun hmem => hx (ho.eq_of_mem hc h.live hm hmem)
    exact ⟨d, by rw [hinfo, hd], by rw [h.holder?_eq, if_neg hother, hholder], hplace⟩
  · rw [h.holder?_eq] at hm
    split at hm
    · cases hm
    · next hmem =>
      obtain ⟨c, hc, hcm⟩ := ho.holder hm
      have hne : x ≠ id := by
        rintro rfl
        rw [h.live] at hc
        cases hc
        exact hmem hcm
      exact ⟨c, h.body?_of_ne hc hne, hcm⟩
  · rw [policy_of_nodePart h.nodePart_eq, biasOf_of_nodePart h.nodePart_eq]
    exact ho.bias_eq (h.body?_of_some hc).2

/-- The variables of the arnode are free again. -/
theorem Unwrapped.exists_returned (h : Unwrapped a a' id b) (hv : a.VarsSound) :
    ∃ e, e.pool = a.encoding.pool ∧ Encoding.Returned e a'.encoding b.data.vars := by
  obtain ⟨e, hmarks, hencoding⟩ := h.returned
  refine ⟨e, hmarks.pool_eq, ?_⟩
  rw [hencoding]
  refine Encoding.releaseVars_returned (by rw [hmarks.pool_eq]; exact hv.pool) (fun {v} hu => ?_) _
  rw [hmarks.pool_eq]
  exact hv.used h.live hu

theorem Unwrapped.varsSound (h : Unwrapped a a' id b) (hv : a.VarsSound) : a'.VarsSound := by
  obtain ⟨e, hpool, hreturned⟩ := h.exists_returned hv
  refine ⟨hreturned.pool, fun {x c} hc {v} hu => ?_, fun {x c} hc => ?_, fun {x y c d} hc hd {v} hu hu' => ?_⟩
  · obtain ⟨hx, hc⟩ := h.body?_of_some hc
    rw [← Bool.not_eq_true, hreturned.isFree_iff, hpool, hv.used hc hu, not_or]
    exact ⟨fun hother => hx (hv.disjoint hc h.live hu hother), Bool.false_ne_true⟩
  · rw [boundary_of_nodePart h.nodePart_eq]
    exact hv.isBoundary_eq (h.body?_of_some hc).2
  · exact hv.disjoint (h.body?_of_some hc).2 (h.body?_of_some hd).2 hu hu'

theorem Unwrapped.grounded (h : Unwrapped a a' id b) (hg : a.Grounded) : a'.Grounded :=
  ⟨hg.nodes.of_nodePart h.nodePart_eq, h.sound, h.owned hg.owned, h.varsSound hg.vars⟩

/-- The nodes of an arnode can be wrapped again once it is unwrapped. -/
theorem Unwrapped.wrappable (h : Unwrapped a a' id b) (hg : a.Grounded) {members : List NodeId} (hne : members ≠ [])
    (hnodup : members.Nodup) (hsub : ∀ m ∈ members, m ∈ b.data.members) :
    Wrappable a' b.location.layer b.location.category members := by
  refine ⟨hne, hnodup, hg.arnodes.cemented h.live, fun m hm => ?_⟩
  obtain ⟨c, hc, _, hlayer, hcategory⟩ := hg.owned.member h.live m (hsub m hm)
  exact ⟨c, by rw [info?_of_nodePart h.nodePart_eq, hc], hlayer, hcategory, by rw [h.holder?_eq, if_pos (hsub m hm)]⟩

end Unwrapped

section Recast

variable {a a' : Abstraction α}

theorem Recast.owned (h : Recast a a') (ho : a.Owned) : a'.Owned := by
  refine ⟨fun {x c} hc => ?_, fun {x c} hc => ?_, fun {x c} hc m hm => ?_, fun {m x} hm => ?_, fun {x c} hc => ?_⟩
  · obtain ⟨b, hb, _, hmembers, _⟩ := h.exists_body? hc
    rw [← hmembers]
    exact ho.ne_nil hb
  · obtain ⟨b, hb, _, hmembers, _⟩ := h.exists_body? hc
    rw [← hmembers]
    exact ho.nodup hb
  · obtain ⟨b, hb, hlocation, hmembers, _⟩ := h.exists_body? hc
    rw [info?_of_nodePart h.nodePart_eq, h.holder?_eq, ← hlocation]
    exact ho.member hb m (hmembers ▸ hm)
  · rw [h.holder?_eq] at hm
    obtain ⟨b, hb, hmem⟩ := ho.holder hm
    obtain ⟨b', hb', _, hmembers, _⟩ := h.symm_body? hb
    exact ⟨b', hb', hmembers ▸ hmem⟩
  · obtain ⟨b, hb, hlocation, hmembers, _, hbias⟩ := h.exists_body? hc
    rw [policy_of_nodePart h.nodePart_eq, biasOf_of_nodePart h.nodePart_eq, ← hlocation, ← hmembers, ← hbias]
    exact ho.bias_eq hb

theorem Recast.grounded (h : Recast a a') (hg : a.Grounded) : a'.Grounded :=
  ⟨hg.nodes.of_nodePart h.nodePart_eq, h.sound, h.owned hg.owned, h.varsSound hg.vars⟩

end Recast

end Abstraction

end ReluAbstraction
