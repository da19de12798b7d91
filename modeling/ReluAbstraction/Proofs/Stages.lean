import ReluAbstraction.Proofs.Regrouping

/-!
# Stages of a layer

Preprocessing classifies the nodes of a layer and wraps each piece by itself. Forward and full activation go over the
tables of a layer and take each arnode once. Each is described by what it does to the whole layer.
-/

namespace ReluAbstraction

/-- The error says that there is no variable, or no room, left. -/
def Error.IsExhausted (e : Error) : Prop := ∃ limit, e = .exhausted limit

namespace Abstraction

variable {α : Type} {a a' : Abstraction α} {l : Nat}

/-- The arnodes of one table. -/
theorem tableArnodes_eq (h : a.ArnodesSound) {layer : Layer} (hlayer : a.layers[l]? = some layer) (category : Category) :
    ∃ ids, a.tableArnodes l category = .ok ids ∧ ids.Nodup ∧
      ∀ x, x ∈ ids ↔ ∃ b, a.arnodes.body? x = some b ∧ b.location.layer = l ∧ b.location.category = category := by
  have hchain := getElem?_arnodeChains hlayer
  refine ⟨(layer.arnodes.entries category.index).map (·.2), ?_, h.housed.entries_nodup category hchain, fun x => ?_⟩
  · simp only [tableArnodes, layer_of_getElem? hlayer, bind, Except.bind]
    rfl
  · rw [List.mem_map]
    constructor
    · rintro ⟨⟨slot, y⟩, hmem, rfl⟩
      obtain ⟨b, hb, hplace⟩ := (h.housed.mem_entries_iff hchain).mp hmem
      exact ⟨b, hb, by rw [hplace], by rw [hplace]⟩
    · rintro ⟨b, hb, rfl, rfl⟩
      exact ⟨(b.location.slot, x), (h.housed.mem_entries_iff hchain).mpr ⟨b, hb, rfl⟩, rfl⟩

variable [Scalar α]

section Marks

/-- Exactly the arnodes that are there are marked. -/
def Marked (a : Abstraction α) : Prop := ∀ x, a.encoding.isStale x = true ↔ (a.arnodes.body? x).isSome

omit [Scalar α] in
/-- Marks that are added by activation are on arnodes that are there. -/
theorem Marked.activated (hm : a.Marked) {id : ArNodeId} {state : ActivationState}
    {edges : ArNodeId → ArNodeId → Option α} {marked : ArNodeId → Prop} (h : Activated a a' id state edges marked)
    (hold : ∀ x, a.encoding.isStale x = true → marked x) (hlive : ∀ x, marked x → (a.arnodes.body? x).isSome) :
    a'.Marked := by
  intro x
  have hbody : (a'.arnodes.body? x).isSome ↔ (a.arnodes.body? x).isSome := by
    rw [h.body?_eq]
    by_cases hx : x = id
    · simp [hx]
    · simp [hx]
  rw [h.remarked.isStale_iff, hbody]
  exact ⟨hlive x, fun hx => hold x ((hm x).mpr hx)⟩

/-- A new arnode is marked. -/
theorem Marked.wrapped (hm : a.Marked) {members : List NodeId} {id : ArNodeId} {b : Body (ArNodeData α)}
    (h : Wrapped a a' members id b) : a'.Marked := by
  obtain ⟨e, hborrowed, hencoding⟩ := h.borrowed
  have hstale : ∀ x, e.isStale x = a.encoding.isStale x := by
    intro x
    rw [Encoding.isStale, hborrowed.stale_eq]
    rfl
  intro x
  rw [hencoding, Encoding.isStale_markStale, hstale, hm x, h.body?_eq]
  by_cases hx : x = id
  · simp [hx]
  · simp [hx]

end Marks

section Activation

/-- Of the arnodes, those in `done` have reached `state`; nothing else about them has changed. -/
structure Progress (a a' : Abstraction α) (state : ActivationState) (done : List ArNodeId) : Prop where
  recast : Recast a a'
  woven : Woven a' none
  body?_eq : ∀ x, a'.arnodes.body? x =
    if x ∈ done then (a.arnodes.body? x).map (·.reaching state) else a.arnodes.body? x
  moves : Moves (fun _ => False) a a'
  marked : a.Marked → a'.Marked

/-- A step on single arnodes, taken over all tables of a layer, reaches each arnode of the layer once. -/
theorem activateLayer_meets (h : Woven a none) {layer : Layer} (hlayer : a.layers[l]? = some layer)
    {state : ActivationState} {op : ArNodeId → Step (Abstraction α) Unit}
    (hop : ∀ {a' done id b}, Progress a a' state done → id ∉ done → a.arnodes.body? id = some b → b.location.layer = l →
      (op id).Meets a' (fun _ a'' => Progress a a'' state (done ++ [id])) Step.Never) :
    (Category.cemented.forM fun category =>
      Step.read (fun a : Abstraction α => a.tableArnodes l category) >>= fun ids => ids.forM op).Meets a
      (fun _ a' => ∃ done, Progress a a' state done ∧ ∀ x, x ∈ done ↔ ∃ b, a.arnodes.body? x = some b ∧ b.location.layer = l)
      Step.Never := by
  -- After each table, the arnodes of its category have been reached too.
  refine (Step.Meets.forM (fun categories a' => ∃ done, Progress a a' state done ∧ ∀ x, x ∈ done ↔
    ∃ b, a.arnodes.body? x = some b ∧ b.location.layer = l ∧ b.location.category ∈ categories) ?_ ?_).imp ?_
  · refine ⟨[], ⟨⟨h.grounded.arnodes, rfl, rfl, fun _ => rfl, rfl⟩, h, by simp, .refl, fun hm => hm⟩, by simp⟩
  · rintro categories category rest a' hsplit ⟨done, hprogress, hdone⟩
    have hroles := roles_of_nodePart hprogress.recast.nodePart_eq
    obtain ⟨layer', hlayer'⟩ : ∃ layer', a'.layers[l]? = some layer' := by
      have hlength := congrArg List.length hroles
      simp only [roles, List.length_map] at hlength
      have hlt := (List.getElem?_eq_some_iff.mp hlayer).1
      exact ⟨_, List.getElem?_eq_getElem (by omega)⟩
    obtain ⟨ids, hread, hnodup, hmem⟩ := tableArnodes_eq hprogress.woven.grounded.arnodes hlayer' category
    have hmem' : ∀ x, x ∈ ids ↔ ∃ b, a.arnodes.body? x = some b ∧ b.location.layer = l ∧ b.location.category = category := by
      intro x
      rw [hmem]
      constructor
      · rintro ⟨b', hb', hbl, hbc⟩
        obtain ⟨b, hb, hlocation, _⟩ := hprogress.recast.exists_body? hb'
        exact ⟨b, hb, by rw [hlocation, hbl], by rw [hlocation, hbc]⟩
      · rintro ⟨b, hb, hbl, hbc⟩
        obtain ⟨b', hb', hlocation, _⟩ := hprogress.recast.symm_body? hb
        exact ⟨b', hb', by rw [hlocation, hbl], by rw [hlocation, hbc]⟩
    have hnew : category ∉ categories := by
      have hall : Category.cemented.Nodup := by decide
      rw [hsplit, List.nodup_append] at hall
      exact fun hc => hall.2.2 category hc category (by simp) rfl
    rw [Step.meets_bind, Step.meets_read, hread]
    refine (Step.Meets.forM (fun reached a'' => Progress a a'' state (done ++ reached)) (by simpa using hprogress) ?_).imp ?_
    · intro reached id more a'' hids hprogress'
      obtain ⟨b, hb, hbl, hbc⟩ := (hmem' id).mp (by simp [hids])
      have hfresh : id ∉ done ++ reached := by
        rw [List.mem_append, not_or]
        refine ⟨fun hid => ?_, fun hid => ?_⟩
        · obtain ⟨b', hb', _, hcategory⟩ := (hdone id).mp hid
          rw [hb] at hb'
          cases hb'
          exact hnew (hbc ▸ hcategory)
        · rw [hids, List.nodup_append] at hnodup
          exact hnodup.2.2 id hid id (by simp) rfl
      refine (hop hprogress' hfresh hb hbl).imp fun _ _ hdone => ?_
      rwa [List.append_assoc] at hdone
    · intro _ a'' hprogress'
      refine ⟨done ++ ids, hprogress', fun x => ?_⟩
      rw [List.mem_append, hdone, hmem']
      constructor
      · rintro (⟨b, hb, hbl, hbc⟩ | ⟨b, hb, hbl, hbc⟩)
        · exact ⟨b, hb, hbl, by simp [hbc]⟩
        · exact ⟨b, hb, hbl, by simp [hbc]⟩
      · rintro ⟨b, hb, hbl, hbc⟩
        rcases List.mem_append.mp hbc with hbc | hbc
        · exact .inl ⟨b, hb, hbl, hbc⟩
        · exact .inr ⟨b, hb, hbl, List.mem_singleton.mp hbc⟩
  · rintro _ a' ⟨done, hprogress, hdone⟩
    refine ⟨done, hprogress, fun x => (hdone x).trans ?_⟩
    refine exists_congr fun b => and_congr_right fun hb => ⟨fun hboth => hboth.1, fun hbl => ⟨hbl, ?_⟩⟩
    have hcemented := h.grounded.arnodes.cemented hb
    cases hc : b.location.category <;> first | decide | exact absurd hc hcemented

/-- Forward activation of a layer whose arnodes are not yet activated and whose next layer is held. -/
theorem forwardActivateLayer_meets (h : Woven a none) {layer : Layer} (hlayer : a.layers[l]? = some layer)
    (hidle : ∀ {x b}, a.arnodes.body? x = some b → b.location.layer = l → b.data.state.isForward = false)
    (habove : ∀ {m c}, a.info? m = some c → c.place.layer = l + 1 → (a.holder? m).isSome) :
    (forwardActivateLayer l).Meets a (fun _ a' => ∃ done, Progress a a' .forwardActivated done ∧
      ∀ x, x ∈ done ↔ ∃ b, a.arnodes.body? x = some b ∧ b.location.layer = l) Step.Never := by
  refine activateLayer_meets h hlayer fun {a' done id b} hprogress hid hb hbl => ?_
  have hb' : a'.arnodes.body? id = some b := by rw [hprogress.body?_eq, if_neg hid, hb]
  have hg := hprogress.woven.grounded
  have hnot := hidle hb hbl
  have hfalse : a'.isForward id = false := by rw [isForward_of_body? hb', hnot]
  refine (forwardActivate_meets hg hb' hnot (fun y => ?_) fun m hm t w hedge => ?_).imp fun _ a'' ha => ?_
  · rw [hprogress.woven.edge?_eq, hfalse]
    simp
  · obtain ⟨v, u, hv, hu, hnext⟩ := hg.nodes.graph.ends hedge
    obtain ⟨hml, _⟩ := hg.owned.place_of_mem hb' hm (info?_of_get? hv)
    have hml' : v.location.layer = l := hml.trans hbl
    rw [hprogress.recast.holder?_eq]
    refine habove (c := u.body.info) ?_ ?_
    · rw [← info?_of_nodePart hprogress.recast.nodePart_eq]
      exact info?_of_get? hu
    · rw [← hml']
      exact hnext
  · refine ⟨hprogress.recast.trans ha.recast, hprogress.woven.forward hb' ha (by simp), fun x => ?_,
      .tail hprogress.moves (.activate (fun x hx => .inl hx) (fun x y hne => ?_) ha), fun hm => ?_⟩
    · rw [ha.body?_eq, hb', hprogress.body?_eq]
      by_cases hx : x = id
      · simp [hx, hb]
      · simp [hx]
    · by_cases hx : x = id
      · subst hx
        right
        rw [if_pos rfl, hprogress.woven.edge?_eq, hfalse] at hne
        simpa [Option.isSome_iff_ne_none] using hne
      · rw [if_neg hx] at hne
        exact absurd rfl hne
    · refine (hprogress.marked hm).activated ha (fun x hx => .inl hx) fun x hx => ?_
      rcases hx with hx | hx
      · exact (hprogress.marked hm x).mp hx
      · obtain ⟨_, t, _, _, ht, _⟩ := hg.owned.isSome_folded?_iff.mp hx
        obtain ⟨c, hc, _⟩ := hg.owned.holder ht
        rw [hc]
        rfl

/-- Full activation of a layer whose arnodes are forward activated. -/
theorem confirmLayer_meets (h : Woven a none) {layer : Layer} (hlayer : a.layers[l]? = some layer)
    (hforward : ∀ {x b}, a.arnodes.body? x = some b → b.location.layer = l → b.data.state = .forwardActivated)
    (check : Bool) : (confirmLayer l check).Meets a (fun _ a' => ∃ done, Progress a a' .fullyActivated done ∧
      ∀ x, x ∈ done ↔ ∃ b, a.arnodes.body? x = some b ∧ b.location.layer = l) Step.Never := by
  refine activateLayer_meets h hlayer fun {a' done id b} hprogress hid hb hbl => ?_
  have hb' : a'.arnodes.body? id = some b := by rw [hprogress.body?_eq, if_neg hid, hb]
  have hstate := hforward hb hbl
  refine (confirm_meets hprogress.woven.grounded hb' hstate (fun x w hw => (hprogress.woven.of_edge hw).1) check).imp
    fun _ a'' ha => ?_
  refine ⟨hprogress.recast.trans ha.recast, hprogress.woven.confirm hb' (by rw [hstate]; rfl) ha, fun x => ?_,
    .tail hprogress.moves (.activate (fun x hx => hx) (fun x y hne => absurd rfl hne) ha),
    fun hm => (hprogress.marked hm).activated ha (fun x hx => hx) fun x hx => (hprogress.marked hm x).mp hx⟩
  rw [ha.body?_eq, hb', hprogress.body?_eq]
  by_cases hx : x = id
  · simp [hx, hb]
  · simp [hx]

end Activation

section Preprocessing

variable {net : Feedforward α}

/-- Pieces of one node of layer `l`, each wrapped by itself. `a` is the state after the node was classified. -/
structure Covered (a a' : Abstraction α) (l : Nat) (done : List NodeId) (created : List ArNodeId) : Prop where
  woven : Woven a' none
  nodePart_eq : a'.nodePart = a.nodePart
  held : ∀ m ∈ done, (a'.holder? m).isSome
  layer_eq : ∀ m ∈ done, ∀ {c}, a.info? m = some c → c.place.layer = l
  holder?_eq : ∀ m, m ∉ done → a'.holder? m = a.holder? m
  kept : ∀ {x b}, a.arnodes.body? x = some b → a'.arnodes.body? x = some b
  body?_cases : ∀ {x b}, a'.arnodes.body? x = some b →
    a.arnodes.body? x = some b ∨ x ∈ created ∧ b.location.layer = l ∧ b.data.state = .notActivated
  made : ∀ x ∈ created, ∃ b, a'.arnodes.body? x = some b ∧ b.location.layer = l
  moves : Moves (fun _ => False) a a'
  marked : a.Marked → a'.Marked

/-- The error came for want of room: no slot is left for a node or, after some moves, there were too few variables for an
arnode. -/
def Starved (a : Abstraction α) (e : Error) (a' : Abstraction α) : Prop :=
  e.IsExhausted ∧ (Arena.span ≤ a'.nodeSlots ∨ ∃ a₁, Moves (fun _ => False) a a₁ ∧ a'.nodePart = a₁.nodePart ∧
    a₁.encoding.pool.available < 2)

/-- Moves that went before do not matter. -/
theorem Starved.after {a₀ : Abstraction α} {e : Error} (h : Starved a e a') (hmoves : Moves (fun _ => False) a₀ a) :
    Starved a₀ e a' :=
  ⟨h.1, h.2.imp_right fun ⟨a₁, hrest, hstuck⟩ => ⟨a₁, Relation.ReflTransGen.trans hmoves hrest, hstuck⟩⟩

/-- No arnode waits once the one that does has no forward activated source. -/
theorem Woven.settle {id : ArNodeId} (h : Woven a (some id)) (hnone : ∀ x, a.isForward x = true → a.folded? x id = none) :
    Woven a none := by
  refine ⟨h.grounded, fun x y => ?_⟩
  rw [h.edge?_eq]
  by_cases hy : y = id
  · subst hy
    cases hx : a.isForward x with
    | false => simp
    | true => simp [hnone x hx]
  · simp [Ne.symm hy]

/-- Wrapping one more piece, while no node of the layer before has a holder. -/
theorem Covered.wrap_meets {done : List NodeId} {created : List ArNodeId} (h : Covered a a' l done created)
    (hbelow : ∀ {m c}, a.info? m = some c → c.place.layer + 1 = l → a.holder? m = none) {p : NodeId} {c : NodeInfo α}
    (hp : a.info? p = some c) (hlayer : c.place.layer = l) (hcemented : c.place.category ≠ .unprocessed)
    (hfree : a.holder? p = none) (hnew : p ∉ done) :
    (wrap l [p]).Meets a' (fun id a'' => Covered a a'' l (done ++ [p]) (created ++ [id])) (Starved a) := by
  have hg := h.woven.grounded
  have hinfo := info?_of_nodePart h.nodePart_eq
  have hw : Wrappable a' l c.place.category [p] := by
    refine ⟨by simp, by simp, hcemented, fun m hm => ?_⟩
    rw [List.mem_singleton.mp hm]
    exact ⟨c, by rw [hinfo, hp], hlayer, rfl, by rw [h.holder?_eq p hnew, hfree]⟩
  refine ((keeps_wrap l [p] a').and (hg.wrap_meets hw)).mono ?_ ?_
  swap
  · rintro e a'' ⟨hpart, hexhausted, hvars, _⟩
    exact ⟨hexhausted, .inr ⟨a', h.moves, hpart, hvars.trans_le (varsNeeded_le _)⟩⟩
  rintro id a'' ⟨_, b, hbl, _, hwrapped⟩
  have hwoven := h.woven.wrap hwrapped
  have hnone : ∀ x, a''.isForward x = true → a''.folded? x id = none := by
    intro x _
    by_contra hne
    obtain ⟨s, t, w, hs, ht, hedge⟩ :=
      hwoven.grounded.owned.isSome_folded?_iff.mp (Option.isSome_iff_ne_none.mpr hne)
    obtain ⟨v, u, hv, hu, hnext⟩ := hwoven.grounded.nodes.graph.ends hedge
    -- The target is the new piece, so the source lies in the layer before and has no holder.
    have hmem := (hwoven.grounded.owned.mem_members_iff hwrapped.body?_self).mpr ht
    obtain ⟨hctl, _⟩ := hwoven.grounded.owned.place_of_mem hwrapped.body?_self hmem (info?_of_get? hu)
    have hsource : a.info? s = some v.body.info := by
      rw [← hinfo, ← info?_of_nodePart hwrapped.nodePart_eq]
      exact info?_of_get? hv
    have hsl : v.body.info.place.layer + 1 = l := by
      rw [← hbl, ← hctl]
      exact hnext.symm
    have hsp : s ∉ [p] := by
      intro hsp
      rw [List.mem_singleton.mp hsp, hp] at hsource
      cases hsource
      omega
    have hsdone : s ∉ done := by
      intro hsdone
      have hsl' := h.layer_eq s hsdone hsource
      omega
    rw [hwrapped.holder?_eq, if_neg hsp, h.holder?_eq s hsdone, hbelow hsource hsl] at hs
    cases hs
  refine ⟨hwoven.settle hnone, hwrapped.nodePart_eq.trans h.nodePart_eq, fun m hm => ?_, fun m hm {c'} hc' => ?_,
    fun m hm => ?_, fun hx => hwrapped.body?_of_old (h.kept hx), fun {x b'} hx => ?_, fun x hx => ?_, .tail h.moves (.wrap (.inl rfl) hwrapped),
    fun hm => (h.marked hm).wrapped hwrapped⟩
  · rw [hwrapped.holder?_eq]
    split
    · rfl
    · next hmp =>
      rw [List.mem_append] at hm
      exact h.held m (hm.resolve_right hmp)
  · rcases List.mem_append.mp hm with hm | hm
    · exact h.layer_eq m hm hc'
    · rw [List.mem_singleton.mp hm, hp] at hc'
      cases hc'
      exact hlayer
  · rw [List.mem_append, not_or] at hm
    rw [hwrapped.holder?_eq, if_neg hm.2, h.holder?_eq m hm.1]
  · rcases hwrapped.body?_cases hx with ⟨rfl, rfl⟩ | hx
    · exact .inr ⟨by simp, hbl, hwrapped.state_eq⟩
    · exact (h.body?_cases hx).imp_right (.imp_left (List.mem_append_left _))
  · rcases List.mem_append.mp hx with hx | hx
    · obtain ⟨b', hb', hl⟩ := h.made x hx
      exact ⟨b', hwrapped.body?_of_old hb', hl⟩
    · rw [List.mem_singleton.mp hx]
      exact ⟨b, hwrapped.body?_self, hbl⟩

/-- Nodes of layer `l` were classified and their pieces wrapped; no other node has changed. -/
structure Classified (net : Feedforward α) (a a' : Abstraction α) (l : Nat) (ids : List NodeId)
    (created : List ArNodeId) : Prop where
  represents : a'.Represents net
  woven : Woven a' none
  old : ∀ {m c}, a.info? m = some c → m ∉ ids → a'.info? m = some c ∧ a'.holder? m = a.holder? m
  new : ∀ {m c}, a'.info? m = some c → m ∉ ids ∧ a.info? m = some c ∨
    c.place.layer = l ∧ (a'.holder? m).isSome ∧ (l + 1 = net.depth → c.place.category = .posInc)
  edge?_eq : ∀ {x y c d}, a.info? x = some c → a.info? y = some d → x ∉ ids → y ∉ ids →
    a'.nodes.edge? x y = a.nodes.edge? x y
  kept : ∀ {x b}, a.arnodes.body? x = some b → a'.arnodes.body? x = some b
  body?_cases : ∀ {x b}, a'.arnodes.body? x = some b →
    a.arnodes.body? x = some b ∨ x ∈ created ∧ b.location.layer = l ∧ b.data.state = .notActivated
  made : ∀ x ∈ created, ∃ b, a'.arnodes.body? x = some b ∧ b.location.layer = l
  moves : Moves (fun _ => False) a a'
  marked : a.Marked → a'.Marked

theorem Classified.trans {a'' : Abstraction α} {ids ids' : List NodeId} {created created' : List ArNodeId}
    (h : Classified net a a' l ids created) (h' : Classified net a' a'' l ids' created') :
    Classified net a a'' l (ids ++ ids') (created ++ created') := by
  refine ⟨h'.represents, h'.woven, fun {m c} hm hids => ?_, fun {m c} hm => ?_, fun {x y c d} hx hy hxids hyids => ?_,
    fun hx => h'.kept (h.kept hx), fun {x b} hx => ?_, fun x hx => ?_, Relation.ReflTransGen.trans h.moves h'.moves,
    fun hm => h'.marked (h.marked hm)⟩
  · rw [List.mem_append, not_or] at hids
    obtain ⟨hinfo, hholder⟩ := h.old hm hids.1
    obtain ⟨hinfo', hholder'⟩ := h'.old hinfo hids.2
    exact ⟨hinfo', hholder'.trans hholder⟩
  · rcases h'.new hm with ⟨hids', hm'⟩ | hpiece
    · rcases h.new hm' with ⟨hids, hold⟩ | ⟨hl, hheld, hraising⟩
      · exact .inl ⟨by simp [hids, hids'], hold⟩
      · exact .inr ⟨hl, by rw [(h'.old hm' hids').2]; exact hheld, hraising⟩
    · exact .inr hpiece
  · rw [List.mem_append, not_or] at hxids hyids
    rw [h'.edge?_eq (h.old hx hxids.1).1 (h.old hy hyids.1).1 hxids.2 hyids.2, h.edge?_eq hx hy hxids.1 hyids.1]
  · rcases h'.body?_cases hx with hx | hnew
    · exact (h.body?_cases hx).imp_right (.imp_left (List.mem_append_left _))
    · exact .inr (hnew.imp_left (List.mem_append_right _))
  · rcases List.mem_append.mp hx with hx | hx
    · obtain ⟨b, hb, hl⟩ := h.made x hx
      exact ⟨b, h'.kept hb, hl⟩
    · exact h'.made x hx

/-- Once all pieces of a node are wrapped, the node is classified. -/
theorem Covered.classified {a₀ : Abstraction α} {id : NodeId} {pieces : List NodeId} {created : List ArNodeId}
    (h : Covered a a' l pieces created) (hrep : a.Represents net) (hrep₀ : a₀.Represents net)
    (hfree : a₀.holder? id = none) {c₀ : NodeInfo α} (hid : a₀.info? id = some c₀) (hlayer : c₀.place.layer = l)
    (hr : Resolved a₀ a l id pieces) : Classified net a₀ a' l [id] created := by
  have hinfo := info?_of_nodePart h.nodePart_eq
  have hbody : a.arnodes.body? = a₀.arnodes.body? := by rw [hr.arnodes_eq]
  have hfresh : ∀ {m c}, a₀.info? m = some c → m ≠ id → m ∉ pieces := by
    intro m c hm hne hmem
    rw [info?, hr.fresh m hmem hne] at hm
    cases hm
  refine ⟨hrep.of_nodePart h.nodePart_eq, h.woven, fun {m c} hm hids => ?_, fun {m c} hm => ?_,
    fun {x y c d} hx hy hxids hyids => ?_, fun hx => ?_, fun {x b} hx => ?_, h.made,
    .head (.classify hrep.sound hfree hr) h.moves, fun hm => h.marked fun x => ?_⟩
  · have hne : m ≠ id := by simpa using hids
    have hmem := hfresh hm hne
    refine ⟨?_, by rw [h.holder?_eq m hmem, hr.holder?_eq hfree]⟩
    rw [hinfo, info?, hr.body?_eq m hne hmem]
    exact hm
  · rw [hinfo] at hm
    by_cases hmem : m ∈ pieces
    · refine .inr ⟨h.layer_eq m hmem hm, h.held m hmem, fun hlast => hr.raising (fun y => ?_) m hmem hm⟩
      -- The last layer feeds no node.
      cases hedge : a₀.nodes.edge? id y with
      | none => rfl
      | some w =>
        obtain ⟨b, c, hb, hc, hnext⟩ := hrep₀.faithful.ends hedge
        rw [hid] at hb
        cases hb
        have hlt := hrep₀.faithful.layer_lt hc
        omega
    · have hne : m ≠ id := by
        rintro rfl
        rw [info?, hr.gone hmem] at hm
        cases hm
      rw [info?, hr.body?_eq m hne hmem] at hm
      exact .inl ⟨by simpa using hne, hm⟩
  · have hxne : x ≠ id := by simpa using hxids
    have hyne : y ≠ id := by simpa using hyids
    rw [edge?_of_nodePart h.nodePart_eq]
    exact hr.edge?_eq x y hxne hyne (hfresh hx hxne) (hfresh hy hyne)
  · rw [← hbody] at hx
    exact h.kept hx
  · rcases h.body?_cases hx with hx | hnew
    · rw [hbody] at hx
      exact .inl hx
    · exact .inr hnew
  · rw [hr.encoding_eq, hbody]
    exact hm x

theorem Woven.covered_self (h : Woven a none) (l : Nat) : Covered a a l [] [] :=
  ⟨h, rfl, by simp, by simp, fun _ _ => rfl, fun hx => hx, fun hx => .inl hx, by simp, .refl, fun hm => hm⟩

/-- After a node was classified, its pieces can be wrapped one after another. -/
private theorem wrapPieces_meets {a₀ : Abstraction α} {id : NodeId} {pieces : List NodeId} (h : Woven a none)
    (hfree : a₀.holder? id = none)
    (hbelow : ∀ {m c}, a₀.info? m = some c → c.place.layer + 1 = l → a₀.holder? m = none)
    (hr : Resolved a₀ a l id pieces) :
    (pieces.mapM fun piece => wrap l [piece]).Meets a (fun created a' => Covered a a' l pieces created) (Starved a) := by
  have hpiece : ∀ p ∈ pieces, ∃ c, a.info? p = some c ∧ c.place.layer = l ∧ c.place.category ≠ .unprocessed := by
    intro p hp
    obtain ⟨_, b', _, hb', hl, hc, _⟩ := hr.piece p hp
    exact ⟨b'.info, by rw [info?, hb', Option.map_some], hl, hc⟩
  have hbelow' : ∀ {m c}, a.info? m = some c → c.place.layer + 1 = l → a.holder? m = none := by
    intro m c hm hl
    have hmem : m ∉ pieces := by
      intro hmem
      obtain ⟨c', hc', hl', _⟩ := hpiece m hmem
      rw [hm] at hc'
      cases hc'
      omega
    have hne : m ≠ id := by
      rintro rfl
      rw [info?, hr.gone hmem] at hm
      cases hm
    rw [hr.holder?_eq hfree]
    refine hbelow (c := c) ?_ hl
    rw [info?, ← hr.body?_eq m hne hmem]
    exact hm
  refine Step.Meets.mapM (fun done created a' => Covered a a' l done created) (h.covered_self l) ?_
  intro done created p rest a' hsplit hcovered
  obtain ⟨c, hc, hl, hcemented⟩ := hpiece p (by simp [hsplit])
  have hunheld : a.holder? p = none := by
    rw [hr.holder?_eq hfree]
    by_cases hp : p = id
    · rw [hp, hfree]
    · rw [holder?, hr.fresh p (by simp [hsplit]) hp, Option.bind_none]
  have hnew : p ∉ done := by
    have hnodup := hr.nodup
    rw [hsplit, List.nodup_append] at hnodup
    exact fun hdone => hnodup.2.2 p hdone p (by simp) rfl
  exact hcovered.wrap_meets hbelow' hc hl hcemented hunheld hnew

/-- Classifying an unprocessed node, while no node of the layer before has a holder and the layer after is classified. -/
theorem classifyNode_meets (hrep : a.Represents net) (h : Woven a none) {id : NodeId} {c : NodeInfo α}
    (hid : a.info? id = some c) (hlayer : c.place.layer = l) (hcategory : c.place.category = .unprocessed)
    (hfree : a.holder? id = none)
    (hbelow : ∀ {m c}, a.info? m = some c → c.place.layer + 1 = l → a.holder? m = none)
    (habove : ∀ {m c}, a.info? m = some c → c.place.layer = l + 1 → c.place.category ≠ .unprocessed) :
    (classifyNode l id).Meets a (fun created a' => Classified net a a' l [id] created) (Starved a) := by
  obtain ⟨v, hv, rfl⟩ := get?_of_info? hid
  obtain ⟨layer, hget, _⟩ := hrep.sound.exists_layer (Graph.body?_of_get? hv)
  have hl : v.location.layer = l := hlayer
  have hc : v.location.category = .unprocessed := hcategory
  have hplace : v.location = ⟨l, .unprocessed, v.location.slot⟩ := by rw [← hl, ← hc]
  rw [Vertex.body_location, hl] at hget
  have hread : a.node id = .ok v := Arena.get_of_get? hv
  unfold classifyNode
  rw [Step.meets_bind, Step.meets_read, layer_of_getElem? hget]
  dsimp only
  rw [Step.meets_bind, Step.meets_read, hread]
  dsimp only
  rw [Step.meets_bind, checkLayer, if_pos hl]
  refine Step.meets_ofExcept.mpr ?_
  dsimp only
  rw [if_neg (by simp [hc]), Step.meets_ite]
  have hwoven : ∀ {a₁ pieces}, a₁.Represents net → Resolved a a₁ l id pieces → Woven a₁ none :=
    fun hrep₁ hr => h.classify hrep₁.sound hfree hr
  have hclassify : ∀ {a₁ pieces}, a₁.Represents net → Resolved a a₁ l id pieces → Moves (fun _ => False) a a₁ :=
    fun hrep₁ hr => .single (.classify hrep₁.sound hfree hr)
  constructor
  · intro hinput
    have hpromote : l = 0 ∨ v.outgoing.isEmpty = true := hinput.imp_left (hrep.input_iff hget).mp
    rw [Step.meets_bind]
    refine (promote_represents hrep hv hplace hpromote).mono ?_ fun _ _ hfalse => hfalse.elim
    rintro _ a₁ ⟨hrep₁, hr⟩
    have hwrap := wrapPieces_meets (hwoven hrep₁ hr) hfree hbelow hr
    rw [List.mapM_cons, Step.meets_bind] at hwrap
    rw [Step.meets_bind]
    refine hwrap.mono (fun x a₂ hcovered => ?_) fun _ _ hstarved => hstarved.after (hclassify hrep₁ hr)
    rw [List.mapM_nil] at hcovered
    exact Covered.classified hcovered hrep₁ hrep hfree hid hlayer hr
  · intro hinput
    rw [Step.meets_bind]
    have hinner : l ≠ 0 := fun hzero => (not_or.mp hinput).1 ((hrep.input_iff hget).mpr hzero)
    refine (divide_represents hrep hv hplace hinner (not_or.mp hinput).2).mono ?_ ?_
    · rintro pieces a₁ ⟨hrep₁, hr⟩
      refine (wrapPieces_meets (hwoven hrep₁ hr) hfree hbelow hr).mono (fun created a₂ hcovered => ?_)
        fun _ _ hstarved => hstarved.after (hclassify hrep₁ hr)
      exact hcovered.classified hrep₁ hrep hfree hid hlayer hr
    · rintro e _ (⟨⟨_, y, w, b, hedge, hb, hunprocessed⟩, _⟩ | hfull)
      · obtain ⟨c', d, hc', hd, hnext⟩ := hrep.faithful.ends hedge
        obtain rfl : v.body.info = c' := Option.some.inj (hid.symm.trans hc')
        obtain rfl : b.info = d := by
          rw [info?, hb] at hd
          exact Option.some.inj hd
        exact absurd hunprocessed (habove hd (hnext.trans (by rw [hlayer])))
      · exact ⟨hfull.1, .inl hfull.2⟩

/-- Preprocessing a layer of unprocessed nodes, while no node of it or of the layer before has a holder and the layer
after is classified. -/
theorem preprocess_meets (hrep : a.Represents net) (h : Woven a none) {layer : Layer} (hget : a.layers[l]? = some layer)
    (hunprocessed : ∀ {m c}, a.info? m = some c → c.place.layer = l → c.place.category = .unprocessed)
    (hfree : ∀ {m c}, a.info? m = some c → c.place.layer ≤ l → a.holder? m = none)
    (habove : ∀ {m c}, a.info? m = some c → c.place.layer = l + 1 → c.place.category ≠ .unprocessed) :
    (preprocess l).Meets a (fun created a' => ∃ ids, Classified net a a' l ids created ∧
        ∀ m, m ∈ ids ↔ ∃ c, a.info? m = some c ∧ c.place.layer = l) (Starved a) := by
  have hchain := getElem?_nodeChains hget
  let entries := layer.nodes.entries Category.unprocessed.index
  have hmem : ∀ m, m ∈ entries.map (·.2) ↔ ∃ c, a.info? m = some c ∧ c.place.layer = l := fun m =>
    (hrep.sound.mem_unprocessed_iff hget).trans
      ⟨fun ⟨c, hc, hl, _⟩ => ⟨c, hc, hl⟩, fun ⟨c, hc, hl⟩ => ⟨c, hc, hl, hunprocessed hc hl⟩⟩
  have hnodup : (entries.map (·.2)).Nodup := hrep.sound.housed.entries_nodup .unprocessed hchain
  unfold preprocess
  rw [Step.meets_bind, Step.meets_read, layer_of_getElem? hget]
  dsimp only
  rw [Step.meets_bind]
  refine (Step.Meets.mapM (fun done created a' => Classified net a a' l (done.map (·.2)) created.flatten) ?_ ?_).imp ?_
  · exact ⟨hrep, h, fun hm _ => ⟨hm, rfl⟩, fun hm => .inl ⟨by simp, hm⟩, fun _ _ _ _ => rfl, fun hx => hx,
      fun hx => .inl hx, by simp, .refl, fun hm => hm⟩
  · rintro done created ⟨slot, id⟩ rest a' hsplit hclassified
    have hsplit' : entries.map (·.2) = done.map (·.2) ++ id :: rest.map (·.2) := by
      change (layer.nodes.entries _).map _ = _
      rw [hsplit, List.map_append, List.map_cons]
    obtain ⟨c, hc, hl⟩ := (hmem id).mp (by rw [hsplit']; simp)
    have hnew : id ∉ done.map (·.2) := by
      rw [hsplit', List.nodup_append] at hnodup
      exact fun hdone => hnodup.2.2 id hdone id (by simp) rfl
    obtain ⟨hinfo, hholder⟩ := hclassified.old hc hnew
    refine (classifyNode_meets hclassified.represents hclassified.woven hinfo hl (hunprocessed hc hl) ?_ ?_ ?_).mono ?_
      fun _ _ hstarved => hstarved.after hclassified.moves
    · rw [hholder]
      exact hfree hc hl.le
    · intro m c' hm hl'
      rcases hclassified.new hm with ⟨hids, hold⟩ | ⟨hl'', _⟩
      · rw [(hclassified.old hold hids).2]
        exact hfree hold (by omega)
      · omega
    · intro m c' hm hl'
      rcases hclassified.new hm with ⟨_, hold⟩ | ⟨hl'', _⟩
      · exact habove hold hl'
      · omega
    · intro created' a'' hnext
      rw [List.map_append, List.flatten_append, List.flatten_singleton]
      exact hclassified.trans hnext
  · intro created a' hclassified
    exact ⟨entries.map (·.2), hclassified, hmem⟩

end Preprocessing

end Abstraction

end ReluAbstraction
