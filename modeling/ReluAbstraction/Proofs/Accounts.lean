import ReluAbstraction.Proofs.Arnodes
import ReluAbstraction.Proofs.Constraints

/-!
# Accounts of nodes and variables

An arnode takes nodes and variables and gives them back when it is destroyed. The accounts of an abstraction say who has
taken what: each variable of an arnode is out of the pool and in no other arnode, each of its nodes may no longer move and
knows its holder, and no node has a holder that does not have it. Edges, activation, equations and marks are not part of
the accounts. No operation upsets them, whether it succeeds or fails half way, and in whatever order operations come.
-/

namespace ReluAbstraction

namespace Graph

variable {k : EntityKind} {α δ γ : Type} {f : Vertex k α δ → γ}

open Step

/-- A change that `f` does not see. -/
theorem keepsMap_edit {change : Vertex k α δ → Except Error (Vertex k α δ)} (hf : ∀ v v', change v = .ok v' → f v' = f v)
    (id : Handle k) : Keeps (Arena.map f) (edit id change) := by
  intro g
  unfold edit
  rw [meets_update]
  cases hmodify : Arena.modify g id change with
  | error e => exact refl_of (Same (Arena.map f)) g
  | ok g' => exact Arena.map_of_modify hf hmodify

variable (hf : ∀ v d s, f (v.setEdges d s) = f v)
include hf

theorem keepsMap_editEdges (id : Handle k) (d : Direction)
    (change : EdgeSet α (Handle k) → Except Error (EdgeSet α (Handle k))) :
    Keeps (Arena.map f) (edit id (·.editEdges d change)) := by
  refine keepsMap_edit (fun v v' hv => ?_) id
  cases hedges : change (v.edges d) with
  | error e =>
    simp only [Vertex.editEdges, hedges] at hv
    cases hv
  | ok s =>
    simp only [Vertex.editEdges, hedges] at hv
    cases hv
    exact hf v d s

theorem keepsMap_link (source : Handle k) (d : Direction) (target : Handle k) (weight : α) (bothEnds : Bool) :
    Keeps (Arena.map f) (link source d target weight bothEnds) := by
  unfold link find
  refine (Within.read _).bind fun u => (Within.read _).bind fun v => (keepsMap_editEdges hf _ _ _).bind fun _ => ?_
  exact Within.ite (keepsMap_editEdges hf _ _ _) (Within.pure _)

theorem keepsMap_dropEdge (id : Handle k) (d : Direction) (key : EdgeKey) : Keeps (Arena.map f) (dropEdge id d key) := by
  unfold dropEdge find
  refine (Within.read _).bind fun v => (Within.ofExcept _).bind fun r => ?_
  refine (keepsMap_edit (fun u u' hu => ?_) id).bind fun _ => Within.pure _
  cases hu
  exact hf u d _

theorem keepsMap_unlink (source : Handle k) (d : Direction) (target : Handle k) (bothEnds : Bool) :
    Keeps (Arena.map f) (unlink source d target bothEnds) := by
  unfold unlink find
  refine (Within.read _).bind fun u => (Within.read _).bind fun v => (keepsMap_dropEdge hf _ _ _).bind fun e => ?_
  exact Within.ite ((keepsMap_dropEdge hf _ _ _).discard.bind fun _ => Within.pure _) (Within.pure _)

/-- Destroying a vertex takes it out, or fails before it does. -/
theorem destroy_meets_map (g : Graph k α δ) (id : Handle k) :
    (destroy id).Meets g (fun r g' => ∃ v, g.get? id = some v ∧ f r.1 = f v ∧ (Arena.WellFormed g → Arena.WellFormed g') ∧
        ∀ x, (Arena.map f g').get? x = if x = id then none else (Arena.map f g).get? x)
      (fun _ g' => Arena.map f g' = Arena.map f g) := by
  unfold destroy destroyIn find
  rw [meets_bind, meets_read]
  cases hv : Arena.get? g id with
  | none =>
    rw [Arena.get_of_none hv]
  | some v =>
    rw [Arena.get_of_get? hv]
    dsimp only
    rw [meets_bind]
    have hloop : Keeps (Arena.map f) (v.neighbors.forM fun p => discard (dropEdge p.2 p.1.reverse v.location.key)) :=
      Within.forM _ fun p => (keepsMap_dropEdge hf _ _ _).discard
    refine (hloop g).mono (fun _ g₁ hsame => ?_) fun _ _ hsame => hsame
    have hget : (Arena.map f g₁).get? id = (Arena.map f g).get? id := by rw [hsame]
    rw [Arena.get?_map, Arena.get?_map, hv, Option.map_some, Option.map_eq_some_iff] at hget
    obtain ⟨u, hu, hfu⟩ := hget
    obtain ⟨g₂, hremove, hlook, hwf, _⟩ := Arena.remove_spec hu
    rw [meets_bind, meets_read, hremove]
    refine ⟨v, rfl, hfu, fun hw => hwf ?_, fun x => ?_⟩
    · rw [← Arena.wellFormed_map (f := f), hsame]
      exact Arena.wellFormed_map.mpr hw
    · rw [← hsame, Arena.get?_map, Arena.get?_map, hlook]
      split <;> rfl

end Graph

/-- What the accounts say of a node. -/
structure Standing where
  /-- Whether it may still move. -/
  movable : Bool
  /-- Its table. -/
  category : Category
  /-- The arnode that has taken it. -/
  holder : Option ArNodeId

/-- What the accounts say of an arnode. -/
structure Holding where
  /-- The nodes it has taken. -/
  members : List NodeId
  /-- The variables it has taken. -/
  vars : VarPair

/-- Who has taken what. -/
structure Accounts (α : Type) where
  /-- Tables of the arnodes, layer by layer. -/
  tables : List (TableChain ArNodeId)
  /-- The nodes. -/
  nodes : Arena .node Standing
  /-- The arnodes. -/
  arnodes : Arena .arnode Holding
  /-- Variables that nobody has taken. -/
  pool : IdPool
  /-- Lower bounds of variables. -/
  lower : SortedMap VarId α
  /-- Upper bounds of variables. -/
  upper : SortedMap VarId α

/-- One node has changed or is gone, and the others are as they were. -/
structure Replaced (nodes nodes' : Arena .node Standing) (id : NodeId) (next : Option Standing) : Prop where
  arena : nodes.WellFormed → nodes'.WellFormed
  get?_eq : ∀ x, nodes'.get? x = if x = id then next else nodes.get? x

/-- Some nodes have another holder, and nothing else about the nodes has changed. -/
structure Reassigned (nodes nodes' : Arena .node Standing) (members : List NodeId) (holder : Option ArNodeId) : Prop where
  arena : nodes'.WellFormed
  get?_eq : ∀ m, nodes'.get? m = if m ∈ members then (nodes.get? m).map ({ · with holder }) else nodes.get? m

theorem Reassigned.of_get? {nodes nodes' : Arena .node Standing} {members : List NodeId} {holder : Option ArNodeId}
    (h : Reassigned nodes nodes' members holder) {m : NodeId} {s : Standing} (hm : nodes'.get? m = some s) :
    (m ∈ members ∧ ∃ t, nodes.get? m = some t ∧ s = { t with holder }) ∨ (m ∉ members ∧ nodes.get? m = some s) := by
  rw [h.get?_eq] at hm
  split at hm
  · next hmem =>
    obtain ⟨t, ht, rfl⟩ := Option.map_eq_some_iff.mp hm
    exact .inl ⟨hmem, t, ht, rfl⟩
  · next hnot => exact .inr ⟨hnot, hm⟩

namespace Accounts

variable {α : Type}

/-- Each arnode has variables of its own, which are out of the pool. Those in the pool have no bounds. -/
structure VarsSound (c : Accounts α) : Prop where
  pool : c.pool.WellFormed
  used : ∀ {x b}, c.arnodes.get? x = some b → ∀ {v}, b.vars.Uses v → c.pool.isFree v = false
  disjoint : ∀ {x y b d}, c.arnodes.get? x = some b → c.arnodes.get? y = some d →
    ∀ {v}, b.vars.Uses v → d.vars.Uses v → x = y
  unbound : ∀ {v}, c.pool.isFree v = true → c.lower.get? v = none ∧ c.upper.get? v = none

/-- Nodes and arnodes agree on who has taken whom. Only nodes that may no longer move are taken, and only nodes that were
classified may no longer move. -/
structure HoldersSound (c : Accounts α) : Prop where
  fixed : ∀ {m s}, c.nodes.get? m = some s → s.movable = false → s.category ≠ .unprocessed
  taken : ∀ {x b}, c.arnodes.get? x = some b → ∀ m ∈ b.members, ∃ s, c.nodes.get? m = some s ∧ s.movable = false ∧
    s.holder = some x
  holder : ∀ {m s x}, c.nodes.get? m = some s → s.holder = some x → ∃ b, c.arnodes.get? x = some b ∧ m ∈ b.members

/-- The accounts fit together. -/
structure Sound (c : Accounts α) : Prop extends c.VarsSound, c.HoldersSound where
  nodeArena : c.nodes.WellFormed
  arnodeArena : c.arnodes.WellFormed
  tables : ∀ chain ∈ c.tables, chain.Sound ∧ chain.kinds = Abstraction.arnodeKinds

namespace Sound

variable {c : Accounts α}

/-- A node that may move is free. -/
theorem holder_of_movable (h : c.Sound) {m : NodeId} {s : Standing} (hm : c.nodes.get? m = some s)
    (hmovable : s.movable = true) : s.holder = none := by
  cases hholder : s.holder with
  | none => rfl
  | some x =>
    obtain ⟨_, hx, hmem⟩ := h.holder hm hholder
    obtain ⟨s', hs', hfixed, _⟩ := h.taken hx m hmem
    rw [hm] at hs'
    cases hs'
    rw [hmovable] at hfixed
    cases hfixed

/-- The nodes may change as long as those that may not move stay as they are and no new holder comes up. -/
theorem of_nodes (h : c.Sound) {nodes : Arena .node Standing} (harena : nodes.WellFormed)
    (hkept : ∀ {m s}, c.nodes.get? m = some s → s.movable = false → nodes.get? m = some s)
    (hnew : ∀ {m s}, nodes.get? m = some s → c.nodes.get? m = some s ∨
      s.holder = none ∧ (s.movable = false → s.category ≠ .unprocessed)) : Sound { c with nodes } where
  nodeArena := harena
  arnodeArena := h.arnodeArena
  tables := h.tables
  pool := h.pool
  used := h.used
  disjoint := h.disjoint
  unbound := h.unbound
  fixed {m s} hm hfixed := by
    rcases hnew hm with hold | ⟨_, hcategory⟩
    · exact h.fixed hold hfixed
    · exact hcategory hfixed
  taken {x b} hx m hmem := by
    obtain ⟨s, hs, hfixed, hholder⟩ := h.taken hx m hmem
    exact ⟨s, hkept hs hfixed, hfixed, hholder⟩
  holder {m s x} hm hholder := by
    rcases hnew hm with hold | ⟨hnone, _⟩
    · exact h.holder hold hholder
    · rw [hnone] at hholder
      cases hholder

/-- A node that may move can be moved, fixed outside the table of unprocessed nodes, or taken out. -/
theorem change (h : c.Sound) {nodes : Arena .node Standing} {id : NodeId} {s : Standing} {next : Option Standing}
    (hid : c.nodes.get? id = some s) (hmovable : s.movable = true) (hr : Replaced c.nodes nodes id next)
    (hnext : ∀ t, next = some t → t.holder = s.holder ∧ (t.movable = false → t.category ≠ .unprocessed)) :
    Sound { c with nodes } := by
  refine h.of_nodes (hr.arena h.nodeArena) (fun {m t} hm hfixed => ?_) fun {m t} hm => ?_
  · rw [hr.get?_eq, if_neg]
    · exact hm
    · rintro rfl
      rw [hid] at hm
      cases hm
      rw [hmovable] at hfixed
      cases hfixed
  · rw [hr.get?_eq] at hm
    split at hm
    · obtain ⟨hholder, hfixed⟩ := hnext t hm
      exact .inr ⟨hholder.trans (h.holder_of_movable hid hmovable), hfixed⟩
    · exact .inl hm

/-- An arnode takes variables that are in the pool and nodes that are free. -/
theorem take (h : c.Sound) {nodes : Arena .node Standing} {arnodes : Arena .arnode Holding} {pool : IdPool} (id : ArNodeId)
    (b : Holding) (hr : Reassigned c.nodes nodes b.members (some id)) (harnodes : arnodes.WellFormed)
    (hpool : pool.WellFormed) (hfresh : c.arnodes.get? id = none)
    (hmembers : ∀ m ∈ b.members, ∃ s, c.nodes.get? m = some s ∧ s.movable = false ∧ s.holder = none)
    (harnode : ∀ x, arnodes.get? x = if x = id then some b else c.arnodes.get? x)
    (hvars : ∀ {v}, b.vars.Uses v → c.pool.isFree v = true)
    (hfree : ∀ v, pool.isFree v = true ↔ c.pool.isFree v = true ∧ ¬b.vars.Uses v) :
    Sound { c with nodes, arnodes, pool } := by
  have hold : ∀ {x d}, arnodes.get? x = some d → x = id ∧ d = b ∨ c.arnodes.get? x = some d := by
    intro x d hx
    rw [harnode] at hx
    split at hx
    · next hid =>
      cases hx
      exact .inl ⟨hid, rfl⟩
    · exact .inr hx
  have hunused : ∀ {x d}, c.arnodes.get? x = some d → ∀ {v}, d.vars.Uses v → ¬b.vars.Uses v := by
    intro x d hx v hv huses
    have hout := h.used hx hv
    rw [hvars huses] at hout
    cases hout
  refine ⟨⟨hpool, fun {x d} hx {v} hv => ?_, fun {x y d d'} hx hy {v} hv hv' => ?_, fun {v} hv => ?_⟩,
    ⟨fun {m s} hm hfixed => ?_, fun {x d} hx m hm => ?_, fun {m s x} hm hholder => ?_⟩, hr.arena, harnodes, h.tables⟩
  · rw [← Bool.not_eq_true, hfree]
    rintro ⟨hin, hnot⟩
    rcases hold hx with ⟨_, rfl⟩ | hx
    · exact hnot hv
    · rw [h.used hx hv] at hin
      cases hin
  · rcases hold hx with ⟨rfl, rfl⟩ | hx <;> rcases hold hy with ⟨rfl, rfl⟩ | hy
    · rfl
    · exact absurd hv (hunused hy hv')
    · exact absurd hv' (hunused hx hv)
    · exact h.disjoint hx hy hv hv'
  · exact h.unbound ((hfree v).mp hv).1
  · rcases hr.of_get? hm with ⟨_, t, ht, rfl⟩ | ⟨_, hm⟩
    · exact h.fixed (s := t) ht hfixed
    · exact h.fixed hm hfixed
  · rcases hold hx with ⟨rfl, rfl⟩ | hx
    · obtain ⟨s, hs, hfixed, _⟩ := hmembers m hm
      exact ⟨{ s with holder := some x }, by rw [hr.get?_eq, if_pos hm, hs]; rfl, hfixed, rfl⟩
    · obtain ⟨s, hs, hfixed, hholder⟩ := h.taken hx m hm
      have hnot : m ∉ b.members := by
        intro hmem
        obtain ⟨t, ht, _, hnone⟩ := hmembers m hmem
        rw [hs] at ht
        cases ht
        rw [hnone] at hholder
        cases hholder
      exact ⟨s, (hr.get?_eq m).trans ((if_neg hnot).trans hs), hfixed, hholder⟩
  · rcases hr.of_get? hm with ⟨hmem, t, _, rfl⟩ | ⟨_, hm⟩
    · cases hholder
      exact ⟨b, by rw [harnode, if_pos rfl], hmem⟩
    · obtain ⟨d, hd, hmem⟩ := h.holder hm hholder
      have hne : x ≠ id := by
        rintro rfl
        rw [hfresh] at hd
        cases hd
      exact ⟨d, by rw [harnode, if_neg hne]; exact hd, hmem⟩

/-- An arnode is gone and its nodes are free. Its variables are still out of the pool. -/
theorem leave (h : c.Sound) {nodes : Arena .node Standing} {arnodes : Arena .arnode Holding} {id : ArNodeId} {b : Holding}
    (hr : Reassigned c.nodes nodes b.members none) (harnodes : arnodes.WellFormed) (hb : c.arnodes.get? id = some b)
    (harnode : ∀ x, arnodes.get? x = if x = id then none else c.arnodes.get? x) :
    Sound { c with nodes, arnodes } ∧
      ∀ {v}, b.vars.Uses v → ∀ {x d}, arnodes.get? x = some d → ¬d.vars.Uses v := by
  have hold : ∀ {x d}, arnodes.get? x = some d → x ≠ id ∧ c.arnodes.get? x = some d := by
    intro x d hx
    rw [harnode] at hx
    split at hx
    · cases hx
    · next hne => exact ⟨hne, hx⟩
  refine ⟨⟨⟨h.pool, fun hx => h.used (hold hx).2, fun hx hy => h.disjoint (hold hx).2 (hold hy).2, h.unbound⟩,
    ⟨fun {m s} hm hfixed => ?_, fun {x d} hx m hm => ?_, fun {m s x} hm hholder => ?_⟩, hr.arena, harnodes, h.tables⟩,
    fun hv _ _ hx hv' => (hold hx).1 (h.disjoint (hold hx).2 hb hv' hv)⟩
  · rcases hr.of_get? hm with ⟨_, t, ht, rfl⟩ | ⟨_, hm⟩
    · exact h.fixed (s := t) ht hfixed
    · exact h.fixed hm hfixed
  · obtain ⟨hne, hx⟩ := hold hx
    obtain ⟨s, hs, hfixed, hholder⟩ := h.taken hx m hm
    have hnot : m ∉ b.members := by
      intro hmem
      obtain ⟨t, ht, _, hholder'⟩ := h.taken hb m hmem
      rw [hs] at ht
      cases ht
      rw [hholder] at hholder'
      exact hne (Option.some.inj hholder')
    exact ⟨s, (hr.get?_eq m).trans ((if_neg hnot).trans hs), hfixed, hholder⟩
  · rcases hr.of_get? hm with ⟨_, t, _, rfl⟩ | ⟨hnot, hm⟩
    · cases hholder
    · obtain ⟨d, hd, hmem⟩ := h.holder hm hholder
      have hne : x ≠ id := by
        rintro rfl
        rw [hb] at hd
        cases hd
        exact hnot hmem
      exact ⟨d, by rw [harnode, if_neg hne]; exact hd, hmem⟩

/-- Variables that no arnode has go back to the pool, without bounds. -/
theorem giveBack (h : c.Sound) {pool : IdPool} {lower upper : SortedMap VarId α} {vars : VarPair} (hpool : pool.WellFormed)
    (hout : ∀ {v}, vars.Uses v → ∀ {x b}, c.arnodes.get? x = some b → ¬b.vars.Uses v)
    (hfree : ∀ v, pool.isFree v = true ↔ vars.Uses v ∨ c.pool.isFree v = true)
    (hbounds : ∀ v, vars.Uses v ∨ c.lower.get? v = none ∧ c.upper.get? v = none →
      lower.get? v = none ∧ upper.get? v = none) : Sound { c with pool, lower, upper } := by
  refine ⟨⟨hpool, fun {x b} hx {v} hv => ?_, h.disjoint, fun {v} hv => hbounds v ?_⟩, ⟨h.fixed, h.taken, h.holder⟩, h.nodeArena,
    h.arnodeArena, h.tables⟩
  · rw [← Bool.not_eq_true, hfree]
    rintro (huses | hin)
    · exact hout huses hx hv
    · rw [h.used hx hv] at hin
      cases hin
  · rcases (hfree v).mp hv with huses | hin
    · exact .inl huses
    · exact .inr (h.unbound hin)

/-- One table chain is replaced. -/
theorem of_tables (h : c.Sound) (l : Nat) {chain : TableChain ArNodeId} (hsound : chain.Sound)
    (hkinds : chain.kinds = Abstraction.arnodeKinds) : Sound { c with tables := c.tables.set l chain } :=
  { h with
    tables := fun other hother => by
      rcases List.mem_or_eq_of_mem_set hother with hold | rfl
      · exact h.tables other hold
      · exact ⟨hsound, hkinds⟩ }

end Sound

end Accounts

/-- A node in the accounts. -/
def Node.standing {α : Type} (v : Node α) : Standing := ⟨v.movable, v.location.category, v.data.owner⟩

/-- An arnode in the accounts. -/
def ArNode.holding {α : Type} (v : ArNode α) : Holding := ⟨v.data.members, v.data.vars⟩

namespace Abstraction

variable {α β : Type}

/-- Who has taken what. -/
def accounts (a : Abstraction α) : Accounts α where
  tables := a.arnodeChains
  nodes := a.nodes.map Node.standing
  arnodes := a.arnodes.map ArNode.holding
  pool := a.encoding.pool
  lower := a.encoding.query.lower
  upper := a.encoding.query.upper

theorem standing_eq (a : Abstraction α) (m : NodeId) : a.accounts.nodes.get? m = (a.nodes.get? m).map Node.standing :=
  Arena.get?_map _ _ _

theorem holding_eq (a : Abstraction α) (x : ArNodeId) :
    a.accounts.arnodes.get? x = (a.arnodes.get? x).map ArNode.holding := Arena.get?_map _ _ _

/-- The accounts of the abstraction fit together. -/
def Accounted (a : Abstraction α) : Prop := a.accounts.Sound

/-- The step does not show in the accounts. -/
abbrev Quiet (step : Step (Abstraction α) β) : Prop := Step.Keeps accounts step

/-- The step keeps the accounts in order. -/
abbrev Accounting (step : Step (Abstraction α) β) : Prop := Step.Preserves Accounted step

theorem Quiet.accounting {step : Step (Abstraction α) β} (h : Quiet step) : Accounting step := h.preserves Accounts.Sound

theorem accounting_of_meets {step : Step (Abstraction α) β}
    (h : ∀ {a}, a.Accounted → step.Meets a (fun _ a' => a'.Accounted) (fun _ a' => a'.Accounted)) : Accounting step :=
  Step.within_of_meets h

section Quiet

open Step

theorem quiet_onNodes {step : Step (Graph .node α (NodeData α)) β} (h : Keeps (Arena.map Node.standing) step) :
    Quiet (onNodes step) := h.zoom fun a g hg => by
  have heq : Arena.map Node.standing g = Arena.map Node.standing a.nodes := hg
  simp only [Same, accounts, heq]
  rfl

theorem quiet_onArnodes {step : Step (Graph .arnode α (ArNodeData α)) β} (h : Keeps (Arena.map ArNode.holding) step) :
    Quiet (onArnodes step) := h.zoom fun a g hg => by
  have heq : Arena.map ArNode.holding g = Arena.map ArNode.holding a.arnodes := hg
  simp only [Same, accounts, heq]
  rfl

/-- Changes that leave variables and bounds alone. -/
theorem quiet_recode {f : Encoding α → Encoding α} (hpool : ∀ e, (f e).pool = e.pool)
    (hbounds : ∀ e, (f e).query.lower = e.query.lower ∧ (f e).query.upper = e.query.upper) : Quiet (recode f) := by
  intro a
  rw [recode, meets_modify]
  simp only [Same, accounts, hpool, (hbounds a.encoding).1, (hbounds a.encoding).2]
  rfl

theorem quiet_mark (id : ArNodeId) : Quiet (recode (·.markStale id) : Step (Abstraction α) Unit) := fun _ => rfl

theorem quiet_count (event : Event) : Quiet (count event : Step (Abstraction α) Unit) := fun _ => rfl

theorem quiet_link (source : NodeId) (d : Direction) (target : NodeId) (weight : α) (bothEnds : Bool) :
    Quiet (onNodes (Graph.link source d target weight bothEnds)) :=
  quiet_onNodes (Graph.keepsMap_link (fun v d s => by cases d <;> rfl) source d target weight bothEnds)

theorem quiet_unlink (source : NodeId) (d : Direction) (target : NodeId) (bothEnds : Bool) :
    Quiet (onNodes (Graph.unlink source d target bothEnds) : Step (Abstraction α) α) :=
  quiet_onNodes (Graph.keepsMap_unlink (fun v d s => by cases d <;> rfl) source d target bothEnds)

theorem quiet_linkArnodes (source : ArNodeId) (d : Direction) (target : ArNodeId) (weight : α) (bothEnds : Bool) :
    Quiet (onArnodes (Graph.link source d target weight bothEnds)) :=
  quiet_onArnodes (Graph.keepsMap_link (fun v d s => by cases d <;> rfl) source d target weight bothEnds)

theorem quiet_unlinkArnodes (source : ArNodeId) (d : Direction) (target : ArNodeId) (bothEnds : Bool) :
    Quiet (onArnodes (Graph.unlink source d target bothEnds) : Step (Abstraction α) α) :=
  quiet_onArnodes (Graph.keepsMap_unlink (fun v d s => by cases d <;> rfl) source d target bothEnds)

theorem quiet_advance (id : ArNodeId) (state : ActivationState) :
    Quiet (advance id state : Step (Abstraction α) Unit) := by
  refine quiet_onArnodes (Graph.keepsMap_edit (fun v v' hv => ?_) id)
  cases hstate : v.data.state.advance state with
  | error e =>
    simp only [hstate] at hv
    cases hv
  | ok next =>
    simp only [hstate] at hv
    cases hv
    rfl

theorem quiet_confirm (id : ArNodeId) (check : Bool) : Quiet (confirm id check : Step (Abstraction α) Unit) := by
  unfold confirm
  refine (Within.read _).bind fun arnode => Within.ite (Within.pure _) ?_
  refine (Within.ofExcept _).bind fun _ => ?_
  exact Within.ite ((Within.forM _ fun source => Within.read _).bind fun _ => quiet_advance _ _) (quiet_advance _ _)

variable [Scalar α]

theorem quiet_forwardActivate (id : ArNodeId) : Quiet (forwardActivate id : Step (Abstraction α) Unit) := by
  unfold forwardActivate
  refine (Within.read _).bind fun arnode => Within.ite (Within.pure _) ?_
  refine (Within.read _).bind fun targets => ?_
  refine (Within.forM targets fun target => (Within.read _).bind fun weight => ?_).bind fun _ => quiet_advance _ _
  cases weight with
  | some weight => exact (quiet_linkArnodes _ _ _ _ _).bind fun _ => quiet_mark _
  | none => exact Within.pure _

theorem quiet_recalculate (id source : ArNodeId) : Quiet (recalculate id source : Step (Abstraction α) Unit) := by
  unfold recalculate
  refine (Within.read _).bind fun weight => ?_
  cases weight with
  | some weight => exact quiet_linkArnodes _ _ _ _ _
  | none =>
    refine (Within.read _).bind fun arnode => (Within.read _).bind fun target => ?_
    exact Within.ite (quiet_unlinkArnodes _ _ _ _).discard (Within.pure _)

theorem quiet_fullyActivate (id : ArNodeId) : Quiet (fullyActivate id : Step (Abstraction α) Unit) := by
  unfold fullyActivate
  refine (Within.read _).bind fun arnode => Within.ite (Within.pure _) ?_
  refine (Within.ofExcept _).bind fun _ => (Within.read _).bind fun sources => ?_
  refine (Within.forM _ fun source => Within.read _).bind fun _ => (Within.read _).bind fun arnode => ?_
  refine (Within.forM _ fun neighbor => Within.ite (Within.pure _) (quiet_unlinkArnodes _ _ _ _).discard).bind fun _ => ?_
  refine (Within.forM _ fun source => quiet_recalculate id source).bind fun _ => ?_
  exact (quiet_mark id).bind fun _ => quiet_advance _ _

theorem quiet_refresh (id : ArNodeId) : Quiet (refresh id : Step (Abstraction α) Unit) := by
  unfold refresh
  refine (Within.read _).bind fun arnode => (Within.read _).bind fun equation => ?_
  refine (quiet_onArnodes (Graph.keepsMap_edit (fun v v' hv => ?_) id)).bind fun _ => ?_
  · cases hv
    rfl
  · refine quiet_recode (fun e => ?_) fun e => ?_ <;> cases arnode.data.equation <;> cases equation <;>
      simp [Encoding.replaceEquation, Encoding.dropEquation, Query.addEquation, Query.removeEquation_eq]

theorem quiet_refreshEquations : Quiet (refreshEquations : Step (Abstraction α) Nat) := by
  have htake : Quiet (onEncoding Encoding.takeStale : Step (Abstraction α) (List ArNodeId)) := fun _ => rfl
  unfold refreshEquations
  refine htake.bind fun stale => Within.foldlM stale 0 fun rebuilt id => Within.get.bind fun a => ?_
  exact Within.ite ((quiet_refresh id).bind fun _ => Within.pure _) (Within.pure _)

end Quiet

section Nodes

/-- Storing nodes, with new tables in the layer that the tables come from. -/
theorem accounts_setNodes {a : Abstraction α} {l : Nat} {layer : Layer} (hlayer : a.layers[l]? = some layer)
    (nodes : TableChain NodeId) (g : Graph .node α (NodeData α)) :
    accounts { a with nodes := g, layers := a.layers.set l { layer with nodes } } =
      { a.accounts with nodes := Arena.map Node.standing g } := by
  have hpart := congrArg (fun part => part.1.map Prod.snd) (arnodePart_setNodes hlayer nodes g)
  simp only [arnodePart, List.map_map] at hpart
  simp only [accounts, arnodeChains, Accounts.mk.injEq, and_self, and_true]
  exact hpart

theorem quiet_unlistNode (l : Nat) (category : Category) (slot : Slot) :
    Quiet (unlistNode l category slot : Step (Abstraction α) Unit) := by
  intro a
  rw [unlistNode, Step.meets_bind, Step.meets_read]
  cases hlayer : a.layer l with
  | error e => rfl
  | ok layer =>
    dsimp only
    rw [Step.meets_bind, Step.meets_ofExcept]
    cases layer.nodes.remove category.index slot with
    | error e => rfl
    | ok r =>
      dsimp only
      rw [setLayer, Step.meets_modify]
      exact accounts_setNodes (getElem?_of_layer hlayer) _ a.nodes

/-- A new node that no arnode has. All other nodes stay. -/
theorem insertNode_accounted {a : Abstraction α} (h : a.Accounted) (l : Nat) {category : Category} {movable : Bool}
    (hfixed : movable = false → category ≠ .unprocessed) (bias : α) (origin : NeuronRef) :
    (insertNode l category movable bias origin).Meets a (fun _ a' => a'.Accounted ∧
        ∀ {m s}, a.accounts.nodes.get? m = some s → a'.accounts.nodes.get? m = some s) (fun _ a' => a' = a) := by
  rw [insertNode, Step.meets_bind, Step.meets_read]
  cases hlayer : a.layer l with
  | error e => rfl
  | ok layer =>
    dsimp only
    rw [Step.meets_bind, TableChain.insertWith, Step.meets_bind, Step.meets_ofExcept]
    cases (layer.nodes.table category.index >>= Table.reserve) with
    | error e => rfl
    | ok r =>
      dsimp only
      rw [Step.meets_bind, onNodes, Step.meets_zoom, Graph.add, Step.meets_bind, Step.meets_read]
      cases hins : Arena.insert a.nodes (Node.create ⟨l, category, r.1⟩ movable bias origin) with
      | error e => rfl
      | ok made =>
        obtain ⟨id, nodes⟩ := made
        obtain ⟨hwf, hfresh, hget, _⟩ := Arena.insert_spec (Arena.wellFormed_map.mp h.nodeArena) hins
        have hkept : ∀ {m s}, a.accounts.nodes.get? m = some s → (nodes.map Node.standing).get? m = some s := by
          intro m s hm
          have hne : m ≠ id := by
            rintro rfl
            rw [standing_eq, hfresh] at hm
            cases hm
          rw [Arena.get?_map, hget, if_neg hne, ← Arena.get?_map]
          exact hm
        have hsound : Accounts.Sound { a.accounts with nodes := nodes.map Node.standing } := by
          refine h.of_nodes (Arena.wellFormed_map.mpr hwf) (fun hm _ => hkept hm) fun {m s} hm => ?_
          rw [Arena.get?_map, hget] at hm
          split at hm
          · cases hm
            exact .inr ⟨rfl, hfixed⟩
          · exact .inl ((standing_eq a m).trans hm)
        have haccounts := accounts_setNodes (getElem?_of_layer hlayer)
          ((layer.nodes.setTable category.index (r.2.place r.1 id)).shiftBelow category.index (· + 1)) nodes
        refine ⟨?_, hkept⟩
        rw [← haccounts] at hsound
        exact hsound

/-- A node that may move is moved, or it is as it was. -/
theorem relocate_replaced (g : Graph .node α (NodeData α)) (id : NodeId) (category : Category) (slot : Slot) :
    (Graph.relocate id category slot).Meets g
      (fun _ g' => ∃ s, (Arena.map Node.standing g).get? id = some s ∧ s.movable = true ∧
        Replaced (Arena.map Node.standing g) (Arena.map Node.standing g') id (some { s with category }))
      (fun _ g' => Arena.map Node.standing g' = Arena.map Node.standing g ∨
        ∃ s, (Arena.map Node.standing g).get? id = some s ∧ s.movable = true ∧
          Replaced (Arena.map Node.standing g) (Arena.map Node.standing g') id (some { s with category })) := by
  unfold Graph.relocate Graph.relocateIn Graph.find
  rw [Step.meets_bind, Step.meets_read]
  cases hv : Arena.get? g id with
  | none =>
    rw [Arena.get_of_none hv]
    exact .inl rfl
  | some v =>
    rw [Arena.get_of_get? hv]
    dsimp only
    rw [Step.meets_ite]
    refine ⟨fun _ => .inl rfl, fun hmovable => ?_⟩
    rw [Step.meets_bind]
    refine (Graph.edit_meets (f := fun u => .ok { u with location := { v.location with category, slot } }) hv rfl).mono
      (fun _ g₁ hedit => ?_) fun _ _ hfalse => hfalse.elim
    have hreplaced : Replaced (Arena.map Node.standing g) (Arena.map Node.standing g₁) id
        (some { Node.standing v with category }) := by
      refine ⟨fun hw => Arena.wellFormed_map.mpr (hedit.arena (Arena.wellFormed_map.mp hw)), fun x => ?_⟩
      rw [Arena.get?_map, Arena.get?_map, hedit.get?_eq]
      split <;> rfl
    have hloop : Step.Keeps (Arena.map Node.standing) (v.neighbors.forM fun p =>
        Graph.edit p.2 (·.editEdges p.1.reverse
          (·.moveEdge v.location.key { v.location with category, slot }.key false)) :
            Step (Graph .node α (NodeData α)) Unit) :=
      Step.Within.forM _ fun p => Graph.keepsMap_editEdges (fun u d s => by cases d <;> rfl) _ _ _
    have hid : (Arena.map Node.standing g).get? id = some (Node.standing v) := by rw [Arena.get?_map, hv, Option.map_some]
    have hmove : (Node.standing v).movable = true := by simpa [Node.standing] using hmovable
    rw [Step.meets_bind]
    refine (hloop g₁).mono (fun _ g₂ hsame => ?_) fun _ g₂ hsame => .inr ?_ <;>
    · have heq : Arena.map Node.standing g₂ = Arena.map Node.standing g₁ := hsame
      refine ⟨Node.standing v, hid, hmove, ?_⟩
      rw [heq]
      exact hreplaced

/-- The end of a promotion: the node is taken off the table of unprocessed nodes and may no longer move. -/
private theorem settle_accounted {a : Abstraction α} {id : NodeId} {s : Standing} (h : a.Accounted)
    (hid : a.accounts.nodes.get? id = some s) (hmovable : s.movable = true) (hcategory : s.category ≠ .unprocessed)
    (l : Nat) (slot : Slot) :
    (do unlistNode l .unprocessed slot
        onNodes (Graph.edit id fun v => .ok v.cement)
        count .nodeRelocated : Step (Abstraction α) Unit).Meets a (fun _ a' => a'.Accounted) (fun _ a' => a'.Accounted) := by
  rw [Step.meets_bind]
  refine (quiet_unlistNode l .unprocessed slot a).mono (fun _ a₁ hsame => ?_) fun _ a₁ hsame => ?_
  · have heq : a₁.accounts = a.accounts := hsame
    rw [← heq] at hid
    rw [Accounted, ← heq] at h
    obtain ⟨v, hv, rfl⟩ := Option.map_eq_some_iff.mp ((standing_eq a₁ id).symm.trans hid)
    rw [Step.meets_bind, onNodes, Step.meets_zoom]
    refine (Graph.edit_meets (f := fun v => .ok v.cement) hv rfl).mono (fun _ g hedit => ?_) fun _ _ hfalse => hfalse.elim
    have hr : Replaced a₁.accounts.nodes (Arena.map Node.standing g) id (some { Node.standing v with movable := false }) := by
      refine ⟨fun hw => Arena.wellFormed_map.mpr (hedit.arena (Arena.wellFormed_map.mp hw)), fun x => ?_⟩
      rw [standing_eq, Arena.get?_map, hedit.get?_eq]
      split <;> rfl
    exact Accounts.Sound.change h hid hmovable hr fun t ht => by
      cases ht
      exact ⟨rfl, fun _ => hcategory⟩
  · have heq : a₁.accounts = a.accounts := hsame
    rw [Accounted, heq]
    exact h

/-- A node moves into the table of the first category and is fixed there. -/
theorem accounting_promote (l : Nat) (id : NodeId) : Accounting (promote l id : Step (Abstraction α) Unit) := by
  refine accounting_of_meets fun {a} h => ?_
  rw [promote, Step.meets_bind, Step.meets_read]
  cases hlayer : a.layer l with
  | error e => exact h
  | ok layer =>
    dsimp only
    rw [Step.meets_bind, Step.meets_ofExcept]
    cases layer.nodes.insert Category.posInc.index id with
    | error e => exact h
    | ok r =>
      dsimp only
      rw [Step.meets_bind, setLayer, Step.meets_modify, Step.meets_bind, onNodes, Step.meets_zoom]
      have haccounts := fun g => accounts_setNodes (getElem?_of_layer hlayer) r.2 g
      have hposInc : Category.posInc ≠ .unprocessed := by decide
      refine (relocate_replaced a.nodes id .posInc r.1).mono ?_ ?_
      · rintro old g ⟨s, hid, hmovable, hr⟩
        have hsound := h.change hid hmovable hr fun t ht => by
          cases ht
          exact ⟨rfl, fun _ => hposInc⟩
        refine settle_accounted (s := { s with category := .posInc }) ?_ ?_ hmovable hposInc l old.slot
        · rw [Accounted, haccounts]
          exact hsound
        · rw [haccounts]
          exact (hr.get?_eq id).trans (if_pos rfl)
      · rintro e g (hsame | ⟨s, hid, hmovable, hr⟩)
        · rw [Accounted, haccounts, hsame]
          exact h
        · rw [Accounted, haccounts]
          exact h.change hid hmovable hr fun t ht => by
            cases ht
            exact ⟨rfl, fun _ => hposInc⟩

/-- The accounts are in order, and a node may still move. -/
def Waits (id : NodeId) (a : Abstraction α) : Prop :=
  a.Accounted ∧ ∃ s, a.accounts.nodes.get? id = some s ∧ s.movable = true

theorem waits_makePiece {id : NodeId} (l : Nat) (node : Node α) {category : Category} (hcategory : category ≠ .unprocessed)
    (edges : List (Edge α NodeId)) : Step.Preserves (Waits id) (makePiece l node category edges) := by
  have hinsert : Step.Preserves (Waits id) (insertNode l category false node.data.bias node.data.origin) := by
    refine Step.within_of_meets fun {a} h => ?_
    refine (insertNode_accounted h.1 l (fun _ => hcategory) _ _).mono (fun _ a' ha' => ?_) fun _ a' heq => by rw [heq]; exact h
    obtain ⟨s, hs, hmovable⟩ := h.2
    exact ⟨ha'.1, s, ha'.2 hs, hmovable⟩
  have hlink : ∀ source d target weight,
      Step.Preserves (Waits id) (onNodes (Graph.link source d target weight true) : Step (Abstraction α) Unit) :=
    fun source d target weight => (quiet_link source d target weight true).preserves fun c =>
      c.Sound ∧ ∃ s, c.nodes.get? id = some s ∧ s.movable = true
  unfold makePiece
  refine hinsert.bind fun piece => (Step.Within.forM _ fun edge => hlink _ _ _ _).bind fun _ => ?_
  exact (Step.Within.forM _ fun entry => hlink _ _ _ _).bind fun _ => Step.Within.pure _

variable [Scalar α]

/-- Dividing a node of the table of unprocessed nodes. -/
theorem divide_accounted {a : Abstraction α} (h : a.Accounted) {id : NodeId} {v : Node α} (hv : a.nodes.get? id = some v)
    (hcategory : v.location.category = .unprocessed) (l : Nat) :
    (divide l id v).Meets a (fun _ a' => a'.Accounted) (fun _ a' => a'.Accounted) := by
  have hid : a.accounts.nodes.get? id = some (Node.standing v) := by rw [standing_eq, hv, Option.map_some]
  have hmovable : (Node.standing v).movable = true := by
    by_contra hfixed
    exact h.fixed hid (by simpa using hfixed) hcategory
  rw [divide, Step.meets_bind, Step.meets_ofExcept]
  cases classifyEdges l id v with
  | error e => exact h
  | ok classified =>
    have hpieces : ((buckets classified).mapM fun p => makePiece l v p.1 p.2).Meets a (fun _ a' => Waits id a')
        (fun _ a' => Waits id a') := by
      refine Step.Meets.mapM (fun _ _ a' => Waits id a') ⟨h, _, hid, hmovable⟩ ?_
      rintro done ys ⟨category, edges⟩ rest a' hsplit hwaits
      have hmem : (category, edges) ∈ buckets classified := by simp [hsplit]
      rw [buckets_eq, List.mem_map] at hmem
      obtain ⟨c, hc, heq⟩ := hmem
      have hcemented : category ≠ .unprocessed := by
        cases heq
        have hmem := (List.mem_filter.mp hc).1
        rintro rfl
        revert hmem
        decide
      exact (waits_makePiece l v hcemented edges).meets hwaits
    dsimp only
    rw [Step.meets_bind]
    refine hpieces.mono (fun pieces a₁ hwaits => ?_) fun _ _ hwaits => hwaits.1
    obtain ⟨hsound, s, hs, hmovable⟩ := hwaits
    rw [Step.meets_bind, Step.meets_discard, onNodes, Step.meets_zoom]
    refine (Graph.destroy_meets_map (f := Node.standing) (fun u d s => by cases d <;> rfl) a₁.nodes id).mono ?_ ?_
    · rintro r g ⟨_, _, _, harena, hget⟩
      have hr : Replaced a₁.accounts.nodes (Arena.map Node.standing g) id none :=
        ⟨fun hw => Arena.wellFormed_map.mpr (harena (Arena.wellFormed_map.mp hw)), hget⟩
      have hgone : Accounted { a₁ with nodes := g } := hsound.change hs hmovable hr fun t ht => by cases ht
      have hrest : Accounting (do
          unlistNode l .unprocessed v.location.slot
          count (.nodeSplit pieces.length)
          return pieces : Step (Abstraction α) (List NodeId)) :=
        (quiet_unlistNode l .unprocessed v.location.slot).accounting.bind fun _ =>
          (quiet_count _).accounting.bind fun _ => Step.Within.pure _
      exact hrest.meets hgone
    · intro e g hsame
      have heq : accounts { a₁ with nodes := g } = a₁.accounts := by
        simp only [accounts, hsame]
        rfl
      rw [Accounted, heq]
      exact hsound

end Nodes

end Abstraction

end ReluAbstraction
