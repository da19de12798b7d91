import ReluAbstraction.Proofs.Constraints
import ReluAbstraction.Proofs.Outcomes

/-!
# The query mirrors the arnodes

Variables are given out again as soon as they are back, equations are removed by value, and an equation that is out of date
still mentions variables of arnodes that are gone. Even so, once equations are brought up to date the query says exactly
what the arnodes are: one ReLU for each arnode between the boundary layers, one equation for each arnode with incoming
edges, and bounds on inputs and on the property's output only.
-/

namespace ReluAbstraction

variable {α : Type}

/-- The pool and the constraints are the same, but for bounds and for variables that were in use for a while. -/
structure Encoding.Retained (e e' : Encoding α) : Prop where
  limit_eq : e'.pool.limit = e.pool.limit
  isFree_eq : ∀ v, e'.pool.isFree v = e.pool.isFree v
  covers : ∀ {v}, e.pool.Covers v → e'.pool.Covers v
  relus_eq : e'.query.relus = e.query.relus
  equations_eq : e'.query.equations = e.query.equations

theorem Encoding.retained_of_pool {e e' : Encoding α} (hpool : e'.pool = e.pool) (hrelus : e'.query.relus = e.query.relus)
    (hequations : e'.query.equations = e.query.equations) : Retained e e' :=
  ⟨by rw [hpool], fun v => by rw [hpool], fun h => by rw [hpool]; exact h, hrelus, hequations⟩

theorem Encoding.Lapsed.retained {e e' : Encoding α} (h : Lapsed e e') : Retained e e' := by
  obtain ⟨used, hpool⟩ := h.pool_eq
  exact ⟨by rw [hpool], fun v => by rw [hpool]; rfl, h.covers, by rw [h.query_eq], by rw [h.query_eq]⟩

namespace Abstraction

variable {a a' : Abstraction α} {id x : ArNodeId} {b : Body (ArNodeData α)}

/-- The ReLU of an arnode between the boundary layers. -/
def relu? (a : Abstraction α) (x : ArNodeId) : Option Relu :=
  (a.arnodes.body? x).bind fun b =>
    if b.data.vars.isBoundary then none else some ⟨b.data.vars.incoming, b.data.vars.outgoing⟩

theorem VarsSound.relu?_eq_some_iff (h : a.VarsSound) {r : Relu} : a.relu? x = some r ↔
    ∃ b, a.arnodes.body? x = some b ∧ a.boundary b.location.layer = false ∧
      r = ⟨b.data.vars.incoming, b.data.vars.outgoing⟩ := by
  rw [relu?, Option.bind_eq_some_iff]
  refine exists_congr fun b => and_congr_right fun hb => ?_
  rw [h.isBoundary_eq hb]
  cases a.boundary b.location.layer <;> simp [eq_comm]

/-- The equation that an arnode has in the query. -/
def equation? (a : Abstraction α) (x : ArNodeId) : Option (Equation α) :=
  (a.arnodes.body? x).bind fun b => b.data.equation

theorem equation?_eq_some_iff {e : Equation α} :
    a.equation? x = some e ↔ ∃ b, a.arnodes.body? x = some b ∧ b.data.equation = some e := Option.bind_eq_some_iff

/-- The bound belongs to the neuron of the first node of an arnode with the given incoming variable. -/
def Allows (limits : NeuronRef → Bound α → Prop) (a : Abstraction α) (v : VarId) (bound : Bound α) : Prop :=
  ∃ x b m c, a.arnodes.body? x = some b ∧ b.data.vars.incoming = v ∧ b.data.members.head? = some m ∧
    a.info? m = some c ∧ limits c.origin bound

/-- The same arnodes, but for how far they are built. -/
def Alike (a a' : Abstraction α) : Prop :=
  ∀ x, (a'.arnodes.body? x).map (·.reaching .notActivated) = (a.arnodes.body? x).map (·.reaching .notActivated)

theorem alike_of_arnodes (h : a'.arnodes = a.arnodes) : Alike a a' := fun x => by rw [h]

theorem Alike.symm (h : Alike a a') : Alike a' a := fun x => (h x).symm

theorem Alike.exists_body? (h : Alike a a') {b' : Body (ArNodeData α)} (hb' : a'.arnodes.body? x = some b') :
    ∃ b, a.arnodes.body? x = some b ∧ b.location = b'.location ∧ b.data = { b'.data with state := b.data.state } := by
  have hx := h x
  rw [hb', Option.map_some, eq_comm, Option.map_eq_some_iff] at hx
  obtain ⟨b, hb, heq⟩ := hx
  obtain ⟨location, movable, data⟩ := b
  obtain ⟨location', movable', data'⟩ := b'
  simp only [Body.reaching, Body.mk.injEq, ArNodeData.mk.injEq] at heq
  refine ⟨_, hb, heq.1, ?_⟩
  cases data
  cases data'
  simp_all

theorem Alike.relu?_eq (h : Alike a a') (x : ArNodeId) : a'.relu? x = a.relu? x := by
  have hx := congrArg (fun o => o.bind fun b : Body (ArNodeData α) =>
    if b.data.vars.isBoundary then none else some (Relu.mk b.data.vars.incoming b.data.vars.outgoing)) (h x)
  simpa [Option.bind_map, relu?, Body.reaching, Function.comp_def] using hx

theorem Alike.equation?_eq (h : Alike a a') (x : ArNodeId) : a'.equation? x = a.equation? x := by
  have hx := congrArg (fun o => o.bind fun b : Body (ArNodeData α) => b.data.equation) (h x)
  simpa [Option.bind_map, equation?, Body.reaching, Function.comp_def] using hx

theorem Alike.outgoingVar_eq (h : Alike a a') (x : ArNodeId) : a'.outgoingVar x = a.outgoingVar x := by
  have hx := congrArg (fun o => (o.map fun b : Body (ArNodeData α) => b.data.vars.outgoing).getD 0) (h x)
  simpa [outgoingVar, Body.reaching, Function.comp_def] using hx

/-- Arnodes that are still there, over nodes that are as before, allow the same bounds. -/
theorem Allows.mono {limits : NeuronRef → Bound α → Prop} {v : VarId} {bound : Bound α} (h : Allows limits a v bound)
    (hbody : ∀ {x b}, a.arnodes.body? x = some b → b.data.vars.incoming = v → ∃ b', a'.arnodes.body? x = some b' ∧
      b'.data.vars = b.data.vars ∧ b'.data.members = b.data.members)
    (hinfo : ∀ {x b m}, a.arnodes.body? x = some b → m ∈ b.data.members → a'.info? m = a.info? m) :
    Allows limits a' v bound := by
  obtain ⟨x, b, m, c, hb, hv, hm, hc, hbound⟩ := h
  obtain ⟨b', hb', hvars, hmembers⟩ := hbody hb hv
  have hmem : m ∈ b.data.members := List.mem_of_mem_head? (by rw [hm]; rfl)
  exact ⟨x, b', m, c, hb', by rw [hvars, hv], by rw [hmembers, hm], by rw [hinfo hb hmem, hc], hbound⟩

variable [Scalar α]

theorem Current.congr {b' : Body (ArNodeData α)} {equation : Option (Equation α)} (h : Current a x b equation)
    (hedges : ∀ s, a'.arnodes.edge? s x = a.arnodes.edge? s x)
    (hvars : ∀ {s w}, a.arnodes.edge? s x = some w → a'.outgoingVar s = a.outgoingVar s)
    (hincoming : b'.data.vars.incoming = b.data.vars.incoming) (hbias : b'.data.bias = b.data.bias) :
    Current a' x b' equation := by
  obtain ⟨sources, hnodup, hsources, rfl⟩ := h
  refine ⟨sources, hnodup, fun s => by rw [hsources]; simp only [hedges], ?_⟩
  have hterms : sources.map (a'.term x) = sources.map (a.term x) := by
    refine List.map_congr_left fun s hs => ?_
    obtain ⟨w, hw⟩ := (hsources s).mp hs
    rw [term, term, hedges, hvars hw]
  rw [equationOver, equationOver, hterms, hincoming, hbias]

/-- The query tells what the arnodes are, except that equations of marked arnodes may be out of date. -/
structure Mirror (free : Nat → Prop) (limits : NeuronRef → Bound α → Prop) (marked : ArNodeId → Prop)
    (a : Abstraction α) : Prop where
  relus : Enumerates a.relu? a.encoding.query.relus
  equations : Enumerates a.equation? a.encoding.query.equations
  headed : ∀ {x b e}, a.arnodes.body? x = some b → b.data.equation = some e →
    e.headVar? = some b.data.vars.incoming ∧ (e == e) = true
  current : ∀ {x b}, a.arnodes.body? x = some b → ¬marked x → Current a x b b.data.equation
  bounds : ∀ {v bound}, a.encoding.query.HasBound v bound → Allows limits a v bound
  alone : ∀ {x b}, a.arnodes.body? x = some b → b.data.members.length = 1 ∨ free b.location.layer
  issued_iff : ∀ v, a.encoding.pool.Issued v ↔ ∃ x b, a.arnodes.body? x = some b ∧ b.data.vars.Uses v
  issuable : ∀ {v}, a.encoding.pool.isFree v = true → v < a.encoding.pool.limit.getD IdPool.ceiling
  covered : ∀ {x b}, a.arnodes.body? x = some b → ∀ {v}, b.data.vars.Uses v → a.encoding.pool.Covers v

namespace Mirror

variable {free : Nat → Prop} {limits : NeuronRef → Bound α → Prop} {marked marked' : ArNodeId → Prop}

/-- What leaves the arnodes alike, apart from edges into marked ones, keeps the query a mirror. -/
theorem of_alike (h : Mirror free limits marked a) (hg : a.Grounded) (halike : Alike a a')
    (hinfo : ∀ {m x}, a.holder? m = some x → a'.info? m = a.info? m)
    (hmarked : ∀ {x}, ¬marked' x → ¬marked x ∧ ∀ s, a'.arnodes.edge? s x = a.arnodes.edge? s x)
    (hencoding : Encoding.Retained a.encoding a'.encoding)
    (hbounds : ∀ {v bound}, a'.encoding.query.HasBound v bound → a.encoding.query.HasBound v bound ∨ Allows limits a v bound) :
    Mirror free limits marked' a' where
  relus := by
    rw [hencoding.relus_eq]
    exact h.relus.congr halike.relu?_eq
  equations := by
    rw [hencoding.equations_eq]
    exact h.equations.congr halike.equation?_eq
  headed := by
    intro x b' e hb' he
    obtain ⟨b, hb, _, hdata⟩ := halike.exists_body? hb'
    have hold := h.headed hb (e := e) (by rw [hdata]; exact he)
    rw [hdata] at hold
    exact hold
  current := by
    intro x b' hb' hx
    obtain ⟨b, hb, _, hdata⟩ := halike.exists_body? hb'
    obtain ⟨hold, hedges⟩ := hmarked hx
    have hcurrent := h.current hb hold
    rw [show b.data.equation = b'.data.equation by rw [hdata]] at hcurrent
    exact hcurrent.congr hedges (fun _ => halike.outgoingVar_eq _) (by rw [hdata]) (by rw [hdata])
  bounds := by
    intro v bound hbound
    refine ((hbounds hbound).elim h.bounds fun hallows => hallows).mono (fun {x b} hb _ => ?_) fun {x b m} hb hm => ?_
    · obtain ⟨b', hb', _, hdata⟩ := halike.symm.exists_body? hb
      exact ⟨b', hb', by rw [hdata], by rw [hdata]⟩
    · obtain ⟨c, _, hholder, _⟩ := hg.owned.member hb m hm
      exact hinfo hholder
  alone := by
    intro x b' hb'
    obtain ⟨b, hb, hlocation, hdata⟩ := halike.exists_body? hb'
    have hold := h.alone hb
    rw [hlocation, show b.data.members = b'.data.members by rw [hdata]] at hold
    exact hold
  issued_iff := by
    intro v
    rw [IdPool.Issued, hencoding.limit_eq, hencoding.isFree_eq]
    refine (h.issued_iff v).trans ⟨?_, ?_⟩
    · rintro ⟨x, b, hb, hv⟩
      obtain ⟨b', hb', _, hdata⟩ := halike.symm.exists_body? hb
      exact ⟨x, b', hb', by rw [hdata]; exact hv⟩
    · rintro ⟨x, b', hb', hv⟩
      obtain ⟨b, hb, _, hdata⟩ := halike.exists_body? hb'
      exact ⟨x, b, hb, by rw [hdata]; exact hv⟩
  issuable := by
    intro v hv
    rw [hencoding.isFree_eq] at hv
    rw [hencoding.limit_eq]
    exact h.issuable hv
  covered := by
    intro x b' hb' v hv
    obtain ⟨b, hb, _, hdata⟩ := halike.exists_body? hb'
    exact hencoding.covers (h.covered hb (by rw [hdata]; exact hv))

/-- An equation finds itself in the query: any other one starts with another variable. -/
theorem beq_iff (h : Mirror free limits marked a) (hg : a.Grounded) {e e' : Equation α} (hx : a.equation? x = some e)
    (he' : e' ∈ a.encoding.query.equations) : (e' == e) = true ↔ e' = e := by
  obtain ⟨b, hb, he⟩ := equation?_eq_some_iff.mp hx
  obtain ⟨hhead, hself⟩ := h.headed hb he
  constructor
  · intro hbeq
    obtain ⟨y, hy⟩ := h.equations.mem_iff.mp he'
    obtain ⟨c, hc, hce⟩ := equation?_eq_some_iff.mp hy
    have hvar := Equation.headVar?_of_beq hbeq
    rw [hhead, (h.headed hc hce).1, Option.some.injEq] at hvar
    obtain rfl := hg.vars.disjoint hc hb (.inl rfl) (.inl hvar)
    rw [hx] at hy
    exact (Option.some.inj hy).symm
  · rintro rfl
    exact hself

/-- Dropping the equation of an arnode from the query. -/
theorem enumerates_dropEquation (h : Mirror free limits marked a) (hg : a.Grounded) (hb : a.arnodes.body? x = some b)
    {e : Encoding α} (he : e.query.equations = a.encoding.query.equations) :
    Enumerates (fun z => if z = x then none else a.equation? z) (e.dropEquation b.data.equation).query.equations := by
  have hx : a.equation? x = b.data.equation := by rw [equation?, hb, Option.bind_some]
  cases hequation : b.data.equation with
  | none =>
    rw [Encoding.dropEquation, he]
    refine h.equations.congr fun z => ?_
    split
    · next hz => rw [hz, hx, hequation]
    · rfl
  | some equation =>
    rw [hequation] at hx
    rw [Encoding.dropEquation, Query.removeEquation_eq, he]
    exact (h.equations.erase hx fun _ hmem => h.beq_iff hg hx hmem).perm (perm_swapRemove? _ _)

/-- A new arnode brings its ReLU along, if it has one. -/
theorem relus_of_wrapped (h : Mirror free limits marked a) {members : List NodeId} (hw : Wrapped a a' members id b) :
    Enumerates a'.relu? a'.encoding.query.relus := by
  obtain ⟨e, hborrowed, hencoding⟩ := hw.borrowed
  have hquery : a'.encoding.query = e.query := by rw [hencoding]; rfl
  have hrelu : ∀ z, a'.relu? z = if z = id
      then if b.data.vars.isBoundary then none else some ⟨b.data.vars.incoming, b.data.vars.outgoing⟩
      else a.relu? z := by
    intro z
    rw [relu?, hw.body?_eq]
    split <;> rfl
  have hnone : a.relu? id = none := by rw [relu?, hw.fresh, Option.bind_none]
  rw [hquery, hborrowed.query_eq, ← hborrowed.isBoundary_eq]
  cases hboundary : b.data.vars.isBoundary with
  | true =>
    rw [if_pos rfl]
    refine h.relus.congr fun z => ?_
    rw [hrelu, hboundary]
    split
    · next hz => rw [hz, hnone, if_pos rfl]
    · rfl
  | false =>
    rw [if_neg Bool.false_ne_true]
    refine (h.relus.insert hnone _).congr fun z => ?_
    rw [hrelu, hboundary, if_neg Bool.false_ne_true]

/-- The variables in use are those of before and those of the new arnode. -/
theorem issued_iff_of_wrapped (h : Mirror free limits marked a) {members : List NodeId} (hw : Wrapped a a' members id b)
    (v : VarId) : a'.encoding.pool.Issued v ↔ ∃ x c, a'.arnodes.body? x = some c ∧ c.data.vars.Uses v := by
  obtain ⟨e, hborrowed, hencoding⟩ := hw.borrowed
  have hpool : a'.encoding.pool = e.pool := by rw [hencoding]; rfl
  have hold := h.issued_iff v
  have hfree : a'.encoding.pool.isFree v = false ↔ a.encoding.pool.isFree v = false ∨ b.data.vars.Uses v := by
    rw [hpool, ← Bool.not_eq_true, hborrowed.isFree_iff, not_and_or, not_not, Bool.not_eq_true]
  rw [IdPool.Issued, hfree, hpool, hborrowed.limit_eq]
  constructor
  · rintro ⟨hlt, hused | hused⟩
    · obtain ⟨x, c, hc, hv⟩ := hold.mp ⟨hlt, hused⟩
      exact ⟨x, c, hw.body?_of_old hc, hv⟩
    · exact ⟨id, b, hw.body?_self, hused⟩
  · rintro ⟨x, c, hc, hv⟩
    rcases hw.body?_cases hc with ⟨_, rfl⟩ | hc
    · exact ⟨h.issuable (hborrowed.free hv), .inr hv⟩
    · obtain ⟨hlt, hused⟩ := hold.mpr ⟨x, c, hc, hv⟩
      exact ⟨hlt, .inl hused⟩

/-- A new arnode. -/
theorem wrapped (h : Mirror free limits marked a) (hg : a.Grounded) {members : List NodeId}
    (hsize : members.length = 1 ∨ free b.location.layer) (hw : Wrapped a a' members id b) (hnew : marked' id)
    (hmarked : ∀ {x}, ¬marked' x → ¬marked x) : Mirror free limits marked' a' := by
  obtain ⟨e, hborrowed, hencoding⟩ := hw.borrowed
  have hpool : a'.encoding.pool = e.pool := by rw [hencoding]; rfl
  have hquery : a'.encoding.query = e.query := by rw [hencoding]; rfl
  constructor
  case relus => exact h.relus_of_wrapped hw
  case equations =>
    rw [hquery, hborrowed.equations_eq]
    refine h.equations.congr fun z => ?_
    rw [equation?, equation?, hw.body?_eq]
    split
    · next hz => rw [hz, hw.fresh, Option.bind_some, Option.bind_none, hw.equation_eq]
    · rfl
  case headed =>
    intro x c e hc he
    rcases hw.body?_cases hc with ⟨_, rfl⟩ | hold
    · rw [hw.equation_eq] at he
      cases he
    · exact h.headed hold he
  case current =>
    intro x c hc hx
    rcases hw.body?_cases hc with ⟨rfl, _⟩ | hold
    · exact absurd hnew hx
    · refine (h.current hold (hmarked hx)).congr (fun s => hw.edge?_eq s x) (fun {s w} hedge => ?_) rfl rfl
      obtain ⟨_, _, hs, _⟩ := hg.arnodes.live_of_edge hedge
      rw [outgoingVar_of_body? hs, outgoingVar_of_body? (hw.body?_of_old hs)]
  case bounds =>
    intro v bound hbound
    rw [hquery, hborrowed.hasBound_iff] at hbound
    refine (h.bounds hbound).mono (fun hc _ => ⟨_, hw.body?_of_old hc, rfl, rfl⟩) fun _ _ => ?_
    rw [info?_of_nodePart hw.nodePart_eq]
  case alone =>
    intro x c hc
    rcases hw.body?_cases hc with ⟨_, rfl⟩ | hold
    · rw [hw.members_eq]
      exact hsize
    · exact h.alone hold
  case issued_iff => exact h.issued_iff_of_wrapped hw
  case issuable =>
    intro v hv
    rw [hpool, hborrowed.isFree_iff] at hv
    rw [hpool, hborrowed.limit_eq]
    exact h.issuable hv.1
  case covered =>
    intro x c hc v hv
    rw [hpool]
    rcases hw.body?_cases hc with ⟨_, rfl⟩ | hc
    · exact hborrowed.covers (.inl hv)
    · exact hborrowed.covers (.inr (h.covered hc hv))

/-- An arnode that goes takes its ReLU along, if it has one. -/
theorem relus_of_unwrapped (h : Mirror free limits marked a) (hu : Unwrapped a a' id b) :
    Enumerates a'.relu? a'.encoding.query.relus := by
  obtain ⟨e, hremarked, hencoding⟩ := hu.returned
  have hrelu : ∀ z, a'.relu? z = if z = id then none else a.relu? z := by
    intro z
    rw [relu?, hu.body?_eq]
    split <;> rfl
  have hid : a.relu? id = if b.data.vars.isBoundary then none else some ⟨b.data.vars.incoming, b.data.vars.outgoing⟩ := by
    rw [relu?, hu.live, Option.bind_some]
  rw [hencoding, Encoding.relus_releaseVars, hremarked.query_eq]
  cases hboundary : b.data.vars.isBoundary with
  | true =>
    rw [hboundary, if_pos rfl] at hid
    rw [if_pos rfl]
    refine h.relus.congr fun z => ?_
    rw [hrelu]
    split
    · next hz => rw [hz, hid]
    · rfl
  | false =>
    rw [hboundary, if_neg Bool.false_ne_true] at hid
    rw [if_neg Bool.false_ne_true, Query.removeRelu_eq]
    exact ((h.relus.erase hid fun z _ => decide_eq_true_iff).congr hrelu).perm (perm_swapRemove? _ _)

/-- The variables of an arnode that goes are no longer in use. -/
theorem issued_iff_of_unwrapped (h : Mirror free limits marked a) (hg : a.Grounded) (hu : Unwrapped a a' id b)
    (v : VarId) : a'.encoding.pool.Issued v ↔ ∃ x c, a'.arnodes.body? x = some c ∧ c.data.vars.Uses v := by
  obtain ⟨e, hpool, hreturned⟩ := hu.exists_returned hg.vars
  have hfree : a'.encoding.pool.isFree v = false ↔ ¬b.data.vars.Uses v ∧ a.encoding.pool.isFree v = false := by
    rw [← Bool.not_eq_true, hreturned.isFree_iff, hpool, not_or, Bool.not_eq_true]
  rw [IdPool.Issued, hfree, hreturned.limit_eq, hpool]
  constructor
  · rintro ⟨hlt, hother, hissued⟩
    obtain ⟨x, c, hc, hv⟩ := (h.issued_iff v).mp ⟨hlt, hissued⟩
    refine ⟨x, c, hu.body?_of_ne hc ?_, hv⟩
    rintro rfl
    rw [hu.live] at hc
    cases hc
    exact hother hv
  · rintro ⟨x, c, hc, hv⟩
    obtain ⟨hne, hold⟩ := hu.body?_of_some hc
    obtain ⟨hlt, hissued⟩ := (h.issued_iff v).mpr ⟨x, c, hold, hv⟩
    exact ⟨hlt, fun hother => hne (hg.vars.disjoint hold hu.live hv hother), hissued⟩

/-- Arnodes that the one that goes did not feed have the edges and the terms that they had. -/
theorem current_of_unwrapped (h : Mirror free limits marked a) (hg : a.Grounded) (hu : Unwrapped a a' id b)
    {c : Body (ArNodeData α)} (hc : a.arnodes.body? x = some c) (hne : x ≠ id) (hx : ¬marked x)
    (hedge : a.arnodes.edge? id x = none) : Current a' x c c.data.equation := by
  have hedges : ∀ s, a'.arnodes.edge? s x = a.arnodes.edge? s x := by
    intro s
    rw [hu.edge?_eq]
    split
    · next hs => rw [hs.resolve_right hne, hedge]
    · rfl
  refine (h.current hc hx).congr hedges (fun {s w} hs => ?_) rfl rfl
  obtain ⟨_, _, hlive, _⟩ := hg.arnodes.live_of_edge hs
  have hsid : s ≠ id := by
    rintro rfl
    rw [hedge] at hs
    cases hs
  rw [outgoingVar_of_body? hlive, outgoingVar_of_body? (hu.body?_of_ne hlive hsid)]

/-- An arnode less. -/
theorem unwrapped (h : Mirror free limits marked a) (hg : a.Grounded) (hu : Unwrapped a a' id b)
    (hmarked : ∀ {x}, x ≠ id → ¬marked' x → ¬marked x ∧ a.arnodes.edge? id x = none) : Mirror free limits marked' a' := by
  obtain ⟨e, hremarked, hencoding⟩ := hu.returned
  obtain ⟨_, hpool, hreturned⟩ := hu.exists_returned hg.vars
  constructor
  case relus => exact h.relus_of_unwrapped hu
  case equations =>
    rw [hencoding, Encoding.equations_releaseVars]
    refine (h.enumerates_dropEquation hg hu.live (by rw [hremarked.query_eq])).congr fun z => ?_
    rw [equation?, hu.body?_eq]
    split <;> rfl
  case headed => exact fun hc he => h.headed (hu.body?_of_some hc).2 he
  case current =>
    intro x c hc hx
    obtain ⟨hne, hold⟩ := hu.body?_of_some hc
    obtain ⟨hunmarked, hedge⟩ := hmarked hne hx
    exact h.current_of_unwrapped hg hu hold hne hunmarked hedge
  case bounds =>
    intro v bound hbound
    rw [hencoding] at hbound
    obtain ⟨hother, hold⟩ := Encoding.hasBound_releaseVars_iff.mp hbound
    rw [hremarked.query_eq] at hold
    refine (h.bounds hold).mono (fun {x c} hc hv => ⟨c, hu.body?_of_ne hc ?_, rfl, rfl⟩) fun _ _ => ?_
    · rintro rfl
      rw [hu.live] at hc
      cases hc
      exact hother (.inl hv.symm)
    · rw [info?_of_nodePart hu.nodePart_eq]
  case alone => exact fun hc => h.alone (hu.body?_of_some hc).2
  case issued_iff => exact h.issued_iff_of_unwrapped hg hu
  case issuable =>
    intro v hv
    rw [hreturned.isFree_iff, hpool] at hv
    rw [hreturned.limit_eq, hpool]
    rcases hv with hv | hv
    · exact ((h.issued_iff v).mpr ⟨id, b, hu.live, hv⟩).1
    · exact h.issuable hv
  case covered =>
    intro x c hc v hv
    rw [hreturned.covers_iff, hpool]
    exact h.covered (hu.body?_of_some hc).2 hv

end Mirror

/-- No bias and no weight of the arnodes differs from itself, nor does the factor of an incoming variable. -/
structure Comparable (a : Abstraction α) : Prop where
  unit : Scalar.isNaN (-1 : α) = false
  bias : ∀ {x b}, a.arnodes.body? x = some b → Scalar.isNaN (-b.data.bias) = false
  weight : ∀ {x y w}, a.arnodes.edge? x y = some w → Scalar.isNaN w = false

theorem beq_self_of_isNaN {x : α} (h : Scalar.isNaN x = false) : (x == x) = true := by simpa [Scalar.isNaN] using h

/-- An equation that was just built starts with the incoming variable and compares equal to itself. -/
theorem Current.headed (hc : Comparable a) (hb : a.arnodes.body? x = some b) {e : Equation α}
    (h : Current a x b (some e)) : e.headVar? = some b.data.vars.incoming ∧ (e == e) = true := by
  obtain ⟨sources, _, hsources, heq⟩ := h
  rw [equationOver] at heq
  split at heq
  · cases heq
  · cases heq
    refine ⟨rfl, Equation.beq_self (fun t ht => ?_) (beq_self_of_isNaN (hc.bias hb))⟩
    rcases List.mem_cons.mp ht with rfl | ht
    · exact beq_self_of_isNaN hc.unit
    · obtain ⟨s, hs, rfl⟩ := List.mem_map.mp ht
      obtain ⟨w, hw⟩ := (hsources s).mp hs
      rw [term, hw, Option.getD_some]
      exact beq_self_of_isNaN (hc.weight hw)

theorem Refreshed.comparable (h : Refreshed a a') (hc : Comparable a) : Comparable a' := by
  refine ⟨hc.unit, fun hb' => ?_, fun hw => hc.weight (by rw [← h.edge?_eq]; exact hw)⟩
  obtain ⟨b, hb, _, _, _, hbias⟩ := h.recast.exists_body? hb'
  rw [← hbias]
  exact hc.bias hb

namespace Mirror

variable {free : Nat → Prop} {limits : NeuronRef → Bound α → Prop} {ripe : Abstraction α → Prop}
  {marked marked' : ArNodeId → Prop}

theorem mono (h : Mirror free limits marked a) (hmarked : ∀ {x}, marked x → marked' x) : Mirror free limits marked' a :=
  ⟨h.relus, h.equations, h.headed, fun hb hx => h.current hb fun hold => hx (hmarked hold), h.bounds, h.alone,
    h.issued_iff, h.issuable, h.covered⟩

/-- The new equation of an arnode takes the place of the old one. -/
theorem equations_of_rebalanced (h : Mirror free limits marked a) (hg : a.Grounded) {equation : Option (Equation α)}
    (hr : Rebalanced a a' id b equation) : Enumerates a'.equation? a'.encoding.query.equations := by
  have hdropped := h.enumerates_dropEquation hg hr.live (e := a.encoding) rfl
  have hequation : ∀ z, a'.equation? z = if z = id then equation else a.equation? z := by
    intro z
    rw [equation?, hr.body?_eq]
    split <;> rfl
  rw [hr.encoding_eq]
  cases equation with
  | none => exact hdropped.congr hequation
  | some new =>
    refine (hdropped.insert (if_pos rfl) new).congr fun z => ?_
    rw [hequation]
    split <;> rfl

/-- The equation of one arnode is brought up to date. -/
theorem rebalanced (h : Mirror free limits marked a) (hg : a.Grounded) (hc : Comparable a)
    {equation : Option (Equation α)} (hcurrent : Current a id b equation) (hr : Rebalanced a a' id b equation)
    (hmarked : ∀ {x}, x ≠ id → ¬marked' x → ¬marked x) : Mirror free limits marked' a' := by
  have hrecast := hr.refreshed.recast
  have hpool : a'.encoding.pool = a.encoding.pool := hr.refreshed.pool_eq
  have houtgoing : ∀ s, a'.outgoingVar s = a.outgoingVar s := by
    intro s
    rw [outgoingVar, outgoingVar, hr.body?_eq]
    split
    · next hs =>
      rw [hs, hr.live]
      rfl
    · rfl
  constructor
  case relus =>
    rw [hr.encoding_eq, Encoding.relus_replaceEquation]
    refine h.relus.congr fun z => ?_
    rw [relu?, relu?, hr.body?_eq]
    split
    · next hz =>
      rw [hz, hr.live]
      rfl
    · rfl
  case equations => exact h.equations_of_rebalanced hg hr
  case headed =>
    intro x c e hc' he
    rcases hr.body?_cases hc' with ⟨rfl, rfl⟩ | ⟨_, hold⟩
    · have hnew : equation = some e := he
      rw [hnew] at hcurrent
      exact hcurrent.headed hc hr.live
    · exact h.headed hold he
  case current =>
    intro x c hc' hx
    rcases hr.body?_cases hc' with ⟨rfl, rfl⟩ | ⟨hne, hold⟩
    · exact hcurrent.congr (fun s => hr.edge?_eq s x) (fun _ => houtgoing _) rfl rfl
    · exact (h.current hold (hmarked hne hx)).congr (fun s => hr.edge?_eq s x) (fun _ => houtgoing _) rfl rfl
  case bounds =>
    intro v bound hbound
    rw [hr.encoding_eq, Encoding.hasBound_replaceEquation] at hbound
    refine (h.bounds hbound).mono (fun hold _ => ?_) fun _ _ => by rw [info?_of_nodePart hr.nodePart_eq]
    obtain ⟨c', hc', _, hmembers, hvars, _⟩ := hrecast.symm_body? hold
    exact ⟨c', hc', hvars, hmembers⟩
  case alone =>
    intro x c' hc'
    obtain ⟨c, hold, hlocation, hmembers, _⟩ := hrecast.exists_body? hc'
    rw [← hlocation, ← hmembers]
    exact h.alone hold
  case issued_iff =>
    intro v
    rw [hpool]
    refine (h.issued_iff v).trans ⟨?_, ?_⟩
    · rintro ⟨x, c, hold, hv⟩
      obtain ⟨c', hc', _, _, heq, _⟩ := hrecast.symm_body? hold
      exact ⟨x, c', hc', heq ▸ hv⟩
    · rintro ⟨x, c', hc', hv⟩
      obtain ⟨c, hold, _, _, heq, _⟩ := hrecast.exists_body? hc'
      exact ⟨x, c, hold, heq ▸ hv⟩
  case issuable =>
    rw [hpool]
    exact h.issuable
  case covered =>
    intro x c' hc' v hv
    obtain ⟨c, hold, _, _, heq, _⟩ := hrecast.exists_body? hc'
    rw [hpool]
    exact h.covered hold (heq ▸ hv)

/-- Once all marked equations are brought up to date, all equations are. -/
theorem refreshEquations_meets (h : Mirror free limits (fun x => a.encoding.isStale x = true) a) (hg : a.Grounded)
    (hc : Comparable a) : refreshEquations.Meets a (fun _ a' => Mirror free limits (fun _ => False) a') Step.Never := by
  unfold refreshEquations
  rw [Step.meets_bind, onEncoding, Step.meets_zoom]
  let unmarked : Abstraction α := { a with encoding := { a.encoding with stale := .empty } }
  change Step.Meets (List.foldlM _ _ a.encoding.stale.keys) unmarked _ _
  have hstart : Refreshed a unmarked := .of_recode hg.arnodes _ rfl
  -- Those still to come are the marked ones.
  refine (Step.Meets.foldlM (fun done _ a' => Refreshed a a' ∧
    Mirror free limits (fun x => x ∈ a.encoding.stale.keys ∧ x ∉ done) a') ⟨hstart, ?_⟩ ?_).imp ?_
  · refine h.of_alike hg (fun _ => rfl) (fun _ => rfl) (fun {x} hx => ⟨fun hstale => hx ⟨?_, by simp⟩, fun _ => rfl⟩)
      (Encoding.retained_of_pool rfl rfl rfl) fun hbound => .inl hbound
    exact SortedMap.mem_keys_iff.mpr hstale
  · rintro done rebuilt id rest a' _ ⟨hrefreshed, hmirror⟩
    rw [Step.meets_bind, Step.meets_get, Step.meets_ite]
    have hrest : ∀ {x}, x ≠ id → ¬(x ∈ a.encoding.stale.keys ∧ x ∉ done ++ [id]) →
        ¬(x ∈ a.encoding.stale.keys ∧ x ∉ done) := by
      rintro x hne hx ⟨hmem, hdone⟩
      exact hx ⟨hmem, by simp [hdone, hne]⟩
    constructor
    · intro hlive
      obtain ⟨v, hv⟩ := Option.isSome_iff_exists.mp hlive
      rw [Step.meets_bind]
      refine (refresh_meets hrefreshed.sound (Graph.body?_of_get? hv)).imp ?_
      rintro _ a'' ⟨equation, hcurrent, hrebalanced⟩
      refine ⟨hrefreshed.trans hrebalanced.refreshed, ?_⟩
      exact hmirror.rebalanced (hrefreshed.recast.grounded hg) (hrefreshed.comparable hc) hcurrent hrebalanced hrest
    · intro hdead
      refine ⟨hrefreshed, hmirror.relus, hmirror.equations, hmirror.headed, fun {x b} hb hx => ?_, hmirror.bounds,
        hmirror.alone, hmirror.issued_iff, hmirror.issuable, hmirror.covered⟩
      refine hmirror.current hb (hrest ?_ hx)
      rintro rfl
      obtain ⟨v, hv, _⟩ := Graph.body?_eq_some_iff.mp hb
      exact hdead (Option.isSome_iff_exists.mpr ⟨v, hv⟩)
  · rintro _ a' ⟨_, hmirror⟩
    exact hmirror.mono fun hx => hx.2 hx.1

/-- What only touches nodes without a holder leaves the mirror alone. -/
theorem of_arnodes_eq (h : Mirror free limits (fun x => a.encoding.isStale x = true) a) (hg : a.Grounded)
    (harnodes : a'.arnodes = a.arnodes) (hencoding : a'.encoding = a.encoding)
    (hinfo : ∀ {m x}, a.holder? m = some x → a'.info? m = a.info? m) :
    Mirror free limits (fun x => a'.encoding.isStale x = true) a' := by
  refine h.of_alike hg (alike_of_arnodes harnodes) hinfo ?_
    (Encoding.retained_of_pool (by rw [hencoding]) (by rw [hencoding]) (by rw [hencoding])) ?_
  · intro x hx
    rw [hencoding] at hx
    exact ⟨hx, fun s => by rw [harnodes]⟩
  · intro v bound hbound
    rw [hencoding] at hbound
    exact .inl hbound

/-- A move keeps the query a mirror of the arnodes: whoever gets another equation is marked. -/
theorem move (h : Mirror free limits (fun x => a.encoding.isStale x = true) a) (hg : a.Grounded) (hmove : Move free a a') :
    Mirror free limits (fun x => a'.encoding.isStale x = true) a' := by
  cases hmove with
  | classify _ hfree hr => exact h.of_arnodes_eq hg hr.arnodes_eq hr.encoding_eq fun hm => hr.info?_of_holder? hfree hm
  | @wrap members id b hsize hw =>
    obtain ⟨e, hborrowed, hencoding⟩ := hw.borrowed
    have hstale : ∀ x, a'.encoding.isStale x = true ↔ x = id ∨ a.encoding.isStale x = true := by
      intro x
      rw [hencoding, Encoding.isStale_markStale, Encoding.isStale, hborrowed.stale_eq]
      rfl
    exact h.wrapped hg hsize hw ((hstale id).mpr (.inl rfl)) fun hx hold => hx ((hstale _).mpr (.inr hold))
  | @unwrap id b _ hu =>
    obtain ⟨e, hremarked, hencoding⟩ := hu.returned
    have hreturned : a'.encoding.stale = e.stale := by rw [hencoding, Encoding.stale_releaseVars]
    refine h.unwrapped hg hu fun {x} hne hx => ?_
    rw [Encoding.isStale, hreturned] at hx
    have hnot := fun hboth => hx ((hremarked.isStale_iff x).mpr ⟨hne, hboth⟩)
    exact ⟨fun hstale => hnot (.inl hstale), by simpa using fun hedge => hnot (.inr hedge)⟩
  | activate hmarks hedges ha =>
    refine h.of_alike hg ?_ (fun _ => by rw [info?_of_nodePart ha.nodePart_eq]) (fun {x} hx => ?_)
      (Encoding.retained_of_pool ha.remarked.pool_eq (by rw [ha.remarked.query_eq]) (by rw [ha.remarked.query_eq]))
      fun {v bound} hbound => .inl (by rw [← ha.remarked.query_eq]; exact hbound)
    · intro x
      rw [ha.body?_eq]
      split
      · next hx =>
        rw [hx, Option.map_map]
        rfl
      · rfl
    · rw [ha.remarked.isStale_iff] at hx
      refine ⟨fun hstale => hx (hmarks x hstale), fun s => ?_⟩
      rw [ha.edge?_eq]
      by_contra hne
      exact hx (hedges s x hne)
  | recount _ heq =>
    subst heq
    exact h.of_arnodes_eq hg rfl rfl fun _ => rfl

/-- So does a change: the bounds that are set are among the limits. -/
theorem change (h : Mirror free limits (fun x => a.encoding.isStale x = true) a) (hg : a.Grounded)
    (hchange : Change free limits Comparable a a') : Mirror free limits (fun x => a'.encoding.isStale x = true) a' := by
  cases hchange with
  | move hmove => exact h.move hg hmove
  | @bound x b m c bound hx hm hc hbound heq =>
    subst heq
    obtain ⟨hrelus, hequations⟩ := Query.relus_setBound a.encoding.query b.data.vars.incoming bound
    refine h.of_alike hg (fun _ => rfl) (fun _ => rfl) (fun hx => ⟨hx, fun _ => rfl⟩)
      (Encoding.retained_of_pool rfl hrelus hequations) fun {v bound'} hnew => ?_
    rcases Query.hasBound_of_setBound hnew with ⟨rfl, rfl⟩ | hold
    · exact .inr ⟨x, b, m, c, hx, rfl, hm, hc, hbound⟩
    · exact .inl hold
  | refresh hripe heq => exact ((h.refreshEquations_meets hg hripe).of_ok heq).mono fun hfalse => hfalse.elim
  | prepare heq =>
    subst heq
    exact h.of_alike hg (fun _ => rfl) (fun _ => rfl) (fun hx => ⟨hx, fun _ => rfl⟩)
      (Encoding.retained_of_pool rfl rfl rfl) fun {v bound} hbound => .inl (by cases bound <;> exact hbound)

/-- Whatever happens to an abstraction, its query stays a mirror of the arnodes. -/
theorem drift {net : Feedforward α} (h : Mirror free limits (fun x => a.encoding.isStale x = true) a)
    (hcoherent : Coherent net a) (hdrift : Drift free limits Comparable a a') :
    Mirror free limits (fun x => a'.encoding.isStale x = true) a' := by
  have hg := hcoherent.grounded
  cases hdrift with
  | change hchange => exact h.change hg hchange
  | lapse hl =>
    obtain ⟨e, he, rfl⟩ := hl
    refine h.of_alike hg (fun _ => rfl) (fun _ => rfl) (fun {x} hx => ⟨?_, fun _ => rfl⟩) he.retained
      fun {v bound} hbound => .inl (by rw [← he.query_eq]; exact hbound)
    rw [Encoding.isStale, ← he.stale_eq]
    exact hx
  | crowd _ _ hcrowded =>
    have harnodes : a'.arnodes = a.arnodes := congrArg (fun p => p.2.1) hcrowded.arnodePart_eq
    have hencoding : a'.encoding = a.encoding := congrArg (fun p => p.2.2.1) hcrowded.arnodePart_eq
    exact h.of_arnodes_eq hg harnodes hencoding fun hm => hcrowded.info?_of_holder? hm

/-- All that happens to an abstraction. -/
theorem drifts {net : Feedforward α} (h : Mirror free limits (fun x => a.encoding.isStale x = true) a)
    (hcoherent : Coherent net a) (hdrifts : Drifts free limits Comparable a a') :
    Mirror free limits (fun x => a'.encoding.isStale x = true) a' :=
  (hdrifts.invariant (I := fun a => Mirror free limits (fun x => a.encoding.isStale x = true) a) hcoherent h
    fun hdrift hb hmirror => hmirror.drift hb hdrift).2

end Mirror

end Abstraction

end ReluAbstraction
