import ReluAbstraction.Proofs.NeuronSplitting
import ReluAbstraction.Proofs.Orderly

/-!
# Two ways to full activation

Full activation either rebuilds the incoming edges of an arnode or trusts those that the layer before has set. In a network
in order both come to the same. The rebuilt edges are the ones that are there, with the same weights, so that putting them
in changes nothing.
-/

namespace ReluAbstraction

namespace Arena

variable {k : EntityKind} {β : Type} {a : Arena k β} {h : Handle k} {v : β}

/-- Replacing an entity by itself. -/
theorem set_self (hv : a.get? h = some v) : a.set h v = .ok a := by
  have hslot := get?_eq_some_iff.mp hv
  have hslots : a.slots.modify h.index (fun slot => { slot with value := some v }) = a.slots := by
    refine Array.ext_getElem? fun i => ?_
    rw [Array.getElem?_modify]
    split
    · next hi =>
      subst hi
      rw [hslot]
      rfl
    · rfl
  simp only [set, hv, hslots]

theorem modify_self {f : β → Except Error β} (hv : a.get? h = some v) (hf : f v = .ok v) : a.modify h f = .ok a := by
  rw [modify_of_get? hv, hf]
  exact set_self hv

end Arena

/-- Putting in an edge that is there. -/
theorem EdgeSet.add_self {α η : Type} {s : EdgeSet α η} {key : EdgeKey} {w : α} {n : η}
    (hkey : key.category.index < s.tables) (he : s.get? key = some ⟨w, n⟩) : s.add key w n = .ok s := by
  have hedges : s.edges.insert key ⟨w, n⟩ = s.edges := by
    refine SortedMap.ext_get? fun key' => ?_
    rw [SortedMap.get?_insert]
    split
    · next heq => rw [heq]; exact he.symm
    · rfl
  rw [EdgeSet.add_eq hkey, hedges]

theorem Vertex.editEdges_self {k : EntityKind} {α δ : Type} {v : Vertex k α δ} {d : Direction}
    {f : EdgeSet α (Handle k) → Except Error (EdgeSet α (Handle k))} (hf : f (v.edges d) = .ok (v.edges d)) :
    v.editEdges d f = .ok v := by
  rw [editEdges, hf]
  cases d <;> rfl

namespace Graph

variable {k : EntityKind} {α δ : Type} {g : Graph k α δ} {tables : Nat} {E : Handle k → Handle k → Option α}

theorem edit_meets_self {id : Handle k} {v : Vertex k α δ} {f : Vertex k α δ → Except Error (Vertex k α δ)}
    (hv : g.get? id = some v) (hf : f v = .ok v) : (edit id f).Meets g (fun _ g' => g' = g) Step.Never := by
  rw [edit, Step.meets_update, Arena.modify_self hv hf]

/-- Linking a pair with the weight that it has. -/
theorem Realizes.link_meets_self (hg : g.Realizes tables E) {d : Direction} {x y : Handle k} {w : α}
    (hw : d.along E x y = some w) : (link x d y w true).Meets g (fun _ g' => g' = g) Step.Never := by
  obtain ⟨v, u, hv, hu, -⟩ := hg.faces hw
  have hnear : (v.edges d).get? u.location.key = some ⟨w, y⟩ := (hg.edges_iff hv d _ w y).mpr ⟨u, hu, rfl, hw⟩
  have hfar : (u.edges d.reverse).get? v.location.key = some ⟨w, x⟩ :=
    (hg.edges_iff hu d.reverse _ w x).mpr ⟨v, hv, rfl, by rw [Direction.along_reverse]; exact hw⟩
  unfold link
  rw [Step.meets_bind]
  refine find_meets hu ?_
  rw [Step.meets_bind]
  refine find_meets hv ?_
  rw [Step.meets_bind]
  have hadd := EdgeSet.add_self (by rw [hg.sized hv]; exact hg.covered hu) hnear
  refine (edit_meets_self hv (Vertex.editEdges_self hadd)).imp ?_
  rintro _ _ rfl
  have hadd' := EdgeSet.add_self (by rw [hg.sized hu]; exact hg.covered hv) hfar
  exact edit_meets_self hu (Vertex.editEdges_self hadd')

end Graph

namespace Abstraction

variable {α : Type} {a : Abstraction α} {id : ArNodeId} {v : ArNode α}

/-- Moving the state on replaces one arnode and leaves all else alone. -/
theorem exists_advanced (hv : a.arnodes.get? id = some v) (state : ActivationState)
    (hrank : v.data.state.rank ≤ state.rank) :
    ∃ arnodes, a.arnodes.set id { v with data := { v.data with state } } = .ok arnodes ∧
      ∀ encoding, advance id state { a with encoding } = .ok () { a with arnodes, encoding } := by
  obtain ⟨arnodes, hset, -⟩ := Arena.set_spec (v := { v with data := { v.data with state } }) hv
  refine ⟨arnodes, hset, fun encoding => Step.Meets.eq_ok ?_⟩
  have hadvance : v.data.state.advance state = .ok state := by simp [ActivationState.advance, Nat.not_lt.mpr hrank]
  have hmodify : a.arnodes.modify id (fun v => do
      return { v with data := { v.data with state := ← v.data.state.advance state } }) = .ok arnodes := by
    rw [Arena.modify_of_get? hv, hadvance]
    exact hset
  rw [advance, onArnodes, Step.meets_zoom, Graph.edit, Step.meets_update, hmodify]

variable [Scalar α]

/-- The calls that take an arnode to a later state. -/
def activations (id : ArNodeId) : List (Step (Abstraction α) Unit) :=
  [forwardActivate id, fullyActivate id, confirm id false, confirm id true]

theorem forwardActivate_of_forward (hv : a.arnodes.get? id = some v) (hstate : v.data.state.isForward = true) :
    forwardActivate id a = .ok () a := by
  refine Step.Meets.eq_ok ?_
  have hread : a.arnode id = .ok v := Arena.get_of_get? hv
  rw [forwardActivate, Step.meets_bind, Step.meets_read, hread]
  simp only [hstate, if_true]
  rfl

/-- A fully activated arnode is not activated again. -/
theorem activations_of_full (hv : a.arnodes.get? id = some v) (hstate : v.data.state = .fullyActivated) :
    ∀ again ∈ activations id, again a = .ok () a := by
  have hread : a.arnode id = .ok v := Arena.get_of_get? hv
  have hconfirm : ∀ check, confirm id check a = .ok () a := by
    intro check
    refine Step.Meets.eq_ok ?_
    rw [confirm, Step.meets_bind, Step.meets_read, hread]
    simp only [hstate, if_true]
    rfl
  have hfull : fullyActivate id a = .ok () a := by
    refine Step.Meets.eq_ok ?_
    rw [fullyActivate, Step.meets_bind, Step.meets_read, hread]
    simp only [hstate, if_true]
    rfl
  have hforward := forwardActivate_of_forward hv (by rw [hstate]; rfl)
  simp [activations, hforward, hfull, hconfirm]

/-- Setting an edge to its fold when that is its weight. -/
theorem Grounded.recalculate_meets_self (h : a.Grounded) {source : ArNodeId} {w : α} (hw : a.folded? source id = some w)
    (hedge : a.arnodes.edge? source id = some w) : (recalculate id source).Meets a (fun _ a' => a' = a) Step.Never := by
  obtain ⟨s, t, _, hs, ht, _⟩ := h.owned.isSome_folded?_iff.mp (Option.isSome_of_eq_some hw)
  obtain ⟨b, hb, _⟩ := h.owned.holder hs
  obtain ⟨c, hc, _⟩ := h.owned.holder ht
  rw [recalculate, Step.meets_bind, Step.meets_read, h.abstractWeight?_eq hb hc (h.layer_of_folded? hb hc hw), hw]
  dsimp only
  rw [onArnodes, Step.meets_zoom]
  refine (h.arnodes.graph.link_meets_self (d := .incoming) hedge).mono ?_ fun _ _ hfalse => hfalse.elim
  rintro _ _ rfl
  rfl

/-- In a network in order, an arnode whose sources have their outgoing edges has all of its incoming folds as edges, so that
both ways to full activation only move its state on; rebuilding also marks it. -/
theorem Woven.full_activations (h : Woven a none) (hv : a.arnodes.get? id = some v)
    (hstate : v.data.state = .forwardActivated)
    (hheld : ∀ m ∈ v.data.members, ∀ s w, a.nodes.edge? s m = some w → (a.holder? s).isSome)
    (hready : ∀ x, (a.folded? x id).isSome → a.isForward x = true) :
    ∃ arnodes, a.arnodes.set id { v with data := { v.data with state := .fullyActivated } } = .ok arnodes ∧
      (∀ check, Abstraction.confirm id check a = .ok () { a with arnodes }) ∧
      fullyActivate id a = .ok () { a with arnodes, encoding := a.encoding.markStale id } := by
  obtain ⟨arnodes, hset, hadvance⟩ := exists_advanced hv .fullyActivated (by rw [hstate]; decide)
  refine ⟨arnodes, hset, fun check => Step.Meets.eq_ok ?_, Step.Meets.eq_ok ?_⟩
  · refine confirm_meets_of_advance h.grounded hv hstate (fun x w hw => (h.of_edge hw).1) check ?_
    exact Step.meets_of_eq_ok (hadvance a.encoding) rfl
  · refine fullyActivate_meets_of_recalculate h.grounded hv hstate hheld hready
      (fun x w hw => Option.isSome_of_eq_some (h.of_edge hw).2) fun sources hmem => ?_
    rw [Step.meets_bind]
    refine (Step.Meets.forM (fun _ a' => a' = a) rfl ?_).imp ?_
    · rintro done x rest a' hsplit rfl
      have hsome := (hmem x).mp (by simp [hsplit])
      obtain ⟨w, hw⟩ := Option.isSome_iff_exists.mp hsome
      refine h.grounded.recalculate_meets_self hw ?_
      rw [h.edge?_eq, if_pos ⟨hready x hsome, by simp⟩, hw]
    · rintro _ a' rfl
      rw [Step.meets_bind, recode, Step.meets_modify]
      exact Step.meets_of_eq_ok (hadvance _) rfl

end Abstraction

namespace Network

/-- Calls that all succeed. -/
theorem ReachesInOrder.of_calls {α : Type} [Scalar α] {start n n' : Network α} (h : ReachesInOrder start n)
    {calls : List (Call α)} (hrun : calls.forM Call.run n = .ok () n') : ReachesInOrder start n' := by
  induction calls generalizing n with
  | nil =>
    cases hrun
    exact h
  | cons c calls ih =>
    have hbind : (c.run >>= fun _ => calls.forM Call.run) n = .ok () n' := hrun
    cases hc : c.run n with
    | ok _ n₁ =>
      simp only [bind, EStateM.bind, hc] at hbind
      exact ih (h.of_ok c hc) hbind
    | error e n₁ =>
      simp only [bind, EStateM.bind, hc] at hbind
      cases hbind

variable {α : Type} [Scalar α] {net : Feedforward α} {property : Property α} {start n : Network α} {options : Options}

/-- The two ways to full activation agree. In a network reached by calls whose stages were in turn, let a forward activated
arnode have all of its members' incoming neighbours in arnodes that are forward activated. Then rebuilding its edges and
trusting them, with and without a check, succeed and replace this arnode by itself, fully activated; all else stays, except
that rebuilding marks it. Activating it once more changes nothing. -/
theorem full_activations_agree (hbuild : build net property options = .ok start) (hreach : ReachesInOrder start n)
    {id : ArNodeId} {v : ArNode α} (hv : n.abstraction.arnodes.get? id = some v)
    (hstate : v.data.state = .forwardActivated)
    (hsources : ∀ m ∈ v.data.members, ∀ u, n.abstraction.nodes.get? m = some u → ∀ s ∈ u.incoming.neighbors,
      ∃ x, n.abstraction.holder? s = some x ∧ n.abstraction.isForward x = true) :
    ∃ arnodes,
      n.abstraction.arnodes.set id { v with data := { v.data with state := .fullyActivated } } = .ok arnodes ∧
      (∀ check, Abstraction.confirm id check n.abstraction = .ok () { n.abstraction with arnodes }) ∧
      Abstraction.fullyActivate id n.abstraction =
        .ok () { n.abstraction with arnodes, encoding := n.abstraction.encoding.markStale id } ∧
      Abstraction.forwardActivate id n.abstraction = .ok () n.abstraction ∧
      ∀ again ∈ Abstraction.activations id, ∀ encoding,
        again { n.abstraction with arnodes, encoding } = .ok () { n.abstraction with arnodes, encoding } := by
  have hw := (hreach.orderly hbuild).woven
  have hfrom : ∀ m ∈ v.data.members, ∀ s w, n.abstraction.nodes.edge? s m = some w →
      ∃ x, n.abstraction.holder? s = some x ∧ n.abstraction.isForward x = true := by
    intro m hm s w hedge
    obtain ⟨_, u, _, hu, _⟩ := hw.grounded.nodes.graph.ends hedge
    exact hsources m hm u hu s ((hw.grounded.nodes.graph.mem_neighbors_iff (d := .incoming) hu).mpr ⟨w, hedge⟩)
  have hready : ∀ x, (n.abstraction.folded? x id).isSome → n.abstraction.isForward x = true := by
    intro x hx
    obtain ⟨s, t, w, hs, ht, hedge⟩ := hw.grounded.owned.isSome_folded?_iff.mp hx
    obtain ⟨b, hb, hmem⟩ := hw.grounded.owned.holder ht
    rw [Graph.body?_of_get? hv] at hb
    cases hb
    obtain ⟨y, hy, hforward⟩ := hfrom t hmem s w hedge
    rw [hs] at hy
    cases hy
    exact hforward
  have hheld : ∀ m ∈ v.data.members, ∀ s w, n.abstraction.nodes.edge? s m = some w →
      (n.abstraction.holder? s).isSome := by
    intro m hm s w hedge
    obtain ⟨x, hx, _⟩ := hfrom m hm s w hedge
    exact Option.isSome_of_eq_some hx
  obtain ⟨arnodes, hset, hconfirm, hfull⟩ := hw.full_activations hv hstate hheld hready
  refine ⟨arnodes, hset, hconfirm, hfull, Abstraction.forwardActivate_of_forward hv (by rw [hstate]; rfl), ?_⟩
  intro again hagain encoding
  obtain ⟨arnodes', hset', hget, -⟩ := Arena.set_spec (v := { v with data := { v.data with state := .fullyActivated } }) hv
  rw [hset] at hset'
  cases hset'
  exact Abstraction.activations_of_full (a := { n.abstraction with arnodes, encoding }) ((hget id).trans (if_pos rfl)) rfl
    again hagain

/-- In the forked network with every layer preprocessed and forward activated, the arnode of the second hidden neuron has
incoming edges and can be activated in both ways. -/
theorem full_activations_agree_fork : ∃ start n v arnodes, build .fork ⟨.maximize, 0, 1⟩ .standard = .ok start ∧
    ReachesInOrder start n ∧ n.abstraction.arnodes.get? ⟨4, 0⟩ = some v ∧ v.data.state = .forwardActivated ∧
    v.incoming.isEmpty = false ∧
    n.abstraction.arnodes.set ⟨4, 0⟩ { v with data := { v.data with state := .fullyActivated } } = .ok arnodes ∧
    (∀ check, Abstraction.confirm ⟨4, 0⟩ check n.abstraction = .ok () { n.abstraction with arnodes }) ∧
    Abstraction.fullyActivate ⟨4, 0⟩ n.abstraction =
      .ok () { n.abstraction with arnodes, encoding := n.abstraction.encoding.markStale ⟨4, 0⟩ } := by
  obtain ⟨start, hbuild, hmeets⟩ := exists_ok_of_toOption (r := build .fork ⟨.maximize, 0, 1⟩ .standard)
    (P := fun start => ([Call.preprocess, .preprocess, .preprocess, .forward, .forward, .forward].forM Call.run).Meets start
      (fun _ n => ∃ v ∈ n.abstraction.arnodes.get? ⟨4, 0⟩, v.data.state = .forwardActivated ∧ v.incoming.isEmpty = false ∧
        ∀ m ∈ v.data.members, ∀ u ∈ n.abstraction.nodes.get? m, ∀ s ∈ u.incoming.neighbors,
          ∃ x ∈ n.abstraction.holder? s, n.abstraction.isForward x = true) Step.Never) (by decide +kernel)
  obtain ⟨_, n, hcalls, v, hv, hstate, hedges, hready⟩ := hmeets.exists_ok
  have hreach : ReachesInOrder start n := .of_calls .refl hcalls
  obtain ⟨arnodes, hset, hconfirm, hfull, -⟩ := full_activations_agree hbuild hreach hv hstate hready
  exact ⟨start, n, v, arnodes, hbuild, hreach, hv, hstate, hedges, hset, hconfirm, hfull⟩

end Network

end ReluAbstraction
