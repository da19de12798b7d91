import ReluAbstraction.Proofs.Graph

/-!
# What the edits of a graph do to its relation

For each edit, what it leaves of the vertices and of the relation that the graph stands for. On a graph that realizes a
relation none of them fails, except that an arena may have no slot left for a new vertex.
-/

namespace ReluAbstraction

section Lookup

variable {ι η β : Type} [DecidableEq η] {xs : List ι} {key : ι → η} {value : ι → β} {y : η} {b : β}

/-- Value of the first element with the given key. -/
def lookupBy (xs : List ι) (key : ι → η) (value : ι → β) (y : η) : Option β :=
  (xs.find? fun e => key e = y).map value

theorem lookupBy_eq_none_iff : lookupBy xs key value y = none ↔ ∀ e ∈ xs, key e ≠ y := by simp [lookupBy]

theorem exists_of_lookupBy (h : lookupBy xs key value y = some b) : ∃ e ∈ xs, key e = y ∧ value e = b := by
  obtain ⟨e, he, hb⟩ := Option.map_eq_some_iff.mp h
  have hkey := List.find?_some he
  exact ⟨e, List.mem_of_find?_eq_some he, by simpa using hkey, hb⟩

/-- Where no key comes twice, look-up finds every element. -/
theorem lookupBy_eq_some_iff (hnodup : (xs.map key).Nodup) :
    lookupBy xs key value y = some b ↔ ∃ e ∈ xs, key e = y ∧ value e = b := by
  refine ⟨exists_of_lookupBy, ?_⟩
  rintro ⟨e, he, rfl, rfl⟩
  cases hfind : lookupBy xs key value (key e) with
  | none => exact absurd rfl (lookupBy_eq_none_iff.mp hfind e he)
  | some b =>
    obtain ⟨e', he', hkey, rfl⟩ := exists_of_lookupBy hfind
    rw [List.inj_on_of_nodup_map hnodup he' he hkey]

theorem lookupBy_append (ys : List ι) :
    lookupBy (xs ++ ys) key value y = (lookupBy xs key value y).or (lookupBy ys key value y) := by
  simp [lookupBy, List.find?_append, Option.map_or]

end Lookup

namespace Direction

variable {η α : Type} [DecidableEq η]

/-- The relation in which the pair of `a` and its neighbour `b` on side `d` has weight `w`. -/
def assign (E : η → η → Option α) (d : Direction) (a b : η) (w : α) : η → η → Option α :=
  match d with
  | .incoming => fun x y => if x = b ∧ y = a then some w else E x y
  | .outgoing => fun x y => if x = a ∧ y = b then some w else E x y

/-- Both ends see the new weight, and no other pair changes. -/
theorem along_assign (E : η → η → Option α) (d d' : Direction) (a b x y : η) (w : α) :
    d'.along (assign E d a b w) x y =
      if d' = d ∧ x = a ∧ y = b ∨ d' = d.reverse ∧ x = b ∧ y = a then some w else d'.along E x y := by
  cases d <;> cases d' <;> simp [along, assign, reverse, and_comm]

/-- Setting the weights of several pairs of one vertex. -/
theorem along_foldl_assign {ι : Type} (E : η → η → Option α) (d : Direction) (a : η) {xs : List ι} {other : ι → η}
    (weight : ι → α) (hnodup : (xs.map other).Nodup) (x y : η) :
    d.along (xs.foldl (fun F e => assign F d a (other e) (weight e)) E) x y =
      if x = a then (lookupBy xs other weight y).or (d.along E x y) else d.along E x y := by
  induction xs generalizing E with
  | nil => simp [lookupBy]
  | cons e rest ih =>
    rw [List.map_cons, List.nodup_cons] at hnodup
    have hd : d ≠ d.reverse := (reverse_ne d).symm
    rw [List.foldl_cons, ih _ hnodup.2, along_assign]
    by_cases hx : x = a
    · by_cases hy : other e = y
      · have hrest : rest.find? (fun e => decide (other e = y)) = none := by
          rw [List.find?_eq_none]
          intro e' he' heq
          exact hnodup.1 (List.mem_map.mpr ⟨e', he', (of_decide_eq_true heq).trans hy.symm⟩)
        simp [lookupBy, hx, hy, hrest]
      · simp [lookupBy, hx, hy, Ne.symm hy, hd]
    · simp [hx, hd]

end Direction

/-- The edge set with the edge under `old`, if there is one, moved to `new`. -/
def EdgeSet.rekey {α η : Type} (s : EdgeSet α η) (old new : EdgeKey) : EdgeSet α η :=
  match s.get? old with
  | some e => { s with edges := (s.edges.erase old).insert new e }
  | none => s

/-- The edge set without the edge under a key. -/
def EdgeSet.without {α η : Type} (s : EdgeSet α η) (key : EdgeKey) : EdgeSet α η := { s with edges := s.edges.erase key }

namespace EdgeSet

variable {α η : Type} {s : EdgeSet α η} {old new : EdgeKey} {e : Edge α η}

theorem get?_rekey (he : s.get? old = some e) (key : EdgeKey) :
    (s.rekey old new).get? key = if key = new then some e else if key = old then none else s.get? key := by
  unfold rekey
  rw [he]
  change ((s.edges.erase old).insert new e).get? key = _
  rw [SortedMap.get?_insert, SortedMap.get?_erase]
  rfl

@[simp] theorem tables_rekey : (s.rekey old new).tables = s.tables := by
  unfold rekey
  split <;> rfl

end EdgeSet

namespace Vertex

variable {k : EntityKind} {α δ : Type}

theorem eq_of_edges {v u : Vertex k α δ} (hbody : v.body = u.body) (hedges : ∀ d, v.edges d = u.edges d) : v = u := by
  have hin : v.incoming = u.incoming := hedges .incoming
  have hout : v.outgoing = u.outgoing := hedges .outgoing
  obtain ⟨location, movable, incoming, outgoing, data⟩ := v
  obtain ⟨location', movable', incoming', outgoing', data'⟩ := u
  simp only [body, Body.mk.injEq] at hbody
  simp_all

/-- The vertex with the edges on some sides changed. -/
def retouch (r : EdgeSet α (Handle k) → EdgeSet α (Handle k)) (sides : Direction → Prop) [DecidablePred sides]
    (v : Vertex k α δ) : Vertex k α δ :=
  { v with
    incoming := if sides .incoming then r v.incoming else v.incoming
    outgoing := if sides .outgoing then r v.outgoing else v.outgoing }

variable (r : EdgeSet α (Handle k) → EdgeSet α (Handle k)) (sides : Direction → Prop) [DecidablePred sides]
  (v : Vertex k α δ)

@[simp] theorem body_retouch : (v.retouch r sides).body = v.body := rfl

theorem edges_retouch (d : Direction) : (v.retouch r sides).edges d = if sides d then r (v.edges d) else v.edges d := by
  cases d <;> rfl

end Vertex

namespace Graph

variable {k : EntityKind} {α δ : Type} {g : Graph k α δ}

/-- What holds after the vertex under `id` became `v`. -/
structure Edited (g g' : Graph k α δ) (id : Handle k) (v : Vertex k α δ) : Prop where
  get?_eq : ∀ x, g'.get? x = if x = id then some v else g.get? x
  arena : Arena.WellFormed g → Arena.WellFormed g'
  size_eq : g'.slots.size = g.slots.size

theorem edit_meets {id : Handle k} {v v' : Vertex k α δ} {f : Vertex k α δ → Except Error (Vertex k α δ)}
    (hv : g.get? id = some v) (hf : f v = .ok v') :
    (edit id f).Meets g (fun _ g' => Edited g g' id v') Step.Never := by
  obtain ⟨g', hmodify, hget, hwf, hsize⟩ := Arena.modify_spec hv hf
  rw [edit, Step.meets_update, hmodify]
  exact ⟨hget, hwf, hsize⟩

theorem find_meets {id : Handle k} {v : Vertex k α δ} (hv : g.get? id = some v)
    {post : Vertex k α δ → Graph k α δ → Prop} {fail : Error → Graph k α δ → Prop} (h : post v g) :
    (find id).Meets g post fail := by
  rw [find, Step.meets_read, Arena.get_of_get? hv]
  exact h

/-- What starts by looking up a vertex that is gone changes nothing. -/
theorem find_bind_meets_of_none {β : Type} {id : Handle k} (hid : g.get? id = none)
    {next : Vertex k α δ → Step (Graph k α δ) β} {post : β → Graph k α δ → Prop} {fail : Error → Graph k α δ → Prop}
    (h : fail (.usedAfterDestroy k id.index) g) : (find id >>= next).Meets g post fail := by
  rw [Step.meets_bind, find, Step.meets_read, Arena.get_of_none hid]
  exact h

theorem edit_meets_of_none {id : Handle k} (hid : g.get? id = none) {f : Vertex k α δ → Except Error (Vertex k α δ)}
    {post : Unit → Graph k α δ → Prop} {fail : Error → Graph k α δ → Prop} (h : fail (.usedAfterDestroy k id.index) g) :
    (edit id f).Meets g post fail := by
  rw [edit, Step.meets_update, Arena.modify_of_none hid]
  exact h

theorem edit_meets_of_error {id : Handle k} {v : Vertex k α δ} {f : Vertex k α δ → Except Error (Vertex k α δ)} {e : Error}
    (hv : g.get? id = some v) (hf : f v = .error e) {post : Unit → Graph k α δ → Prop} {fail : Error → Graph k α δ → Prop}
    (h : fail e g) : (edit id f).Meets g post fail := by
  rw [edit, Step.meets_update, Arena.modify_of_get? hv, hf]
  exact h

/-- Removing an edge at one end. -/
theorem dropEdge_meets {id : Handle k} {v : Vertex k α δ} {d : Direction} {key : EdgeKey} {e : Edge α (Handle k)}
    (hv : g.get? id = some v) (hkey : key.category.index < (v.edges d).tables) (he : (v.edges d).get? key = some e) :
    (dropEdge id d key).Meets g (fun e' g' => e' = e ∧ Edited g g' id (v.setEdges d ((v.edges d).without key))) Step.Never := by
  unfold dropEdge
  rw [Step.meets_bind]
  refine find_meets hv ?_
  rw [Step.meets_bind, Step.meets_ofExcept, EdgeSet.remove_eq hkey he]
  dsimp only
  rw [Step.meets_bind]
  have hedit := edit_meets (f := fun u => .ok (u.setEdges d ((v.edges d).without key))) hv rfl
  exact hedit.imp fun _ _ hedited => ⟨rfl, hedited⟩

/-- What holds after the edges on the far side of each listed neighbour were changed by `r`. -/
structure Retouched (g g' : Graph k α δ) (r : EdgeSet α (Handle k) → EdgeSet α (Handle k))
    (list : List (Direction × Handle k)) : Prop where
  get?_eq : ∀ x, g'.get? x = (g.get? x).map (·.retouch r fun d => (d.reverse, x) ∈ list)
  arena : Arena.WellFormed g → Arena.WellFormed g'
  size_eq : g'.slots.size = g.slots.size

namespace Retouched

variable {r : EdgeSet α (Handle k) → EdgeSet α (Handle k)}

theorem refl (g : Graph k α δ) (r : EdgeSet α (Handle k) → EdgeSet α (Handle k)) : Retouched g g r [] := by
  refine ⟨fun x => ?_, id, rfl⟩
  cases hx : g.get? x with
  | none => rfl
  | some u => simp [Vertex.retouch]

/-- The order of the neighbours does not matter. -/
theorem of_perm {g' : Graph k α δ} {list list' : List (Direction × Handle k)} (h : Retouched g g' r list)
    (hperm : list.Perm list') : Retouched g g' r list' := by
  refine ⟨fun x => ?_, h.arena, h.size_eq⟩
  simp only [h.get?_eq, hperm.mem_iff]

/-- Changing the edges at one more neighbour. -/
theorem edited {g' g'' : Graph k α δ} {done : List (Direction × Handle k)} {d : Direction} {x : Handle k}
    {u : Vertex k α δ} (h : Retouched g g' r done) (hu : g.get? x = some u)
    (hedit : Edited g' g'' x
      ((u.retouch r fun d => (d.reverse, x) ∈ done).setEdges d.reverse (r (u.edges d.reverse)))) :
    Retouched g g'' r (done ++ [(d, x)]) := by
  refine ⟨fun y => ?_, fun hw => hedit.arena (h.arena hw), hedit.size_eq.trans h.size_eq⟩
  rw [hedit.get?_eq]
  by_cases hy : y = x
  · subst hy
    rw [if_pos rfl, hu, Option.map_some, Option.some.injEq]
    refine Vertex.eq_of_edges ?_ fun d' => ?_
    · rw [Vertex.body_setEdges, Vertex.body_retouch, Vertex.body_retouch]
    · rw [Vertex.edges_setEdges, Vertex.edges_retouch, Vertex.edges_retouch]
      by_cases hd : d' = d.reverse
      · subst hd
        simp
      · have hd' : d'.reverse ≠ d := by
          rintro rfl
          simp at hd
        simp [hd, hd']
  · rw [if_neg hy, h.get?_eq]
    simp [hy]

end Retouched

/-- A loop that changes the edges at each listed neighbour. As no neighbour is listed twice on a side, each change sees
the edges that were there at the start. -/
theorem forM_retouch_meets {list : List (Direction × Handle k)} (hnodup : list.Nodup)
    {step : Direction × Handle k → Step (Graph k α δ) PUnit} {r : EdgeSet α (Handle k) → EdgeSet α (Handle k)}
    (hstep : ∀ d x u, (d, x) ∈ list → g.get? x = some u → ∀ g' u', Arena.get? g' x = some u' →
      u'.edges d.reverse = u.edges d.reverse → (step (d, x)).Meets g'
        (fun _ g'' => Edited g' g'' x (u'.setEdges d.reverse (r (u.edges d.reverse)))) Step.Never)
    (hlive : ∀ d x, (d, x) ∈ list → ∃ u, g.get? x = some u) :
    (list.forM step).Meets g (fun _ g' => Retouched g g' r list) Step.Never := by
  refine Step.Meets.forM (fun done g' => Retouched g g' r done) (.refl g r) ?_
  rintro done ⟨d, x⟩ rest g' hlist hdone
  have hmem : (d, x) ∈ list := by simp [hlist]
  obtain ⟨u, hu⟩ := hlive d x hmem
  have hnot : (d, x) ∉ done := by
    rw [hlist] at hnodup
    intro hmem
    exact (List.nodup_append.mp hnodup).2.2 _ hmem _ (by simp) rfl
  have hx := hdone.get?_eq x
  rw [hu, Option.map_some] at hx
  have hsame : (u.retouch r fun d => (d.reverse, x) ∈ done).edges d.reverse = u.edges d.reverse := by
    rw [Vertex.edges_retouch, Direction.reverse_reverse, if_neg hnot]
  exact (hstep d x u hmem hu g' _ hx hsame).imp fun _ g'' hedit => hdone.edited hu hedit

variable {tables : Nat} {E : Handle k → Handle k → Option α}

/-- A graph with the same vertices at the same places realizes a relation as soon as its records, read with the places of
the old graph, are those of the relation. -/
theorem Realizes.of_same_places {g' : Graph k α δ} {E' : Handle k → Handle k → Option α} (hg : g.Realizes tables E)
    (hwf : Arena.WellFormed g')
    (hplaces : ∀ x, (Arena.get? g' x).map Vertex.location = (g.get? x).map Vertex.location)
    (hsized : ∀ {a v'}, Arena.get? g' a = some v' → ∀ d, (v'.edges d).tables = tables)
    (hedges : ∀ {a v'}, Arena.get? g' a = some v' → ∀ d key w b, (v'.edges d).get? key = some ⟨w, b⟩ ↔
      ∃ u, g.get? b = some u ∧ u.location.key = key ∧ d.along E' a b = some w)
    (hends : ∀ {a b w}, E' a b = some w → ∃ v u, g.get? a = some v ∧ g.get? b = some u ∧
      u.location.layer = v.location.layer + 1) : g'.Realizes tables E' := by
  have hforward : ∀ {x u'}, Arena.get? g' x = some u' → ∃ u, g.get? x = some u ∧ u'.location = u.location := by
    intro x u' hx
    have hplace := hplaces x
    rw [hx, Option.map_some, eq_comm, Option.map_eq_some_iff] at hplace
    obtain ⟨u, hu, hlocation⟩ := hplace
    exact ⟨u, hu, hlocation.symm⟩
  have hbackward : ∀ {x u}, g.get? x = some u → ∃ u', Arena.get? g' x = some u' ∧ u'.location = u.location := by
    intro x u hx
    have hplace := hplaces x
    rw [hx, Option.map_some, Option.map_eq_some_iff] at hplace
    exact hplace
  refine ⟨hwf, hsized, ?_, ?_, ?_, ?_⟩
  · intro a u' ha
    obtain ⟨u, hu, hplace⟩ := hforward ha
    rw [hplace]
    exact hg.covered hu
  · intro a b u' w' ha hb hplace
    obtain ⟨u, hu, hpu⟩ := hforward ha
    obtain ⟨w, hw, hpw⟩ := hforward hb
    exact hg.place_unique hu hw (by rw [← hpu, ← hpw, hplace])
  · intro a v' ha d key w b
    rw [hedges ha]
    constructor
    · rintro ⟨u, hu, hkey, hE⟩
      obtain ⟨u', hu', hplace⟩ := hbackward hu
      exact ⟨u', hu', by rw [hplace, hkey], hE⟩
    · rintro ⟨u', hu', hkey, hE⟩
      obtain ⟨u, hu, hplace⟩ := hforward hu'
      exact ⟨u, hu, by rw [← hplace, hkey], hE⟩
  · intro a b w hE
    obtain ⟨v, u, hv, hu, hlayer⟩ := hends hE
    obtain ⟨v', hv', hpv⟩ := hbackward hv
    obtain ⟨u', hu', hpu⟩ := hbackward hu
    exact ⟨v', u', hv', hu', by rw [hpv, hpu, hlayer]⟩

/-- Changing what a vertex stands for, or whether it may move, keeps the relation. -/
theorem Realizes.of_edited {g' : Graph k α δ} {id : Handle k} {v v' : Vertex k α δ} (hg : g.Realizes tables E)
    (hv : g.get? id = some v) (hedit : Edited g g' id v') (hlocation : v'.location = v.location)
    (hedges : ∀ d, v'.edges d = v.edges d) : g'.Realizes tables E := by
  have hsame : ∀ {x u'}, Arena.get? g' x = some u' → ∃ u, g.get? x = some u ∧ ∀ d, u'.edges d = u.edges d := by
    intro x u' hx
    rw [hedit.get?_eq] at hx
    split at hx
    · next heq =>
      injection hx with hx
      subst hx
      exact ⟨v, by rw [heq]; exact hv, hedges⟩
    · exact ⟨u', hx, fun _ => rfl⟩
  refine hg.of_same_places (hedit.arena hg.arena) (fun x => ?_) (fun hx d => ?_) (fun hx d key w b => ?_) hg.ends
  · rw [hedit.get?_eq]
    split
    · next heq => rw [heq, hv, Option.map_some, Option.map_some, hlocation]
    · rfl
  · obtain ⟨u, hu, hu'⟩ := hsame hx
    rw [hu']
    exact hg.sized hu d
  · obtain ⟨u, hu, hu'⟩ := hsame hx
    rw [hu']
    exact hg.edges_iff hu d key w b

/-- What holds after the edges of `a` on side `d` and those of `b` on the other side were replaced. -/
structure Rewired (g g' : Graph k α δ) (d : Direction) (a b : Handle k) (v u : Vertex k α δ)
    (near far : EdgeSet α (Handle k)) : Prop where
  get?_eq : ∀ x, g'.get? x =
    if x = b then some (u.setEdges d.reverse far) else if x = a then some (v.setEdges d near) else g.get? x
  arena : Arena.WellFormed g → Arena.WellFormed g'
  size_eq : g'.slots.size = g.slots.size

theorem Edited.rewired {g₁ g₂ : Graph k α δ} {d : Direction} {a b : Handle k} {v u : Vertex k α δ}
    {near far : EdgeSet α (Handle k)} (h₁ : Edited g g₁ a (v.setEdges d near))
    (h₂ : Edited g₁ g₂ b (u.setEdges d.reverse far)) : Rewired g g₂ d a b v u near far where
  get?_eq x := by rw [h₂.get?_eq, h₁.get?_eq]
  arena hwf := h₂.arena (h₁.arena hwf)
  size_eq := h₂.size_eq.trans h₁.size_eq

theorem Rewired.body?_eq {g' : Graph k α δ} {d : Direction} {a b : Handle k} {v u : Vertex k α δ}
    {near far : EdgeSet α (Handle k)} (h : Rewired g g' d a b v u near far) (ha : g.get? a = some v)
    (hb : g.get? b = some u) (x : Handle k) : g'.body? x = g.body? x := by
  unfold body?
  rw [h.get?_eq]
  by_cases hxb : x = b
  · subst hxb
    simp [hb]
  · by_cases hxa : x = a
    · subst hxa
      simp [hxb, ha]
    · simp [hxb, hxa]

/-- The graph realizes a new relation that differs from the old one in one pair only, if the two ends record it so. -/
theorem Rewired.realizes {g' : Graph k α δ} {d : Direction} {a b : Handle k} {v u : Vertex k α δ}
    {near far : EdgeSet α (Handle k)} {E' : Handle k → Handle k → Option α} (h : Rewired g g' d a b v u near far)
    (hg : g.Realizes tables E) (ha : g.get? a = some v) (hb : g.get? b = some u) (hnear : near.tables = tables)
    (hfar : far.tables = tables)
    (hown : ∀ d' key w x, ((v.setEdges d near).edges d').get? key = some ⟨w, x⟩ ↔
      ∃ y, g.get? x = some y ∧ y.location.key = key ∧ d'.along E' a x = some w)
    (hother : ∀ d' key w x, ((u.setEdges d.reverse far).edges d').get? key = some ⟨w, x⟩ ↔
      ∃ y, g.get? x = some y ∧ y.location.key = key ∧ d'.along E' b x = some w)
    (hsame : ∀ (d' : Direction) x y, x ≠ a → x ≠ b → d'.along E' x y = d'.along E x y)
    (hends : ∀ {x y w}, E' x y = some w → ∃ p q, g.get? x = some p ∧ g.get? y = some q ∧
      q.location.layer = p.location.layer + 1) : g'.Realizes tables E' := by
  refine hg.of_same_places (h.arena hg.arena) (fun x => ?_) (fun {x y'} hx d' => ?_) (fun {x y'} hx d' key w z => ?_) hends
  · have hx := congrArg (Option.map Body.location) (h.body?_eq ha hb x)
    simpa [body?, Function.comp_def] using hx
  · rw [h.get?_eq] at hx
    split at hx
    · injection hx with hx
      rw [← hx, Vertex.edges_setEdges]
      split
      · exact hfar
      · exact hg.sized hb _
    · split at hx
      · injection hx with hx
        rw [← hx, Vertex.edges_setEdges]
        split
        · exact hnear
        · exact hg.sized ha _
      · exact hg.sized hx d'
  · rw [h.get?_eq] at hx
    split at hx
    · next hxb =>
      injection hx with hx
      rw [← hx, hxb]
      exact hother d' key w z
    · next hxb =>
      split at hx
      · next hxa =>
        injection hx with hx
        rw [← hx, hxa]
        exact hown d' key w z
      · next hxa =>
        rw [hg.edges_iff hx, hsame d' x z hxa hxb]

/-- After a link, the edges of one of its ends. -/
private theorem linked_edges_iff (hg : g.Realizes tables E) {a b : Handle k} {v u : Vertex k α δ} {d : Direction}
    (ha : g.get? a = some v) (hb : g.get? b = some u) (hfaces : d.Faces v.location.layer u.location.layer) (weight : α)
    (d' : Direction) (key : EdgeKey) (w : α) (x : Handle k) :
    ((v.setEdges d { v.edges d with edges := (v.edges d).edges.insert u.location.key ⟨weight, b⟩ }).edges d').get? key =
        some ⟨w, x⟩ ↔
      ∃ y, g.get? x = some y ∧ y.location.key = key ∧
        (if d' = d ∧ x = b then some weight else d'.along E a x) = some w := by
  rw [Vertex.edges_setEdges]
  by_cases hd : d' = d
  · subst hd
    rw [if_pos rfl]
    change ((v.edges d').edges.insert u.location.key ⟨weight, b⟩).get? key = some ⟨w, x⟩ ↔ _
    rw [SortedMap.get?_insert]
    by_cases hkey : key = u.location.key
    · rw [if_pos hkey]
      constructor
      · intro h
        injection h with h
        injection h with hw hx
        subst hw
        subst hx
        exact ⟨u, hb, hkey.symm, by simp⟩
      · rintro ⟨y, hy, hyk, hE⟩
        by_cases hx : x = b
        · simp only [hx, and_self, if_true, Option.some.injEq] at hE
          rw [hE, hx]
        · simp only [hx, and_false, if_false] at hE
          obtain ⟨v', y', hv', hy', hf⟩ := hg.faces hE
          rw [ha] at hv'
          rw [hy] at hy'
          cases hv'
          cases hy'
          exact absurd (hg.eq_of_key hy hb hf hfaces (hyk.trans hkey)) hx
    · rw [if_neg hkey]
      refine (hg.edges_iff ha d' key w x).trans (exists_congr fun y => and_congr_right fun hy => and_congr_right fun hyk => ?_)
      have hx : x ≠ b := by
        rintro rfl
        rw [hb] at hy
        cases hy
        exact hkey hyk.symm
      simp [hx]
  · rw [if_neg hd, hg.edges_iff ha]
    simp [hd]

/-- Linking two vertices of neighbouring layers sets the weight of their pair. -/
theorem link_meets (hg : g.Realizes tables E) {a b : Handle k} {v u : Vertex k α δ} {d : Direction}
    (ha : g.get? a = some v) (hb : g.get? b = some u) (hfaces : d.Faces v.location.layer u.location.layer) (weight : α) :
    (link a d b weight true).Meets g (fun _ g' => g'.Realizes tables (d.assign E a b weight) ∧
      (∀ x, g'.body? x = g.body? x) ∧ g'.slots.size = g.slots.size) Step.Never := by
  have hne : b ≠ a := by
    rintro rfl
    rw [ha] at hb
    cases hb
    exact hfaces.ne rfl
  unfold link
  rw [Step.meets_bind]
  refine find_meets hb ?_
  rw [Step.meets_bind]
  refine find_meets ha ?_
  rw [Step.meets_bind]
  have hadd : (v.edges d).add u.location.key weight b = _ :=
    EdgeSet.add_eq (by rw [hg.sized ha]; exact hg.covered hb) weight b
  have hback : (u.edges d.reverse).add v.location.key weight a = _ :=
    EdgeSet.add_eq (by rw [hg.sized hb]; exact hg.covered ha) weight a
  refine (edit_meets ha (by simp only [Vertex.editEdges, hadd]; rfl)).imp fun _ g₁ h₁ => ?_
  rw [if_pos rfl]
  have hb₁ : Arena.get? g₁ b = some u := by rw [h₁.get?_eq, if_neg hne, hb]
  refine (edit_meets hb₁ (by simp only [Vertex.editEdges, hback]; rfl)).imp fun _ g₂ h₂ => ?_
  have hrewired := h₁.rewired h₂
  refine ⟨hrewired.realizes hg ha hb (hg.sized ha d) (hg.sized hb _) (fun d' key w x => ?_) (fun d' key w x => ?_)
    (fun d' x y hxa hxb => ?_) (fun {x y w} hE => ?_), hrewired.body?_eq ha hb, hrewired.size_eq⟩
  · rw [linked_edges_iff hg ha hb hfaces, Direction.along_assign]
    simp [hne.symm]
  · rw [linked_edges_iff hg hb ha (Direction.faces_reverse.mpr hfaces), Direction.along_assign]
    simp [hne]
  · rw [Direction.along_assign]
    simp [hxa, hxb]
  · cases d with
    | incoming =>
      simp only [Direction.assign] at hE
      split at hE
      · next h => exact ⟨u, v, by rw [h.1, hb], by rw [h.2, ha], hfaces⟩
      · exact hg.ends hE
    | outgoing =>
      simp only [Direction.assign] at hE
      split at hE
      · next h => exact ⟨v, u, by rw [h.1, ha], by rw [h.2, hb], hfaces⟩
      · exact hg.ends hE

/-- A new vertex at a place not in use brings no pair along. -/
theorem add_meets (hg : g.Realizes tables E) {v : Vertex k α δ} (hempty : ∀ d, v.edges d = .empty tables)
    (hcovered : v.location.category.index < tables) (hvacant : ∀ {x u}, g.get? x = some u → u.location ≠ v.location) :
    (add v).Meets g (fun id g' => g'.Realizes tables E ∧ g.get? id = none ∧
        (∀ x, g'.get? x = if x = id then some v else g.get? x) ∧ g.slots.size ≤ g'.slots.size)
      (fun e g' => e = .exhausted (Arena.span - 1) ∧ ¬g.HasRoom ∧ g' = g) := by
  unfold add
  rw [Step.meets_bind, Step.meets_read]
  cases hinsert : Arena.insert g v with
  | error e =>
    obtain ⟨he, hroom⟩ := Arena.insert_error hinsert
    exact ⟨he, hroom, rfl⟩
  | ok result =>
    obtain ⟨id, g'⟩ := result
    obtain ⟨hwf, hnone, hget, hsize⟩ := Arena.insert_spec hg.arena hinsert
    refine ⟨?_, hnone, hget, hsize⟩
    have hold : ∀ {x u}, g.get? x = some u → Arena.get? g' x = some u := by
      intro x u hx
      rw [hget, if_neg, hx]
      rintro rfl
      rw [hnone] at hx
      cases hx
    have hcases : ∀ {x u}, Arena.get? g' x = some u → x = id ∧ u = v ∨ x ≠ id ∧ g.get? x = some u := by
      intro x u hx
      rw [hget] at hx
      split at hx
      · next heq => exact .inl ⟨heq, (Option.some.inj hx).symm⟩
      · next hne => exact .inr ⟨hne, hx⟩
    refine ⟨hwf, ?_, ?_, ?_, ?_, ?_⟩
    · intro a u ha d
      rcases hcases ha with ⟨_, rfl⟩ | ⟨_, ha⟩
      · rw [hempty]
        rfl
      · exact hg.sized ha d
    · intro a u ha
      rcases hcases ha with ⟨_, rfl⟩ | ⟨_, ha⟩
      · exact hcovered
      · exact hg.covered ha
    · intro a b u w ha hb hplace
      rcases hcases ha with ⟨rfl, rfl⟩ | ⟨_, ha⟩ <;> rcases hcases hb with ⟨rfl, rfl⟩ | ⟨_, hb⟩
      · rfl
      · exact absurd hplace.symm (hvacant hb)
      · exact absurd hplace (hvacant ha)
      · exact hg.place_unique ha hb hplace
    · intro a u ha d key w b
      rcases hcases ha with ⟨rfl, rfl⟩ | ⟨_, ha⟩
      · rw [hempty]
        constructor
        · intro h
          cases h
        · rintro ⟨_, _, _, hE⟩
          obtain ⟨_, _, hlive, _⟩ := hg.faces hE
          rw [hnone] at hlive
          cases hlive
      · rw [hg.edges_iff ha]
        constructor
        · rintro ⟨x, hx, hrest⟩
          exact ⟨x, hold hx, hrest⟩
        · rintro ⟨x, hx, hkey, hE⟩
          obtain ⟨_, x', _, hx', _⟩ := hg.faces hE
          have heq := hold hx'
          rw [hx] at heq
          cases heq
          exact ⟨x, hx', hkey, hE⟩
    · intro a b w hE
      obtain ⟨p, q, hp, hq, hlayer⟩ := hg.ends hE
      exact ⟨p, q, hold hp, hold hq, hlayer⟩

/-- The sides on which `x` has the vertex as a neighbour are those on which the vertex lists it. -/
theorem Realizes.mem_neighbors_reverse_iff (hg : g.Realizes tables E) {id : Handle k} {v : Vertex k α δ}
    (hv : g.get? id = some v) {d : Direction} {x : Handle k} :
    (d.reverse, x) ∈ v.neighbors ↔ ∃ w, d.along E x id = some w := by
  rw [Vertex.mem_neighbors_iff, hg.mem_neighbors_iff hv]
  simp only [Direction.along_reverse]

/-- A vertex is not its own neighbour. -/
theorem Realizes.not_mem_neighbors_self (hg : g.Realizes tables E) {id : Handle k} {v : Vertex k α δ}
    (hv : g.get? id = some v) (d : Direction) : (d, id) ∉ v.neighbors := by
  intro hmem
  rw [Vertex.mem_neighbors_iff, hg.mem_neighbors_iff hv] at hmem
  obtain ⟨w, hE⟩ := hmem
  obtain ⟨p, q, hp, hq, hfaces⟩ := hg.faces hE
  rw [hp] at hq
  cases hq
  exact hfaces.ne rfl

/-- The record that a neighbour keeps of a vertex. -/
theorem Realizes.record_at_neighbor (hg : g.Realizes tables E) {id : Handle k} {v : Vertex k α δ}
    (hv : g.get? id = some v) {d : Direction} {x : Handle k} (hmem : (d, x) ∈ v.neighbors) :
    ∃ u w, g.get? x = some u ∧ d.reverse.along E x id = some w ∧
      (u.edges d.reverse).get? v.location.key = some ⟨w, id⟩ := by
  rw [Vertex.mem_neighbors_iff, hg.mem_neighbors_iff hv] at hmem
  obtain ⟨w, hE⟩ := hmem
  obtain ⟨_, u, _, hu, _⟩ := hg.faces hE
  rw [← Direction.along_reverse] at hE
  exact ⟨u, w, hu, hE, (hg.edges_iff hu _ _ _ _).mpr ⟨v, hv, rfl, hE⟩⟩

/-- What holds after a vertex was destroyed: it is gone, and so is its edge at each of its neighbours. -/
structure Destroyed (g g' : Graph k α δ) (id : Handle k) (v : Vertex k α δ) : Prop where
  get?_eq : ∀ x, g'.get? x = if x = id then none else
    (g.get? x).map (·.retouch (·.without v.location.key) fun d => (d.reverse, x) ∈ v.neighbors)
  arena : Arena.WellFormed g → Arena.WellFormed g'
  size_eq : g'.slots.size = g.slots.size

theorem Realizes.destroyed_meets (hg : g.Realizes tables E) {id : Handle k} {v : Vertex k α δ} (hv : g.get? id = some v)
    (order : Vertex.Listing k α δ) :
    (destroyIn order id).Meets g (fun r g' => r = (v, order.neighbors v) ∧ Destroyed g g' id v) Step.Never := by
  unfold destroyIn
  rw [Step.meets_bind]
  refine find_meets hv ?_
  rw [Step.meets_bind]
  have hloop : ((order.neighbors v).forM fun p => discard (dropEdge p.2 p.1.reverse v.location.key)).Meets g
      (fun _ g₁ => Retouched g g₁ (·.without v.location.key) (order.neighbors v)) Step.Never := by
    refine forM_retouch_meets (hg.listing_nodup hv order) ?_ ?_
    · intro d x u hmem hu g' u' hu' hsame
      obtain ⟨u₀, w, hu₀, _, hrecord⟩ := hg.record_at_neighbor hv (order.mem_neighbors_iff.mp hmem)
      rw [hu] at hu₀
      cases hu₀
      rw [Step.meets_discard]
      have hrecord' : (u'.edges d.reverse).get? v.location.key = some ⟨w, id⟩ := by rw [hsame, hrecord]
      refine (dropEdge_meets hu' ?_ hrecord').imp fun _ g'' hdrop => ?_
      · rw [hsame, hg.sized hu]
        exact hg.covered hv
      · obtain ⟨_, hedit⟩ := hdrop
        rwa [hsame] at hedit
    · intro d x hmem
      obtain ⟨u, _, hu, _⟩ := hg.record_at_neighbor hv (order.mem_neighbors_iff.mp hmem)
      exact ⟨u, hu⟩
  refine hloop.imp fun _ g₁ hdone => ?_
  have h₁ := hdone.of_perm (order.perm v)
  have hv₁ : Arena.get? g₁ id = some v := by
    rw [h₁.get?_eq, hv, Option.map_some, Option.some.injEq]
    refine Vertex.eq_of_edges (Vertex.body_retouch ..) fun d => ?_
    rw [Vertex.edges_retouch, if_neg (hg.not_mem_neighbors_self hv _)]
  obtain ⟨g₂, hremove, hget₂, hwf₂, hsize₂⟩ := Arena.remove_spec hv₁
  rw [Step.meets_bind, Step.meets_read, hremove]
  exact ⟨rfl, fun x => by rw [hget₂, h₁.get?_eq], fun hwf => hwf₂ (h₁.arena hwf), hsize₂.trans h₁.size_eq⟩

namespace Destroyed

variable {g' : Graph k α δ} {id : Handle k} {v : Vertex k α δ}

/-- A vertex that is left, before and after. -/
theorem exists_of_get? (h : Destroyed g g' id v) {x : Handle k} {u' : Vertex k α δ} (hx : g'.get? x = some u') :
    x ≠ id ∧ ∃ u, g.get? x = some u ∧
      u' = u.retouch (·.without v.location.key) fun d => (d.reverse, x) ∈ v.neighbors := by
  rw [h.get?_eq] at hx
  split at hx
  · cases hx
  · next hne =>
    obtain ⟨u, hu, rfl⟩ := Option.map_eq_some_iff.mp hx
    exact ⟨hne, u, hu, rfl⟩

theorem exists_get? (h : Destroyed g g' id v) {x : Handle k} {u : Vertex k α δ} (hu : g.get? x = some u) (hne : x ≠ id) :
    ∃ u', g'.get? x = some u' ∧ u'.location = u.location := by
  have hx := h.get?_eq x
  rw [if_neg hne, hu, Option.map_some] at hx
  exact ⟨_, hx, rfl⟩

theorem body?_eq (h : Destroyed g g' id v) (x : Handle k) : g'.body? x = if x = id then none else g.body? x := by
  unfold body?
  rw [h.get?_eq]
  split
  · rfl
  · cases g.get? x <;> rfl

/-- Only the record under the place of the destroyed vertex goes, and only if there was one. -/
theorem record_iff (hg : g.Realizes tables E) (hv : g.get? id = some v) {a b : Handle k} {u : Vertex k α δ}
    (hu : g.get? a = some u) (d : Direction) (key : EdgeKey) (w : α) :
    ((u.retouch (·.without v.location.key) fun d => (d.reverse, a) ∈ v.neighbors).edges d).get? key = some ⟨w, b⟩ ↔
      b ≠ id ∧ (u.edges d).get? key = some ⟨w, b⟩ := by
  rw [Vertex.edges_retouch]
  split
  · next hadj =>
    change ((u.edges d).edges.erase v.location.key).get? key = some ⟨w, b⟩ ↔ _
    obtain ⟨w₀, hw₀⟩ := (hg.mem_neighbors_reverse_iff hv).mp hadj
    have hat := (hg.edges_iff hu d _ _ _).mpr ⟨v, hv, rfl, hw₀⟩
    rw [SortedMap.get?_erase]
    by_cases hkey : key = v.location.key
    · rw [if_pos hkey, hkey, hat]
      simp only [reduceCtorEq, Option.some.injEq, Edge.mk.injEq, false_iff, not_and]
      rintro hb _ rfl
      exact hb rfl
    · rw [if_neg hkey]
      refine (and_iff_right_of_imp fun h => ?_).symm
      rintro rfl
      obtain ⟨v', hv', hk, _⟩ := (hg.edges_iff hu d _ _ _).mp h
      rw [hv] at hv'
      cases hv'
      exact hkey hk.symm
  · next hadj =>
    refine (and_iff_right_of_imp fun h => ?_).symm
    rintro rfl
    obtain ⟨_, _, _, hE⟩ := (hg.edges_iff hu d _ _ _).mp h
    exact hadj ((hg.mem_neighbors_reverse_iff hv).mpr ⟨w, hE⟩)

/-- The pairs of the destroyed vertex are dropped. -/
theorem realizes (h : Destroyed g g' id v) (hg : g.Realizes tables E) (hv : g.get? id = some v) :
    g'.Realizes tables (fun a b => if a = id ∨ b = id then none else E a b) := by
  refine ⟨h.arena hg.arena, ?_, ?_, ?_, ?_, ?_⟩
  · intro a u' ha d
    obtain ⟨_, u, hu, rfl⟩ := h.exists_of_get? ha
    rw [Vertex.edges_retouch]
    split
    · exact hg.sized hu d
    · exact hg.sized hu d
  · intro a u' ha
    obtain ⟨_, u, hu, rfl⟩ := h.exists_of_get? ha
    change u.location.category.index < tables
    exact hg.covered hu
  · intro a b u' w' ha hb hplace
    obtain ⟨_, u, hu, rfl⟩ := h.exists_of_get? ha
    obtain ⟨_, w, hw, rfl⟩ := h.exists_of_get? hb
    exact hg.place_unique hu hw hplace
  · intro a u' ha d key w b
    obtain ⟨hne, u, hu, rfl⟩ := h.exists_of_get? ha
    have hE : d.along (fun a b => if a = id ∨ b = id then none else E a b) a b =
        if b = id then none else d.along E a b := by
      cases d <;> simp [Direction.along, hne]
    rw [hE, record_iff hg hv hu, hg.edges_iff hu]
    constructor
    · rintro ⟨hb, x, hx, hkey, hE⟩
      obtain ⟨x', hx', hplace⟩ := h.exists_get? hx hb
      exact ⟨x', hx', by rw [hplace, hkey], by rw [if_neg hb, hE]⟩
    · rintro ⟨x', hx', hkey, hE⟩
      obtain ⟨hb, x, hx, rfl⟩ := h.exists_of_get? hx'
      rw [if_neg hb] at hE
      exact ⟨hb, x, hx, hkey, hE⟩
  · intro a b w hE
    split at hE
    · cases hE
    · next hne =>
      rw [not_or] at hne
      obtain ⟨p, q, hp, hq, hlayer⟩ := hg.ends hE
      obtain ⟨p', hp', hpp⟩ := h.exists_get? hp hne.1
      obtain ⟨q', hq', hqq⟩ := h.exists_get? hq hne.2
      exact ⟨p', q', hp', hq', by rw [hpp, hqq, hlayer]⟩

end Destroyed

/-- Destroying a vertex drops its pairs. -/
theorem destroyIn_meets (hg : g.Realizes tables E) {id : Handle k} {v : Vertex k α δ} (hv : g.get? id = some v)
    (order : Vertex.Listing k α δ) :
    (destroyIn order id).Meets g (fun r g' => r = (v, order.neighbors v) ∧
      g'.Realizes tables (fun a b => if a = id ∨ b = id then none else E a b) ∧
      (∀ x, g'.body? x = if x = id then none else g.body? x) ∧ g'.slots.size = g.slots.size) Step.Never := by
  refine (hg.destroyed_meets hv order).imp fun r g' h => ?_
  obtain ⟨hr, hdestroyed⟩ := h
  exact ⟨hr, hdestroyed.realizes hg hv, hdestroyed.body?_eq, hdestroyed.size_eq⟩

/-- What holds after a vertex was moved: it has the new place, and so has its edge at each of its neighbours. -/
structure Relocated (g g' : Graph k α δ) (id : Handle k) (v : Vertex k α δ) (place : Location) : Prop where
  get?_self : g'.get? id = some { v with location := place }
  get?_other : ∀ {x}, x ≠ id → g'.get? x =
    (g.get? x).map (·.retouch (·.rekey v.location.key place.key) fun d => (d.reverse, x) ∈ v.neighbors)
  arena : Arena.WellFormed g → Arena.WellFormed g'
  size_eq : g'.slots.size = g.slots.size

/-- A neighbour has no edge under a place where no vertex is. -/
theorem Realizes.no_record (hg : g.Realizes tables E) {d : Direction} {a : Handle k} {u : Vertex k α δ} {place : Location}
    (hu : g.get? a = some u) (hfaces : d.Faces u.location.layer place.layer)
    (hvacant : ∀ {x v}, g.get? x = some v → v.location ≠ place) : (u.edges d).get? place.key = none := by
  rw [Option.eq_none_iff_forall_ne_some]
  rintro ⟨w, b⟩ hb
  obtain ⟨y, hy, hkey, hE⟩ := (hg.edges_iff hu _ _ _ _).mp hb
  obtain ⟨p, q, hp, hq, hfaces'⟩ := hg.faces hE
  rw [hu] at hp
  rw [hy] at hq
  cases hp
  cases hq
  exact hvacant hy (Location.eq_of_key (hfaces'.unique hfaces) hkey)

theorem Realizes.relocated_meets (hg : g.Realizes tables E) {id : Handle k} {v : Vertex k α δ} (hv : g.get? id = some v)
    (hmovable : v.movable = true) {category : Category} {slot : Slot} (hcovered : category.index < tables)
    (hvacant : ∀ {x u}, g.get? x = some u → u.location ≠ { v.location with category, slot })
    (order : Vertex.Listing k α δ) :
    (relocateIn order id category slot).Meets g (fun old g' => old = v.location ∧
      Relocated g g' id v { v.location with category, slot }) Step.Never := by
  let place : Location := { v.location with category, slot }
  unfold relocateIn
  rw [Step.meets_bind]
  refine find_meets hv ?_
  simp only [hmovable, Bool.not_true, Bool.false_eq_true, if_false]
  rw [Step.meets_bind]
  have hedit := edit_meets (f := fun u => .ok { u with location := place }) hv rfl
  refine hedit.imp fun _ g₁ h₁ => ?_
  rw [Step.meets_bind]
  have hother : ∀ d x, (d, x) ∈ order.neighbors v → x ≠ id := by
    rintro d x hmem rfl
    exact hg.not_mem_neighbors_self hv d (order.mem_neighbors_iff.mp hmem)
  have hloop : ((order.neighbors v).forM fun p =>
      edit p.2 (·.editEdges p.1.reverse (·.moveEdge v.location.key place.key false))).Meets g₁
      (fun _ g₂ => Retouched g₁ g₂ (·.rekey v.location.key place.key) (order.neighbors v)) Step.Never := by
    refine forM_retouch_meets (hg.listing_nodup hv order) ?_ ?_
    · intro d x u hmem hu g' u' hu' hsame
      rw [h₁.get?_eq, if_neg (hother d x hmem)] at hu
      obtain ⟨u₀, w, hu₀, hw, hrecord⟩ := hg.record_at_neighbor hv (order.mem_neighbors_iff.mp hmem)
      rw [hu] at hu₀
      cases hu₀
      obtain ⟨p, q, hp, hq, hfaces⟩ := hg.faces hw
      rw [hu] at hp
      rw [hv] at hq
      cases hp
      cases hq
      have hnone : (u.edges d.reverse).get? place.key = none := hg.no_record hu hfaces hvacant
      refine edit_meets hu' ?_
      have hmove := EdgeSet.moveEdge_eq (s := u.edges d.reverse) (by rw [hg.sized hu]; exact hg.covered hv)
        (by rw [hg.sized hu]; exact hcovered) hrecord hnone
      simp only [Vertex.editEdges, hsame, hmove, EdgeSet.rekey, hrecord]
      rfl
    · intro d x hmem
      obtain ⟨u, _, hu, _⟩ := hg.record_at_neighbor hv (order.mem_neighbors_iff.mp hmem)
      exact ⟨u, by rw [h₁.get?_eq, if_neg (hother d x hmem), hu]⟩
  refine hloop.imp fun _ g₂ hdone => ?_
  have h₂ := hdone.of_perm (order.perm v)
  refine ⟨rfl, ?_, fun {x} hne => ?_, fun hwf => h₂.arena (h₁.arena hwf), h₂.size_eq.trans h₁.size_eq⟩
  · rw [h₂.get?_eq, h₁.get?_eq, if_pos rfl, Option.map_some, Option.some.injEq]
    refine Vertex.eq_of_edges (Vertex.body_retouch ..) fun d => ?_
    rw [Vertex.edges_retouch, if_neg (hg.not_mem_neighbors_self hv _)]
  · rw [h₂.get?_eq, h₁.get?_eq, if_neg hne]

namespace Relocated

variable {g' : Graph k α δ} {id : Handle k} {v : Vertex k α δ} {place : Location}

/-- A vertex other than the moved one, before and after. -/
theorem exists_of_get? (h : Relocated g g' id v place) {x : Handle k} {u' : Vertex k α δ} (hne : x ≠ id)
    (hx : g'.get? x = some u') : ∃ u, g.get? x = some u ∧
      u' = u.retouch (·.rekey v.location.key place.key) fun d => (d.reverse, x) ∈ v.neighbors := by
  rw [h.get?_other hne] at hx
  obtain ⟨u, hu, rfl⟩ := Option.map_eq_some_iff.mp hx
  exact ⟨u, hu, rfl⟩

theorem exists_get? (h : Relocated g g' id v place) (hv : g.get? id = some v) (hlayer : place.layer = v.location.layer)
    {x : Handle k} {u : Vertex k α δ} (hu : g.get? x = some u) :
    ∃ u', g'.get? x = some u' ∧ u'.location.layer = u.location.layer ∧ (x ≠ id → u'.location = u.location) := by
  by_cases hx : x = id
  · subst hx
    rw [hv] at hu
    cases hu
    exact ⟨_, h.get?_self, hlayer, fun hne => absurd rfl hne⟩
  · have hget := h.get?_other hx
    rw [hu, Option.map_some] at hget
    exact ⟨_, hget, rfl, fun _ => rfl⟩

theorem body?_eq (h : Relocated g g' id v place) (x : Handle k) :
    g'.body? x = if x = id then some { v.body with location := place } else g.body? x := by
  by_cases hx : x = id
  · subst hx
    rw [if_pos rfl, body?_of_get? h.get?_self]
    rfl
  · rw [if_neg hx]
    unfold body?
    rw [h.get?_other hx]
    cases g.get? x <;> rfl

/-- The moved vertex keeps its own records, whose keys are those of its neighbours. -/
theorem own_edges_iff (h : Relocated g g' id v place) (hg : g.Realizes tables E) (hv : g.get? id = some v)
    (hlayer : place.layer = v.location.layer) (d : Direction) (key : EdgeKey) (w : α) (b : Handle k) :
    (v.edges d).get? key = some ⟨w, b⟩ ↔ ∃ u, g'.get? b = some u ∧ u.location.key = key ∧ d.along E id b = some w := by
  have hother : ∀ {w}, d.along E id b = some w → b ≠ id := by
    rintro w hE rfl
    exact hg.not_mem_neighbors_self hv d (Vertex.mem_neighbors_iff.mpr ((hg.mem_neighbors_iff hv).mpr ⟨w, hE⟩))
  rw [hg.edges_iff hv]
  constructor
  · rintro ⟨u, hu, hkey, hE⟩
    obtain ⟨u', hu', _, hplace⟩ := h.exists_get? hv hlayer hu
    exact ⟨u', hu', by rw [hplace (hother hE), hkey], hE⟩
  · rintro ⟨u', hu', hkey, hE⟩
    obtain ⟨u, hu, rfl⟩ := h.exists_of_get? (hother hE) hu'
    exact ⟨u, hu, hkey, hE⟩

/-- A neighbour of the moved vertex has it under the new place, where it had nothing before. -/
theorem neighbor_edges_iff (h : Relocated g g' id v place) (hg : g.Realizes tables E) (hv : g.get? id = some v)
    (hlayer : place.layer = v.location.layer) (hvacant : ∀ {x u}, g.get? x = some u → u.location ≠ place) {a : Handle k}
    {u : Vertex k α δ} (hu : g.get? a = some u) {d : Direction} {w₀ : α} (hw₀ : d.along E a id = some w₀) (key : EdgeKey)
    (w : α) (b : Handle k) :
    ((u.edges d).rekey v.location.key place.key).get? key = some ⟨w, b⟩ ↔
      ∃ y, g'.get? b = some y ∧ y.location.key = key ∧ d.along E a b = some w := by
  have hat := (hg.edges_iff hu d _ _ _).mpr ⟨v, hv, rfl, hw₀⟩
  obtain ⟨p, q, hp, hq, hfaces⟩ := hg.faces hw₀
  rw [hu] at hp
  rw [hv] at hq
  cases hp
  cases hq
  rw [← hlayer] at hfaces
  have hnone := hg.no_record hu hfaces hvacant
  rw [EdgeSet.get?_rekey hat]
  by_cases hb : b = id
  · subst hb
    have hself := h.get?_self
    constructor
    · intro hrecord
      split at hrecord
      · next hnew =>
        cases hrecord
        exact ⟨_, hself, hnew.symm, hw₀⟩
      · split at hrecord
        · cases hrecord
        · next hold =>
          obtain ⟨y, hy, hkey, _⟩ := (hg.edges_iff hu d _ _ _).mp hrecord
          rw [hv] at hy
          cases hy
          exact absurd hkey.symm hold
    · rintro ⟨y, hy, hkey, hE⟩
      rw [hself] at hy
      cases hy
      rw [hw₀] at hE
      cases hE
      rw [if_pos hkey.symm]
  · -- Another vertex is neither under the old place nor under the new one.
    have hrecord : (if key = place.key then some ⟨w₀, id⟩ else if key = v.location.key then none else (u.edges d).get? key) =
        some ⟨w, b⟩ ↔ (u.edges d).get? key = some ⟨w, b⟩ := by
      by_cases hnew : key = place.key
      · rw [if_pos hnew, hnew, hnone]
        simp [Ne.symm hb]
      · rw [if_neg hnew]
        by_cases hold : key = v.location.key
        · rw [if_pos hold, hold, hat]
          simp [Ne.symm hb]
        · rw [if_neg hold]
    rw [hrecord, hg.edges_iff hu]
    constructor
    · rintro ⟨y, hy, hkey, hE⟩
      obtain ⟨y', hy', _, hplace⟩ := h.exists_get? hv hlayer hy
      exact ⟨y', hy', by rw [hplace hb, hkey], hE⟩
    · rintro ⟨y', hy', hkey, hE⟩
      obtain ⟨y, hy, rfl⟩ := h.exists_of_get? hb hy'
      exact ⟨y, hy, hkey, hE⟩

/-- Moving a vertex to a place not in use keeps the relation. -/
theorem realizes (h : Relocated g g' id v place) (hg : g.Realizes tables E) (hv : g.get? id = some v)
    (hlayer : place.layer = v.location.layer) (hcovered : place.category.index < tables)
    (hvacant : ∀ {x u}, g.get? x = some u → u.location ≠ place) : g'.Realizes tables E := by
  refine ⟨h.arena hg.arena, ?_, ?_, ?_, ?_, ?_⟩
  · intro a u' ha d
    by_cases hne : a = id
    · rw [hne, h.get?_self] at ha
      cases ha
      exact hg.sized hv d
    · obtain ⟨u, hu, rfl⟩ := h.exists_of_get? hne ha
      rw [Vertex.edges_retouch]
      split
      · rw [EdgeSet.tables_rekey]
        exact hg.sized hu d
      · exact hg.sized hu d
  · intro a u' ha
    by_cases hne : a = id
    · rw [hne, h.get?_self] at ha
      cases ha
      exact hcovered
    · obtain ⟨u, hu, rfl⟩ := h.exists_of_get? hne ha
      change u.location.category.index < tables
      exact hg.covered hu
  · intro a b u' w' ha hb hplace
    by_cases hae : a = id <;> by_cases hbe : b = id
    · rw [hae, hbe]
    · rw [hae, h.get?_self] at ha
      cases ha
      obtain ⟨w, hw, rfl⟩ := h.exists_of_get? hbe hb
      exact (hvacant hw hplace.symm).elim
    · rw [hbe, h.get?_self] at hb
      cases hb
      obtain ⟨u, hu, rfl⟩ := h.exists_of_get? hae ha
      exact (hvacant hu hplace).elim
    · obtain ⟨u, hu, rfl⟩ := h.exists_of_get? hae ha
      obtain ⟨w, hw, rfl⟩ := h.exists_of_get? hbe hb
      exact hg.place_unique hu hw hplace
  · intro a u' ha d key w b
    by_cases hae : a = id
    · subst hae
      rw [h.get?_self] at ha
      cases ha
      exact h.own_edges_iff hg hv hlayer d key w b
    · obtain ⟨u, hu, rfl⟩ := h.exists_of_get? hae ha
      rw [Vertex.edges_retouch]
      split
      · next hadj =>
        obtain ⟨w₀, hw₀⟩ := (hg.mem_neighbors_reverse_iff hv).mp hadj
        exact h.neighbor_edges_iff hg hv hlayer hvacant hu hw₀ key w b
      · next hadj =>
        have hb : ∀ {w}, d.along E a b = some w → b ≠ id := by
          rintro w hE rfl
          exact hadj ((hg.mem_neighbors_reverse_iff hv).mpr ⟨w, hE⟩)
        rw [hg.edges_iff hu]
        constructor
        · rintro ⟨y, hy, hkey, hE⟩
          obtain ⟨y', hy', _, hplace⟩ := h.exists_get? hv hlayer hy
          exact ⟨y', hy', by rw [hplace (hb hE), hkey], hE⟩
        · rintro ⟨y', hy', hkey, hE⟩
          obtain ⟨y, hy, rfl⟩ := h.exists_of_get? (hb hE) hy'
          exact ⟨y, hy, hkey, hE⟩
  · intro a b w hE
    obtain ⟨p, q, hp, hq, hpq⟩ := hg.ends hE
    obtain ⟨p', hp', hpp, _⟩ := h.exists_get? hv hlayer hp
    obtain ⟨q', hq', hqq, _⟩ := h.exists_get? hv hlayer hq
    exact ⟨p', q', hp', hq', by rw [hpp, hqq, hpq]⟩

end Relocated

/-- Moving a vertex to a place not in use keeps the relation. -/
theorem relocateIn_meets (hg : g.Realizes tables E) {id : Handle k} {v : Vertex k α δ} (hv : g.get? id = some v)
    (hmovable : v.movable = true) {category : Category} {slot : Slot} (hcovered : category.index < tables)
    (hvacant : ∀ {x u}, g.get? x = some u → u.location ≠ { v.location with category, slot })
    (order : Vertex.Listing k α δ) :
    (relocateIn order id category slot).Meets g (fun old g' => old = v.location ∧ g'.Realizes tables E ∧
      (∀ x, g'.body? x = if x = id then some { v.body with location := { v.location with category, slot } }
        else g.body? x) ∧ g'.slots.size = g.slots.size) Step.Never := by
  refine (hg.relocated_meets hv hmovable hcovered hvacant order).imp fun old g' h => ?_
  obtain ⟨hold, hrelocated⟩ := h
  exact ⟨hold, hrelocated.realizes hg hv rfl hcovered hvacant, hrelocated.body?_eq, hrelocated.size_eq⟩

end Graph

end ReluAbstraction
