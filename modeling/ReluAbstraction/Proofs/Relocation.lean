import ReluAbstraction.Proofs.GraphEdits

/-!
# Moves that fail

A vertex is given its new place first, and is then renamed at its neighbours one after the other. Where the graph is not
symmetric, or another vertex is at the new place already, a neighbour may refuse. What was done by then is not taken back:
the vertex is at its new place, and some of its neighbours know it there while others do not. Which ones depends on the order
in which the neighbours are taken.
-/

namespace ReluAbstraction

namespace EdgeSet

variable {α η : Type} {s : EdgeSet α η} {old new : EdgeKey}

/-- Moving an edge to the key it has changes nothing. -/
theorem rekey_self (s : EdgeSet α η) (key : EdgeKey) : s.rekey key key = s := by
  unfold rekey
  cases he : s.get? key with
  | none => rfl
  | some e =>
    have hsame : (s.edges.erase key).insert key e = s.edges := by
      refine SortedMap.ext_get? fun key' => ?_
      rw [SortedMap.get?_insert, SortedMap.get?_erase]
      by_cases hkey : key' = key
      · rw [if_pos hkey, hkey]
        exact he.symm
      · rw [if_neg hkey, if_neg hkey]
    exact congrArg (EdgeSet.mk s.tables) hsame

/-- The key that an edge was moved from is not in use. -/
theorem get?_rekey_old (hne : old ≠ new) : (s.rekey old new).get? old = none := by
  cases he : s.get? old with
  | none =>
    unfold rekey
    rw [he]
    exact he
  | some e => rw [get?_rekey he, if_neg hne, if_pos rfl]

/-- Moving an edge fails if there is another one under the new key or none under the old one. -/
theorem moveEdge_eq_ite (hold : old.category.index < s.tables) (hnew : new.category.index < s.tables) :
    s.moveEdge old new false =
      if old ≠ new ∧ (s.get? new).isSome then .error (.edgeConflict new)
      else if (s.get? old).isSome then .ok (s.rekey old new) else .error (.noSuchEdge old) := by
  by_cases hkey : old = new
  · subst hkey
    simp only [moveEdge, check, covers, hold, rekey_self, if_true, decide_true, ne_eq, not_true_eq_false, false_and, if_false]
    rfl
  · cases hget : s.get? new with
    | some e =>
      simp only [moveEdge, hkey, hget, if_false, Bool.not_false, Option.isSome_some, Bool.and_self, if_true, ne_eq,
        not_false_eq_true, and_self]
      rfl
    | none =>
      cases he : s.get? old with
      | some e =>
        rw [moveEdge_eq hold hnew he hget]
        simp [rekey, he]
      | none =>
        simp only [moveEdge, hkey, hget, if_false, Bool.not_false, Option.isSome_none, Bool.and_false, Bool.false_eq_true,
          check, covers, hnew, hold, decide_true, if_true, remove, he, and_false]
        rfl

theorem tables_of_add {w : α} {n : η} {s' : EdgeSet α η} (h : s.add new w n = .ok s') : s'.tables = s.tables := by
  by_cases hnew : new.category.index < s.tables
  · rw [add_eq hnew] at h
    cases h
    rfl
  · simp only [add, check, covers, hnew, decide_false, Bool.false_eq_true, if_false] at h
    cases h

theorem tables_of_remove {r : Edge α η × EdgeSet α η} (h : s.remove old = .ok r) : r.2.tables = s.tables := by
  by_cases hold : old.category.index < s.tables
  · cases he : s.get? old with
    | some e =>
      rw [remove_eq hold he] at h
      cases h
      rfl
    | none =>
      simp only [remove, check, covers, hold, decide_true, if_true, he] at h
      cases h
  · simp only [remove, check, covers, hold, decide_false, Bool.false_eq_true, if_false] at h
    cases h

theorem tables_of_moveEdge {overwrite : Bool} {s' : EdgeSet α η} (h : s.moveEdge old new overwrite = .ok s') :
    s'.tables = s.tables := by
  unfold moveEdge at h
  split at h
  · next hkey =>
    by_cases hold : old.category.index < s.tables
    · simp only [check, covers, hold, decide_true, if_true, bind, Except.bind] at h
      split at h
      · cases h
        rfl
      · cases h
    · simp only [check, covers, hold, decide_false, Bool.false_eq_true, if_false] at h
      cases h
  · split at h
    · cases h
    · by_cases hnew : new.category.index < s.tables
      · simp only [check, covers, hnew, decide_true, if_true, bind, Except.bind] at h
        cases hremove : s.remove old with
        | error e =>
          rw [hremove] at h
          cases h
        | ok r =>
          rw [hremove] at h
          exact (tables_of_add h).trans (tables_of_remove hremove)
      · simp only [check, covers, hnew, decide_false, Bool.false_eq_true, if_false] at h
        cases h

end EdgeSet

namespace Graph

variable {k : EntityKind} {α δ : Type} {g g' : Graph k α δ} {id : Handle k} {v : Vertex k α δ} {place : Location} {e : Error}
  {order : Vertex.Listing k α δ}

/-- Why a vertex cannot be renamed at its neighbour `x` on side `d`. -/
inductive Blocked (g : Graph k α δ) (d : Direction) (x : Handle k) (old new : EdgeKey) : Error → Prop
  /-- The neighbour is gone. -/
  | gone (hx : g.get? x = none) : Blocked g d x old new (.usedAfterDestroy k x.index)
  /-- The neighbour has an edge under the new key. -/
  | conflict {u : Vertex k α δ} (hx : g.get? x = some u) (hne : old ≠ new) (hnew : (u.edges d.reverse).get? new ≠ none) :
    Blocked g d x old new (.edgeConflict new)
  /-- The neighbour has no edge under the old key. -/
  | missing {u : Vertex k α δ} (hx : g.get? x = some u) (hold : (u.edges d.reverse).get? old = none) :
    Blocked g d x old new (.noSuchEdge old)

/-- What a move leaves that stops at a neighbour. The vertex is at its new place. It is known there to the neighbours that
come before in the given order, and to no others. -/
def Interrupted (order : Vertex.Listing k α δ) (g g' : Graph k α δ) (id : Handle k) (v : Vertex k α δ) (place : Location)
    (e : Error) : Prop :=
  ∃ done d x rest, order.neighbors v = done ++ (d, x) :: rest ∧ Blocked g' d x v.location.key place.key e ∧
    ∀ y, g'.get? y = (if y = id then some { v with location := place } else g.get? y).map
      (·.retouch (·.rekey v.location.key place.key) fun d => (d.reverse, y) ∈ done)

/-- Renaming a vertex at one more neighbour. -/
theorem rename_meets {g₁ : Graph k α δ} {old new : EdgeKey} {tables : Nat} {done : List (Direction × Handle k)}
    (hold : old.category.index < tables) (hnew : new.category.index < tables)
    (hsized : ∀ {x u}, g.get? x = some u → ∀ d, (u.edges d).tables = tables)
    (hdone : Retouched g g₁ (·.rekey old new) done) (d : Direction) (x : Handle k) :
    (edit x (·.editEdges d.reverse (·.moveEdge old new false))).Meets g₁
      (fun _ g₂ => Retouched g g₂ (·.rekey old new) (done ++ [(d, x)]))
      (fun e g₂ => g₂ = g₁ ∧ Blocked g₁ d x old new e) := by
  have hget := hdone.get?_eq x
  cases hu : g.get? x with
  | none =>
    rw [hu, Option.map_none] at hget
    exact edit_meets_of_none hget ⟨rfl, .gone hget⟩
  | some u =>
    rw [hu, Option.map_some] at hget
    have hedges := Vertex.edges_retouch (·.rekey old new) (fun d => (d.reverse, x) ∈ done) u d.reverse
    generalize hafter : (u.retouch (·.rekey old new) fun d => (d.reverse, x) ∈ done) = u' at hget hedges
    have htables : (u'.edges d.reverse).tables = tables := by
      rw [hedges]
      split
      · rw [EdgeSet.tables_rekey, hsized hu]
      · rw [hsized hu]
    have hmove := EdgeSet.moveEdge_eq_ite (s := u'.edges d.reverse) (htables ▸ hold) (htables ▸ hnew)
    by_cases hconflict : old ≠ new ∧ ((u'.edges d.reverse).get? new).isSome
    · rw [if_pos hconflict] at hmove
      refine edit_meets_of_error hget (by simp only [Vertex.editEdges, hmove]; rfl) ⟨rfl, .conflict hget hconflict.1 ?_⟩
      exact Option.isSome_iff_ne_none.mp hconflict.2
    · rw [if_neg hconflict] at hmove
      by_cases hrecord : ((u'.edges d.reverse).get? old).isSome
      · rw [if_pos hrecord] at hmove
        -- A neighbour that was renamed already has nothing under the old key.
        have hsame : (u'.edges d.reverse).rekey old new = (u.edges d.reverse).rekey old new := by
          rw [hedges]
          split
          · next hmem =>
            by_cases hkey : old = new
            · rw [hkey, EdgeSet.rekey_self]
            · rw [hedges, if_pos hmem, EdgeSet.get?_rekey_old hkey] at hrecord
              cases hrecord
          · rfl
        rw [hsame] at hmove
        refine (edit_meets hget (by simp only [Vertex.editEdges, hmove]; rfl)).mono (fun _ g₂ hedit => ?_)
          fun _ _ hfalse => hfalse.elim
        subst hafter
        exact hdone.edited hu hedit
      · rw [if_neg hrecord] at hmove
        refine edit_meets_of_error hget (by simp only [Vertex.editEdges, hmove]; rfl) ⟨rfl, .missing hget ?_⟩
        rwa [Bool.not_eq_true, Option.isSome_eq_false_iff, Option.isNone_iff_eq_none] at hrecord

/-- How a move fails. -/
theorem relocateIn_meets_or {category : Category} {slot : Slot}
    (hsized : ∀ {x u}, g.get? x = some u → ∀ d, (u.edges d).tables = 5) (order : Vertex.Listing k α δ) :
    (relocateIn order id category slot).Meets g (fun _ _ => True) fun e g' =>
      g.get? id = none ∧ e = .usedAfterDestroy k id.index ∧ g' = g ∨
      (∃ v, g.get? id = some v ∧ v.movable = false ∧ e = .immutable k id v.location ∧ g' = g) ∨
      ∃ v, g.get? id = some v ∧ v.movable = true ∧ Interrupted order g g' id v { v.location with category, slot } e := by
  cases hv : g.get? id with
  | none => exact find_bind_meets_of_none hv (.inl ⟨rfl, rfl, rfl⟩)
  | some v =>
    refine Step.meets_bind.mpr (find_meets hv ?_)
    cases hmovable : v.movable with
    | false => exact .inr (.inl ⟨v, rfl, hmovable, rfl, rfl⟩)
    | true =>
      simp only [Bool.not_true, Bool.false_eq_true, if_false]
      rw [Step.meets_bind]
      let place : Location := { v.location with category, slot }
      have hedit := edit_meets (f := fun u => .ok { u with location := place }) hv rfl
      refine hedit.mono (fun _ g₁ h₁ => ?_) fun _ _ hfalse => hfalse.elim
      have hsized₁ : ∀ {x u}, Arena.get? g₁ x = some u → ∀ d, (u.edges d).tables = 5 := by
        intro x u hx d
        rw [h₁.get?_eq] at hx
        split at hx
        · cases hx
          exact hsized hv d
        · exact hsized hx d
      rw [Step.meets_bind]
      refine Step.Meets.mono (Step.Meets.forM
        (fun done g₂ => Retouched g₁ g₂ (·.rekey v.location.key place.key) done) (.refl g₁ _) ?_) (fun _ _ _ => trivial)
        (fun _ _ hfail => hfail)
      rintro done ⟨d, x⟩ rest g₂ hlist hdone
      refine (rename_meets (Category.index_lt _) (Category.index_lt _) hsized₁ hdone d x).mono (fun _ _ hmore => hmore) ?_
      rintro e _ ⟨rfl, hblocked⟩
      refine .inr (.inr ⟨v, rfl, hmovable, done, d, x, rest, hlist, hblocked, fun y => ?_⟩)
      rw [hdone.get?_eq, h₁.get?_eq]

section Reachable

/-- All vertices have a property. -/
structure All (P : Vertex k α δ → Prop) (g : Graph k α δ) : Prop where
  arena : Arena.WellFormed g
  holds : ∀ {x v}, g.get? x = some v → P v

/-- A property that edits keep: it does not depend on place and edges, and is not lost when the place is fixed. -/
structure Stable (P : Vertex k α δ → Prop) : Prop where
  setEdges : ∀ {v d s}, P v → s.tables = (v.edges d).tables → P (v.setEdges d s)
  move : ∀ {v} place, P v → P { v with location := place }
  cement : ∀ {v}, P v → P v.cement

variable {P : Vertex k α δ → Prop}

theorem All.edited (h : All P g) (hedit : Edited g g' id v) (hv : P v) : All P g' := by
  refine ⟨hedit.arena h.arena, fun {x u} hx => ?_⟩
  rw [hedit.get?_eq] at hx
  split at hx
  · cases hx
    exact hv
  · exact h.holds hx

theorem preserves_edit {f : Vertex k α δ → Except Error (Vertex k α δ)} (hf : ∀ v v', P v → f v = .ok v' → P v')
    (id : Handle k) : Step.Preserves (All P) (edit id f) := by
  intro g
  cases hv : g.get? id with
  | none => exact edit_meets_of_none hv fun h => h
  | some v =>
    cases hresult : f v with
    | error e => exact edit_meets_of_error hv hresult fun h => h
    | ok v' =>
      refine (edit_meets hv hresult).mono (fun _ g' hedit h => ?_) fun _ _ hfalse => hfalse.elim
      exact h.edited hedit (hf v v' (h.holds hv) hresult)

theorem preserves_editEdges (hP : Stable P) {f : EdgeSet α (Handle k) → Except Error (EdgeSet α (Handle k))}
    (hf : ∀ s s', f s = .ok s' → s'.tables = s.tables) (id : Handle k) (d : Direction) :
    Step.Preserves (All P) (edit id (·.editEdges d f)) := by
  refine preserves_edit (fun v v' hv hresult => ?_) id
  cases hedges : f (v.edges d) with
  | error e =>
    simp only [Vertex.editEdges, hedges] at hresult
    cases hresult
  | ok s =>
    simp only [Vertex.editEdges, hedges] at hresult
    cases hresult
    exact hP.setEdges hv (hf _ _ hedges)

theorem preserves_add {v : Vertex k α δ} (hv : P v) : Step.Preserves (All P) (add v) := by
  intro g
  rw [add, Step.meets_bind, Step.meets_read]
  cases hinsert : Arena.insert g v with
  | error e => exact fun h => h
  | ok result =>
    obtain ⟨id, g'⟩ := result
    intro h
    obtain ⟨hwf, _, hget, _⟩ := Arena.insert_spec h.arena hinsert
    refine ⟨hwf, fun {x u} hx => ?_⟩
    rw [hget] at hx
    split at hx
    · cases hx
      exact hv
    · exact h.holds hx

theorem preserves_link (hP : Stable P) (source : Handle k) (d : Direction) (target : Handle k) (weight : α)
    (bothEnds : Bool) : Step.Preserves (All P) (link source d target weight bothEnds) := by
  have hadd : ∀ (id : Handle k) d key neighbor,
      Step.Preserves (All P) (edit id (·.editEdges d (·.add key weight neighbor))) :=
    fun id d key neighbor => preserves_editEdges hP (fun s s' h => EdgeSet.tables_of_add h) id d
  unfold link find
  refine (Step.Within.read _).bind fun u => (Step.Within.read _).bind fun v => (hadd _ _ _ _).bind fun _ => ?_
  exact Step.Within.ite (hadd _ _ _ _) (Step.Within.pure _)

theorem preserves_dropEdge (hP : Stable P) (id : Handle k) (d : Direction) (key : EdgeKey) :
    Step.Preserves (All P) (dropEdge id d key) := by
  intro g
  cases hv : g.get? id with
  | none => exact find_bind_meets_of_none hv fun h => h
  | some v =>
    unfold dropEdge
    rw [Step.meets_bind]
    refine find_meets hv ?_
    rw [Step.meets_bind, Step.meets_ofExcept]
    cases hremove : (v.edges d).remove key with
    | error e => exact fun h => h
    | ok r =>
      dsimp only
      rw [Step.meets_bind]
      have hedit := edit_meets (f := fun u => .ok (u.setEdges d r.2)) hv rfl
      refine hedit.mono (fun _ g' hedited h => ?_) fun _ _ hfalse => hfalse.elim
      exact h.edited hedited (hP.setEdges (h.holds hv) (EdgeSet.tables_of_remove hremove))

theorem preserves_unlink (hP : Stable P) (source : Handle k) (d : Direction) (target : Handle k) (bothEnds : Bool) :
    Step.Preserves (All P) (unlink source d target bothEnds) := by
  unfold unlink find
  refine (Step.Within.read _).bind fun u => (Step.Within.read _).bind fun v => (preserves_dropEdge hP _ _ _).bind fun e => ?_
  exact Step.Within.ite ((preserves_dropEdge hP _ _ _).discard.bind fun _ => Step.Within.pure _) (Step.Within.pure _)

theorem preserves_relocateIn (hP : Stable P) (order : Vertex.Listing k α δ) (id : Handle k) (category : Category)
    (slot : Slot) : Step.Preserves (All P) (relocateIn order id category slot) := by
  unfold relocateIn find
  refine (Step.Within.read _).bind fun v => Step.Within.ite (Step.Within.throw _) ?_
  refine (preserves_edit (fun u u' hu hresult => ?_) id).bind fun _ =>
    (Step.Within.forM _ fun p => ?_).bind fun _ => Step.Within.pure _
  · cases hresult
    exact hP.move _ hu
  · exact preserves_editEdges hP (fun s s' h => EdgeSet.tables_of_moveEdge h) p.2 p.1.reverse

theorem preserves_destroyIn (hP : Stable P) (order : Vertex.Listing k α δ) (id : Handle k) :
    Step.Preserves (All P) (destroyIn order id) := by
  unfold destroyIn find
  refine (Step.Within.read _).bind fun v => (Step.Within.forM _ fun p => (preserves_dropEdge hP _ _ _).discard).bind fun _ => ?_
  intro g
  rw [Step.meets_bind, Step.meets_read]
  cases hv : g.get? id with
  | none =>
    rw [Arena.remove_of_none hv]
    exact fun h => h
  | some v =>
    obtain ⟨g', hremove, hget, hwf, _⟩ := Arena.remove_spec hv
    rw [hremove]
    refine fun h => ⟨hwf h.arena, fun {x u} hx => ?_⟩
    rw [hget] at hx
    split at hx
    · cases hx
    · exact h.holds hx

/-- Graphs that come of the empty one by inserting vertices of a given kind and by any edits, at one end of an edge or at
both. Failed edits count as well. -/
inductive Assembled (fresh : Vertex k α δ → Prop) : Graph k α δ → Prop
  | start : Assembled fresh Arena.empty
  | added {g : Graph k α δ} {v : Vertex k α δ} (h : Assembled fresh g) (hv : fresh v) :
    Assembled fresh ((add v).outcome g).2
  | linked {g : Graph k α δ} (source : Handle k) (d : Direction) (target : Handle k) (weight : α) (bothEnds : Bool)
    (h : Assembled fresh g) : Assembled fresh ((link source d target weight bothEnds).outcome g).2
  | unlinked {g : Graph k α δ} (source : Handle k) (d : Direction) (target : Handle k) (bothEnds : Bool)
    (h : Assembled fresh g) : Assembled fresh ((unlink source d target bothEnds).outcome g).2
  | cemented {g : Graph k α δ} (id : Handle k) (h : Assembled fresh g) :
    Assembled fresh ((edit id fun v => .ok v.cement).outcome g).2
  | relocated {g : Graph k α δ} (order : Vertex.Listing k α δ) (id : Handle k) (category : Category) (slot : Slot)
    (h : Assembled fresh g) : Assembled fresh ((relocateIn order id category slot).outcome g).2
  | destroyed {g : Graph k α δ} (order : Vertex.Listing k α δ) (id : Handle k) (h : Assembled fresh g) :
    Assembled fresh ((destroyIn order id).outcome g).2

theorem Assembled.all {fresh : Vertex k α δ → Prop} (h : Assembled fresh g) (hP : Stable P)
    (hfresh : ∀ v, fresh v → P v) : All P g := by
  have hafter : ∀ {β : Type} {step : Step (Graph k α δ) β} {g}, Step.Preserves (All P) step → All P g →
      All P (step.outcome g).2 := by
    intro β step g hstep hg
    exact Step.Meets.outcome (hstep.meets hg)
  induction h with
  | start => exact ⟨Arena.wellFormed_empty, fun hx => by simp at hx⟩
  | added _ hv ih => exact hafter (preserves_add (hfresh _ hv)) ih
  | linked source d target weight bothEnds _ ih => exact hafter (preserves_link hP source d target weight bothEnds) ih
  | unlinked source d target bothEnds _ ih => exact hafter (preserves_unlink hP source d target bothEnds) ih
  | cemented id _ ih =>
    refine hafter (preserves_edit (fun v v' hv hresult => ?_) id) ih
    cases hresult
    exact hP.cement hv
  | relocated order id category slot _ ih => exact hafter (preserves_relocateIn hP order id category slot) ih
  | destroyed order id _ ih => exact hafter (preserves_destroyIn hP order id) ih

end Reachable

/-- What is left of a graph in which a vertex could not be moved. -/
structure Refused (order : Vertex.Listing k α δ) (g g' : Graph k α δ) (id : Handle k) (category : Category) (slot : Slot)
    (e : Error) : Prop where
  /-- Nothing has changed exactly if the vertex is gone, may not move, or was to move to the place it has. -/
  unchanged_iff : (∀ x, g'.get? x = g.get? x) ↔
    ∀ v, g.get? id = some v → v.movable = true → { v.location with category, slot } = v.location
  of_gone : g.get? id = none → e = .usedAfterDestroy k id.index
  of_fixed : ∀ {v}, g.get? id = some v → v.movable = false → e = .immutable k id v.location
  /-- A vertex that may move has moved, and some neighbour refused to rename it. -/
  of_movable : ∀ {v}, g.get? id = some v → v.movable = true →
    Interrupted order g g' id v { v.location with category, slot } e

/-- An interrupted move changes nothing exactly if the vertex is where it was. -/
theorem Interrupted.unchanged_iff (h : Interrupted order g g' id v place e) (hv : g.get? id = some v) :
    (∀ x, g'.get? x = g.get? x) ↔ place = v.location := by
  obtain ⟨done, d, x, rest, _, _, hget⟩ := h
  constructor
  · intro hsame
    have hid := hget id
    rw [hsame, if_pos rfl, hv, Option.map_some, Option.some.injEq] at hid
    exact (congrArg Vertex.location hid).symm
  · rintro rfl y
    have hretouch : ∀ u : Vertex k α δ,
        (u.retouch (·.rekey v.location.key v.location.key) fun d => (d.reverse, y) ∈ done) = u := by
      intro u
      simp only [Vertex.retouch, EdgeSet.rekey_self, ite_self]
    rw [hget, funext hretouch, Option.map_id']
    split
    · next hy => rw [hy, hv]
    · rfl

theorem refused_of_sized {category : Category} {slot : Slot}
    (hsized : ∀ {x u}, g.get? x = some u → ∀ d, (u.edges d).tables = 5)
    (h : relocateIn order id category slot g = .error e g') : Refused order g g' id category slot e := by
  rcases (relocateIn_meets_or hsized order).of_error h with ⟨hgone, rfl, rfl⟩ | ⟨v, hv, hfixed, rfl, rfl⟩ | ⟨v, hv, hmovable, hmove⟩
  · exact ⟨by simp [hgone], fun _ => rfl, by simp [hgone], by simp [hgone]⟩
  · refine ⟨by simp [hv, hfixed], by simp [hv], fun {u} hu _ => ?_, by simp [hv, hfixed]⟩
    rw [hv] at hu
    cases hu
    rfl
  · refine ⟨?_, by simp [hv], by simp [hv, hmovable], fun {u} hu _ => ?_⟩
    · rw [hmove.unchanged_iff hv]
      simp [hv, hmovable]
    · rw [hv] at hu
      cases hu
      exact hmove

/-- A vertex that may not move stays, and so does all else. -/
theorem relocateIn_of_fixed (hfixed : ∀ {v}, g.get? id = some v → v.movable = false) (order : Vertex.Listing k α δ)
    (category : Category) (slot : Slot) : ∃ e, relocateIn order id category slot g = .error e g := by
  have hmeets : (relocateIn order id category slot).Meets g (fun _ _ => False) (fun _ g' => g' = g) := by
    cases hv : g.get? id with
    | none => exact find_bind_meets_of_none hv rfl
    | some v =>
      refine Step.meets_bind.mpr (find_meets hv ?_)
      simp only [hfixed hv, Bool.not_false, if_true]
      rfl
  cases hresult : relocateIn order id category slot g with
  | ok old g' => exact (hmeets.of_ok hresult).elim
  | error e g' =>
    obtain rfl := hmeets.of_error hresult
    exact ⟨e, rfl⟩

theorem stable_sized (tables : Nat) : Stable fun v : Vertex k α δ => ∀ d, (v.edges d).tables = tables := by
  refine ⟨fun {v d s} hv hs d' => ?_, fun {v} place hv d => ?_, fun {v} hv d => ?_⟩
  · rw [Vertex.edges_setEdges]
    split
    · rw [hs, hv]
    · exact hv d'
  · have hd := hv d
    cases d <;> exact hd
  · have hd := hv d
    cases d <;> exact hd

theorem stable_fixed : Stable fun v : Vertex k α δ => v.movable = false := by
  refine ⟨fun {v d s} hv _ => ?_, fun _ hv => hv, fun _ => rfl⟩
  cases d <;> exact hv

end Graph

/-- A node as it is made. -/
def Node.Fresh {α : Type} (v : Node α) : Prop :=
  ∃ location movable bias origin, v = Node.create location movable bias origin

/-- An arnode as it is made. -/
def ArNode.Fresh {α : Type} (v : ArNode α) : Prop :=
  ∃ location members vars bias, v = ArNode.create location members vars bias

namespace Graph

variable {α : Type}

/-- A failed move of a node changes nothing only if there was nothing to do. Arnodes are never moved, and an attempt to do
so changes nothing. Both hold in whatever order the neighbours are taken. -/
theorem relocation_refused :
    (∀ {order : Vertex.Listing .node α (NodeData α)} {g g' id category slot e}, Assembled Node.Fresh g →
      relocateIn order id category slot g = .error e g' → Refused order g g' id category slot e) ∧
    ∀ {g : Graph .arnode α (ArNodeData α)}, Assembled ArNode.Fresh g → ∀ order id category slot,
      ∃ e, relocateIn order id category slot g = .error e g := by
  constructor
  · intro order g g' id category slot e hg h
    have hall := hg.all (stable_sized 5) fun v hv d => by
      obtain ⟨_, _, _, _, rfl⟩ := hv
      cases d <;> rfl
    exact refused_of_sized hall.holds h
  · intro g hg order id category slot
    have hall := hg.all stable_fixed fun v hv => by
      obtain ⟨_, _, _, _, rfl⟩ := hv
      rfl
    exact relocateIn_of_fixed hall.holds order category slot

/-- A node has a neighbour on each side, and its new place is taken. The neighbour before it knows it there, but the one
after it has the other node there. -/
theorem relocation_refused_halfway : ∃ g g' : Graph .node Nat (NodeData Nat), Assembled Node.Fresh g ∧
    relocate ⟨1, 0⟩ .unprocessed 1 g = .error (.edgeConflict ⟨.unprocessed, 1⟩) g' ∧
    (g'.get? ⟨0, 0⟩).map (·.outgoing.toList) = some [(⟨.unprocessed, 1⟩, ⟨5, ⟨1, 0⟩⟩)] ∧
    (g'.get? ⟨3, 0⟩).map (·.incoming.toList) = some [(⟨.unprocessed, 0⟩, ⟨6, ⟨1, 0⟩⟩), (⟨.unprocessed, 1⟩, ⟨7, ⟨2, 0⟩⟩)] ∧
    Refused .bySlot g g' ⟨1, 0⟩ .unprocessed 1 (.edgeConflict ⟨.unprocessed, 1⟩) := by
  have h₀ : Assembled Node.Fresh (Arena.empty : Graph .node Nat (NodeData Nat)) := .start
  have h₁ := h₀.added ⟨⟨0, .unprocessed, 0⟩, true, 0, ⟨0, 0⟩, rfl⟩
  have h₂ := h₁.added ⟨⟨1, .unprocessed, 0⟩, true, 0, ⟨1, 0⟩, rfl⟩
  have h₃ := h₂.added ⟨⟨1, .unprocessed, 1⟩, true, 0, ⟨1, 1⟩, rfl⟩
  have h₄ := h₃.added ⟨⟨2, .unprocessed, 0⟩, true, 0, ⟨2, 0⟩, rfl⟩
  have h₅ := h₄.linked ⟨0, 0⟩ .outgoing ⟨1, 0⟩ 5 true
  have h₆ := h₅.linked ⟨1, 0⟩ .outgoing ⟨3, 0⟩ 6 true
  have h₇ := h₆.linked ⟨2, 0⟩ .outgoing ⟨3, 0⟩ 7 true
  exact ⟨_, _, h₇, rfl, by decide, by decide, relocation_refused.1 h₇ rfl⟩

/-- Two nodes of a layer have the same neighbour, and one is to move to the place of the other. The move fails, and yet the
node has left its place. -/
theorem exists_moved_by_failure : ∃ (g g' : Graph .node Nat (NodeData Nat)) (e : Error), Assembled Node.Fresh g ∧
    relocate ⟨1, 0⟩ .unprocessed 1 g = .error e g' ∧
    (g.get? ⟨1, 0⟩).map (·.location) = some ⟨1, .unprocessed, 0⟩ ∧
    (g'.get? ⟨1, 0⟩).map (·.location) = some ⟨1, .unprocessed, 1⟩ := by
  have h₀ : Assembled Node.Fresh (Arena.empty : Graph .node Nat (NodeData Nat)) := .start
  have h₁ := h₀.added ⟨⟨0, .unprocessed, 0⟩, true, 0, ⟨0, 0⟩, rfl⟩
  have h₂ := h₁.added ⟨⟨1, .unprocessed, 0⟩, true, 0, ⟨1, 0⟩, rfl⟩
  have h₃ := h₂.added ⟨⟨1, .unprocessed, 1⟩, true, 0, ⟨1, 1⟩, rfl⟩
  have h₄ := h₃.linked ⟨0, 0⟩ .outgoing ⟨1, 0⟩ 1 true
  have h₅ := h₄.linked ⟨0, 0⟩ .outgoing ⟨2, 0⟩ 1 true
  exact ⟨_, _, _, h₅, rfl, by decide, by decide⟩

end Graph

end ReluAbstraction
