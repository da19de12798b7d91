import ReluAbstraction.Proofs.Regrouping

/-!
# Generations of slots

Only a removal takes a slot of an arena to another generation. A handle whose slot has moved on is outdated: it finds
nothing, and no insertion or change makes it find something again. So an arnode that was destroyed in the course of a merge
or a split does not come back under its old handle, whatever is rebuilt afterwards.
-/

namespace ReluAbstraction

open Step

namespace Arena

variable {k : EntityKind} {β : Type} {a a' a'' : Arena k β} {h x : Handle k} {v : β}

/-- Every slot is still there, in the generation it had. -/
def KeepsAges (a a' : Arena k β) : Prop :=
  ∀ {i : Nat} {slot : ArenaSlot β}, a.slots[i]? = some slot → ∃ slot', a'.slots[i]? = some slot' ∧ slot'.generation = slot.generation

theorem KeepsAges.refl (a : Arena k β) : KeepsAges a a := fun hslot => ⟨_, hslot, rfl⟩

theorem KeepsAges.trans (hages : KeepsAges a a') (hages' : KeepsAges a' a'') : KeepsAges a a'' := by
  intro i slot hslot
  obtain ⟨slot', hslot', hgeneration⟩ := hages hslot
  obtain ⟨slot'', hslot'', hgeneration'⟩ := hages' hslot'
  exact ⟨slot'', hslot'', hgeneration'.trans hgeneration⟩

instance : Std.Refl (KeepsAges : Arena k β → Arena k β → Prop) := ⟨KeepsAges.refl⟩

instance : IsTrans (Arena k β) KeepsAges := ⟨fun _ _ _ => KeepsAges.trans⟩

/-- The slot of the handle has moved on to another generation. -/
def Outdated (a : Arena k β) (h : Handle k) : Prop :=
  ∃ slot, a.slots[h.index]? = some slot ∧ slot.generation ≠ h.generation

theorem Outdated.get?_eq_none (hout : a.Outdated h) : a.get? h = none := by
  obtain ⟨slot, hslot, hne⟩ := hout
  simp [get?, hslot, hne]

theorem Outdated.of_keepsAges (hout : a.Outdated h) (hages : KeepsAges a a') : a'.Outdated h := by
  obtain ⟨slot, hslot, hne⟩ := hout
  obtain ⟨slot', hslot', hgeneration⟩ := hages hslot
  exact ⟨slot', hslot', by rwa [hgeneration]⟩

/-- Changing one slot keeps the ages if it keeps the generation of that slot. -/
theorem keepsAges_of_modify_slot {i : Nat} {f : ArenaSlot β → ArenaSlot β} (hslots : a'.slots = a.slots.modify i f)
    (hf : ∀ slot, (f slot).generation = slot.generation) : KeepsAges a a' := by
  intro j slot hslot
  rw [hslots, Array.getElem?_modify]
  by_cases hij : i = j
  · exact ⟨f slot, by rw [if_pos hij, hslot, Option.map_some], hf slot⟩
  · exact ⟨slot, by rw [if_neg hij, hslot], rfl⟩

theorem keepsAges_push (a : Arena k β) (v : β) : KeepsAges a (a.push v) := by
  unfold push
  split
  · exact keepsAges_of_modify_slot (f := fun slot => { slot with value := some v }) rfl fun _ => rfl
  · intro i slot hslot
    refine ⟨slot, ?_, rfl⟩
    rw [Array.getElem?_push, if_neg (Nat.ne_of_lt (Array.getElem?_eq_some_iff.mp hslot).1), hslot]

theorem keepsAges_insert (hins : a.insert v = .ok (h, a')) : KeepsAges a a' := by
  unfold insert insertWith at hins
  cases hnext : a.nextHandle with
  | error e =>
    rw [hnext] at hins
    cases hins
  | ok h' =>
    rw [hnext] at hins
    injection hins with hins
    obtain ⟨_, rfl⟩ := Prod.mk.inj hins
    exact keepsAges_push a v

theorem keepsAges_set (hset : a.set h v = .ok a') : KeepsAges a a' := by
  unfold set at hset
  split at hset
  · injection hset with hset
    subst hset
    exact keepsAges_of_modify_slot (f := fun slot => { slot with value := some v }) rfl fun _ => rfl
  · cases hset

theorem keepsAges_modify {f : β → Except Error β} (hmodify : a.modify h f = .ok a') : KeepsAges a a' := by
  unfold modify at hmodify
  cases hget : a.get h with
  | error e =>
    rw [hget] at hmodify
    cases hmodify
  | ok old =>
    rw [hget] at hmodify
    change (f old >>= fun w => a.set h w) = .ok a' at hmodify
    cases hf : f old with
    | error e =>
      rw [hf] at hmodify
      cases hmodify
    | ok w =>
      rw [hf] at hmodify
      exact keepsAges_set hmodify

/-- No generation is followed by itself. -/
theorem next_generation_ne (g : Nat) : (g + 1) % span ≠ g := by
  unfold span
  omega

/-- Removing an entity leaves its handle outdated. -/
theorem outdated_of_remove (hremove : a.remove h = .ok (v, a')) : a'.Outdated h := by
  unfold remove at hremove
  split at hremove
  · next old hget =>
    injection hremove with hremove
    obtain ⟨_, rfl⟩ := Prod.mk.inj hremove
    refine ⟨⟨(h.generation + 1) % span, none⟩, ?_, next_generation_ne h.generation⟩
    rw [Array.getElem?_modify, if_pos rfl, get?_eq_some_iff.mp hget, Option.map_some]
  · cases hremove

/-- Removing an entity does not touch the slots of others. -/
theorem Outdated.remove (hout : a.Outdated x) (hindex : x.index ≠ h.index) (hremove : a.remove h = .ok (v, a')) :
    a'.Outdated x := by
  unfold Arena.remove at hremove
  split at hremove
  · injection hremove with hremove
    obtain ⟨_, rfl⟩ := Prod.mk.inj hremove
    obtain ⟨slot, hslot, hne⟩ := hout
    exact ⟨slot, by rw [Array.getElem?_modify, if_neg hindex.symm, hslot], hne⟩
  · cases hremove

end Arena

namespace Graph

variable {k : EntityKind} {α δ : Type}

/-- Every slot of the vertices is still there, in the generation it had. -/
def Ages (g g' : Graph k α δ) : Prop := Arena.KeepsAges g g'

instance : Std.Refl (Ages : Graph k α δ → Graph k α δ → Prop) := ⟨Arena.KeepsAges.refl⟩

instance : IsTrans (Graph k α δ) Ages := ⟨fun _ _ _ => Arena.KeepsAges.trans⟩

theorem ages_edit (id : Handle k) (f : Vertex k α δ → Except Error (Vertex k α δ)) : Within Ages (edit id f) := by
  intro g
  rw [edit, meets_update]
  cases hmodify : Arena.modify g id f with
  | error e => exact Arena.KeepsAges.refl g
  | ok g' => exact Arena.keepsAges_modify hmodify

theorem ages_add (v : Vertex k α δ) : Within Ages (add v) := by
  intro g
  rw [add, meets_bind, meets_read]
  cases hins : Arena.insert g v with
  | error e => exact Arena.KeepsAges.refl g
  | ok r => exact Arena.keepsAges_insert hins

theorem ages_link (x : Handle k) (d : Direction) (y : Handle k) (w : α) (both : Bool) :
    Within Ages (link x d y w both : Step (Graph k α δ) Unit) := by
  unfold link find
  refine (Within.read _).bind fun u => (Within.read _).bind fun v => (ages_edit _ _).bind fun _ => ?_
  exact Within.ite (ages_edit _ _) (Within.pure _)

theorem ages_dropEdge (id : Handle k) (d : Direction) (key : EdgeKey) :
    Within Ages (dropEdge id d key : Step (Graph k α δ) (Edge α (Handle k))) := by
  unfold dropEdge find
  exact (Within.read _).bind fun v => (Within.ofExcept _).bind fun r => (ages_edit _ _).bind fun _ => Within.pure _

theorem ages_unlink (x : Handle k) (d : Direction) (y : Handle k) (both : Bool) :
    Within Ages (unlink x d y both : Step (Graph k α δ) α) := by
  unfold unlink find
  refine (Within.read _).bind fun u => (Within.read _).bind fun v => (ages_dropEdge _ _ _).bind fun e => ?_
  exact Within.ite ((ages_dropEdge _ _ _).discard.bind fun _ => Within.pure _) (Within.pure _)

/-- A destroyed vertex leaves an outdated handle, and outdated handles of other slots stay outdated. -/
theorem destroy_outdates (id : Handle k) (g : Graph k α δ) : (destroy id).Meets g
    (fun _ g' => Arena.Outdated g' id ∧ ∀ x : Handle k, x.index ≠ id.index → Arena.Outdated g x → Arena.Outdated g' x)
    (fun _ _ => True) := by
  unfold destroy destroyIn find
  rw [meets_bind, meets_read]
  cases Arena.get g id with
  | error e => trivial
  | ok v =>
    dsimp only
    rw [meets_bind]
    have hdrop : Within (Ages (α := α) (δ := δ))
        (v.neighbors.forM fun n => discard (dropEdge n.2 n.1.reverse v.location.key)) :=
      Within.forM _ fun n => (ages_dropEdge _ _ _).discard
    refine (hdrop g).mono (fun _ g₁ hages => ?_) fun _ _ _ => trivial
    rw [meets_bind, meets_read]
    cases hremove : Arena.remove g₁ id with
    | error e => trivial
    | ok r => exact ⟨Arena.outdated_of_remove hremove, fun x hindex hout => (hout.of_keepsAges hages).remove hindex hremove⟩

end Graph

namespace Abstraction

variable {α β : Type}

/-- Every slot of the arnodes is still there, in the generation it had. -/
def Ages (a a' : Abstraction α) : Prop := Arena.KeepsAges a.arnodes a'.arnodes

instance : Std.Refl (Ages : Abstraction α → Abstraction α → Prop) := ⟨fun a => Arena.KeepsAges.refl a.arnodes⟩

instance : IsTrans (Abstraction α) Ages := ⟨fun _ _ _ => Arena.KeepsAges.trans⟩

theorem ages_onArnodes {step : Step (Graph .arnode α (ArNodeData α)) β} (h : Within Graph.Ages step) :
    Within Ages (onArnodes step) := h.zoom fun _ _ ht => ht

/-- What leaves the arnodes alone leaves their slots alone. -/
theorem ages_of_keeps {step : Step (Abstraction α) β} (h : Keeps (fun a => a.arnodes) step) : Within Ages step := by
  refine h.mono fun a a' hs => ?_
  have harnodes : a'.arnodes = a.arnodes := hs
  rw [Ages, harnodes]
  exact Arena.KeepsAges.refl a.arnodes

theorem ages_onEncoding (step : Step (Encoding α) β) : Within Ages (onEncoding step) := by
  intro a
  unfold onEncoding
  rw [meets_zoom]
  unfold Meets
  cases step a.encoding <;> exact Arena.KeepsAges.refl a.arnodes

theorem ages_recode (f : Encoding α → Encoding α) : Within Ages (recode f) := ages_of_keeps fun _ => rfl

theorem ages_count (event : Event) : Within Ages (count event : Step (Abstraction α) Unit) := ages_of_keeps fun _ => rfl

theorem ages_setLayer (l : Nat) (layer : Layer) : Within Ages (setLayer l layer : Step (Abstraction α) Unit) :=
  ages_of_keeps fun _ => rfl

theorem ages_setOwner (owner : Option ArNodeId) (id : NodeId) :
    Within Ages (setOwner owner id : Step (Abstraction α) Unit) := by
  intro a
  unfold setOwner onNodes
  rw [meets_zoom]
  unfold Meets
  cases Graph.edit id _ a.nodes <;> exact Arena.KeepsAges.refl a.arnodes

theorem ages_advance (id : ArNodeId) (state : ActivationState) :
    Within Ages (advance id state : Step (Abstraction α) Unit) := ages_onArnodes (Graph.ages_edit _ _)

variable [Scalar α]

theorem ages_wrap (l : Nat) (members : List NodeId) :
    Within Ages (wrap l members : Step (Abstraction α) ArNodeId) := by
  unfold wrap TableChain.insertWith
  refine (Within.read _).bind fun layer => ?_
  cases members with
  | nil => exact Within.throw _
  | cons first rest =>
    refine (Within.read _).bind fun node => (Within.ofExcept _).bind fun _ => Within.ite (Within.throw _) ?_
    refine Within.bind ?_ fun r => (ages_setLayer _ _).bind fun _ => Within.pure _
    refine (Within.ofExcept _).bind fun r => Within.bind ?_ fun id => Within.pure _
    unfold spawn
    refine (Within.read _).bind fun bias => (ages_onEncoding _).bind fun vars => Within.bind ?_ fun id => ?_
    · exact Within.tryCatch (ages_onArnodes (Graph.ages_add _)) fun e => (ages_recode _).bind fun _ => Within.throw e
    · refine (Within.forM _ fun m => ages_setOwner _ m).bind fun _ => (ages_recode _).bind fun _ => ?_
      exact (ages_count _).bind fun _ => Within.pure _

theorem ages_forwardActivate (id : ArNodeId) :
    Within Ages (forwardActivate id : Step (Abstraction α) Unit) := by
  unfold forwardActivate
  refine (Within.read _).bind fun arnode => Within.ite (Within.pure _) ((Within.read _).bind fun targets => ?_)
  refine (Within.forM targets fun target => (Within.read _).bind fun weight => ?_).bind fun _ => ages_advance _ _
  cases weight with
  | some weight => exact (ages_onArnodes (Graph.ages_link _ _ _ _ _)).bind fun _ => ages_recode _
  | none => exact Within.pure _

theorem ages_recalculate (id source : ArNodeId) :
    Within Ages (recalculate id source : Step (Abstraction α) Unit) := by
  unfold recalculate
  refine (Within.read _).bind fun weight => ?_
  cases weight with
  | some weight => exact ages_onArnodes (Graph.ages_link _ _ _ _ _)
  | none =>
    refine (Within.read _).bind fun arnode => (Within.read _).bind fun target => ?_
    exact Within.ite (ages_onArnodes (Graph.ages_unlink _ _ _ _)).discard (Within.pure _)

theorem ages_fullyActivate (id : ArNodeId) : Within Ages (fullyActivate id : Step (Abstraction α) Unit) := by
  unfold fullyActivate
  refine (Within.read _).bind fun arnode => Within.ite (Within.pure _) ((Within.ofExcept _).bind fun _ => ?_)
  refine (Within.read _).bind fun sources => (Within.forM _ fun source => Within.read _).bind fun _ => ?_
  refine (Within.read _).bind fun current => (Within.forM _ fun neighbor => ?_).bind fun _ => ?_
  · exact Within.ite (Within.pure _) (ages_onArnodes (Graph.ages_unlink _ _ _ _)).discard
  · refine (Within.forM _ fun source => ages_recalculate id source).bind fun _ => ?_
    exact (ages_recode _).bind fun _ => ages_advance _ _

theorem ages_rebuild (l : Nat) (members : List NodeId) :
    Within Ages (rebuild l members : Step (Abstraction α) ArNodeId) := by
  unfold rebuild
  refine (ages_wrap l members).bind fun id => (ages_forwardActivate id).bind fun _ => ?_
  exact (ages_fullyActivate id).bind fun _ => Within.pure id

/-- An unwrapped arnode leaves an outdated handle, and outdated handles of other slots stay outdated. -/
theorem unwrap_outdates (l : Nat) (id : ArNodeId) (a : Abstraction α) : (unwrap l id).Meets a
    (fun _ a' => a'.arnodes.Outdated id ∧
      ∀ x : ArNodeId, x.index ≠ id.index → a.arnodes.Outdated x → a'.arnodes.Outdated x) (fun _ _ => True) := by
  unfold unwrap
  rw [meets_bind, meets_read]
  cases a.layer l with
  | error e => trivial
  | ok layer =>
    dsimp only
    rw [meets_bind, meets_read]
    cases a.arnode id with
    | error e => trivial
    | ok arnode =>
      dsimp only
      rw [meets_bind, meets_ofExcept]
      cases checkLayer l arnode.location with
      | error e => trivial
      | ok _ =>
        dsimp only
        unfold destroy
        rw [meets_bind, meets_bind, onArnodes, meets_zoom]
        refine (Graph.destroy_outdates id a.arnodes).imp ?_
        rintro ⟨vertex, neighbors⟩ g hout
        -- What follows leaves the arnodes alone.
        have hrest : Within Ages (do
            vertex.data.members.forM (setOwner none)
            neighbors.forM fun p => if p.1 = .outgoing then recode (·.markStale p.2) else pure ()
            recode (·.forget id)
            recode (·.releaseVars vertex.data.vars vertex.data.equation)
            count .arnodeDestroyed
            return vertex.data.members : Step (Abstraction α) (List NodeId)) := by
          refine (Within.forM _ fun m => ages_setOwner _ m).bind fun _ => ?_
          refine (Within.forM _ fun n => Within.ite (ages_recode _) (Within.pure _)).bind fun _ => ?_
          exact (ages_recode _).bind fun _ => (ages_recode _).bind fun _ => (ages_count _).bind fun _ => Within.pure _
        refine (hrest _).mono (fun members a₁ hages => ?_) fun _ _ _ => trivial
        rw [meets_bind, meets_ofExcept]
        cases layer.arnodes.remove arnode.location.category.index arnode.location.slot with
        | error e => trivial
        | ok r => exact ⟨hout.1.of_keepsAges hages, fun x hindex hx => (hout.2 x hindex hx).of_keepsAges hages⟩

/-- Once merged, two arnodes are not found under their old handles. -/
theorem merge_outdates (l : Nat) (first second : ArNodeId) (a : Abstraction α) : (merge l first second).Meets a
    (fun _ a' => a'.arnodes.Outdated first ∧ a'.arnodes.Outdated second) (fun _ _ => True) := by
  refine merge_meets_of_checked (fun _ => trivial) fun hne _ hb hc _ _ _ _ _ => ?_
  -- Both are live at the start, so they differ in their slots.
  have hindex : first.index ≠ second.index := by
    obtain ⟨v, hv, _⟩ := Graph.body?_eq_some_iff.mp hb
    obtain ⟨u, hu, _⟩ := Graph.body?_eq_some_iff.mp hc
    exact fun heq => hne (Arena.eq_of_index_eq hv hu heq)
  rw [meets_bind]
  refine (unwrap_outdates l first a).mono (fun left a₁ h₁ => ?_) fun _ _ _ => trivial
  rw [meets_bind]
  refine (unwrap_outdates l second a₁).mono (fun right a₂ h₂ => ?_) fun _ _ _ => trivial
  have hrest : Within Ages (do
      let merged ← rebuild l (left ++ right)
      count .mergeApplied
      return merged : Step (Abstraction α) ArNodeId) :=
    (ages_rebuild l _).bind fun merged => (ages_count _).bind fun _ => Within.pure merged
  refine (hrest a₂).mono (fun merged a' hages => ?_) fun _ _ _ => trivial
  exact ⟨(h₂.2 first hindex h₁.1).of_keepsAges hages, h₂.1.of_keepsAges hages⟩

/-- Once split, an arnode is not found under its old handle. -/
theorem split_outdates (l : Nat) (id : ArNodeId) (cells : List (List NodeId)) (a : Abstraction α) :
    (split l id cells).Meets a (fun _ a' => a'.arnodes.Outdated id) (fun _ _ => True) := by
  refine split_meets_of_checked (fun _ => trivial) fun _ _ _ _ _ => ?_
  rw [meets_bind, meets_discard]
  refine (unwrap_outdates l id a).mono (fun _ a₁ h₁ => ?_) fun _ _ _ => trivial
  have hrest : Within Ages (do
      let parts ← cells.mapM (rebuild l)
      count .splitApplied
      return parts : Step (Abstraction α) (List ArNodeId)) :=
    (Within.mapM cells (ages_rebuild l)).bind fun parts => (ages_count _).bind fun _ => Within.pure parts
  exact (hrest a₁).mono (fun _ a' hages => h₁.1.of_keepsAges hages) fun _ _ _ => trivial

end Abstraction

end ReluAbstraction
