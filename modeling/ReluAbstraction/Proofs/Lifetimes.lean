import ReluAbstraction.Proofs.Arena
import ReluAbstraction.Proofs.Steps

/-!
# Lifetimes of handles

What an arena is asked and what it answers is written into a ledger, which knows nothing of slots: the handles that were
given out, those whose entity was taken out again, and the latest value under each. As long as no slot has been emptied so
often that its generations start anew, the arena does what the ledger says. So no handle is given out twice, and a handle
whose entity was taken out fails from then on, whatever moves into its slot.
-/

namespace ReluAbstraction.Arena

variable {k : EntityKind} {β ρ : Type}

/-- A request to an arena, by the type of its answer. -/
inductive Request (k : EntityKind) (β : Type) : Type → Type
  /-- Insert an entity built from its own handle. -/
  | insert (build : Handle k → Except Error β) : Request k β (Handle k)
  /-- Change the entity under a handle. -/
  | change (h : Handle k) (f : β → Except Error β) : Request k β Unit
  /-- Take the entity under a handle out. -/
  | remove (h : Handle k) : Request k β β

/-- Serves a request, or refuses it. -/
def Request.serve : Request k β ρ → Step (Arena k β) ρ
  | .insert build => do
    let made ← Step.read fun a => a.insertWith build
    MonadStateOf.set made.2
    return made.1
  | .change h f => Step.update fun a => a.modify h f
  | .remove h => do
    let taken ← Step.read fun a => a.remove h
    MonadStateOf.set taken.2
    return taken.1

/-- What is known of an arena from its answers alone. -/
structure Ledger (k : EntityKind) (β : Type) where
  /-- Handles that were given out, the latest first. -/
  issued : List (Handle k)
  /-- Handles whose entity was taken out, the latest first. -/
  retired : List (Handle k)
  /-- The entities, each with its latest value. -/
  live : Handle k → Option β

namespace Ledger

/-- The ledger of a new arena. -/
def blank : Ledger k β := ⟨[], [], fun _ => none⟩

/-- Writes down a request and its answer. -/
def note (l : Ledger k β) : Request k β ρ → ρ → Ledger k β
  | .insert build, h => { l with issued := h :: l.issued, live := Function.update l.live h (build h).toOption }
  | .change h f, _ => { l with live := Function.update l.live h ((l.live h).bind fun v => (f v).toOption) }
  | .remove h, _ => { l with retired := h :: l.retired, live := Function.update l.live h none }

/-- Number of times that slot `i` was emptied. -/
def removals (l : Ledger k β) (i : Nat) : Nat := l.retired.countP fun h => h.index = i

/-- Notes are never struck out. -/
theorem removals_le_note (l : Ledger k β) (r : Request k β ρ) (answer : ρ) (i : Nat) :
    l.removals i ≤ (l.note r answer).removals i := by
  cases r with
  | insert build => exact le_rfl
  | change h f => exact le_rfl
  | remove h => exact (List.sublist_cons_self h l.retired).countP_le

theorem removals_remove (l : Ledger k β) (h : Handle k) (v : β) (i : Nat) :
    (l.note (.remove h) v).removals i = l.removals i + if h.index = i then 1 else 0 := by
  simp [note, removals, List.countP_cons]

end Ledger

/-- An arena after requests, some of them refused, with the ledger of those that were served. -/
inductive Serves : Arena k β → Ledger k β → Prop
  /-- Nothing was asked yet. -/
  | start : Serves ∅ .blank
  /-- One more request is served. -/
  | served {a a' : Arena k β} {l : Ledger k β} {ρ : Type} {r : Request k β ρ} {answer : ρ} (h : Serves a l)
      (hr : r.serve a = .ok answer a') : Serves a' (l.note r answer)
  /-- One more request is refused. -/
  | refused {a a' : Arena k β} {l : Ledger k β} {ρ : Type} {r : Request k β ρ} {e : Error} (h : Serves a l)
      (hr : r.serve a = .error e a') : Serves a' l

variable {a a' : Arena k β} {l : Ledger k β} {h : Handle k} {v : β}

section Ages

/-- Generation that the next occupant of slot `i` has. -/
def age (a : Arena k β) (i : Nat) : Nat := (a.slots[i]?.map (·.generation)).getD 0

theorem generation_of_get? (hv : a.get? h = some v) : h.generation = a.age h.index := by
  simp [age, get?_eq_some_iff.mp hv]

theorem generation_of_nextHandle (hnext : a.nextHandle = .ok h) : h.generation = a.age h.index := by
  unfold nextHandle at hnext
  split at hnext
  · injection hnext with hnext
    subst hnext
    rfl
  · split at hnext
    · injection hnext with hnext
      subst hnext
      simp [age]
    · cases hnext

theorem age_push (a : Arena k β) (v : β) (i : Nat) : (a.push v).age i = a.age i := by
  unfold push age
  split
  · rw [Array.getElem?_modify]
    split
    · cases a.slots[i]? <;> rfl
    · rfl
  · rw [Array.getElem?_push]
    split
    · next hi => simp [hi]
    · rfl

theorem age_set (hset : a.set h v = .ok a') (i : Nat) : a'.age i = a.age i := by
  unfold set at hset
  split at hset
  · injection hset with hset
    subst hset
    unfold age
    rw [Array.getElem?_modify]
    split
    · cases a.slots[i]? <;> rfl
    · rfl
  · cases hset

/-- Only taking an entity out makes its slot older. -/
theorem age_remove (hremove : a.remove h = .ok (v, a')) (i : Nat) :
    a'.age i = if h.index = i then (a.age i + 1) % span else a.age i := by
  unfold remove at hremove
  split at hremove
  · next old hget =>
    injection hremove with hremove
    obtain ⟨_, rfl⟩ := Prod.mk.inj hremove
    unfold age
    rw [Array.getElem?_modify]
    split
    · next hi => simp [← hi, get?_eq_some_iff.mp hget]
    · rfl
  · cases hremove

end Ages

section Outcomes

variable {build : Handle k → Except Error β} {f : β → Except Error β}

/-- An insertion succeeds with what is built for the next handle. -/
theorem insertWith_of_build (hnext : a.nextHandle = .ok h) (hbuild : build h = .ok v) :
    a.insertWith build = .ok (h, a.push v) := by
  simp only [insertWith, hnext, bind, Except.bind, hbuild]
  rfl

theorem insert_of_nextHandle (hnext : a.nextHandle = .ok h) (v : β) : a.insert v = .ok (h, a.push v) :=
  insertWith_of_build hnext rfl

theorem insertWith_of_build_error {e : Error} (hnext : a.nextHandle = .ok h) (hbuild : build h = .error e) :
    a.insertWith build = .error e := by
  simp only [insertWith, hnext, bind, Except.bind, hbuild]

theorem exists_nextHandle (hsize : a.slots.size < span) : ∃ h, a.nextHandle = .ok h := by
  unfold nextHandle
  split
  · exact ⟨_, rfl⟩
  · exact ⟨_, if_pos hsize⟩

/-- An insertion that succeeds is one of a plain value, under the next handle. -/
theorem exists_of_insertWith (hins : a.insertWith build = .ok (h, a')) :
    ∃ v, a.nextHandle = .ok h ∧ build h = .ok v ∧ a' = a.push v := by
  cases hnext : a.nextHandle with
  | error e =>
    simp only [insertWith, hnext, bind, Except.bind] at hins
    cases hins
  | ok next =>
    cases hbuild : build next with
    | error e =>
      rw [insertWith_of_build_error hnext hbuild] at hins
      cases hins
    | ok v =>
      rw [insertWith_of_build hnext hbuild] at hins
      injection hins with hins
      obtain ⟨rfl, rfl⟩ := Prod.mk.inj hins
      exact ⟨v, rfl, hbuild, rfl⟩

/-- A change that succeeds is one of a live entity. -/
theorem exists_of_modify (hmodify : a.modify h f = .ok a') :
    ∃ v w, a.get? h = some v ∧ f v = .ok w ∧ a.set h w = .ok a' := by
  cases hget : a.get? h with
  | none =>
    rw [modify_of_none hget] at hmodify
    cases hmodify
  | some v =>
    rw [modify_of_get? hget] at hmodify
    cases hf : f v with
    | error e =>
      rw [hf] at hmodify
      cases hmodify
    | ok w =>
      rw [hf] at hmodify
      exact ⟨v, w, rfl, hf, hmodify⟩

theorem get?_of_remove (hremove : a.remove h = .ok (v, a')) : a.get? h = some v := by
  unfold remove at hremove
  split at hremove
  · next old hget =>
    injection hremove with hremove
    obtain ⟨rfl, _⟩ := Prod.mk.inj hremove
    exact hget
  · cases hremove

end Outcomes

section Serving

variable {build : Handle k → Except Error β} {f : β → Except Error β} {e : Error}

theorem serve_insert (hins : a.insertWith build = .ok (h, a')) : (Request.insert build).serve a = .ok h a' := by
  change EStateM.bind (Step.read fun a => a.insertWith build) _ a = _
  simp only [EStateM.bind, Step.read, hins]
  rfl

theorem serve_insert_error (hins : a.insertWith build = .error e) : (Request.insert build).serve a = .error e a := by
  change EStateM.bind (Step.read fun a => a.insertWith build) _ a = _
  simp only [EStateM.bind, Step.read, hins]

theorem serve_change (hmodify : a.modify h f = .ok a') : (Request.change h f).serve a = .ok () a' := by
  simp only [Request.serve, Step.update, hmodify]

theorem serve_change_error (hmodify : a.modify h f = .error e) : (Request.change h f).serve a = .error e a := by
  simp only [Request.serve, Step.update, hmodify]

theorem serve_remove (hremove : a.remove h = .ok (v, a')) : (Request.remove h).serve a = .ok v a' := by
  change EStateM.bind (Step.read fun a => a.remove h) _ a = _
  simp only [EStateM.bind, Step.read, hremove]
  rfl

theorem serve_remove_error (hremove : a.remove h = .error e) : (Request.remove h).serve a = .error e a := by
  change EStateM.bind (Step.read fun a => a.remove h) _ a = _
  simp only [EStateM.bind, Step.read, hremove]

/-- A request that is refused leaves the arena as it was. -/
theorem eq_of_refused {r : Request k β ρ} (hr : r.serve a = .error e a') : a' = a := by
  cases r with
  | insert build =>
    cases hins : a.insertWith build with
    | error e' =>
      rw [serve_insert_error hins] at hr
      injection hr with _ hr
      exact hr.symm
    | ok made =>
      rw [serve_insert hins] at hr
      cases hr
  | change h f =>
    cases hmodify : a.modify h f with
    | error e' =>
      rw [serve_change_error hmodify] at hr
      injection hr with _ hr
      exact hr.symm
    | ok _ =>
      rw [serve_change hmodify] at hr
      cases hr
  | remove h =>
    cases hremove : a.remove h with
    | error e' =>
      rw [serve_remove_error hremove] at hr
      injection hr with _ hr
      exact hr.symm
    | ok taken =>
      rw [serve_remove hremove] at hr
      cases hr

end Serving

/-- The arena is in step with the ledger: the age of a slot is the number of times it was emptied, and handles that were
given up are of an earlier age. -/
structure Tracks (a : Arena k β) (l : Ledger k β) : Prop where
  wellFormed : a.WellFormed
  get?_eq : ∀ h, a.get? h = l.live h
  age_eq : ∀ i, a.age i = l.removals i
  issued_iff : ∀ h, h ∈ l.issued ↔ (l.live h).isSome ∨ h ∈ l.retired
  retired_lt : ∀ h ∈ l.retired, h.generation < l.removals h.index
  issued_nodup : l.issued.Nodup

namespace Tracks

theorem start : Tracks (∅ : Arena k β) .blank where
  wellFormed := wellFormed_empty
  get?_eq h := get?_empty h
  age_eq i := rfl
  issued_iff h := by simp [Ledger.blank]
  retired_lt h hmem := by cases hmem
  issued_nodup := .nil

/-- A handle that was given up is of an age that its slot has left. -/
theorem retired_live (ht : Tracks a l) (hmem : h ∈ l.retired) : l.live h = none := by
  rw [← ht.get?_eq, Option.eq_none_iff_forall_ne_some]
  intro v hv
  have hage := generation_of_get? hv
  have hlt := ht.retired_lt h hmem
  rw [ht.age_eq] at hage
  omega

/-- The next handle is of the present age of its slot, which holds nothing: it was never given out. -/
theorem next_not_issued (ht : Tracks a l) (hnext : a.nextHandle = .ok h) : h ∉ l.issued := by
  rw [ht.issued_iff, not_or]
  constructor
  · rw [← ht.get?_eq, Bool.not_eq_true, Option.isSome_eq_false_iff, Option.isNone_iff_eq_none,
      Option.eq_none_iff_forall_ne_some]
    intro v hv
    rw [(insert_spec ht.wellFormed (insert_of_nextHandle hnext v)).2.1] at hv
    cases hv
  · intro hmem
    have hage := generation_of_nextHandle hnext
    have hlt := ht.retired_lt h hmem
    rw [ht.age_eq] at hage
    omega

theorem insert (ht : Tracks a l) {build : Handle k → Except Error β} (hins : a.insertWith build = .ok (h, a')) :
    Tracks a' (l.note (.insert build) h) := by
  obtain ⟨v, hnext, hbuild, rfl⟩ := exists_of_insertWith hins
  have hnew := ht.next_not_issued hnext
  obtain ⟨hwell, _, hget, _⟩ := insert_spec ht.wellFormed (insert_of_nextHandle hnext v)
  have hnote : l.note (.insert build) h =
      { l with issued := h :: l.issued, live := Function.update l.live h (some v) } := by
    simp [Ledger.note, hbuild, Except.toOption]
  rw [hnote]
  refine ⟨hwell, fun x => ?_, fun i => (age_push a v i).trans (ht.age_eq i), fun x => ?_, ht.retired_lt, ?_⟩
  · simp only [hget, Function.update_apply, ht.get?_eq]
  · simp only [List.mem_cons, ht.issued_iff, Function.update_apply]
    by_cases hx : x = h <;> simp [hx]
  · exact List.nodup_cons.mpr ⟨hnew, ht.issued_nodup⟩

theorem change (ht : Tracks a l) {f : β → Except Error β} (hmodify : a.modify h f = .ok a') :
    Tracks a' (l.note (.change h f) ()) := by
  obtain ⟨v, w, hv, hf, hset⟩ := exists_of_modify hmodify
  obtain ⟨a₁, hset₁, hget, hwell, _⟩ := set_spec (v := w) hv
  rw [hset] at hset₁
  cases hset₁
  have hlive : l.live h = some v := ht.get?_eq h ▸ hv
  have hnote : l.note (.change h f) () = { l with live := Function.update l.live h (some w) } := by
    simp [Ledger.note, hlive, hf, Except.toOption]
  rw [hnote]
  refine ⟨hwell ht.wellFormed, fun x => ?_, fun i => (age_set hset i).trans (ht.age_eq i), fun x => ?_, ht.retired_lt,
    ht.issued_nodup⟩
  · simp only [hget, Function.update_apply, ht.get?_eq]
  · simp only [ht.issued_iff, Function.update_apply]
    by_cases hx : x = h <;> simp [hx, hlive]

/-- Taking an entity out makes its slot older, as long as the generations do not start anew. -/
theorem remove (ht : Tracks a l) (hremove : a.remove h = .ok (v, a'))
    (hspan : (l.note (.remove h) v).removals h.index < span) : Tracks a' (l.note (.remove h) v) := by
  have hv := get?_of_remove hremove
  obtain ⟨a₁, hremove₁, hget, hwell, _⟩ := remove_spec hv
  rw [hremove] at hremove₁
  cases hremove₁
  have hlive : l.live h = some v := ht.get?_eq h ▸ hv
  have hage := generation_of_get? hv
  rw [ht.age_eq] at hage
  rw [Ledger.removals_remove, if_pos rfl] at hspan
  refine ⟨hwell ht.wellFormed, fun x => ?_, fun i => ?_, fun x => ?_, fun x hx => ?_, ht.issued_nodup⟩
  · simp only [hget, Ledger.note, Function.update_apply, ht.get?_eq]
  · rw [age_remove hremove, Ledger.removals_remove, ht.age_eq]
    by_cases hi : h.index = i
    · subst hi
      rw [if_pos rfl, if_pos rfl, Nat.mod_eq_of_lt hspan]
    · rw [if_neg hi, if_neg hi, Nat.add_zero]
  · simp only [Ledger.note, List.mem_cons, Function.update_apply, ht.issued_iff]
    by_cases hx : x = h <;> simp [hx, hlive]
  · rw [Ledger.removals_remove]
    rcases List.mem_cons.mp hx with rfl | hx
    · simp [hage]
    · exact (ht.retired_lt x hx).trans_le (Nat.le_add_right _ _)

/-- Serving a request keeps the arena in step. -/
theorem served (ht : Tracks a l) {r : Request k β ρ} {answer : ρ} (hr : r.serve a = .ok answer a')
    (hspan : ∀ i, (l.note r answer).removals i < span) : Tracks a' (l.note r answer) := by
  cases r with
  | insert build =>
    cases hins : a.insertWith build with
    | error e =>
      rw [serve_insert_error hins] at hr
      cases hr
    | ok made =>
      rw [serve_insert hins] at hr
      cases hr
      exact ht.insert hins
  | change h f =>
    cases hmodify : a.modify h f with
    | error e =>
      rw [serve_change_error hmodify] at hr
      cases hr
    | ok _ =>
      rw [serve_change hmodify] at hr
      cases hr
      exact ht.change hmodify
  | remove h =>
    cases hremove : a.remove h with
    | error e =>
      rw [serve_remove_error hremove] at hr
      cases hr
    | ok taken =>
      rw [serve_remove hremove] at hr
      cases hr
      exact ht.remove hremove (hspan h.index)

end Tracks

theorem Serves.tracks (h : Serves a l) (hspan : ∀ i, l.removals i < span) : Tracks a l := by
  induction h with
  | start => exact .start
  | served _ hr ih => exact (ih fun i => (Ledger.removals_le_note _ _ _ i).trans_lt (hspan i)).served hr hspan
  | refused _ hr ih => exact eq_of_refused hr ▸ ih hspan

/-- The live entities are listed by increasing slots. -/
theorem pairwise_toList (a : Arena k β) : a.toList.Pairwise fun x y => x.1.index < y.1.index := by
  have hzip : a.slots.toList.zipIdx.Pairwise fun x y => x.2 < y.2 := by
    rw [List.pairwise_iff_getElem]
    intro i j _ _ hij
    simpa using hij
  refine List.pairwise_filterMap.mpr (hzip.imp fun {x y} hxy b hb c hc => ?_)
  obtain ⟨_, _, rfl⟩ := Option.map_eq_some_iff.mp hb
  obtain ⟨_, _, rfl⟩ := Option.map_eq_some_iff.mp hc
  exact hxy

/-- A well-formed arena counts the entities that it lists. -/
theorem WellFormed.size_eq_length (hw : a.WellFormed) : a.size = a.toList.length := by
  have hnodup : (a.toList.map (·.1)).Nodup := by
    rw [List.nodup_iff_pairwise_ne, List.pairwise_map]
    refine a.pairwise_toList.imp fun {x y} hlt heq => ?_
    rw [heq] at hlt
    exact lt_irrefl _ hlt
  rw [← hw.card_handles, handles, List.toFinset_card_of_nodup hnodup, List.length_map]

/-- The arena does what the ledger says. -/
structure Honors (a : Arena k β) (l : Ledger k β) : Prop where
  /-- No handle was given out twice. -/
  issued_nodup : l.issued.Nodup
  /-- A handle that was given out has its entity, or the entity was taken out. -/
  issued_iff : ∀ h, h ∈ l.issued ↔ (l.live h).isSome ∨ h ∈ l.retired
  /-- An entity that was taken out has not come back. -/
  retired_live : ∀ h ∈ l.retired, l.live h = none
  /-- The next entity gets a handle that was never given out. Nothing changes if it cannot be built. -/
  insert_fresh : ∃ h, h ∉ l.issued ∧ ∀ build,
    (∀ v, build h = .ok v → ∃ a', (Request.insert build).serve a = .ok h a') ∧
      ∀ e, build h = .error e → (Request.insert build).serve a = .error e a
  /-- Through a live handle every access sees the latest value. -/
  of_live : ∀ {h v}, l.live h = some v → a.get h = .ok v ∧ a.contains h = true ∧
    (∃ a', (Request.remove h).serve a = .ok v a') ∧ ∀ f,
      (∀ w, f v = .ok w → ∃ a', (Request.change h f).serve a = .ok () a') ∧
        ∀ e, f v = .error e → (Request.change h f).serve a = .error e a
  /-- Through any other handle every access fails and changes nothing. -/
  of_dead : ∀ {h}, l.live h = none → a.get h = .error (.usedAfterDestroy k h.index) ∧ a.contains h = false ∧
    (Request.remove h).serve a = .error (.usedAfterDestroy k h.index) a ∧
      ∀ f, (Request.change h f).serve a = .error (.usedAfterDestroy k h.index) a
  /-- Whatever is refused, the arena stays as it was. -/
  refused : ∀ {ρ : Type} {r : Request k β ρ} {e a'}, r.serve a = .error e a' → a' = a
  /-- The live entities are listed, each once and in the order of their slots. -/
  mem_toList_iff : ∀ h v, (h, v) ∈ a.toList ↔ l.live h = some v
  slot_order : a.toList.Pairwise fun x y => x.1.index < y.1.index
  /-- They are counted. -/
  size_eq : a.size = a.toList.length

/-- As long as less than `span` slots are in use and none was emptied `span` times, an arena does what its ledger says,
whatever it was asked for before. -/
theorem honors_of_serves (h : Serves a l) (hslots : a.slots.size < span) (hremovals : ∀ i, l.removals i < span) :
    Honors a l := by
  have ht := h.tracks hremovals
  refine ⟨ht.issued_nodup, ht.issued_iff, fun h => ht.retired_live, ?_, fun {h v} hv => ?_, fun {h} hv => ?_,
    eq_of_refused, fun h v => ?_, pairwise_toList a, ht.wellFormed.size_eq_length⟩
  · obtain ⟨next, hnext⟩ := exists_nextHandle hslots
    refine ⟨next, ht.next_not_issued hnext, fun build => ⟨fun v hv => ?_, fun e he => ?_⟩⟩
    · exact ⟨_, serve_insert (insertWith_of_build hnext hv)⟩
    · exact serve_insert_error (insertWith_of_build_error hnext he)
  · have hget : a.get? h = some v := (ht.get?_eq h).trans hv
    obtain ⟨a', hremove, _⟩ := remove_spec hget
    refine ⟨get_of_get? hget, by simp [contains, hget], ⟨a', serve_remove hremove⟩, fun f => ⟨fun w hw => ?_, fun e he => ?_⟩⟩
    · obtain ⟨a', hmodify, _⟩ := modify_spec hget hw
      exact ⟨a', serve_change hmodify⟩
    · refine serve_change_error ?_
      rw [modify_of_get? hget, he]
      rfl
  · have hget : a.get? h = none := (ht.get?_eq h).trans hv
    exact ⟨get_of_none hget, by simp [contains, hget], serve_remove_error (remove_of_none hget),
      fun f => serve_change_error (modify_of_none hget)⟩
  · rw [Arena.mem_toList_iff, ht.get?_eq]

/-- One entity was taken out and another has moved into its slot. The first handle fails, and the second one is different
and sees the second entity. -/
theorem honors_of_serves_reused : ∃ (a : Arena .node Nat) (l : Ledger .node Nat), Serves a l ∧
    l.issued = [⟨0, 1⟩, ⟨0, 0⟩] ∧ l.retired = [⟨0, 0⟩] ∧ a.get ⟨0, 0⟩ = .error (.usedAfterDestroy .node 0) ∧
    a.get ⟨0, 1⟩ = .ok 9 ∧ Honors a l := by
  have hfirst := Serves.served (r := .insert fun _ => .ok 7) (.start (k := .node) (β := Nat)) rfl
  have hempty := hfirst.served (r := .remove ⟨0, 0⟩) rfl
  have hsecond := hempty.served (r := .insert fun h => .ok (8 + h.generation)) rfl
  refine ⟨_, _, hsecond, rfl, rfl, rfl, rfl, honors_of_serves hsecond (by decide) fun i => ?_⟩
  have hle := List.countP_le_length (p := fun h : Handle .node => decide (h.index = i)) (l := [⟨0, 0⟩])
  exact hle.trans_lt (by decide)

end ReluAbstraction.Arena
