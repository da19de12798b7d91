import ReluAbstraction.Error
import Mathlib.Tactic

/-!
# Reasoning about steps

A step that fails keeps what it has done, so a statement about it has two halves: what holds when it succeeds, and what
holds when it fails. `Step.Meets` states both. The rules below take a program apart along its text; later files state one
specification for each operation and combine them by these rules.
-/

namespace ReluAbstraction

section Traversal

variable {ε β γ : Type} {f : β → Except ε γ}

/-- A traversal succeeds exactly if it does at every element. -/
theorem mapM_eq_ok_iff {xs : List β} {ys : List γ} :
    xs.mapM f = .ok ys ↔ List.Forall₂ (fun x y => f x = .ok y) xs ys := by
  induction xs generalizing ys with
  | nil =>
    rw [List.mapM_nil, List.forall₂_nil_left_iff]
    exact ⟨fun h => (Except.ok.inj h).symm, fun h => h ▸ rfl⟩
  | cons x xs ih =>
    rw [List.mapM_cons, List.forall₂_cons_left_iff]
    cases hx : f x with
    | error e => simp [bind, Except.bind]
    | ok y =>
      cases hxs : xs.mapM f with
      | error e => simp [bind, Except.bind, ← ih, hxs]
      | ok rest =>
        simp only [bind, Except.bind, pure, Except.pure, Except.ok.injEq, ← ih, hxs]
        constructor
        · rintro rfl
          exact ⟨y, rest, rfl, rfl, rfl⟩
        · rintro ⟨_, _, rfl, rfl, rfl⟩
          rfl

/-- The results of a traversal are those of the elements. -/
theorem mem_of_mapM_ok {xs : List β} {ys : List γ} (h : xs.mapM f = .ok ys) :
    (∀ x ∈ xs, ∃ y ∈ ys, f x = .ok y) ∧ ∀ y ∈ ys, ∃ x ∈ xs, f x = .ok y := by
  rw [mapM_eq_ok_iff] at h
  induction h with
  | nil => simp
  | cons hxy _ ih =>
    constructor
    · rintro x' (_ | ⟨_, hx'⟩)
      · exact ⟨_, List.mem_cons_self, hxy⟩
      · obtain ⟨y', hy', hf⟩ := ih.1 x' hx'
        exact ⟨y', List.mem_cons_of_mem _ hy', hf⟩
    · rintro y' (_ | ⟨_, hy'⟩)
      · exact ⟨_, List.mem_cons_self, hxy⟩
      · obtain ⟨x', hx', hf⟩ := ih.2 y' hy'
        exact ⟨x', List.mem_cons_of_mem _ hx', hf⟩

/-- A traversal that succeeds at every element with a known result. -/
theorem mapM_eq_ok_map {xs : List β} (g : β → γ) (h : ∀ x ∈ xs, f x = .ok (g x)) : xs.mapM f = .ok (xs.map g) := by
  rw [mapM_eq_ok_iff, List.forall₂_map_right_iff, List.forall₂_same]
  exact h

/-- A traversal fails as it does at some element. -/
theorem exists_of_mapM_error {xs : List β} {e : ε} (h : xs.mapM f = .error e) : ∃ x ∈ xs, f x = .error e := by
  induction xs with
  | nil => cases h
  | cons x xs ih =>
    rw [List.mapM_cons] at h
    cases hx : f x with
    | error e' =>
      simp only [hx, bind, Except.bind, Except.error.injEq] at h
      exact ⟨x, by simp, by rw [hx, h]⟩
    | ok y =>
      cases hxs : xs.mapM f with
      | error e' =>
        simp only [hx, hxs, bind, Except.bind, Except.error.injEq] at h
        obtain ⟨x', hx', he⟩ := ih (by rw [hxs, h])
        exact ⟨x', by simp [hx'], he⟩
      | ok rest =>
        simp only [hx, hxs, bind, Except.bind, pure, Except.pure] at h
        cases h

/-- A traversal succeeds if it does at every element, and what holds of the single results holds of all. -/
theorem exists_mapM_ok {xs : List β} {P : β → γ → Prop} (h : ∀ x ∈ xs, ∃ y, f x = .ok y ∧ P x y) :
    ∃ ys, xs.mapM f = .ok ys ∧ (∀ x ∈ xs, ∃ y ∈ ys, P x y) ∧ ∀ y ∈ ys, ∃ x ∈ xs, P x y := by
  have hresult : ∀ x ∈ xs, ∀ {y}, f x = .ok y → P x y := by
    intro x hx y hy
    obtain ⟨y', hy', hp⟩ := h x hx
    rw [hy] at hy'
    cases hy'
    exact hp
  cases hmap : xs.mapM f with
  | ok ys =>
    obtain ⟨hleft, hright⟩ := mem_of_mapM_ok hmap
    refine ⟨ys, rfl, fun x hx => ?_, fun y hy => ?_⟩
    · obtain ⟨y, hy, hok⟩ := hleft x hx
      exact ⟨y, hy, hresult x hx hok⟩
    · obtain ⟨x, hx, hok⟩ := hright y hy
      exact ⟨x, hx, hresult x hx hok⟩
  | error e =>
    obtain ⟨x, hx, he⟩ := exists_of_mapM_error hmap
    obtain ⟨y, hy, _⟩ := h x hx
    rw [hy] at he
    cases he

/-- A result that is there and has a property. -/
theorem exists_ok_of_toOption {r : Except ε β} {P : β → Prop} (h : ∃ b ∈ r.toOption, P b) : ∃ b, r = .ok b ∧ P b := by
  obtain ⟨b, hb, hP⟩ := h
  cases r with
  | error e => cases hb
  | ok _ =>
    cases hb
    exact ⟨b, rfl, hP⟩

/-- A fold succeeds if each step of it does, where `I` tells what holds of the elements read so far. -/
theorem exists_foldlM_ok {xs : List β} {g : γ → β → Except ε γ} {init : γ} (I : List β → γ → Prop) (start : I [] init)
    (step : ∀ done x rest c, xs = done ++ x :: rest → I done c → ∃ c', g c x = .ok c' ∧ I (done ++ [x]) c') :
    ∃ c, xs.foldlM g init = .ok c ∧ I xs c := by
  suffices h : ∀ (rest done : List β) (c : γ), xs = done ++ rest → I done c →
      ∃ c', rest.foldlM g c = .ok c' ∧ I xs c' from h xs [] init rfl start
  intro rest
  induction rest with
  | nil =>
    intro done c hxs hc
    rw [List.append_nil] at hxs
    exact ⟨c, rfl, hxs ▸ hc⟩
  | cons x rest ih =>
    intro done c hxs hc
    obtain ⟨c', hc', hi⟩ := step done x rest c hxs hc
    rw [List.foldlM_cons, hc']
    exact ih (done ++ [x]) c' (by simp [hxs]) hi

end Traversal

namespace Step

variable {σ τ β γ ι ν : Type}

/-- The step, started in `s`, ends in `post` when it succeeds and in `fail` when it does not. -/
def Meets (step : Step σ β) (s : σ) (post : β → σ → Prop) (fail : Error → σ → Prop) : Prop :=
  match step s with
  | .ok b s' => post b s'
  | .error e s' => fail e s'

/-- The failure half of a step that never fails. -/
def Never (_ : Error) (_ : σ) : Prop := False

instance (e : Error) (s : σ) : Decidable (Never e s) := .isFalse id

variable {s : σ} {post post' : β → σ → Prop} {fail fail' : Error → σ → Prop}

/-- A specification whose halves can be decided is decided by taking the step. -/
instance [∀ b s', Decidable (post b s')] [∀ e s', Decidable (fail e s')] (step : Step σ β) (s : σ) :
    Decidable (Meets step s post fail) :=
  EStateM.Result.casesOn (motive := fun r => Decidable (Meets (fun _ => r) s post fail)) (step s)
    (fun b s' => inferInstanceAs (Decidable (post b s'))) fun e s' => inferInstanceAs (Decidable (fail e s'))

/-- Both halves of a specification may be weakened. -/
theorem Meets.mono {step : Step σ β} (h : Meets step s post fail) (hpost : ∀ b s', post b s' → post' b s')
    (hfail : ∀ e s', fail e s' → fail' e s') : Meets step s post' fail' := by
  unfold Meets at *
  cases hstep : step s with
  | ok b s' =>
    rw [hstep] at h
    exact hpost b s' h
  | error e s' =>
    rw [hstep] at h
    exact hfail e s' h

/-- What holds of every outcome holds of the one there is. -/
theorem meets_of_forall (step : Step σ β) (s : σ) (hpost : ∀ b s', post b s') (hfail : ∀ e s', fail e s') :
    Meets step s post fail := by
  unfold Meets
  cases step s with
  | ok b s' => exact hpost b s'
  | error e s' => exact hfail e s'

/-- The success half of a specification may be weakened. -/
theorem Meets.imp {step : Step σ β} (h : Meets step s post fail) (hpost : ∀ b s', post b s' → post' b s') :
    Meets step s post' fail := h.mono hpost fun _ _ hf => hf

theorem discard_eq_ok {step : Step σ β} {b : β} {s' : σ} (h : step s = .ok b s') : Functor.discard step s = .ok () s' := by
  change EStateM.map (fun _ => ()) step s = _
  simp [EStateM.map, h]

/-- A sequence whose first part succeeds goes on with the rest. -/
theorem bind_eq_of_ok {step : Step σ γ} {next : γ → Step σ β} {s' : σ} {c : γ} (h : step s = .ok c s') :
    (step >>= next) s = next c s' := by
  change EStateM.bind step next s = _
  simp [EStateM.bind, h]

theorem get_bind_eq {next : σ → Step σ β} (s : σ) : (get >>= next) s = next s s := rfl

/-- Two specifications of one step hold together. -/
theorem Meets.and {step : Step σ β} (h : Meets step s post fail) (h' : Meets step s post' fail') :
    Meets step s (fun b s' => post b s' ∧ post' b s') (fun e s' => fail e s' ∧ fail' e s') := by
  unfold Meets at *
  cases hstep : step s with
  | ok b s' =>
    rw [hstep] at h h'
    exact ⟨h, h'⟩
  | error e s' =>
    rw [hstep] at h h'
    exact ⟨h, h'⟩

/-- A step that never fails has a result. -/
theorem Meets.exists_ok {step : Step σ β} (h : Meets step s post Never) :
    ∃ b s', step s = .ok b s' ∧ post b s' := by
  unfold Meets at h
  cases hstep : step s with
  | ok b s' =>
    rw [hstep] at h
    exact ⟨b, s', rfl, h⟩
  | error e s' =>
    rw [hstep] at h
    exact h.elim

/-- A step that never succeeds fails. -/
theorem Meets.exists_error {step : Step σ β} (h : Meets step s (fun _ _ => False) fail) :
    ∃ e s', step s = .error e s' ∧ fail e s' := by
  unfold Meets at h
  cases hstep : step s with
  | ok b s' =>
    rw [hstep] at h
    exact h.elim
  | error e s' =>
    rw [hstep] at h
    exact ⟨e, s', rfl, h⟩

/-- What a specification says of a successful outcome. -/
theorem Meets.of_ok {step : Step σ β} (h : Meets step s post fail) {b : β} {s' : σ} (hok : step s = .ok b s') :
    post b s' := by
  unfold Meets at h
  rwa [hok] at h

/-- The outcome of a step that succeeds is the one it has. -/
theorem Meets.ok_eq {step : Step σ β} (h : Meets step s post fail) :
    Meets step s (fun b s' => step s = .ok b s' ∧ post b s') fail := by
  unfold Meets at *
  cases hstep : step s with
  | ok b s' =>
    rw [hstep] at h
    exact ⟨rfl, h⟩
  | error e s' =>
    rw [hstep] at h
    exact h

/-- A step that can only end in one state ends there. -/
theorem Meets.eq_ok {step : Step σ Unit} {t : σ} (h : Meets step s (fun _ s' => s' = t) Never) : step s = .ok () t := by
  obtain ⟨_, _, hrun, rfl⟩ := h.exists_ok
  exact hrun

theorem meets_of_eq_ok {step : Step σ β} {b : β} {t : σ} (hrun : step s = .ok b t) (h : post b t) :
    Meets step s post fail := by
  rw [Meets, hrun]
  exact h

/-- A step that leaves the state alone on failure is an update. -/
theorem eq_update {step : Step σ Unit} {f : σ → Except Error σ}
    (h : Meets step s (fun _ s' => f s = .ok s') (fun e s' => f s = .error e ∧ s' = s)) : step s = update f s := by
  unfold Meets at h
  unfold update
  cases hstep : step s with
  | ok u s' =>
    rw [hstep] at h
    rw [show f s = .ok s' from h]
  | error e s' =>
    rw [hstep] at h
    obtain ⟨hf, rfl⟩ := h
    rw [hf]

/-- What a specification says of a failed outcome. -/
theorem Meets.of_error {step : Step σ β} (h : Meets step s post fail) {e : Error} {s' : σ}
    (herror : step s = .error e s') : fail e s' := by
  unfold Meets at h
  rwa [herror] at h

/-- What holds of the state after a step, whether it succeeded or not. -/
theorem Meets.outcome {step : Step σ β} {P : σ → Prop} (h : Meets step s (fun _ => P) (fun _ => P)) :
    P (step.outcome s).2 := by
  unfold Meets at h
  unfold Step.outcome
  cases hstep : step s with
  | ok b s' =>
    rw [hstep] at h
    exact h
  | error e s' =>
    rw [hstep] at h
    exact h

@[simp] theorem meets_pure (b : β) : Meets (pure b : Step σ β) s post fail ↔ post b s := Iff.rfl

@[simp] theorem meets_throw (e : Error) : Meets (throw e : Step σ β) s post fail ↔ fail e s := Iff.rfl

/-- A sequence meets a specification if its first part meets the one that the rest needs. -/
@[simp] theorem meets_bind {step : Step σ γ} {next : γ → Step σ β} :
    Meets (step >>= next) s post fail ↔ Meets step s (fun c s' => Meets (next c) s' post fail) fail := by
  change (match EStateM.bind step next s with | .ok b s' => post b s' | .error e s' => fail e s') ↔ _
  unfold EStateM.bind Meets
  cases step s with
  | ok c s' => rfl
  | error e s' => rfl

@[simp] theorem meets_map {step : Step σ γ} {f : γ → β} :
    Meets (f <$> step) s post fail ↔ Meets step s (fun c s' => post (f c) s') fail := by
  change (match EStateM.map f step s with | .ok b s' => post b s' | .error e s' => fail e s') ↔ _
  unfold EStateM.map Meets
  cases step s with
  | ok c s' => rfl
  | error e s' => rfl

@[simp] theorem meets_discard {step : Step σ γ} {post : Unit → σ → Prop} :
    Meets (discard step) s post fail ↔ Meets step s (fun _ s' => post () s') fail := meets_map

@[simp] theorem meets_get {post : σ → σ → Prop} : Meets (get : Step σ σ) s post fail ↔ post s s := Iff.rfl

@[simp] theorem meets_set {t : σ} {post : PUnit → σ → Prop} :
    Meets (set t : Step σ PUnit) s post fail ↔ post ⟨⟩ t := Iff.rfl

@[simp] theorem meets_modify {f : σ → σ} {post : PUnit → σ → Prop} :
    Meets (modify f : Step σ PUnit) s post fail ↔ post ⟨⟩ (f s) := Iff.rfl

@[simp] theorem meets_read {f : σ → Except Error β} :
    Meets (read f) s post fail ↔ match f s with | .ok b => post b s | .error e => fail e s := by
  unfold Meets read
  cases f s <;> rfl

@[simp] theorem meets_update {f : σ → Except Error σ} {post : Unit → σ → Prop} :
    Meets (update f) s post fail ↔ match f s with | .ok s' => post () s' | .error e => fail e s := by
  unfold Meets update
  cases f s <;> rfl

@[simp] theorem meets_ofExcept {x : Except Error β} :
    Meets (ofExcept x) s post fail ↔ match x with | .ok b => post b s | .error e => fail e s := by
  cases x <;> rfl

@[simp] theorem meets_zoom {part : σ → τ} {restore : σ → τ → σ} {step : Step τ β} :
    Meets (zoom part restore step) s post fail ↔
      Meets step (part s) (fun b t => post b (restore s t)) (fun e t => fail e (restore s t)) := by
  unfold Meets zoom
  cases step (part s) <;> rfl

@[simp] theorem meets_tryCatch {step : Step σ β} {handler : Error → Step σ β} :
    Meets (tryCatch step handler) s post fail ↔
      Meets step s post (fun e s' => Meets (handler e) s' post fail) := by
  change (match EStateM.tryCatch step handler s with | .ok b s' => post b s' | .error e s' => fail e s') ↔ _
  unfold EStateM.tryCatch Meets
  cases hstep : step s with
  | ok b s' => rfl
  | error e s' => rfl

@[simp] theorem meets_ite {c : Prop} [Decidable c] {yes no : Step σ β} :
    Meets (if c then yes else no) s post fail ↔
      (c → Meets yes s post fail) ∧ (¬c → Meets no s post fail) := by
  by_cases h : c <;> simp [h]

/-- A loop over a list keeps an invariant that speaks of the elements done so far. -/
theorem Meets.forM {xs : List ι} {f : ι → Step σ PUnit} (I : List ι → σ → Prop) (start : I [] s)
    (each : ∀ done x rest s, xs = done ++ x :: rest → I done s → Meets (f x) s (fun _ s' => I (done ++ [x]) s') fail) :
    Meets (xs.forM f) s (fun _ s' => I xs s') fail := by
  suffices h : ∀ rest done s, xs = done ++ rest → I done s → Meets (rest.forM f) s (fun _ s' => I xs s') fail from
    h xs [] s rfl start
  intro rest
  induction rest with
  | nil =>
    intro done s hxs hdone
    rw [List.append_nil] at hxs
    subst hxs
    exact hdone
  | cons x rest ih =>
    intro done s hxs hdone
    change Meets (f x >>= fun _ => rest.forM f) s _ fail
    rw [meets_bind]
    refine (each done x rest s hxs hdone).imp fun _ s' hx => ih (done ++ [x]) s' ?_ hx
    rw [hxs, List.append_assoc, List.singleton_append]

/-- A loop that collects results keeps an invariant that speaks of the elements done so far and of their results. -/
theorem Meets.mapM {xs : List ι} {f : ι → Step σ γ} (I : List ι → List γ → σ → Prop) (start : I [] [] s)
    (each : ∀ done ys x rest s, xs = done ++ x :: rest → I done ys s →
      Meets (f x) s (fun y s' => I (done ++ [x]) (ys ++ [y]) s') fail) :
    Meets (xs.mapM f) s (fun ys s' => I xs ys s') fail := by
  suffices h : ∀ rest done acc s, xs = done ++ rest → I done acc s →
      Meets (rest.mapM f) s (fun ys s' => I xs (acc ++ ys) s') fail from h xs [] [] s rfl start
  intro rest
  induction rest with
  | nil =>
    intro done acc s hxs hdone
    rw [List.append_nil] at hxs
    subst hxs
    simpa using hdone
  | cons x rest ih =>
    intro done acc s hxs hdone
    rw [List.mapM_cons, meets_bind]
    refine (each done acc x rest s hxs hdone).imp fun y s' hy => ?_
    rw [meets_bind]
    have hrest := ih (done ++ [x]) (acc ++ [y]) s' (by rw [hxs, List.append_assoc, List.singleton_append]) hy
    refine hrest.imp fun ys s'' hys => ?_
    simpa using hys

/-- A fold over a list keeps an invariant that speaks of the elements done so far and of the value reached. -/
theorem Meets.foldlM {xs : List ι} {f : γ → ι → Step σ γ} {init : γ} (I : List ι → γ → σ → Prop) (start : I [] init s)
    (each : ∀ done c x rest s, xs = done ++ x :: rest → I done c s →
      Meets (f c x) s (fun c' s' => I (done ++ [x]) c' s') fail) :
    Meets (xs.foldlM f init) s (fun c s' => I xs c s') fail := by
  suffices h : ∀ rest done c s, xs = done ++ rest → I done c s →
      Meets (rest.foldlM f c) s (fun c' s' => I xs c' s') fail from h xs [] init s rfl start
  intro rest
  induction rest with
  | nil =>
    intro done c s hxs hdone
    rw [List.append_nil] at hxs
    subst hxs
    exact hdone
  | cons x rest ih =>
    intro done c s hxs hdone
    rw [List.foldlM_cons, meets_bind]
    refine (each done c x rest s hxs hdone).imp fun c' s' hx => ih (done ++ [x]) c' s' ?_ hx
    rw [hxs, List.append_assoc, List.singleton_append]

/-- The step leads from each state only to states in the given relation to it, whether it succeeds or fails. -/
def Within (r : σ → σ → Prop) (step : Step σ β) : Prop :=
  ∀ s, Meets step s (fun _ s' => r s s') (fun _ s' => r s s')

namespace Within

variable {r : σ → σ → Prop}

theorem mono {r' : σ → σ → Prop} {step : Step σ β} (h : Within r step) (hr : ∀ s s', r s s' → r' s s') :
    Within r' step := fun s => (h s).mono (fun _ s' hs => hr s s' hs) fun _ s' hs => hr s s' hs

theorem discard {step : Step σ β} (h : Within r step) : Within r (Functor.discard step) := by
  intro s
  rw [meets_discard]
  exact h s

theorem ite {c : Prop} [Decidable c] {yes no : Step σ β} (hyes : Within r yes) (hno : Within r no) :
    Within r (if c then yes else no) := by
  split
  · exact hyes
  · exact hno

theorem zoom {part : σ → τ} {restore : σ → τ → σ} {r' : τ → τ → Prop} {step : Step τ β} (h : Within r' step)
    (hr : ∀ s t, r' (part s) t → r s (restore s t)) : Within r (Step.zoom part restore step) := by
  intro s
  rw [meets_zoom]
  exact (h (part s)).mono (fun _ t ht => hr s t ht) fun _ t ht => hr s t ht

section Trans

variable [IsTrans σ r]

/-- A step that stays within the relation, after something that did. -/
theorem after {step : Step σ β} (h : Within r step) {s s' : σ} (hs : r s s') :
    Meets step s' (fun _ s'' => r s s'') (fun _ s'' => r s s'') :=
  (h s').mono (fun _ _ hs' => trans_of r hs hs') fun _ _ hs' => trans_of r hs hs'

theorem bind {step : Step σ γ} {next : γ → Step σ β} (h : Within r step) (hnext : ∀ c, Within r (next c)) :
    Within r (step >>= next) := by
  intro s
  rw [meets_bind]
  exact (h s).imp fun c _ hs => (hnext c).after hs

theorem tryCatch {step : Step σ β} {handler : Error → Step σ β} (h : Within r step)
    (hhandler : ∀ e, Within r (handler e)) : Within r (MonadExcept.tryCatch step handler) := by
  intro s
  rw [meets_tryCatch]
  exact (h s).mono (fun _ _ hs => hs) fun e _ hs => (hhandler e).after hs

end Trans

variable [Std.Refl r]

theorem pure (b : β) : Within r (Pure.pure b) := fun s => refl_of r s

theorem throw (e : Error) : Within r (MonadExcept.throw e : Step σ β) := fun s => refl_of r s

theorem get : Within r (MonadState.get : Step σ σ) := fun s => refl_of r s

theorem read (f : σ → Except Error β) : Within r (Step.read f) := by
  intro s
  rw [meets_read]
  cases f s <;> exact refl_of r s

theorem ofExcept (x : Except Error β) : Within r (Step.ofExcept x : Step σ β) := by
  intro s
  rw [meets_ofExcept]
  cases x <;> exact refl_of r s

variable [IsTrans σ r]

theorem forM {f : ι → Step σ PUnit} (xs : List ι) (h : ∀ x, Within r (f x)) : Within r (xs.forM f) := by
  induction xs with
  | nil => exact Within.pure _
  | cons x xs ih => exact (h x).bind fun _ => ih

theorem mapM {f : ι → Step σ γ} (xs : List ι) (h : ∀ x, Within r (f x)) : Within r (xs.mapM f) := by
  induction xs with
  | nil => exact Within.pure _
  | cons x xs ih =>
    rw [List.mapM_cons]
    exact (h x).bind fun _ => ih.bind fun _ => Within.pure _

theorem foldlM {f : γ → ι → Step σ γ} (xs : List ι) (init : γ) (h : ∀ c x, Within r (f c x)) :
    Within r (xs.foldlM f init) := by
  induction xs generalizing init with
  | nil => exact Within.pure _
  | cons x xs ih =>
    rw [List.foldlM_cons]
    exact (h init x).bind fun c => ih c

end Within

/-- The two states show the same through `view`. -/
def Same (view : σ → ν) (s s' : σ) : Prop := view s' = view s

instance (view : σ → ν) : Std.Refl (Same view) := ⟨fun _ => rfl⟩

instance (view : σ → ν) : IsTrans σ (Same view) := ⟨fun _ _ _ h h' => Eq.trans h' h⟩

/-- What `size` measures does not get smaller. -/
def Rising (size : σ → Nat) (s s' : σ) : Prop := size s ≤ size s'

instance (size : σ → Nat) : Std.Refl (Rising size) := ⟨fun _ => Nat.le_refl _⟩

instance (size : σ → Nat) : IsTrans σ (Rising size) := ⟨fun _ _ _ h h' => Nat.le_trans h h'⟩

/-- What holds of the first state holds of the second. -/
def Sustained (I : σ → Prop) (s s' : σ) : Prop := I s → I s'

instance (I : σ → Prop) : Std.Refl (Sustained I) := ⟨fun _ h => h⟩

instance (I : σ → Prop) : IsTrans σ (Sustained I) := ⟨fun _ _ _ h h' hi => h' (h hi)⟩

/-- The step leaves what `view` shows of the state alone. -/
abbrev Keeps (view : σ → ν) (step : Step σ β) : Prop := Within (Same view) step

/-- The step does not make what `size` measures smaller. -/
abbrev Grows (size : σ → Nat) (step : Step σ β) : Prop := Within (Rising size) step

/-- What is left alone does not get smaller. -/
theorem Within.grows {size : σ → Nat} {step : Step σ β} (h : Keeps size step) : Grows size step :=
  h.mono fun _ _ hs => Nat.le_of_eq (Eq.symm hs)

/-- The step keeps an invariant. -/
abbrev Preserves (I : σ → Prop) (step : Step σ β) : Prop := Within (Sustained I) step

/-- A relation that is only asked for from states in `I` on. -/
theorem within_of_meets {I : σ → Prop} {r : σ → σ → Prop} {step : Step σ β}
    (h : ∀ {s}, I s → Meets step s (fun _ s' => r s s') (fun _ s' => r s s')) : Within (fun s s' => I s → r s s') step := by
  intro s
  by_cases hs : I s
  · exact (h hs).mono (fun _ _ hr _ => hr) fun _ _ hr _ => hr
  · exact meets_of_forall _ _ (fun _ _ hs' => absurd hs' hs) fun _ _ hs' => absurd hs' hs

theorem Preserves.meets {I : σ → Prop} {step : Step σ β} (h : Preserves I step) (hs : I s) :
    Meets step s (fun _ s' => I s') (fun _ s' => I s') := (h s).mono (fun _ _ h' => h' hs) fun _ _ h' => h' hs

/-- What is left alone still has the properties that it had. -/
theorem Within.preserves {view : σ → ν} {step : Step σ β} (h : Keeps view step) (P : ν → Prop) :
    Preserves (fun s => P (view s)) step := h.mono fun _ s' hsame hs => by
  have heq : view s' = _ := hsame
  change P (view s')
  rw [heq]
  exact hs

/-- What is left alone shows the same through any function. -/
theorem Within.comp {view : σ → ν} {step : Step σ β} (h : Keeps view step) (f : ν → ι) :
    Keeps (fun s => f (view s)) step := h.mono fun _ _ hs => congrArg f hs

end Step

end ReluAbstraction
