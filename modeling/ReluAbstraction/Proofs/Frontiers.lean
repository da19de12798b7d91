import ReluAbstraction.Proofs.Refreshing
import ReluAbstraction.Proofs.Stages

/-!
# Frontiers and layers

The frontier says of each layer how far its nodes and arnodes are built. No stage overtakes the one before it. What a stage
does to its layer, and what regrouping does to a fully activated one, keeps abstraction and frontier in step.
-/

namespace ReluAbstraction

namespace Frontier

theorem passed_some (l m : Nat) : passed (some l) m = decide (l < m) := rfl

theorem passed_before? (l m : Nat) : passed (before? l) m = decide (l ≤ m) := by
  cases l with
  | zero => simp [before?, passed]
  | succ l => simp [before?, passed]

theorem passed_interiorBefore? (l : Nat) {m : Nat} (hm : 1 ≤ m) : passed (interiorBefore? l) m = decide (l ≤ m) := by
  match l with
  | 0 => simp [interiorBefore?, before?, passed]
  | 1 => simp [interiorBefore?, before?, passed, hm]
  | l + 2 => simp [interiorBefore?, before?, passed, Option.filter, Nat.succ_le_iff]

theorem passed_mono {next : Option Nat} {l m : Nat} (h : passed next l = true) (hlm : l ≤ m) : passed next m = true := by
  cases next with
  | none => rfl
  | some n =>
    rw [passed_some, decide_eq_true_eq] at h ⊢
    omega

theorem lt_of_before? {l m : Nat} (h : before? l = some m) : m < l := by
  cases l with
  | zero => cases h
  | succ l =>
    cases h
    exact Nat.lt_succ_self _

theorem bounds_of_interiorBefore? {l m : Nat} (h : interiorBefore? l = some m) : 1 ≤ m ∧ m < l := by
  obtain ⟨hbefore, hpos⟩ := Option.filter_eq_some_iff.mp h
  exact ⟨of_decide_eq_true hpos, lt_of_before? hbefore⟩

/-- The stages are in the layers of the network, and no stage overtakes the one before. -/
structure Ordered (f : Frontier) (depth : Nat) : Prop where
  preprocess_lt : ∀ {l}, f.preprocess = some l → l < depth
  forward_lt : ∀ {l}, f.forward = some l → l < depth
  full_lt : ∀ {l}, f.full = some l → l < depth
  full_pos : ∀ {l}, f.full = some l → 1 ≤ l
  preprocessed : ∀ {l}, l < depth → f.isForwardActivated l = true → f.isPreprocessed l = true
  forwarded : ∀ {l}, l < depth → f.isFullyActivated l = true → f.isForwardActivated (l - 1) = true

theorem ordered_start (depth : Nat) : (start depth).Ordered depth := by
  refine ⟨lt_of_before?, lt_of_before?, fun hl => (bounds_of_interiorBefore? hl).2,
    fun hl => (bounds_of_interiorBefore? hl).1, fun {l} hl hforward => ?_, fun {l} hl hfull => ?_⟩
  · simp only [isForwardActivated, start, passed_before?, decide_eq_true_eq] at hforward
    omega
  · simp only [isFullyActivated, Bool.and_eq_true, decide_eq_true_eq] at hfull
    obtain ⟨hone, hfull⟩ := hfull
    rw [start, passed_interiorBefore? _ hone, decide_eq_true_eq] at hfull
    omega

namespace Ordered

variable {f : Frontier} {depth l : Nat}

/-- One more layer is preprocessed. -/
theorem preprocess (h : f.Ordered depth) (hl : f.preprocess = some l) :
    Ordered { f with preprocess := before? l } depth := by
  refine ⟨fun hm => (lt_of_before? hm).trans (h.preprocess_lt hl), h.forward_lt, h.full_lt, h.full_pos,
    fun {m} hm hforward => ?_, h.forwarded⟩
  have hold := h.preprocessed hm hforward
  rw [isPreprocessed, hl, passed_some, decide_eq_true_eq] at hold
  rw [isPreprocessed, passed_before?, decide_eq_true_eq]
  omega

/-- One more layer is forward activated, after it was preprocessed. -/
theorem forward (h : f.Ordered depth) (hl : f.forward = some l) (hready : f.isPreprocessed l = true) :
    Ordered { f with forward := before? l } depth := by
  refine ⟨h.preprocess_lt, fun hm => (lt_of_before? hm).trans (h.forward_lt hl), h.full_lt, h.full_pos,
    fun {m} hm hforward => ?_, fun {m} hm hfull => ?_⟩
  · rw [isForwardActivated, passed_before?, decide_eq_true_eq] at hforward
    exact passed_mono hready hforward
  · have hold := h.forwarded hm hfull
    rw [isForwardActivated, hl, passed_some, decide_eq_true_eq] at hold
    rw [isForwardActivated, passed_before?, decide_eq_true_eq]
    omega

/-- One more layer is fully activated, after the layer before it was forward activated. -/
theorem full (h : f.Ordered depth) (hl : f.full = some l) (hready : f.isForwardActivated (l - 1) = true) :
    Ordered { f with full := interiorBefore? l } depth := by
  refine ⟨h.preprocess_lt, h.forward_lt, fun hm => (bounds_of_interiorBefore? hm).2.trans (h.full_lt hl),
    fun hm => (bounds_of_interiorBefore? hm).1, h.preprocessed, fun {m} hm hfull => ?_⟩
  · simp only [isFullyActivated, Bool.and_eq_true, decide_eq_true_eq] at hfull
    obtain ⟨hone, hfull⟩ := hfull
    rw [passed_interiorBefore? _ hone, decide_eq_true_eq] at hfull
    exact passed_mono hready (by omega)

/-- Some stage can run, until all are through. -/
theorem isComplete_of_stuck (h : f.Ordered depth) (hfull : f.canFullyActivate = false) (hforward : f.canForward = false)
    (hpre : f.preprocess = none) : f.isComplete = true := by
  have hready : ∀ l, f.isPreprocessed l = true := fun l => by rw [isPreprocessed, hpre, passed, Option.all_none]
  have hnone : f.forward = none := by
    cases hl : f.forward with
    | none => rfl
    | some l => simp [canForward, hl, hready] at hforward
  have hactive : ∀ l, f.isForwardActivated l = true := fun l => by
    rw [isForwardActivated, hnone, passed, Option.all_none]
  cases hl : f.full with
  | none => rw [isComplete, hpre, hnone, hl]; rfl
  | some l => simp [canFullyActivate, hl, hactive, h.full_pos hl] at hfull

/-- A fully activated layer is forward activated, and so is the layer before it. -/
theorem isForwardActivated_of_full (h : f.Ordered depth) (hl : l < depth) (hfull : f.isFullyActivated l = true) :
    f.isForwardActivated l = true := passed_mono (h.forwarded hl hfull) (Nat.sub_le l 1)

end Ordered

end Frontier

namespace Abstraction

variable {α : Type}

/-- The frontier says how far each layer is built. -/
structure Staged (a : Abstraction α) (f : Frontier) (depth : Nat) : Prop where
  held : ∀ {m c}, a.info? m = some c → f.isPreprocessed c.place.layer = true → (a.holder? m).isSome
  unprocessed : ∀ {m c}, a.info? m = some c → f.isPreprocessed c.place.layer = false → c.place.category = .unprocessed
  raising : ∀ {m c}, a.info? m = some c → c.place.category ≠ .unprocessed → c.place.layer + 1 = depth →
    c.place.category = .posInc
  forward : ∀ {x b}, a.arnodes.body? x = some b → b.data.state.isForward = f.isForwardActivated b.location.layer
  full : ∀ {x b}, a.arnodes.body? x = some b →
    (b.data.state = .fullyActivated ↔ f.isFullyActivated b.location.layer = true)

/-- A node that an arnode holds is classified. -/
theorem Grounded.category_ne_of_held [Scalar α] {a : Abstraction α} (hg : a.Grounded) {m : NodeId} {c : NodeInfo α}
    (hm : a.info? m = some c) (hheld : (a.holder? m).isSome) : c.place.category ≠ .unprocessed := by
  obtain ⟨x, hx⟩ := Option.isSome_iff_exists.mp hheld
  obtain ⟨b, hb, _, _, hcategory⟩ := hg.owned.exists_of_holder? hx hm
  exact fun hunprocessed => hg.arnodes.cemented hb (hcategory.symm.trans hunprocessed)

namespace Staged

variable {a a' : Abstraction α} {f f' : Frontier} {depth l : Nat}

/-- What leaves the nodes alone, and holds those that were held, only has to keep the arnodes in step. -/
theorem of_nodePart (h : Staged a f depth) (hf : f'.preprocess = f.preprocess) (hpart : a'.nodePart = a.nodePart)
    (hheld : ∀ m, (a'.holder? m).isSome ↔ (a.holder? m).isSome)
    (hforward : ∀ {x b}, a'.arnodes.body? x = some b → b.data.state.isForward = f'.isForwardActivated b.location.layer)
    (hfull : ∀ {x b}, a'.arnodes.body? x = some b →
      (b.data.state = .fullyActivated ↔ f'.isFullyActivated b.location.layer = true)) : Staged a' f' depth := by
  have hinfo := info?_of_nodePart hpart
  have hpreprocessed : f'.isPreprocessed = f.isPreprocessed := by
    funext l
    rw [Frontier.isPreprocessed, Frontier.isPreprocessed, hf]
  refine ⟨fun {m c} hm hp => ?_, fun {m c} hm hp => ?_, fun {m c} hm => ?_, hforward, hfull⟩
  · rw [hinfo] at hm
    rw [hpreprocessed] at hp
    exact (hheld m).mpr (h.held hm hp)
  · rw [hinfo] at hm
    rw [hpreprocessed] at hp
    exact h.unprocessed hm hp
  · rw [hinfo] at hm
    exact h.raising hm

theorem refreshed (h : Staged a f depth) (hr : Refreshed a a') : Staged a' f depth := by
  refine h.of_nodePart rfl hr.nodePart_eq (fun m => by rw [hr.holder?_eq]) (fun {x b'} hx => ?_) fun {x b'} hx => ?_
  · obtain ⟨b, hb, heq⟩ := hr.exists_body? hx
    have hstate : b.data.state = b'.data.state := congrArg (fun b => b.data.state) heq
    have hlocation : b.location = b'.location := congrArg (fun b => b.location) heq
    rw [← hstate, ← hlocation]
    exact h.forward hb
  · obtain ⟨b, hb, heq⟩ := hr.exists_body? hx
    have hstate : b.data.state = b'.data.state := congrArg (fun b => b.data.state) heq
    have hlocation : b.location = b'.location := congrArg (fun b => b.location) heq
    rw [← hstate, ← hlocation]
    exact h.full hb

variable [Scalar α]

/-- A node of a layer that is not preprocessed has no holder. -/
theorem holder?_eq_none (h : Staged a f depth) (hg : a.Grounded) {m : NodeId} {c : NodeInfo α} (hm : a.info? m = some c)
    (hp : f.isPreprocessed c.place.layer = false) : a.holder? m = none := by
  by_contra hne
  exact hg.category_ne_of_held hm (Option.isSome_iff_ne_none.mpr hne) (h.unprocessed hm hp)

/-- A node of a layer that is preprocessed is classified. -/
theorem category_ne (h : Staged a f depth) (hg : a.Grounded) {m : NodeId} {c : NodeInfo α} (hm : a.info? m = some c)
    (hp : f.isPreprocessed c.place.layer = true) : c.place.category ≠ .unprocessed :=
  hg.category_ne_of_held hm (h.held hm hp)

/-- The layer at the frontier was preprocessed. -/
theorem classified {net : Feedforward α} {ids : List NodeId} {created : List ArNodeId} (h : Staged a f net.depth)
    (hf : f.Ordered net.depth) (hl : f.preprocess = some l) (hc : Classified net a a' l ids created)
    (hids : ∀ m, m ∈ ids ↔ ∃ c, a.info? m = some c ∧ c.place.layer = l) :
    Staged a' { f with preprocess := Frontier.before? l } net.depth := by
  have hold : ∀ m, f.isPreprocessed m = decide (l < m) := fun m => by rw [Frontier.isPreprocessed, hl, Frontier.passed_some]
  have hnew : ∀ m, Frontier.isPreprocessed { f with preprocess := Frontier.before? l } m = decide (l ≤ m) :=
    fun m => by rw [Frontier.isPreprocessed, Frontier.passed_before?]
  have hidle : f.isForwardActivated l = false ∧ f.isFullyActivated l = false := by
    have hlt := hf.preprocess_lt hl
    have hnone : f.isPreprocessed l = false := by simp [hold]
    have hforward : f.isForwardActivated l = false := by
      rw [← Bool.not_eq_true]
      intro hforward
      rw [hf.preprocessed hlt hforward] at hnone
      cases hnone
    refine ⟨hforward, ?_⟩
    rw [← Bool.not_eq_true]
    intro hfull
    rw [hf.isForwardActivated_of_full hlt hfull] at hforward
    cases hforward
  refine ⟨fun {m c} hm hp => ?_, fun {m c} hm hp => ?_, fun {m c} hm hcat hlast => ?_, fun {x b} hx => ?_,
    fun {x b} hx => ?_⟩
  · rcases hc.new hm with ⟨hmem, hinfo⟩ | ⟨_, hheld, _⟩
    · have hne : c.place.layer ≠ l := fun heq => hmem ((hids m).mpr ⟨c, hinfo, heq⟩)
      rw [hnew, decide_eq_true_eq] at hp
      rw [(hc.old hinfo hmem).2]
      exact h.held hinfo (by rw [hold, decide_eq_true_eq]; omega)
    · exact hheld
  · rw [hnew, decide_eq_false_iff_not] at hp
    rcases hc.new hm with ⟨_, hinfo⟩ | ⟨heq, _, _⟩
    · exact h.unprocessed hinfo (by rw [hold, decide_eq_false_iff_not]; omega)
    · omega
  · rcases hc.new hm with ⟨_, hinfo⟩ | ⟨heq, _, hraising⟩
    · exact h.raising hinfo hcat hlast
    · exact hraising (heq ▸ hlast)
  · rcases hc.body?_cases hx with hx | ⟨_, hbl, hstate⟩
    · exact h.forward hx
    · rw [hstate, hbl]
      exact hidle.1.symm
  · rcases hc.body?_cases hx with hx | ⟨_, hbl, hstate⟩
    · exact h.full hx
    · rw [hstate, hbl]
      change _ ↔ f.isFullyActivated l = true
      rw [hidle.2]
      decide

/-- The layer at the frontier was forward activated. -/
theorem forwarded {net : Feedforward α} {done : List ArNodeId} (h : Staged a f net.depth) (hf : f.Ordered net.depth)
    (hl : f.forward = some l) (hp : Progress a a' .forwardActivated done)
    (hdone : ∀ x, x ∈ done ↔ ∃ b, a.arnodes.body? x = some b ∧ b.location.layer = l) :
    Staged a' { f with forward := Frontier.before? l } net.depth := by
  have hold : ∀ m, f.isForwardActivated m = decide (l < m) :=
    fun m => by rw [Frontier.isForwardActivated, hl, Frontier.passed_some]
  have hnew : ∀ m, Frontier.isForwardActivated { f with forward := Frontier.before? l } m = decide (l ≤ m) :=
    fun m => by rw [Frontier.isForwardActivated, Frontier.passed_before?]
  refine h.of_nodePart rfl hp.recast.nodePart_eq (fun m => by rw [hp.recast.holder?_eq]) (fun {x b'} hx => ?_)
    fun {x b'} hx => ?_
  · rw [hp.body?_eq] at hx
    split at hx
    · next hmem =>
      obtain ⟨b, hb, hbl⟩ := (hdone x).mp hmem
      rw [hb] at hx
      cases hx
      change true = _
      rw [hnew, eq_comm, decide_eq_true_eq]
      exact hbl.ge
    · next hmem =>
      have hne : b'.location.layer ≠ l := fun heq => hmem ((hdone x).mpr ⟨b', hx, heq⟩)
      rw [h.forward hx, hold, hnew, decide_eq_decide]
      omega
  · rw [hp.body?_eq] at hx
    split at hx
    · next hmem =>
      obtain ⟨b, hb, hbl⟩ := (hdone x).mp hmem
      rw [hb] at hx
      cases hx
      have hidle : f.isFullyActivated l = false := by
        rw [← Bool.not_eq_true]
        intro hfull
        have hforward := hf.isForwardActivated_of_full (hf.forward_lt hl) hfull
        simp [hold] at hforward
      change ActivationState.forwardActivated = .fullyActivated ↔ f.isFullyActivated b.location.layer = true
      rw [hbl, hidle]
      decide
    · exact h.full hx

/-- The layer at the frontier was fully activated. -/
theorem confirmed {net : Feedforward α} {done : List ArNodeId} (h : Staged a f net.depth) (hone : 1 ≤ l)
    (hl : f.full = some l) (hready : f.isForwardActivated l = true) (hp : Progress a a' .fullyActivated done)
    (hdone : ∀ x, x ∈ done ↔ ∃ b, a.arnodes.body? x = some b ∧ b.location.layer = l) :
    Staged a' { f with full := Frontier.interiorBefore? l } net.depth := by
  have hold : ∀ m, f.isFullyActivated m = (decide (1 ≤ m) && decide (l < m)) :=
    fun m => by rw [Frontier.isFullyActivated, hl, Frontier.passed_some]
  have hnew : ∀ m, Frontier.isFullyActivated { f with full := Frontier.interiorBefore? l } m =
      (decide (1 ≤ m) && decide (l ≤ m)) := by
    intro m
    rw [Frontier.isFullyActivated]
    by_cases hm : 1 ≤ m
    · rw [Frontier.passed_interiorBefore? _ hm]
    · simp [hm]
  refine h.of_nodePart rfl hp.recast.nodePart_eq (fun m => by rw [hp.recast.holder?_eq]) (fun {x b'} hx => ?_)
    fun {x b'} hx => ?_
  · rw [hp.body?_eq] at hx
    split at hx
    · next hmem =>
      obtain ⟨b, hb, hbl⟩ := (hdone x).mp hmem
      rw [hb] at hx
      cases hx
      change true = f.isForwardActivated b.location.layer
      rw [hbl, hready]
    · exact h.forward hx
  · rw [hp.body?_eq] at hx
    split at hx
    · next hmem =>
      obtain ⟨b, hb, hbl⟩ := (hdone x).mp hmem
      rw [hb] at hx
      cases hx
      change ActivationState.fullyActivated = .fullyActivated ↔ _
      rw [hnew]
      simp [Body.reaching, hbl, hone]
    · next hmem =>
      have hne : b'.location.layer ≠ l := fun heq => hmem ((hdone x).mpr ⟨b', hx, heq⟩)
      rw [h.full hx, hold, hnew]
      simp only [Bool.and_eq_true, decide_eq_true_eq]
      omega

/-- A fully activated layer was regrouped. -/
theorem regrouped (h : Staged a f depth) (hf : f.Ordered depth) (hlt : l < depth) (hfull : f.isFullyActivated l = true)
    (hr : Regrouped a a' l) : Staged a' f depth := by
  refine h.of_nodePart rfl hr.nodePart_eq hr.held_iff (fun {x b} hx => ?_) fun {x b} hx => ?_
  · rcases hr.body?_cases hx with hx | ⟨hbl, hstate⟩
    · exact h.forward hx
    · rw [hstate, hbl, hf.isForwardActivated_of_full hlt hfull]
      rfl
  · rcases hr.body?_cases hx with hx | ⟨hbl, hstate⟩
    · exact h.full hx
    · simp [hstate, hbl, hfull]

/-- A fully activated layer is framed. -/
theorem framed (h : Staged a f depth) (hf : f.Ordered depth) (hg : a.Grounded) (hlt : l < depth)
    (hfull : f.isFullyActivated l = true) (hlayer : ∀ {m c}, a.info? m = some c → c.place.layer < depth) : Framed a l := by
  have hforward : f.isForwardActivated (l - 1) = true := hf.forwarded hlt hfull
  refine ⟨fun {m c} hm hl => ?_, fun {m c} hm hl => ?_⟩
  · refine h.held hm (hf.preprocessed (hlayer hm) ?_)
    exact Frontier.passed_mono hforward (by omega)
  · have hml : f.isForwardActivated c.place.layer = true := by rw [← hl] at hforward; exact hforward
    obtain ⟨x, hx⟩ := Option.isSome_iff_exists.mp (h.held hm (hf.preprocessed (hlayer hm) hml))
    refine ⟨x, hx, ?_⟩
    obtain ⟨b, hb, _, hbl, _⟩ := hg.owned.exists_of_holder? hx hm
    rw [isForward_of_body? hb, h.forward hb, ← hbl, hml]

end Staged

end Abstraction

end ReluAbstraction
