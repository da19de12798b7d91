import Mathlib.Tactic
import ReluAbstraction.Proofs.Wrapping
import ReluAbstraction.Scalar.Exact

/-!
# Which nodes can be wrapped

Wrapping checks all of the nodes before it takes the first one, and undoes what it has set aside when it fails. So, in
whatever state operations have left the abstraction, it succeeds exactly for non-empty lists of free nodes of one table, as
long as there are variables and room for an arnode, and otherwise changes nothing. Nobody looks whether a node is named
twice: it is taken once then, and counts twice.
-/

namespace ReluAbstraction.Abstraction

variable {α : Type} [Scalar α]

section Operations

open Step

omit [Scalar α] in
theorem accounting_createNode (l : Nat) (bias : α) (origin : NeuronRef) :
    Accounting (createNode l bias origin : Step (Abstraction α) (NodeId × Location)) := accounting_of_meets fun h =>
  (insertNode_accounted h l (fun hmovable => by cases hmovable) bias origin).mono (fun _ _ hok => hok.1)
    fun _ _ heq => by rw [heq]; exact h

/-- A node that is classified is unprocessed, so that no arnode has it. -/
theorem accounting_classifyNode (l : Nat) (id : NodeId) :
    Accounting (classifyNode l id : Step (Abstraction α) (List ArNodeId)) := by
  refine accounting_of_meets fun {a} h => ?_
  rw [classifyNode, meets_bind, meets_read]
  cases a.layer l with
  | error e => exact h
  | ok layer =>
    dsimp only
    rw [meets_bind, meets_read]
    cases hv : a.nodes.get? id with
    | none =>
      rw [node, Arena.get_of_none hv]
      exact h
    | some v =>
      rw [node, Arena.get_of_get? hv]
      dsimp only
      rw [meets_bind, meets_ofExcept]
      cases checkLayer l v.location with
      | error e => exact h
      | ok _ =>
        dsimp only
        rw [meets_ite]
        refine ⟨fun _ => h, fun hcategory => ?_⟩
        rw [meets_ite]
        refine ⟨fun _ => ?_, fun _ => ?_⟩
        · exact Preserves.meets ((accounting_promote l id).bind fun _ => (accounting_wrap l [id]).bind fun _ =>
            Within.pure _) h
        · rw [meets_bind]
          refine (divide_accounted h hv (not_not.mp hcategory) l).imp fun pieces a₁ h₁ => ?_
          exact Preserves.meets (Within.mapM pieces fun piece => accounting_wrap l [piece]) h₁

theorem accounting_preprocess (l : Nat) : Accounting (preprocess l : Step (Abstraction α) (List ArNodeId)) := by
  unfold preprocess
  refine (Within.read _).bind fun layer => (Within.mapM _ fun entry => ?_).bind fun created => Within.pure _
  exact accounting_classifyNode l entry.2

theorem accounting_rebuild (l : Nat) (members : List NodeId) :
    Accounting (rebuild l members : Step (Abstraction α) ArNodeId) := by
  unfold rebuild
  refine (accounting_wrap l members).bind fun id => (quiet_forwardActivate id).accounting.bind fun _ => ?_
  exact (quiet_fullyActivate id).accounting.bind fun _ => Within.pure _

theorem accounting_merge (l : Nat) (first second : ArNodeId) :
    Accounting (merge l first second : Step (Abstraction α) ArNodeId) := by
  unfold merge
  refine (Within.read _).bind fun layer => Within.ite (Within.throw _) (Within.ite (Within.throw _) ?_)
  refine (Within.read _).bind fun firstLoc => (Within.read _).bind fun secondLoc => Within.ite (Within.throw _) ?_
  refine (Within.read _).bind fun _ => (accounting_unwrap l first).bind fun left => ?_
  refine (accounting_unwrap l second).bind fun right => (accounting_rebuild l _).bind fun merged => ?_
  exact (quiet_count _).accounting.bind fun _ => Within.pure merged

theorem accounting_split (l : Nat) (id : ArNodeId) (cells : List (List NodeId)) :
    Accounting (split l id cells : Step (Abstraction α) (List ArNodeId)) := by
  unfold split
  refine (Within.read _).bind fun layer => Within.ite (Within.throw _) ?_
  refine (Within.read _).discard.bind fun _ => (Within.read _).bind fun arnode => ?_
  refine (Within.ofExcept _).bind fun _ => (Within.read _).bind fun _ => (accounting_unwrap l id).discard.bind fun _ => ?_
  refine (Within.mapM cells (accounting_rebuild l)).bind fun parts => ?_
  exact (quiet_count _).accounting.bind fun _ => Within.pure parts

theorem quiet_forwardActivateTable (l : Nat) (category : Category) :
    Quiet (forwardActivateTable l category : Step (Abstraction α) Unit) :=
  (Within.read _).bind fun ids => Within.forM ids quiet_forwardActivate

omit [Scalar α] in
theorem quiet_confirmTable (l : Nat) (check : Bool) (category : Category) :
    Quiet (confirmTable l check category : Step (Abstraction α) Unit) :=
  (Within.read _).bind fun ids => Within.forM ids fun id => quiet_confirm id check

/-- An operation on layers, nodes and arnodes, in any order and with any arguments. -/
inductive Operation (α : Type) where
  /-- Makes a node in a layer. -/
  | create (l : Nat) (bias : α) (origin : NeuronRef)
  /-- Sets an edge of a node. -/
  | link (source : NodeId) (d : Direction) (target : NodeId) (weight : α) (bothEnds : Bool)
  /-- Removes an edge of a node. -/
  | unlink (source : NodeId) (d : Direction) (target : NodeId) (bothEnds : Bool)
  /-- Classifies a node of a layer. -/
  | classify (l : Nat) (id : NodeId)
  /-- Classifies all nodes of a layer. -/
  | preprocess (l : Nat)
  /-- Wraps nodes of a layer. -/
  | wrap (l : Nat) (members : List NodeId)
  /-- Destroys an arnode of a layer. -/
  | unwrap (l : Nat) (id : ArNodeId)
  /-- Makes an arnode that no table lists. -/
  | spawn (loc : Location) (members : List NodeId) (boundary : Bool)
  /-- Destroys an arnode and leaves the tables alone. -/
  | destroy (id : ArNodeId)
  /-- Sets an edge of an arnode. -/
  | linkArnodes (source : ArNodeId) (d : Direction) (target : ArNodeId) (weight : α) (bothEnds : Bool)
  /-- Removes an edge of an arnode. -/
  | unlinkArnodes (source : ArNodeId) (d : Direction) (target : ArNodeId) (bothEnds : Bool)
  /-- Forward activates an arnode. -/
  | forward (id : ArNodeId)
  /-- Fully activates an arnode. -/
  | full (id : ArNodeId)
  /-- Fully activates an arnode with the incoming edges it has. -/
  | confirm (id : ArNodeId) (check : Bool)
  /-- Forward activates a table. -/
  | forwardTable (l : Nat) (category : Category)
  /-- Fully activates a table. -/
  | confirmTable (l : Nat) (check : Bool) (category : Category)
  /-- Forward activates a layer. -/
  | forwardLayer (l : Nat)
  /-- Fully activates a layer. -/
  | confirmLayer (l : Nat) (check : Bool)
  /-- Merges two arnodes of a layer. -/
  | merge (l : Nat) (first second : ArNodeId)
  /-- Splits an arnode of a layer. -/
  | split (l : Nat) (id : ArNodeId) (cells : List (List NodeId))
  /-- Rebuilds the marked equations. -/
  | refresh

namespace Operation

/-- Runs the operation and leaves its result aside. -/
def run : Operation α → Step (Abstraction α) Unit
  | create l bias origin => discard (createNode l bias origin)
  | link source d target weight bothEnds => onNodes (Graph.link source d target weight bothEnds)
  | unlink source d target bothEnds => discard (onNodes (Graph.unlink source d target bothEnds))
  | classify l id => discard (classifyNode l id)
  | preprocess l => discard (Abstraction.preprocess l)
  | wrap l members => discard (Abstraction.wrap l members)
  | unwrap l id => discard (Abstraction.unwrap l id)
  | spawn loc members boundary => discard (Abstraction.spawn loc members boundary)
  | destroy id => discard (Abstraction.destroy id)
  | linkArnodes source d target weight bothEnds => onArnodes (Graph.link source d target weight bothEnds)
  | unlinkArnodes source d target bothEnds => discard (onArnodes (Graph.unlink source d target bothEnds))
  | forward id => forwardActivate id
  | full id => fullyActivate id
  | confirm id check => Abstraction.confirm id check
  | forwardTable l category => forwardActivateTable l category
  | confirmTable l check category => Abstraction.confirmTable l check category
  | forwardLayer l => forwardActivateLayer l
  | confirmLayer l check => Abstraction.confirmLayer l check
  | merge l first second => discard (Abstraction.merge l first second)
  | split l id cells => discard (Abstraction.split l id cells)
  | refresh => discard refreshEquations

/-- State after the operation, whether it succeeded or not. -/
def after (o : Operation α) (a : Abstraction α) : Abstraction α := (o.run.outcome a).2

theorem accounting_run (o : Operation α) : Accounting o.run := by
  cases o with
  | create l bias origin => exact (accounting_createNode l bias origin).discard
  | link source d target weight bothEnds => exact (quiet_link source d target weight bothEnds).accounting
  | unlink source d target bothEnds => exact (quiet_unlink source d target bothEnds).accounting.discard
  | classify l id => exact (accounting_classifyNode l id).discard
  | preprocess l => exact (accounting_preprocess l).discard
  | wrap l members => exact (accounting_wrap l members).discard
  | unwrap l id => exact (accounting_unwrap l id).discard
  | spawn loc members boundary => exact (accounting_spawn loc members boundary).discard
  | destroy id => exact (accounting_destroy id).discard
  | linkArnodes source d target weight bothEnds => exact (quiet_linkArnodes source d target weight bothEnds).accounting
  | unlinkArnodes source d target bothEnds => exact (quiet_unlinkArnodes source d target bothEnds).accounting.discard
  | forward id => exact (quiet_forwardActivate id).accounting
  | full id => exact (quiet_fullyActivate id).accounting
  | confirm id check => exact (quiet_confirm id check).accounting
  | forwardTable l category => exact (quiet_forwardActivateTable l category).accounting
  | confirmTable l check category => exact (quiet_confirmTable l check category).accounting
  | forwardLayer l => exact Quiet.accounting (Within.forM _ (quiet_forwardActivateTable l))
  | confirmLayer l check => exact Quiet.accounting (Within.forM _ (quiet_confirmTable l check))
  | merge l first second => exact (accounting_merge l first second).discard
  | split l id cells => exact (accounting_split l id cells).discard
  | refresh => exact quiet_refreshEquations.accounting.discard

end Operation

/-- The abstractions that operations with any outcome lead to. -/
inductive Reaches (start : Abstraction α) : Abstraction α → Prop
  /-- No operation. -/
  | refl : Reaches start start
  /-- One more operation. -/
  | step {a : Abstraction α} (h : Reaches start a) (o : Operation α) : Reaches start (o.after a)

/-- State after several operations. -/
def afterAll (ops : List (Operation α)) (a : Abstraction α) : Abstraction α := ops.foldl (fun b o => o.after b) a

theorem Reaches.afterAll {start a : Abstraction α} (h : Reaches start a) (ops : List (Operation α)) :
    Reaches start (afterAll ops a) := by
  induction ops generalizing a with
  | nil => exact h
  | cons o ops ih => exact ih (h.step o)

/-- One more operation that succeeds. -/
theorem Reaches.of_ok {start a a' : Abstraction α} (h : Reaches start a) (o : Operation α) (hrun : o.run a = .ok () a') :
    Reaches start a' := by
  have hafter : o.after a = a' := by simp [Operation.after, Step.outcome, hrun]
  exact hafter ▸ h.step o

omit [Scalar α] in
theorem accounted_empty (roles : List LayerRole) (limit : Option Nat) (policy : Policy) :
    (empty roles limit policy : Abstraction α).Accounted := by
  have hnodes : ∀ m, (empty roles limit policy : Abstraction α).accounts.nodes.get? m = none := fun m => by
    rw [standing_eq]
    exact congrArg (Option.map Node.standing) (Arena.get?_empty m)
  have harnodes : ∀ x, (empty roles limit policy : Abstraction α).accounts.arnodes.get? x = none := fun x => by
    rw [holding_eq]
    exact congrArg (Option.map ArNode.holding) (Arena.get?_empty x)
  have htables : ∀ chain ∈ (empty roles limit policy : Abstraction α).accounts.tables,
      chain.Sound ∧ chain.kinds = arnodeKinds := by
    intro chain hchain
    simp only [accounts, arnodeChains, empty, List.map_map, List.mem_map] at hchain
    obtain ⟨role, _, rfl⟩ := hchain
    exact ⟨TableChain.sound_empty _, TableChain.kinds_empty _⟩
  refine ⟨⟨IdPool.wellFormed_ofLimit? limit, fun hx => ?_, fun hx => ?_, fun _ => ⟨rfl, rfl⟩⟩,
    ⟨fun hm => ?_, fun hx => ?_, fun hm => ?_⟩, Arena.wellFormed_map.mpr Arena.wellFormed_empty,
    Arena.wellFormed_map.mpr Arena.wellFormed_empty, htables⟩
  · cases (harnodes _).symm.trans hx
  · cases (harnodes _).symm.trans hx
  · cases (hnodes _).symm.trans hm
  · cases (harnodes _).symm.trans hx
  · cases (hnodes _).symm.trans hm

theorem Reaches.accounted {roles : List LayerRole} {limit : Option Nat} {policy : Policy} {a : Abstraction α}
    (h : Reaches (empty roles limit policy) a) : a.Accounted := by
  induction h with
  | refl => exact accounted_empty roles limit policy
  | step _ o ih => exact (o.accounting_run.meets ih).outcome

end Operations

/-- Wrapping accepts exactly the lists of free nodes of one table, whatever operations came before. The new arnode has the
listed nodes, and its bias counts each of them as often as it is listed. A list that is turned down leaves everything as it
was. -/
theorem wrap_accepts_exactly {roles : List LayerRole} {limit : Option Nat} {policy : Policy} {a : Abstraction α}
    (h : Reaches (empty roles limit policy) a) (l : Nat) (members : List NodeId) :
    ((∃ id a', wrap l members a = .ok id a') ↔ ∃ layer category, CanWrap a l layer category members) ∧
    (∀ id a', wrap l members a = .ok id a' →
      (∃ layer category slot vars bias, CanWrap a l layer category members ∧
        Bundled a a' layer ⟨l, category, slot⟩ members id vars bias) ∧
      ∀ m, a'.holder? m = some id ↔ m ∈ members) ∧
    ∀ e a', wrap l members a = .error e a' → Lapsed a a' := by
  have houtcome := h.accounted.wrap_outcome l members
  refine ⟨⟨?_, ?_⟩, fun id a' hok => ?_, fun e a' herror => (houtcome.of_error herror).1⟩
  · rintro ⟨id, a', hok⟩
    obtain ⟨_, layer, category, hcan, _⟩ := houtcome.of_ok hok
    exact ⟨layer, category, hcan⟩
  · rintro ⟨layer, category, hcan⟩
    cases hrun : wrap l members a with
    | ok id a' => exact ⟨id, a', rfl⟩
    | error e a' => exact absurd hcan (houtcome.of_error hrun).2
  · obtain ⟨_, layer, category, hcan, slot, vars, bias, hbundled⟩ := houtcome.of_ok hok
    exact ⟨⟨layer, category, slot, vars, bias, hcan, hbundled⟩,
      hbundled.toSpawned.holder?_eq_iff h.accounted hcan.toCanSpawn⟩

/-- Two nodes are made and classified, and their arnodes are destroyed. -/
def loosePair : List (Operation Rat) :=
  [.create 0 1 ⟨0, 0⟩, .create 0 2 ⟨0, 1⟩, .preprocess 0, .unwrap 0 ⟨0, 0⟩, .unwrap 0 ⟨1, 0⟩]

/-- Two nodes are wrapped together. They are taken then, and neither can be wrapped again. -/
theorem wrap_accepts_exactly_pair : ∃ (a a₁ a₂ : Abstraction Rat) (id : ArNodeId) (e : Error),
    Reaches (empty [.hidden] (some 4) (.forGoal .maximize)) a ∧ wrap 0 [⟨0, 0⟩, ⟨1, 0⟩] a = .ok id a₁ ∧
    (∃ layer category, CanWrap a 0 layer category [⟨0, 0⟩, ⟨1, 0⟩]) ∧
    (∀ m, a₁.holder? m = some id ↔ m ∈ [(⟨0, 0⟩ : NodeId), ⟨1, 0⟩]) ∧
    Reaches (empty [.hidden] (some 4) (.forGoal .maximize)) a₁ ∧ wrap 0 [⟨1, 0⟩] a₁ = .error e a₂ ∧
    (¬∃ layer category, CanWrap a₁ 0 layer category [⟨1, 0⟩]) ∧ Lapsed a₁ a₂ := by
  have hrun : (match wrap 0 [⟨0, 0⟩, ⟨1, 0⟩] (afterAll loosePair (empty [.hidden] (some 4) (.forGoal .maximize))) with
      | .ok _ a₁ =>
        match wrap 0 [⟨1, 0⟩] a₁ with
        | .ok _ _ => false
        | .error _ _ => true
      | .error _ _ => false) = true := by decide +kernel
  split at hrun
  · next id a₁ hwrap =>
    split at hrun
    · cases hrun
    · next e a₂ hagain =>
      have hreach : Reaches (empty [.hidden] (some 4) (.forGoal .maximize)) _ := Reaches.refl.afterAll loosePair
      have hreach₁ := hreach.of_ok (.wrap 0 [⟨0, 0⟩, ⟨1, 0⟩]) (Step.discard_eq_ok hwrap)
      obtain ⟨hiff, hok, -⟩ := wrap_accepts_exactly hreach 0 [⟨0, 0⟩, ⟨1, 0⟩]
      obtain ⟨hiff₁, -, hfail⟩ := wrap_accepts_exactly hreach₁ 0 [⟨1, 0⟩]
      refine ⟨_, a₁, a₂, id, e, hreach, hwrap, hiff.mp ⟨id, a₁, hwrap⟩, (hok id a₁ hwrap).2, hreach₁, hagain, ?_,
        hfail e a₂ hagain⟩
      rw [← hiff₁, hagain]
      rintro ⟨_, _, heq⟩
      cases heq
  · cases hrun

/-- A node is made and classified, and its arnode is destroyed. -/
def looseNode : List (Operation Rat) := [.create 0 1 ⟨0, 0⟩, .preprocess 0, .unwrap 0 ⟨0, 0⟩]

/-- A node that is named twice is accepted, and its bias is counted twice. -/
theorem wrap_accepts_repeated : ∃ (a a' : Abstraction Rat) (id : ArNodeId) (v : ArNode Rat),
    Reaches (empty [.output] none (.forGoal .maximize)) a ∧ a.biasOf ⟨0, 0⟩ = 1 ∧
    wrap 0 [⟨0, 0⟩, ⟨0, 0⟩] a = .ok id a' ∧ a'.arnodes.get? id = some v ∧ v.data.members = [⟨0, 0⟩, ⟨0, 0⟩] ∧
    ¬v.data.members.Nodup ∧ v.data.bias = 2 := by
  have hbias : biasOf (afterAll looseNode (empty [.output] none (.forGoal .maximize))) ⟨0, 0⟩ = 1 := by decide +kernel
  have hrun : (match wrap 0 [⟨0, 0⟩, ⟨0, 0⟩] (afterAll looseNode (empty [.output] none (.forGoal .maximize))) with
      | .ok id a' =>
        match a'.arnodes.get? id with
        | some v => decide (v.data.members = [⟨0, 0⟩, ⟨0, 0⟩]) && decide (v.data.bias = 2)
        | none => false
      | .error _ _ => false) = true := by decide +kernel
  split at hrun
  · next id a' hwrap =>
    split at hrun
    · next v hv =>
      simp only [Bool.and_eq_true, decide_eq_true_eq] at hrun
      refine ⟨_, a', id, v, Reaches.refl.afterAll looseNode, hbias, hwrap, hv, hrun.1, ?_, hrun.2⟩
      rw [hrun.1]
      decide
    · cases hrun
  · cases hrun

end ReluAbstraction.Abstraction
