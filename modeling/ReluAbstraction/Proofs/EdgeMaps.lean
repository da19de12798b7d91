import ReluAbstraction.Proofs.Graph

/-!
# Edge sets as finite maps

An edge set is a plain map from keys to edges, of which only the keys of some tables may be in use. `Request.apply` says what
each call does to the map and `Request.Allowed` when it may do so. The calls change the set in place; a move takes the edge
out before it puts it back, and its checks come early enough for nothing to be lost on the way.
-/

namespace ReluAbstraction

namespace EdgeSet

variable {α η : Type}

/-- A call that changes an edge set. -/
inductive Request (α η : Type) where
  /-- Put an edge under a key. -/
  | add (key : EdgeKey) (weight : α) (neighbor : η)
  /-- Take the edge under a key out. -/
  | remove (key : EdgeKey)
  /-- Move an edge to another key. -/
  | move (source target : EdgeKey) (overwrite : Bool)

/-- Puts an edge under a key, in place. -/
def put (key : EdgeKey) (edge : Edge α η) : Step (EdgeSet α η) Unit :=
  Step.update fun s => s.add key edge.weight edge.neighbor

/-- Takes the edge under a key out, in place. -/
def takeOut (key : EdgeKey) : Step (EdgeSet α η) (Edge α η) := do
  let r ← Step.read fun s => s.remove key
  set r.2
  return r.1

/-- Moves an edge in place: it is taken out first and put back under the other key then. What is done before a failure
stays done. -/
def moveInPlace (source target : EdgeKey) (overwrite : Bool) : Step (EdgeSet α η) Unit :=
  if source = target then do
    Step.read fun s => s.check source
    Step.read fun s => if (s.get? source).isSome then .ok () else .error (.noSuchEdge source)
  else do
    Step.read fun s =>
      if !overwrite && (s.get? target).isSome then .error (.edgeConflict target) else .ok ()
    Step.read fun s => s.check target
    let edge ← takeOut source
    put target edge

namespace Request

/-- Makes the call. A removal gives the edge. -/
def serve : Request α η → Step (EdgeSet α η) (Option (Edge α η))
  | add key weight neighbor => do
    put key ⟨weight, neighbor⟩
    return none
  | remove key => some <$> takeOut key
  | move source target overwrite => do
    moveInPlace source target overwrite
    return none

/-- Whether a plain map with keys of `tables` tables admits the call. -/
def Allowed (tables : Nat) (m : EdgeKey → Option (Edge α η)) : Request α η → Prop
  | add key _ _ => key.category.index < tables
  | remove key => (m key).isSome
  | move source target overwrite => (m source).isSome ∧ target.category.index < tables ∧
    (m target = none ∨ target = source ∨ overwrite = true)

/-- What the call gives. -/
def answer (m : EdgeKey → Option (Edge α η)) : Request α η → Option (Edge α η)
  | remove key => m key
  | _ => none

/-- What the call does to the map. A move takes the edge, as it is, from one key to the other. -/
def apply (m : EdgeKey → Option (Edge α η)) : Request α η → EdgeKey → Option (Edge α η)
  | add key weight neighbor => Function.update m key (some ⟨weight, neighbor⟩)
  | remove key => Function.update m key none
  | move source target _ => Function.update (Function.update m source none) target (m source)

instance (tables : Nat) (m : EdgeKey → Option (Edge α η)) : (r : Request α η) → Decidable (r.Allowed tables m)
  | add key _ _ => inferInstanceAs (Decidable (key.category.index < tables))
  | remove key => inferInstanceAs (Decidable ((m key).isSome = true))
  | move source target overwrite => inferInstanceAs (Decidable ((m source).isSome = true ∧
    target.category.index < tables ∧ (m target = none ∨ target = source ∨ overwrite = true)))

end Request

/-- The set after a list of calls, some of which may fail. -/
def after (s : EdgeSet α η) (rs : List (Request α η)) : EdgeSet α η := rs.foldl (fun s r => (r.serve.outcome s).2) s

/-- The plain map after a list of calls, of which those that are not allowed do nothing. -/
def mapAfter (tables : Nat) (rs : List (Request α η)) : EdgeKey → Option (Edge α η) :=
  rs.foldl (fun m r => if r.Allowed tables m then r.apply m else m) fun _ => none

/-- The set has the entries of the map, and these are in its tables. -/
structure Tracks (tables : Nat) (s : EdgeSet α η) (m : EdgeKey → Option (Edge α η)) : Prop where
  tables_eq : s.tables = tables
  get?_eq : ∀ key, s.get? key = m key
  covered : ∀ {key e}, m key = some e → key.category.index < tables

variable {tables : Nat} {s : EdgeSet α η} {m : EdgeKey → Option (Edge α η)} {key source target : EdgeKey} {e : Edge α η}

theorem check_eq (h : key.category.index < s.tables) : s.check key = .ok () := by simp [check, covers, h]

theorem check_eq_error (h : ¬key.category.index < s.tables) :
    s.check key = .error (.invalidArgument (.edgeTable key.category)) := by simp [check, covers, h]

/-- Without an edge under the key there is nothing to take out. -/
theorem exists_remove_error (h : s.get? key = none) : ∃ error, s.remove key = .error error := by
  unfold remove
  by_cases hkey : key.category.index < s.tables
  · rw [check_eq hkey, h]
    exact ⟨_, rfl⟩
  · rw [check_eq_error hkey]
    exact ⟨_, rfl⟩

namespace Tracks

theorem empty (tables : Nat) : Tracks tables (EdgeSet.empty tables : EdgeSet α η) fun _ => none where
  tables_eq := rfl
  get?_eq _ := rfl
  covered h := by cases h

theorem insert (h : Tracks tables s m) (hkey : key.category.index < tables) (e : Edge α η) :
    Tracks tables { s with edges := s.edges.insert key e } (Function.update m key (some e)) where
  tables_eq := h.tables_eq
  get?_eq key' := by
    rw [Function.update_apply, ← h.get?_eq]
    exact SortedMap.get?_insert s.edges key' key e
  covered {key' e'} he := by
    rw [Function.update_apply] at he
    split at he
    · next heq => exact heq ▸ hkey
    · exact h.covered he

theorem erase (h : Tracks tables s m) (key : EdgeKey) :
    Tracks tables { s with edges := s.edges.erase key } (Function.update m key none) where
  tables_eq := h.tables_eq
  get?_eq key' := by
    rw [Function.update_apply, ← h.get?_eq]
    exact SortedMap.get?_erase s.edges key' key
  covered {key' e'} he := by
    rw [Function.update_apply] at he
    split at he
    · cases he
    · exact h.covered he

theorem put_meets (h : Tracks tables s m) (hkey : key.category.index < tables) (e : Edge α η) :
    (put key e).Meets s (fun _ s' => Tracks tables s' (Function.update m key (some e))) Step.Never := by
  rw [put, Step.meets_update, add_eq (h.tables_eq ▸ hkey)]
  exact h.insert hkey e

theorem takeOut_meets (h : Tracks tables s m) (key : EdgeKey) :
    (takeOut key).Meets s (fun e s' => m key = some e ∧ Tracks tables s' (Function.update m key none))
      (fun _ s' => m key = none ∧ s' = s) := by
  rw [takeOut, Step.meets_bind, Step.meets_read]
  cases hget : m key with
  | none =>
    obtain ⟨error, herror⟩ := exists_remove_error ((h.get?_eq key).trans hget)
    rw [herror]
    exact ⟨rfl, rfl⟩
  | some e =>
    rw [remove_eq (h.tables_eq ▸ h.covered hget) ((h.get?_eq key).trans hget)]
    exact ⟨rfl, h.erase key⟩

/-- A move fails before it takes anything out. -/
theorem moveInPlace_meets (h : Tracks tables s m) (source target : EdgeKey) (overwrite : Bool) :
    (moveInPlace source target overwrite).Meets s
      (fun _ s' => (Request.move source target overwrite).Allowed tables m ∧
        Tracks tables s' ((Request.move source target overwrite).apply m))
      (fun _ s' => ¬(Request.move source target overwrite).Allowed tables m ∧ s' = s) := by
  unfold moveInPlace
  by_cases hsame : source = target
  · subst hsame
    rw [if_pos rfl, Step.meets_bind, Step.meets_read]
    cases hget : m source with
    | none =>
      have hrefused : ¬(Request.move source source overwrite).Allowed tables m := by simp [Request.Allowed, hget]
      by_cases hkey : source.category.index < s.tables
      · rw [check_eq hkey]
        dsimp only
        rw [Step.meets_read, h.get?_eq, hget]
        exact ⟨hrefused, rfl⟩
      · rw [check_eq_error hkey]
        exact ⟨hrefused, rfl⟩
    | some e =>
      have hkey := h.covered hget
      rw [check_eq (h.tables_eq ▸ hkey)]
      dsimp only
      rw [Step.meets_read, h.get?_eq, hget]
      refine ⟨⟨by simp [hget], hkey, .inr (.inl rfl)⟩, ?_⟩
      rw [Request.apply, Function.update_idem, Function.update_eq_self]
      exact h
  · rw [if_neg hsame, Step.meets_bind, Step.meets_read]
    by_cases hconflict : (!overwrite && (s.get? target).isSome) = true
    · rw [if_pos hconflict]
      simp only [Bool.and_eq_true, Bool.not_eq_true', h.get?_eq, Option.isSome_iff_ne_none] at hconflict
      refine ⟨?_, rfl⟩
      rintro ⟨_, _, hfree | heq | hover⟩
      · exact hconflict.2 hfree
      · exact hsame heq.symm
      · rw [hover] at hconflict
        cases hconflict.1
    · rw [if_neg hconflict]
      dsimp only
      rw [Step.meets_bind, Step.meets_read]
      by_cases hkey : target.category.index < tables
      · rw [check_eq (h.tables_eq ▸ hkey)]
        dsimp only
        rw [Step.meets_bind]
        refine (h.takeOut_meets source).mono ?_ ?_
        · -- The target's table was checked, so the edge that was taken out can be put back.
          rintro e s' ⟨he, hs⟩
          refine (hs.put_meets hkey e).mono (fun _ s'' hs' => ⟨⟨by simp [he], hkey, ?_⟩, ?_⟩) fun _ _ hf => hf.elim
          · rw [h.get?_eq] at hconflict
            cases htarget : m target with
            | none => exact .inl rfl
            | some _ => exact .inr (.inr (by simpa [htarget] using hconflict))
          · rw [Request.apply, he]
            exact hs'
        · rintro _ s' ⟨hnone, rfl⟩
          exact ⟨by simp [Request.Allowed, hnone], rfl⟩
      · rw [check_eq_error (h.tables_eq ▸ hkey)]
        exact ⟨fun hallowed => hkey hallowed.2.1, rfl⟩

/-- A call is served as the plain map allows, and changes nothing otherwise. -/
theorem serve_meets (h : Tracks tables s m) (r : Request α η) :
    r.serve.Meets s (fun answer s' => r.Allowed tables m ∧ answer = r.answer m ∧ Tracks tables s' (r.apply m))
      (fun _ s' => ¬r.Allowed tables m ∧ s' = s) := by
  cases r with
  | add key weight neighbor =>
    rw [Request.serve, Step.meets_bind]
    by_cases hkey : key.category.index < tables
    · exact (h.put_meets hkey ⟨weight, neighbor⟩).mono (fun _ _ hs => ⟨hkey, rfl, hs⟩) fun _ _ hf => hf.elim
    · rw [put, Step.meets_update, add, check_eq_error (h.tables_eq ▸ hkey)]
      exact ⟨hkey, rfl⟩
  | remove key =>
    rw [Request.serve, Step.meets_map]
    refine (h.takeOut_meets key).mono ?_ ?_
    · rintro e s' ⟨he, hs⟩
      exact ⟨by simp [Request.Allowed, he], he.symm, hs⟩
    · rintro _ s' ⟨hnone, hs⟩
      exact ⟨by simp [Request.Allowed, hnone], hs⟩
  | move source target overwrite =>
    rw [Request.serve, Step.meets_bind]
    exact (h.moveInPlace_meets source target overwrite).imp fun _ _ hs => ⟨hs.1, rfl, hs.2⟩

/-- The entries are counted. -/
theorem ncard_keys (h : Tracks tables s m) : { key | (m key).isSome }.ncard = s.size := by
  have hkeys : { key | (m key).isSome } = (s.edges.keys.toFinset : Set EdgeKey) := by
    ext key
    rw [Set.mem_ofPred_eq, List.coe_toFinset, Set.mem_ofPred_eq, SortedMap.mem_keys_iff, ← h.get?_eq]
    rfl
  rw [hkeys, Set.ncard_coe_finset, List.toFinset_card_of_nodup SortedMap.keys_nodup]
  exact List.length_map _

end Tracks

/-- Entries are listed in the order of their tables. -/
theorem pairwise_index_toList (s : EdgeSet α η) :
    s.toList.Pairwise fun x y => x.1.category.index ≤ y.1.category.index := by
  refine s.edges.sorted.imp fun {x y} hlt => ?_
  by_contra hgt
  have hindex : compare x.1.category.index y.1.category.index = .gt := Nat.compare_eq_gt.mpr (Nat.not_le.mp hgt)
  have hkeys : compare x.1 y.1 = .gt := by
    change (compare x.1.category.index y.1.category.index).then _ = .gt
    rw [hindex]
    rfl
  rw [hkeys] at hlt
  cases hlt

theorem exists_of_remove {rest : EdgeSet α η} (h : s.remove key = .ok (e, rest)) :
    s.get? key = some e ∧ rest = { s with edges := s.edges.erase key } := by
  unfold remove at h
  by_cases hkey : key.category.index < s.tables
  · cases hget : s.get? key with
    | none =>
      rw [check_eq hkey, hget] at h
      cases h
    | some e' =>
      rw [check_eq hkey, hget] at h
      cases h
      exact ⟨rfl, rfl⟩
  · rw [check_eq_error hkey] at h
    cases h

/-- In place, a move does what it does as a function: once the edge is out nothing can fail. -/
theorem moveInPlace_eq (source target : EdgeKey) (overwrite : Bool) (s : EdgeSet α η) :
    moveInPlace source target overwrite s = Step.update (fun s => s.moveEdge source target overwrite) s := by
  apply Step.eq_update
  unfold moveInPlace moveEdge
  split
  · rw [Step.meets_bind, Step.meets_read]
    cases s.check source with
    | error e => exact ⟨rfl, rfl⟩
    | ok _ =>
      dsimp only
      rw [Step.meets_read]
      cases s.get? source with
      | none => exact ⟨rfl, rfl⟩
      | some e => exact rfl
  · rw [Step.meets_bind, Step.meets_read]
    by_cases hconflict : (!overwrite && (s.get? target).isSome) = true
    · rw [if_pos hconflict, if_pos hconflict]
      exact ⟨rfl, rfl⟩
    · rw [if_neg hconflict, if_neg hconflict]
      dsimp only
      rw [Step.meets_bind, Step.meets_read]
      by_cases hkey : target.category.index < s.tables
      · rw [check_eq hkey]
        dsimp only
        rw [takeOut, Step.meets_bind, Step.meets_bind, Step.meets_read]
        cases hremove : s.remove source with
        | error e => exact ⟨rfl, rfl⟩
        | ok r =>
          obtain ⟨edge, rest⟩ := r
          obtain ⟨_, rfl⟩ := exists_of_remove hremove
          have hadd := add_eq (s := { s with edges := s.edges.erase source }) hkey edge.weight edge.neighbor
          change (put target edge).Meets _ _ _
          rw [put, Step.meets_update, hadd]
          exact hadd
      · rw [check_eq_error hkey]
        exact ⟨rfl, rfl⟩

/-- The set does what the plain map does. -/
structure Agrees (tables : Nat) (s : EdgeSet α η) (m : EdgeKey → Option (Edge α η)) : Prop where
  /-- Look-up, count and list show the entries of the map, table by table. -/
  get?_eq : ∀ key, s.get? key = m key
  size_eq : s.size = { key | (m key).isSome }.ncard
  isEmpty_iff : s.isEmpty = true ↔ ∀ key, m key = none
  mem_toList_iff : ∀ key e, (key, e) ∈ s.toList ↔ m key = some e
  nodup_toList : s.toList.Nodup
  ascending : s.toList.Pairwise fun x y => x.1.category.index ≤ y.1.category.index
  /-- Exactly the calls that the map allows are served. -/
  exists_served_iff : ∀ r : Request α η, (∃ answer s', r.serve s = .ok answer s') ↔ r.Allowed tables m
  /-- A call that is served does what it does to the map. -/
  served : ∀ {r : Request α η} {answer s'}, r.serve s = .ok answer s' →
    answer = r.answer m ∧ ∀ key, s'.get? key = r.apply m key
  /-- A call that fails leaves the set as it was. -/
  refused : ∀ {r : Request α η} {e s'}, r.serve s = .error e s' → s' = s
  /-- Moving in place is moving. -/
  inPlace : ∀ source target overwrite,
    moveInPlace source target overwrite s = Step.update (fun s => s.moveEdge source target overwrite) s

theorem Tracks.agrees (h : Tracks tables s m) : Agrees tables s m where
  get?_eq := h.get?_eq
  size_eq := h.ncard_keys.symm
  isEmpty_iff := by simp only [EdgeSet.isEmpty_iff, h.get?_eq]
  mem_toList_iff key e := by rw [EdgeSet.mem_toList_iff, h.get?_eq]
  nodup_toList := List.Nodup.of_map Prod.fst SortedMap.keys_nodup
  ascending := s.pairwise_index_toList
  exists_served_iff r := by
    constructor
    · rintro ⟨answer, s', hserve⟩
      exact ((h.serve_meets r).of_ok hserve).1
    · intro hallowed
      have hmeets : r.serve.Meets s _ Step.Never := (h.serve_meets r).mono (fun _ _ hs => hs) fun _ _ hf => hf.1 hallowed
      obtain ⟨answer, s', hserve, _⟩ := hmeets.exists_ok
      exact ⟨answer, s', hserve⟩
  served {r answer s'} hserve := by
    obtain ⟨_, hanswer, hs⟩ := (h.serve_meets r).of_ok hserve
    exact ⟨hanswer, hs.get?_eq⟩
  refused {r e s'} hserve := ((h.serve_meets r).of_error hserve).2
  inPlace := fun source target overwrite => moveInPlace_eq source target overwrite s

/-- Each call keeps the set and the map in step. -/
theorem Tracks.serve (h : Tracks tables s m) (r : Request α η) :
    Tracks tables (r.serve.outcome s).2 (if r.Allowed tables m then r.apply m else m) := by
  refine Step.Meets.outcome (P := fun s' => Tracks tables s' _) ((h.serve_meets r).mono ?_ ?_)
  · rintro _ s' ⟨hallowed, _, hs⟩
    rwa [if_pos hallowed]
  · rintro _ s' ⟨hrefused, rfl⟩
    rwa [if_neg hrefused]

/-- Whatever calls are made, an edge set does what a plain map from keys to edges does. -/
theorem agrees_after (tables : Nat) (rs : List (Request α η)) :
    Agrees tables ((EdgeSet.empty tables).after rs) (mapAfter tables rs) := by
  suffices hrun : ∀ (rs : List (Request α η)) {s m}, Tracks tables s m →
      Tracks tables (s.after rs) (rs.foldl (fun m r => if r.Allowed tables m then r.apply m else m) m) from
    (hrun rs (.empty tables)).agrees
  intro rs
  induction rs with
  | nil => exact id
  | cons r rs ih => exact fun h => ih (h.serve r)

end EdgeSet

end ReluAbstraction
