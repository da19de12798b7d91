/-!
# Combinations

The ways to pick `r` entries of one of several lists, one way after another. Within a list the picked positions go through
the dictionary order: the last position that can go up does so, and those after it follow it directly. Once no position
can go up the next list begins.
-/

namespace ReluAbstraction

/-- Positions of `r` entries of a list of length `n`, in increasing order. -/
structure Picks (n r : Nat) where
  /-- The positions. -/
  positions : List Nat
  /-- There are `r` of them. -/
  length_eq : positions.length = r
  /-- They increase. -/
  increasing : positions.Pairwise (· < ·)
  /-- They are positions of the list. -/
  lt_of_mem : ∀ i ∈ positions, i < n

namespace Picks

/-- The positions after the given ones in dictionary order. A position can go up until only the positions after it have
room behind it. -/
def raise? (n : Nat) : List Nat → Option (List Nat)
  | [] => none
  | i :: rest =>
    match raise? n rest with
    | some raised => some (i :: raised)
    | none => if i + rest.length + 1 = n then none else some (List.range' (i + 1) (rest.length + 1))

/-- How far positions below `n` are from the end of the dictionary, at most. -/
def ahead (n : Nat) : List Nat → Nat
  | [] => 0
  | i :: rest => (n - i) * Nat.pow (n + 1) rest.length + ahead n rest

section Raising

variable {n : Nat} {ps qs : List Nat}

/-- Either a position after the first one goes up, or the first one does. -/
theorem raise?_cons {i : Nat} (h : raise? n (i :: ps) = some qs) :
    (∃ raised, raise? n ps = some raised ∧ qs = i :: raised) ∨
      (raise? n ps = none ∧ i + ps.length + 1 ≠ n ∧ qs = List.range' (i + 1) (ps.length + 1)) := by
  unfold raise? at h
  split at h
  · next raised hraised => exact .inl ⟨raised, hraised, (Option.some.inj h).symm⟩
  · next hnone =>
    split at h
    · cases h
    · next hne => exact .inr ⟨hnone, hne, (Option.some.inj h).symm⟩

theorem length_raise? (h : raise? n ps = some qs) : qs.length = ps.length := by
  induction ps generalizing qs with
  | nil => cases h
  | cons i rest ih =>
    obtain ⟨raised, hraised, rfl⟩ | ⟨_, _, rfl⟩ := raise?_cons h
    · simp [ih hraised]
    · simp

/-- Positions do not fall below a bound that they were above. -/
theorem lt_of_raise? {bound : Nat} (h : raise? n ps = some qs) (hps : ∀ i ∈ ps, bound < i) : ∀ i ∈ qs, bound < i := by
  induction ps generalizing qs with
  | nil => cases h
  | cons i rest ih =>
    obtain ⟨hi, hrest⟩ := List.forall_mem_cons.mp hps
    obtain ⟨raised, hraised, rfl⟩ | ⟨_, _, rfl⟩ := raise?_cons h
    · exact List.forall_mem_cons.mpr ⟨hi, ih hraised hrest⟩
    · intro j hj
      have hle := (List.mem_range'_1.mp hj).1
      omega

/-- Behind a position there is room for those after it. -/
theorem add_length_lt {i : Nat} (hps : (i :: ps).Pairwise (· < ·)) (hlt : ∀ j ∈ i :: ps, j < n) : i + ps.length < n := by
  induction ps generalizing i with
  | nil => exact hlt i List.mem_cons_self
  | cons j rest ih =>
    obtain ⟨hi, hrest⟩ := List.pairwise_cons.mp hps
    have hj := hi j List.mem_cons_self
    have hroom := ih hrest (List.forall_mem_cons.mp hlt).2
    simp only [List.length_cons]
    omega

theorem pairwise_raise? (h : raise? n ps = some qs) (hps : ps.Pairwise (· < ·)) : qs.Pairwise (· < ·) := by
  induction ps generalizing qs with
  | nil => cases h
  | cons i rest ih =>
    obtain ⟨hi, hrest⟩ := List.pairwise_cons.mp hps
    obtain ⟨raised, hraised, rfl⟩ | ⟨_, _, rfl⟩ := raise?_cons h
    · exact List.pairwise_cons.mpr ⟨lt_of_raise? hraised hi, ih hraised hrest⟩
    · exact List.pairwise_lt_range'

theorem forall_lt_raise? (h : raise? n ps = some qs) (hps : ps.Pairwise (· < ·)) (hlt : ∀ i ∈ ps, i < n) :
    ∀ i ∈ qs, i < n := by
  induction ps generalizing qs with
  | nil => cases h
  | cons i rest ih =>
    have hroom := add_length_lt hps hlt
    obtain ⟨hi, hbelow⟩ := List.forall_mem_cons.mp hlt
    obtain ⟨raised, hraised, rfl⟩ | ⟨_, hne, rfl⟩ := raise?_cons h
    · exact List.forall_mem_cons.mpr ⟨hi, ih hraised (List.pairwise_cons.mp hps).2 hbelow⟩
    · intro j hj
      have hj := (List.mem_range'_1.mp hj).2
      omega

/-- What the positions after the first one can still do is less than one step of the first one. -/
theorem ahead_lt (n : Nat) (ps : List Nat) : ahead n ps < Nat.pow (n + 1) ps.length := by
  induction ps with
  | nil => exact Nat.one_pos
  | cons i rest ih =>
    calc (n - i) * Nat.pow (n + 1) rest.length + ahead n rest
      _ ≤ n * Nat.pow (n + 1) rest.length + ahead n rest :=
        Nat.add_le_add_right (Nat.mul_le_mul_right _ (Nat.sub_le n i)) _
      _ < n * Nat.pow (n + 1) rest.length + Nat.pow (n + 1) rest.length := Nat.add_lt_add_left ih _
      _ = Nat.pow (n + 1) rest.length * (n + 1) := by rw [Nat.mul_comm n, Nat.mul_add, Nat.mul_one]

/-- Going up leads towards the end of the dictionary. -/
theorem ahead_raise? (h : raise? n ps = some qs) (hlt : ∀ i ∈ ps, i < n) : ahead n qs < ahead n ps := by
  induction ps generalizing qs with
  | nil => cases h
  | cons i rest ih =>
    obtain ⟨hi, hrest⟩ := List.forall_mem_cons.mp hlt
    obtain ⟨raised, hraised, rfl⟩ | ⟨_, _, rfl⟩ := raise?_cons h
    · simp [ahead, length_raise? hraised, ih hraised hrest]
    · have hless := ahead_lt n (List.range' (i + 1 + 1) rest.length)
      have hstep : n - i = n - (i + 1) + 1 := by omega
      rw [List.length_range'] at hless
      simp only [List.range'_succ, ahead, List.length_range', hstep, Nat.add_mul]
      omega

end Raising

variable {n r : Nat}

/-- The first `r` positions. -/
def first (h : r ≤ n) : Picks n r where
  positions := List.range r
  length_eq := List.length_range
  increasing := List.pairwise_lt_range
  lt_of_mem _ hi := Nat.lt_of_lt_of_le (List.mem_range.mp hi) h

/-- The picks after the given ones, if they are not the last. -/
def next? (p : Picks n r) : Option (Picks n r) :=
  (raise? n p.positions).pmap (fun positions h =>
    { positions
      length_eq := (length_raise? h).trans p.length_eq
      increasing := pairwise_raise? h p.increasing
      lt_of_mem := forall_lt_raise? h p.increasing p.lt_of_mem }) fun _ h => h

theorem positions_next? {p q : Picks n r} (h : p.next? = some q) : raise? n p.positions = some q.positions := by
  obtain ⟨_, _, hraise, rfl⟩ := Option.pmap_eq_some_iff.mp h
  exact hraise

theorem raise?_eq_none {p : Picks n r} (h : p.next? = none) : raise? n p.positions = none := Option.pmap_eq_none_iff.mp h

/-- The entries of a list at the picked positions. -/
def entries {β : Type} {xs : List β} (p : Picks xs.length r) : List β :=
  p.positions.attach.map fun i => xs.get ⟨i.1, p.lt_of_mem i.1 i.2⟩

end Picks

/-- How far the picking of `r` entries is: through with all lists, or at some picks of one of them with the rest of the
lists to come. Lists with too few entries are left out. -/
inductive Combinations (β : Type) (r : Nat) where
  /-- No list is left. -/
  | done
  /-- Picks of one list are next. -/
  | picking (bucket : List β) (picks : Picks bucket.length r) (rest : List { xs : List β // r ≤ xs.length })

namespace Combinations

variable {β : Type} {r : Nat}

/-- Begins with the first of the given lists. -/
def ofBuckets : List { xs : List β // r ≤ xs.length } → Combinations β r
  | [] => done
  | bucket :: rest => picking bucket.1 (.first bucket.2) rest

/-- The ways to pick `r` entries of one of the lists, list by list; none for `r = 0`. -/
def among (r : Nat) (lists : List (List β)) : Combinations β r :=
  if r = 0 then done
  else ofBuckets (lists.filterMap fun xs => if h : r ≤ xs.length then some ⟨xs, h⟩ else none)

/-- The entries picked, and what is to come after them. -/
def next? : Combinations β r → Option (List β × Combinations β r)
  | done => none
  | picking bucket picks rest =>
    some (picks.entries, (picks.next?.map fun picks => picking bucket picks rest).getD (ofBuckets rest))

/-- A bound on the number of picks to come. -/
def ahead : Combinations β r → Nat
  | done => 0
  | picking bucket picks rest =>
    Picks.ahead bucket.length picks.positions + 1 +
      rest.foldr (fun xs k => Picks.ahead xs.1.length (List.range r) + 1 + k) 0

theorem ahead_ofBuckets (buckets : List { xs : List β // r ≤ xs.length }) :
    (ofBuckets buckets).ahead = buckets.foldr (fun xs k => Picks.ahead xs.1.length (List.range r) + 1 + k) 0 := by
  cases buckets with
  | nil => rfl
  | cons bucket rest => rfl

theorem ahead_next? {c : Combinations β r} {p : List β × Combinations β r} (h : c.next? = some p) : p.2.ahead < c.ahead := by
  cases c with
  | done => cases h
  | picking bucket picks rest =>
    cases h
    cases hnext : picks.next? with
    | none =>
      have hrest := ahead_ofBuckets rest
      simp only [Option.map_none, Option.getD_none, hrest]
      simp only [ahead]
      omega
    | some next =>
      have hless := Picks.ahead_raise? (Picks.positions_next? hnext) picks.lt_of_mem
      simp only [Option.map_some, Option.getD_some, ahead]
      omega

/-- All picks to come. -/
def toList (c : Combinations β r) : List (List β) :=
  match _h : c.next? with
  | none => []
  | some p => p.1 :: toList p.2
termination_by c.ahead
decreasing_by exact ahead_next? _h

end Combinations

end ReluAbstraction
