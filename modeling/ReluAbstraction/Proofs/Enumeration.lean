import ReluAbstraction.Proofs.Graph

/-!
# Combinations of edges

The picks of one list go through the dictionary order of positions without a gap: `pending` says what is left from given
positions on, and raising the positions takes exactly the first of it away. So an enumeration ends, and it lists every way
to pick `r` entries of one list once, list by list.
-/

namespace ReluAbstraction

section Choosing

variable {β : Type}

/-- All ways to pick `r` elements of a list, in the list's order. Earlier elements are picked first. -/
def choose : Nat → List β → List (List β)
  | 0, _ => [[]]
  | _ + 1, [] => []
  | r + 1, x :: xs => (choose r xs).map (x :: ·) ++ choose (r + 1) xs

/-- The ways to pick are the sublists of the given length. -/
theorem choose_perm_sublistsLen (r : Nat) (xs : List β) : (choose r xs).Perm (xs.sublistsLen r) := by
  induction xs generalizing r with
  | nil => cases r <;> exact .rfl
  | cons x xs ih =>
    cases r with
    | zero => simp [choose]
    | succ r =>
      rw [choose, List.sublistsLen_succ_cons]
      exact List.perm_append_comm.trans ((ih (r + 1)).append ((ih r).map _))

theorem mem_choose_iff {r : Nat} {xs ys : List β} : ys ∈ choose r xs ↔ ys.Sublist xs ∧ ys.length = r :=
  (choose_perm_sublistsLen r xs).mem_iff.trans List.mem_sublistsLen

theorem length_choose (r : Nat) (xs : List β) : (choose r xs).length = xs.length.choose r :=
  (choose_perm_sublistsLen r xs).length_eq.trans (List.length_sublistsLen r xs)

theorem nodup_choose {xs : List β} (h : xs.Nodup) (r : Nat) : (choose r xs).Nodup :=
  (choose_perm_sublistsLen r xs).nodup_iff.mpr (List.nodup_sublistsLen r h)

theorem choose_eq_nil {r : Nat} {xs : List β} (h : xs.length < r) : choose r xs = [] := by
  rw [← List.length_eq_zero_iff, length_choose, Nat.choose_eq_zero_of_lt h]

end Choosing

namespace Picks

variable {β : Type} {xs : List β}

/-- The entries at some positions. -/
def entriesAt (xs : List β) (ps : List Nat) : List β := ps.flatMap fun i => xs[i]?.toList

/-- The ways to pick that are left from the given positions on, these included. -/
def pending (xs : List β) : List Nat → List (List β)
  | [] => [[]]
  | i :: rest => (pending xs rest).map (xs[i]?.toList ++ ·) ++ choose (rest.length + 1) (xs.drop (i + 1))

/-- From positions that follow one another directly, all ways to pick behind the first of them are left. -/
theorem pending_range' {start r : Nat} (h : start + r ≤ xs.length) :
    pending xs (List.range' start r) = choose r (xs.drop start) := by
  induction r generalizing start with
  | zero => simp [pending, choose]
  | succ r ih =>
    have hstart : start < xs.length := by omega
    rw [List.range'_succ, pending, ih (by omega), List.length_range', List.drop_eq_getElem_cons hstart, choose]
    simp [hstart]

/-- Positions that cannot be raised are the last ones. -/
theorem pending_of_last {ps : List Nat} (h : raise? xs.length ps = none) : pending xs ps = [entriesAt xs ps] := by
  induction ps with
  | nil => rfl
  | cons i rest ih =>
    unfold raise? at h
    split at h
    · cases h
    · next hrest =>
      split at h
      · next hlast =>
        have hshort : (xs.drop (i + 1)).length < rest.length + 1 := by
          rw [List.length_drop]
          omega
        simp [pending, ih hrest, choose_eq_nil hshort, entriesAt]
      · cases h

/-- Raising the positions takes the present pick off what is left. -/
theorem pending_of_raise? {ps qs : List Nat} (h : raise? xs.length ps = some qs) (hps : ps.Pairwise (· < ·))
    (hlt : ∀ i ∈ ps, i < xs.length) : pending xs ps = entriesAt xs ps :: pending xs qs := by
  induction ps generalizing qs with
  | nil => cases h
  | cons i rest ih =>
    have hroom := add_length_lt hps hlt
    obtain ⟨raised, hraised, rfl⟩ | ⟨hlast, hne, rfl⟩ := raise?_cons h
    · have hrest := ih hraised (List.pairwise_cons.mp hps).2 (List.forall_mem_cons.mp hlt).2
      simp [pending, hrest, length_raise? hraised, entriesAt]
    · -- Everything behind position `i` is left, which is what the positions directly behind it begin.
      rw [pending_range' (by omega), pending, pending_of_last hlast]
      simp [entriesAt]

theorem entries_eq {r : Nat} (p : Picks xs.length r) : p.entries = entriesAt xs p.positions := by
  unfold entries entriesAt
  conv_rhs => rw [← List.attach_map_subtype_val p.positions, List.flatMap_map]
  rw [List.map_eq_flatMap]
  congr 1
  funext i
  simp [p.lt_of_mem i.1 i.2]

end Picks

namespace Combinations

variable {β : Type} {r : Nat} {c : Combinations β r}

theorem toList_of_none (h : c.next? = none) : c.toList = [] := by
  rw [toList]
  split
  · rfl
  · next hsome => rw [h] at hsome; cases hsome

theorem toList_of_next? {p : List β × Combinations β r} (h : c.next? = some p) : c.toList = p.1 :: p.2.toList := by
  rw [toList]
  split
  · next hnone => rw [h] at hnone; cases hnone
  · next q hsome =>
    rw [h] at hsome
    cases hsome
    rfl

/-- What is left of the present list comes before the lists to come. -/
theorem toList_picking {bucket : List β} (picks : Picks bucket.length r) (rest : List { xs : List β // r ≤ xs.length }) :
    (picking bucket picks rest).toList = Picks.pending bucket picks.positions ++ (ofBuckets rest).toList := by
  induction hahead : Picks.ahead bucket.length picks.positions using Nat.strong_induction_on generalizing picks with
  | _ n ih =>
    subst hahead
    rw [toList_of_next? rfl, Picks.entries_eq]
    cases hnext : picks.next? with
    | none => simp [Picks.pending_of_last (Picks.raise?_eq_none hnext)]
    | some next =>
      have hraise := Picks.positions_next? hnext
      rw [Picks.pending_of_raise? hraise picks.increasing picks.lt_of_mem]
      simp [ih _ (Picks.ahead_raise? hraise picks.lt_of_mem) next rfl]

theorem toList_ofBuckets (buckets : List { xs : List β // r ≤ xs.length }) :
    (ofBuckets buckets).toList = buckets.flatMap fun xs => choose r xs.1 := by
  induction buckets with
  | nil => exact toList_of_none rfl
  | cons bucket rest ih =>
    have hfirst : Picks.pending bucket.1 (List.range r) = choose r bucket.1 := by
      rw [List.range_eq_range', Picks.pending_range' (by simpa using bucket.2), List.drop_zero]
    rw [ofBuckets, toList_picking, ih, List.flatMap_cons]
    exact congrArg (· ++ _) hfirst

/-- The enumeration lists the ways to pick `r` entries of each list. -/
theorem toList_among (hr : r ≠ 0) (lists : List (List β)) : (among r lists).toList = lists.flatMap (choose r) := by
  rw [among, if_neg hr, toList_ofBuckets]
  induction lists with
  | nil => rfl
  | cons xs lists ih =>
    by_cases hlong : r ≤ xs.length
    · simp [hlong, ih]
    · simp [hlong, ih, choose_eq_nil (Nat.not_le.mp hlong)]

/-- The items that an enumeration gives, one after another until it ends. -/
inductive Yields : Combinations β r → List (List β) → Prop
  /-- No item is left. -/
  | ended {c : Combinations β r} (h : c.next? = none) : Yields c []
  /-- One item is given, and the others follow. -/
  | item {c c' : Combinations β r} {x : List β} {items : List (List β)} (h : c.next? = some (x, c'))
      (hrest : Yields c' items) : Yields c (x :: items)

/-- Every enumeration ends, after the items of its list. -/
theorem yields_toList (c : Combinations β r) : c.Yields c.toList := by
  induction hahead : c.ahead using Nat.strong_induction_on generalizing c with
  | _ n ih =>
    subst hahead
    cases hnext : c.next? with
    | none =>
      rw [toList_of_none hnext]
      exact .ended hnext
    | some p =>
      rw [toList_of_next? hnext]
      exact .item hnext (ih _ (ahead_next? hnext) p.2 rfl)

/-- The enumeration comes to `c'` at some time. -/
def Reaches (c c' : Combinations β r) : Prop := Relation.ReflTransGen (fun c c' => ∃ x, c.next? = some (x, c')) c c'

/-- All that is still to be picked from is among the given lists. -/
inductive PicksFrom (lists : List (List β)) : Combinations β r → Prop
  | done : PicksFrom lists done
  | picking {bucket : List β} {picks : Picks bucket.length r} {rest : List { xs : List β // r ≤ xs.length }}
      (hbucket : bucket ∈ lists) (hrest : ∀ xs ∈ rest, xs.1 ∈ lists) : PicksFrom lists (picking bucket picks rest)

variable {lists : List (List β)}

theorem picksFrom_ofBuckets {buckets : List { xs : List β // r ≤ xs.length }} (h : ∀ xs ∈ buckets, xs.1 ∈ lists) :
    PicksFrom lists (ofBuckets buckets) := by
  cases buckets with
  | nil => exact .done
  | cons bucket rest => exact .picking (h _ List.mem_cons_self) fun xs hxs => h xs (List.mem_cons_of_mem _ hxs)

theorem picksFrom_among (r : Nat) (lists : List (List β)) : PicksFrom lists (among r lists) := by
  unfold among
  split
  · exact .done
  · refine picksFrom_ofBuckets fun bucket hbucket => ?_
    obtain ⟨xs, hxs, hsome⟩ := List.mem_filterMap.mp hbucket
    split at hsome
    · cases hsome
      exact hxs
    · cases hsome

theorem PicksFrom.next? {p : List β × Combinations β r} (h : PicksFrom lists c) (hnext : c.next? = some p) :
    PicksFrom lists p.2 := by
  cases h with
  | done => cases hnext
  | @picking bucket picks rest hbucket hrest =>
    cases hnext
    cases picks.next? with
    | none => exact picksFrom_ofBuckets hrest
    | some next => exact .picking hbucket hrest

theorem PicksFrom.reaches {c' : Combinations β r} (h : PicksFrom lists c) (hreach : c.Reaches c') : PicksFrom lists c' := by
  induction hreach with
  | refl => exact h
  | tail _ hnext ih =>
    obtain ⟨x, hnext⟩ := hnext
    exact ih.next? hnext

end Combinations

theorem Category.mem_all (category : Category) : category ∈ Category.all := by cases category <;> decide

namespace EdgeSet

variable {α η : Type} {s : EdgeSet α η} {r : Nat}

theorem mem_table_iff {e : EdgeKey × Edge α η} {category : Category} :
    e ∈ s.table category ↔ s.get? e.1 = some e.2 ∧ e.1.category = category := by
  rw [table, List.mem_filter, decide_eq_true_iff]
  exact and_congr_left fun _ => mem_toList_iff

theorem nodup_table (s : EdgeSet α η) (category : Category) : (s.table category).Nodup :=
  (List.Nodup.of_map Prod.fst SortedMap.keys_nodup).filter _

/-- The combinations are the sublists of the tables. -/
theorem mem_combinationsIn_iff (order : Listing α η) (hr : r ≠ 0) {x : List (EdgeKey × Edge α η)} :
    x ∈ s.combinationsIn order r ↔ ∃ category, x.Sublist (order.table s category) ∧ x.length = r := by
  rw [combinationsIn, Combinations.toList_among hr, List.flatMap_map, List.mem_flatMap]
  simp only [mem_choose_iff, Category.mem_all, true_and]

/-- The items are the ways to pick `r` edges into one table, where `order` tells in which order the edges of each table are
gone through. -/
structure Enumerates (s : EdgeSet α η) (order : Category → List (EdgeKey × Edge α η)) (r : Nat)
    (items : List (List (EdgeKey × Edge α η))) : Prop where
  /-- The enumeration ends, after these items. -/
  yields : (Combinations.among r (Category.all.map order)).Yields items
  /-- At any time the positions are `r` different ones of one table. -/
  inRange : ∀ {bucket picks rest}, (Combinations.among r (Category.all.map order)).Reaches (.picking bucket picks rest) →
    (∃ category, bucket = order category) ∧ picks.positions.length = r ∧ picks.positions.Nodup ∧
      ∀ i ∈ picks.positions, i < bucket.length
  /-- An item has `r` different edges, all into one table. -/
  picked : ∀ x ∈ items, x.length = r ∧ x.Nodup ∧ ∃ category, ∀ e ∈ x, e ∈ s.table category
  /-- Of any `r` edges into one table exactly one item is made. -/
  once : r ≠ 0 → ∀ (category : Category) (edges : Finset (EdgeKey × Edge α η)), (∀ e ∈ edges, e ∈ s.table category) →
    edges.card = r → ∃! k : Nat, ∃ x, items[k]? = some x ∧ ∀ e, e ∈ x ↔ e ∈ edges
  /-- Tables come in the order of their numbers. -/
  ascending : items.Pairwise fun x y => ∀ e ∈ x, ∀ e' ∈ y, e.1.category.index ≤ e'.1.category.index
  /-- The items are counted by binomial coefficients. -/
  length_eq : r ≠ 0 → items.length = (Category.all.map fun category => (s.table category).length.choose r).sum
  /-- There is no way to pick nothing. -/
  eq_nil : r = 0 → items = []

section Order

variable {order : Category → List (EdgeKey × Edge α η)} (horder : ∀ category, (order category).Perm (s.table category))

include horder

theorem category_of_mem_order {e : EdgeKey × Edge α η} {category : Category} (he : e ∈ order category) :
    e.1.category = category := (mem_table_iff.mp ((horder category).mem_iff.mp he)).2

theorem nodup_order (category : Category) : (order category).Nodup :=
  (horder category).nodup_iff.mpr (s.nodup_table category)

/-- An item with an edge tells the table that it was picked from. -/
theorem category_unique {category category' : Category} {x : List (EdgeKey × Edge α η)} {e : EdgeKey × Edge α η}
    (he : e ∈ x) (hx : x.Sublist (order category)) (hx' : x.Sublist (order category')) : category = category' :=
  (category_of_mem_order horder (hx.subset he)).symm.trans (category_of_mem_order horder (hx'.subset he))

/-- Items with the same edges are equal. -/
theorem eq_of_mem_iff {category category' : Category} {x y : List (EdgeKey × Edge α η)} (hx : x.Sublist (order category))
    (hy : y.Sublist (order category')) (hne : x ≠ []) (hsame : ∀ e, e ∈ x ↔ e ∈ y) : x = y := by
  obtain ⟨e, he⟩ := List.exists_mem_of_ne_nil x hne
  have hcategory := category_of_mem_order horder (hx.subset he)
  have hcategory' := category_of_mem_order horder (hy.subset ((hsame e).mp he))
  rw [hcategory] at hcategory'
  subst hcategory'
  have hnodup := nodup_order horder category
  exact (hnodup.perm_iff_eq_of_sublist hx hy).mp
    ((List.perm_ext_iff_of_nodup (hx.nodup hnodup) (hy.nodup hnodup)).mpr hsame)

/-- No item is listed twice, within a table or in two tables. -/
theorem nodup_items (hr : r ≠ 0) : (Category.all.flatMap fun category => choose r (order category)).Nodup := by
  refine List.nodup_flatMap.mpr ⟨fun category _ => nodup_choose (nodup_order horder category) r, ?_⟩
  have hdistinct : Category.all.Nodup := by decide
  refine hdistinct.imp fun {category category'} hne x hx hx' => hne ?_
  obtain ⟨hsub, hlength⟩ := mem_choose_iff.mp hx
  obtain ⟨e, he⟩ := List.exists_mem_of_length_pos (Nat.pos_of_ne_zero (hlength ▸ hr))
  exact category_unique horder he hsub (mem_choose_iff.mp hx').1

theorem ascending_items : (Category.all.flatMap fun category => choose r (order category)).Pairwise
    fun x y => ∀ e ∈ x, ∀ e' ∈ y, e.1.category.index ≤ e'.1.category.index := by
  have hlisted : ∀ {category x e}, x ∈ choose r (order category) → e ∈ x → e.1.category = category :=
    fun hx he => category_of_mem_order horder ((mem_choose_iff.mp hx).1.subset he)
  refine List.pairwise_flatMap.mpr ⟨fun category _ => ?_, ?_⟩
  · refine List.pairwise_of_forall_mem_list fun x hx y hy e he e' he' => ?_
    rw [hlisted hx he, hlisted hy he']
  · have hincreasing : Category.all.Pairwise fun c c' => c.index ≤ c'.index := by decide
    refine hincreasing.imp fun {category category'} hle x hx y hy e he e' he' => ?_
    rw [hlisted hx he, hlisted hy he']
    exact hle

/-- Any `r` edges into one table are the edges of one item, at one place in the list. -/
theorem existsUnique_item (hr : r ≠ 0) (category : Category) (edges : Finset (EdgeKey × Edge α η))
    (hedges : ∀ e ∈ edges, e ∈ s.table category) (hcard : edges.card = r) :
    ∃! k : Nat, ∃ x, (Category.all.flatMap fun category => choose r (order category))[k]? = some x ∧
      ∀ e, e ∈ x ↔ e ∈ edges := by
  classical
  have hmem : ∀ {x}, x ∈ (Category.all.flatMap fun category => choose r (order category)) ↔
      ∃ category, x.Sublist (order category) ∧ x.length = r := by
    intro x
    simp only [List.mem_flatMap, mem_choose_iff, Category.mem_all, true_and]
  -- The item takes the given edges in the order of their table.
  have hitem : ∀ e, e ∈ (order category).filter (· ∈ edges) ↔ e ∈ edges := by
    intro e
    rw [List.mem_filter, decide_eq_true_iff, (horder category).mem_iff]
    exact ⟨And.right, fun he => ⟨hedges e he, he⟩⟩
  have hlength : ((order category).filter (· ∈ edges)).length = r := by
    rw [← List.toFinset_card_of_nodup ((nodup_order horder category).filter _), ← hcard]
    congr 1
    ext e
    rw [List.mem_toFinset, hitem]
  obtain ⟨k, hk⟩ := List.getElem?_of_mem (hmem.mpr ⟨category, List.filter_sublist, hlength⟩)
  refine ⟨k, ⟨_, hk, hitem⟩, ?_⟩
  rintro k' ⟨y, hk', hy⟩
  obtain ⟨category', hsub', hlength'⟩ := hmem.mp (List.mem_of_getElem? hk')
  have hne : y ≠ [] := by
    rintro rfl
    exact hr hlength'.symm
  have heq := eq_of_mem_iff horder hsub' List.filter_sublist hne fun e => (hy e).trans (hitem e).symm
  rw [heq, ← hk] at hk'
  exact ((List.getElem?_inj (List.getElem?_eq_some_iff.mp hk).1 (nodup_items horder hr)).mp hk'.symm).symm

theorem length_items : (Category.all.flatMap fun category => choose r (order category)).length =
    (Category.all.map fun category => (s.table category).length.choose r).sum := by
  simp only [List.length_flatMap, length_choose, (horder _).length_eq]

end Order

/-- For any order in which the edges of each table are gone through, the enumeration ends and lists every way to pick `r`
edges into one table once. -/
theorem enumerates_toList (s : EdgeSet α η) (r : Nat) {order : Category → List (EdgeKey × Edge α η)}
    (horder : ∀ category, (order category).Perm (s.table category)) :
    Enumerates s order r (Combinations.among r (Category.all.map order)).toList := by
  have hzero : r = 0 → (Combinations.among r (Category.all.map order)).toList = [] := by
    rintro rfl
    exact Combinations.toList_of_none rfl
  have hitems : r ≠ 0 → (Combinations.among r (Category.all.map order)).toList =
      Category.all.flatMap fun category => choose r (order category) := by
    intro hr
    rw [Combinations.toList_among hr, List.flatMap_map]
  refine ⟨Combinations.yields_toList _, ?_, ?_, ?_, ?_, ?_, hzero⟩
  · intro bucket picks rest hreach
    cases (Combinations.picksFrom_among r _).reaches hreach with
    | picking hbucket _ =>
      obtain ⟨category, _, rfl⟩ := List.mem_map.mp hbucket
      exact ⟨⟨category, rfl⟩, picks.length_eq, picks.increasing.imp Nat.ne_of_lt, picks.lt_of_mem⟩
  · intro x hx
    by_cases hr : r = 0
    · rw [hzero hr] at hx
      cases hx
    · rw [hitems hr, List.mem_flatMap] at hx
      obtain ⟨category, _, hx⟩ := hx
      obtain ⟨hsub, hlength⟩ := mem_choose_iff.mp hx
      exact ⟨hlength, hsub.nodup (nodup_order horder category), category,
        fun e he => (horder category).mem_iff.mp (hsub.subset he)⟩
  · intro hr
    rw [hitems hr]
    exact existsUnique_item horder hr
  · by_cases hr : r = 0
    · rw [hzero hr]
      exact .nil
    · rw [hitems hr]
      exact ascending_items horder
  · intro hr
    rw [hitems hr]
    exact length_items horder

/-- The combinations of `r` edges are all ways to pick `r` edges into one table, each of them once and in the order of the
tables. It does not matter in which order the edges of a table are gone through. -/
theorem combinations_enumerate (s : EdgeSet α η) (r : Nat) : Enumerates s s.table r (s.combinations r) ∧
    ∀ {order : Category → List (EdgeKey × Edge α η)}, (∀ category, (order category).Perm (s.table category)) →
      Enumerates s order r (Combinations.among r (Category.all.map order)).toList :=
  ⟨enumerates_toList s r fun _ => .rfl, fun horder => enumerates_toList s r horder⟩

/-- Three edges into one table, two into another and one into a third make four pairs, also from the last slot down. -/
theorem combinations_enumerate_reversed : ∃ s : EdgeSet Nat Nat,
    s.toList.map (·.1) = [⟨.posInc, 0⟩, ⟨.posInc, 1⟩, ⟨.posInc, 2⟩, ⟨.posDec, 0⟩, ⟨.posDec, 1⟩, ⟨.negDec, 0⟩] ∧
    (s.combinations 2).length = 4 ∧ (∀ category, (s.table category).reverse.Perm (s.table category)) ∧
    Enumerates s (fun category => (s.table category).reverse) 2
      (Combinations.among 2 (Category.all.map fun category => (s.table category).reverse)).toList := by
  let s : EdgeSet Nat Nat := ⟨4, .ofList [(⟨.posInc, 0⟩, ⟨0, 0⟩), (⟨.posInc, 1⟩, ⟨1, 1⟩), (⟨.posInc, 2⟩, ⟨2, 2⟩),
    (⟨.posDec, 0⟩, ⟨5, 10⟩), (⟨.posDec, 1⟩, ⟨6, 11⟩), (⟨.negDec, 0⟩, ⟨7, 12⟩)]⟩
  have hreversed : ∀ category, (s.table category).reverse.Perm (s.table category) := fun _ => List.reverse_perm _
  exact ⟨s, by decide +kernel, by decide +kernel, hreversed, (combinations_enumerate s 2).2 hreversed⟩

end EdgeSet

end ReluAbstraction
