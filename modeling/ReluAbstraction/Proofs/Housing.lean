import ReluAbstraction.Proofs.GraphEdits
import ReluAbstraction.Proofs.Tables

/-!
# Vertices and the tables that list them

Each layer lists its vertices in tables. A graph is housed by the chains of its layers when a chain lists a vertex at a
place exactly if the vertex is there. So a slot that a table calls vacant is a place not in use in the graph.
-/

namespace ReluAbstraction

variable {k : EntityKind} {α δ : Type}

/-- Every table number is that of a category. -/
theorem Category.exists_index {t : Nat} (h : t < 5) : ∃ category : Category, category.index = t := by
  match t, h with
  | 0, _ => exact ⟨posInc, rfl⟩
  | 1, _ => exact ⟨posDec, rfl⟩
  | 2, _ => exact ⟨negInc, rfl⟩
  | 3, _ => exact ⟨negDec, rfl⟩
  | 4, _ => exact ⟨unprocessed, rfl⟩

/-- The handle that the chains of the layers list at a place. -/
def listing (chains : List (TableChain (Handle k))) (p : Location) : Option (Handle k) :=
  chains[p.layer]?.bind (·.at? p.category.index p.slot)

/-- Setting one chain changes the listing of its layer. -/
theorem listing_set {chains : List (TableChain (Handle k))} {l : Nat} {c c' : TableChain (Handle k)}
    (hc : chains[l]? = some c) (p : Location) :
    listing (chains.set l c') p = if p.layer = l then c'.at? p.category.index p.slot else listing chains p := by
  have hlt : l < chains.length := (List.getElem?_eq_some_iff.mp hc).1
  unfold listing
  rw [List.getElem?_set]
  by_cases h : p.layer = l
  · simp [h, hlt]
  · simp [h, Ne.symm h]

theorem listing_insert {chains : List (TableChain (Handle k))} {l : Nat} {c c' : TableChain (Handle k)}
    {category : Category} {slot : Slot} {id : Handle k} (hc : chains[l]? = some c)
    (h : TableChain.Inserted c c' category.index slot id) (p : Location) :
    listing (chains.set l c') p = if p = ⟨l, category, slot⟩ then some id else listing chains p := by
  rw [listing_set hc, h.at?_eq]
  obtain ⟨layer, category', slot'⟩ := p
  by_cases hl : layer = l
  · subst hl
    have hindex : category'.index = category.index ↔ category' = category :=
      ⟨Category.index_injective, congrArg Category.index⟩
    simp [listing, hc, hindex]
  · simp [hl]

theorem listing_remove {chains : List (TableChain (Handle k))} {l : Nat} {c c' : TableChain (Handle k)}
    {category : Category} {slot : Slot} (hc : chains[l]? = some c)
    (h : TableChain.Removed c c' category.index slot) (p : Location) :
    listing (chains.set l c') p = if p = ⟨l, category, slot⟩ then none else listing chains p := by
  rw [listing_set hc, h.at?_eq]
  obtain ⟨layer, category', slot'⟩ := p
  by_cases hl : layer = l
  · subst hl
    have hindex : category'.index = category.index ↔ category' = category :=
      ⟨Category.index_injective, congrArg Category.index⟩
    simp [listing, hc, hindex]
  · simp [hl]

/-- The chains list a vertex at a place exactly if it is there; all chains are sound and have tables of the given
kinds. -/
structure Housed (chains : List (TableChain (Handle k))) (kinds : List TableKind) (g : Graph k α δ) : Prop where
  sound : ∀ c ∈ chains, c.Sound
  kinds_eq : ∀ c ∈ chains, c.kinds = kinds
  listing_iff : ∀ p id, listing chains p = some id ↔ ∃ b, g.body? id = some b ∧ b.location = p

/-- Empty tables list the vertices of an empty graph. -/
theorem housed_empty {chains : List (TableChain (Handle k))} {kinds : List TableKind}
    (hchains : ∀ c ∈ chains, c = TableChain.empty kinds) : Housed chains kinds (Arena.empty : Graph k α δ) := by
  refine ⟨fun c hc => ?_, fun c hc => ?_, fun p id => ?_⟩
  · rw [hchains c hc]
    exact TableChain.sound_empty kinds
  · rw [hchains c hc]
    exact TableChain.kinds_empty kinds
  · have hbody : Graph.body? (Arena.empty : Graph k α δ) id = none := by simp [Graph.body?]
    have hlisting : listing chains p = none := by
      unfold listing
      cases hget : chains[p.layer]? with
      | none => rfl
      | some c =>
        rw [hchains c (List.mem_of_getElem? hget)]
        exact TableChain.at?_empty _ _ _
    simp [hlisting, hbody]

namespace Housed

variable {chains : List (TableChain (Handle k))} {kinds : List TableKind} {g : Graph k α δ}

/-- The layer of a vertex is one of the layers. -/
theorem exists_chain (h : Housed chains kinds g) {id : Handle k} {b : Body δ} (hb : g.body? id = some b) :
    ∃ c, chains[b.location.layer]? = some c ∧ c.at? b.location.category.index b.location.slot = some id := by
  have hlist := (h.listing_iff b.location id).mpr ⟨b, hb, rfl⟩
  exact Option.bind_eq_some_iff.mp hlist

theorem table_of_kind (h : Housed chains kinds g) {l t : Nat} {c : TableChain (Handle k)} {kind : TableKind}
    (hc : chains[l]? = some c) (hkind : kinds[t]? = some kind) : ∃ table, c.tables[t]? = some table ∧ table.kind = kind := by
  have hk := h.kinds_eq c (List.mem_of_getElem? hc)
  rw [← hk, TableChain.kinds, List.getElem?_map, Option.map_eq_some_iff] at hkind
  exact hkind

/-- At a vacant slot there is no vertex. -/
theorem vacant (h : Housed chains kinds g) {l : Nat} {c : TableChain (Handle k)} {category : Category} {slot : Slot}
    (hc : chains[l]? = some c) (hat : c.at? category.index slot = none) {x : Handle k} {u : Vertex k α δ}
    (hx : g.get? x = some u) : u.location ≠ ⟨l, category, slot⟩ := by
  intro hplace
  have hlist := (h.listing_iff ⟨l, category, slot⟩ x).mpr ⟨_, Graph.body?_of_get? hx, hplace⟩
  simp only [listing, hc, Option.bind_some, hat] at hlist
  cases hlist

/-- The entries of a table are the vertices of its category in its layer. -/
theorem mem_entries_iff (h : Housed chains kinds g) {l : Nat} {c : TableChain (Handle k)} {category : Category}
    (hc : chains[l]? = some c) {slot : Slot} {x : Handle k} :
    (slot, x) ∈ c.entries category.index ↔ ∃ b, g.body? x = some b ∧ b.location = ⟨l, category, slot⟩ := by
  rw [TableChain.mem_entries_iff, ← h.listing_iff, listing]
  simp [hc]

/-- No table lists a vertex twice. -/
theorem entries_nodup (h : Housed chains kinds g) {l : Nat} {c : TableChain (Handle k)} (category : Category)
    (hc : chains[l]? = some c) : ((c.entries category.index).map (·.2)).Nodup := by
  refine (TableChain.entries_slots_nodup (c := c) (t := category.index)).of_map _ |>.map_on ?_
  rintro ⟨slot, x⟩ hx ⟨slot', y⟩ hy hxy
  obtain rfl : x = y := hxy
  obtain ⟨b, hb, hplace⟩ := (h.mem_entries_iff hc).mp hx
  obtain ⟨b', hb', hplace'⟩ := (h.mem_entries_iff hc).mp hy
  rw [hb] at hb'
  cases hb'
  rw [hplace] at hplace'
  simp only [Location.mk.injEq] at hplace'
  rw [hplace'.2.2]

/-- The handles of a layer are its vertices. -/
theorem mem_handles_iff (h : Housed chains kinds g) {l : Nat} {c : TableChain (Handle k)} (hc : chains[l]? = some c)
    (hkinds : kinds.length ≤ 5) {x : Handle k} : x ∈ c.handles ↔ ∃ b, g.body? x = some b ∧ b.location.layer = l := by
  rw [TableChain.mem_handles_iff]
  constructor
  · rintro ⟨t, slot, hat⟩
    have hlt : t < kinds.length := by
      obtain ⟨table, htable, _⟩ := Option.bind_eq_some_iff.mp hat
      rw [← h.kinds_eq c (List.mem_of_getElem? hc), TableChain.kinds, List.length_map]
      exact (List.getElem?_eq_some_iff.mp htable).1
    obtain ⟨category, rfl⟩ := Category.exists_index (Nat.lt_of_lt_of_le hlt hkinds)
    obtain ⟨b, hb, hplace⟩ := (h.listing_iff ⟨l, category, slot⟩ x).mp (by simp [listing, hc, hat])
    exact ⟨b, hb, by rw [hplace]⟩
  · rintro ⟨b, hb, rfl⟩
    obtain ⟨c', hc', hat⟩ := h.exists_chain hb
    obtain rfl : c = c' := Option.some.inj (hc.symm.trans hc')
    exact ⟨_, _, hat⟩

/-- A table is no larger than the arena of its entries. -/
theorem table_size_le (h : Housed chains kinds g) {l : Nat} {c : TableChain (Handle k)} {category : Category}
    {table : Table (Handle k)} (hc : chains[l]? = some c) (htable : c.tables[category.index]? = some table) :
    table.size ≤ g.slots.size := by
  have hentries : c.entries category.index = table.toList := by simp [TableChain.entries, htable]
  have hlength : table.size = ((c.entries category.index).map (·.2)).length := by
    rw [List.length_map, hentries, Table.size_eq_length]
  rw [hlength]
  refine Arena.length_le_of_live (h.entries_nodup category hc) fun x hx => ?_
  obtain ⟨⟨slot, x⟩, hmem, rfl⟩ := List.mem_map.mp hx
  obtain ⟨b, hb, _⟩ := (h.mem_entries_iff hc).mp hmem
  obtain ⟨v, hv, _⟩ := Graph.body?_eq_some_iff.mp hb
  exact ⟨v, hv⟩

/-- A graph with the same vertices is housed alike. -/
theorem of_same_bodies {g' : Graph k α δ} (h : Housed chains kinds g)
    (hbody : ∀ x, (g'.body? x).map Body.location = (g.body? x).map Body.location) : Housed chains kinds g' := by
  refine ⟨h.sound, h.kinds_eq, fun p id => ?_⟩
  have hid := hbody id
  rw [h.listing_iff]
  constructor
  · rintro ⟨b, hb, rfl⟩
    rw [hb, Option.map_some, Option.map_eq_some_iff] at hid
    exact hid
  · rintro ⟨b, hb, rfl⟩
    rw [hb, Option.map_some, eq_comm, Option.map_eq_some_iff] at hid
    exact hid

theorem sound_set (h : Housed chains kinds g) {l : Nat} {c' : TableChain (Handle k)} (hc : c'.Sound) :
    ∀ c ∈ chains.set l c', c.Sound := by
  intro c hmem
  rcases List.mem_or_eq_of_mem_set hmem with hmem | rfl
  · exact h.sound c hmem
  · exact hc

theorem kinds_set (h : Housed chains kinds g) {l : Nat} {c' : TableChain (Handle k)} (hc : c'.kinds = kinds) :
    ∀ c ∈ chains.set l c', c.kinds = kinds := by
  intro c hmem
  rcases List.mem_or_eq_of_mem_set hmem with hmem | rfl
  · exact h.kinds_eq c hmem
  · exact hc

/-- Listing a new vertex at its place. -/
theorem insert (h : Housed chains kinds g) {g' : Graph k α δ} {l : Nat} {c c' : TableChain (Handle k)}
    {category : Category} {slot : Slot} {id : Handle k} {b : Body δ} (hc : chains[l]? = some c)
    (hins : TableChain.Inserted c c' category.index slot id) (hnone : g.body? id = none)
    (hplace : b.location = ⟨l, category, slot⟩) (hbody : ∀ x, g'.body? x = if x = id then some b else g.body? x) :
    Housed (chains.set l c') kinds g' := by
  have hkinds : c'.kinds = kinds := hins.kinds_eq.trans (h.kinds_eq c (List.mem_of_getElem? hc))
  refine ⟨h.sound_set hins.sound, h.kinds_set hkinds, fun p x => ?_⟩
  rw [listing_insert hc hins, hbody]
  by_cases hp : p = ⟨l, category, slot⟩
  · rw [if_pos hp]
    constructor
    · intro heq
      injection heq with heq
      subst heq
      exact ⟨b, by simp, hplace.trans hp.symm⟩
    · rintro ⟨b', hb', hplace'⟩
      by_cases hx : x = id
      · rw [hx]
      · rw [if_neg hx] at hb'
        have hlist := (h.listing_iff p x).mpr ⟨b', hb', hplace'⟩
        simp only [listing, hp, hc, Option.bind_some, hins.vacant] at hlist
        cases hlist
  · rw [if_neg hp, h.listing_iff]
    constructor
    · rintro ⟨b', hb', hplace'⟩
      have hx : x ≠ id := by
        rintro rfl
        rw [hnone] at hb'
        cases hb'
      exact ⟨b', by rw [if_neg hx, hb'], hplace'⟩
    · rintro ⟨b', hb', hplace'⟩
      split at hb'
      · injection hb' with hb'
        subst hb'
        exact absurd (hplace'.symm.trans hplace) hp
      · exact ⟨b', hb', hplace'⟩

/-- Striking a vertex that is gone. -/
theorem remove (h : Housed chains kinds g) {g' : Graph k α δ} {l : Nat} {c c' : TableChain (Handle k)}
    {category : Category} {slot : Slot} {id : Handle k} {b : Body δ} (hc : chains[l]? = some c)
    (hrem : TableChain.Removed c c' category.index slot) (hb : g.body? id = some b)
    (hplace : b.location = ⟨l, category, slot⟩) (hbody : ∀ x, g'.body? x = if x = id then none else g.body? x) :
    Housed (chains.set l c') kinds g' := by
  have hkinds : c'.kinds = kinds := hrem.kinds_eq.trans (h.kinds_eq c (List.mem_of_getElem? hc))
  refine ⟨h.sound_set hrem.sound, h.kinds_set hkinds, fun p x => ?_⟩
  have hid := (h.listing_iff ⟨l, category, slot⟩ id).mpr ⟨b, hb, hplace⟩
  rw [listing_remove hc hrem, hbody]
  by_cases hp : p = ⟨l, category, slot⟩
  · rw [if_pos hp]
    constructor
    · intro heq
      cases heq
    · rintro ⟨b', hb', hplace'⟩
      split at hb'
      · cases hb'
      · next hx =>
        have hlist := (h.listing_iff p x).mpr ⟨b', hb', hplace'⟩
        rw [hp, hid] at hlist
        exact absurd (Option.some.inj hlist).symm hx
  · rw [if_neg hp, h.listing_iff]
    constructor
    · rintro ⟨b', hb', hplace'⟩
      have hx : x ≠ id := by
        rintro rfl
        rw [hb] at hb'
        cases hb'
        exact hp (hplace'.symm.trans hplace)
      exact ⟨b', by rw [if_neg hx, hb'], hplace'⟩
    · rintro ⟨b', hb', hplace'⟩
      split at hb'
      · cases hb'
      · exact ⟨b', hb', hplace'⟩

/-- Listing a vertex at a new place and striking its old one, once it has moved. -/
theorem move (h : Housed chains kinds g) {g' : Graph k α δ} {l : Nat} {c c₁ c₂ : TableChain (Handle k)}
    {old new : Category} {oldSlot newSlot : Slot} {id : Handle k} {b b' : Body δ} (hc : chains[l]? = some c)
    (hins : TableChain.Inserted c c₁ new.index newSlot id) (hrem : TableChain.Removed c₁ c₂ old.index oldSlot)
    (hne : old ≠ new) (hb : g.body? id = some b) (hplace : b.location = ⟨l, old, oldSlot⟩)
    (hplace' : b'.location = ⟨l, new, newSlot⟩)
    (hbody : ∀ x, g'.body? x = if x = id then some b' else g.body? x) : Housed (chains.set l c₂) kinds g' := by
  have hc₁ : (chains.set l c₁)[l]? = some c₁ := List.getElem?_set_self (List.getElem?_eq_some_iff.mp hc).1
  have hlisting : ∀ p, listing (chains.set l c₂) p = if p = ⟨l, old, oldSlot⟩ then none
      else if p = ⟨l, new, newSlot⟩ then some id else listing chains p := by
    intro p
    rw [← listing_insert hc hins, ← listing_remove hc₁ hrem, List.set_set]
  have hkinds : c₂.kinds = kinds :=
    hrem.kinds_eq.trans (hins.kinds_eq.trans (h.kinds_eq c (List.mem_of_getElem? hc)))
  have hid := (h.listing_iff ⟨l, old, oldSlot⟩ id).mpr ⟨b, hb, hplace⟩
  refine ⟨h.sound_set hrem.sound, h.kinds_set hkinds, fun p x => ?_⟩
  rw [hlisting, hbody]
  by_cases hx : x = id
  · subst hx
    simp only [if_true, Option.some.injEq, exists_eq_left', hplace']
    constructor
    · intro hlist
      split at hlist
      · cases hlist
      · next hold =>
        split at hlist
        · next hnew => exact hnew.symm
        · obtain ⟨b'', hb'', hplace''⟩ := (h.listing_iff p x).mp hlist
          rw [hb] at hb''
          cases hb''
          exact absurd (hplace''.symm.trans hplace) hold
    · intro hp
      subst hp
      simp [Ne.symm hne]
  · simp only [if_neg hx]
    rw [← h.listing_iff]
    constructor
    · intro hlist
      split at hlist
      · cases hlist
      · split at hlist
        · exact absurd (Option.some.inj hlist).symm hx
        · exact hlist
    · intro hlist
      have hold : p ≠ ⟨l, old, oldSlot⟩ := by
        rintro rfl
        rw [hid] at hlist
        exact hx (Option.some.inj hlist).symm
      have hnew : p ≠ ⟨l, new, newSlot⟩ := by
        rintro rfl
        simp only [listing, hc, Option.bind_some, hins.vacant] at hlist
        cases hlist
      rw [if_neg hold, if_neg hnew, hlist]

end Housed

end ReluAbstraction
