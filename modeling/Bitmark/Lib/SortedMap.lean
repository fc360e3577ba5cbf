import Mathlib.Data.List.Sort
import Mathlib.Order.Lattice

/-!
# Maps with an order of iteration

A map over a linear order of keys is its list of entries in ascending order of the keys, as a
`std::map` is iterated. Two maps with the same lookups are equal.
-/

/-- Entries with ascending keys. -/
structure SortedMap (κ α : Type*) [LinearOrder κ] where
  entries : List (κ × α)
  sorted : entries.Pairwise fun p q ↦ p.1 < q.1

namespace SortedMap

variable {κ α : Type*} [LinearOrder κ]

instance [DecidableEq α] : DecidableEq (SortedMap κ α) := fun m m' ↦
  decidable_of_iff (m.entries = m'.entries) (by cases m; cases m'; simp)

def empty : SortedMap κ α := ⟨[], List.Pairwise.nil⟩

instance : EmptyCollection (SortedMap κ α) := ⟨empty⟩

/-- The value under a key. -/
def lookup (m : SortedMap κ α) (k : κ) : Option α := m.entries.lookup k

/-- The keys in order. -/
def keys (m : SortedMap κ α) : List κ := m.entries.map Prod.fst

/-- An entry into an ascending list, in the place of one with the same key. -/
def insertEntry (k : κ) (a : α) : List (κ × α) → List (κ × α)
  | [] => [(k, a)]
  | p :: l =>
    if k < p.1 then (k, a) :: p :: l
    else if k = p.1 then (k, a) :: l
    else p :: insertEntry k a l

theorem mem_insertEntry {k : κ} {a : α} {p : κ × α} {l : List (κ × α)}
    (h : p ∈ insertEntry k a l) : p = (k, a) ∨ p ∈ l := by
  induction l with
  | nil => exact .inl (List.mem_singleton.mp h)
  | cons q l ih =>
    rw [insertEntry] at h
    split at h
    · exact List.mem_cons.mp h
    · split at h
      · exact (List.mem_cons.mp h).imp_right (List.mem_cons_of_mem q)
      · rcases List.mem_cons.mp h with rfl | h
        · exact .inr List.mem_cons_self
        · exact (ih h).imp_right (List.mem_cons_of_mem q)

theorem sorted_insertEntry {k : κ} {a : α} {l : List (κ × α)}
    (h : l.Pairwise fun p q ↦ p.1 < q.1) :
    (insertEntry k a l).Pairwise fun p q ↦ p.1 < q.1 := by
  induction l with
  | nil => exact List.pairwise_singleton _ _
  | cons p l ih =>
    obtain ⟨hp, hl⟩ := List.pairwise_cons.mp h
    rw [insertEntry]
    split
    · next hlt =>
      refine List.pairwise_cons.mpr ⟨?_, h⟩
      intro q hq
      rcases List.mem_cons.mp hq with rfl | hq
      · exact hlt
      · exact hlt.trans (hp q hq)
    · next hnlt =>
      split
      · next heq =>
        refine List.pairwise_cons.mpr ⟨?_, hl⟩
        intro q hq
        exact heq ▸ hp q hq
      · next hne =>
        refine List.pairwise_cons.mpr ⟨?_, ih hl⟩
        intro q hq
        rcases mem_insertEntry hq with rfl | hq
        · exact lt_of_le_of_ne (not_lt.mp hnlt) (Ne.symm hne)
        · exact hp q hq

/-- `m[k] = a`. -/
def insert (m : SortedMap κ α) (k : κ) (a : α) : SortedMap κ α :=
  ⟨insertEntry k a m.entries, sorted_insertEntry m.sorted⟩

/-- `it->second = b`, for an iterator at an entry. -/
theorem entries_insert_of_split {m : SortedMap κ α} {k : κ} {a b : α} {before after : List (κ × α)}
    (h : m.entries = before ++ (k, a) :: after) :
    (m.insert k b).entries = before ++ (k, b) :: after := by
  have hsorted := m.sorted
  rw [h] at hsorted
  change insertEntry k b m.entries = _
  rw [h]
  clear h
  induction before with
  | nil => rw [List.nil_append, insertEntry, if_neg (lt_irrefl k), if_pos rfl, List.nil_append]
  | cons p before ih =>
    rw [List.cons_append] at hsorted
    obtain ⟨hfirst, hsorted⟩ := List.pairwise_cons.mp hsorted
    have hlt : p.1 < k := hfirst (k, a) (List.mem_append_right _ List.mem_cons_self)
    rw [List.cons_append, insertEntry, if_neg hlt.asymm, if_neg hlt.ne', ih hsorted,
      List.cons_append]

/-- `m.erase(k)`. -/
def erase (m : SortedMap κ α) (k : κ) : SortedMap κ α :=
  ⟨m.entries.filter fun p ↦ p.1 ≠ k, m.sorted.filter _⟩

/-- The entries whose values are kept, with what they become. -/
def filterMap {β : Type*} (m : SortedMap κ α) (f : α → Option β) : SortedMap κ β :=
  ⟨m.entries.filterMap fun p ↦ (f p.2).map (p.1, ·), by
    refine m.sorted.filterMap _ ?_
    rintro p q hpq p' hp' q' hq'
    obtain ⟨b, -, rfl⟩ := Option.map_eq_some_iff.mp hp'
    obtain ⟨b', -, rfl⟩ := Option.map_eq_some_iff.mp hq'
    exact hpq⟩

/-! ### Lookups -/

variable {m m' : SortedMap κ α} {k k' : κ} {a : α}

theorem nodup_keys (m : SortedMap κ α) : m.keys.Nodup :=
  List.pairwise_map.mpr (m.sorted.imp fun h ↦ h.ne)

private theorem lookup_cons_self (p : κ × α) (l : List (κ × α)) :
    (p :: l).lookup p.1 = some p.2 := by
  rw [List.lookup_cons, beq_self_eq_true]

private theorem lookup_cons_of_ne {p : κ × α} (h : k ≠ p.1) (l : List (κ × α)) :
    (p :: l).lookup k = l.lookup k := by
  rw [List.lookup_cons, beq_eq_false_iff_ne.mpr h]

@[simp] theorem lookup_empty (k : κ) : (∅ : SortedMap κ α).lookup k = none := rfl

/-- A lookup finds exactly the entries. -/
theorem lookup_eq_some : m.lookup k = some a ↔ (k, a) ∈ m.entries := by
  obtain ⟨l, h⟩ := m
  change l.lookup k = some a ↔ (k, a) ∈ l
  induction l with
  | nil => simp
  | cons p l ih =>
    obtain ⟨hp, hl⟩ := List.pairwise_cons.mp h
    rw [List.mem_cons]
    by_cases hk : k = p.1
    · subst hk
      have hnot : (p.1, a) ∉ l := fun hmem ↦ (hp _ hmem).ne rfl
      rw [lookup_cons_self, or_iff_left hnot, Option.some.injEq]
      constructor
      · rintro rfl
        rfl
      · intro heq
        rw [← heq]
    · have hnot : (k, a) ≠ p := fun heq ↦ hk (congrArg Prod.fst heq)
      rw [lookup_cons_of_ne hk, ih hl]
      exact (or_iff_right hnot).symm

theorem lookup_eq_none : m.lookup k = none ↔ k ∉ m.keys := by
  rw [keys, List.mem_map, Option.eq_none_iff_forall_ne_some]
  constructor
  · rintro h ⟨p, hp, rfl⟩
    exact h p.2 (lookup_eq_some.mpr hp)
  · intro h a ha
    exact h ⟨(k, a), lookup_eq_some.mp ha, rfl⟩

theorem mem_keys : k ∈ m.keys ↔ ∃ a, m.lookup k = some a := by
  rw [← Option.ne_none_iff_exists', ne_eq, lookup_eq_none, not_not]

/-- Maps are their lookups. -/
theorem ext_lookup (h : ∀ k, m.lookup k = m'.lookup k) : m = m' := by
  have hmem : ∀ p, p ∈ m.entries ↔ p ∈ m'.entries := by
    intro p
    rw [← lookup_eq_some, ← lookup_eq_some (m := m'), h]
  have hperm : m.entries.Perm m'.entries :=
    (List.perm_ext_iff_of_nodup (List.Nodup.of_map _ m.nodup_keys)
      (List.Nodup.of_map _ m'.nodup_keys)).mpr hmem
  have hentries : m.entries = m'.entries :=
    hperm.eq_of_pairwise (fun p q _ _ hpq hqp ↦ absurd hpq hqp.not_gt) m.sorted m'.sorted
  cases m
  cases m'
  exact (mk.injEq ..).mpr hentries

private theorem lookup_insertEntry_self (k : κ) (a : α) (l : List (κ × α)) :
    (insertEntry k a l).lookup k = some a := by
  induction l with
  | nil => simp [insertEntry]
  | cons p l ih =>
    rw [insertEntry]
    split
    · simp
    · split
      · simp
      · next hne => rw [lookup_cons_of_ne hne, ih]

private theorem lookup_insertEntry_of_ne (a : α) (h : k' ≠ k) (l : List (κ × α)) :
    (insertEntry k a l).lookup k' = l.lookup k' := by
  induction l with
  | nil => exact lookup_cons_of_ne h []
  | cons p l ih =>
    rw [insertEntry]
    split
    · exact lookup_cons_of_ne h (p :: l)
    · split
      · next heq =>
        rw [lookup_cons_of_ne (p := (k, a)) h, lookup_cons_of_ne (p := p) (heq ▸ h)]
      · rw [List.lookup_cons, List.lookup_cons, ih]

@[simp] theorem lookup_insert_self (m : SortedMap κ α) (k : κ) (a : α) :
    (m.insert k a).lookup k = some a :=
  lookup_insertEntry_self k a m.entries

theorem lookup_insert_of_ne (m : SortedMap κ α) (a : α) (h : k' ≠ k) :
    (m.insert k a).lookup k' = m.lookup k' :=
  lookup_insertEntry_of_ne a h m.entries

theorem lookup_insert (m : SortedMap κ α) (k : κ) (a : α) (k' : κ) :
    (m.insert k a).lookup k' = if k' = k then some a else m.lookup k' := by
  by_cases h : k' = k
  · rw [if_pos h, h, lookup_insert_self]
  · rw [if_neg h, lookup_insert_of_ne m a h]

theorem lookup_erase (m : SortedMap κ α) (k k' : κ) :
    (m.erase k).lookup k' = if k' = k then none else m.lookup k' := by
  by_cases h : k' = k
  · rw [if_pos h, h, lookup_eq_none, keys, List.mem_map]
    rintro ⟨p, hp, hpk⟩
    exact of_decide_eq_true (List.mem_filter.mp hp).2 hpk
  · rw [if_neg h, Option.ext_iff]
    intro a
    rw [lookup_eq_some, lookup_eq_some, erase, List.mem_filter]
    exact and_iff_left (decide_eq_true h)

theorem lookup_filterMap {β : Type*} (m : SortedMap κ α) (f : α → Option β) (k : κ) :
    (m.filterMap f).lookup k = (m.lookup k).bind f := by
  refine Option.ext fun b ↦ ?_
  rw [lookup_eq_some, Option.bind_eq_some_iff, filterMap, List.mem_filterMap]
  constructor
  · rintro ⟨p, hp, hb⟩
    obtain ⟨b', hb', heq⟩ := Option.map_eq_some_iff.mp hb
    obtain ⟨rfl, rfl⟩ := Prod.mk.inj heq
    exact ⟨p.2, lookup_eq_some.mpr hp, hb'⟩
  · rintro ⟨a, ha, hb⟩
    exact ⟨(k, a), lookup_eq_some.mp ha, by rw [hb]; rfl⟩

theorem eq_empty_iff : m = ∅ ↔ ∀ k, m.lookup k = none :=
  ⟨by rintro rfl; exact lookup_empty, fun h ↦ ext_lookup h⟩

/-! ### Keys -/

theorem mem_keys_insert : k' ∈ (m.insert k a).keys ↔ k' = k ∨ k' ∈ m.keys := by
  rw [mem_keys, mem_keys]
  by_cases h : k' = k
  · subst h
    exact iff_of_true ⟨a, lookup_insert_self m k' a⟩ (.inl rfl)
  · rw [lookup_insert_of_ne m a h, or_iff_right h]

theorem mem_keys_erase : k' ∈ (m.erase k).keys ↔ k' ≠ k ∧ k' ∈ m.keys := by
  rw [mem_keys, mem_keys]
  by_cases h : k' = k
  · simp [lookup_erase, h]
  · simp [lookup_erase, h]

/-! ### Counting entries -/

theorem erase_of_lookup_eq_none (h : m.lookup k = none) : m.erase k = m := by
  refine ext_lookup fun k' ↦ ?_
  rw [lookup_erase]
  split
  · next heq => rw [heq, h]
  · rfl

theorem erase_insert (m : SortedMap κ α) (k : κ) (a : α) : (m.insert k a).erase k = m.erase k := by
  refine ext_lookup fun k' ↦ ?_
  rw [lookup_erase, lookup_erase]
  split
  · rfl
  · next hne => rw [lookup_insert_of_ne m a hne]

theorem insert_insert (m : SortedMap κ α) (k : κ) (a b : α) :
    (m.insert k a).insert k b = m.insert k b := by
  refine ext_lookup fun k' ↦ ?_
  rw [lookup_insert, lookup_insert, lookup_insert]
  split <;> rfl

theorem insert_lookup (h : m.lookup k = some a) : m.insert k a = m := by
  refine ext_lookup fun k' ↦ ?_
  rw [lookup_insert]
  split
  · next heq => rw [heq, h]
  · rfl

theorem insert_comm (m : SortedMap κ α) (h : k ≠ k') (a b : α) :
    (m.insert k a).insert k' b = (m.insert k' b).insert k a := by
  refine ext_lookup fun x ↦ ?_
  rw [lookup_insert, lookup_insert, lookup_insert, lookup_insert]
  by_cases hx : x = k'
  · rw [if_pos hx, if_pos hx, if_neg fun hk ↦ h (hk.symm.trans hx)]
  · rw [if_neg hx, if_neg hx]

/-- An entry and the others. -/
theorem perm_cons_erase (h : m.lookup k = some a) :
    m.entries.Perm ((k, a) :: (m.erase k).entries) := by
  have hnodup : ((k, a) :: (m.erase k).entries).Nodup := by
    refine List.nodup_cons.mpr ⟨?_, List.Nodup.of_map _ (m.erase k).nodup_keys⟩
    intro hmem
    have hlookup := lookup_eq_some.mpr hmem
    rw [lookup_erase, if_pos rfl] at hlookup
    cases hlookup
  rw [List.perm_ext_iff_of_nodup (List.Nodup.of_map _ m.nodup_keys) hnodup]
  rintro ⟨k', a'⟩
  rw [List.mem_cons, Prod.mk.injEq, ← lookup_eq_some, ← lookup_eq_some, lookup_erase]
  by_cases hk : k' = k
  · subst hk
    simp [h, eq_comm]
  · simp [hk]

theorem perm_insert (m : SortedMap κ α) (k : κ) (a : α) :
    (m.insert k a).entries.Perm ((k, a) :: (m.erase k).entries) := by
  rw [← erase_insert m k a]
  exact perm_cons_erase (lookup_insert_self m k a)

/-- The number of entries whose value passes a test. -/
def count (m : SortedMap κ α) (p : α → Bool) : ℕ := m.entries.countP fun e ↦ p e.2

theorem count_erase (p : α → Bool) (h : m.lookup k = some a) :
    (m.erase k).count p + (if p a then 1 else 0) = m.count p := by
  rw [count, count, (perm_cons_erase h).countP_eq, List.countP_cons]

theorem count_insert (p : α → Bool) (h : m.lookup k = none) :
    (m.insert k a).count p = m.count p + if p a then 1 else 0 := by
  rw [count, (perm_insert m k a).countP_eq, List.countP_cons, erase_of_lookup_eq_none h, ← count]

/-- A value in the place of another one. -/
theorem count_replace (p : α → Bool) {b : α} (h : m.lookup k = some a) :
    (m.insert k b).count p + (if p a then 1 else 0) = m.count p + if p b then 1 else 0 := by
  rw [← count_erase p h, count, (perm_insert m k b).countP_eq, List.countP_cons, ← count]
  exact Nat.add_right_comm _ _ _

theorem length_keys_filterMap {β : Type*} (m : SortedMap κ α) (f : α → Option β) :
    (m.filterMap f).keys.length = m.count fun a ↦ (f a).isSome := by
  rw [keys, List.length_map, filterMap, List.length_filterMap_eq_countP, count]
  refine List.countP_congr fun e _ ↦ ?_
  rw [Option.isSome_map]

/-- A test of a part of the values does not see the rest of them. -/
theorem count_congr {β : Type*} {f : α → β} (p : β → Bool)
    (h : ∀ k, (m.lookup k).map f = (m'.lookup k).map f) :
    (m.count fun a ↦ p (f a)) = m'.count fun a ↦ p (f a) := by
  have hcount : ∀ n : SortedMap κ α, (n.count fun a ↦ p (f a)) =
      (n.filterMap fun a ↦ if p (f a) then some (f a) else none).keys.length := by
    intro n
    rw [length_keys_filterMap]
    congr 1
    ext a
    cases p (f a) <;> rfl
  rw [hcount, hcount]
  congr 2
  refine ext_lookup fun k ↦ ?_
  rw [lookup_filterMap, lookup_filterMap]
  have hk := h k
  cases hm : m.lookup k with
  | none =>
    rw [hm] at hk
    rw [Option.map_eq_none_iff.mp hk.symm]
  | some a =>
    rw [hm] at hk
    obtain ⟨a', ha', hf⟩ := Option.map_eq_some_iff.mp hk.symm
    rw [ha', Option.bind_some, Option.bind_some, hf]

/-- A test and its negation split the entries. -/
theorem count_add_count_not (m : SortedMap κ α) (p : α → Bool) :
    m.count p + m.count (fun a ↦ !p a) = m.entries.length := by
  rw [List.length_eq_countP_add_countP fun e : κ × α ↦ p e.2, count, count]
  congr 1
  refine List.countP_congr fun e _ ↦ ?_
  cases p e.2 <;> simp

theorem length_keys (m : SortedMap κ α) : m.keys.length = m.entries.length := List.length_map _

theorem length_keys_erase (h : m.lookup k = some a) :
    (m.erase k).keys.length + 1 = m.keys.length := by
  rw [length_keys, length_keys, (perm_cons_erase h).length_eq, List.length_cons]

theorem length_keys_erase_le (m : SortedMap κ α) (k : κ) :
    (m.erase k).keys.length ≤ m.keys.length := by
  rw [length_keys, length_keys]
  exact List.length_filter_le _ _

theorem length_keys_insert (h : m.lookup k = none) (a : α) :
    (m.insert k a).keys.length = m.keys.length + 1 := by
  rw [length_keys, (perm_insert m k a).length_eq, List.length_cons, erase_of_lookup_eq_none h,
    length_keys]

theorem length_keys_insert_le (m : SortedMap κ α) (k : κ) (a : α) :
    (m.insert k a).keys.length ≤ m.keys.length + 1 := by
  rw [length_keys, (perm_insert m k a).length_eq, List.length_cons, ← length_keys]
  exact Nat.succ_le_succ (length_keys_erase_le m k)

/-! ### Numbered elements -/

/-- The elements of a list under their positions. -/
def enumerate (l : List α) : SortedMap Int α :=
  ⟨l.mapIdx fun i a ↦ ((i : Int), a), by
    refine List.pairwise_iff_getElem.mpr ?_
    intro i j hi hj hij
    rw [List.getElem_mapIdx, List.getElem_mapIdx]
    exact Int.ofNat_lt.mpr hij⟩

theorem lookup_enumerate (l : List α) (i : ℕ) : (enumerate l).lookup (i : Int) = l[i]? := by
  refine Option.ext fun a ↦ ?_
  rw [lookup_eq_some, enumerate, List.mem_iff_getElem?]
  simp only [List.getElem?_mapIdx, Option.map_eq_some_iff, Prod.mk.injEq, Int.natCast_inj]
  constructor
  · rintro ⟨j, b, hb, rfl, rfl⟩
    exact hb
  · intro ha
    exact ⟨i, a, ha, rfl, rfl⟩

theorem lookup_enumerate_eq_some {l : List α} {k : Int} :
    (enumerate l).lookup k = some a ↔ ∃ i : ℕ, l[i]? = some a ∧ k = i := by
  constructor
  · intro h
    obtain ⟨i, hi, hk⟩ := List.mem_iff_getElem.mp (lookup_eq_some.mp h)
    have heq := congrArg Prod.fst hk
    simp only [enumerate, List.getElem_mapIdx] at heq
    subst heq
    exact ⟨i, (lookup_enumerate l i).symm.trans h, rfl⟩
  · rintro ⟨i, hi, rfl⟩
    exact (lookup_enumerate l i).trans hi

theorem insert_enumerate (l : List α) (a : α) :
    (enumerate l).insert l.length a = enumerate (l ++ [a]) := by
  refine ext_lookup fun k ↦ Option.ext fun b ↦ ?_
  rw [lookup_insert, lookup_enumerate_eq_some]
  split
  · next hk =>
    subst hk
    constructor
    · intro h
      exact ⟨l.length, by simpa using h, rfl⟩
    · rintro ⟨i, hi, heq⟩
      obtain rfl := Int.ofNat_inj.mp heq
      simpa using hi
  · next hk =>
    rw [lookup_enumerate_eq_some]
    refine exists_congr fun i ↦ and_congr_left ?_
    rintro rfl
    rw [List.getElem?_append]
    split
    · rfl
    · next hge =>
      have hne : i - l.length ≠ 0 := fun h0 ↦ hk (by omega)
      rw [List.getElem?_eq_none (by omega), List.getElem?_singleton, if_neg hne]

theorem length_enumerate (l : List α) : (enumerate l).entries.length = l.length :=
  List.length_mapIdx

theorem count_enumerate (l : List α) (p : α → Bool) : (enumerate l).count p = l.countP p := by
  have hvalues : (enumerate l).entries.map Prod.snd = l := by
    refine List.ext_getElem? fun i ↦ ?_
    rw [enumerate, List.getElem?_map, List.getElem?_mapIdx, Option.map_map]
    exact Option.map_id'
  conv_rhs => rw [← hvalues, List.countP_map]
  rfl

end SortedMap
