import Bitmark.Lib.SortedMap
import Bitmark.Lib.SortedMultimap
import Mathlib.Data.List.Induction

/-!
# The map of limited size

`limitedmap` (`src/limitedmap.h`), a map with a multimap from its values back to its elements. It
holds the times at which inventory was last asked for. An iterator into the map is modelled by its
key.
-/

namespace Bitmark

/-- `limitedmap<K, V>`. -/
structure LimitedMap (κ ν : Type*) [LinearOrder κ] [LinearOrder ν] where
  map : SortedMap κ ν
  rmap : SortedMultimap ν κ
  nMaxSize : ℕ

/-- A call that changes the map. The iterator that `update` takes is at an element of the map. -/
inductive LimitedMapCall (κ ν : Type*)
  | insert (x : κ × ν)
  | erase (k : κ)
  | update (k : κ) (v : ν)

def LimitedMapCall.isInsert {κ ν : Type*} : LimitedMapCall κ ν → Bool
  | .insert _ => true
  | .erase _ | .update _ _ => false

namespace LimitedMap

variable {κ ν : Type*} [LinearOrder κ] [LinearOrder ν]

/-- `limitedmap(nMaxSizeIn)`. -/
def empty (κ ν : Type*) [LinearOrder κ] [LinearOrder ν] (nMaxSizeIn : ℕ) : LimitedMap κ ν :=
  ⟨∅, ∅, nMaxSizeIn⟩

/-- `map.size()`. -/
def size (m : LimitedMap κ ν) : ℕ := m.map.keys.length

/-- `insert`, `src/limitedmap.h:37`; `none` is a use of `rmap.begin()` where there is no entry. -/
def insert (m : LimitedMap κ ν) (x : κ × ν) : Option (LimitedMap κ ν) :=
  match m.map.lookup x.1 with
  | some _ => some m
  | none =>
    let map := m.map.insert x.1 x.2
    if m.nMaxSize ≠ 0 ∧ map.keys.length = m.nMaxSize then
      match m.rmap.entries.head? with
      | none => none
      | some first =>
        some { m with
          map := map.erase first.2
          rmap := (m.rmap.eraseEntry first).insert x.2 x.1 }
    else some { m with map := map, rmap := m.rmap.insert x.2 x.1 }

/-- `erase`, `src/limitedmap.h:51`; `none` is the assertion at its end. -/
def erase (m : LimitedMap κ ν) (k : κ) : Option (LimitedMap κ ν) :=
  match m.map.lookup k with
  | none => some m
  | some v =>
    if k ∈ m.rmap.equalRange v then
      some { m with map := m.map.erase k, rmap := m.rmap.eraseEntry (v, k) }
    else none

/-- `update`, `src/limitedmap.h:68`. -/
def update (m : LimitedMap κ ν) (k : κ) (v : ν) : Option (LimitedMap κ ν) :=
  match m.map.lookup k with
  | none => some m
  | some v' =>
    if k ∈ m.rmap.equalRange v' then
      some { m with map := m.map.insert k v, rmap := (m.rmap.eraseEntry (v', k)).insert v k }
    else none

def call (m : LimitedMap κ ν) : LimitedMapCall κ ν → Option (LimitedMap κ ν)
  | .insert x => m.insert x
  | .erase k => m.erase k
  | .update k v => m.update k v

/-- A sequence of calls. -/
def run (m : LimitedMap κ ν) (calls : List (LimitedMapCall κ ν)) : Option (LimitedMap κ ν) :=
  calls.foldlM call m

/-- The map and the multimap describe the same pairs. -/
structure Agree (m : LimitedMap κ ν) : Prop where
  pairs : ∀ k v, m.map.lookup k = some v ↔ (v, k) ∈ m.rmap.entries
  once : m.rmap.entries.Nodup

/-- Of the pairs inserted, the map holds `N` with the largest values, or all when there are not as
many. -/
structure Best (N : ℕ) (xs : List (κ × ν)) (m : LimitedMap κ ν) : Prop where
  size : m.size = min N xs.length
  inserted : ∀ k v, m.map.lookup k = some v → (k, v) ∈ xs
  largest : ∀ x ∈ xs, m.map.lookup x.1 = none → ∀ k v, m.map.lookup k = some v → x.2 ≤ v

variable {m : LimitedMap κ ν} {k : κ} {v : ν} {x : κ × ν}

theorem Agree.not_mem (h : m.Agree) (hk : m.map.lookup k = none) (v : ν) :
    (v, k) ∉ m.rmap.entries := by
  intro hmem
  rw [(h.pairs k v).mpr hmem] at hk
  cases hk

theorem Agree.eq_value (h : m.Agree) (hk : m.map.lookup k = some v) {v' : ν}
    (hmem : (v', k) ∈ m.rmap.entries) : v' = v :=
  Option.some.inj (((h.pairs k v').mpr hmem).symm.trans hk)

/-- A new pair, and its entry. -/
theorem Agree.push (h : m.Agree) (hk : m.map.lookup k = none) (v : ν) :
    Agree { m with map := m.map.insert k v, rmap := m.rmap.insert v k } := by
  refine ⟨fun k' v' ↦ ?_, SortedMultimap.nodup_insert h.once (h.not_mem hk v)⟩
  rw [SortedMap.lookup_insert, SortedMultimap.mem_insert, Prod.mk.injEq, ← h.pairs]
  by_cases hkk : k' = k
  · subst hkk
    rw [if_pos rfl, hk]
    simp [eq_comm]
  · rw [if_neg hkk]
    simp [hkk]

/-- A pair taken out, and its entry. -/
theorem Agree.drop (h : m.Agree) (hk : m.map.lookup k = some v) :
    Agree { m with map := m.map.erase k, rmap := m.rmap.eraseEntry (v, k) } := by
  refine ⟨fun k' v' ↦ ?_, SortedMultimap.nodup_eraseEntry h.once _⟩
  rw [SortedMap.lookup_erase, SortedMultimap.mem_eraseEntry h.once, ← h.pairs]
  by_cases hkk : k' = k
  · subst hkk
    rw [if_pos rfl]
    refine ⟨fun hnone ↦ (Option.some_ne_none v' hnone.symm).elim, fun ⟨hne, hk'⟩ ↦ ?_⟩
    rw [Option.some.inj (hk'.symm.trans hk)] at hne
    exact absurd rfl hne
  · rw [if_neg hkk]
    refine ⟨fun hk' ↦ ⟨fun heq ↦ hkk (Prod.mk.inj heq).2, hk'⟩, fun hk' ↦ hk'.2⟩

/-- `erase` finds the entry of the element. -/
theorem Agree.erase_eq (h : m.Agree) (hk : m.map.lookup k = some v) :
    m.erase k = some { m with map := m.map.erase k, rmap := m.rmap.eraseEntry (v, k) } := by
  rw [LimitedMap.erase, hk]
  exact if_pos (SortedMultimap.mem_equalRange.mpr ((h.pairs k v).mp hk))

theorem Agree.update_eq (h : m.Agree) (hk : m.map.lookup k = some v) (v' : ν) :
    m.update k v' = some { m with
      map := (m.map.erase k).insert k v', rmap := (m.rmap.eraseEntry (v, k)).insert v' k } := by
  have hinsert : (m.map.erase k).insert k v' = m.map.insert k v' := by
    refine SortedMap.ext_lookup fun k' ↦ ?_
    rw [SortedMap.lookup_insert, SortedMap.lookup_insert, SortedMap.lookup_erase]
    split <;> rfl
  rw [LimitedMap.update, hk, hinsert]
  exact if_pos (SortedMultimap.mem_equalRange.mpr ((h.pairs k v).mp hk))

/-- The invariant of a map with room for `N` elements: it never fills up. -/
structure Inv (N : ℕ) (m : LimitedMap κ ν) : Prop where
  agree : m.Agree
  max : m.nMaxSize = N
  size : m.size < N

theorem Inv.empty {N : ℕ} (hN : 0 < N) : Inv N (LimitedMap.empty κ ν N) := by
  refine ⟨⟨fun k v ↦ ?_, List.nodup_nil⟩, rfl, hN⟩
  rw [LimitedMap.empty, SortedMap.lookup_empty, SortedMultimap.entries_empty]
  simp

theorem Inv.insert_room {N : ℕ} (h : Inv N m) (hx : m.map.lookup x.1 = none)
    (hroom : m.size + 1 < N) :
    m.insert x = some { m with map := m.map.insert x.1 x.2, rmap := m.rmap.insert x.2 x.1 } := by
  have hlen := SortedMap.length_keys_insert hx x.2
  rw [LimitedMap.insert, hx]
  dsimp only
  rw [if_neg]
  rintro ⟨-, hfull⟩
  rw [hlen, h.max] at hfull
  exact absurd hroom (by rw [LimitedMap.size]; omega)

/-- The insertion that would fill the map takes the first entry out of the others. -/
theorem Inv.insert_full {N : ℕ} (h : Inv N m) (hN : 1 < N) (hx : m.map.lookup x.1 = none)
    (hfull : m.size + 1 = N) : ∃ k v, m.map.lookup k = some v ∧ m.insert x = some { m with
      map := (m.map.erase k).insert x.1 x.2
      rmap := (m.rmap.eraseEntry (v, k)).insert x.2 x.1 } := by
  have hlen := SortedMap.length_keys_insert hx x.2
  have hmax : m.nMaxSize ≠ 0 ∧ (m.map.insert x.1 x.2).keys.length = m.nMaxSize := by
    rw [hlen, h.max]
    exact ⟨by omega, hfull⟩
  obtain ⟨k₁, hk₁⟩ := List.exists_mem_of_length_pos (l := m.map.keys) (by
    have : m.map.keys.length = m.size := rfl
    omega)
  obtain ⟨v₁, hv₁⟩ := SortedMap.mem_keys.mp hk₁
  cases hhead : m.rmap.entries.head? with
  | none =>
    have hmem := (h.agree.pairs k₁ v₁).mp hv₁
    rw [List.head?_eq_none_iff.mp hhead] at hmem
    exact absurd hmem List.not_mem_nil
  | some first =>
    obtain ⟨v, k⟩ := first
    have hk := (h.agree.pairs k v).mpr (List.mem_of_mem_head? hhead)
    have hne : k ≠ x.1 := by
      rintro rfl
      rw [hk] at hx
      cases hx
    have hmap : (m.map.insert x.1 x.2).erase k = (m.map.erase k).insert x.1 x.2 := by
      refine SortedMap.ext_lookup fun k' ↦ ?_
      rw [SortedMap.lookup_erase, SortedMap.lookup_insert, SortedMap.lookup_insert,
        SortedMap.lookup_erase]
      by_cases hk' : k' = k
      · rw [if_pos hk', if_pos hk', if_neg fun hx' ↦ hne (hk'.symm.trans hx')]
      · rw [if_neg hk', if_neg hk']
    refine ⟨k, v, hk, ?_⟩
    rw [LimitedMap.insert, hx]
    dsimp only
    rw [if_pos hmax, hhead]
    dsimp only
    rw [hmap]

/-- What a call does to the invariant, unless it would insert into a map for one element. -/
theorem Inv.call {N : ℕ} (h : Inv N m) (c : LimitedMapCall κ ν)
    (hc : 1 < N ∨ c.isInsert = false) : ∃ m', m.call c = some m' ∧ Inv N m' := by
  cases c with
  | insert x =>
    have hN : 1 < N := hc.resolve_right Bool.noConfusion
    cases hx : m.map.lookup x.1 with
    | some v => exact ⟨m, by rw [LimitedMap.call, LimitedMap.insert, hx], h⟩
    | none =>
      have hlen := SortedMap.length_keys_insert hx x.2
      have hsize := h.size
      by_cases hroom : m.size + 1 < N
      · refine ⟨_, h.insert_room hx hroom, h.agree.push hx x.2, h.max, ?_⟩
        rw [LimitedMap.size, hlen]
        exact hroom
      · obtain ⟨k, v, hk, heq⟩ := h.insert_full hN hx (by omega)
        have hx' : (m.map.erase k).lookup x.1 = none := by
          rw [SortedMap.lookup_erase, hx]
          split <;> rfl
        have herase := SortedMap.length_keys_erase hk
        refine ⟨_, heq, (h.agree.drop hk).push hx' x.2, h.max, ?_⟩
        rw [LimitedMap.size, SortedMap.length_keys_insert hx', herase]
        exact hsize
  | erase k =>
    cases hk : m.map.lookup k with
    | none => exact ⟨m, by rw [LimitedMap.call, LimitedMap.erase, hk], h⟩
    | some v =>
      refine ⟨_, h.agree.erase_eq hk, h.agree.drop hk, h.max, ?_⟩
      exact lt_of_le_of_lt (SortedMap.length_keys_erase_le m.map k) h.size
  | update k v' =>
    cases hk : m.map.lookup k with
    | none => exact ⟨m, by rw [LimitedMap.call, LimitedMap.update, hk], h⟩
    | some v =>
      have hk' : (m.map.erase k).lookup k = none := by rw [SortedMap.lookup_erase, if_pos rfl]
      refine ⟨_, h.agree.update_eq hk v', (h.agree.drop hk).push hk' v', h.max, ?_⟩
      rw [LimitedMap.size, SortedMap.length_keys_insert hk', SortedMap.length_keys_erase hk]
      exact h.size

theorem Inv.run {N : ℕ} (hN : 1 < N) (h : Inv N m) (calls : List (LimitedMapCall κ ν)) :
    ∃ m', m.run calls = some m' ∧ Inv N m' := by
  induction calls generalizing m with
  | nil => exact ⟨m, rfl, h⟩
  | cons c calls ih =>
    obtain ⟨m₁, hm₁, h₁⟩ := h.call c (.inl hN)
    obtain ⟨m₂, hm₂, h₂⟩ := ih h₁
    refine ⟨m₂, ?_, h₂⟩
    rw [LimitedMap.run, List.foldlM_cons, hm₁]
    exact hm₂

/-! ### A map for one element -/

/-- Without an insertion the map stays empty; with one, `rmap.begin()` has no entry. -/
theorem run_one (calls : List (LimitedMapCall κ ν)) :
    (empty κ ν 1).run calls = if calls.any (·.isInsert) then none else some (empty κ ν 1) := by
  induction calls with
  | nil => rfl
  | cons c calls ih =>
    rw [LimitedMap.run] at ih ⊢
    rw [List.foldlM_cons, List.any_cons]
    cases c with
    | insert x => rfl
    | erase k => exact ih
    | update k v => exact ih

/-! ### The pairs inserted -/

/-- Fewer different keys than there is room for are all kept. -/
theorem run_inserts {N : ℕ} {xs : List (κ × ν)} (hkeys : (xs.map Prod.fst).Nodup)
    (hroom : xs.length < N) :
    ∃ m, (empty κ ν N).run (xs.map .insert) = some m ∧ Inv N m ∧ m.size = xs.length ∧
      ∀ k v, m.map.lookup k = some v ↔ (k, v) ∈ xs := by
  induction xs using List.reverseRecOn with
  | nil =>
    refine ⟨_, rfl, .empty hroom, rfl, fun k v ↦ ?_⟩
    rw [LimitedMap.empty, SortedMap.lookup_empty]
    simp
  | append_singleton xs x ih =>
    rw [List.length_append, List.length_singleton] at hroom
    rw [List.map_append, List.nodup_append] at hkeys
    obtain ⟨m, hm, hinv, hsize, hlookup⟩ := ih hkeys.1 (by omega)
    have hx : m.map.lookup x.1 = none := by
      by_contra hx
      obtain ⟨v, hv⟩ := Option.ne_none_iff_exists'.mp hx
      have hmem := List.mem_map_of_mem (f := Prod.fst) ((hlookup x.1 v).mp hv)
      exact hkeys.2.2 x.1 hmem x.1 (by simp) rfl
    have hinsert := hinv.insert_room hx (by omega)
    obtain ⟨m', hm', hinv'⟩ := hinv.call (.insert x) (.inl (by omega))
    obtain rfl := Option.some.inj (hm'.symm.trans hinsert)
    refine ⟨_, ?_, hinv', ?_, fun k v ↦ ?_⟩
    · rw [LimitedMap.run] at hm ⊢
      rw [List.map_append, List.foldlM_append, hm]
      change (m.insert x >>= pure) = _
      rw [bind_pure]
      exact hinsert
    · rw [LimitedMap.size, SortedMap.length_keys_insert hx, List.length_append,
        List.length_singleton, ← hsize]
      rfl
    · rw [SortedMap.lookup_insert, List.mem_append, List.mem_singleton, ← hlookup]
      by_cases hk : k = x.1
      · subst hk
        rw [if_pos rfl, hx]
        simp [Prod.ext_iff, eq_comm]
      · rw [if_neg hk]
        simp [Prod.ext_iff, hk]

end LimitedMap

open LimitedMap

/-- With room for more than one element, or without an insertion, map and multimap agree and the
bound is kept. The elements with the largest values are those in the map as long as fewer are
inserted than there is room for, and never after that. -/
theorem limitedMap_keepsBest_iff {κ ν : Type*} [LinearOrder κ] [LinearOrder ν] {N : ℕ}
    (hN : 0 < N) :
    (∀ calls : List (LimitedMapCall κ ν),
      (∃ m, (empty κ ν N).run calls = some m ∧ m.Agree ∧ m.size ≤ N) ↔
        1 < N ∨ ∀ c ∈ calls, c.isInsert = false) ∧
    ∀ xs : List (κ × ν), (xs.map Prod.fst).Nodup →
      ((∃ m, (empty κ ν N).run (xs.map .insert) = some m ∧ m.Best N xs) ↔ xs.length < N) := by
  have hempty : Inv N (empty κ ν N) := Inv.empty hN
  constructor
  · intro calls
    rcases Nat.lt_or_eq_of_le (Nat.succ_le_of_lt hN) with hN' | rfl
    · obtain ⟨m, hm, hinv⟩ := hempty.run hN' calls
      exact ⟨fun _ ↦ .inl hN', fun _ ↦ ⟨m, hm, hinv.agree, hinv.size.le⟩⟩
    · rw [run_one]
      cases hany : calls.any (·.isInsert) with
      | true =>
        obtain ⟨c, hc, hinsert⟩ := List.any_eq_true.mp hany
        rw [if_pos rfl]
        constructor
        · rintro ⟨m, hm, -⟩
          cases hm
        · rintro (hlt | hnone)
          · exact absurd hlt (lt_irrefl 1)
          · rw [hnone c hc] at hinsert
            cases hinsert
      | false =>
        refine ⟨fun _ ↦ .inr fun c hc ↦ ?_, fun _ ↦ ⟨_, rfl, hempty.agree, hempty.size.le⟩⟩
        exact Bool.eq_false_iff.mpr (List.any_eq_false.mp hany c hc)
  · intro xs hkeys
    constructor
    · rintro ⟨m, hm, hbest⟩
      by_contra hlen
      rcases Nat.lt_or_eq_of_le (Nat.succ_le_of_lt hN) with hN' | rfl
      · obtain ⟨m', hm', hinv⟩ := hempty.run hN' (xs.map .insert)
        obtain rfl := Option.some.inj (hm'.symm.trans hm)
        have hsize := hbest.size
        rw [min_eq_left (not_lt.mp hlen)] at hsize
        exact absurd hinv.size (by omega)
      · cases xs with
        | nil => exact hlen Nat.one_pos
        | cons x xs =>
          rw [run_one] at hm
          cases hm
    · intro hlen
      obtain ⟨m, hm, -, hsize, hlookup⟩ := run_inserts hkeys hlen
      refine ⟨m, hm, ?_, fun k v ↦ (hlookup k v).mp, fun x hx hnone ↦ ?_⟩
      · rw [hsize, min_eq_right hlen.le]
      · rw [(hlookup x.1 x.2).mpr hx] at hnone
        cases hnone

theorem limitedMap_keepsBest_iff_sample :
    ∃ m, (empty ℕ ℕ 3).run ([(7, 20), (8, 10)].map .insert) = some m ∧
      m.Best 3 [(7, 20), (8, 10)] :=
  ((limitedMap_keepsBest_iff (by decide : 0 < 3)).2 [(7, 20), (8, 10)] (by decide)).mpr (by decide)

/-- With room for two, the second pair takes the place of the first, whose value is larger. -/
theorem limitedMap_evicts_largest :
    ∃ m, (empty ℕ ℕ 2).run ([(7, 20), (8, 10)].map .insert) = some m ∧
      m.map.lookup 7 = none ∧ m.map.lookup 8 = some 10 ∧ ¬ m.Best 2 [(7, 20), (8, 10)] := by
  refine ⟨_, rfl, by decide, by decide, fun h ↦ ?_⟩
  exact absurd h.size (by decide)

end Bitmark
