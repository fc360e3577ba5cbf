import Mathlib.Data.Finset.Union
import Mathlib.Logic.Relation

/-!
# Connected components of a family of sets

Two elements are connected when a chain of sets of the family leads from one to the other. The
components are found by adding the sets of the family one by one: each is merged with the parts it
meets.
-/

namespace Components

variable {α : Type*}

/-- A set of the family has both. -/
def Shares (family : Set (Finset α)) (a b : α) : Prop := ∃ G ∈ family, a ∈ G ∧ b ∈ G

/-- A chain of sets of the family leads from one to the other. -/
def Connected (family : Set (Finset α)) : α → α → Prop := Relation.TransGen (Shares family)

/-- The parts are the components of the family. -/
structure IsComponents (family : Set (Finset α)) (parts : Finset (Finset α)) : Prop where
  nonempty : ∀ S ∈ parts, S.Nonempty
  eq_of_mem : ∀ S ∈ parts, ∀ S' ∈ parts, ∀ a, a ∈ S → a ∈ S' → S = S'
  connected_iff : ∀ a b, (∃ S ∈ parts, a ∈ S ∧ b ∈ S) ↔ Connected family a b

variable {family family' : Set (Finset α)} {parts parts' : Finset (Finset α)} {G : Finset α} {a b : α}

theorem Shares.mono (h : family ⊆ family') : Shares family a b → Shares family' a b :=
  fun ⟨G, hG, hab⟩ ↦ ⟨G, h hG, hab⟩

theorem Connected.mono (h : family ⊆ family') (hab : Connected family a b) :
    Connected family' a b := by
  induction hab with
  | single hab => exact .single (hab.mono h)
  | tail _ hbc ih => exact ih.tail (hbc.mono h)

theorem Connected.symm (h : Connected family a b) : Connected family b a := by
  induction h with
  | single hab =>
    obtain ⟨G, hG, ha, hb⟩ := hab
    exact .single ⟨G, hG, hb, ha⟩
  | tail _ hbc ih =>
    obtain ⟨G, hG, hb, hc⟩ := hbc
    exact .head ⟨G, hG, hc, hb⟩ ih

theorem isComponents_empty : IsComponents (∅ : Set (Finset α)) ∅ where
  nonempty := nofun
  eq_of_mem := nofun
  connected_iff a b := by
    refine iff_of_false (fun ⟨S, hS, _⟩ ↦ absurd hS (Finset.notMem_empty S)) fun h ↦ ?_
    obtain ⟨c, ⟨G, hG, -⟩, -⟩ := Relation.TransGen.head'_iff.mp h
    exact hG

/-- A part is what any of its elements is connected with. -/
theorem IsComponents.mem_iff (h : IsComponents family parts) {S : Finset α} (hS : S ∈ parts)
    (ha : a ∈ S) : b ∈ S ↔ Connected family a b := by
  rw [← h.connected_iff]
  constructor
  · intro hb
    exact ⟨S, hS, ha, hb⟩
  · rintro ⟨S', hS', ha', hb⟩
    rwa [h.eq_of_mem S hS S' hS' a ha ha']

theorem IsComponents.subset (h : IsComponents family parts) (h' : IsComponents family parts') :
    parts ⊆ parts' := by
  intro S hS
  obtain ⟨a, ha⟩ := h.nonempty S hS
  obtain ⟨S', hS', ha', -⟩ := (h'.connected_iff a a).mpr ((h.mem_iff hS ha).mp ha)
  have heq : S = S' := by
    ext b
    rw [h.mem_iff hS ha, h'.mem_iff hS' ha']
  rwa [heq]

/-- A family has one set of components. -/
theorem IsComponents.unique (h : IsComponents family parts) (h' : IsComponents family parts') :
    parts = parts' :=
  Finset.Subset.antisymm (h.subset h') (h'.subset h)

/-! ### Adding a set -/

variable [DecidableEq α]

/-- The parts a set meets. -/
def hits (parts : Finset (Finset α)) (G : Finset α) : Finset (Finset α) :=
  parts.filter fun S ↦ ∃ a ∈ G, a ∈ S

/-- A set with the parts it meets. -/
def merged (parts : Finset (Finset α)) (G : Finset α) : Finset α := G ∪ (hits parts G).biUnion id

/-- The parts after a set is added. -/
def addSet (parts : Finset (Finset α)) (G : Finset α) : Finset (Finset α) :=
  insert (merged parts G) (parts \ hits parts G)

theorem mem_hits {S : Finset α} : S ∈ hits parts G ↔ S ∈ parts ∧ ∃ a ∈ G, a ∈ S :=
  Finset.mem_filter

theorem mem_merged : a ∈ merged parts G ↔ a ∈ G ∨ ∃ S ∈ hits parts G, a ∈ S := by
  rw [merged, Finset.mem_union, Finset.mem_biUnion]
  rfl

theorem mem_addSet {S : Finset α} :
    S ∈ addSet parts G ↔ S = merged parts G ∨ S ∈ parts ∧ S ∉ hits parts G := by
  rw [addSet, Finset.mem_insert, Finset.mem_sdiff]

/-- No part that stays meets the new one. -/
theorem IsComponents.not_mem_merged (h : IsComponents family parts) {S : Finset α}
    (hS : S ∈ parts) (hhit : S ∉ hits parts G) (ha : a ∈ S) : a ∉ merged parts G := by
  rw [mem_merged]
  rintro (hG | ⟨S', hS', ha'⟩)
  · exact hhit (mem_hits.mpr ⟨hS, a, hG, ha⟩)
  · rw [h.eq_of_mem S hS S' (mem_hits.mp hS').1 a ha ha'] at hhit
    exact hhit hS'

/-- Every element of the new part is connected with one of the set that was added. -/
theorem IsComponents.connected_merged (h : IsComponents family parts) (ha : a ∈ merged parts G) :
    ∃ g ∈ G, Connected (insert G family) a g := by
  rcases mem_merged.mp ha with hG | ⟨S, hS, ha⟩
  · exact ⟨a, hG, .single ⟨G, Set.mem_insert _ _, hG, hG⟩⟩
  · obtain ⟨hpart, g, hg, hgS⟩ := mem_hits.mp hS
    exact ⟨g, hg, ((h.mem_iff hpart ha).mp hgS).mono (Set.subset_insert _ _)⟩

/-- Adding a set to the family and to the parts. -/
theorem IsComponents.addSet (h : IsComponents family parts) (hG : G.Nonempty) :
    IsComponents (insert G family) (addSet parts G) := by
  have hdisjoint : ∀ S ∈ Components.addSet parts G, ∀ S' ∈ Components.addSet parts G,
      ∀ a, a ∈ S → a ∈ S' → S = S' := by
    intro S hS S' hS' a ha ha'
    rcases mem_addSet.mp hS with rfl | ⟨hpart, hhit⟩
    · rcases mem_addSet.mp hS' with rfl | ⟨hpart', hhit'⟩
      · rfl
      · exact absurd ha (h.not_mem_merged hpart' hhit' ha')
    · rcases mem_addSet.mp hS' with rfl | ⟨hpart', hhit'⟩
      · exact absurd ha' (h.not_mem_merged hpart hhit ha)
      · exact h.eq_of_mem S hpart S' hpart' a ha ha'
  refine ⟨fun S hS ↦ ?_, hdisjoint, fun a b ↦ ⟨?_, fun hab ↦ ?_⟩⟩
  · rcases mem_addSet.mp hS with rfl | ⟨hpart, -⟩
    · obtain ⟨g, hg⟩ := hG
      exact ⟨g, mem_merged.mpr (.inl hg)⟩
    · exact h.nonempty S hpart
  · rintro ⟨S, hS, ha, hb⟩
    rcases mem_addSet.mp hS with rfl | ⟨hpart, -⟩
    · obtain ⟨g, hg, hag⟩ := h.connected_merged ha
      obtain ⟨g', hg', hbg⟩ := h.connected_merged hb
      exact (hag.tail ⟨G, Set.mem_insert _ _, hg, hg'⟩).trans hbg.symm
    · exact ((h.connected_iff a b).mp ⟨S, hpart, ha, hb⟩).mono (Set.subset_insert _ _)
  · -- sharing a part is transitive, and a set of the family is within one
    have hshares : ∀ a b, Shares (insert G family) a b →
        ∃ S ∈ Components.addSet parts G, a ∈ S ∧ b ∈ S := by
      rintro a b ⟨G', hG' | hG', ha, hb⟩
      · subst hG'
        exact ⟨_, mem_addSet.mpr (.inl rfl), mem_merged.mpr (.inl ha), mem_merged.mpr (.inl hb)⟩
      · obtain ⟨S, hS, ha, hb⟩ := (h.connected_iff a b).mpr (.single ⟨G', hG', ha, hb⟩)
        by_cases hhit : S ∈ hits parts G
        · exact ⟨_, mem_addSet.mpr (.inl rfl), mem_merged.mpr (.inr ⟨S, hhit, ha⟩),
            mem_merged.mpr (.inr ⟨S, hhit, hb⟩)⟩
        · exact ⟨S, mem_addSet.mpr (.inr ⟨hS, hhit⟩), ha, hb⟩
    induction hab with
    | single hab => exact hshares _ _ hab
    | tail _ hbc ih =>
      obtain ⟨S, hS, ha, hb⟩ := ih
      obtain ⟨S', hS', hb', hc⟩ := hshares _ _ hbc
      obtain rfl := hdisjoint S hS S' hS' _ hb hb'
      exact ⟨S, hS, ha, hc⟩

end Components
