import Mathlib.Data.List.Nodup

/-!
# Ledgers of entries that spend each other's outputs

A ledger is a list of entries, newest first. Each entry has an id, outputs by position and
references to the outputs of earlier entries it spends. What is unspent is a function of the
whole list.
-/

/-- How the entries of a ledger are read. -/
structure LedgerFormat (T I O : Type) where
  id : T → I
  spends : T → List (I × Nat)
  outputs : T → Nat → Option O

namespace LedgerFormat

variable {T I O : Type} (F : LedgerFormat T I O)

/-- An entry of the ledger has this output. -/
def Created (txs : List T) (i : I) (n : Nat) (o : O) : Prop :=
  ∃ t ∈ txs, F.id t = i ∧ F.outputs t n = some o

/-- An entry of the ledger spends this position. -/
def Spent (txs : List T) (i : I) (n : Nat) : Prop := ∃ t ∈ txs, (i, n) ∈ F.spends t

/-- An output of the ledger that is there to be spent. -/
def Unspent (txs : List T) (i : I) (n : Nat) (o : O) : Prop :=
  F.Created txs i n o ∧ ¬ F.Spent txs i n

/-- What every entry spends is unspent before it, and ids are not used again. -/
inductive Valid : List T → Prop
  | nil : Valid []
  | cons {t : T} {txs : List T} : Valid txs →
    (∀ p ∈ F.spends t, ∃ o, F.Unspent txs p.1 p.2 o) → F.id t ∉ txs.map F.id → Valid (t :: txs)

variable {F} {t : T} {txs : List T} {i : I} {n : Nat} {o o' : O}

theorem not_created_nil : ¬ F.Created [] i n o := by
  rintro ⟨t, ht, -⟩
  cases ht

theorem not_unspent_nil : ¬ F.Unspent [] i n o := fun h ↦ not_created_nil h.1

theorem Created.mem_ids (h : F.Created txs i n o) : i ∈ txs.map F.id := by
  obtain ⟨t, ht, rfl, -⟩ := h
  exact List.mem_map_of_mem ht

theorem Created.of_cons (h : F.Created txs i n o) (t : T) : F.Created (t :: txs) i n o := by
  obtain ⟨t', ht', hid, hout⟩ := h
  exact ⟨t', List.mem_cons_of_mem t ht', hid, hout⟩

theorem created_cons : F.Created (t :: txs) i n o ↔
    (F.id t = i ∧ F.outputs t n = some o) ∨ F.Created txs i n o := by
  simp [Created]

theorem spent_cons : F.Spent (t :: txs) i n ↔ (i, n) ∈ F.spends t ∨ F.Spent txs i n := by
  simp [Spent]

/-- Only what an earlier entry created is spent. -/
theorem Valid.created_of_spent (h : F.Valid txs) (hspent : F.Spent txs i n) :
    ∃ o, F.Created txs i n o := by
  induction h with
  | nil =>
    obtain ⟨t, ht, -⟩ := hspent
    cases ht
  | @cons t txs hvalid hunspent hfresh ih =>
    rcases spent_cons.mp hspent with hmem | hspent
    · obtain ⟨o, ho⟩ := hunspent (i, n) hmem
      exact ⟨o, ho.1.of_cons t⟩
    · obtain ⟨o, ho⟩ := ih hspent
      exact ⟨o, ho.of_cons t⟩

theorem Valid.mem_ids_of_spent (h : F.Valid txs) (hspent : F.Spent txs i n) :
    i ∈ txs.map F.id := by
  obtain ⟨o, ho⟩ := h.created_of_spent hspent
  exact ho.mem_ids

/-- Entries with one id are one entry. -/
theorem Valid.eq_of_id (h : F.Valid txs) {t t' : T} (ht : t ∈ txs) (ht' : t' ∈ txs)
    (hid : F.id t = F.id t') : t = t' := by
  induction h with
  | nil => cases ht
  | @cons t₀ txs hvalid hunspent hfresh ih =>
    rcases List.mem_cons.mp ht with rfl | hold
    · rcases List.mem_cons.mp ht' with rfl | hold'
      · rfl
      · refine absurd ?_ hfresh
        rw [hid]
        exact List.mem_map_of_mem (f := F.id) hold'
    · rcases List.mem_cons.mp ht' with rfl | hold'
      · refine absurd ?_ hfresh
        rw [← hid]
        exact List.mem_map_of_mem (f := F.id) hold
      · exact ih hold hold'

theorem Valid.tail (h : F.Valid (t :: txs)) : F.Valid txs := by
  cases h with
  | cons hvalid _ _ => exact hvalid

theorem Valid.of_append {pre : List T} (h : F.Valid (pre ++ txs)) : F.Valid txs := by
  induction pre with
  | nil => exact h
  | cons t pre ih => exact ih h.tail

theorem Valid.fresh (h : F.Valid (t :: txs)) : F.id t ∉ txs.map F.id := by
  cases h with
  | cons _ _ hfresh => exact hfresh

theorem Valid.unspent_of_mem (h : F.Valid (t :: txs)) (hmem : (i, n) ∈ F.spends t) :
    ∃ o, F.Unspent txs i n o := by
  cases h with
  | cons _ hunspent _ => exact hunspent (i, n) hmem

/-- What the newest entry leaves unspent: its own outputs, and those of the others it does not
spend. -/
theorem Valid.unspent_cons (h : F.Valid (t :: txs)) : F.Unspent (t :: txs) i n o ↔
    (i = F.id t ∧ F.outputs t n = some o) ∨
      (i ≠ F.id t ∧ F.Unspent txs i n o ∧ (i, n) ∉ F.spends t) := by
  unfold Unspent
  rw [created_cons, spent_cons]
  by_cases hid : i = F.id t
  · have hnot : ¬ F.Created txs i n o := fun hc ↦ h.fresh (hid ▸ hc.mem_ids)
    have hunspent : (i, n) ∉ F.spends t := by
      intro hmem
      obtain ⟨o', ho'⟩ := h.unspent_of_mem hmem
      exact h.fresh (hid ▸ ho'.1.mem_ids)
    have hspent : ¬ F.Spent txs i n := fun hs ↦ h.fresh (hid ▸ h.tail.mem_ids_of_spent hs)
    simp [hid.symm, hnot, hunspent, hspent]
  · have hne : F.id t ≠ i := fun heq ↦ hid heq.symm
    simp only [hne, false_and, false_or, hid, ne_eq, not_false_eq_true, true_and, not_or]
    tauto

/-- A position was created with one output only. -/
theorem Valid.created_unique (h : F.Valid txs) (ho : F.Created txs i n o)
    (ho' : F.Created txs i n o') : o = o' := by
  induction h with
  | nil => exact absurd ho not_created_nil
  | @cons t txs hvalid hunspent hfresh ih =>
    rcases created_cons.mp ho with ⟨hid, hout⟩ | hc
    · rcases created_cons.mp ho' with ⟨-, hout'⟩ | hc'
      · exact Option.some.inj (hout.symm.trans hout')
      · exact absurd (hid ▸ hc'.mem_ids) hfresh
    · rcases created_cons.mp ho' with ⟨hid', -⟩ | hc'
      · exact absurd (hid' ▸ hc.mem_ids) hfresh
      · exact ih hc hc'

/-- An entry that spends something unspent is not in the ledger yet, if ids tell what entries
spend. -/
theorem id_not_mem (hsame : ∀ t' ∈ txs, F.id t' = F.id t → F.spends t' = F.spends t)
    (hmem : (i, n) ∈ F.spends t) (ho : F.Unspent txs i n o) : F.id t ∉ txs.map F.id := by
  intro hid
  obtain ⟨t', ht', heq⟩ := List.mem_map.mp hid
  refine ho.2 ⟨t', ht', ?_⟩
  rw [hsame t' ht' heq]
  exact hmem

end LedgerFormat
