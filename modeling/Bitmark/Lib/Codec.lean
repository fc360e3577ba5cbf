import Mathlib.Data.List.Basic

/-!
# Readers and what they read

A reader takes symbols off the front of a list. It reads a value from a code when it returns the
value and leaves exactly what follows the code, whatever follows; it is canonical for a writer
when everything it accepts is what the writer would have written.
-/

namespace Codec

variable {σ α β : Type}

/-- A reader over the remaining symbols; `none` is a failure. -/
abbrev Reader (σ α : Type) := StateT (List σ) Option α

/-- The reader returns `a` from `code` and consumes nothing else. -/
def Reads (read : Reader σ α) (a : α) (code : List σ) : Prop :=
  ∀ rest, read (code ++ rest) = some (a, rest)

/-- What the reader accepts is what the writer writes, and satisfies `P`. -/
def Canonical (read : Reader σ α) (write : α → List σ) (P : α → Prop) : Prop :=
  ∀ ⦃s r : List σ⦄ ⦃a : α⦄, read s = some (a, r) → s = write a ++ r ∧ P a

/-! ### Reading what was written -/

theorem Reads.pure (a : α) : Reads (Pure.pure a : Reader σ α) a [] := fun _ ↦ rfl

theorem Reads.bind {m : Reader σ α} {f : α → Reader σ β} {a : α} {b : β} {c d : List σ}
    (hm : Reads m a c) (hf : Reads (f a) b d) : Reads (m >>= f) b (c ++ d) := by
  intro rest
  change ((m (c ++ d ++ rest)).bind fun p ↦ f p.1 p.2) = _
  rw [List.append_assoc, hm]
  exact hf rest

/-- The last of a sequence of readers. -/
theorem Reads.bind_pure {m : Reader σ α} {a : α} {b : β} {c : List σ} {f : α → Reader σ β}
    (hm : Reads m a c) (hf : Reads (f a) b []) : Reads (m >>= f) b c := by
  simpa using hm.bind hf

theorem Reads.map {m : Reader σ α} {a : α} {c : List σ} (hm : Reads m a c) (f : α → β) :
    Reads (f <$> m) (f a) c := by
  intro rest
  change ((m (c ++ rest)).bind fun p ↦ some (f p.1, p.2)) = _
  rw [hm]
  rfl

/-- A loop that reads in each of its rounds, with the number of the round. -/
def loop {τ : Type} (body : ℕ → τ → Reader σ τ) : ℕ → ℕ → τ → Reader σ τ
  | _, 0, t => Pure.pure t
  | k, n + 1, t => body k t >>= loop body (k + 1) n

theorem Reads.loop {τ : Type} {body : ℕ → τ → Reader σ τ} {step : ℕ → τ → β → τ}
    {code : β → List σ} {ys : List β}
    (h : ∀ k t, ∀ y ∈ ys, Reads (body k t) (step k t y) (code y)) (k : ℕ) (t : τ) :
    Reads (Codec.loop body k ys.length t) ((ys.zipIdx k).foldl (fun t p ↦ step p.2 t p.1) t)
      (ys.flatMap code) := by
  induction ys generalizing k t with
  | nil => exact Reads.pure t
  | cons y ys ih =>
    rw [List.length_cons, List.flatMap_cons, List.zipIdx_cons, List.foldl_cons]
    exact (h k t y List.mem_cons_self).bind
      (ih (fun k t y' hy' ↦ h k t y' (List.mem_cons_of_mem y hy')) (k + 1) (step k t y))

/-- A loop whose rounds do not look at their numbers. -/
theorem Reads.loop_const {τ : Type} {body : ℕ → τ → Reader σ τ} {step : τ → β → τ}
    {code : β → List σ} {ys : List β}
    (h : ∀ k t, ∀ y ∈ ys, Reads (body k t) (step t y) (code y)) (k : ℕ) (t : τ) :
    Reads (Codec.loop body k ys.length t) (ys.foldl step t) (ys.flatMap code) := by
  have hloop : Reads (Codec.loop body k ys.length t)
      ((ys.zipIdx k).foldl (fun t p ↦ step t p.1) t) (ys.flatMap code) := Reads.loop h k t
  rwa [← List.foldl_map (f := Prod.fst) (g := step), List.zipIdx_map_fst] at hloop

/-! ### Writing what was read -/

theorem bind_eq_some {m : Reader σ α} {f : α → Reader σ β} {s r : List σ} {b : β} :
    (m >>= f) s = some (b, r) ↔ ∃ a t, m s = some (a, t) ∧ f a t = some (b, r) := by
  change ((m s).bind fun p ↦ f p.1 p.2) = _ ↔ _
  simp [Option.bind_eq_some_iff, Prod.exists]

theorem map_eq_some {m : Reader σ α} {f : α → β} {s r : List σ} {b : β} :
    (f <$> m) s = some (b, r) ↔ ∃ a, m s = some (a, r) ∧ f a = b := by
  change ((m s).bind fun p ↦ some (f p.1, p.2)) = _ ↔ _
  simp [Option.bind_eq_some_iff, Prod.exists]

theorem Canonical.map {m : Reader σ α} {write : α → List σ} {P : α → Prop} {f : α → β}
    {write' : β → List σ} {Q : β → Prop} (h : Canonical m write P)
    (hf : ∀ a, P a → write' (f a) = write a ∧ Q (f a)) : Canonical (f <$> m) write' Q := by
  intro s r b hread
  obtain ⟨a, ha, rfl⟩ := map_eq_some.mp hread
  obtain ⟨hs, hP⟩ := h ha
  obtain ⟨hw, hQ⟩ := hf a hP
  rw [hw]
  exact ⟨hs, hQ⟩

/-- Two readers one after the other. -/
theorem Canonical.bind {m : Reader σ α} {f : α → Reader σ β} {write : α → List σ} {P : α → Prop}
    {write' : α → β → List σ} {Q : α → β → Prop} {s r : List σ} {b : β} (h : Canonical m write P)
    (hf : ∀ a, P a → Canonical (f a) (write' a) (Q a)) (hread : (m >>= f) s = some (b, r)) :
    ∃ a, s = write a ++ (write' a b ++ r) ∧ P a ∧ Q a b := by
  obtain ⟨a, t, ha, hb⟩ := bind_eq_some.mp hread
  obtain ⟨rfl, hP⟩ := h ha
  obtain ⟨rfl, hQ⟩ := hf a hP hb
  exact ⟨a, rfl, hP, hQ⟩

end Codec
