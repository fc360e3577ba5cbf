import Mathlib.Data.Set.Function
import Bitmark.Primitives.AuxPow

/-!
# The block id

`CBlockHeader::GetHash` is the id under which a block is indexed and relayed. The bytes it
hashes come in three layouts of different lengths (`src/pureheader.cpp:6–39`): 80 bytes for
ordinary headers, and for Equihash headers 1487 bytes when the solution has 1344 bytes and 141
bytes otherwise. The last layout leaves the solution out.
-/

namespace Bitmark

namespace CPureBlockHeader

/-- What `Unserialize` leaves in the header part of a block header: the flags of a
non-parent, and default values in the fields that the format does not carry. -/
structure Parsed (h : CPureBlockHeader) : Prop where
  isParent : h.isParent = false
  algoParent : h.algoParent = none
  vectorFormat : h.vectorFormat = false
  vectorRep : h.vectorRep = []
  nNonce : h.getAlgo = .equihash → h.nNonce = 0
  solution : h.getAlgo ≠ .equihash → h.nNonce256 = 0 ∧ h.nSolution = [] ∧ h.hashReserved = 0

/-- Every header part the parser returns is in that shape. -/
theorem parsed_of_unserialize {s r : Bytes} {h : CPureBlockHeader}
    (hread : CPureBlockHeader.unserialize {} s = some (h, r)) : h.Parsed := by
  rw [unserialize, if_neg (by simp)] at hread
  obtain ⟨nVersion, t₁, -, hread⟩ := bind_eq_some.mp hread
  obtain ⟨hashPrevBlock, t₂, -, hread⟩ := bind_eq_some.mp hread
  obtain ⟨hashMerkleRoot, t₃, -, hread⟩ := bind_eq_some.mp hread
  obtain ⟨hashReserved, t₄, hres, hread⟩ := bind_eq_some.mp hread
  obtain ⟨nTime, t₅, -, hread⟩ := bind_eq_some.mp hread
  obtain ⟨nBits, t₆, -, hread⟩ := bind_eq_some.mp hread
  by_cases halgo : Bitmark.getAlgo nVersion = .equihash
  · have hyes : (Bitmark.getAlgo nVersion == Algo.equihash) = true := by simpa using halgo
    simp only [readNonce, hasSolution, getAlgo, hyes, Bool.not_false, Bool.true_and, Bool.true_or,
      if_true] at hread
    obtain ⟨nNonce256, t₇, -, hread⟩ := bind_eq_some.mp hread
    obtain ⟨nSolution, t₈, -, hread⟩ := bind_eq_some.mp hread
    obtain ⟨rfl, -⟩ := pure_eq_some.mp hread
    exact ⟨rfl, rfl, rfl, rfl, fun _ ↦ rfl, fun hne ↦ absurd halgo hne⟩
  · have hno : (Bitmark.getAlgo nVersion == Algo.equihash) = false := by simpa using halgo
    simp only [readNonce, readReserved, hasSolution, getAlgo, hno, Bool.not_false, Bool.true_and,
      Bool.false_and, Bool.or_self, Bool.false_eq_true, if_false] at hread hres
    obtain ⟨rfl, -⟩ := pure_eq_some.mp hres
    obtain ⟨nNonce, t₇, -, hread⟩ := bind_eq_some.mp hread
    obtain ⟨rfl, -⟩ := pure_eq_some.mp hread
    exact ⟨rfl, rfl, rfl, rfl, fun heq ↦ absurd heq halgo, fun _ ↦ ⟨rfl, rfl, rfl⟩⟩

/-- Reading a header leaves its format flag alone. -/
theorem vectorFormat_of_unserialize {h₀ h : CPureBlockHeader} {s r : Bytes}
    (hread : h₀.unserialize s = some (h, r)) : h.vectorFormat = h₀.vectorFormat := by
  rw [unserialize] at hread
  split at hread
  · obtain ⟨vectorRep, t₁, -, hread⟩ := bind_eq_some.mp hread
    obtain ⟨rfl, -⟩ := pure_eq_some.mp hread
    rfl
  · obtain ⟨nVersion, t₁, -, hread⟩ := bind_eq_some.mp hread
    obtain ⟨hashPrevBlock, t₂, -, hread⟩ := bind_eq_some.mp hread
    obtain ⟨hashMerkleRoot, t₃, -, hread⟩ := bind_eq_some.mp hread
    obtain ⟨hashReserved, t₄, -, hread⟩ := bind_eq_some.mp hread
    obtain ⟨nTime, t₅, -, hread⟩ := bind_eq_some.mp hread
    obtain ⟨nBits, t₆, -, hread⟩ := bind_eq_some.mp hread
    rw [readNonce] at hread
    split at hread
    · obtain ⟨nNonce256, t₇, -, hread⟩ := bind_eq_some.mp hread
      obtain ⟨nSolution, t₈, -, hread⟩ := bind_eq_some.mp hread
      obtain ⟨rfl, -⟩ := pure_eq_some.mp hread
      rfl
    · obtain ⟨nNonce, t₇, -, hread⟩ := bind_eq_some.mp hread
      obtain ⟨rfl, -⟩ := pure_eq_some.mp hread
      rfl

theorem Parsed.hashBytes_eq {h : CPureBlockHeader} (hp : h.Parsed) :
    h.hashBytes = if h.getAlgo = .equihash then h.hashEBytes else h.headerBytes := by
  simp [hashBytes, hp.vectorFormat]

@[simp] theorem length_headerBytes (h : CPureBlockHeader) : h.headerBytes.length = 80 := by
  simp [headerBytes]

theorem length_hashEBytes (h : CPureBlockHeader) :
    h.hashEBytes.length = if h.nSolution.length = 1344 then 1487 else 141 := by
  unfold hashEBytes
  split
  · next hs => simp [hs]
  · simp

/-- The 80-byte layout determines the six fields it holds. -/
theorem headerBytes_inj {a b : CPureBlockHeader} (h : a.headerBytes = b.headerBytes) :
    a.nVersion = b.nVersion ∧ a.hashPrevBlock = b.hashPrevBlock ∧
      a.hashMerkleRoot = b.hashMerkleRoot ∧ a.nTime = b.nTime ∧ a.nBits = b.nBits ∧
      a.nNonce = b.nNonce := by
  simp only [headerBytes, List.append_assoc] at h
  obtain ⟨hversion, h⟩ := List.append_inj h (by simp)
  obtain ⟨hprev, h⟩ := List.append_inj h (by simp)
  obtain ⟨hroot, h⟩ := List.append_inj h (by simp)
  obtain ⟨htime, h⟩ := List.append_inj h (by simp)
  obtain ⟨hbits, hnonce⟩ := List.append_inj h (by simp)
  exact ⟨bytes32_inj hversion, bytes256_inj hprev, bytes256_inj hroot, bytes32_inj htime,
    bytes32_inj hbits, bytes32_inj hnonce⟩

/-- The Equihash layouts determine every field but the solution. -/
theorem hashEBytes_inj {a b : CPureBlockHeader} (h : a.hashEBytes = b.hashEBytes) :
    a.nVersion = b.nVersion ∧ a.hashPrevBlock = b.hashPrevBlock ∧
      a.hashMerkleRoot = b.hashMerkleRoot ∧ a.hashReserved = b.hashReserved ∧
      a.nTime = b.nTime ∧ a.nBits = b.nBits ∧ a.nNonce256 = b.nNonce256 := by
  simp only [hashEBytes, List.append_assoc] at h
  obtain ⟨hversion, h⟩ := List.append_inj h (by simp)
  obtain ⟨hprev, h⟩ := List.append_inj h (by simp)
  obtain ⟨hroot, h⟩ := List.append_inj h (by simp)
  obtain ⟨hres, h⟩ := List.append_inj h (by simp)
  obtain ⟨htime, h⟩ := List.append_inj h (by simp)
  obtain ⟨hbits, h⟩ := List.append_inj h (by simp)
  obtain ⟨hnonce, -⟩ := List.append_inj h (by simp)
  exact ⟨bytes32_inj hversion, bytes256_inj hprev, bytes256_inj hroot, bytes256_inj hres,
    bytes32_inj htime, bytes32_inj hbits, bytes256_inj hnonce⟩

/-- The long Equihash layout also determines the solution. -/
theorem hashEBytes_solution {a b : CPureBlockHeader} (h : a.hashEBytes = b.hashEBytes)
    (ha : a.nSolution.length = 1344) : a.nSolution = b.nSolution := by
  have hb : b.nSolution.length = 1344 := by
    by_contra hb
    have hlen := congrArg List.length h
    simp [length_hashEBytes, ha, hb] at hlen
  simp only [hashEBytes, if_pos ha, if_pos hb] at h
  have htail := (List.append_inj' h (by simp [ha, hb])).2
  simpa using htail

/-- The pairs of headers that `GetHash` cannot tell apart: Equihash headers that differ only
in solutions neither of which has the length of a valid one. -/
def SolutionsUnbound (a b : CPureBlockHeader) : Prop :=
  a.getAlgo = .equihash ∧ a = { b with nSolution := a.nSolution } ∧
    a.nSolution.length ≠ 1344 ∧ b.nSolution.length ≠ 1344 ∧ a.nSolution ≠ b.nSolution

instance (a b : CPureBlockHeader) : Decidable (SolutionsUnbound a b) := by
  unfold SolutionsUnbound
  infer_instance

/-- Such pairs are hashed from the same bytes. -/
theorem SolutionsUnbound.hashBytes_eq {a b : CPureBlockHeader} (h : SolutionsUnbound a b) :
    a.hashBytes = b.hashBytes := by
  obtain ⟨halgo, heq, ha, hb, -⟩ := h
  have halgo' : b.getAlgo = .equihash := by
    rw [heq] at halgo
    exact halgo
  rw [hashBytes, hashBytes, if_pos halgo, if_pos halgo', hashEBytes, hashEBytes, if_neg ha,
    if_neg hb, heq]

/-- Parsed headers hashed from the same bytes are equal, unless their solutions are unbound. -/
theorem eq_of_hashBytes_eq {a b : CPureBlockHeader} (hpa : a.Parsed) (hpb : b.Parsed)
    (h : a.hashBytes = b.hashBytes) (hbound : ¬ SolutionsUnbound a b) : a = b := by
  have hflags : a.isParent = b.isParent ∧ a.algoParent = b.algoParent ∧
      a.vectorFormat = b.vectorFormat ∧ a.vectorRep = b.vectorRep :=
    ⟨hpa.isParent.trans hpb.isParent.symm, hpa.algoParent.trans hpb.algoParent.symm,
      hpa.vectorFormat.trans hpb.vectorFormat.symm, hpa.vectorRep.trans hpb.vectorRep.symm⟩
  rw [hpa.hashBytes_eq, hpb.hashBytes_eq] at h
  by_cases ha : a.getAlgo = .equihash <;> by_cases hb : b.getAlgo = .equihash
  · rw [if_pos ha, if_pos hb] at h
    obtain ⟨hversion, hprev, hroot, hres, htime, hbits, hnonce⟩ := hashEBytes_inj h
    have hnonce32 : a.nNonce = b.nNonce := (hpa.nNonce ha).trans (hpb.nNonce hb).symm
    have hrest : a = { b with nSolution := a.nSolution } := by
      cases a
      cases b
      simp_all
    by_cases hsol : a.nSolution = b.nSolution
    · rw [hrest, hsol]
    · refine absurd ⟨ha, hrest, fun hlen ↦ hsol (hashEBytes_solution h hlen), fun hlen ↦ ?_, hsol⟩
        hbound
      exact hsol (hashEBytes_solution h.symm hlen).symm
  · rw [if_pos ha, if_neg hb] at h
    have hlen := congrArg List.length h
    rw [length_hashEBytes, length_headerBytes] at hlen
    split at hlen <;> omega
  · rw [if_neg ha, if_pos hb] at h
    have hlen := congrArg List.length h
    rw [length_hashEBytes, length_headerBytes] at hlen
    split at hlen <;> omega
  · rw [if_neg ha, if_neg hb] at h
    obtain ⟨hversion, hprev, hroot, htime, hbits, hnonce⟩ := headerBytes_inj h
    obtain ⟨hnonce256, hsol, hres⟩ := hpa.solution ha
    obtain ⟨hnonce256', hsol', hres'⟩ := hpb.solution hb
    cases a
    cases b
    simp_all

end CPureBlockHeader

/-- Reading a transaction leaves its format flag alone. -/
theorem CTransaction.vectorFormat_of_unserialize (H : Hashes) {tx₀ tx : CTransaction}
    {s r : Bytes} (hread : CTransaction.unserialize H tx₀ s = some (tx, r)) :
    tx.vectorFormat = tx₀.vectorFormat := by
  rw [CTransaction.unserialize] at hread
  split at hread
  · obtain ⟨vectorRep, t₁, -, hread⟩ := bind_eq_some.mp hread
    obtain ⟨rfl, -⟩ := pure_eq_some.mp hread
    rfl
  · obtain ⟨nVersion, t₁, -, hread⟩ := bind_eq_some.mp hread
    obtain ⟨vin, t₂, -, hread⟩ := bind_eq_some.mp hread
    obtain ⟨vout, t₃, -, hread⟩ := bind_eq_some.mp hread
    obtain ⟨nLockTime, t₄, -, hread⟩ := bind_eq_some.mp hread
    obtain ⟨rfl, -⟩ := pure_eq_some.mp hread
    rfl

/-- The header part of a parsed block header is in parsed shape. -/
theorem CBlockHeader.parsed_of_unserialize {H : Hashes} {s r : Bytes} {h : CBlockHeader}
    (hread : CBlockHeader.unserialize H s = some (h, r)) : h.toCPureBlockHeader.Parsed := by
  rw [CBlockHeader.unserialize] at hread
  obtain ⟨pure', t, hpure, hread⟩ := bind_eq_some.mp hread
  have hp := CPureBlockHeader.parsed_of_unserialize hpure
  split at hread
  · obtain ⟨aux, u, -, hread⟩ := bind_eq_some.mp hread
    obtain ⟨rfl, -⟩ := pure_eq_some.mp hread
    exact hp
  · obtain ⟨rfl, -⟩ := pure_eq_some.mp hread
    exact hp

/-- For every two parsed headers, the id determines every serialized field exactly when their
solutions are not unbound. The hash function is assumed not to collide on the two strings. -/
theorem getHash_binds_iff (H : Hashes) {s₁ s₂ r₁ r₂ : Bytes} {h₁ h₂ : CBlockHeader}
    (hread₁ : CBlockHeader.unserialize H s₁ = some (h₁, r₁))
    (hread₂ : CBlockHeader.unserialize H s₂ = some (h₂, r₂))
    (hinj : Set.InjOn H.hash {h₁.hashBytes, h₂.hashBytes}) :
    (h₁.getHash H = h₂.getHash H → h₁.toCPureBlockHeader = h₂.toCPureBlockHeader) ↔
      ¬ CPureBlockHeader.SolutionsUnbound h₁.toCPureBlockHeader h₂.toCPureBlockHeader := by
  constructor
  · intro hbinds hunbound
    have heq := hbinds (congrArg H.hash hunbound.hashBytes_eq)
    exact hunbound.2.2.2.2 (congrArg CPureBlockHeader.nSolution heq)
  · intro hbound heq
    have hbytes : h₁.hashBytes = h₂.hashBytes := hinj (by simp) (by simp) heq
    exact CPureBlockHeader.eq_of_hashBytes_eq (CBlockHeader.parsed_of_unserialize hread₁)
      (CBlockHeader.parsed_of_unserialize hread₂) hbytes hbound

/-- A scrypt header with the given nonce. -/
def nonceHeader (nNonce : BitVec 32) : CBlockHeader := { nNonce }

/-- `getHash_binds_iff` at two ordinary headers. -/
theorem getHash_binds_iff_nonces :
    ((nonceHeader 1).getHash toyHashes = (nonceHeader 2).getHash toyHashes →
        (nonceHeader 1).toCPureBlockHeader = (nonceHeader 2).toCPureBlockHeader) ↔
      ¬ CPureBlockHeader.SolutionsUnbound (nonceHeader 1).toCPureBlockHeader
        (nonceHeader 2).toCPureBlockHeader := by
  have hread₁ : CBlockHeader.unserialize toyHashes (nonceHeader 1).toCPureBlockHeader.serialize =
      some (nonceHeader 1, []) := by decide
  have hread₂ : CBlockHeader.unserialize toyHashes (nonceHeader 2).toCPureBlockHeader.serialize =
      some (nonceHeader 2, []) := by decide
  apply getHash_binds_iff toyHashes hread₁ hread₂
  · rintro x (rfl | rfl) y (rfl | rfl) h
    · rfl
    · exact absurd h (by decide)
    · exact absurd h (by decide)
    · rfl

/-- An Equihash header whose solution is one byte long. -/
def unboundHeader (b : UInt8) : CBlockHeader :=
  { nVersion := blockVersionEquihash ||| 4, nSolution := [b] }

/-- The ids of Equihash headers do not bind solutions of the wrong length: two byte strings
that parse to different headers with one id, hashed from one string. -/
theorem getHash_collides :
    CBlockHeader.unserialize toyHashes (unboundHeader 0).toCPureBlockHeader.serialize =
        some (unboundHeader 0, []) ∧
      CBlockHeader.unserialize toyHashes (unboundHeader 1).toCPureBlockHeader.serialize =
        some (unboundHeader 1, []) ∧
      Set.InjOn toyHashes.hash {(unboundHeader 0).hashBytes, (unboundHeader 1).hashBytes} ∧
      (unboundHeader 0).getHash toyHashes = (unboundHeader 1).getHash toyHashes ∧
      (unboundHeader 0).nSolution ≠ (unboundHeader 1).nSolution := by
  have hbytes : (unboundHeader 0).hashBytes = (unboundHeader 1).hashBytes := rfl
  refine ⟨by decide +kernel, by decide +kernel, ?_, congrArg toyHash hbytes, by decide⟩
  rw [hbytes, Set.pair_eq_singleton]
  exact Set.injOn_singleton _ _

end Bitmark
