import Bitmark.Wallet.Signing

/-!
# The signature cache

`CSignatureCache` and `CheckSig` (`src/script.cpp:1284–1381`). The cache is an ordered set of the
signature hashes, signatures and keys that have verified, from which random entries are evicted.
-/

namespace Bitmark

/-! ### The order of the entries -/

/-- `std::vector<unsigned char>::operator<`, and `memcmp` below zero. -/
def bytesLess : Bytes → Bytes → Bool
  | [], [] => false
  | [], _ :: _ => true
  | _ :: _, [] => false
  | x :: xs, y :: ys => x < y || (x = y && bytesLess xs ys)

/-- `CPubKey::operator<`; the first byte of an invalid key is `0xFF`. -/
def CPubKey.less (a b : CPubKey) : Bool :=
  a.headD 0xFF < b.headD 0xFF || (a.headD 0xFF = b.headD 0xFF && bytesLess a b)

/-- `sigdata_type`. -/
structure SigData where
  hash : Uint256
  vchSig : Bytes
  pubKey : CPubKey
deriving DecidableEq

/-- The order of the tuples. -/
def SigData.less (a b : SigData) : Bool :=
  a.hash < b.hash || (a.hash = b.hash &&
    (bytesLess a.vchSig b.vchSig || (a.vchSig = b.vchSig && CPubKey.less a.pubKey b.pubKey)))

theorem eq_of_not_bytesLess {a b : Bytes} (hab : bytesLess a b = false)
    (hba : bytesLess b a = false) : a = b := by
  induction a generalizing b with
  | nil =>
    cases b with
    | nil => rfl
    | cons y ys => cases hab
  | cons x xs ih =>
    cases b with
    | nil => cases hba
    | cons y ys =>
      simp only [bytesLess, Bool.or_eq_false_iff, Bool.and_eq_false_imp, decide_eq_false_iff_not,
        decide_eq_true_eq] at hab hba
      have hxy : x = y := UInt8.le_antisymm (UInt8.not_lt.mp hba.1) (UInt8.not_lt.mp hab.1)
      rw [hxy, ih (hab.2 hxy) (hba.2 hxy.symm)]

theorem CPubKey.eq_of_not_less {a b : CPubKey} (hab : CPubKey.less a b = false)
    (hba : CPubKey.less b a = false) : a = b := by
  simp only [CPubKey.less, Bool.or_eq_false_iff, Bool.and_eq_false_imp, decide_eq_false_iff_not,
    decide_eq_true_eq] at hab hba
  have hhead : a.headD 0xFF = b.headD 0xFF :=
    UInt8.le_antisymm (UInt8.not_lt.mp hba.1) (UInt8.not_lt.mp hab.1)
  exact eq_of_not_bytesLess (hab.2 hhead) (hba.2 hhead.symm)

/-- Entries that the set does not tell apart are one entry. -/
theorem SigData.eq_of_not_less {a b : SigData} (hab : a.less b = false) (hba : b.less a = false) :
    a = b := by
  simp only [SigData.less, Bool.or_eq_false_iff, Bool.and_eq_false_imp, decide_eq_false_iff_not,
    decide_eq_true_eq] at hab hba
  have hhash : a.hash = b.hash := BitVec.le_antisymm (BitVec.not_lt.mp hba.1) (BitVec.not_lt.mp hab.1)
  obtain ⟨hsig, hkey⟩ := hab.2 hhash
  obtain ⟨hsig', hkey'⟩ := hba.2 hhash.symm
  have hvch := eq_of_not_bytesLess hsig hsig'
  have hpub := CPubKey.eq_of_not_less (hkey hvch) (hkey' hvch.symm)
  cases a
  cases b
  simp_all

/-! ### The cache -/

/-- `CSignatureCache`: the entries of `setValid` in their order. -/
structure CSignatureCache where
  setValid : List SigData := []
deriving DecidableEq

namespace CSignatureCache

/-- `Get`. -/
def get (c : CSignatureCache) (k : SigData) : Bool :=
  c.setValid.any fun e ↦ !e.less k && !k.less e

/-- `setValid.insert(k)`. -/
def insertEntry (k : SigData) : List SigData → List SigData
  | [] => [k]
  | e :: l => if k.less e then k :: e :: l else if e.less k then e :: insertEntry k l else e :: l

/-- The entry from `lower_bound(sigdata_type(randomHash, unused, unused))` on, or else the first. -/
def evictee (c : CSignatureCache) (randomHash : Uint256) : Option SigData :=
  match c.setValid.find? fun e ↦ !e.less ⟨randomHash, [], []⟩ with
  | some e => some e
  | none => c.setValid.head?

theorem mem_of_evictee {c : CSignatureCache} {randomHash : Uint256} {e : SigData}
    (h : c.evictee randomHash = some e) : e ∈ c.setValid := by
  rw [evictee] at h
  split at h
  case h_1 hfind =>
    obtain rfl := Option.some.inj h
    exact List.mem_of_find?_eq_some hfind
  case h_2 => exact List.mem_of_head? h

/-- The loop of `Set`, with what `GetRandHash` returns in each round. -/
def evictFrom (c : CSignatureCache) (randomHash : ℕ → Uint256) (nMaxCacheSize n : ℕ) :
    CSignatureCache :=
  if nMaxCacheSize < c.setValid.length then
    match h : c.evictee (randomHash n) with
    | some e => evictFrom ⟨c.setValid.erase e⟩ randomHash nMaxCacheSize (n + 1)
    | none => c
  else c
termination_by c.setValid.length
decreasing_by
  have := List.length_erase_add_one (mem_of_evictee h)
  omega

/-- `Set`; `nMaxCacheSize` is `GetArg("-maxsigcachesize", 50000)`. -/
def set (c : CSignatureCache) (nMaxCacheSize : Int) (randomHash : ℕ → Uint256) (k : SigData) :
    CSignatureCache :=
  if nMaxCacheSize ≤ 0 then c
  else ⟨insertEntry k (c.evictFrom randomHash nMaxCacheSize.toNat 0).setValid⟩

end CSignatureCache

/-- The arguments of `CheckSig`, the cache size that is configured, and the random hashes. -/
structure CheckSigCall where
  vchSig : Bytes
  vchPubKey : Bytes
  scriptCode : Bytes
  txTo : CTransaction
  nIn : Nat
  nHashType : Int
  flags : BitVec 32
  nMaxCacheSize : Int
  randomHash : ℕ → Uint256

namespace CheckSigCall

variable (K : SigningCrypto)

/-- `CheckSig`, `src/script.cpp:1337`. -/
def checkSig (cache : CSignatureCache) (c : CheckSigCall) : Bool × CSignatureCache :=
  let pubkey := CPubKey.ofVector c.vchPubKey
  if pubkey.length = 0 then (false, cache)
  else
    match c.vchSig.getLast? with
    | none => (false, cache)
    | some last =>
      if c.nHashType ≠ 0 ∧ c.nHashType ≠ last.toNat then (false, cache)
      else
        let nHashType : Int := if c.nHashType = 0 then last.toNat else c.nHashType
        let vchSig := c.vchSig.dropLast
        let sighash := signatureHash c.scriptCode c.txTo c.nIn (BitVec.ofInt 32 nHashType) K.hashes
        if cache.get ⟨sighash, vchSig, pubkey⟩ then (true, cache)
        else if !K.verify pubkey sighash vchSig then (false, cache)
        else if c.flags &&& scriptVerifyNocache = 0 then
          (true, cache.set c.nMaxCacheSize c.randomHash ⟨sighash, vchSig, pubkey⟩)
        else (true, cache)

/-- The results of a sequence of calls, and the cache after them. -/
def run (cache : CSignatureCache) : List CheckSigCall → List Bool × CSignatureCache
  | [] => ([], cache)
  | c :: calls =>
    let (result, cache) := c.checkSig K cache
    let (results, cache) := run cache calls
    (result :: results, cache)

/-- The call as an evaluation makes it, where the signature is always verified. -/
def uncached (c : CheckSigCall) : Bool :=
  ScriptEnv.checkSig ⟨K.scriptCrypto, c.txTo, c.nIn, c.nHashType⟩ c.vchSig c.vchPubKey c.scriptCode

/-- The call with `-maxsigcachesize=0`. -/
def disabled (c : CheckSigCall) : CheckSigCall := { c with nMaxCacheSize := 0 }

end CheckSigCall

/-! ### Transparency -/

namespace CSignatureCache

variable {K : SigningCrypto} {c : CSignatureCache}

/-- Every entry has verified. -/
def Verified (K : SigningCrypto) (c : CSignatureCache) : Prop :=
  ∀ e ∈ c.setValid, K.verify e.pubKey e.hash e.vchSig = true

theorem Verified.get (h : c.Verified K) {k : SigData} (hk : c.get k = true) :
    K.verify k.pubKey k.hash k.vchSig = true := by
  obtain ⟨e, he, hsame⟩ := List.any_eq_true.mp hk
  rw [Bool.and_eq_true, Bool.not_eq_true', Bool.not_eq_true'] at hsame
  rw [← SigData.eq_of_not_less hsame.1 hsame.2]
  exact h e he

theorem mem_insertEntry {k e : SigData} {l : List SigData} (h : e ∈ insertEntry k l) :
    e = k ∨ e ∈ l := by
  induction l with
  | nil => exact .inl (List.mem_singleton.mp h)
  | cons e' l ih =>
    rw [insertEntry] at h
    split at h
    · exact List.mem_cons.mp h
    · split at h
      · rcases List.mem_cons.mp h with rfl | h
        · exact .inr List.mem_cons_self
        · exact (ih h).imp_right (List.mem_cons_of_mem e')
      · exact .inr h

theorem Verified.evictFrom (h : c.Verified K) (randomHash : ℕ → Uint256) (nMaxCacheSize n : ℕ) :
    (c.evictFrom randomHash nMaxCacheSize n).Verified K := by
  fun_induction CSignatureCache.evictFrom c randomHash nMaxCacheSize n with
  | case1 c n hlt e he ih => exact ih fun e' he' ↦ h e' (List.mem_of_mem_erase he')
  | case2 => exact h
  | case3 => exact h

theorem Verified.set (h : c.Verified K) {k : SigData} (hk : K.verify k.pubKey k.hash k.vchSig = true)
    (nMaxCacheSize : Int) (randomHash : ℕ → Uint256) :
    (c.set nMaxCacheSize randomHash k).Verified K := by
  rw [CSignatureCache.set]
  split
  · exact h
  · intro e he
    rcases mem_insertEntry he with rfl | he
    · exact hk
    · exact h.evictFrom randomHash nMaxCacheSize.toNat 0 e he

end CSignatureCache

namespace CheckSigCall

variable {K : SigningCrypto}

theorem ofVector_eq (vch : Bytes) :
    (CPubKey.ofVector vch).length = 0 ∧ pubKeyIsValid vch = false ∨
      CPubKey.ofVector vch = vch ∧ pubKeyIsValid vch = true ∧ vch.length ≠ 0 := by
  rw [CPubKey.ofVector]
  cases hvalid : pubKeyIsValid vch with
  | false => exact .inl ⟨rfl, rfl⟩
  | true =>
    refine .inr ⟨rfl, rfl, fun hlength ↦ ?_⟩
    rw [List.length_eq_zero_iff.mp hlength, pubKeyIsValid] at hvalid
    cases hvalid

/-- One call over a cache of verified entries answers as an evaluation without the cache, and
leaves such a cache. -/
theorem checkSig_spec {cache : CSignatureCache} (hcache : cache.Verified K) (c : CheckSigCall) :
    (c.checkSig K cache).1 = c.uncached K ∧ (c.checkSig K cache).2.Verified K := by
  rw [checkSig, uncached, ScriptEnv.checkSig]
  rcases ofVector_eq c.vchPubKey with ⟨hzero, hvalid⟩ | ⟨hkey, hvalid, hlength⟩
  · rw [if_pos hzero, hvalid]
    refine ⟨?_, hcache⟩
    cases c.vchSig.getLast? <;> rfl
  · rw [hkey, if_neg hlength, hvalid]
    cases hlast : c.vchSig.getLast? with
    | none => exact ⟨rfl, hcache⟩
    | some last =>
      dsimp only
      by_cases htype : c.nHashType ≠ 0 ∧ c.nHashType ≠ last.toNat
      · rw [if_pos htype, decide_eq_false htype.1, decide_eq_false htype.2]
        exact ⟨rfl, hcache⟩
      · rw [if_neg htype]
        have hsame : (if c.nHashType = 0 then (last.toNat : Int) else c.nHashType) = last.toNat := by
          split
          · rfl
          · exact not_not.mp fun hne ↦ htype ⟨‹_›, hne⟩
        have hone : (decide (c.nHashType = 0) || decide (c.nHashType = (last.toNat : Int))) = true := by
          rw [Bool.or_eq_true, decide_eq_true_iff, decide_eq_true_iff]
          by_contra hnot
          exact htype (not_or.mp hnot)
        rw [hsame, hone, Bool.true_and, Bool.true_and]
        -- the verification of the evaluation, on the arguments that the entry holds
        change _ = K.verify _ _ _ ∧ _
        split
        case isTrue hget => exact ⟨(hcache.get hget).symm, hcache⟩
        case isFalse =>
          split
          case isTrue hbad => exact ⟨((Bool.not_eq_true' _).mp hbad).symm, hcache⟩
          case isFalse hbad =>
            have hgood := (Bool.not_eq_false _).mp fun h ↦ hbad ((Bool.not_eq_true' _).mpr h)
            split
            · exact ⟨hgood.symm, hcache.set hgood c.nMaxCacheSize c.randomHash⟩
            · exact ⟨hgood.symm, hcache⟩

theorem run_eq {cache : CSignatureCache} (hcache : cache.Verified K) (calls : List CheckSigCall) :
    (run K cache calls).1 = calls.map (uncached K) := by
  induction calls generalizing cache with
  | nil => rfl
  | cons c calls ih =>
    obtain ⟨hresult, hcache'⟩ := checkSig_spec hcache c
    rw [run, List.map_cons, ← hresult, ← ih hcache']

theorem checkSig_snd (cache : CSignatureCache) (c : CheckSigCall) :
    (c.checkSig K cache).2 = cache ∨
      ∃ k, (c.checkSig K cache).2 = cache.set c.nMaxCacheSize c.randomHash k := by
  unfold checkSig
  dsimp only
  split
  · exact .inl rfl
  · split
    · exact .inl rfl
    · split
      · exact .inl rfl
      · split_ifs
        all_goals first | exact .inl rfl | exact .inr ⟨_, rfl⟩

/-- With the cache disabled nothing is ever put into it. -/
theorem run_disabled (calls : List CheckSigCall) :
    (run K {} (calls.map disabled)).2 = {} := by
  induction calls with
  | nil => rfl
  | cons c calls ih =>
    have hcache : (c.disabled.checkSig K {}).2 = {} := by
      rcases checkSig_snd (K := K) {} c.disabled with h | ⟨k, h⟩
      · exact h
      · exact h.trans (if_pos le_rfl)
    rw [List.map_cons, run]
    dsimp only
    rw [hcache, ih]

/-- Whatever the calls, the cache sizes and the evictions, each call of a sequence answers as it
does with the cache disabled, which is as an evaluation that always verifies. -/
theorem checkSig_transparent (K : SigningCrypto) (calls : List CheckSigCall) :
    (run K {} calls).1 = (run K {} (calls.map disabled)).1 ∧
      (run K {} (calls.map disabled)).2.setValid = [] ∧
      (run K {} calls).1 = calls.map (uncached K) := by
  have hempty : CSignatureCache.Verified K {} := fun _ he ↦ absurd he List.not_mem_nil
  have hmap : (calls.map disabled).map (uncached K) = calls.map (uncached K) := by
    rw [List.map_map]
    rfl
  refine ⟨?_, by rw [run_disabled], run_eq hempty calls⟩
  rw [run_eq hempty, run_eq hempty, hmap]

end CheckSigCall

end Bitmark
