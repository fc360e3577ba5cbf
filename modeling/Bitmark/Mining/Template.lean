import Bitmark.Chain.Index

/-!
# The version of a block template

`CreateNewBlock` (`src/miner.cpp:111`) decides the version word of its template from the tip: the
bits of the algorithm once the fork is active, and the flag that updates the scaling factor when
none of the blocks of the algorithm behind it that the rules look at carries one.
-/

namespace Bitmark

/-- `BLOCK_VERSION_VARIANT`, `src/pureheader.h:36`. -/
def blockVersionVariant : Version := (1 : Version) <<< 13

/-- The bits `CPureBlockHeader::SetAlgo` sets, `src/pureheader.h:110`. -/
def Algo.versionBits : Algo → Version
  | .sha256d => blockVersionSha256d
  | .scrypt => blockVersionScrypt
  | .argon2 => blockVersionArgon2
  | .x17 => blockVersionX17
  | .lyra2rev2 => blockVersionLyra2rev2
  | .equihash => blockVersionEquihash
  | .cryptonight => blockVersionCryptonight
  | .yescrypt => blockVersionYescrypt

/-- The fork is active for the block after `pindexPrev`, `src/miner.cpp:129` and `353`. -/
def forkActive (pindexPrev : ChainIndex) : Bool :=
  nForkHeight ≤ pindexPrev.length && isSuperMajority 4 pindexPrev 75 100

/-- The loop of `CreateNewBlock` over the blocks of the algorithm, `src/miner.cpp:366–376`, at its
step `i` with `n` steps left; `pprevAlgo` is not null. -/
def updateLoop : Nat → Nat → ChainIndex → Bool
  | 0, _, _ => true
  | _ + 1, _, [] => true
  | n + 1, i, b :: rest =>
    if updateSsf b.nVersion then i = nSSF - 1
    else
      match getPprevAlgo (b :: rest) with
      | [] => true
      | pprevAlgo => updateLoop n (i + 1) pprevAlgo

/-- Whether `CreateNewBlock` sets the update flag, `src/miner.cpp:353–379`. -/
def setsUpdateSsf (pindexPrev : ChainIndex) (algo : Algo) : Bool :=
  forkActive pindexPrev &&
    match pindexPrev with
    | [] => true
    | tip :: pprev =>
      match if getAlgo tip.nVersion ≠ algo then getPprevAlgo (tip :: pprev) (some algo)
        else tip :: pprev with
      | [] => true
      | pprevAlgo => updateLoop nSSF 0 pprevAlgo

/-- The version word of the template, `src/miner.cpp:123–142` and the update flag. -/
def templateVersion (testNet : Bool) (pindexPrev : ChainIndex) (algo : Algo) : Version :=
  let nVersion : Version := if testNet ∧ pindexPrev.length ≤ 300 ∧ algo = .scrypt then 3 else 4
  let nVersion := if forkActive pindexPrev then nVersion ||| algo.versionBits else nVersion
  let nVersion :=
    if testNet ∧ pindexPrev.length ≤ 1725 then nVersion &&& ~~~blockVersionVariant else nVersion
  if setsUpdateSsf pindexPrev algo then nVersion ||| blockVersionUpdateSsf else nVersion

/-- The version of the template has the algorithm it is for and the flag as decided. -/
theorem templateVersion_spec (testNet : Bool) (pindexPrev : ChainIndex) (algo : Algo)
    (hactive : forkActive pindexPrev = true) :
    getAlgo (templateVersion testNet pindexPrev algo) = algo ∧
      updateSsf (templateVersion testNet pindexPrev algo) = setsUpdateSsf pindexPrev algo := by
  simp only [templateVersion, hactive, if_true]
  generalize setsUpdateSsf pindexPrev algo = flag
  have hbase : ∀ base : Version, base = 3 ∨ base = 4 →
      ∀ nVersion : Version, nVersion = (base ||| algo.versionBits) ∨
        nVersion = (base ||| algo.versionBits) &&& ~~~blockVersionVariant →
      getAlgo (if flag then nVersion ||| blockVersionUpdateSsf else nVersion) = algo ∧
        updateSsf (if flag then nVersion ||| blockVersionUpdateSsf else nVersion) = flag := by
    rintro base (rfl | rfl) nVersion (rfl | rfl) <;> cases flag <;> cases algo <;> decide
  apply hbase (if testNet = true ∧ pindexPrev.length ≤ 300 ∧ algo = .scrypt then 3 else 4)
  · split
    · exact .inl rfl
    · exact .inr rfl
  · split
    · exact .inr rfl
    · exact .inl rfl

end Bitmark
